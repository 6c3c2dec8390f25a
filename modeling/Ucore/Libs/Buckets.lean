import Mathlib.Data.List.Perm.Subperm
import Ucore.Libs.List

/-!
# Hash tables

A hash table is a family of circular lists on the same links: the header `head i` of
each list, and the entry `link a` of each element. The rules say what adding an
element to one list and deleting it do to the whole table.
-/

namespace Ucore.Links

variable {ε ι α : Type*}

/-- The lists of a hash table, and where an element is. -/
structure Buckets (l : Links ε) (head : ι → ε) (link : α → ε) (place : α → ι)
    (chains : ι → List α) : Prop where
  ring : ∀ i, l.Ring (head i) ((chains i).map link)
  placed : ∀ i, ∀ a ∈ chains i, place a = i

namespace Buckets

variable {l : Links ε} {head : ι → ε} {link : α → ε} {place place' : α → ι}
  {chains : ι → List α} {a : α} {i j : ι}

theorem nodup (h : l.Buckets head link place chains) (i : ι) : (chains i).Nodup := by
  have hlist := (List.nodup_cons.mp (h.ring i).nodup).2
  exact List.Nodup.of_map _ hlist

/-- Elements may be renamed outside of the table. -/
theorem congr (h : l.Buckets head link place chains)
    (hsame : ∀ i, ∀ a ∈ chains i, place' a = place a) : l.Buckets head link place' chains :=
  ⟨h.ring, fun i a ha => (hsame i a ha).trans (h.placed i a ha)⟩

/-- A chain is no longer than a set that has its elements. -/
theorem length_le (h : l.Buckets head link place chains) {as : List α}
    (hsub : chains i ⊆ as) : (chains i).length ≤ as.length :=
  ((h.nodup i).subperm hsub).length_le

section Disjoint

variable (hhead : Function.Injective head) (hlink : Function.Injective link)
  (hne : ∀ i a, head i ≠ link a)

include hhead hlink hne in
/-- Different lists share no nodes. -/
theorem not_mem_other (h : l.Buckets head link place chains) (hij : i ≠ j) {e : ε}
    (he : e ∈ head i :: (chains i).map link) : e ∉ head j :: (chains j).map link := by
  intro hmem
  rcases List.mem_cons.mp he with rfl | he
  · rcases List.mem_cons.mp hmem with heq | hmem
    · exact hij (hhead heq)
    · obtain ⟨a, _, heq⟩ := List.mem_map.mp hmem
      exact hne i a heq.symm
  · obtain ⟨a, ha, rfl⟩ := List.mem_map.mp he
    rcases List.mem_cons.mp hmem with heq | hmem
    · exact hne j a heq.symm
    · obtain ⟨b, hb, heq⟩ := List.mem_map.mp hmem
      obtain rfl := hlink heq
      exact hij ((h.placed i b ha).symm.trans (h.placed j b hb))

variable [DecidableEq ε] [DecidableEq ι]

include hhead hlink hne in
/-- `list_add` with a new element. -/
theorem add (h : l.Buckets head link place chains) (hnew : ∀ i, a ∉ chains i) :
    (l.listAdd (head (place a)) (link a)).Buckets head link place
      (Function.update chains (place a) (a :: chains (place a))) := by
  have hout : ∀ i, link a ∉ head i :: (chains i).map link := by
    intro i hmem
    rcases List.mem_cons.mp hmem with heq | hmem
    · exact hne i a heq.symm
    · obtain ⟨b, hb, heq⟩ := List.mem_map.mp hmem
      exact hnew i (hlink heq ▸ hb)
  constructor
  · intro i
    by_cases hi : i = place a
    · subst hi
      rw [Function.update_self, List.map_cons]
      have hring : l.Ring (head (place a)) ([] ++ (chains (place a)).map link) := h.ring _
      exact hring.listAdd (hout _)
    · rw [Function.update_of_ne hi]
      have hnext := ((h.ring (place a)).neighbours_mem List.mem_cons_self).1
      exact (h.ring i).listAdd_other
        (h.not_mem_other hhead hlink hne (Ne.symm hi) List.mem_cons_self) (hout i)
        (h.not_mem_other hhead hlink hne (Ne.symm hi) hnext)
  · intro i b hb
    by_cases hi : i = place a
    · subst hi
      rw [Function.update_self] at hb
      rcases List.mem_cons.mp hb with rfl | hb
      · rfl
      · exact h.placed _ b hb
    · rw [Function.update_of_ne hi] at hb
      exact h.placed i b hb

include hhead hlink hne in
/-- `list_del` with an element of the table. -/
theorem remove [DecidableEq α] (h : l.Buckets head link place chains) (ha : a ∈ chains (place a)) :
    (l.listDel (link a)).Buckets head link place
      (Function.update chains (place a) ((chains (place a)).erase a)) := by
  constructor
  · intro i
    by_cases hi : i = place a
    · subst hi
      rw [Function.update_self]
      obtain ⟨us, vs, hsplit⟩ := List.append_of_mem ha
      have hnodup := h.nodup (place a)
      rw [hsplit, List.nodup_append] at hnodup
      have hus : a ∉ us := fun hmem => hnodup.2.2 _ hmem _ List.mem_cons_self rfl
      have hring := h.ring (place a)
      rw [hsplit, List.map_append, List.map_cons] at hring
      rw [hsplit, List.erase_append_right _ hus, List.erase_cons_head, List.map_append]
      exact hring.listDel
    · rw [Function.update_of_ne hi]
      have hneighbours := (h.ring (place a)).neighbours_mem
        (List.mem_cons_of_mem _ (List.mem_map_of_mem ha))
      exact (h.ring i).listDel_other
        (h.not_mem_other hhead hlink hne (Ne.symm hi) hneighbours.1)
        (h.not_mem_other hhead hlink hne (Ne.symm hi) hneighbours.2)
  · intro i b hb
    by_cases hi : i = place a
    · subst hi
      rw [Function.update_self] at hb
      exact h.placed _ b (List.mem_of_mem_erase hb)
    · rw [Function.update_of_ne hi] at hb
      exact h.placed i b hb

end Disjoint

/-! ## Which elements there are -/

variable [DecidableEq ι] [DecidableEq α] {as : List α}

/-- The table holds the elements `as`, each in its place. -/
def Holds (place : α → ι) (chains : ι → List α) (as : List α) : Prop :=
  ∀ i a, a ∈ chains i ↔ a ∈ as ∧ place a = i

omit [DecidableEq ι] [DecidableEq α] in
theorem Holds.mem (h : Holds place chains as) (ha : a ∈ as) : a ∈ chains (place a) :=
  (h _ a).mpr ⟨ha, rfl⟩

omit [DecidableEq α] in
theorem Holds.add (h : Holds place chains as) :
    Holds place (Function.update chains (place a) (a :: chains (place a))) (a :: as) := by
  intro i b
  by_cases hi : i = place a
  · subst hi
    rw [Function.update_self, List.mem_cons, List.mem_cons, h]
    constructor
    · rintro (rfl | ⟨hb, hplace⟩)
      · exact ⟨Or.inl rfl, rfl⟩
      · exact ⟨Or.inr hb, hplace⟩
    · rintro ⟨rfl | hb, hplace⟩
      · exact Or.inl rfl
      · exact Or.inr ⟨hb, hplace⟩
  · rw [Function.update_of_ne hi, List.mem_cons, h]
    constructor
    · exact fun hb => ⟨Or.inr hb.1, hb.2⟩
    · rintro ⟨rfl | hb, hplace⟩
      · exact absurd hplace.symm hi
      · exact ⟨hb, hplace⟩

theorem Holds.remove (h : Holds place chains as) (hnodup : as.Nodup)
    (hchain : (chains (place a)).Nodup) :
    Holds place (Function.update chains (place a) ((chains (place a)).erase a)) (as.erase a) := by
  intro i b
  rw [hnodup.mem_erase_iff]
  by_cases hi : i = place a
  · subst hi
    rw [Function.update_self, hchain.mem_erase_iff, h, and_assoc]
  · rw [Function.update_of_ne hi, h]
    constructor
    · rintro ⟨hb, hplace⟩
      refine ⟨⟨?_, hb⟩, hplace⟩
      rintro rfl
      exact hi hplace.symm
    · exact fun hb => ⟨hb.1.2, hb.2⟩

end Buckets

end Ucore.Links
