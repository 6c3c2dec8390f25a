import Mathlib.Data.List.Basic
import Mathlib.Data.List.Nodup

/-!
# Taking turns

The elements of a list take turns, in the order of the list and from its end back to its
start, behind a cursor. An element that is ready has its turn before the cursor comes past
it, whatever is added at the front or removed meanwhile.
-/

namespace Ucore

variable {α : Type*} [DecidableEq α] {xs ys us vs : List α} {c d n p q z : α} {ready : α → Bool}

/-- The order of the turns behind the cursor `c`, which comes last. A cursor that is not on the
list stands before it. -/
def turns (xs : List α) (c : α) : List α :=
  if c ∈ xs then (xs.dropWhile (· ≠ c)).tail ++ xs.takeWhile (· ≠ c) ++ [c] else xs

theorem turns_split (hc : c ∉ us) : turns (us ++ c :: vs) c = vs ++ us ++ [c] := by
  have hus : ∀ x ∈ us, decide (x ≠ c) = true :=
    fun x hx => decide_eq_true (ne_of_mem_of_not_mem hx hc)
  rw [turns, if_pos (by simp), List.dropWhile_append_of_pos hus, List.takeWhile_append_of_pos hus,
    List.dropWhile_cons_of_neg (by simp), List.takeWhile_cons_of_neg (by simp), List.tail_cons,
    List.append_nil]

theorem turns_of_not_mem (hc : c ∉ xs) : turns xs c = xs := if_neg hc

/-- The turns are those of the elements. -/
theorem turns_perm (xs : List α) (c : α) : (turns xs c).Perm xs := by
  by_cases hc : c ∈ xs
  · obtain ⟨us, vs, rfl, hus⟩ := List.eq_append_cons_of_mem hc
    rw [turns_split hus, List.append_assoc]
    exact List.perm_append_comm.trans (by simp)
  · rw [turns_of_not_mem hc]

/-- The cursor moves on to an element. -/
theorem turns_next (hnodup : xs.Nodup) (hturns : turns xs c = us ++ d :: vs) :
    turns xs d = vs ++ us ++ [d] := by
  have hnot : d ∉ us ∧ d ∉ vs := by
    have hsplit := (turns_perm xs c).nodup_iff.mpr hnodup
    rw [hturns, List.nodup_middle, List.nodup_cons, List.mem_append, not_or] at hsplit
    exact hsplit.1
  have hmem : d ∈ xs := by
    rw [← (turns_perm xs c).mem_iff, hturns]
    simp
  have hunique : ∀ {as bs : List α}, turns xs c = as ++ d :: bs → us = as ∧ vs = bs := by
    intro as bs hsplit
    rw [hturns] at hsplit
    obtain ⟨has, _, hbs⟩ := (List.append_cons_inj_of_notMem hnot.1 hnot.2).mp hsplit
    exact ⟨has, hbs⟩
  by_cases hc : c ∈ xs
  · obtain ⟨as, bs, rfl, has⟩ := List.eq_append_cons_of_mem hc
    rw [turns_split has] at hunique
    rw [List.mem_append, List.mem_cons] at hmem
    rcases hmem with hmem | rfl | hmem
    · obtain ⟨ls, rs, rfl, hls⟩ := List.eq_append_cons_of_mem hmem
      obtain ⟨rfl, rfl⟩ := @hunique (bs ++ ls) (rs ++ [c]) (by simp)
      have hcursor : turns (ls ++ d :: (rs ++ c :: bs)) d = rs ++ c :: bs ++ ls ++ [d] :=
        turns_split hls
      simpa using hcursor
    · obtain ⟨rfl, rfl⟩ := @hunique (bs ++ as) [] (by simp)
      rw [turns_split has]
      simp
    · obtain ⟨ls, rs, rfl, hls⟩ := List.eq_append_cons_of_mem hmem
      obtain ⟨rfl, rfl⟩ := @hunique ls (rs ++ as ++ [c]) (by simp)
      have hsplit : as ++ c :: (us ++ d :: rs) = (as ++ c :: us) ++ d :: rs := by simp
      rw [hsplit, List.nodup_middle, List.nodup_cons] at hnodup
      rw [hsplit, turns_split fun hmem => hnodup.1 (List.mem_append_left rs hmem)]
      simp
  · rw [turns_of_not_mem hc] at hturns
    subst hturns
    exact turns_split hnot.1

/-- In this order, `p` comes before `q`, or `q` does not come at all. -/
def Sooner (order : List α) (p q : α) : Prop := ∃ us vs, order = us ++ p :: vs ∧ q ∉ us

/-- With the cursor at `q`, every other element comes before `q`. -/
theorem sooner_cursor (hnodup : xs.Nodup) (hp : p ∈ xs) (hne : p ≠ q) :
    Sooner (turns xs q) p q := by
  by_cases hq : q ∈ xs
  · obtain ⟨as, bs, rfl, has⟩ := List.eq_append_cons_of_mem hq
    rw [turns_split has]
    have hother : p ∈ bs ++ as := by
      simp only [List.mem_append, List.mem_cons] at hp ⊢
      tauto
    have hnot : q ∉ bs ++ as := by
      rw [List.nodup_middle, List.nodup_cons] at hnodup
      simpa [or_comm] using hnodup.1
    obtain ⟨us, vs, hsplit, _⟩ := List.eq_append_cons_of_mem hother
    refine ⟨us, vs ++ [q], by rw [hsplit]; simp, fun hmem => hnot ?_⟩
    rw [hsplit]
    exact List.mem_append_left _ hmem
  · rw [turns_of_not_mem hq]
    obtain ⟨us, vs, rfl, _⟩ := List.eq_append_cons_of_mem hp
    exact ⟨us, vs, rfl, fun hmem => hq (List.mem_append_left _ hmem)⟩

namespace Sooner

omit [DecidableEq α] in
theorem filter {order : List α} (h : Sooner order p q) (hp : ready p = true) :
    Sooner (order.filter ready) p q := by
  obtain ⟨us, vs, rfl, hq⟩ := h
  refine ⟨us.filter ready, vs.filter ready, ?_, fun hmem => hq (List.mem_of_mem_filter hmem)⟩
  rw [List.filter_append, List.filter_cons_of_pos hp]

/-- The first element that is ready has its turn. If it is not `p`, which is ready, then `p` still
comes before `q`. -/
theorem next (h : Sooner (turns xs c) p q) (hnodup : xs.Nodup) (hp : ready p = true)
    (hfind : (turns xs c).find? ready = some d) (hne : d ≠ p) : d ≠ q ∧
      Sooner (turns xs d) p q := by
  obtain ⟨us, vs, horder, hq⟩ := h
  obtain ⟨hd, as, bs, hsplit, has⟩ := List.find?_eq_some_iff_append.mp hfind
  -- the first one comes before `p`
  have hbefore : ∃ ms, us = as ++ d :: ms ∧ bs = ms ++ p :: vs := by
    rw [horder] at hsplit
    rcases List.append_eq_append_iff.mp hsplit with ⟨ms, rfl, hrest⟩ | ⟨ms, rfl, hrest⟩
    · cases ms with
      | nil => exact absurd (List.cons.inj hrest).1.symm hne
      | cons m ms =>
          obtain ⟨rfl, rfl⟩ := List.cons.inj hrest
          have hlate := has p (by simp)
          rw [hp] at hlate
          cases hlate
    · cases ms with
      | nil => exact absurd (List.cons.inj hrest).1 hne
      | cons m ms =>
          obtain ⟨rfl, rfl⟩ := List.cons.inj hrest
          exact ⟨ms, rfl, rfl⟩
  obtain ⟨ms, rfl, rfl⟩ := hbefore
  rw [List.mem_append, List.mem_cons, not_or, not_or] at hq
  refine ⟨Ne.symm hq.2.1, ms, vs ++ as ++ [d], ?_, hq.2.2⟩
  rw [turns_next hnodup hsplit]
  simp

/-- A new element at the front. -/
theorem cons (h : Sooner (turns xs c) p q) (hnew : n ∉ xs) (hc : c ≠ n) (hq : n ≠ q) :
    Sooner (turns (n :: xs) c) p q := by
  -- it is put somewhere in the order of the turns
  have hinsert : ∀ {as bs : List α}, Sooner (as ++ bs) p q → Sooner (as ++ n :: bs) p q := by
    rintro as bs ⟨us, vs, hsplit, hnot⟩
    rcases List.append_eq_append_iff.mp hsplit with ⟨ms, rfl, rfl⟩ | ⟨ms, rfl, hrest⟩
    · refine ⟨as ++ n :: ms, vs, by simp, ?_⟩
      simp only [List.mem_append, List.mem_cons, not_or] at hnot ⊢
      exact ⟨hnot.1, Ne.symm hq, hnot.2⟩
    · cases ms with
      | nil =>
          refine ⟨us ++ [n], vs, ?_, ?_⟩
          · rw [List.nil_append] at hrest
            rw [← hrest]
            simp
          · simp only [List.mem_append, List.mem_singleton, not_or]
            exact ⟨hnot, Ne.symm hq⟩
      | cons m ms =>
          obtain ⟨rfl, rfl⟩ := List.cons.inj hrest
          exact ⟨us, ms ++ n :: bs, by simp, hnot⟩
  by_cases hmem : c ∈ xs
  · obtain ⟨as, bs, rfl, has⟩ := List.eq_append_cons_of_mem hmem
    rw [turns_split has, List.append_assoc] at h
    rw [← List.cons_append, turns_split (by simp [hc, has]), List.append_assoc]
    exact hinsert h
  · rw [turns_of_not_mem hmem] at h
    rw [turns_of_not_mem (by simp [hc, hmem])]
    exact @hinsert [] _ h

/-- An element that is neither `p` nor the cursor is removed. -/
theorem remove (h : Sooner (turns (us ++ z :: vs) c) p q) (hnodup : (us ++ z :: vs).Nodup)
    (hp : z ≠ p) (hc : z ≠ c) : Sooner (turns (us ++ vs) c) p q := by
  have hfilter : ∀ {xs : List α} {d : α}, d ≠ z →
      (turns xs d).filter (· != z) = turns (xs.filter (· != z)) d := by
    intro xs d hd
    by_cases hmem : d ∈ xs
    · obtain ⟨as, bs, rfl, has⟩ := List.eq_append_cons_of_mem hmem
      have hkeep : ∀ ds : List α, (d :: ds).filter (· != z) = d :: ds.filter (· != z) :=
        fun ds => List.filter_cons_of_pos (bne_iff_ne.mpr hd)
      rw [turns_split has, List.filter_append, List.filter_append, List.filter_append, hkeep, hkeep,
        turns_split fun hin => has (List.mem_of_mem_filter hin), List.filter_nil]
    · rw [turns_of_not_mem hmem, turns_of_not_mem fun hin => hmem (List.mem_of_mem_filter hin)]
  have hrest : (us ++ z :: vs).filter (· != z) = us ++ vs := by
    rw [← hnodup.erase_eq_filter z]
    have hus : z ∉ us := by
      rw [List.nodup_middle, List.nodup_cons] at hnodup
      exact fun hin => hnodup.1 (List.mem_append_left _ hin)
    rw [List.erase_append_right _ hus, List.erase_cons_head]
  rw [← hrest, ← hfilter (Ne.symm hc)]
  exact h.filter (bne_iff_ne.mpr (Ne.symm hp))

end Sooner

end Ucore
