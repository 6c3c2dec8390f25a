import Mathlib.Data.List.TakeWhile
import Ucore.Mm.Vma

/-!
# Where `mm_map` maps

`mm_map` asks `find_vma` for the area of the first address only, and leaves the rest to the
assertions of `insert_vma_struct`. Areas are any ranges here, aligned or not.
-/

namespace Ucore.Mm

open Mmu Machine

/-- The areas are in order and apart, none is empty, and the cache is one of them or null. -/
structure MmStruct.Apart (mm : MmStruct) : Prop where
  sorted : mm.mmapList.Pairwise fun prev next => prev.vmEnd ≤ next.vmStart
  nonempty : ∀ vma ∈ mm.mmapList, vma.vmStart < vma.vmEnd
  cache : ∀ vma, mm.mmapCache = some vma → vma ∈ mm.mmapList

/-- An address in some area. -/
def MmStruct.Covers (mm : MmStruct) (addr : Nat) : Prop := ∃ vma ∈ mm.mmapList, vma.contains addr

instance (mm : MmStruct) : DecidablePred mm.Covers := fun addr =>
  inferInstanceAs (Decidable (∃ vma ∈ mm.mmapList, vma.contains addr))

/-- The range `[start, stop)` has an address in some area. -/
def MmStruct.Overlaps (mm : MmStruct) (start stop : Nat) : Prop :=
  ∃ vma ∈ mm.mmapList, vma.vmStart < stop ∧ start < vma.vmEnd

instance (mm : MmStruct) (start stop : Nat) : Decidable (mm.Overlaps start stop) :=
  inferInstanceAs (Decidable (∃ vma ∈ mm.mmapList, vma.vmStart < stop ∧ start < vma.vmEnd))

variable {E : Panic → Prop} {s : Kern} {mm : MmStruct} {vma : VmaStruct} {addr start stop : Nat}

/-! ## Lists of areas -/

theorem MmStruct.Ok.toApart (hmm : mm.Ok) : mm.Apart :=
  ⟨hmm.sorted, fun vma hvma => (hmm.areas vma hvma).lt, hmm.cache⟩

namespace MmStruct.Apart

/-- Areas with an address in common are the same. -/
theorem unique (hmm : mm.Apart) {vma' : VmaStruct} (hvma : vma ∈ mm.mmapList)
    (hvma' : vma' ∈ mm.mmapList) (haddr : vma.contains addr) (haddr' : vma'.contains addr) :
    vma = vma' := by
  have hsymm : Std.Symm fun a b : VmaStruct => a = b ∨ a.vmEnd ≤ b.vmStart ∨ b.vmEnd ≤ a.vmStart :=
    ⟨fun _ _ h => h.imp Eq.symm Or.symm⟩
  have hapart : mm.mmapList.Pairwise fun a b : VmaStruct =>
      a = b ∨ a.vmEnd ≤ b.vmStart ∨ b.vmEnd ≤ a.vmStart :=
    hmm.sorted.imp fun h => Or.inr (Or.inl h)
  have hall : vma = vma' ∨ vma.vmEnd ≤ vma'.vmStart ∨ vma'.vmEnd ≤ vma.vmStart := by
    refine List.Pairwise.forall_of_forall ?_ hapart hvma hvma'
    exact fun _ _ => Or.inl rfl
  unfold VmaStruct.contains at haddr haddr'
  rcases hall with heq | hlt | hlt
  · exact heq
  · omega
  · omega

/-- The cache is only there for speed. -/
theorem findVma_eq (hmm : mm.Apart) (addr : Nat) :
    (findVma mm addr).1 = mm.mmapList.find? (·.contains addr) := by
  unfold findVma
  cases hcache : mm.mmapCache with
  | none =>
      dsimp only
      cases mm.mmapList.find? (·.contains addr) <;> rfl
  | some cached =>
      dsimp only
      by_cases haddr : cached.contains addr
      · have hcached := hmm.cache cached hcache
        rw [if_pos haddr]
        cases hfind : mm.mmapList.find? (·.contains addr) with
        | none =>
            rw [List.find?_eq_none] at hfind
            exact absurd (decide_eq_true haddr) (hfind cached hcached)
        | some found =>
            have hfound : found.contains addr := by simpa using List.find?_some hfind
            rw [hmm.unique hcached (List.mem_of_find?_eq_some hfind) haddr hfound]
      · rw [if_neg haddr]
        cases mm.mmapList.find? (·.contains addr) <;> rfl

theorem findVma_none (hmm : mm.Apart) : (findVma mm addr).1 = none ↔ ¬mm.Covers addr := by
  rw [hmm.findVma_eq, List.find?_eq_none, MmStruct.Covers]
  simp

theorem findVma_some (hmm : mm.Apart) :
    (findVma mm addr).1 = some vma ↔ vma ∈ mm.mmapList ∧ vma.contains addr := by
  rw [hmm.findVma_eq]
  constructor
  · intro hfind
    exact ⟨List.mem_of_find?_eq_some hfind, by simpa using List.find?_some hfind⟩
  · intro ⟨hvma, haddr⟩
    cases hfind : mm.mmapList.find? (·.contains addr) with
    | none =>
        rw [List.find?_eq_none] at hfind
        exact absurd (decide_eq_true haddr) (hfind vma hvma)
    | some found =>
        have hfound : found.contains addr := by simpa using List.find?_some hfind
        rw [hmm.unique (List.mem_of_find?_eq_some hfind) hvma hfound haddr]

/-- Only the cache changes in a lookup. -/
theorem findVma_snd (hmm : mm.Apart) (addr : Nat) :
    (findVma mm addr).2.Apart ∧ (findVma mm addr).2.mmapList = mm.mmapList := by
  have hsnd : (findVma mm addr).2 = mm ∨
      ∃ vma, (findVma mm addr).1 = some vma ∧
        (findVma mm addr).2 = { mm with mmapCache := some vma } := by
    unfold findVma
    dsimp only
    split
    · exact Or.inl rfl
    · exact Or.inr ⟨_, rfl, rfl⟩
  rcases hsnd with hsnd | ⟨vma, hfst, hsnd⟩
  · rw [hsnd]
    exact ⟨hmm, rfl⟩
  · rw [hsnd]
    refine ⟨⟨hmm.sorted, hmm.nonempty, ?_⟩, rfl⟩
    intro cached hcache
    rw [← Option.some.inj hcache]
    exact (hmm.findVma_some.mp hfst).1

/-- An area is put between those before it and those behind it. -/
theorem insertVmaStruct (hmm : mm.Apart) (hlt : vma.vmStart < vma.vmEnd)
    (hfree : ¬mm.Overlaps vma.vmStart vma.vmEnd) :
    Ends E (insertVmaStruct mm vma) s fun mm' t => t = s ∧ mm'.Apart ∧
      ∀ a, a ∈ mm'.mmapList ↔ a = vma ∨ a ∈ mm.mmapList := by
  unfold Mm.insertVmaStruct
  obtain ⟨front, hfront⟩ : ∃ l, l = mm.mmapList.takeWhile (·.vmStart ≤ vma.vmStart) := ⟨_, rfl⟩
  obtain ⟨back, hback⟩ : ∃ l, l = mm.mmapList.dropWhile (·.vmStart ≤ vma.vmStart) := ⟨_, rfl⟩
  have hlist : mm.mmapList = front ++ back := by
    rw [hfront, hback, List.takeWhile_append_dropWhile]
  have hnonempty : ∀ a ∈ front ++ back, a.vmStart < a.vmEnd := hlist ▸ hmm.nonempty
  have hsorted := hmm.sorted
  rw [hlist, List.pairwise_append] at hsorted
  obtain ⟨hsortedFront, hsortedBack, hacross⟩ := hsorted
  have hside : ∀ a ∈ front ++ back, a.vmEnd ≤ vma.vmStart ∨ vma.vmEnd ≤ a.vmStart := by
    intro a ha
    by_contra hnot
    refine hfree ⟨a, hlist ▸ ha, ?_, ?_⟩ <;> omega
  have hbefore : ∀ a ∈ front, a.vmEnd ≤ vma.vmStart := by
    intro a ha
    have hle : a.vmStart ≤ vma.vmStart := by
      rw [hfront] at ha
      simpa using List.mem_takeWhile_imp ha
    rcases hside a (List.mem_append_left _ ha) with h | h <;> omega
  have hbehind : ∀ a ∈ back, vma.vmEnd ≤ a.vmStart := by
    cases back with
    | nil => nofun
    | cons next rest =>
        have hgt : ¬next.vmStart ≤ vma.vmStart := by
          intro hle
          have hhead :=
            List.head?_dropWhile_not (fun a : VmaStruct => decide (a.vmStart ≤ vma.vmStart))
            mm.mmapList
          rw [← hback] at hhead
          simp [hle] at hhead
        have hnext : vma.vmEnd ≤ next.vmStart := by
          have hne := hnonempty next (by simp)
          rcases hside next (by simp) with h | h <;> omega
        intro a ha
        rcases List.mem_cons.mp ha with rfl | hrest
        · exact hnext
        · have hle := (List.pairwise_cons.mp hsortedBack).1 a hrest
          have hne := hnonempty next (by simp)
          omega
  have hcheck : ∀ {prev next : VmaStruct}, prev.vmStart < prev.vmEnd → prev.vmEnd ≤ next.vmStart →
      next.vmStart < next.vmEnd → Ends E (checkVmaOverlap prev next) s fun _ t => t = s := by
    intro prev next hprev hle hnext
    rw [checkVmaOverlap, if_pos ⟨hprev, hle, hnext⟩]
    rfl
  rw [if_neg (Nat.not_le_of_lt hlt), ← hfront, ← hback]
  simp only [ends_bind]
  have hlast : Ends E (front.getLast?.forM (checkVmaOverlap · vma)) s fun _ t => t = s := by
    cases hlast : front.getLast? with
    | none => rfl
    | some prev =>
        have hprev := List.mem_of_getLast? hlast
        exact hcheck (hnonempty prev (List.mem_append_left _ hprev)) (hbefore prev hprev) hlt
  have hfirst : Ends E (back.head?.forM (checkVmaOverlap vma ·)) s fun _ t => t = s := by
    cases hhead : back.head? with
    | none => rfl
    | some next =>
        have hnext := List.mem_of_head? hhead
        exact hcheck hlt (hbehind next hnext) (hnonempty next (List.mem_append_right _ hnext))
  apply hlast.imp
  intro _ t ht
  rw [ht]
  apply hfirst.imp
  intro _ t ht
  rw [ht, ends_pure]
  have hmem : ∀ a, a ∈ front ++ vma :: back ↔ a = vma ∨ a ∈ mm.mmapList := by
    intro a
    rw [hlist, List.mem_append, List.mem_append, List.mem_cons]
    tauto
  refine ⟨rfl, ⟨?_, ?_, ?_⟩, hmem⟩
  · rw [List.pairwise_append, List.pairwise_cons]
    refine ⟨hsortedFront, ⟨hbehind, hsortedBack⟩, ?_⟩
    intro a ha b hb
    rcases List.mem_cons.mp hb with rfl | hb
    · exact hbefore a ha
    · exact hacross a ha b hb
  · intro a ha
    rcases (hmem a).mp ha with rfl | ha
    · exact hlt
    · exact hmm.nonempty a ha
  · intro a ha
    exact (hmem a).mpr (Or.inr (hmm.cache a ha))

end MmStruct.Apart

/-! ## `mm_map` -/

/-- The first address of the pages that hold `addr` and what follows. -/
def mapStart (addr : Nat) : Nat := rounddown addr PGSIZE

/-- The end of these pages, as `mm_map` computes it in 64 bits. -/
def mapStop (addr len : Nat) : Nat := rounddown ((addr + len + PGSIZE - 1) % 2 ^ 64) PGSIZE

/-- What `mm_map` is for. A range that is no user range or not free is refused; another one
is added if there is memory for its `vma_struct`; no assertion fails. -/
def MapsFree (al : Allocator) (s : Kern) (mm : MmStruct) (addr len : Nat) (vmFlags : BitVec 32) :
    Prop :=
  Ends never (mmMap al mm addr len vmFlags) s fun r _ =>
    if ¬userAccess (mapStart addr) (mapStop addr len) ∨ mm.Overlaps (mapStart addr)
      (mapStop addr len)
    then r.1 = -E_INVAL ∧ r.2.mmapList = mm.mmapList
    else if al.heap s.tick then r.1 = 0 ∧ r.2.Apart ∧
      ∀ a, r.2.Covers a ↔ mm.Covers a ∨ mapStart addr ≤ a ∧ a < mapStop addr len
    else r.1 = -E_NO_MEM ∧ r.2.mmapList = mm.mmapList

/-- The range overlaps the area of one of its addresses. -/
theorem MmStruct.Covers.overlaps (h : mm.Covers addr) (hstart : start ≤ addr)
    (hstop : addr < stop) :
    mm.Overlaps start stop := by
  obtain ⟨vma, hvma, haddr⟩ := h
  exact ⟨vma, hvma, lt_of_le_of_lt haddr.1 hstop, lt_of_le_of_lt hstart haddr.2⟩

/-- `mm_map` once nothing is known to be in the way: the area is made and inserted. -/
def insertNew (al : Allocator) (mm : MmStruct) (start stop : Nat) (vmFlags : BitVec 32) :
    KernM (Int × MmStruct) := do
  match ← vmaCreate al start stop vmFlags with
  | none => pure (-E_NO_MEM, mm)
  | some vma => (0, ·) <$> insertVmaStruct mm vma

theorem mmMap_eq (al : Allocator) (mm : MmStruct) (addr len : Nat) (vmFlags : BitVec 32) :
    mmMap al mm addr len vmFlags =
      if ¬userAccess (mapStart addr) (mapStop addr len) then pure (-E_INVAL, mm)
      else if (findVma mm (mapStart addr)).1.any (·.vmStart < mapStop addr len) then
        pure (-E_INVAL, (findVma mm (mapStart addr)).2)
      else insertNew al (findVma mm (mapStart addr)).2 (mapStart addr) (mapStop addr len) vmFlags :=
  rfl

theorem insertNew_spec (al : Allocator) (hmm : mm.Apart) (hlt : start < stop) (vmFlags : BitVec 32)
    (hfree : ¬mm.Overlaps start stop) :
    Ends never (insertNew al mm start stop vmFlags) s fun r _ =>
      if al.heap s.tick then r.1 = 0 ∧ r.2.Apart ∧
        ∀ a, r.2.Covers a ↔ mm.Covers a ∨ start ≤ a ∧ a < stop
      else r.1 = -E_NO_MEM ∧ r.2.mmapList = mm.mmapList := by
  rw [insertNew, ends_bind, vmaCreate, ends_bind]
  change Ends never (if al.heap s.tick then _ else _) s.nextTick _
  cases al.heap s.tick with
  | false => exact ⟨rfl, rfl⟩
  | true =>
      have hinsert : Ends never (insertVmaStruct mm ⟨start, stop, vmFlags⟩) s.nextTick _ :=
        hmm.insertVmaStruct hlt hfree
      change Ends never ((0, ·) <$> insertVmaStruct mm ⟨start, stop, vmFlags⟩) s.nextTick _
      rw [ends_map]
      apply hinsert.imp
      intro mm' _ ⟨_, hmm', hmem⟩
      refine ⟨rfl, hmm', ?_⟩
      intro a
      unfold MmStruct.Covers
      constructor
      · intro ⟨vma, hvma, ha⟩
        rcases (hmem vma).mp hvma with rfl | hvma
        · exact Or.inr ha
        · exact Or.inl ⟨vma, hvma, ha⟩
      · rintro (⟨vma, hvma, ha⟩ | ha)
        · exact ⟨vma, (hmem vma).mpr (Or.inr hvma), ha⟩
        · exact ⟨_, (hmem _).mpr (Or.inl rfl), ha⟩

/-- `mm_map` never refuses a range from here on. -/
theorem insertNew_accepts (al : Allocator) (mm : MmStruct) (vmFlags : BitVec 32) (s : Kern)
    {Q : MmStruct → Prop} :
    ¬Ends never (insertNew al mm start stop vmFlags) s fun r _ => r.1 = -E_INVAL ∧ Q r.2 := by
  have hnoMem : -E_NO_MEM ≠ -E_INVAL := by decide
  have hzero : (0 : Int) ≠ -E_INVAL := by decide
  rw [insertNew, ends_bind, vmaCreate, ends_bind]
  change ¬Ends never (if al.heap s.tick then _ else _) s.nextTick _
  cases al.heap s.tick with
  | false => exact fun hends => hnoMem hends.1
  | true =>
      change ¬Ends never ((0, ·) <$> insertVmaStruct mm ⟨start, stop, vmFlags⟩) s.nextTick _
      rw [ends_map]
      intro hends
      obtain ⟨mm', t, _, hinval, _⟩ := hends.ok
      exact hzero hinval

/-- `mm_map` does what it is for exactly if a range that is not free shows at its first address. -/
theorem mapsFree_iff (al : Allocator) (s : Kern) (hmm : mm.Apart) (addr len : Nat)
    (vmFlags : BitVec 32) :
    MapsFree al s mm addr len vmFlags ↔
      (userAccess (mapStart addr) (mapStop addr len) →
        mm.Overlaps (mapStart addr) (mapStop addr len) → mm.Covers (mapStart addr)) := by
  rw [MapsFree, mmMap_eq]
  generalize mapStart addr = start
  generalize mapStop addr len = stop
  by_cases huser : userAccess start stop
  · obtain ⟨hmm', hlist⟩ := hmm.findVma_snd start
    have hnone : (findVma mm start).1 = none ↔ ¬mm.Covers start := hmm.findVma_none
    rw [if_neg (not_not.mpr huser)]
    simp only [huser, not_true_eq_false, false_or, true_implies]
    cases hfind : (findVma mm start).1 with
    | some vma =>
        obtain ⟨hvma, hstart⟩ := hmm.findVma_some.mp hfind
        have hcovers : mm.Covers start := ⟨vma, hvma, hstart⟩
        have hoverlaps := hcovers.overlaps (le_refl start) huser.2.1
        have htaken : (some vma).any (·.vmStart < stop) = true :=
          decide_eq_true (lt_of_le_of_lt hstart.1 huser.2.1)
        simp only [htaken, if_true, hoverlaps, hcovers]
        exact iff_of_true ⟨rfl, hlist⟩ fun _ => trivial
    | none =>
        have hcovers := hnone.mp hfind
        have hsame : ∀ a, (findVma mm start).2.Covers a ↔ mm.Covers a := by
          intro a
          unfold MmStruct.Covers
          rw [hlist]
        rw [Option.any_none, if_neg Bool.false_ne_true]
        by_cases hoverlaps : mm.Overlaps start stop
        · simp only [hoverlaps, hcovers, if_true, true_implies, iff_false]
          exact insertNew_accepts al _ vmFlags s (Q := fun mm' => mm'.mmapList = mm.mmapList)
        · simp only [hoverlaps, if_false, false_implies, iff_true]
          have hfree : ¬(findVma mm start).2.Overlaps start stop := by
            unfold MmStruct.Overlaps
            rw [hlist]
            exact hoverlaps
          have hspec := insertNew_spec (s := s) al hmm' huser.2.1 vmFlags hfree
          simp only [hsame, hlist] at hspec
          exact hspec
  · rw [if_pos huser, ends_pure]
    simp only [huser, not_false_eq_true, true_or, if_true, false_implies, iff_true]
    trivial

/-- There is room before and behind the area, and it is hit from below. -/
def oneArea : MmStruct := ⟨[⟨0x400000, 0x401000, VM_READ⟩], none, 1, 1⟩

def emptyAllocator : Allocator := .ofList []

theorem mapsFree_iff_oneArea :
    MapsFree emptyAllocator (bootKern ∅) oneArea 0x401000 0x1000 VM_READ := by
  refine (mapsFree_iff emptyAllocator (bootKern ∅) ⟨?_, ?_, ?_⟩ 0x401000 0x1000 VM_READ).mpr ?_
  · exact List.pairwise_singleton _ _
  · decide
  · nofun
  · decide

/-- A range that starts below the area. -/
theorem oneArea_below : oneArea.Overlaps (mapStart 0x3ff000) (mapStop 0x3ff000 0x2000) ∧
    ¬MapsFree emptyAllocator (bootKern ∅) oneArea 0x3ff000 0x2000 VM_READ := by
  have hoverlaps : oneArea.Overlaps (mapStart 0x3ff000) (mapStop 0x3ff000 0x2000) := by decide
  refine ⟨hoverlaps, ?_⟩
  unfold MapsFree
  simp only [hoverlaps, or_true, if_true]
  intro hends
  obtain ⟨r, t, hresult, _⟩ := hends.ok
  have hpanic : mmMap emptyAllocator oneArea 0x3ff000 0x2000 VM_READ (bootKern ∅) =
      .error .vmaOverlap := by rfl
  rw [hpanic] at hresult
  nomatch hresult

end Ucore.Mm
