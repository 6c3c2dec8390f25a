import Ucore.Foundation.Runs
import Ucore.Pmm.Blocks

/-!
# A page manager at work on one region

A manager is given a region of pages once and then serves requests. `Region`
pairs its state with the blocks it has handed out and not got back; what the
manager owes its callers is stated about the pages that are in none of them.
-/

namespace Ucore.Pmm

open Finset

/-- `struct pmm_manager`, as far as regions are concerned. -/
structure Manager where
  initMemmap : Nat → Nat → FreeArea → Option FreeArea
  allocPages : Nat → FreeArea → Option (Option Nat × FreeArea)
  freePages : Nat → Nat → FreeArea → Option FreeArea

/-- The state of the manager, and the blocks (first page, number of pages) that
its callers hold. -/
structure Region where
  area : FreeArea
  blocks : List (Nat × Nat)

inductive Request
  | alloc (n : Nat)
  | free (base n : Nat)
  deriving DecidableEq, Repr

/-- One request. Callers give back only blocks that they hold. -/
def Manager.step (m : Manager) (s : Region) : Request → Option Region
  | .alloc n =>
      match m.allocPages n s.area with
      | none => none
      | some (none, area) => some { s with area := area }
      | some (some page, area) => some ⟨area, (page, n) :: s.blocks⟩
  | .free base n =>
      if (base, n) ∈ s.blocks then
        (m.freePages base n s.area).map fun area => ⟨area, s.blocks.erase (base, n)⟩
      else none

/-- The pages of a block. -/
def pagesOf (block : Nat × Nat) : Finset Nat := Ico block.1 (block.1 + block.2)

/-- The pages of the region `R` that no caller holds. -/
def freeSet (R : Finset Nat) (blocks : List (Nat × Nat)) : Finset Nat :=
  R.filter fun p => ∀ block ∈ blocks, p ∉ pagesOf block

/-- A request that does not return a block above every free page while there
are free pages. -/
def Permitted (R : Finset Nat) (s : Region) : Request → Prop
  | .alloc _ => True
  | .free base _ =>
      freeSet R s.blocks = ∅ ∨ ∃ p ∈ freeSet R s.blocks, base < p

instance (R : Finset Nat) (s : Region) : DecidablePred (Permitted R s)
  | .alloc _ => inferInstanceAs (Decidable True)
  | .free base _ => inferInstanceAs (Decidable
      (freeSet R s.blocks = ∅ ∨ ∃ p ∈ freeSet R s.blocks, base < p))

/-- A search is sound when it only proposes listed blocks of the requested
size, and finds its way through every well-formed list. -/
def Finds (find : Nat → FreeArea → Option (Option Nat)) : Prop :=
  ∀ (s : FreeArea) (R F : Finset Nat) (xs : List Nat) (n : Nat), Blocks s R F xs →
    ∃ found, find n s = some found ∧
      ∀ page, found = some page → page ∈ xs ∧ n ≤ (s.page page).property

/-- What the managers have in common: they clear both flags of the pages they
are given, search soundly, and free in the same way. -/
structure Manager.Sound (m : Manager) : Prop where
  init : ∃ reset, m.initMemmap = Pmm.initMemmap reset ∧
    ∀ page, (reset page).isHead = false ∧ (reset page).reserved = false
  alloc : ∃ find, m.allocPages = Pmm.allocPages find ∧ Finds find
  free : m.freePages = Pmm.freePages

/-- The manager's state agrees with the blocks its callers hold. -/
structure Region.Inv (R : Finset Nat) (s : Region) : Prop where
  listed : ∃ xs, Blocks s.area R (freeSet R s.blocks) xs ∧ Merged s.area xs
  held : ∀ block ∈ s.blocks, 0 < block.2 ∧ pagesOf block ⊆ R
  apart : s.blocks.Pairwise fun b c => Disjoint (pagesOf b) (pagesOf c)

theorem mem_freeSet {R : Finset Nat} {blocks : List (Nat × Nat)} {p : Nat} :
    p ∈ freeSet R blocks ↔ p ∈ R ∧ ∀ block ∈ blocks, p ∉ pagesOf block := mem_filter

theorem freeSet_cons (R : Finset Nat) (block : Nat × Nat) (blocks : List (Nat × Nat)) :
    freeSet R (block :: blocks) = freeSet R blocks \ pagesOf block := by
  ext p
  simp only [mem_freeSet, List.forall_mem_cons, mem_sdiff]
  tauto

namespace Region.Inv

variable {R : Finset Nat} {s t : Region} {m : Manager}

/-- Giving back a block makes exactly its pages free again. -/
theorem freeSet_erase (hinv : s.Inv R) {block : Nat × Nat} (hblock : block ∈ s.blocks) :
    freeSet R (s.blocks.erase block) = freeSet R s.blocks ∪ pagesOf block := by
  have hperm := List.perm_cons_erase hblock
  have hdisj : ∀ c ∈ s.blocks.erase block, Disjoint (pagesOf block) (pagesOf c) := by
    exact (List.pairwise_cons.mp ((hperm.pairwise_iff fun hbc => hbc.symm).mp hinv.apart)).1
  have hall : ∀ p, (∀ c ∈ s.blocks, p ∉ pagesOf c) ↔
      p ∉ pagesOf block ∧ ∀ c ∈ s.blocks.erase block, p ∉ pagesOf c := by
    intro p
    rw [← List.forall_mem_cons (p := fun c => p ∉ pagesOf c)]
    exact forall_congr' fun c => by rw [hperm.mem_iff]
  ext p
  rw [mem_union, mem_freeSet, mem_freeSet, hall]
  constructor
  · rintro ⟨hp, hout⟩
    by_cases hin : p ∈ pagesOf block
    · exact Or.inr hin
    · exact Or.inl ⟨hp, hin, hout⟩
  · rintro (⟨hp, _, hout⟩ | hin)
    · exact ⟨hp, hout⟩
    · refine ⟨(hinv.held block hblock).2 hin, fun c hc hpc => ?_⟩
      exact disjoint_left.mp (hdisj c hc) hin hpc

theorem permitted_iff (hinv : s.Inv R) {base n : Nat} (hblock : (base, n) ∈ s.blocks)
    {xs : List Nat} (hblocks : Blocks s.area R (freeSet R s.blocks) xs) :
    Permitted R s (.free base n) ↔ xs = [] ∨ ∃ y ∈ xs, base < y := by
  have hbase : base ∉ freeSet R s.blocks := by
    intro hfree
    have hpos := (hinv.held _ hblock).1
    exact (mem_freeSet.mp hfree).2 _ hblock (by simpa [pagesOf] using hpos)
  constructor
  · rintro (hempty | ⟨p, hp, hlt⟩)
    · left
      rw [List.eq_nil_iff_forall_not_mem]
      intro x hx
      have := hblocks.head_mem hx
      rw [hempty] at this
      exact notMem_empty x this
    · right
      obtain ⟨y, hy, hpy⟩ := (hblocks.cover p).mp hp
      refine ⟨y, hy, ?_⟩
      by_contra hle
      rw [FreeArea.block, mem_Ico] at hpy
      exact hbase (hblocks.block_subset hy (by rw [FreeArea.block, mem_Ico]; omega))
  · rintro (rfl | ⟨y, hy, hlt⟩)
    · left
      rw [eq_empty_iff_forall_notMem]
      intro p hp
      obtain ⟨x, hx, _⟩ := (hblocks.cover p).mp hp
      simp at hx
    · exact Or.inr ⟨y, hblocks.head_mem hy, hlt⟩

/-- What an allocation does: nothing at all, or it takes the first pages of a
listed block. -/
theorem alloc_cases (hsound : m.Sound) (hinv : s.Inv R) {n : Nat}
    (hstep : m.step s (.alloc n) = some t) :
    t = s ∨ ∃ xs page, Blocks s.area R (freeSet R s.blocks) xs ∧ Merged s.area xs ∧ 0 < n ∧
      page ∈ xs ∧ n ≤ (s.area.page page).property ∧
      t = ⟨takeBlock page n s.area, (page, n) :: s.blocks⟩ := by
  obtain ⟨xs, hblocks, hmerged⟩ := hinv.listed
  obtain ⟨find, halloc, hfinds⟩ := hsound.alloc
  obtain ⟨found, hfind, hfound⟩ := hfinds s.area R _ xs n hblocks
  simp only [Manager.step, halloc, allocPages, hfind] at hstep
  rcases Nat.eq_zero_or_pos n with rfl | hn
  · simp at hstep
  by_cases hfew : s.area.nrFree < n
  · simp [Nat.ne_of_gt hn, hfew] at hstep
    exact Or.inl hstep.symm
  · cases found with
    | none =>
      simp [Nat.ne_of_gt hn, hfew] at hstep
      exact Or.inl hstep.symm
    | some page =>
      simp [Nat.ne_of_gt hn, hfew] at hstep
      obtain ⟨hpage, hfit⟩ := hfound page rfl
      exact Or.inr ⟨xs, page, hblocks, hmerged, hn, hpage, hfit, hstep.symm⟩

/-- The invariant survives an allocation, whether it succeeds or not. -/
theorem alloc (hsound : m.Sound) (hinv : s.Inv R) {n : Nat} (hstep : m.step s (.alloc n) = some t) :
    t.Inv R := by
  obtain rfl | ⟨xs, page, hblocks, hmerged, hn, hpage, hfit, rfl⟩ := hinv.alloc_cases hsound hstep
  · exact hinv
  have hfree : pagesOf (page, n) ⊆ freeSet R s.blocks :=
    (Ico_subset_Ico_right (Nat.add_le_add_left hfit page)).trans (hblocks.block_subset hpage)
  refine ⟨?_, ?_, List.pairwise_cons.mpr ⟨?_, hinv.apart⟩⟩
  · rw [freeSet_cons]
    exact hblocks.takeBlock hmerged hn hpage hfit
  · rw [List.forall_mem_cons]
    exact ⟨⟨hn, hfree.trans hblocks.subset⟩, hinv.held⟩
  · intro block hblock
    rw [disjoint_left]
    exact fun p hp => (mem_freeSet.mp (hfree hp)).2 block hblock

/-- The invariant survives the return of a block that is not above every free page. -/
theorem free (hsound : m.Sound) (hinv : s.Inv R) {base n : Nat} (hok : Permitted R s (.free base n))
    (hstep : m.step s (.free base n) = some t) : t.Inv R := by
  obtain ⟨xs, hblocks, hmerged⟩ := hinv.listed
  by_cases hblock : (base, n) ∈ s.blocks
  · have hplace := (hinv.permitted_iff hblock hblocks).mp hok
    obtain ⟨hn, hin⟩ := hinv.held _ hblock
    have hout : ∀ p ∈ pagesOf (base, n), p ∉ freeSet R s.blocks :=
      fun p hp hfree => (mem_freeSet.mp hfree).2 _ hblock hp
    obtain ⟨area, ys, harea, hys, hmerge⟩ := hblocks.freePages hmerged hn hin hout hplace
    simp only [Manager.step, hsound.free, if_pos hblock, harea, Option.map_some, Option.some.injEq]
      at hstep
    subst hstep
    have hmem : ∀ block ∈ s.blocks.erase (base, n), block ∈ s.blocks :=
      fun block => List.mem_of_mem_erase
    refine ⟨⟨ys, ?_, hmerge⟩, fun block hb => hinv.held block (hmem block hb),
      hinv.apart.sublist List.erase_sublist⟩
    rw [hinv.freeSet_erase hblock]
    exact hys
  · simp [Manager.step, hblock] at hstep

/-- A block returned above every free page, while there are some, is linked
behind itself: the walk back from the end of the list stays there. -/
theorem free_last (hsound : m.Sound) (hinv : s.Inv R) {base n : Nat} (hblock : (base, n) ∈ s.blocks)
    (hbad : ¬ Permitted R s (.free base n)) :
    ∃ u, m.step s (.free base n) = some u ∧
      u.area.link.prev (.pageLink base) = .pageLink base ∧
      u.area.link.prev .freeList = .pageLink base := by
  obtain ⟨xs, hblocks, _⟩ := hinv.listed
  obtain ⟨hn, hin⟩ := hinv.held _ hblock
  have hout : ∀ p ∈ pagesOf (base, n), p ∉ freeSet R s.blocks :=
    fun p hp hfree => (mem_freeSet.mp hfree).2 _ hblock hp
  rw [hinv.permitted_iff hblock hblocks, not_or] at hbad
  have hlow : ∀ x ∈ xs, x < base := by
    intro x hx
    have hbase : base ∈ pagesOf (base, n) := mem_Ico.mpr ⟨Nat.le_refl _, Nat.lt_add_of_pos_right hn⟩
    have hle : ¬ base < x := fun hlt => hbad.2 ⟨x, hx, hlt⟩
    have hne : x ≠ base := fun heq => hout base hbase (heq ▸ hblocks.head_mem hx)
    omega
  have hsmall : n < 2 ^ 32 := by
    have hcard := card_le_card hin
    rw [pagesOf, Nat.card_Ico, Nat.add_sub_cancel_left] at hcard
    exact Nat.lt_of_le_of_lt hcard hblocks.small
  obtain ⟨u, hreset, hu, _⟩ := hblocks.reset_freed hin hout
  obtain ⟨link, hprev, hnext, hhead, hlink⟩ := @linkBlock_last base xs (markFree base n u)
    hu.ring hu.length_le hbad.1 hlow
  have hmark : ((markFree base n u).page base).property = n := by
    simp [markFree, uint_eq hsmall]
  have hfree : freePages base n s.area = some { markFree base n u with link := link } := by
    simp [Pmm.freePages, Nat.ne_of_gt hn, hreset, hlink, mergePrev, mergeNext, hprev, hnext, hmark]
  refine ⟨⟨{ markFree base n u with link := link }, s.blocks.erase (base, n)⟩, ?_, hprev, hhead⟩
  simp [Manager.step, hsound.free, hblock, hfree]

/-- Every request keeps the invariant. -/
theorem step (hsound : m.Sound) (hinv : s.Inv R) {req : Request} (hok : Permitted R s req)
    (hstep : m.step s req = some t) : t.Inv R := by
  cases req with
  | alloc n => exact hinv.alloc hsound hstep
  | free base n => exact hinv.free hsound hok hstep

/-- No request fails an assertion or walks the list forever. -/
theorem step_some (hsound : m.Sound) (hinv : s.Inv R) {req : Request} (hok : Permitted R s req)
    (hreq : match req with
      | .alloc n => 0 < n
      | .free base n => (base, n) ∈ s.blocks) :
    ∃ t, m.step s req = some t := by
  obtain ⟨xs, hblocks, hmerged⟩ := hinv.listed
  cases req with
  | alloc n =>
      obtain ⟨find, halloc, hfinds⟩ := hsound.alloc
      obtain ⟨found, hfind, _⟩ := hfinds s.area R _ xs n hblocks
      have hn : n ≠ 0 := Nat.ne_of_gt hreq
      by_cases hfew : s.area.nrFree < n
      · simp [Manager.step, halloc, allocPages, hn, hfew]
      · cases found <;> simp [Manager.step, halloc, allocPages, hn, hfew, hfind]
  | free base n =>
      obtain ⟨hn, hin⟩ := hinv.held _ hreq
      have hout : ∀ p ∈ pagesOf (base, n), p ∉ freeSet R s.blocks :=
        fun p hp hfree => (mem_freeSet.mp hfree).2 _ hreq hp
      obtain ⟨area, ys, harea, _⟩ :=
        hblocks.freePages hmerged hn hin hout ((hinv.permitted_iff hreq hblocks).mp hok)
      simp [Manager.step, hsound.free, hreq, harea]

/-- Every run keeps the invariant. -/
theorem run (hsound : m.Sound) (hinv : s.Inv R) (hrun : RunsTo m.step (Permitted R) s t) :
    t.Inv R :=
  hrun.invariant hinv fun _ _ _ hs hok hstep => hs.step hsound hok hstep

end Region.Inv

/-- The free pages and the pages held by callers make up the region. -/
theorem Region.Inv.card_add_sum {R : Finset Nat} {s : Region} (hinv : s.Inv R) :
    (freeSet R s.blocks).card + (s.blocks.map Prod.snd).sum = R.card := by
  obtain ⟨_, hheld, hapart⟩ := hinv
  generalize s.blocks = blocks at hheld hapart
  induction blocks with
  | nil => simp [freeSet]
  | cons block blocks ih =>
      rw [List.forall_mem_cons] at hheld
      rw [List.pairwise_cons] at hapart
      have hsub : pagesOf block ⊆ freeSet R blocks := fun p hp =>
        mem_freeSet.mpr ⟨hheld.1.2 hp, fun c hc => disjoint_left.mp (hapart.1 c hc) hp⟩
      have hcard : (pagesOf block).card = block.2 := by
        rw [pagesOf, Nat.card_Ico, Nat.add_sub_cancel_left]
      have hle := card_le_card hsub
      rw [← ih hheld.2 hapart.2, freeSet_cons, card_sdiff_of_subset hsub, hcard, List.map_cons,
        List.sum_cons, ← Nat.add_assoc, Nat.sub_add_cancel (hcard ▸ hle)]

/-! ## The region when it is handed over -/

/-- The manager after `init_memmap` of the region of `n` pages from `base`, on
an empty free list. -/
def Manager.start (m : Manager) (base n : Nat) (s : FreeArea) : Option Region :=
  (m.initMemmap base n (init s)).map fun area => ⟨area, []⟩

/-- The page descriptors as `page_init` leaves them: the region lies in the
`pages` array and all its pages are reserved. -/
structure Fresh (base n : Nat) (s : FreeArea) : Prop where
  reserved : ∀ p ∈ Ico base (base + n), (s.page p).reserved = true
  bound : base + n ≤ s.npage

/-- An array of `npage` reserved pages. -/
def bootPages (npage : Nat) : FreeArea := ⟨npage, fun _ => ⟨0, 1#64, 0⟩, ⟨id, id⟩, 0⟩

theorem bootPages_fresh (npage : Nat) : Fresh 0 npage (bootPages npage) :=
  ⟨fun _ _ => by simp [bootPages, Page.reserved, testBit_eq, pgReserved], by simp [bootPages]⟩

/-- The state in which `init_memmap` is called on the list of the region. -/
theorem Manager.start_eq {m : Manager} {reset : Page → Page}
    (hinit : m.initMemmap = Pmm.initMemmap reset) {base n : Nat} {s : FreeArea}
    (hfresh : Fresh base n s) (hn : 0 < n) :
    m.start base n s =
      (linkBlock base (markFree base n
        { init s with page := resetRange reset base n s.page })).map fun area => ⟨area, []⟩ := by
  have hreset : resetPages Page.reserved reset base n (init s) =
      some { init s with page := resetRange reset base n s.page } := by
    rw [resetPages_eq, if_pos]
    · rfl
    · exact hfresh.reserved
  simp [Manager.start, hinit, Pmm.initMemmap, Nat.ne_of_gt hn, hreset]

/-- The fields that count pages are of type `unsigned int`; a region that they
can count becomes one free block. -/
theorem Manager.start_inv {m : Manager} (hsound : m.Sound) {base n : Nat} {s : FreeArea}
    (hfresh : Fresh base n s) (hn : 0 < n) (hsmall : n < 2 ^ 32) :
    ∃ r, m.start base n s = some r ∧ r.blocks = [] ∧ r.Inv (Ico base (base + n)) := by
  obtain ⟨reset, hinit, hclears⟩ := hsound.init
  have hcard : (Ico base (base + n)).card = n := by
    rw [Nat.card_Ico, Nat.add_sub_cancel_left]
  have hin : ∀ p ∈ Ico base (base + n), resetRange reset base n s.page p = reset (s.page p) :=
    fun p hp => if_pos (mem_Ico.mp hp)
  have hempty : Blocks { init s with page := resetRange reset base n s.page }
      (Ico base (base + n)) ∅ [] := by
    refine ⟨s.link.listInit_ring _, by simp, List.Pairwise.nil, by simp, empty_subset _, ?_, ?_,
      rfl, ?_, by simpa only [hcard] using hsmall⟩
    · intro p hp
      simp [hin p hp, (hclears _).1]
    · intro p hp
      simp [hin p hp, (hclears _).2]
    · intro p hp
      exact Nat.lt_of_lt_of_le (mem_Ico.mp hp).2 hfresh.bound
  obtain ⟨area, hlink, hblocks⟩ : ∃ area,
      linkBlock base (markFree base n { init s with page := resetRange reset base n s.page }) =
        some area ∧ Blocks area (Ico base (base + n)) (Ico base (base + n)) [base] := by
    obtain ⟨lo, hi, link, hxs, hlink, hblocks⟩ :=
      hempty.link hn Subset.rfl (fun p _ => notMem_empty p) (Or.inl rfl)
    obtain ⟨rfl, rfl⟩ := List.append_eq_nil_iff.mp hxs.symm
    rw [empty_union, List.nil_append] at hblocks
    exact ⟨_, hlink, hblocks⟩
  refine ⟨⟨area, []⟩, ?_, rfl, ⟨⟨[base], ?_, ?_⟩, by simp, List.Pairwise.nil⟩⟩
  · rw [Manager.start_eq hinit hfresh hn, hlink, Option.map_some]
  · simpa [freeSet] using hblocks
  · intro x hx hend
    have hpos := hblocks.pos x hx
    rw [List.mem_singleton] at hx hend
    exact absurd (hend.trans hx.symm) (Nat.ne_of_gt (Nat.lt_add_of_pos_right hpos))

/-- The counter of a larger region is wrong from the start. -/
theorem Manager.start_nrFree {m : Manager} (hsound : m.Sound) {base n : Nat} {s : FreeArea}
    {r : Region} (hfresh : Fresh base n s) (hn : 0 < n) (hstart : m.start base n s = some r) :
    r.blocks = [] ∧ r.area.nrFree = n % 2 ^ 32 := by
  obtain ⟨reset, hinit, _⟩ := hsound.init
  rw [Manager.start_eq hinit hfresh hn] at hstart
  have hlist : (markFree base n { init s with page := resetRange reset base n s.page }).link =
      s.link.listInit .freeList := rfl
  rw [linkBlock, hlist, (s.link.listInit_ring .freeList).listEmpty_eq] at hstart
  obtain rfl := Option.some.inj hstart
  simp [markFree, init, uint]

end Ucore.Pmm
