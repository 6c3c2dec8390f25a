import Ucore.Pmm.FreeList
import Ucore.Pmm.Region

/-!
# The best-fit manager

`kern/mm/best_fit_pmm.c`. What its callers rely on is that no page is handed out
while it is in use (`Region.NoDoubleUse`).
-/

namespace Ucore.Pmm

open Finset

/-- The loop of `best_fit_alloc_pages`, which keeps the best block so far and
its size. -/
def bestFitLoop (n : Nat) : Nat → Entry → Option Nat → Nat → FreeArea → Option (Option Nat)
  | 0, _, _, _, _ => none
  | fuel + 1, le, page, minSize, s =>
      match s.link.next le with
      | .freeList => some page
      | .pageLink p =>
          if n ≤ (s.page p).property ∧ (s.page p).property < minSize then
            bestFitLoop n fuel (.pageLink p) (some p) (s.page p).property s
          else
            bestFitLoop n fuel (.pageLink p) page minSize s

def bestFitFind (n : Nat) (s : FreeArea) : Option (Option Nat) :=
  bestFitLoop n (s.npage + 2) .freeList none (uint (s.nrFree + 1)) s

def bestFitReset (page : Page) : Page := { page with flags := 0#64, ref := 0 }

def bestFitInitMemmap (base n : Nat) (s : FreeArea) : Option FreeArea :=
  initMemmap bestFitReset base n s

def bestFitAllocPages (n : Nat) (s : FreeArea) : Option (Option Nat × FreeArea) :=
  allocPages bestFitFind n s

def bestFitFreePages (base n : Nat) (s : FreeArea) : Option FreeArea := freePages base n s

/-- `best_fit_pmm_manager`. -/
def bestFitPmm : Manager := ⟨bestFitInitMemmap, bestFitAllocPages, bestFitFreePages⟩

/-- The loop ends with the block it had, where no block to come is smaller and large
enough, or with the best of those. -/
theorem bestFitLoop_spec {n : Nat} {lo hi : List Nat} {s : FreeArea} {fuel minSize : Nat}
    {le : Entry} {page : Option Nat} (hring : s.link.Ring .freeList ((lo ++ hi).map .pageLink))
    (hle : le = (Entry.freeList :: lo.map .pageLink).getLast (by simp)) (hfuel : hi.length < fuel)
    (hsorted : hi.Pairwise (· < ·)) :
    ∃ found, bestFitLoop n fuel le page minSize s = some found ∧
      (found = page ∧ (∀ x ∈ hi, n ≤ (s.page x).property → minSize ≤ (s.page x).property) ∨
        ∃ p, found = some p ∧ (s.page p).property < minSize ∧ Smallest n s hi p) := by
  induction hi generalizing lo fuel le page minSize with
  | nil =>
      obtain ⟨fuel, rfl⟩ : ∃ k, fuel = k + 1 := ⟨fuel - 1, by simp at hfuel; omega⟩
      rw [List.map_append] at hring
      have hnext : s.link.next le = .freeList := hle ▸ hring.joined.1
      exact ⟨page, by simp [bestFitLoop, hnext],
        Or.inl ⟨rfl, fun x hx => absurd hx List.not_mem_nil⟩⟩
  | cons y ys ih =>
      obtain ⟨fuel, rfl⟩ : ∃ k, fuel = k + 1 := ⟨fuel - 1, by simp at hfuel; omega⟩
      have hstep : s.link.Ring .freeList (((lo ++ [y]) ++ ys).map .pageLink) := by
        simpa using hring
      rw [List.map_append] at hring
      have hnext : s.link.next le = .pageLink y := hle ▸ hring.joined.1
      obtain ⟨hfirst, htail⟩ := List.pairwise_cons.mp hsorted
      have hrest := fun page minSize =>
        @ih (lo ++ [y]) fuel minSize (.pageLink y) page hstep (by simp) (by simpa using hfuel) htail
      by_cases hfit : n ≤ (s.page y).property ∧ (s.page y).property < minSize
      · obtain ⟨found, hloop, hfound⟩ := hrest (some y) (s.page y).property
        refine ⟨found, by simp [bestFitLoop, hnext, hfit, hloop], Or.inr ?_⟩
        rcases hfound with ⟨rfl, hall⟩ | ⟨p, rfl, hless, hp, hlarge, hbest⟩
        · refine ⟨y, rfl, hfit.2, List.mem_cons_self, hfit.1, ?_⟩
          intro x hx hlarge
          rcases List.mem_cons.mp hx with rfl | hx
          · exact ⟨Nat.le_refl _, fun _ => Nat.le_refl _⟩
          · exact ⟨hall x hx hlarge, fun _ => Nat.le_of_lt (hfirst x hx)⟩
        · refine ⟨p, rfl, Nat.lt_trans hless hfit.2, List.mem_cons_of_mem y hp, hlarge, ?_⟩
          intro x hx hlarge
          rcases List.mem_cons.mp hx with rfl | hx
          · exact ⟨Nat.le_of_lt hless, fun heq => absurd heq (Nat.ne_of_gt hless)⟩
          · exact hbest x hx hlarge
      · obtain ⟨found, hloop, hfound⟩ := hrest page minSize
        refine ⟨found, by simp [bestFitLoop, hnext, hfit, hloop], ?_⟩
        have hy : n ≤ (s.page y).property → minSize ≤ (s.page y).property := by
          intro hlarge
          exact Nat.not_lt.mp fun hless => hfit ⟨hlarge, hless⟩
        rcases hfound with ⟨rfl, hall⟩ | ⟨p, rfl, hless, hp, hlarge, hbest⟩
        · exact Or.inl ⟨rfl, List.forall_mem_cons.mpr ⟨hy, hall⟩⟩
        · refine Or.inr ⟨p, rfl, hless, List.mem_cons_of_mem y hp, hlarge, ?_⟩
          intro x hx hlarge
          rcases List.mem_cons.mp hx with rfl | hx
          · have hmore := Nat.lt_of_lt_of_le hless (hy hlarge)
            exact ⟨Nat.le_of_lt hmore, fun heq => absurd heq (Nat.ne_of_gt hmore)⟩
          · exact hbest x hx hlarge

theorem bestFitFind_finds : Finds bestFitFind := by
  intro s R F xs n hblocks
  have hlength := hblocks.length_le
  obtain ⟨found, hloop, hfound⟩ := @bestFitLoop_spec n [] xs s (s.npage + 2) (uint (s.nrFree + 1))
    .freeList none hblocks.ring rfl (by omega) hblocks.sorted
  refine ⟨found, hloop, fun page hpage => ?_⟩
  rcases hfound with ⟨hnone, _⟩ | ⟨p, hsome, _, hp, hlarge, _⟩
  · rw [hnone] at hpage
    cases hpage
  · obtain rfl : p = page := Option.some.inj (hsome.symm.trans hpage)
    exact ⟨hp, hlarge⟩

theorem bestFitPmm_sound : bestFitPmm.Sound where
  init := ⟨bestFitReset, rfl,
    fun _ => by simp [bestFitReset, Page.isHead, Page.reserved, testBit_eq]⟩
  alloc := ⟨bestFitFind, rfl, bestFitFind_finds⟩
  free := rfl

/-! ## One allocation -/

/-- From every free list whose counter can be counted up, the smallest block with enough
pages serves a request. -/
theorem bestFitAllocPages_serves {s : FreeArea} {xs : List Nat} (h : FreeList s xs)
    (hcounter : s.nrFree + 1 < 2 ^ 32) {n : Nat} (hn : 0 < n) :
    ∃ r t, bestFitAllocPages n s = some (r, t) ∧ Serves (Smallest n s xs) n s t xs r := by
  have hlength := h.length_le
  obtain ⟨found, hloop, hfound⟩ := @bestFitLoop_spec n [] xs s (s.npage + 2) (uint (s.nrFree + 1))
    .freeList none h.ring rfl (by omega) h.sorted
  rw [uint_eq hcounter] at hfound
  apply h.allocPages hn hloop
  · rintro rfl x hx
    rcases hfound with ⟨_, hall⟩ | ⟨p, hsome, _⟩
    · by_contra hlarge
      have hmore := hall x hx (Nat.not_lt.mp hlarge)
      exact absurd (h.property_le hx) (Nat.not_le.mpr hmore)
    · cases hsome
  · rintro page rfl
    rcases hfound with ⟨hnone, _⟩ | ⟨p, hsome, _, hsmallest⟩
    · cases hnone
    · obtain rfl := Option.some.inj hsome
      exact ⟨hsmallest.1, hsmallest.2.1, hsmallest⟩

/-- Two of four free pages are asked for. -/
theorem bestFitAllocPages_serves_two : ∃ s xs, FreeList s xs ∧ s.nrFree + 1 < 2 ^ 32 ∧
    ∃ r t, bestFitAllocPages 2 s = some (r, t) ∧ Serves (Smallest 2 s xs) 2 s t xs r := by
  obtain ⟨r, hstart, _, hinv⟩ := bestFitPmm.start_inv bestFitPmm_sound (bootPages_fresh 4)
    (by decide) (by decide)
  obtain ⟨xs, hblocks, _⟩ := hinv.listed
  obtain ⟨_, hcount⟩ := bestFitPmm.start_nrFree bestFitPmm_sound (bootPages_fresh 4)
    (by decide) hstart
  have hsmall : r.area.nrFree + 1 < 2 ^ 32 := by
    rw [hcount]
    decide
  exact ⟨r.area, xs, hblocks.freeList, hsmall,
    bestFitAllocPages_serves hblocks.freeList hsmall Nat.two_pos⟩

/-! ## No page is handed out twice -/

/-- The blocks that callers hold are disjoint, lie in the region and share no
page with a block that can be reached from `free_list`, and the counter counts
the other pages. -/
structure Region.NoDoubleUse (R : Finset Nat) (s : Region) : Prop where
  apart : s.blocks.Pairwise fun b c => Disjoint (pagesOf b) (pagesOf c)
  inside : ∀ block ∈ s.blocks, pagesOf block ⊆ R
  unlisted : ∀ k p, s.area.link.next^[k] .freeList = .pageLink p →
    ∀ block ∈ s.blocks, Disjoint (s.area.block p) (pagesOf block)
  count : s.area.nrFree + (s.blocks.map Prod.snd).sum = R.card

theorem Region.Inv.noDoubleUse {R : Finset Nat} {s : Region} (hinv : s.Inv R) :
    s.NoDoubleUse R := by
  obtain ⟨xs, hblocks, _⟩ := hinv.listed
  refine ⟨hinv.apart, fun block hblock => (hinv.held block hblock).2, ?_, ?_⟩
  · intro k p hreach block hblock
    have hmem := hblocks.ring.iterate_next_mem k
    rw [hreach] at hmem
    have hp : p ∈ xs := by simpa using hmem
    rw [disjoint_left]
    exact fun q hq => (mem_freeSet.mp (hblocks.block_subset hp hq)).2 block hblock
  · rw [hblocks.count]
    exact hinv.card_add_sum

/-- In a region that the counters can count, no run of the best-fit manager
that returns no block above every free page while pages are free hands a page
out twice. In a larger region the counter is wrong from the start. -/
theorem bestFitPmm_noDoubleUse {base n : Nat} {s₀ : FreeArea} (hfresh : Fresh base n s₀)
    (hn : 0 < n) {r : Region} (hstart : bestFitPmm.start base n s₀ = some r) :
    (n < 2 ^ 32 → ∀ t, RunsTo bestFitPmm.step (Permitted (Ico base (base + n))) r t →
      t.NoDoubleUse (Ico base (base + n))) ∧
      (2 ^ 32 ≤ n → ¬ r.NoDoubleUse (Ico base (base + n))) := by
  constructor
  · intro hsmall t hrun
    obtain ⟨r', hstart', _, hinv⟩ := bestFitPmm.start_inv bestFitPmm_sound hfresh hn hsmall
    obtain rfl : r' = r := Option.some.inj (hstart'.symm.trans hstart)
    exact (hinv.run bestFitPmm_sound hrun).noDoubleUse
  · intro hlarge huse
    obtain ⟨hblocks, hnrFree⟩ := bestFitPmm.start_nrFree bestFitPmm_sound hfresh hn hstart
    have hcount := huse.count
    rw [hblocks, hnrFree, Nat.card_Ico, Nat.add_sub_cancel_left] at hcount
    exact absurd hcount (Nat.ne_of_lt (Nat.lt_of_lt_of_le (Nat.mod_lt n (by decide)) hlarge))

/-- Four pages in three blocks; the first one comes back and is handed out again. -/
theorem bestFitPmm_noDoubleUse_four : ∃ r t, bestFitPmm.start 0 4 (bootPages 4) = some r ∧
    RunsTo bestFitPmm.step (Permitted (Ico 0 4)) r t ∧ t.blocks = [(0, 1), (2, 2), (1, 1)] ∧
    t.NoDoubleUse (Ico 0 4) := by
  obtain ⟨r, hstart, _⟩ := bestFitPmm.start_inv bestFitPmm_sound (bootPages_fresh 4) (by decide)
    (by decide)
  have hfold : ((bestFitPmm.start 0 4 (bootPages 4)).bind fun r =>
      ([.alloc 1, .alloc 1, .alloc 2, .free 0 1, .alloc 1] : List Request).foldlM
        (fun s i => if Permitted (Ico 0 4) s i then bestFitPmm.step s i else none) r).map
          (fun t => t.blocks) = some [(0, 1), (2, 2), (1, 1)] := by
    decide
  rw [hstart, Option.bind_some] at hfold
  obtain ⟨t, ht, hblocks⟩ := Option.map_eq_some_iff.mp hfold
  have hrun := RunsTo.of_foldlM ht
  exact ⟨r, t, hstart, hrun, hblocks,
    (bestFitPmm_noDoubleUse (bootPages_fresh 4) (by decide) hstart).1 (by decide) t hrun⟩

/-- Four pages in three blocks; the first one and the last one come back, and
the last one is handed out again but stays on the list. -/
theorem bestFitPmm_doubleUse : ∃ r t, Fresh 0 4 (bootPages 4) ∧
    bestFitPmm.start 0 4 (bootPages 4) = some r ∧
    RunsTo bestFitPmm.step (fun _ _ => True) r t ∧ ¬ t.NoDoubleUse (Ico 0 4) := by
  obtain ⟨r, hstart, _⟩ := bestFitPmm.start_inv bestFitPmm_sound (bootPages_fresh 4) (by decide)
    (by decide)
  have hfold : ((bestFitPmm.start 0 4 (bootPages 4)).bind fun r =>
      ([.alloc 1, .alloc 1, .alloc 2, .free 0 1, .free 2 2, .alloc 2] : List Request).foldlM
        (fun s i => if True then bestFitPmm.step s i else none) r).map
          (fun t => (t.blocks, t.area.link.next^[2] .freeList, (t.area.page 2).property)) =
        some ([(2, 2), (1, 1)], .pageLink 2, 2) := by
    decide
  rw [hstart, Option.bind_some] at hfold
  obtain ⟨t, ht, hlist⟩ := Option.map_eq_some_iff.mp hfold
  rw [Prod.mk.injEq, Prod.mk.injEq] at hlist
  obtain ⟨hblocks, hreach, hproperty⟩ := hlist
  refine ⟨r, t, bootPages_fresh 4, hstart, RunsTo.of_foldlM ht, fun huse => ?_⟩
  have hdisj := huse.unlisted 2 2 hreach (2, 2) (by simp [hblocks])
  have hfree : 2 ∈ t.area.block 2 := by simp [FreeArea.block, hproperty]
  exact disjoint_left.mp hdisj hfree (by decide)

end Ucore.Pmm
