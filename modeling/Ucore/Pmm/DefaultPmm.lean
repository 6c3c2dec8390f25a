import Ucore.Pmm.FreeList
import Ucore.Pmm.Region

/-!
# The first-fit manager

`kern/mm/default_pmm.c`. The free list is to be a doubly linked list of the
maximal runs of free pages, in address order (`Region.WellFormed`).
-/

namespace Ucore.Pmm

open Finset

/-- The loop of `default_alloc_pages`: the first block of at least `n` pages. -/
def firstFitLoop (n : Nat) : Nat → Entry → FreeArea → Option (Option Nat)
  | 0, _, _ => none
  | fuel + 1, le, s =>
      match s.link.next le with
      | .freeList => some none
      | .pageLink p =>
          if n ≤ (s.page p).property then some (some p) else firstFitLoop n fuel (.pageLink p) s

def defaultFind (n : Nat) (s : FreeArea) : Option (Option Nat) :=
  firstFitLoop n (s.npage + 2) .freeList s

def defaultReset (page : Page) : Page := { page with flags := 0#64, property := 0, ref := 0 }

def defaultInitMemmap (base n : Nat) (s : FreeArea) : Option FreeArea :=
  initMemmap defaultReset base n s

def defaultAllocPages (n : Nat) (s : FreeArea) : Option (Option Nat × FreeArea) :=
  allocPages defaultFind n s

def defaultFreePages (base n : Nat) (s : FreeArea) : Option FreeArea := freePages base n s

/-- `default_pmm_manager`. -/
def defaultPmm : Manager := ⟨defaultInitMemmap, defaultAllocPages, defaultFreePages⟩

theorem firstFitLoop_spec {n : Nat} {lo hi : List Nat} {s : FreeArea} {fuel : Nat} {le : Entry}
    (hring : s.link.Ring .freeList ((lo ++ hi).map .pageLink))
    (hle : le = (Entry.freeList :: lo.map .pageLink).getLast (by simp)) (hfuel : hi.length < fuel) :
    firstFitLoop n fuel le s = some (hi.find? fun p => n ≤ (s.page p).property) := by
  induction hi generalizing lo fuel le with
  | nil =>
      obtain ⟨fuel, rfl⟩ : ∃ k, fuel = k + 1 := ⟨fuel - 1, by simp at hfuel; omega⟩
      rw [List.map_append] at hring
      have hnext : s.link.next le = .freeList := hle ▸ hring.joined.1
      simp [firstFitLoop, hnext]
  | cons y ys ih =>
      obtain ⟨fuel, rfl⟩ : ∃ k, fuel = k + 1 := ⟨fuel - 1, by simp at hfuel; omega⟩
      have hstep : s.link.Ring .freeList (((lo ++ [y]) ++ ys).map .pageLink) := by
        simpa using hring
      rw [List.map_append] at hring
      have hnext : s.link.next le = .pageLink y := hle ▸ hring.joined.1
      by_cases hfit : n ≤ (s.page y).property
      · simp [firstFitLoop, hnext, hfit]
      · rw [List.find?_cons_of_neg (by simpa using hfit)]
        rw [← @ih (lo ++ [y]) fuel (.pageLink y) hstep (by simp) (by simpa using hfuel)]
        simp [firstFitLoop, hnext, hfit]

theorem defaultFind_finds : Finds defaultFind := by
  intro s R F xs n hblocks
  refine ⟨_, @firstFitLoop_spec n [] xs s _ _ hblocks.ring rfl ?_, ?_⟩
  · have := hblocks.length_le
    omega
  · intro page hfound
    exact ⟨List.mem_of_find?_eq_some hfound, by simpa using List.find?_some hfound⟩

theorem defaultPmm_sound : defaultPmm.Sound where
  init := ⟨defaultReset, rfl,
    fun _ => by simp [defaultReset, Page.isHead, Page.reserved, testBit_eq]⟩
  alloc := ⟨defaultFind, rfl, defaultFind_finds⟩
  free := rfl

/-! ## One allocation -/

theorem find?_lowest {n : Nat} {s : FreeArea} {xs : List Nat} {page : Nat}
    (hsorted : xs.Pairwise (· < ·))
    (hfound : (xs.find? fun p => n ≤ (s.page p).property) = some page) : Lowest n s xs page := by
  obtain ⟨hfit, lo, hi, rfl, hlo⟩ := List.find?_eq_some_iff_append.mp hfound
  refine ⟨by simp, by simpa using hfit, ?_⟩
  intro x hx hlarge
  rcases List.mem_append.mp hx with hx | hx
  · have hsmall := hlo x hx
    simp only [Bool.not_eq_true', decide_eq_false_iff_not] at hsmall
    exact absurd hlarge hsmall
  · rcases List.mem_cons.mp hx with rfl | hx
    · exact Nat.le_refl x
    · have hhi := (List.pairwise_append.mp hsorted).2.1
      exact Nat.le_of_lt ((List.pairwise_cons.mp hhi).1 x hx)

/-- From every free list the first block with enough pages serves a request. -/
theorem defaultAllocPages_serves {s : FreeArea} {xs : List Nat} (h : FreeList s xs)
    {n : Nat} (hn : 0 < n) :
    ∃ r t, defaultAllocPages n s = some (r, t) ∧ Serves (Lowest n s xs) n s t xs r := by
  have hfind : defaultFind n s = some (xs.find? fun p => n ≤ (s.page p).property) := by
    have hlength := h.length_le
    exact @firstFitLoop_spec n [] xs s _ _ h.ring rfl (by omega)
  apply h.allocPages hn hfind
  · intro hnone x hx
    have hsmall := List.find?_eq_none.mp hnone x hx
    simpa using hsmall
  · intro page hfound
    have hlowest := find?_lowest h.sorted hfound
    exact ⟨hlowest.1, hlowest.2.1, hlowest⟩

/-- Two of four free pages are asked for. -/
theorem defaultAllocPages_serves_two : ∃ s xs, FreeList s xs ∧
    ∃ r t, defaultAllocPages 2 s = some (r, t) ∧ Serves (Lowest 2 s xs) 2 s t xs r := by
  obtain ⟨r, _, _, hinv⟩ := defaultPmm.start_inv defaultPmm_sound (bootPages_fresh 4) (by decide)
    (by decide)
  obtain ⟨xs, hblocks, _⟩ := hinv.listed
  exact ⟨r.area, xs, hblocks.freeList, defaultAllocPages_serves hblocks.freeList Nat.two_pos⟩

/-! ## Maximal runs of free pages -/

/-- `[p, p + n)` is a run of pages of `F` that no page of `F` adjoins. -/
structure MaximalRun (F : Finset Nat) (p n : Nat) : Prop where
  pos : 0 < n
  subset : Ico p (p + n) ⊆ F
  before : ∀ q, q + 1 = p → q ∉ F
  after : p + n ∉ F

theorem Blocks.maximalRun {s : FreeArea} {R F : Finset Nat} {xs : List Nat}
    (hblocks : Blocks s R F xs) (hmerged : Merged s xs) {p : Nat} (hp : p ∈ xs) :
    MaximalRun F p (s.page p).property := by
  have hpos := hblocks.pos p hp
  refine ⟨hpos, hblocks.block_subset hp, ?_, ?_⟩
  · intro q hq hqF
    obtain ⟨y, hy, hqy⟩ := (hblocks.cover q).mp hqF
    rw [FreeArea.block, mem_Ico] at hqy
    by_cases hend : y + (s.page y).property = p
    · exact hmerged y hy (hend ▸ hp)
    · have hpy : p ∈ s.block y := by
        rw [FreeArea.block, mem_Ico]
        omega
      have := hblocks.block_unique hy hp hpy (by simp [FreeArea.block, hpos])
      omega
  · intro hafter
    obtain ⟨y, hy, hend⟩ := (hblocks.cover _).mp hafter
    rw [FreeArea.block, mem_Ico] at hend
    by_cases hstart : p + (s.page p).property = y
    · exact hmerged p hp (hstart ▸ hy)
    · have hlast : p + (s.page p).property - 1 ∈ s.block y := by
        rw [FreeArea.block, mem_Ico]
        omega
      have hlast' : p + (s.page p).property - 1 ∈ s.block p := by
        rw [FreeArea.block, mem_Ico]
        omega
      obtain rfl := hblocks.block_unique hy hp hlast hlast'
      omega

theorem Blocks.mem_iff_maximalRun {s : FreeArea} {R F : Finset Nat} {xs : List Nat}
    (hblocks : Blocks s R F xs) (hmerged : Merged s xs) {p : Nat} :
    p ∈ xs ↔ ∃ n, MaximalRun F p n := by
  constructor
  · intro hp
    exact ⟨_, hblocks.maximalRun hmerged hp⟩
  · rintro ⟨n, hrun⟩
    have hpF : p ∈ F := hrun.subset (by simp [hrun.pos])
    obtain ⟨y, hy, hpy⟩ := (hblocks.cover p).mp hpF
    rcases Nat.eq_zero_or_pos (p - y) with hzero | hlt
    · rw [FreeArea.block, mem_Ico] at hpy
      obtain rfl : y = p := by omega
      exact hy
    · refine absurd (hblocks.block_subset hy ?_) (hrun.before (p - 1) (by omega))
      rw [FreeArea.block, mem_Ico] at hpy ⊢
      omega

/-! ## The free-list invariant -/

/-- The free list of a region: (a) both directions visit the same blocks, (b)
these are the maximal runs of free pages in address order, (c) a free page is
marked as a head exactly when it starts one, with the right length, and (d) the
counter counts the free pages. -/
def Region.WellFormed (R : Finset Nat) (s : Region) : Prop :=
  ∃ xs : List Nat,
    Links.Visits s.area.link.next .freeList .freeList (xs.map .pageLink) ∧
    Links.Visits s.area.link.prev .freeList .freeList (xs.map .pageLink).reverse ∧
    xs.Pairwise (· < ·) ∧
    (∀ p, p ∈ xs ↔ ∃ n, MaximalRun (freeSet R s.blocks) p n) ∧
    (∀ p ∈ xs, MaximalRun (freeSet R s.blocks) p (s.area.page p).property) ∧
    (∀ p ∈ freeSet R s.blocks, (s.area.page p).isHead = true ↔ p ∈ xs) ∧
    s.area.nrFree = (freeSet R s.blocks).card

theorem Region.Inv.wellFormed {R : Finset Nat} {s : Region} (hinv : s.Inv R) : s.WellFormed R := by
  obtain ⟨xs, hblocks, hmerged⟩ := hinv.listed
  exact ⟨xs, hblocks.ring.visits_next, hblocks.ring.visits_prev, hblocks.sorted,
    fun p => hblocks.mem_iff_maximalRun hmerged, fun p hp => hblocks.maximalRun hmerged hp,
    fun p hp => hblocks.heads p (hblocks.subset hp), hblocks.count⟩

/-- A list whose last page is linked behind itself is not well formed. -/
theorem Region.not_wellFormed {R : Finset Nat} {s : Region} {base : Nat}
    (hself : s.area.link.prev (.pageLink base) = .pageLink base)
    (hhead : s.area.link.prev .freeList = .pageLink base) : ¬ s.WellFormed R := by
  rintro ⟨xs, _, hback, _⟩
  cases hrev : (xs.map Entry.pageLink).reverse with
  | nil =>
      rw [hrev] at hback
      exact absurd (hhead.symm.trans hback) (by simp)
  | cons y ys =>
      rw [hrev] at hback
      obtain rfl : Entry.pageLink base = y := hhead.symm.trans hback.1
      exact Links.Visits.not_of_fixed hself (by simp) hback.2.2

/-- In a region that the counters can count, every run of the first-fit manager
that returns no block above every free page while pages are free keeps the free
list well formed, and the next block returned does so exactly when it is not
such a block either. A larger region is never well formed. -/
theorem defaultPmm_wellFormed {base n : Nat} {s₀ : FreeArea} (hfresh : Fresh base n s₀)
    (hn : 0 < n) {r : Region} (hstart : defaultPmm.start base n s₀ = some r) :
    (n < 2 ^ 32 → ∀ t, RunsTo defaultPmm.step (Permitted (Ico base (base + n))) r t →
      t.WellFormed (Ico base (base + n)) ∧
        ∀ b k, (b, k) ∈ t.blocks → ∃ u, defaultPmm.step t (.free b k) = some u ∧
          (u.WellFormed (Ico base (base + n)) ↔
            Permitted (Ico base (base + n)) t (.free b k))) ∧
      (2 ^ 32 ≤ n → ¬ r.WellFormed (Ico base (base + n))) := by
  constructor
  · intro hsmall t hrun
    obtain ⟨r', hstart', _, hinv⟩ := defaultPmm.start_inv defaultPmm_sound hfresh hn hsmall
    obtain rfl : r' = r := Option.some.inj (hstart'.symm.trans hstart)
    have ht := hinv.run defaultPmm_sound hrun
    refine ⟨ht.wellFormed, fun b k hblock => ?_⟩
    by_cases hok : Permitted (Ico base (base + n)) t (.free b k)
    · obtain ⟨u, hu⟩ := ht.step_some defaultPmm_sound hok hblock
      exact ⟨u, hu, fun _ => hok, fun _ => (ht.step defaultPmm_sound hok hu).wellFormed⟩
    · obtain ⟨u, hu, hself, hhead⟩ := ht.free_last defaultPmm_sound hblock hok
      exact ⟨u, hu, fun hwf => absurd hwf (Region.not_wellFormed hself hhead),
        fun h => absurd h hok⟩
  · rintro hlarge ⟨_, _, _, _, _, _, _, hcount⟩
    obtain ⟨hblocks, hnrFree⟩ := defaultPmm.start_nrFree defaultPmm_sound hfresh hn hstart
    have hcard : (freeSet (Ico base (base + n)) r.blocks).card = n := by
      simp [hblocks, freeSet]
    rw [hnrFree, hcard] at hcount
    exact absurd hcount (Nat.ne_of_lt (Nat.lt_of_lt_of_le (Nat.mod_lt n (by decide)) hlarge))

/-- Three pages handed out one by one; the first one comes back. -/
theorem defaultPmm_wellFormed_three : ∃ r t, defaultPmm.start 0 3 (bootPages 3) = some r ∧
    RunsTo defaultPmm.step (Permitted (Ico 0 3)) r t ∧ t.blocks = [(2, 1), (1, 1)] ∧
    t.WellFormed (Ico 0 3) := by
  obtain ⟨r, hstart, _⟩ := defaultPmm.start_inv defaultPmm_sound (bootPages_fresh 3) (by decide)
    (by decide)
  have hfold : ((defaultPmm.start 0 3 (bootPages 3)).bind fun r =>
      ([.alloc 1, .alloc 1, .alloc 1, .free 0 1] : List Request).foldlM
        (fun s i => if Permitted (Ico 0 3) s i then defaultPmm.step s i else none) r).map
          (fun t => t.blocks) = some [(2, 1), (1, 1)] := by
    decide
  rw [hstart, Option.bind_some] at hfold
  obtain ⟨t, ht, hblocks⟩ := Option.map_eq_some_iff.mp hfold
  have hrun := RunsTo.of_foldlM ht
  exact ⟨r, t, hstart, hrun, hblocks,
    ((defaultPmm_wellFormed (bootPages_fresh 3) (by decide) hstart).1 (by decide) t hrun).1⟩

/-- Three pages handed out one by one; the first one and the last one come back. -/
theorem defaultPmm_not_wellFormed : ∃ r t, Fresh 0 3 (bootPages 3) ∧
    defaultPmm.start 0 3 (bootPages 3) = some r ∧
    RunsTo defaultPmm.step (fun _ _ => True) r t ∧ ¬ t.WellFormed (Ico 0 3) := by
  obtain ⟨r, hstart, _⟩ := defaultPmm.start_inv defaultPmm_sound (bootPages_fresh 3) (by decide)
    (by decide)
  have hfold : ((defaultPmm.start 0 3 (bootPages 3)).bind fun r =>
      ([.alloc 1, .alloc 1, .alloc 1, .free 0 1, .free 2 1] : List Request).foldlM
        (fun s i => if True then defaultPmm.step s i else none) r).map
          (fun t => (t.area.link.prev (.pageLink 2), t.area.link.prev .freeList)) =
        some (.pageLink 2, .pageLink 2) := by
    decide
  rw [hstart, Option.bind_some] at hfold
  obtain ⟨t, ht, hlinks⟩ := Option.map_eq_some_iff.mp hfold
  rw [Prod.mk.injEq] at hlinks
  exact ⟨r, t, bootPages_fresh 3, hstart, RunsTo.of_foldlM ht,
    Region.not_wellFormed hlinks.1 hlinks.2⟩

end Ucore.Pmm
