import Mathlib.Data.Finset.Card
import Mathlib.Order.Interval.Finset.Nat
import Ucore.Pmm.FreeArea

/-!
# The free list as a set of blocks

`Blocks s R F xs` says that the free list of `s` holds, in address order, the
blocks with heads `xs` and that together they are the pages `F` of the region
`R`. The functions of `Ucore.Pmm.FreeArea` are described by what they do to `F`
and `xs`.
-/

namespace Ucore.Pmm

open Finset

/-- The block headed by `x` in `s`. -/
def FreeArea.block (s : FreeArea) (x : Nat) : Finset Nat := Ico x (x + (s.page x).property)

structure Blocks (s : FreeArea) (R F : Finset Nat) (xs : List Nat) : Prop where
  ring : s.link.Ring .freeList (xs.map .pageLink)
  pos : ∀ x ∈ xs, 0 < (s.page x).property
  apart : xs.Pairwise fun x y => x + (s.page x).property ≤ y
  cover : ∀ p, p ∈ F ↔ ∃ x ∈ xs, p ∈ s.block x
  subset : F ⊆ R
  heads : ∀ p ∈ R, (s.page p).isHead = true ↔ p ∈ xs
  usable : ∀ p ∈ R, (s.page p).reserved = false
  count : s.nrFree = F.card
  below : ∀ p ∈ R, p < s.npage
  small : R.card < 2 ^ 32

namespace Blocks

variable {s : FreeArea} {R F : Finset Nat} {xs : List Nat}

theorem head_mem (hblocks : Blocks s R F xs) {x : Nat} (hx : x ∈ xs) : x ∈ F :=
  (hblocks.cover x).mpr ⟨x, hx, by simp [FreeArea.block, hblocks.pos x hx]⟩

theorem block_subset (hblocks : Blocks s R F xs) {x : Nat} (hx : x ∈ xs) : s.block x ⊆ F :=
  fun p hp => (hblocks.cover p).mpr ⟨x, hx, hp⟩

theorem property_le_card (hblocks : Blocks s R F xs) {x : Nat} (hx : x ∈ xs) :
    (s.page x).property ≤ F.card := by
  have hcard := card_le_card (hblocks.block_subset hx)
  simpa [FreeArea.block] using hcard

theorem card_small (hblocks : Blocks s R F xs) : F.card < 2 ^ 32 :=
  Nat.lt_of_le_of_lt (card_le_card hblocks.subset) hblocks.small

theorem sorted (hblocks : Blocks s R F xs) : xs.Pairwise (· < ·) :=
  hblocks.apart.imp_of_mem fun hx _ hle => by
    have := hblocks.pos _ hx
    omega

theorem nodup (hblocks : Blocks s R F xs) : xs.Nodup :=
  hblocks.sorted.imp fun hlt => Nat.ne_of_lt hlt

/-- A page lies in one block only. -/
theorem block_unique (hblocks : Blocks s R F xs) {x y p : Nat} (hx : x ∈ xs) (hy : y ∈ xs)
    (hpx : p ∈ s.block x) (hpy : p ∈ s.block y) : x = y := by
  by_contra hne
  have hsym : Std.Symm fun x y : Nat =>
      x + (s.page x).property ≤ y ∨ y + (s.page y).property ≤ x := ⟨fun _ _ => Or.symm⟩
  have hdisj := List.Pairwise.forall (R := fun x y : Nat =>
      x + (s.page x).property ≤ y ∨ y + (s.page y).property ≤ x)
    (hblocks.apart.imp fun hle => Or.inl hle) hx hy hne
  rw [FreeArea.block, mem_Ico] at hpx hpy
  omega

theorem length_le (hblocks : Blocks s R F xs) : xs.length ≤ s.npage := by
  have hsub : xs.toFinset ⊆ range s.npage := by
    intro x hx
    exact mem_range.mpr
      (hblocks.below x (hblocks.subset (hblocks.head_mem (List.mem_toFinset.mp hx))))
  have hcard := card_le_card hsub
  rwa [List.toFinset_card_of_nodup hblocks.nodup, card_range] at hcard

end Blocks

/-! ## The place of a new block -/

theorem pageLink_not_mem {base : Nat} {xs : List Nat} :
    Entry.pageLink base ∉ Entry.freeList :: xs.map .pageLink ↔ base ∉ xs := by
  simp

/-- The walk of `linkLoop` from the end of the part `lo`, when some page of
`hi` lies above `base`: it splits `hi` at `base` and links `base` there. -/
theorem linkLoop_spec {base : Nat} {lo hi : List Nat} {s : FreeArea} {fuel : Nat} {le : Entry}
    (hring : s.link.Ring .freeList ((lo ++ hi).map .pageLink))
    (hle : le = (Entry.freeList :: lo.map .pageLink).getLast (by simp))
    (hlo : ∀ x ∈ lo, x < base) (hne : base ∉ hi) (habove : ∃ y ∈ hi, base < y)
    (hfuel : hi.length < fuel) :
    ∃ mid rest link, hi = mid ++ rest ∧ (∀ x ∈ mid, x < base) ∧ (∀ y ∈ rest.head?, base < y) ∧
      link.Ring .freeList ((lo ++ mid ++ base :: rest).map .pageLink) ∧
      linkLoop base fuel le s = some { s with link := link } := by
  induction hi generalizing lo fuel le with
  | nil => simp at habove
  | cons y ys ih =>
      obtain ⟨fuel, rfl⟩ : ∃ k, fuel = k + 1 := ⟨fuel - 1, by simp at hfuel; omega⟩
      rw [List.map_append] at hring
      have hnext : s.link.next le = .pageLink y := by
        rw [hle]
        exact hring.joined.1
      have hnew : Entry.pageLink base ∉
          Entry.freeList :: (lo.map .pageLink ++ (y :: ys).map .pageLink) := by
        rw [← List.map_append, pageLink_not_mem, List.mem_append, not_or]
        exact ⟨fun hmem => Nat.lt_irrefl _ (hlo base hmem), hne⟩
      by_cases hlt : base < y
      · refine ⟨[], y :: ys, s.link.listAddBefore (.pageLink y) (.pageLink base), rfl, by simp,
          by simpa using hlt, ?_, by simp [linkLoop, hnext, hlt]⟩
        simpa using Links.Ring.listAddBefore hring hnew
      · have hyb : y < base := by
          have : base ≠ y := fun heq => hne (heq ▸ List.mem_cons_self)
          omega
        have hys : ∃ z ∈ ys, base < z := by
          obtain ⟨z, hz, hbz⟩ := habove
          rcases List.mem_cons.mp hz with rfl | hz
          · omega
          · exact ⟨z, hz, hbz⟩
        have hring' : s.link.Ring .freeList (((lo ++ [y]) ++ ys).map .pageLink) := by
          simpa using hring
        have hmore : s.link.next (.pageLink y) ≠ .freeList := by
          obtain ⟨z, zs, rfl⟩ : ∃ z zs, ys = z :: zs := by
            cases ys with
            | nil => simp at hys
            | cons z zs => exact ⟨z, zs, rfl⟩
          rw [hring.joined_mem.1]
          exact Entry.noConfusion
        obtain ⟨mid, rest, link, hsplit, hmid, hrest, hlink, hloop⟩ :=
          @ih (lo ++ [y]) fuel (.pageLink y) hring' (by simp)
            (by simpa [or_imp, forall_and] using ⟨hlo, hyb⟩)
            (fun hmem => hne (List.mem_cons_of_mem y hmem)) hys (by simp at hfuel; omega)
        refine ⟨y :: mid, rest, link, by simp [hsplit], ?_, hrest, by simpa using hlink, ?_⟩
        · simpa using ⟨hyb, hmid⟩
        · simp [linkLoop, hnext, hlt, hmore, hloop]

theorem linkBlock_spec {base : Nat} {xs : List Nat} {s : FreeArea}
    (hring : s.link.Ring .freeList (xs.map .pageLink)) (hsorted : xs.Pairwise (· < ·))
    (hlength : xs.length ≤ s.npage) (hne : base ∉ xs) (hplace : xs = [] ∨ ∃ y ∈ xs, base < y) :
    ∃ lo hi link, xs = lo ++ hi ∧ (∀ x ∈ lo, x < base) ∧ (∀ y ∈ hi, base < y) ∧
      link.Ring .freeList ((lo ++ base :: hi).map .pageLink) ∧
      linkBlock base s = some { s with link := link } := by
  have hempty := hring.listEmpty_eq
  rcases hplace with rfl | habove
  · refine ⟨[], [], s.link.listAdd .freeList (.pageLink base), rfl, by simp, by simp, ?_, ?_⟩
    · have hsplit : s.link.Ring .freeList ([] ++ []) := hring
      simpa using hsplit.listAdd (pageLink_not_mem.mpr hne)
    · rw [linkBlock, hempty]
      rfl
  · obtain ⟨lo, hi, link, rfl, hlo, hhead, hlink, hloop⟩ :=
      @linkLoop_spec base [] xs s _ .freeList hring rfl (by simp) hne habove
        (Nat.lt_succ_of_le (Nat.le_succ_of_le hlength))
    refine ⟨lo, hi, link, rfl, hlo, ?_, by simpa using hlink, ?_⟩
    · intro y hy
      cases hi with
      | nil => simp at hy
      | cons z zs =>
          have hz : base < z := hhead z rfl
          rcases List.mem_cons.mp hy with rfl | hy
          · exact hz
          · have htail := (List.pairwise_append.mp hsorted).2.1
            exact Nat.lt_trans hz ((List.pairwise_cons.mp htail).1 y hy)
    · rw [linkBlock, hempty, if_neg, hloop]
      obtain ⟨y, hy, _⟩ := habove
      simpa using List.ne_nil_of_mem hy

/-- Where every page of the list lies below `base`, the walk adds `base` after
the last one, goes on from it, and adds it once more after itself. -/
theorem linkLoop_last {base z : Nat} {lo hi : List Nat} {s : FreeArea} {fuel : Nat} {le : Entry}
    (hring : s.link.Ring .freeList ((lo ++ (hi ++ [z])).map .pageLink))
    (hle : le = (Entry.freeList :: lo.map .pageLink).getLast (by simp))
    (hlow : ∀ x ∈ hi ++ [z], x < base) (hfuel : hi.length + 2 < fuel) :
    ∃ link : Links Entry, link.prev (.pageLink base) = .pageLink base ∧
      link.next (.pageLink base) = .freeList ∧ link.prev .freeList = .pageLink base ∧
      linkLoop base fuel le s = some { s with link := link } := by
  rw [List.map_append] at hring
  induction hi generalizing lo fuel le with
  | nil =>
      obtain ⟨fuel, rfl⟩ : ∃ k, fuel = k + 3 := ⟨fuel - 3, by simp at hfuel; omega⟩
      have hnext : s.link.next le = .pageLink z := by
        rw [hle]
        exact hring.joined.1
      have hlast : s.link.next (.pageLink z) = .freeList := hring.joined_last.1
      have hz : z < base := hlow z (by simp)
      have hzb : z ≠ base := Nat.ne_of_lt hz
      refine ⟨(s.link.listAdd (.pageLink z) (.pageLink base)).listAdd (.pageLink base)
        (.pageLink base), ?_, ?_, ?_, ?_⟩
      · simp [Links.listAdd, Links.listAddAfter, Links.rawListAdd]
      · simp [Links.listAdd, Links.listAddAfter, Links.rawListAdd, hlast]
      · simp [Links.listAdd, Links.listAddAfter, Links.rawListAdd, hlast]
      · simp [linkLoop, hnext, hlast, Nat.not_lt.mpr (Nat.le_of_lt hz), hzb, Links.listAdd,
          Links.listAddAfter, Links.rawListAdd]
  | cons y ys ih =>
      obtain ⟨fuel, rfl⟩ : ∃ k, fuel = k + 1 := ⟨fuel - 1, by simp at hfuel; omega⟩
      have hnext : s.link.next le = .pageLink y := by
        rw [hle]
        exact hring.joined.1
      have hy : y < base := hlow y (by simp)
      have hmore : s.link.next (.pageLink y) ≠ .freeList := by
        cases ys with
        | nil =>
            rw [hring.joined_mem.1]
            exact Entry.noConfusion
        | cons w ws =>
            rw [hring.joined_mem.1]
            exact Entry.noConfusion
      obtain ⟨link, hprev, hnextb, hhead, hloop⟩ :=
        @ih (lo ++ [y]) fuel (.pageLink y) (by simpa using hring) (by simp)
          (fun x hx => hlow x (List.mem_cons_of_mem y hx)) (by simp at hfuel; omega)
      refine ⟨link, hprev, hnextb, hhead, ?_⟩
      simp [linkLoop, hnext, Nat.not_lt.mpr (Nat.le_of_lt hy), hmore, hloop]

theorem linkBlock_last {base : Nat} {xs : List Nat} {s : FreeArea}
    (hring : s.link.Ring .freeList (xs.map .pageLink)) (hlength : xs.length ≤ s.npage)
    (hne : xs ≠ []) (hlow : ∀ x ∈ xs, x < base) :
    ∃ link : Links Entry, link.prev (.pageLink base) = .pageLink base ∧
      link.next (.pageLink base) = .freeList ∧ link.prev .freeList = .pageLink base ∧
      linkBlock base s = some { s with link := link } := by
  obtain ⟨hi, z, rfl⟩ : ∃ hi z, xs = hi ++ [z] :=
    ⟨xs.dropLast, xs.getLast hne, (List.dropLast_append_getLast hne).symm⟩
  obtain ⟨link, hprev, hnext, hhead, hloop⟩ :=
    @linkLoop_last base z [] hi s (s.npage + 2) .freeList hring rfl hlow
      (by simp at hlength; omega)
  refine ⟨link, hprev, hnext, hhead, ?_⟩
  rw [linkBlock, hring.listEmpty_eq, if_neg (by simp), hloop]

/-! ## Freeing and merging -/

/-- The pages after the `n` pages from `base` on have been reset. -/
def resetRange (reset : Page → Page) (base n : Nat) (page : Nat → Page) (q : Nat) : Page :=
  if base ≤ q ∧ q < base + n then reset (page q) else page q

theorem resetPages_eq (check : Page → Bool) (reset : Page → Page) (base n : Nat) (s : FreeArea) :
    resetPages check reset base n s =
      if ∀ p ∈ Ico base (base + n), check (s.page p) = true then
        some { s with page := resetRange reset base n s.page }
      else none := by
  induction n generalizing base s with
  | zero =>
      have hkeep : resetRange reset base 0 s.page = s.page := by
        funext q
        exact if_neg (by omega)
      simp [resetPages, hkeep]
  | succ n ih =>
      rw [resetPages]
      by_cases hbase : check (s.page base) = true
      · have hall : (∀ p ∈ Ico (base + 1) (base + 1 + n),
            check ((s.setPage base (reset (s.page base))).page p) = true) ↔
            ∀ p ∈ Ico base (base + (n + 1)), check (s.page p) = true := by
          constructor
          · intro hrest p hp
            rw [mem_Ico] at hp
            rcases Nat.eq_or_lt_of_le hp.1 with rfl | hlt
            · exact hbase
            · have := hrest p (mem_Ico.mpr ⟨hlt, by omega⟩)
              rwa [FreeArea.setPage_page, if_neg (Nat.ne_of_gt hlt)] at this
          · intro hall p hp
            rw [mem_Ico] at hp
            rw [FreeArea.setPage_page, if_neg (by omega)]
            exact hall p (mem_Ico.mpr ⟨by omega, by omega⟩)
        rw [if_pos hbase, ih, if_congr hall rfl rfl]
        congr 2
        simp only [FreeArea.setPage, FreeArea.mk.injEq, true_and, and_true]
        funext q
        simp only [resetRange, Function.update_apply]
        by_cases hq : q = base
        · subst q
          simp
        · simp only [if_neg hq]
          exact if_congr (by omega) rfl rfl
      · rw [if_neg hbase, if_neg]
        exact fun hall => hbase (hall base (mem_Ico.mpr ⟨Nat.le_refl _, by omega⟩))

theorem uint_eq {n : Nat} (hn : n < 2 ^ 32) : uint n = n := Nat.mod_eq_of_lt hn

/-- No block ends where another one starts. -/
def Merged (s : FreeArea) (xs : List Nat) : Prop :=
  ∀ x ∈ xs, x + (s.page x).property ∉ xs

variable {s : FreeArea} {R F : Finset Nat}

namespace Blocks

theorem end_le {lo hi : List Nat} {x y : Nat} (hblocks : Blocks s R F (lo ++ hi))
    (hx : x ∈ lo) (hy : y ∈ hi) : x + (s.page x).property ≤ y :=
  (List.pairwise_append.mp hblocks.apart).2.2 x hx y hy

/-- A new block of pages outside the free set takes its place in the list. -/
theorem link {xs : List Nat} {base n : Nat} (hblocks : Blocks s R F xs) (hn : 0 < n)
    (hin : Ico base (base + n) ⊆ R) (hout : ∀ p ∈ Ico base (base + n), p ∉ F)
    (hplace : xs = [] ∨ ∃ y ∈ xs, base < y) :
    ∃ lo hi link, xs = lo ++ hi ∧
      linkBlock base (markFree base n s) = some { markFree base n s with link := link } ∧
      Blocks { markFree base n s with link := link } R (F ∪ Ico base (base + n))
        (lo ++ base :: hi) := by
  have hbase : base ∉ F := hout base (mem_Ico.mpr ⟨Nat.le_refl _, by omega⟩)
  have hunion : F ∪ Ico base (base + n) ⊆ R := union_subset hblocks.subset hin
  have hdisj : Disjoint F (Ico base (base + n)) := by
    rw [disjoint_right]
    exact hout
  have hcount : (F ∪ Ico base (base + n)).card = F.card + n := by
    rw [card_union_of_disjoint hdisj, Nat.card_Ico, Nat.add_sub_cancel_left]
  have hsmall : F.card + n < 2 ^ 32 :=
    hcount ▸ Nat.lt_of_le_of_lt (card_le_card hunion) hblocks.small
  have hne : base ∉ xs := fun hmem => hbase (hblocks.head_mem hmem)
  obtain ⟨lo, hi, link, rfl, hlo, hhi, hlink, hrun⟩ :=
    @linkBlock_spec base xs (markFree base n s) hblocks.ring hblocks.sorted hblocks.length_le
      hne hplace
  refine ⟨lo, hi, link, rfl, hrun, ?_⟩
  have hproperty : ∀ x, ((markFree base n s).page x).property =
      if x = base then n else (s.page x).property := by
    intro x
    have hn32 : n < 2 ^ 32 := by omega
    by_cases hx : x = base <;> simp [markFree, hx, uint_eq hn32]
  have hkeep : ∀ x ∈ lo ++ hi, ((markFree base n s).page x).property = (s.page x).property := by
    intro x hx
    rw [hproperty, if_neg (ne_of_mem_of_not_mem hx hne)]
  have happart := List.pairwise_append.mp hblocks.apart
  have hmem : ∀ x, x ∈ lo ++ base :: hi ↔ x = base ∨ x ∈ lo ++ hi := by
    intro x
    simp only [List.mem_append, List.mem_cons]
    tauto
  -- a listed block that starts below `base` ends below it, one above starts after the new block
  have hend : ∀ x ∈ lo, x + (s.page x).property ≤ base := by
    intro x hx
    by_contra hover
    exact hbase ((hblocks.cover base).mpr ⟨x, List.mem_append_left hi hx,
      mem_Ico.mpr ⟨Nat.le_of_lt (hlo x hx), by omega⟩⟩)
  have hstart : ∀ y ∈ hi, base + n ≤ y := by
    intro y hy
    by_contra hover
    exact hout y (mem_Ico.mpr ⟨Nat.le_of_lt (hhi y hy), by omega⟩)
      (hblocks.head_mem (List.mem_append_right lo hy))
  refine ⟨hlink, ?_, ?_, ?_, ?_, ?_, ?_, ?_, ?_, ?_⟩
  · intro x hx
    rcases (hmem x).mp hx with rfl | hx
    · simpa [hproperty] using hn
    · simpa only [hkeep x hx] using hblocks.pos x hx
  · rw [List.pairwise_append]
    refine ⟨happart.1.imp_of_mem fun hx _ hle => ?_, ?_, ?_⟩
    · simpa only [hkeep _ (List.mem_append_left hi hx)] using hle
    · rw [List.pairwise_cons]
      refine ⟨fun y hy => by simpa [hproperty] using hstart y hy, ?_⟩
      exact happart.2.1.imp_of_mem fun hx _ hle => by
        simpa only [hkeep _ (List.mem_append_right lo hx)] using hle
    · intro x hx y hy
      simp only [hkeep x (List.mem_append_left hi hx)]
      rcases List.mem_cons.mp hy with rfl | hy
      · exact hend x hx
      · exact happart.2.2 x hx y hy
  · intro p
    simp only [mem_union, FreeArea.block, hblocks.cover p, hmem, or_and_right, exists_or,
      exists_eq_left, hproperty base, if_true]
    rw [or_comm]
    refine or_congr_right (exists_congr fun x => and_congr_right fun hx => ?_)
    rw [hkeep x hx]
  · exact hunion
  · intro p hp
    rw [hmem, ← hblocks.heads p hp]
    by_cases hpb : p = base <;> simp [markFree, hpb]
  · intro p hp
    rw [← hblocks.usable p hp]
    by_cases hpb : p = base <;> simp [markFree, hpb]
  · rw [hcount]
    simp only [markFree, FreeArea.setPage_nrFree, hblocks.count]
    exact uint_eq hsmall
  · exact hblocks.below
  · exact hblocks.small

/-- Two adjacent blocks together are not larger than the free set. -/
theorem property_add_le {xs : List Nat} {x y : Nat} (hblocks : Blocks s R F xs) (hx : x ∈ xs)
    (hy : y ∈ xs) (hxy : x + (s.page x).property = y) :
    (s.page x).property + (s.page y).property ≤ F.card := by
  have hunion : s.block x ∪ s.block y ⊆ F :=
    union_subset (hblocks.block_subset hx) (hblocks.block_subset hy)
  have hdisj : Disjoint (s.block x) (s.block y) := by
    rw [FreeArea.block, FreeArea.block, hxy]
    exact Ico_disjoint_Ico_consecutive x y _
  have hcard := card_le_card hunion
  rwa [card_union_of_disjoint hdisj, FreeArea.block, FreeArea.block, Nat.card_Ico, Nat.card_Ico,
    Nat.add_sub_cancel_left, Nat.add_sub_cancel_left] at hcard

theorem absorb_property {xs : List Nat} {x y : Nat} (hblocks : Blocks s R F xs) (hx : x ∈ xs)
    (hy : y ∈ xs) (hxy : x + (s.page x).property = y) (z : Nat) :
    ((Pmm.absorb x y s).page z).property =
      if z = x then (s.page x).property + (s.page y).property else (s.page z).property := by
  have hxney : x ≠ y := by
    have := hblocks.pos x hx
    omega
  have hsum := Nat.lt_of_le_of_lt (hblocks.property_add_le hx hy hxy) hblocks.card_small
  by_cases hzx : z = x
  · subst hzx
    simp [Pmm.absorb, hxney, uint_eq hsum]
  · by_cases hzy : z = y <;> simp [Pmm.absorb, hzx, hzy, Ne.symm hxney]

/-- Appending a block to the one right before it leaves the free set alone. -/
theorem absorb {lo hi : List Nat} {x y : Nat} (hblocks : Blocks s R F (lo ++ x :: y :: hi))
    (hxy : x + (s.page x).property = y) : Blocks (absorb x y s) R F (lo ++ x :: hi) := by
  have hx : x ∈ lo ++ x :: y :: hi := by simp
  have hy : y ∈ lo ++ x :: y :: hi := by simp
  have hpx := hblocks.pos x hx
  have hnodup := hblocks.nodup
  have hylo : y ∉ lo ++ x :: hi := by
    have hperm : (lo ++ x :: y :: hi).Perm (y :: (lo ++ x :: hi)) := by
      rw [List.append_cons, List.append_cons lo x hi]
      exact List.perm_middle
    exact (List.nodup_cons.mp (hperm.nodup_iff.mp hnodup)).1
  have hxlo : x ∉ lo ++ hi := by
    have hperm : (lo ++ x :: y :: hi).Perm (x :: (lo ++ y :: hi)) := List.perm_middle
    have hsub : (x :: (lo ++ hi)).Nodup := (hperm.nodup_iff.mp hnodup).sublist
      (((List.sublist_cons_self y hi).append_left lo).cons_cons x)
    exact (List.nodup_cons.mp hsub).1
  have hsub : ∀ z ∈ lo ++ x :: hi, z ∈ lo ++ x :: y :: hi := by
    intro z hz
    simp only [List.mem_append, List.mem_cons] at hz ⊢
    tauto
  have hxney : x ≠ y := by omega
  have hproperty := hblocks.absorb_property hx hy hxy
  have happart := List.pairwise_append.mp hblocks.apart
  obtain ⟨hxfirst, hyfirst⟩ := List.pairwise_cons.mp happart.2.1
  have hkeep : ∀ z ∈ lo ++ hi, ((Pmm.absorb x y s).page z).property = (s.page z).property := by
    intro z hz
    rw [hproperty, if_neg (ne_of_mem_of_not_mem hz hxlo)]
  refine ⟨?_, ?_, ?_, ?_, hblocks.subset, ?_, ?_, hblocks.count, hblocks.below, hblocks.small⟩
  · -- `y` leaves the ring
    have hring := hblocks.ring
    rw [List.append_cons, List.map_append, List.map_cons] at hring
    have hdel := hring.listDel
    rw [← List.map_append, ← List.append_cons] at hdel
    exact hdel
  · intro z hz
    rw [hproperty]
    split_ifs with hzx
    · omega
    · exact hblocks.pos z (hsub z hz)
  · rw [List.pairwise_append]
    refine ⟨happart.1.imp_of_mem fun hz _ hle => ?_, ?_, ?_⟩
    · simpa only [hkeep _ (List.mem_append_left hi hz)] using hle
    · rw [List.pairwise_cons]
      refine ⟨fun z hz => ?_, ?_⟩
      · rw [hproperty, if_pos rfl]
        have := (List.pairwise_cons.mp hyfirst).1 z hz
        omega
      · exact (List.pairwise_cons.mp hyfirst).2.imp_of_mem fun hz _ hle => by
          simpa only [hkeep _ (List.mem_append_right lo hz)] using hle
    · intro z hz w hw
      rw [hkeep z (List.mem_append_left hi hz)]
      refine happart.2.2 z hz w ?_
      simp only [List.mem_cons] at hw ⊢
      tauto
  · -- the two blocks cover what the first one covers now
    intro p
    rw [hblocks.cover p]
    constructor
    · rintro ⟨z, hz, hp⟩
      by_cases hzx : z = x ∨ z = y
      · refine ⟨x, by simp, ?_⟩
        rw [FreeArea.block, mem_Ico, hproperty, if_pos rfl]
        rcases hzx with rfl | rfl <;> rw [FreeArea.block, mem_Ico] at hp <;> omega
      · rw [not_or] at hzx
        have hz' : z ∈ lo ++ hi := by
          simp only [List.mem_append, List.mem_cons] at hz ⊢
          tauto
        refine ⟨z, ?_, ?_⟩
        · simp only [List.mem_append, List.mem_cons] at hz' ⊢
          tauto
        · rwa [FreeArea.block, hkeep z hz']
    · rintro ⟨z, hz, hp⟩
      rw [FreeArea.block, mem_Ico, hproperty] at hp
      split_ifs at hp with hzx
      · subst hzx
        by_cases hpy : p < y
        · exact ⟨z, hx, mem_Ico.mpr ⟨hp.1, by omega⟩⟩
        · exact ⟨y, hy, mem_Ico.mpr ⟨by omega, by omega⟩⟩
      · exact ⟨z, hsub z hz, mem_Ico.mpr hp⟩
  · intro p hp
    by_cases hpy : p = y
    · subst hpy
      simp [Pmm.absorb, Ne.symm hxney, hylo]
    · have hflag : ((Pmm.absorb x y s).page p).isHead = (s.page p).isHead := by
        by_cases hpx : p = x
        · subst hpx
          simp [Pmm.absorb, hpy]
        · simp [Pmm.absorb, hpy, hpx]
      rw [hflag, hblocks.heads p hp]
      simp [hpy]
  · intro p hp
    rw [← hblocks.usable p hp]
    by_cases hpy : p = y
    · subst hpy
      simp [Pmm.absorb, Ne.symm hxney]
    · by_cases hpx : p = x
      · subst hpx
        simp [Pmm.absorb, hpy]
      · simp [Pmm.absorb, hpy, hpx]

/-- Appending a block to the one before it creates no new neighbours. -/
theorem absorb_adjacent {lo hi : List Nat} {x y z : Nat}
    (hblocks : Blocks s R F (lo ++ x :: y :: hi)) (hxy : x + (s.page x).property = y)
    (hz : z ∈ lo ++ x :: hi)
    (hend : z + ((Pmm.absorb x y s).page z).property ∈ lo ++ x :: hi) :
    z = x ∧ y + (s.page y).property ∈ lo ++ x :: y :: hi ∨
      z ≠ x ∧ z ≠ y ∧ z + (s.page z).property ≠ y ∧
        z + (s.page z).property ∈ lo ++ x :: y :: hi := by
  have hsub : ∀ w ∈ lo ++ x :: hi, w ∈ lo ++ x :: y :: hi ∧ w ≠ y := by
    have hperm : (lo ++ x :: y :: hi).Perm (y :: (lo ++ x :: hi)) := by
      rw [List.append_cons, List.append_cons lo x hi]
      exact List.perm_middle
    intro w hw
    refine ⟨hperm.mem_iff.mpr (List.mem_cons_of_mem y hw), ?_⟩
    exact ne_of_mem_of_not_mem hw (List.nodup_cons.mp (hperm.nodup_iff.mp hblocks.nodup)).1
  rw [hblocks.absorb_property (by simp) (by simp) hxy] at hend
  by_cases hzx : z = x
  · subst hzx
    rw [if_pos rfl, ← Nat.add_assoc, hxy] at hend
    exact Or.inl ⟨rfl, (hsub _ hend).1⟩
  · rw [if_neg hzx] at hend
    exact Or.inr ⟨hzx, (hsub z hz).2, (hsub _ hend).2, (hsub _ hend).1⟩

/-- The merge with the block before `base`: afterwards at most the block that
`base` has become part of ends where another one starts. -/
theorem mergePrev {lo hi : List Nat} {base : Nat} (hblocks : Blocks s R F (lo ++ base :: hi))
    (hadj : ∀ x ∈ lo ++ base :: hi, x + (s.page x).property ∈ lo ++ base :: hi →
      x = base ∨ x + (s.page x).property = base) :
    ∃ front head t, mergePrev base s = (head, t) ∧ Blocks t R F (front ++ head :: hi) ∧
      ∀ x ∈ front ++ head :: hi, x + (t.page x).property ∈ front ++ head :: hi → x = head := by
  have hafter : ∀ x ∈ hi, base < x := by
    intro x hx
    exact (List.pairwise_cons.mp (List.pairwise_append.mp hblocks.sorted).2.1).1 x hx
  rcases List.eq_nil_or_concat lo with rfl | ⟨front, p, rfl⟩
  · have hprev : s.link.prev (.pageLink base) = .freeList := hblocks.ring.joined_first.2
    refine ⟨[], base, s, by rw [Pmm.mergePrev, hprev], hblocks, ?_⟩
    intro x hx hend
    rcases List.mem_cons.mp hx with hxb | hx'
    · exact hxb
    · have := hafter x hx'
      rcases hadj x hx hend with hxb | hbase <;> omega
  · rw [List.concat_eq_append] at hblocks hadj
    have hring := hblocks.ring
    rw [← List.append_cons, List.map_append, List.map_cons, List.map_cons] at hring
    have hprev : s.link.prev (.pageLink base) = .pageLink p := hring.joined_mem.2
    by_cases hmerge : p + (s.page p).property = base
    · rw [← List.append_cons] at hblocks hadj
      refine ⟨front, p, Pmm.absorb p base s, by simp [Pmm.mergePrev, hprev, hmerge],
        hblocks.absorb hmerge, ?_⟩
      intro x hx hend
      rcases hblocks.absorb_adjacent hmerge hx hend with ⟨hxp, _⟩ | ⟨hxp, hxb, hne, hold⟩
      · exact hxp
      · have hx' : x ∈ front ++ p :: base :: hi := by
          simp only [List.mem_append, List.mem_cons] at hx ⊢
          tauto
        rcases hadj x hx' hold with heq | heq
        · exact absurd heq hxb
        · exact absurd heq hne
    · refine ⟨front ++ [p], base, s, by simp [Pmm.mergePrev, hprev, hmerge], hblocks, ?_⟩
      intro x hx hend
      rcases hadj x hx hend with hxb | hbase
      · exact hxb
      -- only `p` is close enough to end at `base`
      have hpos := hblocks.pos x hx
      rcases List.mem_append.mp hx with hx' | hx'
      · rcases List.mem_append.mp hx' with hx' | hx'
        · rw [← List.append_cons] at hblocks
          have hle := hblocks.end_le hx' List.mem_cons_self
          have hlt := (List.pairwise_cons.mp (List.pairwise_append.mp hblocks.sorted).2.1).1 base
            List.mem_cons_self
          omega
        · rw [List.mem_singleton] at hx'
          exact absurd (hx' ▸ hbase) hmerge
      · rcases List.mem_cons.mp hx' with hxb | hx'
        · exact hxb
        · have := hafter x hx'
          omega

/-- The merge with the block after `base` leaves no adjacent blocks. -/
theorem mergeNext {lo hi : List Nat} {base : Nat} (hblocks : Blocks s R F (lo ++ base :: hi))
    (hadj : ∀ x ∈ lo ++ base :: hi, x + (s.page x).property ∈ lo ++ base :: hi → x = base) :
    ∃ rest, Blocks (mergeNext base s) R F (lo ++ base :: rest) ∧
      Merged (mergeNext base s) (lo ++ base :: rest) := by
  cases hi with
  | nil =>
      have hring := hblocks.ring
      rw [List.map_append, List.map_cons, List.map_nil] at hring
      have hnext : s.link.next (.pageLink base) = .freeList := hring.joined_last.1
      have hsame : Pmm.mergeNext base s = s := by rw [Pmm.mergeNext, hnext]
      rw [hsame]
      refine ⟨[], hblocks, ?_⟩
      intro x hx hend
      obtain rfl := hadj x hx hend
      have hpos := hblocks.pos x hx
      rcases List.mem_append.mp hend with hend | hend
      · have := hblocks.end_le hend (List.mem_singleton_self x)
        omega
      · rw [List.mem_singleton] at hend
        omega
  | cons p hi =>
      have hring := hblocks.ring
      rw [List.map_append, List.map_cons, List.map_cons] at hring
      have hnext : s.link.next (.pageLink base) = .pageLink p := hring.joined_mem.1
      have hbase : base ∈ lo ++ base :: p :: hi := by simp
      have hpos := hblocks.pos base hbase
      by_cases hmerge : base + (s.page base).property = p
      · have hrun : Pmm.mergeNext base s = Pmm.absorb base p s := by
          simp [Pmm.mergeNext, hnext, hmerge]
        rw [hrun]
        refine ⟨hi, hblocks.absorb hmerge, ?_⟩
        intro x hx hend
        rcases hblocks.absorb_adjacent hmerge hx hend with ⟨_, hold⟩ | ⟨hxb, _, _, hold⟩
        · have hp := hadj p (by simp) hold
          omega
        · refine hxb (hadj x ?_ hold)
          simp only [List.mem_append, List.mem_cons] at hx ⊢
          tauto
      · have hsame : Pmm.mergeNext base s = s := by simp [Pmm.mergeNext, hnext, hmerge]
        rw [hsame]
        refine ⟨p :: hi, hblocks, ?_⟩
        intro x hx hend
        obtain rfl := hadj x hx hend
        -- the block ends before `p`, and every other page of the list lies on one side of it
        rw [List.append_cons] at hblocks
        have hend' := hblocks.end_le (List.mem_append_right lo (List.mem_singleton_self x))
          (List.mem_cons_self (l := hi) (a := p))
        rw [← List.append_cons] at hblocks
        have hsorted := List.pairwise_append.mp hblocks.sorted
        rcases List.mem_append.mp hend with hmem | hmem
        · have := hsorted.2.2 _ hmem x List.mem_cons_self
          omega
        · rcases List.mem_cons.mp hmem with heq | hmem
          · omega
          · rcases List.mem_cons.mp hmem with heq | hmem
            · exact hmerge heq
            · have htail := (List.pairwise_cons.mp hsorted.2.1).2
              have := (List.pairwise_cons.mp htail).1 _ hmem
              omega

/-- Resetting pages outside the free set. -/
theorem reset {xs : List Nat} {base n : Nat} (hblocks : Blocks s R F xs)
    (hout : ∀ p ∈ Ico base (base + n), p ∉ F) (reset : Page → Page)
    (hreset : ∀ page, (reset page).isHead = false ∧ (reset page).reserved = false) :
    Blocks { s with page := resetRange reset base n s.page } R F xs := by
  have hin : ∀ x ∈ xs, resetRange reset base n s.page x = s.page x := by
    intro x hx
    refine if_neg fun hrange => ?_
    exact hout x (mem_Ico.mpr hrange) (hblocks.head_mem hx)
  refine ⟨hblocks.ring, ?_, ?_, ?_, hblocks.subset, ?_, ?_, hblocks.count, hblocks.below,
    hblocks.small⟩
  · intro x hx
    simpa only [hin x hx] using hblocks.pos x hx
  · exact hblocks.apart.imp_of_mem fun hx _ hle => by simpa only [hin _ hx] using hle
  · intro p
    rw [hblocks.cover p]
    refine exists_congr fun x => and_congr_right fun hx => ?_
    simp only [FreeArea.block, hin x hx]
  · intro p hp
    by_cases hrange : base ≤ p ∧ p < base + n
    · have hnot : p ∉ xs := fun hx => hout p (mem_Ico.mpr hrange) (hblocks.head_mem hx)
      simp [resetRange, hrange, (hreset _).1, hnot]
    · simpa only [resetRange, if_neg hrange] using hblocks.heads p hp
  · intro p hp
    by_cases hrange : base ≤ p ∧ p < base + n
    · simp [resetRange, hrange, (hreset _).2]
    · simpa only [resetRange, if_neg hrange] using hblocks.usable p hp

/-- The pages of a block that is not free pass the checks of `free_pages`. -/
theorem reset_freed {xs : List Nat} {base n : Nat} (hblocks : Blocks s R F xs)
    (hin : Ico base (base + n) ⊆ R) (hout : ∀ p ∈ Ico base (base + n), p ∉ F) :
    ∃ t, resetPages (fun page => !page.reserved && !page.isHead)
        (fun page => { page with flags := 0#64, ref := 0 }) base n s = some t ∧
      Blocks t R F xs ∧ ∀ x ∈ xs, t.page x = s.page x := by
  refine ⟨_, ?_, hblocks.reset hout (fun page => { page with flags := 0#64, ref := 0 })
    fun page => ⟨by simp [Page.isHead, testBit_eq], by simp [Page.reserved, testBit_eq]⟩, ?_⟩
  · rw [resetPages_eq, if_pos]
    intro p hp
    have hhead : (s.page p).isHead = false := by
      rw [← Bool.not_eq_true, hblocks.heads p (hin hp)]
      exact fun hx => hout p hp (hblocks.head_mem hx)
    simp [hhead, hblocks.usable p (hin hp)]
  · intro x hx
    refine if_neg fun hrange => ?_
    exact hout x (mem_Ico.mpr hrange) (hblocks.head_mem hx)

/-- `free_pages` of a block that is not free, when some free block lies above it
or none is free. -/
theorem freePages {xs : List Nat} {base n : Nat} (hblocks : Blocks s R F xs)
    (hmerged : Merged s xs) (hn : 0 < n) (hin : Ico base (base + n) ⊆ R)
    (hout : ∀ p ∈ Ico base (base + n), p ∉ F) (hplace : xs = [] ∨ ∃ y ∈ xs, base < y) :
    ∃ t ys, freePages base n s = some t ∧ Blocks t R (F ∪ Ico base (base + n)) ys ∧
      Merged t ys := by
  obtain ⟨u, hreset, hu, hkeep⟩ := hblocks.reset_freed hin hout
  obtain ⟨lo, hi, link, rfl, hlink, hlinked⟩ := hu.link hn hin hout hplace
  have hadj : ∀ x ∈ lo ++ base :: hi, x + ((markFree base n u).page x).property ∈ lo ++ base :: hi →
      x = base ∨ x + ((markFree base n u).page x).property = base := by
    intro x hx hend
    by_contra hne
    rw [not_or] at hne
    have hperm : (lo ++ base :: hi).Perm (base :: (lo ++ hi)) := List.perm_middle
    have hx' := (List.mem_cons.mp (hperm.mem_iff.mp hx)).resolve_left hne.1
    have hend' := (List.mem_cons.mp (hperm.mem_iff.mp hend)).resolve_left hne.2
    have hproperty : ((markFree base n u).page x).property = (s.page x).property := by
      rw [← hkeep x hx']
      simp [markFree, hne.1]
    rw [hproperty] at hend'
    exact hmerged x hx' hend'
  obtain ⟨front, head, t, hprev, ht, htadj⟩ := hlinked.mergePrev hadj
  obtain ⟨rest, hrest, hmerge⟩ := ht.mergeNext htadj
  refine ⟨Pmm.mergeNext head t, front ++ head :: rest, ?_, hrest, hmerge⟩
  simp [Pmm.freePages, Nat.ne_of_gt hn, hreset, hlink, hprev]

/-! ## Taking a block -/

/-- The free set without the first `n` pages of a block. -/
theorem count_sdiff {xs : List Nat} {page n : Nat} (hblocks : Blocks s R F xs) (hpage : page ∈ xs)
    (hfit : n ≤ (s.page page).property) :
    uint (s.nrFree - n) = (F \ Ico page (page + n)).card := by
  have hsub : Ico page (page + n) ⊆ F :=
    (Ico_subset_Ico_right (by omega)).trans (hblocks.block_subset hpage)
  have hsmall := hblocks.card_small
  rw [card_sdiff_of_subset hsub, Nat.card_Ico, Nat.add_sub_cancel_left, hblocks.count, uint_eq]
  omega

/-- Taking a whole block unlinks it. -/
theorem takeBlock_whole {lo hi : List Nat} {page : Nat} (hblocks : Blocks s R F (lo ++ page :: hi))
    (hmerged : Merged s (lo ++ page :: hi)) :
    Blocks (takeBlock page (s.page page).property s) R (F \ s.block page) (lo ++ hi) ∧
      Merged (takeBlock page (s.page page).property s) (lo ++ hi) := by
  have hperm : (lo ++ page :: hi).Perm (page :: (lo ++ hi)) := List.perm_middle
  have hnot : page ∉ lo ++ hi := (List.nodup_cons.mp (hperm.nodup_iff.mp hblocks.nodup)).1
  have hsub : ∀ x ∈ lo ++ hi, x ∈ lo ++ page :: hi :=
    fun x hx => hperm.mem_iff.mpr (List.mem_cons_of_mem page hx)
  have hpage : page ∈ lo ++ page :: hi := by simp
  have htake : takeBlock page (s.page page).property s =
      { s.setPage page (s.page page).clearHead with
        link := s.link.listDel (.pageLink page)
        nrFree := uint (s.nrFree - (s.page page).property) } := by
    simp [takeBlock, FreeArea.setPage]
  have hproperty : ∀ x, ((takeBlock page (s.page page).property s).page x).property =
      (s.page x).property := by
    intro x
    rw [htake]
    by_cases hx : x = page <;> simp [hx]
  have happart := hblocks.apart.sublist ((List.sublist_cons_self page hi).append_left lo)
  refine ⟨⟨?_, ?_, ?_, ?_, sdiff_subset.trans hblocks.subset, ?_, ?_, ?_, ?_, hblocks.small⟩, ?_⟩
  · have hring := hblocks.ring
    rw [List.map_append, List.map_cons] at hring
    have hdel := hring.listDel
    rw [← List.map_append] at hdel
    rw [htake]
    exact hdel
  · intro x hx
    rw [hproperty]
    exact hblocks.pos x (hsub x hx)
  · exact happart.imp fun hle => by rwa [hproperty]
  · intro p
    rw [mem_sdiff, hblocks.cover p]
    constructor
    · rintro ⟨⟨x, hx, hp⟩, hout⟩
      rcases List.mem_cons.mp (hperm.mem_iff.mp hx) with rfl | hx
      · exact absurd hp hout
      · exact ⟨x, hx, by rwa [FreeArea.block, hproperty]⟩
    · rintro ⟨x, hx, hp⟩
      rw [FreeArea.block, hproperty] at hp
      refine ⟨⟨x, hsub x hx, hp⟩, fun hin => ?_⟩
      exact hnot (hblocks.block_unique (hsub x hx) hpage hp hin ▸ hx)
  · intro p hp
    rw [htake]
    by_cases hpp : p = page
    · subst hpp
      simp [hnot]
    · simp only [FreeArea.setPage_page, if_neg hpp, hblocks.heads p hp, hperm.mem_iff,
        List.mem_cons]
      tauto
  · intro p hp
    rw [← hblocks.usable p hp, htake]
    by_cases hpp : p = page <;> simp [hpp]
  · rw [htake]
    exact hblocks.count_sdiff hpage (Nat.le_refl _)
  · intro p hp
    rw [htake]
    exact hblocks.below p hp
  · intro x hx hend
    rw [hproperty] at hend
    exact hmerged x (hsub x hx) (hsub _ hend)

/-- Taking the first `n` pages of a larger block leaves the rest in its place. -/
theorem takeBlock_part {lo hi : List Nat} {page n : Nat} (hblocks : Blocks s R F (lo ++ page :: hi))
    (hmerged : Merged s (lo ++ page :: hi)) (hn : 0 < n) (hfit : n < (s.page page).property) :
    Blocks (takeBlock page n s) R (F \ Ico page (page + n)) (lo ++ (page + n) :: hi) ∧
      Merged (takeBlock page n s) (lo ++ (page + n) :: hi) := by
  have hpage : page ∈ lo ++ page :: hi := by simp
  have hperm : (lo ++ page :: hi).Perm (page :: (lo ++ hi)) := List.perm_middle
  have hperm' : (lo ++ (page + n) :: hi).Perm ((page + n) :: (lo ++ hi)) := List.perm_middle
  have hnot : page ∉ lo ++ hi := (List.nodup_cons.mp (hperm.nodup_iff.mp hblocks.nodup)).1
  have hsub : ∀ x ∈ lo ++ hi, x ∈ lo ++ page :: hi :=
    fun x hx => hperm.mem_iff.mpr (List.mem_cons_of_mem page hx)
  have hrest : page + n ∈ s.block page := by
    rw [FreeArea.block, mem_Ico]
    omega
  have hrestF : page + n ∈ F := hblocks.block_subset hpage hrest
  have hnew : page + n ∉ lo ++ hi := by
    intro hmem
    have hself : page + n ∈ s.block (page + n) := by
      simp [FreeArea.block, hblocks.pos _ (hsub _ hmem)]
    have := hblocks.block_unique (hsub _ hmem) hpage hself hrest
    omega
  have hsmall : (s.page page).property - n < 2 ^ 32 := by
    have := hblocks.property_le_card hpage
    have := hblocks.card_small
    omega
  have hne : page + n ≠ page := by omega
  -- the whole step as one update of the state
  have htake : takeBlock page n s =
      { ((s.setPage (page + n)
          ((s.page (page + n)).setProperty ((s.page page).property - n)).setHead).setPage page
            (s.page page).clearHead) with
        link := (s.link.listDel (.pageLink page)).listAdd (s.link.prev (.pageLink page))
          (.pageLink (page + n))
        nrFree := uint (s.nrFree - n) } := by
    simp [takeBlock, splitRest, FreeArea.setPage, hfit, Function.update_of_ne (Ne.symm hne),
      uint_eq hsmall]
  have hproperty : ∀ x, ((takeBlock page n s).page x).property =
      if x = page + n then (s.page page).property - n else (s.page x).property := by
    intro x
    rw [htake]
    by_cases hx : x = page + n
    · simp [hx, Nat.ne_of_gt hn]
    · by_cases hxp : x = page
      · simp [hxp, Nat.ne_of_gt hn]
      · simp [hx, hxp]
  have hkeep : ∀ x ∈ lo ++ hi, ((takeBlock page n s).page x).property = (s.page x).property := by
    intro x hx
    rw [hproperty, if_neg (ne_of_mem_of_not_mem hx hnew)]
  have happart := List.pairwise_append.mp hblocks.apart
  refine ⟨⟨?_, ?_, ?_, ?_, sdiff_subset.trans hblocks.subset, ?_, ?_, ?_, ?_, hblocks.small⟩, ?_⟩
  · -- the rest of the block takes its place in the ring
    have hring := hblocks.ring
    rw [List.map_append, List.map_cons] at hring
    have hprev := hring.joined.2
    have hadd := hring.listDel.listAdd
      (List.map_append ▸ pageLink_not_mem.mpr hnew : Entry.pageLink (page + n) ∉ _)
    rw [htake]
    simp only [List.cons_append, List.head_cons] at hprev
    rw [← hprev] at hadd
    simpa using hadd
  · intro x hx
    rcases List.mem_cons.mp (hperm'.mem_iff.mp hx) with rfl | hx
    · rw [hproperty, if_pos rfl]
      omega
    · rw [hkeep x hx]
      exact hblocks.pos x (hsub x hx)
  · -- the rest starts later than the block did and ends where it ended
    rw [List.pairwise_append, List.pairwise_cons]
    obtain ⟨hfirst, htail⟩ := List.pairwise_cons.mp happart.2.1
    refine ⟨happart.1.imp_of_mem fun hx _ hle => ?_, ⟨?_, htail.imp_of_mem fun hx _ hle => ?_⟩, ?_⟩
    · rwa [hkeep _ (List.mem_append_left hi hx)]
    · intro y hy
      have := hfirst y hy
      rw [hproperty, if_pos rfl]
      omega
    · rwa [hkeep _ (List.mem_append_right lo hx)]
    · intro x hx y hy
      rw [hkeep x (List.mem_append_left hi hx)]
      rcases List.mem_cons.mp hy with rfl | hy
      · have := hblocks.end_le hx List.mem_cons_self
        omega
      · exact hblocks.end_le hx (List.mem_cons_of_mem page hy)
  · -- what the blocks cover is what they covered, less the pages handed out
    intro p
    rw [mem_sdiff, hblocks.cover p]
    constructor
    · rintro ⟨⟨x, hx, hp⟩, hout⟩
      rcases List.mem_cons.mp (hperm.mem_iff.mp hx) with rfl | hx
      · refine ⟨x + n, by simp, ?_⟩
        rw [FreeArea.block, hproperty, if_pos rfl, mem_Ico]
        rw [FreeArea.block, mem_Ico] at hp
        rw [mem_Ico] at hout
        omega
      · exact ⟨x, hperm'.mem_iff.mpr (List.mem_cons_of_mem _ hx), by
          rwa [FreeArea.block, hkeep x hx]⟩
    · rintro ⟨x, hx, hp⟩
      rcases List.mem_cons.mp (hperm'.mem_iff.mp hx) with rfl | hx
      · rw [FreeArea.block, hproperty, if_pos rfl, mem_Ico] at hp
        refine ⟨⟨page, hpage, ?_⟩, ?_⟩
        · rw [FreeArea.block, mem_Ico]
          omega
        · rw [mem_Ico]
          omega
      · rw [FreeArea.block, hkeep x hx] at hp
        refine ⟨⟨x, hsub x hx, hp⟩, fun hin => hnot ?_⟩
        have hin' : p ∈ s.block page := Ico_subset_Ico_right (by omega) hin
        exact hblocks.block_unique (hsub x hx) hpage hp hin' ▸ hx
  · intro p hp
    rw [hperm'.mem_iff, List.mem_cons, htake]
    by_cases hpn : p = page + n
    · simp [hpn, Nat.ne_of_gt hn]
    · by_cases hpp : p = page
      · subst hpp
        simp [Nat.ne_of_gt hn, hnot]
      · simp only [FreeArea.setPage_page, if_neg hpp, if_neg hpn, hblocks.heads p hp,
          hperm.mem_iff, List.mem_cons]
        tauto
  · intro p hp
    rw [← hblocks.usable p hp, htake]
    by_cases hpn : p = page + n
    · subst hpn
      simp [Nat.ne_of_gt hn]
    · by_cases hpp : p = page <;> simp [hpn, hpp]
  · rw [htake]
    exact hblocks.count_sdiff hpage (Nat.le_of_lt hfit)
  · intro p hp
    rw [htake]
    exact hblocks.below p hp
  · -- no block ends where another starts: only the start of `page` has moved
    intro x hx hend
    rcases List.mem_cons.mp (hperm'.mem_iff.mp hx) with rfl | hx
    · rw [hproperty, if_pos rfl] at hend
      have hsum : page + n + ((s.page page).property - n) = page + (s.page page).property := by
        omega
      rw [hsum] at hend
      rcases List.mem_cons.mp (hperm'.mem_iff.mp hend) with heq | hend
      · omega
      · exact hmerged page hpage (hsub _ hend)
    · rw [hkeep x hx] at hend
      rcases List.mem_cons.mp (hperm'.mem_iff.mp hend) with heq | hend
      · -- a block that ends inside the block `page` would share a page with it
        have hlast : x + (s.page x).property - 1 ∈ s.block x := by
          have := hblocks.pos x (hsub x hx)
          rw [FreeArea.block, mem_Ico]
          omega
        have hin : x + (s.page x).property - 1 ∈ s.block page := by
          rw [FreeArea.block, mem_Ico]
          omega
        exact hnot (hblocks.block_unique (hsub x hx) hpage hlast hin ▸ hx)
      · exact hmerged x (hsub x hx) (hsub _ hend)

/-- Taking the first `n` pages of a block. -/
theorem takeBlock {xs : List Nat} {page n : Nat} (hblocks : Blocks s R F xs)
    (hmerged : Merged s xs) (hn : 0 < n) (hpage : page ∈ xs) (hfit : n ≤ (s.page page).property) :
    ∃ ys, Blocks (takeBlock page n s) R (F \ Ico page (page + n)) ys ∧
      Merged (Pmm.takeBlock page n s) ys := by
  obtain ⟨lo, hi, rfl⟩ := List.append_of_mem hpage
  rcases Nat.eq_or_lt_of_le hfit with heq | hlt
  · subst heq
    exact ⟨lo ++ hi, hblocks.takeBlock_whole hmerged⟩
  · exact ⟨lo ++ (page + n) :: hi, hblocks.takeBlock_part hmerged hn hlt⟩

end Blocks

end Ucore.Pmm
