import Mathlib.Algebra.Order.BigOperators.Group.Finset
import Ucore.Pmm.BuddyPmm

/-!
# The counters of the buddy manager

`split_page` keeps the counters of the free lists. `buddy_system_alloc_pages` does not
count the block that it takes off a list, and `buddy_system_free_pages` counts none of the
blocks that it adds, so that the number of free pages never changes.
-/

namespace Ucore.Pmm.Buddy

open Machine Links

/-- Every list is a ring of blocks of its order by address, the blocks share no page, and
the counters are the lengths of the lists, for fewer pages than an `unsigned int` counts. -/
structure WellFormed (s : FreeAreas) (blocks : Nat → List Nat) : Prop where
  ring : ∀ i < MAX_ORDER, s.link.Ring (.freeList i) ((blocks i).map .pageLink)
  sorted : ∀ i < MAX_ORDER, (blocks i).Pairwise (· < ·)
  property : ∀ i < MAX_ORDER, ∀ p ∈ blocks i, (s.page p).property = 2 ^ i
  apart : ∀ i < MAX_ORDER, ∀ j < MAX_ORDER, ∀ p ∈ blocks i, ∀ q ∈ blocks j,
    i ≠ j ∨ p ≠ q → p + 2 ^ i ≤ q ∨ q + 2 ^ j ≤ p
  count : ∀ i < MAX_ORDER, s.nrFree i = (blocks i).length
  small : buddySystemNrFreePages s < 2 ^ 32

variable {headers : Headers} {s t : FreeAreas} {blocks : Nat → List Nat} {E : Stop → Prop}
  {p order n : Nat}

section Primitives

variable {Q : PUnit → FreeAreas → Prop}

@[simp] theorem ends_setPage {f : Page → Page} : Ends E (setPage p f) s Q ↔
    Q ⟨⟩ { s with page := Function.update s.page p (f (s.page p)) } := Iff.rfl

@[simp] theorem ends_setLink {f : Links Entry → Links Entry} :
    Ends E (setLink f) s Q ↔ Q ⟨⟩ { s with link := f s.link } := Iff.rfl

@[simp] theorem ends_setNrFree : Ends E (setNrFree order n) s Q ↔
    Q ⟨⟩ { s with nrFree := Function.update s.nrFree order n } := Iff.rfl

end Primitives

/-! ## The number of free pages -/

/-- The free pages that counters stand for. -/
def pagesOf (nrFree : Nat → Nat) : Nat := ∑ i ∈ Finset.range MAX_ORDER, nrFree i <<< i

theorem nrFreePages_eq : buddySystemNrFreePages s = pagesOf s.nrFree := rfl

/-- The counter of one order changes. -/
theorem pagesOf_update (f : Nat → Nat) (horder : order < MAX_ORDER) (v : Nat) :
    pagesOf (Function.update f order v) + f order * 2 ^ order = pagesOf f + v * 2 ^ order := by
  have hmem : order ∈ Finset.range MAX_ORDER := Finset.mem_range.mpr horder
  have hrest : ∀ i ∈ (Finset.range MAX_ORDER).erase order,
      Function.update f order v i <<< i = f i <<< i := by
    intro i hi
    rw [Function.update_of_ne (Finset.ne_of_mem_erase hi)]
  rw [pagesOf, pagesOf, ← Finset.add_sum_erase _ _ hmem,
    ← Finset.add_sum_erase (Finset.range MAX_ORDER) (fun i => f i <<< i) hmem,
    Finset.sum_congr rfl hrest, Function.update_self, Nat.shiftLeft_eq, Nat.shiftLeft_eq]
  omega

/-- One block of an order for two of the order below. -/
theorem pagesOf_split {f : Nat → Nat} (horder : order + 1 < MAX_ORDER) (hpos : 0 < f (order + 1)) :
    pagesOf (Function.update (Function.update f (order + 1)
      (f (order + 1) - 1)) order (f order + 2)) =
      pagesOf f := by
  obtain ⟨k, hk⟩ := Nat.exists_eq_succ_of_ne_zero (Nat.ne_of_gt hpos)
  rw [hk, Nat.succ_sub_one]
  have hupper := pagesOf_update f horder k
  have hlower := pagesOf_update (Function.update f (order + 1) k) (Nat.lt_of_succ_lt horder)
    (f order + 2)
  rw [Function.update_of_ne (Nat.ne_of_lt (Nat.lt_succ_self order))] at hlower
  rw [hk, Nat.pow_succ, Nat.succ_mul] at hupper
  rw [Nat.add_mul] at hlower
  omega

/-- The counters of two orders next to each other. -/
theorem le_pagesOf {f : Nat → Nat} (horder : order + 1 < MAX_ORDER) :
    f (order + 1) * 2 ^ (order + 1) + f order * 2 ^ order ≤ pagesOf f := by
  have hsub : ({order + 1, order} : Finset Nat) ⊆ Finset.range MAX_ORDER := by
    intro i hi
    simp only [Finset.mem_insert, Finset.mem_singleton] at hi
    exact Finset.mem_range.mpr (by omega)
  have hle : ∑ i ∈ {order + 1, order}, f i <<< i ≤ pagesOf f := Finset.sum_le_sum_of_subset hsub
  rwa [Finset.sum_pair (by omega), Nat.shiftLeft_eq, Nat.shiftLeft_eq] at hle

/-- The counters count no more blocks than pages. -/
theorem sum_le_pagesOf (order : Nat) (f : Nat → Nat) :
    ∑ i ∈ Finset.Ico order MAX_ORDER, f i ≤ pagesOf f := by
  have hsub : Finset.Ico order MAX_ORDER ⊆ Finset.range MAX_ORDER := by
    intro i hi
    exact Finset.mem_range.mpr (Finset.mem_Ico.mp hi).2
  calc ∑ i ∈ Finset.Ico order MAX_ORDER, f i
      ≤ ∑ i ∈ Finset.range MAX_ORDER, f i := Finset.sum_le_sum_of_subset hsub
    _ ≤ pagesOf f := Finset.sum_le_sum fun i _ => by
        rw [Nat.shiftLeft_eq]
        exact Nat.le_mul_of_pos_right _ (Nat.two_pow_pos i)

/-- Counters that stand for few pages are not wrapped by a split. -/
theorem uint_split {f : Nat → Nat} (horder : order + 1 < MAX_ORDER) (hpos : 0 < f (order + 1))
    (hsmall : pagesOf f < 2 ^ 32) :
    uint (f (order + 1) + (2 ^ 32 - 1)) = f (order + 1) - 1 ∧ uint (f order + 2) = f order + 2 := by
  have hle := @le_pagesOf order f horder
  have hpow : 2 ≤ 2 ^ (order + 1) := by
    rw [Nat.pow_succ]
    have := Nat.two_pow_pos order
    omega
  have hupper : f (order + 1) * 2 ≤ f (order + 1) * 2 ^ (order + 1) := Nat.mul_le_mul_left _ hpow
  have hlower : f order ≤ f order * 2 ^ order := Nat.le_mul_of_pos_right _ (Nat.two_pow_pos order)
  constructor
  · unfold uint
    omega
  · unfold uint
    omega

/-! ## Allocating -/

/-- What `split_page` leaves for the order below: at the head of its list the front of the
block `page`, with the flags it had, which is counted. -/
structure Split (order page : Nat) (s t : FreeAreas) : Prop where
  first : t.link.next (.freeList order) = .pageLink page
  property : (t.page page).property = 2 ^ order
  flags : ∀ q ∈ Finset.Ico page (page + 2 ^ order), (t.page q).flags = (s.page q).flags
  count : 0 < t.nrFree order
  pages : pagesOf t.nrFree = pagesOf s.nrFree

theorem splitFirst_spec {page : Nat} (horder : order + 1 < MAX_ORDER)
    (hfirst : s.link.next (.freeList (order + 1)) = .pageLink page)
    (hpos : 0 < s.nrFree (order + 1))
    (hsmall : pagesOf s.nrFree < 2 ^ 32) :
    Ends E (splitFirst (order + 1)) s fun _ t => Split order page s t := by
  obtain ⟨hupper, hlower⟩ := @uint_split order s.nrFree horder hpos hsmall
  have hother : Function.update s.nrFree (order + 1)
      (s.nrFree (order + 1) - 1) order = s.nrFree order :=
    Function.update_of_ne (Nat.ne_of_lt (Nat.lt_succ_self order)) _ _
  rw [splitFirst, ends_bind, ends_get, hfirst]
  simp only [ends_bind, ends_setLink, ends_setNrFree, ends_setPage, ends_get,
    Nat.add_sub_cancel, hupper, hother, hlower]
  refine ⟨?_, ?_, ?_, ?_, pagesOf_split horder hpos⟩
  · simp [listAdd, listAddAfter, rawListAdd]
  · simp
  · intro q hq
    have hout : q ≠ page + 2 ^ order := Nat.ne_of_lt (Finset.mem_Ico.mp hq).2
    by_cases hqp : q = page
    · subst hqp
      simp [Page.setProperty]
    · simp [Function.update_of_ne hout, Function.update_of_ne hqp]
  · simp

/-- The recursion ends at the list `i`, the first one that is not empty. -/
theorem splitPage_spec {rest i page : Nat} (horder : rest + (order + 1) = MAX_ORDER)
    (hle : order + 1 ≤ i)
    (hi : i < MAX_ORDER) (hfirst : s.link.next (.freeList i) = .pageLink page)
    (hpos : 0 < s.nrFree i)
    (hempty : ∀ j, order + 1 ≤ j → j < i → s.link.listEmpty (.freeList j) = true)
    (hsmall : pagesOf s.nrFree < 2 ^ 32) :
    Ends E (splitPage rest (order + 1)) s fun _ t => Split order page s t := by
  induction rest generalizing order with
  | zero => omega
  | succ rest ih =>
      rw [splitPage, ends_bind, ends_get]
      rcases Nat.eq_or_lt_of_le hle with heq | hlt
      · have hfull : s.link.listEmpty (.freeList (order + 1)) = false := by
          simp [listEmpty, heq, hfirst]
        rw [hfull, if_neg Bool.false_ne_true]
        subst heq
        exact splitFirst_spec hi hfirst hpos hsmall
      · rw [hempty (order + 1) (Nat.le_refl _) hlt, if_pos rfl, ends_bind]
        have hnext : rest + (order + 1 + 1) = MAX_ORDER := by omega
        have habove : ∀ j, order + 1 + 1 ≤ j → j < i → s.link.listEmpty (.freeList j) = true :=
          fun j hj => hempty j (by omega)
        apply (ih hnext hlt habove).imp
        intro _ t hsplit
        have hlast : order + 1 < MAX_ORDER := Nat.lt_trans hlt hi
        have hsmall' : pagesOf t.nrFree < 2 ^ 32 := by
          rw [hsplit.pages]
          exact hsmall
        apply (splitFirst_spec hlast hsplit.first hsplit.count hsmall').imp
        intro _ u hsplit'
        refine ⟨hsplit'.first, hsplit'.property, ?_, hsplit'.count,
          hsplit'.pages.trans hsplit.pages⟩
        intro q hq
        have hwide : q ∈ Finset.Ico page (page + 2 ^ (order + 1)) := by
          have hpow := Nat.pow_le_pow_right Nat.two_pos (Nat.le_succ order)
          rw [Finset.mem_Ico] at hq ⊢
          omega
        exact (hsplit'.flags q hq).trans (hsplit.flags q hwide)

/-- `buddy_system_alloc_pages` leaves a well-formed state, in which the number of free pages
is less by the size of the block that it hands out, and the same if it hands out none. -/
def AllocKeeps (n : Nat) (s : FreeAreas) : Prop :=
  ∃ r t, buddySystemAllocPages n s = .ok (r, t) ∧ (∃ blocks, WellFormed t blocks) ∧
    match r with
    | none => buddySystemNrFreePages t = buddySystemNrFreePages s
    | some page => buddySystemNrFreePages t + (t.page page).property = buddySystemNrFreePages s

/-- `buddy_system_free_pages` leaves a well-formed state, in which the number of free pages
is greater by the size of the block that it is given. -/
def FreeKeeps (headers : Headers) (fuel base n : Nat) (s : FreeAreas) : Prop :=
  ∃ t, buddySystemFreePages headers fuel base n s = .ok (⟨⟩, t) ∧ (∃ blocks, WellFormed t blocks) ∧
    buddySystemNrFreePages t = buddySystemNrFreePages s + n

/-- The loop finds the greatest order of which a block has at most `n` pages. -/
theorem findOrder_spec (hn : 0 < n) (k : Nat) :
    findOrder n k ≤ k ∧ 2 ^ findOrder n k ≤ n ∧ ∀ i ≤ k, findOrder n k < i → n < 2 ^ i := by
  induction k with
  | zero => exact ⟨Nat.le_refl _, hn, fun i hi hlt => absurd hlt (Nat.not_lt.mpr hi)⟩
  | succ k ih =>
      rw [findOrder]
      split
      next hlt =>
        obtain ⟨hle, hpow, hmax⟩ := ih
        refine ⟨Nat.le_succ_of_le hle, hpow, fun i hi hfound => ?_⟩
        rcases Nat.le_succ_iff.mp hi with hi | rfl
        · exact hmax i hi hfound
        · exact hlt
      next hnot =>
        exact ⟨Nat.le_refl _, Nat.not_lt.mp hnot, fun i hi hlt => absurd hlt (Nat.not_lt.mpr hi)⟩

/-- A block that is handed out is still counted. -/
theorem popBlock_spec {page : Nat} (hfirst : s.link.next (.freeList order) = .pageLink page) :
    Ends E (popBlock order) s fun r t => r = some page ∧
      t.page = Function.update s.page page (s.page page).clearHead ∧ t.nrFree = s.nrFree := by
  have hfull : s.link.listEmpty (.freeList order) = false := by simp [listEmpty, hfirst]
  simp only [popBlock, ends_bind, ends_get, hfull, hfirst, Bool.false_eq_true,
    if_false, ends_setLink, ends_setPage, ends_pure, and_self]

namespace WellFormed

variable (h : WellFormed s blocks)

include h

theorem listEmpty_iff (horder : order < MAX_ORDER) :
    s.link.listEmpty (.freeList order) = true ↔ s.nrFree order = 0 := by
  rw [(h.ring order horder).listEmpty_eq, h.count order horder, List.isEmpty_map, List.isEmpty_iff,
    List.length_eq_zero_iff]

/-- The first block of a list that is not empty. -/
theorem first (horder : order < MAX_ORDER) (hfull : s.link.listEmpty (.freeList order) = false) :
    ∃ page, s.link.next (.freeList order) = .pageLink page ∧
      (s.page page).property = 2 ^ order := by
  have hring := h.ring order horder
  rw [hring.listEmpty_eq, List.isEmpty_map] at hfull
  cases hblocks : blocks order with
  | nil => simp [hblocks] at hfull
  | cons page rest =>
      rw [hblocks, List.map_cons] at hring
      exact ⟨page, hring.joined_first.1, h.property order horder page (by simp [hblocks])⟩

theorem blocksFrom_eq_zero_iff : blocksFrom s order = 0 ↔
    ∀ i < MAX_ORDER, order ≤ i → s.link.listEmpty (.freeList i) = true := by
  have hsmall := Nat.lt_of_le_of_lt (sum_le_pagesOf order s.nrFree) h.small
  rw [blocksFrom, uint, Nat.mod_eq_of_lt hsmall, Finset.sum_eq_zero_iff]
  constructor
  · intro hzero i hi hle
    exact (h.listEmpty_iff hi).mpr (hzero i (Finset.mem_Ico.mpr ⟨hle, hi⟩))
  · intro hempty i hi
    obtain ⟨hle, hi⟩ := Finset.mem_Ico.mp hi
    exact (h.listEmpty_iff hi).mp (hempty i hi hle)

/-- The block that a request of an order is served from: the first one of the first list
that is not empty. -/
theorem source {i : Nat} (hi : i < MAX_ORDER) (hle : order ≤ i)
    (hfull : s.link.listEmpty (.freeList i) = false) :
    ∃ j page, order ≤ j ∧ j < MAX_ORDER ∧ page ∈ blocks j ∧
      s.link.next (.freeList j) = .pageLink page ∧ (s.page page).property = 2 ^ j ∧ 0 < s.nrFree j ∧
      ∀ k, order ≤ k → k < j → s.link.listEmpty (.freeList k) = true := by
  have hsome : ∃ j, order ≤ j ∧ s.link.listEmpty (.freeList j) = false := ⟨i, hle, hfull⟩
  have hj : Nat.find hsome < MAX_ORDER := Nat.lt_of_le_of_lt (Nat.find_le ⟨hle, hfull⟩) hi
  obtain ⟨hle', hfull'⟩ := Nat.find_spec hsome
  have hring := h.ring _ hj
  have hcount := h.count _ hj
  rw [hring.listEmpty_eq, List.isEmpty_map] at hfull'
  cases hblocks : blocks (Nat.find hsome) with
  | nil => simp [hblocks] at hfull'
  | cons page rest =>
      have hmem : page ∈ blocks (Nat.find hsome) := by simp [hblocks]
      rw [hblocks, List.map_cons] at hring
      refine ⟨Nat.find hsome, page, hle', hj, hmem, hring.joined_first.1, h.property _ hj page hmem,
        ?_, ?_⟩
      · rw [hcount, hblocks]
        exact Nat.succ_pos _
      · intro k hk hlt
        by_contra hnot
        exact Nat.find_min hsome hlt ⟨hk, by simpa using hnot⟩

end WellFormed

/-- What a request of an order gets: the front of a block of this order or a larger one,
no longer marked as free, while the pages stay counted. -/
structure Given (blocks : Nat → List Nat) (order page : Nat) (s t : FreeAreas) : Prop where
  source : ∃ i, order ≤ i ∧ i < MAX_ORDER ∧ page ∈ blocks i
  property : (t.page page).property = 2 ^ order
  cleared : (t.page page).isHead = false ∧ (t.page page).reserved = (s.page page).reserved
  flags : ∀ q ∈ Finset.Ico page (page + 2 ^ order), q ≠ page → (t.page q).flags = (s.page q).flags
  pages : pagesOf t.nrFree = pagesOf s.nrFree

/-- Where a larger block is free, one is handed out. -/
theorem alloc_some (h : WellFormed s blocks) (hn : 0 < n) {i : Nat} (hi : i < MAX_ORDER)
    (hlt : n < 2 ^ i) (hfull : s.link.listEmpty (.freeList i) = false) :
    Ends E (buddySystemAllocPages n) s fun r t => ∃ page, r = some page ∧
      Given blocks (findOrder n (MAX_ORDER - 1) + 1) page s t := by
  obtain ⟨hle, hpow, _⟩ := findOrder_spec hn (MAX_ORDER - 1)
  generalize horder : findOrder n (MAX_ORDER - 1) = order at hle hpow
  have horderi : order < i :=
    (Nat.pow_lt_pow_iff_right Nat.one_lt_two).mp (Nat.lt_of_le_of_lt hpow hlt)
  have hsmall : ¬ 2 ^ (MAX_ORDER - 1) < n := by
    have hmax : 2 ^ i ≤ 2 ^ (MAX_ORDER - 1) :=
      Nat.pow_le_pow_right Nat.two_pos (Nat.le_pred_of_lt hi)
    omega
  have hlast : order + 1 < MAX_ORDER := Nat.lt_of_le_of_lt horderi hi
  have hsome : blocksFrom s (order + 1) ≠ 0 := by
    intro hzero
    rw [h.blocksFrom_eq_zero_iff.mp hzero i hi horderi] at hfull
    cases hfull
  obtain ⟨j, page, hj, hjlast, hmem, hfirst, hproperty, hpos, hempty⟩ := h.source hi horderi hfull
  simp only [buddySystemAllocPages, ends_bind, ends_check hn, if_neg hsmall, ends_get,
    horder, if_neg hsome]
  rcases Nat.eq_or_lt_of_le hj with heq | hjlt
  · subst heq
    have hhere : s.link.listEmpty (.freeList (order + 1)) = false := by simp [listEmpty, hfirst]
    rw [hhere, if_neg Bool.false_ne_true]
    apply (popBlock_spec hfirst).imp
    rintro _ t ⟨rfl, hpage, hcounters⟩
    refine ⟨page, rfl, ⟨order + 1, hj, hjlast, hmem⟩, ?_, ?_, ?_, congrArg pagesOf hcounters⟩
    · rw [hpage, Function.update_self, Page.clearHead_property, hproperty]
    · rw [hpage, Function.update_self]
      exact ⟨Page.clearHead_isHead _, Page.clearHead_reserved _⟩
    · intro q _ hq
      rw [hpage, Function.update_of_ne hq]
  · rw [hempty (order + 1) (Nat.le_refl _) hjlt, if_pos rfl, ends_bind]
    have hrest : MAX_ORDER - (order + 1 + 1) + (order + 1 + 1) = MAX_ORDER :=
      Nat.sub_add_cancel hlast
    apply (splitPage_spec hrest hjlt hjlast hfirst hpos (fun k hk =>
      hempty k (Nat.le_of_succ_le hk)) h.small).imp
    intro _ t hsplit
    apply (popBlock_spec hsplit.first).imp
    rintro _ u ⟨rfl, hpage, hcounters⟩
    refine ⟨page, rfl, ⟨j, hj, hjlast, hmem⟩, ?_, ?_, ?_,
      (congrArg pagesOf hcounters).trans hsplit.pages⟩
    · rw [hpage, Function.update_self, Page.clearHead_property, hsplit.property]
    · rw [hpage, Function.update_self]
      have hself : page ∈ Finset.Ico page (page + 2 ^ (order + 1)) :=
        Finset.mem_Ico.mpr ⟨Nat.le_refl _, Nat.lt_add_of_pos_right (Nat.two_pow_pos _)⟩
      refine ⟨Page.clearHead_isHead _, (Page.clearHead_reserved _).trans ?_⟩
      rw [Page.reserved, hsplit.flags page hself, Page.reserved]
    · intro q hq hne
      rw [hpage, Function.update_of_ne hne, hsplit.flags q hq]

/-- The block that is handed out is not subtracted from the number of free pages. -/
theorem WellFormed.not_dropped (h : WellFormed s blocks) (hn : 0 < n) {i : Nat} (hi : i < MAX_ORDER)
    (hlt : n < 2 ^ i) (hfull : s.link.listEmpty (.freeList i) = false) {r : Option Nat}
    (hrun : buddySystemAllocPages n s = .ok (r, t)) :
    ∃ page, r = some page ∧
      buddySystemNrFreePages t + (t.page page).property ≠ buddySystemNrFreePages s := by
  obtain ⟨page, rfl, hgiven⟩ := Ends.post (E := never) (alloc_some h hn hi hlt hfull) hrun
  have hpos : 0 < (t.page page).property := hgiven.property ▸ Nat.two_pow_pos _
  refine ⟨page, rfl, fun hdrop => ?_⟩
  exact absurd (hdrop.trans hgiven.pages.symm) (Nat.ne_of_gt (Nat.lt_add_of_pos_right hpos))

/-- Otherwise the null pointer is returned. -/
theorem alloc_none (h : WellFormed s blocks) (hn : 0 < n)
    (hempty : ∀ i < MAX_ORDER, n < 2 ^ i → s.link.listEmpty (.freeList i) = true) :
    buddySystemAllocPages n s = .ok (none, s) := by
  apply Ends.eq_ok
  simp only [buddySystemAllocPages, ends_bind, ends_check hn]
  split
  · exact ⟨rfl, rfl⟩
  next hsmall =>
    have hzero : blocksFrom s (findOrder n (MAX_ORDER - 1) + 1) = 0 := by
      apply h.blocksFrom_eq_zero_iff.mpr
      intro i hi hle
      exact hempty i hi ((findOrder_spec hn (MAX_ORDER - 1)).2.2 i (Nat.le_pred_of_lt hi) hle)
    simp only [ends_bind, ends_get, if_pos hzero]
    exact ⟨rfl, rfl⟩

/-! ## Freeing -/

section Free

variable {fuel base rest : Nat} {le : Entry}

theorem keeps_setPage {f : Page → Page} : Keeps FreeAreas.nrFree (setPage p f) :=
    keeps_modify fun _ => rfl

theorem keeps_setLink {f : Links Entry → Links Entry} : Keeps FreeAreas.nrFree (setLink f) :=
  keeps_modify fun _ => rfl

theorem keeps_resetPages : Keeps FreeAreas.nrFree (resetPages base n) := by
  induction n generalizing base with
  | zero => exact keeps_pure _
  | succ n ih =>
      exact keeps_get.bind fun _ => (keeps_check _ _).bind fun _ => keeps_setPage.bind fun _ => ih

theorem keeps_orderLoop {temp : Nat} : Keeps FreeAreas.nrFree (orderLoop fuel temp order) := by
  induction fuel generalizing temp order with
  | zero => exact keeps_throw _
  | succ fuel ih =>
      rw [orderLoop]
      split
      · exact keeps_pure order
      · exact ih

theorem keeps_addLoop : Keeps FreeAreas.nrFree (addLoop order base fuel le) := by
  induction fuel generalizing le with
  | zero => exact keeps_throw _
  | succ fuel ih =>
      apply keeps_get.bind
      intro s
      dsimp only
      split
      · exact keeps_pure _
      · split
        · exact keeps_setLink
        · split
          · exact keeps_setLink.bind fun _ => ih
          · exact ih

theorem keeps_addPage : Keeps FreeAreas.nrFree (addPage fuel order base) := by
  apply (keeps_check _ _).bind
  intro _
  apply keeps_get.bind
  intro s
  split
  · exact keeps_setLink
  · exact keeps_addLoop

theorem keeps_absorb {q : Nat} : Keeps FreeAreas.nrFree (absorb p q) :=
  keeps_get.bind fun _ => keeps_setPage.bind fun _ => keeps_setPage.bind fun _ => keeps_setLink

theorem keeps_raise : Keeps FreeAreas.nrFree (raise fuel order base) :=
  keeps_setLink.bind fun _ => keeps_addPage

theorem keeps_mergePrev : Keeps FreeAreas.nrFree (mergePrev headers fuel order base) := by
  apply (keeps_check _ _).bind
  intro _
  apply keeps_get.bind
  intro s
  split
  · split
    · exact keeps_throw _
    · exact keeps_pure base
  · split
    · exact keeps_absorb.bind fun _ => keeps_raise.bind fun _ => keeps_pure _
    · exact keeps_pure base

theorem keeps_mergeNext : Keeps FreeAreas.nrFree (mergeNext fuel order base) := by
  apply (keeps_check _ _).bind
  intro _
  apply keeps_get.bind
  intro s
  split
  · exact keeps_pure _
  · split
    · exact keeps_absorb.bind fun _ => keeps_raise
    · exact keeps_pure _

theorem keeps_mergePage : Keeps FreeAreas.nrFree (mergePage headers fuel rest order base) := by
  induction rest generalizing order base with
  | zero => exact keeps_pure _
  | succ rest ih => exact keeps_mergePrev.bind fun _ => keeps_mergeNext.bind fun _ => ih

theorem keeps_free : Keeps FreeAreas.nrFree (buddySystemFreePages headers fuel base n) :=
  (keeps_check _ _).bind fun _ => (keeps_check _ _).bind fun _ => (keeps_check _ _).bind fun _ =>
    keeps_resetPages.bind fun _ => keeps_setPage.bind fun _ => keeps_setPage.bind fun _ =>
      keeps_orderLoop.bind fun _ => keeps_addPage.bind fun _ => keeps_mergePage

end Free

/-- One free block of the order, at page 0. -/
def singleBlock (order : Nat) : FreeAreas where
  page := fun p => ⟨0, if p = 0 then 2#64 else 0#64, if p = 0 then 2 ^ order else 0⟩
  link := (listInitAll ⟨id, id⟩ ((List.range MAX_ORDER).map .freeList)).listAdd
    (.freeList order) (.pageLink 0)
  nrFree := fun i => if i = order then 1 else 0

/-- One free block of two pages, at page 0. -/
def onePair : FreeAreas := singleBlock 1

theorem singleBlock_wellFormed (horder : order < MAX_ORDER) :
    WellFormed (singleBlock order) fun i => if i = order then [0] else [] := by
  have hinit : ∀ i < MAX_ORDER, (listInitAll (⟨id, id⟩ : Links Entry)
      ((List.range MAX_ORDER).map .freeList)).Ring (.freeList i) [] := fun i hi =>
    listInitAll_ring (⟨id, id⟩ : Links Entry) (List.mem_map_of_mem (List.mem_range.mpr hi))
  have hone := hinit order horder
  constructor
  · intro i hi
    by_cases heq : i = order
    · rw [if_pos heq, heq]
      exact @Ring.listAdd Entry _ _ (.freeList order) (.pageLink 0) [] [] hone (by simp)
    · rw [if_neg heq]
      apply (hinit i hi).listAdd_other
      · simpa using Ne.symm heq
      · simp
      · rw [(ring_nil_iff.mp hone).1]
        simpa using Ne.symm heq
  · intro i _
    split
    · exact List.pairwise_singleton ..
    · exact List.Pairwise.nil
  · intro i _ p hp
    split at hp
    next heq =>
      obtain rfl := List.mem_singleton.mp hp
      rw [heq]
      rfl
    · cases hp
  · intro i _ j _ p hp q hq hne
    split at hp
    · split at hq
      · simp_all
      · cases hq
    · cases hp
  · intro i _
    dsimp only [singleBlock]
    split
    · rfl
    · rfl
  · have hsmall : ∀ k < MAX_ORDER, buddySystemNrFreePages (singleBlock k) < 2 ^ 32 := by decide
    exact hsmall order horder

theorem onePair_wellFormed : WellFormed onePair fun i => if i = 1 then [0] else [] :=
  singleBlock_wellFormed (by decide)

/-- The only block is handed out for one page, and is still counted. -/
theorem onePair_alloc : (∃ blocks, WellFormed onePair blocks) ∧ ¬ AllocKeeps 1 onePair := by
  refine ⟨⟨_, onePair_wellFormed⟩, ?_⟩
  rintro ⟨r, t, hrun, _, hdrop⟩
  obtain ⟨page, rfl, hne⟩ :=
    onePair_wellFormed.not_dropped Nat.one_pos (by decide : 1 < MAX_ORDER)
    (by decide) (by decide) hrun
  exact hne hdrop

/-- A request keeps the lists and the counters in step exactly when no free block is larger
than it, so that the null pointer is returned. A block that is given back never does: it is
linked, but not counted. -/
theorem buddy_keeps_iff (hs : WellFormed s blocks) :
    (∀ n, 0 < n → (AllocKeeps n s ↔
      ∀ i < MAX_ORDER, n < 2 ^ i → s.link.listEmpty (.freeList i) = true)) ∧
    ∀ headers fuel base n, 0 < n → ¬ FreeKeeps headers fuel base n s := by
  constructor
  · intro n hn
    constructor
    · rintro ⟨r, t, hrun, _, hdrop⟩ i hi hlt
      by_contra hfull
      obtain ⟨page, rfl, hne⟩ := hs.not_dropped hn hi hlt (by simpa using hfull) hrun
      exact hne hdrop
    · intro hempty
      exact ⟨none, s, alloc_none hs hn hempty, ⟨blocks, hs⟩, rfl⟩
  · rintro headers fuel base n hn ⟨t, hrun, _, hrise⟩
    have hends := (keeps_free : Keeps FreeAreas.nrFree (buddySystemFreePages headers fuel base n)) s
    rw [nrFreePages_eq, nrFreePages_eq, hends.post hrun] at hrise
    exact absurd hrise (Nat.ne_of_lt (Nat.lt_add_of_pos_right hn))

/-- A request for two pages finds no larger block. -/
theorem buddy_keeps_iff_onePair : AllocKeeps 2 onePair :=
  ((buddy_keeps_iff onePair_wellFormed).1 2 (by decide)).mpr (by decide)

end Ucore.Pmm.Buddy
