import Mathlib.Algebra.BigOperators.Group.Finset.Basic
import Ucore.Pmm.Blocks

/-!
# One allocation from a free list

`FreeList s xs` describes the free list by itself, without a region around it: any
disjoint blocks in address order, adjacent or not. `Taken` says what is left when the
first pages of one block have been handed out.
-/

namespace Ucore.Pmm

open Finset

/-- The free list is linked both ways through the blocks with heads `xs`, which are in
address order and share no page; of their pages the heads alone are marked as heads, and
the counter is the sum of their lengths. -/
structure FreeList (s : FreeArea) (xs : List Nat) : Prop where
  ring : s.link.Ring .freeList (xs.map .pageLink)
  pos : ∀ x ∈ xs, 0 < (s.page x).property
  apart : xs.Pairwise fun x y => x + (s.page x).property ≤ y
  heads : ∀ x ∈ xs, ∀ p ∈ s.block x, (s.page p).isHead = true ↔ p = x
  count : s.nrFree = (xs.map fun x => (s.page x).property).sum
  counter : s.nrFree < 2 ^ 32
  bound : ∀ x ∈ xs, x + (s.page x).property ≤ s.npage

/-- The pages of the listed blocks. -/
def FreeArea.pages (s : FreeArea) (xs : List Nat) : Finset Nat := xs.toFinset.biUnion s.block

/-- The first `n` pages of the block `page` have been handed out: what remains of it is
in its place, and nothing else has changed. -/
structure Taken (n page : Nat) (s t : FreeArea) (xs ys : List Nat) : Prop where
  freeList : FreeList t ys
  place : ∃ lo hi, xs = lo ++ page :: hi ∧
    ys = lo ++ (if n < (s.page page).property then [page + n] else []) ++ hi
  pages : t.pages ys = s.pages xs \ Ico page (page + n)
  kept : ∀ x ∈ xs, x ≠ page → t.page x = s.page x
  elsewhere : ∀ p, p ≠ page → p ≠ page + n → t.page p = s.page p
  cleared : (t.page page).isHead = false
  count : t.nrFree + n = s.nrFree

/-- The first block with at least `n` pages. The list is in the order of the addresses, so the first
one found is the lowest. -/
def Lowest (n : Nat) (s : FreeArea) (xs : List Nat) (page : Nat) : Prop :=
  page ∈ xs ∧ n ≤ (s.page page).property ∧ ∀ x ∈ xs, n ≤ (s.page x).property → page ≤ x

/-- The smallest of the blocks with at least `n` pages, and the first one of those. -/
def Smallest (n : Nat) (s : FreeArea) (xs : List Nat) (page : Nat) : Prop :=
  page ∈ xs ∧ n ≤ (s.page page).property ∧ ∀ x ∈ xs, n ≤ (s.page x).property →
    (s.page page).property ≤ (s.page x).property ∧
      ((s.page x).property = (s.page page).property → page ≤ x)

/-- One request for `n` pages: the null pointer exactly when no block has as many, else
the first pages of a block of the manager's choice. -/
structure Serves (choice : Nat → Prop) (n : Nat) (s t : FreeArea) (xs : List Nat) (r : Option Nat) :
    Prop where
  null : r = none ↔ ∀ x ∈ xs, (s.page x).property < n
  unchanged : r = none → t = s
  chosen : ∀ page, r = some page → choice page
  taken : ∀ page, r = some page → ∃ ys, Taken n page s t xs ys

variable {s : FreeArea} {xs lo hi : List Nat} {page n : Nat}

/-! ## What `takeBlock` writes -/

section TakeBlock

theorem takeBlock_link_whole (hfit : (s.page page).property = n) :
    (takeBlock page n s).link = s.link.listDel (.pageLink page) := by
  simp [takeBlock, hfit]

theorem takeBlock_link_part (hfit : n < (s.page page).property) :
    (takeBlock page n s).link =
      (s.link.listDel (.pageLink page)).listAdd (s.link.prev (.pageLink page))
      (.pageLink (page + n)) := by
  simp [takeBlock, splitRest, hfit]

theorem takeBlock_nrFree : (takeBlock page n s).nrFree = uint (s.nrFree - n) := by
  unfold takeBlock
  dsimp only
  split
  · rfl
  · rfl

theorem takeBlock_npage : (takeBlock page n s).npage = s.npage := by
  unfold takeBlock
  dsimp only
  split
  · rfl
  · rfl

/-- The descriptors that are not written. -/
theorem takeBlock_page_of_ne {p : Nat} (hpage : p ≠ page)
    (hrest : n < (s.page page).property → p ≠ page + n) : (takeBlock page n s).page p =
      s.page p := by
  by_cases hfit : n < (s.page page).property
  · simp [takeBlock, splitRest, hfit, hpage, hrest hfit]
  · simp [takeBlock, hfit, hpage]

/-- The block that is handed out keeps its length and loses its mark. -/
theorem takeBlock_page_self (hn : 0 < n) :
    (takeBlock page n s).page page = (s.page page).clearHead := by
  by_cases hfit : n < (s.page page).property
  · simp [takeBlock, splitRest, hfit, Nat.ne_of_gt hn]
  · simp [takeBlock, hfit]

/-- What remains of the block is a block of its own. -/
theorem takeBlock_page_rest (hn : 0 < n) (hfit : n < (s.page page).property) :
    (takeBlock page n s).page (page + n) =
      ((s.page (page + n)).setProperty (uint ((s.page page).property - n))).setHead := by
  simp [takeBlock, splitRest, hfit, Nat.ne_of_gt hn]

end TakeBlock

namespace FreeList

theorem sorted (h : FreeList s xs) : xs.Pairwise (· < ·) := by
  apply h.apart.imp_of_mem
  intro x y hx _ hle
  exact Nat.lt_of_lt_of_le (Nat.lt_add_of_pos_right (h.pos x hx)) hle

theorem property_le (h : FreeList s xs) {x : Nat} (hx : x ∈ xs) :
    (s.page x).property ≤ s.nrFree := by
  obtain ⟨lo, hi, rfl⟩ := List.append_of_mem hx
  rw [h.count, List.map_append, List.map_cons, List.sum_append, List.sum_cons]
  omega

theorem length_le (h : FreeList s xs) : xs.length ≤ s.npage := by
  have hsub : xs.toFinset ⊆ range s.npage := by
    intro x hx
    have hmem := List.mem_toFinset.mp hx
    have hpos := h.pos x hmem
    have hbound := h.bound x hmem
    exact mem_range.mpr (by omega)
  have hcard := card_le_card hsub
  rwa [List.toFinset_card_of_nodup (h.sorted.imp fun hlt => Nat.ne_of_lt hlt), card_range] at hcard

theorem mem_pages {p : Nat} : p ∈ s.pages xs ↔ ∃ x ∈ xs, p ∈ s.block x := by
  simp [FreeArea.pages]

theorem head_mem (h : FreeList s xs) {x : Nat} (hx : x ∈ xs) : x ∈ s.block x :=
  mem_Ico.mpr ⟨Nat.le_refl x, Nat.lt_add_of_pos_right (h.pos x hx)⟩

/-- No block starts inside another one. -/
theorem eq_of_head_mem (h : FreeList s xs) {x y : Nat} (hx : x ∈ xs) (hy : y ∈ xs)
    (hin : y ∈ s.block x) :
    y = x :=
  (h.heads x hx y hin).mp ((h.heads y hy y (h.head_mem hy)).mpr rfl)

/-- A page lies in one block only. -/
theorem block_unique (h : FreeList s xs) {x y p : Nat} (hx : x ∈ xs) (hy : y ∈ xs)
    (hpx : p ∈ s.block x) (hpy : p ∈ s.block y) : x = y := by
  rw [FreeArea.block, mem_Ico] at hpx hpy
  rcases Nat.le_total x y with hle | hle
  · exact (h.eq_of_head_mem hx hy (mem_Ico.mpr ⟨hle, Nat.lt_of_le_of_lt hpy.1 hpx.2⟩)).symm
  · exact h.eq_of_head_mem hy hx (mem_Ico.mpr ⟨hle, Nat.lt_of_le_of_lt hpx.1 hpy.2⟩)

theorem mem_of_other {x : Nat} (hx : x ∈ lo ++ hi) : x ∈ lo ++ page :: hi :=
  List.perm_middle.mem_iff.mpr (List.mem_cons_of_mem page hx)

section Take

variable (h : FreeList s (lo ++ page :: hi))

include h

theorem ne_page {x : Nat} (hx : x ∈ lo ++ hi) : x ≠ page := by
  have hnodup := h.sorted.imp fun hlt => Nat.ne_of_lt hlt
  have hnot := (List.nodup_cons.mp (List.perm_middle.nodup_iff.mp hnodup)).1
  exact fun heq => hnot (heq ▸ hx)

/-- What remains of the block does not start another one. -/
theorem ne_rest {x : Nat} (hx : x ∈ lo ++ hi) (hfit : n < (s.page page).property) :
    x ≠ page + n := by
  rintro rfl
  have hin : page + n ∈ s.block page :=
    mem_Ico.mpr ⟨Nat.le_add_right page n, Nat.add_lt_add_left hfit page⟩
  exact h.ne_page hx (h.eq_of_head_mem (by simp) (mem_of_other hx) hin)

/-- The other blocks keep their descriptors. -/
theorem takeBlock_keeps {x : Nat} (hx : x ∈ lo ++ hi) : (takeBlock page n s).page x = s.page x :=
  takeBlock_page_of_ne (h.ne_page hx) fun hfit => h.ne_rest hx hfit

/-- The pages of the other blocks keep theirs. -/
theorem takeBlock_keeps_block {x p : Nat} (hx : x ∈ lo ++ hi) (hp : p ∈ s.block x) :
    (takeBlock page n s).page p = s.page p := by
  have hout : ∀ q ∈ s.block page, p ≠ q := by
    rintro q hq rfl
    exact h.ne_page hx (h.block_unique (mem_of_other hx) (by simp) hp hq)
  apply takeBlock_page_of_ne
  · exact hout page (h.head_mem (by simp))
  · exact fun hfit => hout _ (mem_Ico.mpr ⟨Nat.le_add_right page n, Nat.add_lt_add_left hfit page⟩)

theorem takeBlock_count (hfit : n ≤ (s.page page).property) :
    (takeBlock page n s).nrFree + n = s.nrFree := by
  have hle := h.property_le (x := page) (by simp)
  have hcounter := h.counter
  rw [takeBlock_nrFree, uint_eq]
  · omega
  · omega

/-- The sum of the lengths without the block. -/
theorem count_split :
    s.nrFree = (lo.map fun x => (s.page x).property).sum + (s.page page).property +
    (hi.map fun x => (s.page x).property).sum := by
  rw [h.count, List.map_append, List.map_cons, List.sum_append, List.sum_cons, Nat.add_assoc]

theorem sum_keeps {zs : List Nat} (hzs : ∀ x ∈ zs, x ∈ lo ++ hi) :
    (zs.map fun x => ((takeBlock page n s).page x).property).sum =
      (zs.map fun x => (s.page x).property).sum := by
  congr 1
  apply List.map_congr_left
  intro x hx
  rw [h.takeBlock_keeps (hzs x hx)]

/-- A block that is taken as a whole leaves the list. -/
theorem takeBlock_whole (hn : 0 < n) (hfit : (s.page page).property = n) :
    FreeList (takeBlock page n s) (lo ++ hi) := by
  have hblock : ∀ x ∈ lo ++ hi, (takeBlock page n s).block x = s.block x := fun x hx => by
    rw [FreeArea.block, FreeArea.block, h.takeBlock_keeps hx]
  refine ⟨?_, ?_, ?_, ?_, ?_, ?_, ?_⟩
  · have hring := h.ring
    rw [List.map_append, List.map_cons] at hring
    rw [takeBlock_link_whole hfit, List.map_append]
    exact hring.listDel
  · intro x hx
    rw [h.takeBlock_keeps hx]
    exact h.pos x (mem_of_other hx)
  · have hrest := h.apart.sublist ((List.sublist_cons_self page hi).append_left lo)
    apply hrest.imp_of_mem
    intro x y hx _ hle
    rwa [h.takeBlock_keeps hx]
  · intro x hx p hp
    rw [hblock x hx] at hp
    rw [h.takeBlock_keeps_block hx hp]
    exact h.heads x (mem_of_other hx) p hp
  · have hcount := h.takeBlock_count (Nat.le_of_eq hfit.symm)
    have hsplit := h.count_split
    rw [List.map_append, List.sum_append, h.sum_keeps (List.subset_append_left lo hi),
      h.sum_keeps (List.subset_append_right lo hi)]
    omega
  · have hcount := h.takeBlock_count (Nat.le_of_eq hfit.symm)
    have hcounter := h.counter
    omega
  · intro x hx
    rw [h.takeBlock_keeps hx, takeBlock_npage]
    exact h.bound x (mem_of_other hx)

/-- What remains of a block takes its place in the list. -/
theorem takeBlock_part (hn : 0 < n) (hfit : n < (s.page page).property) :
    FreeList (takeBlock page n s) (lo ++ (page + n) :: hi) := by
  have hblock : ∀ x ∈ lo ++ hi, (takeBlock page n s).block x = s.block x := fun x hx => by
    rw [FreeArea.block, FreeArea.block, h.takeBlock_keeps hx]
  have hpage : page ∈ lo ++ page :: hi := by simp
  have hlength : ((takeBlock page n s).page (page + n)).property = (s.page page).property - n := by
    have hle := h.property_le hpage
    have hcounter := h.counter
    rw [takeBlock_page_rest hn hfit, Page.setHead_property, Page.setProperty_property, uint_eq]
    omega
  have hmem : ∀ {x}, x ∈ lo ++ (page + n) :: hi → x = page + n ∨ x ∈ lo ++ hi := fun hx =>
    List.mem_cons.mp (List.perm_middle.mem_iff.mp hx)
  refine ⟨?_, ?_, ?_, ?_, ?_, ?_, ?_⟩
  · have hring := h.ring
    rw [List.map_append, List.map_cons] at hring
    have hnew : Entry.pageLink (page + n) ∉ Entry.freeList ::
        (lo.map .pageLink ++ hi.map .pageLink) := by
      rw [← List.map_append, pageLink_not_mem]
      exact fun hmem => h.ne_rest hmem hfit rfl
    have hprev := hring.joined.2
    simp only [List.cons_append, List.head_cons] at hprev
    have hadd := hring.listDel.listAdd hnew
    rw [← hprev] at hadd
    rw [takeBlock_link_part hfit, List.map_append, List.map_cons]
    exact hadd
  · intro x hx
    rcases hmem hx with rfl | hx
    · rw [hlength]
      omega
    · rw [h.takeBlock_keeps hx]
      exact h.pos x (mem_of_other hx)
  · obtain ⟨hlo, hrest, hcross⟩ := List.pairwise_append.mp h.apart
    obtain ⟨hafter, hhi⟩ := List.pairwise_cons.mp hrest
    rw [List.pairwise_append, List.pairwise_cons]
    refine ⟨?_, ⟨?_, ?_⟩, ?_⟩
    · apply hlo.imp_of_mem
      intro x y hx _ hle
      rwa [h.takeBlock_keeps (List.mem_append_left hi hx)]
    · intro y hy
      have hle := hafter y hy
      rw [hlength]
      omega
    · apply hhi.imp_of_mem
      intro x y hx _ hle
      rwa [h.takeBlock_keeps (List.mem_append_right lo hx)]
    · intro x hx y hy
      rw [h.takeBlock_keeps (List.mem_append_left hi hx)]
      rcases List.mem_cons.mp hy with rfl | hy
      · exact Nat.le_trans (hcross x hx page List.mem_cons_self) (Nat.le_add_right page n)
      · exact hcross x hx y (List.mem_cons_of_mem page hy)
  · intro x hx p hp
    rcases hmem hx with rfl | hx
    · rw [FreeArea.block, hlength, mem_Ico] at hp
      by_cases hself : p = page + n
      · rw [hself, takeBlock_page_rest hn hfit]
        simp
      · rw [takeBlock_page_of_ne (by omega) fun _ => hself,
          h.heads page hpage p (mem_Ico.mpr ⟨by omega, by omega⟩)]
        constructor
        · intro heq
          omega
        · exact fun heq => absurd heq hself
    · rw [hblock x hx] at hp
      rw [h.takeBlock_keeps_block hx hp]
      exact h.heads x (mem_of_other hx) p hp
  · have hcount := h.takeBlock_count (Nat.le_of_lt hfit)
    have hsplit := h.count_split
    rw [List.map_append, List.map_cons, List.sum_append, List.sum_cons, hlength,
      h.sum_keeps (List.subset_append_left lo hi), h.sum_keeps (List.subset_append_right lo hi)]
    omega
  · have hcount := h.takeBlock_count (Nat.le_of_lt hfit)
    have hcounter := h.counter
    omega
  · intro x hx
    rw [takeBlock_npage]
    rcases hmem hx with rfl | hx
    · have hbound := h.bound page hpage
      rw [hlength]
      omega
    · rw [h.takeBlock_keeps hx]
      exact h.bound x (mem_of_other hx)

end Take

/-- The pages of the blocks that are left. -/
theorem pages_take {t : FreeArea} {zs : List Nat} (h : FreeList s (lo ++ page :: hi))
    (hkeep : ∀ x ∈ lo ++ hi, t.block x = s.block x)
    (hrest : zs.toFinset.biUnion t.block = s.block page \ Ico page (page + n))
    (hfit : n ≤ (s.page page).property) :
    t.pages (lo ++ zs ++ hi) = s.pages (lo ++ page :: hi) \ Ico page (page + n) := by
  ext p
  have hzs : (∃ x ∈ zs, p ∈ t.block x) ↔ p ∈ s.block page ∧ p ∉ Ico page (page + n) := by
    rw [← mem_sdiff, ← hrest]
    simp
  rw [mem_sdiff, mem_pages, mem_pages]
  constructor
  · rintro ⟨x, hx, hp⟩
    have hcases : x ∈ zs ∨ x ∈ lo ++ hi := by
      simp only [List.mem_append] at hx ⊢
      tauto
    rcases hcases with hx | hx
    · obtain ⟨hin, hout⟩ := hzs.mp ⟨x, hx, hp⟩
      exact ⟨⟨page, by simp, hin⟩, hout⟩
    · rw [hkeep x hx] at hp
      refine ⟨⟨x, mem_of_other hx, hp⟩, fun hin => h.ne_page hx ?_⟩
      exact h.block_unique (mem_of_other hx) (by simp) hp
        (Ico_subset_Ico_right (Nat.add_le_add_left hfit page) hin)
  · rintro ⟨⟨x, hx, hp⟩, hout⟩
    rcases List.mem_cons.mp (List.perm_middle.mem_iff.mp hx) with rfl | hx
    · obtain ⟨y, hy, hpy⟩ := hzs.mpr ⟨hp, hout⟩
      exact ⟨y, by simp [hy], hpy⟩
    · refine ⟨x, ?_, by rwa [hkeep x hx]⟩
      simp only [List.mem_append] at hx ⊢
      tauto

/-- Handing out the first pages of a listed block. -/
theorem takeBlock (h : FreeList s xs) (hn : 0 < n) (hpage : page ∈ xs)
    (hfit : n ≤ (s.page page).property) :
    ∃ ys, Taken n page s (takeBlock page n s) xs ys := by
  obtain ⟨lo, hi, rfl⟩ := List.append_of_mem hpage
  have hkept : ∀ x ∈ lo ++ page :: hi, x ≠ page → (Pmm.takeBlock page n s).page x = s.page x := by
    intro x hx hne
    exact h.takeBlock_keeps ((List.mem_cons.mp (List.perm_middle.mem_iff.mp hx)).resolve_left hne)
  have hblock : ∀ x ∈ lo ++ hi, (Pmm.takeBlock page n s).block x = s.block x := fun x hx => by
    rw [FreeArea.block, FreeArea.block, h.takeBlock_keeps hx]
  have hcleared : ((Pmm.takeBlock page n s).page page).isHead = false := by
    rw [takeBlock_page_self hn, Page.clearHead_isHead]
  rcases Nat.eq_or_lt_of_le hfit with heq | hlt
  · have hnot : ¬ n < (s.page page).property := by omega
    refine ⟨lo ++ [] ++ hi, ?_, ⟨lo, hi, rfl, by rw [if_neg hnot]⟩, ?_, hkept, ?_, hcleared,
      h.takeBlock_count hfit⟩
    · rw [List.append_nil]
      exact h.takeBlock_whole hn heq.symm
    · apply h.pages_take hblock _ hfit
      simp [FreeArea.block, heq]
    · exact fun p hp _ => takeBlock_page_of_ne hp fun hlt => absurd hlt hnot
  · refine ⟨lo ++ [page + n] ++ hi, ?_, ⟨lo, hi, rfl, by rw [if_pos hlt]⟩, ?_, hkept, ?_, hcleared,
      h.takeBlock_count hfit⟩
    · rw [List.append_assoc]
      exact h.takeBlock_part hn hlt
    · apply h.pages_take hblock _ hfit
      have hle := h.property_le hpage
      have hcounter := h.counter
      ext p
      simp only [List.toFinset_cons, List.toFinset_nil, insert_empty_eq,
        singleton_biUnion, FreeArea.block,
        takeBlock_page_rest hn hlt, Page.setHead_property, Page.setProperty_property,
        mem_sdiff, mem_Ico]
      rw [uint_eq (by omega)]
      omega
    · exact fun p hp hne => takeBlock_page_of_ne hp fun _ => hne

/-- A manager serves a request by what its search finds. -/
theorem allocPages (h : FreeList s xs) (hn : 0 < n) {find : Nat → FreeArea → Option (Option Nat)}
    {found : Option Nat} (hfind : find n s = some found) {choice : Nat → Prop}
    (hnone : found = none → ∀ x ∈ xs, (s.page x).property < n)
    (hsome : ∀ page, found = some page → page ∈ xs ∧ n ≤ (s.page page).property ∧ choice page) :
    ∃ r t, allocPages find n s = some (r, t) ∧ Serves choice n s t xs r := by
  have hzero : n ≠ 0 := Nat.ne_of_gt hn
  by_cases hfew : s.nrFree < n
  · have hsmall : ∀ x ∈ xs, (s.page x).property < n :=
      fun x hx => Nat.lt_of_le_of_lt (h.property_le hx) hfew
    refine ⟨none, s, by simp [Pmm.allocPages, hzero, hfew], iff_of_true rfl hsmall,
      fun _ => rfl, ?_, ?_⟩
    · intro page hpage
      cases hpage
    · intro page hpage
      cases hpage
  · cases found with
    | none =>
        refine ⟨none, s, by simp [Pmm.allocPages, hzero, hfew, hfind], iff_of_true rfl (hnone rfl),
          fun _ => rfl, ?_, ?_⟩
        · intro page hpage
          cases hpage
        · intro page hpage
          cases hpage
    | some page =>
        obtain ⟨hpage, hfit, hchoice⟩ := hsome page rfl
        refine ⟨some page, Pmm.takeBlock page n s, by simp [Pmm.allocPages, hzero, hfew, hfind], ?_,
          ?_, ?_, ?_⟩
        · constructor
          · intro hnull
            cases hnull
          · exact fun hsmall => absurd (hsmall page hpage) (Nat.not_lt.mpr hfit)
        · intro hnull
          cases hnull
        · intro q hq
          obtain rfl := Option.some.inj hq
          exact hchoice
        · intro q hq
          obtain rfl := Option.some.inj hq
          exact h.takeBlock hn hpage hfit

end FreeList

/-- The list of a region of pages that `init_memmap` was given is such a list. -/
theorem Blocks.freeList {R F : Finset Nat} (h : Blocks s R F xs) : FreeList s xs where
  ring := h.ring
  pos := h.pos
  apart := h.apart
  heads := by
    intro x hx p hp
    rw [h.heads p (h.subset (h.block_subset hx hp))]
    constructor
    · intro hmem
      have hself : p ∈ s.block p :=
        mem_Ico.mpr ⟨Nat.le_refl p, Nat.lt_add_of_pos_right (h.pos p hmem)⟩
      exact h.block_unique hmem hx hself hp
    · rintro rfl
      exact hx
  count := by
    have hF : F = xs.toFinset.biUnion s.block := by
      ext p
      rw [h.cover p]
      simp
    rw [h.count, hF, card_biUnion, List.sum_toFinset _ h.nodup]
    · simp [FreeArea.block]
    · intro x hx y hy hne
      rw [Function.onFun, disjoint_left]
      intro p hpx hpy
      exact hne (h.block_unique (List.mem_toFinset.mp hx) (List.mem_toFinset.mp hy) hpx hpy)
  counter := h.count ▸ h.card_small
  bound := by
    intro x hx
    have hpos := h.pos x hx
    have hlast : x + (s.page x).property - 1 ∈ s.block x := by
      rw [FreeArea.block, mem_Ico]
      omega
    have hbelow := h.below _ (h.subset (h.block_subset hx hlast))
    omega

end Ucore.Pmm
