import Mathlib.Data.List.Induction
import Mathlib.Data.List.Perm.Basic
import Ucore.Slob.Alloc

/-!
# The memory of the allocator

`Layout` says how the free blocks and those of the callers lie in the pages and in the
arena, whatever the headers say. Taking units from a free block, getting a page and
putting a block back keep it.
-/

namespace Ucore.Slob

open Extent

/-- The arena, as a block. -/
def arenaBlock (arena : Nat) : Extent := ⟨arena, 1⟩

def InPages (pages : List Nat) (a : Nat) : Prop := ∃ page ∈ pages, page ≤ a ∧ a < page + PAGE_SIZE

/-- The blocks `all` share no memory, lie in the pages and the arena and fill them. -/
structure Spread (arena : Nat) (pages : List Nat) (all : List Extent) : Prop where
  pos : ∀ x ∈ all, 0 < x.units
  apart : all.Pairwise (Apart SLOB_UNIT)
  covered : ∀ x ∈ all, x ≠ arenaBlock arena → ∀ a, Mem SLOB_UNIT a x → InPages pages a
  page : ∀ page ∈ pages, page % PAGE_SIZE = 0 ∧ 0 < page ∧
    (page + PAGE_SIZE < arena ∨ arena + SLOB_UNIT < page)
  count : total all = 256 * pages.length + 1

/-- The free blocks, in ascending order and not adjacent, and those of the callers. -/
structure Layout (arena : Nat) (pages : List Nat) (free live : List Extent) : Prop where
  sorted : free.Pairwise (Before SLOB_UNIT)
  holdsArena : arenaBlock arena ∈ free
  spread : Spread arena pages (free ++ live)

variable {arena : Nat} {pages : List Nat} {all rest free live xs ys : List Extent} {x y b : Extent}

theorem unit_pos : 0 < SLOB_UNIT := by decide

namespace Spread

theorem perm (h : Spread arena pages all) {all' : List Extent} (hperm : all.Perm all') :
    Spread arena pages all' where
  pos x hx := h.pos x (hperm.mem_iff.mpr hx)
  apart := (hperm.pairwise_iff fun h => h.symm).mp h.apart
  covered x hx := h.covered x (hperm.mem_iff.mpr hx)
  page := h.page
  count := (total_perm hperm).symm.trans h.count

theorem apart_of_mem (h : Spread arena pages (x :: rest)) (hy : y ∈ rest) : Apart SLOB_UNIT x y :=
  (List.pairwise_cons.mp h.apart).1 y hy

/-- A block and another one are not the same. -/
theorem ne_of_mem (h : Spread arena pages (x :: rest)) (hy : y ∈ rest) : x ≠ y := by
  rintro rfl
  have hpos := h.pos x List.mem_cons_self
  exact (h.apart_of_mem hy).not_mem (start_mem unit_pos hpos) (start_mem unit_pos hpos)

/-- Nothing is next to the arena. -/
theorem not_adjacent (h : Spread arena pages all) (hx : x ∈ all) (hne : x ≠ arenaBlock arena) :
    x.stop SLOB_UNIT ≠ arena ∧ arena + SLOB_UNIT ≠ x.start := by
  have hpos := h.pos x hx
  have hlt := start_lt_stop unit_pos hpos
  constructor
  · intro heq
    obtain ⟨page, hpage, hle, hup⟩ := h.covered x hx hne (x.stop SLOB_UNIT - 1)
      ⟨by omega, by omega⟩
    have hapart := (h.page page hpage).2.2
    omega
  · intro heq
    obtain ⟨page, hpage, hle, hup⟩ := h.covered x hx hne x.start (start_mem unit_pos hpos)
    have hapart := (h.page page hpage).2.2
    omega

/-- No block but the arena is at the address 0. -/
theorem start_pos (h : Spread arena pages all) (hx : x ∈ all) (hne : x ≠ arenaBlock arena) :
    0 < x.start := by
  obtain ⟨page, hpage, hle, _⟩ := h.covered x hx hne x.start (start_mem unit_pos (h.pos x hx))
  exact Nat.lt_of_lt_of_le (h.page page hpage).2.1 hle

/-- Two blocks become one. -/
theorem fuse (h : Spread arena pages (x :: y :: rest)) (hadj : x.stop SLOB_UNIT = y.start)
    (hx : x ≠ arenaBlock arena) (hy : y ≠ arenaBlock arena) :
    Spread arena pages (x.fuse y :: rest) := by
  obtain ⟨hpos, hapart, hcovered, hpage, hcount⟩ := h
  obtain ⟨hxr, hapart⟩ := List.pairwise_cons.mp hapart
  obtain ⟨hyr, hrest⟩ := List.pairwise_cons.mp hapart
  refine ⟨?_, List.pairwise_cons.mpr ⟨?_, hrest⟩, ?_, hpage, ?_⟩
  · intro z hz
    rcases List.mem_cons.mp hz with rfl | hz
    · exact Nat.add_pos_left (hpos x List.mem_cons_self) _
    · exact hpos z (List.mem_cons_of_mem _ (List.mem_cons_of_mem _ hz))
  · intro z hz
    have hzpos := hpos z (List.mem_cons_of_mem _ (List.mem_cons_of_mem _ hz))
    exact (hxr z (List.mem_cons_of_mem _ hz)).fuse (hyr z hz) hadj unit_pos hzpos
  · intro z hz hne a ha
    rcases List.mem_cons.mp hz with rfl | hz
    · rcases (mem_fuse hadj).mp ha with ha | ha
      · exact hcovered x List.mem_cons_self hx a ha
      · exact hcovered y (List.mem_cons_of_mem _ List.mem_cons_self) hy a ha
    · exact hcovered z (List.mem_cons_of_mem _ (List.mem_cons_of_mem _ hz)) hne a ha
  · rw [← hcount]
    exact Nat.add_assoc ..

/-- One block becomes two. -/
theorem split (h : Spread arena pages (x :: rest)) {n : Nat} (hn : 0 < n) (hlt : n < x.units)
    (hx : x ≠ arenaBlock arena) :
    Spread arena pages (x.front n :: x.back SLOB_UNIT n :: rest) := by
  obtain ⟨hpos, hapart, hcovered, hpage, hcount⟩ := h
  obtain ⟨hxr, hrest⟩ := List.pairwise_cons.mp hapart
  have hle := Nat.le_of_lt hlt
  refine ⟨?_, ?_, ?_, hpage, ?_⟩
  · intro z hz
    rcases List.mem_cons.mp hz with rfl | hz
    · exact hn
    · rcases List.mem_cons.mp hz with rfl | hz
      · exact Nat.sub_pos_of_lt hlt
      · exact hpos z (List.mem_cons_of_mem _ hz)
  · apply List.pairwise_cons.mpr
    refine ⟨?_, List.pairwise_cons.mpr ⟨fun z hz => (hxr z hz).back hle, hrest⟩⟩
    intro z hz
    rcases List.mem_cons.mp hz with rfl | hz
    · exact front_apart_back n
    · exact (hxr z hz).front hle
  · intro z hz hne a ha
    rcases List.mem_cons.mp hz with rfl | hz
    · exact hcovered x List.mem_cons_self hx a (mem_of_front hle ha)
    · rcases List.mem_cons.mp hz with rfl | hz
      · exact hcovered x List.mem_cons_self hx a (mem_of_back hle ha)
      · exact hcovered z (List.mem_cons_of_mem _ hz) hne a ha
  · rw [← hcount, total_cons, total_cons, total_cons]
    change n + (x.units - n + total rest) = x.units + total rest
    omega

/-- A fresh page is a block of its own. -/
theorem getPage (h : Spread arena pages all) {page : Nat}
    (hfresh : page % PAGE_SIZE = 0 ∧ 0 < page ∧ page ∉ pages ∧
      (page + PAGE_SIZE < arena ∨ arena + SLOB_UNIT < page)) :
    Spread arena (page :: pages) (⟨page, 256⟩ :: all) := by
  obtain ⟨halign, hpos, hnew, hapart⟩ := hfresh
  have hmem : ∀ a, Mem SLOB_UNIT a ⟨page, 256⟩ ↔ page ≤ a ∧ a < page + PAGE_SIZE := fun a => Iff.rfl
  refine ⟨?_, List.pairwise_cons.mpr ⟨?_, h.apart⟩, ?_, ?_, ?_⟩
  · intro z hz
    rcases List.mem_cons.mp hz with rfl | hz
    · exact Nat.succ_pos 255
    · exact h.pos z hz
  · intro z hz
    apply apart_of_disjoint unit_pos (Nat.succ_pos 255) (h.pos z hz)
    intro a ha hza
    rw [hmem] at ha
    by_cases hne : z = arenaBlock arena
    · -- the arena lies outside of the page
      rw [hne] at hza
      obtain ⟨hlow, hup⟩ := hza
      change arena ≤ a at hlow
      change a < arena + SLOB_UNIT * 1 at hup
      omega
    · obtain ⟨other, hother, hle, hup⟩ := h.covered z hz hne a hza
      have hmod := (h.page other hother).1
      have hsame : other = page := by
        unfold PAGE_SIZE at *
        omega
      exact hnew (hsame ▸ hother)
  · intro z hz hne a ha
    rcases List.mem_cons.mp hz with rfl | hz
    · exact ⟨page, List.mem_cons_self, (hmem a).mp ha⟩
    · obtain ⟨other, hother, hin⟩ := h.covered z hz hne a ha
      exact ⟨other, List.mem_cons_of_mem _ hother, hin⟩
  · intro other hother
    rcases List.mem_cons.mp hother with rfl | hother
    · exact ⟨halign, hpos, hapart⟩
    · exact h.page other hother
  · rw [total_cons, h.count, List.length_cons]
    change 256 + _ = _
    omega

end Spread

/-- A block among the free ones, taken to the front. -/
theorem perm_front : (xs ++ x :: ys ++ live).Perm (x :: (xs ++ ys ++ live)) := by
  rw [List.append_assoc, List.append_assoc]
  exact List.perm_middle

namespace Layout

/-- The blocks of the callers have no order. -/
theorem perm (h : Layout arena pages free live) {live' : List Extent} (hperm : live.Perm live') :
    Layout arena pages free live' :=
  ⟨h.sorted, h.holdsArena, h.spread.perm (hperm.append_left free)⟩

theorem apart (h : Layout arena pages free live) (hx : x ∈ free) (hy : y ∈ live) :
    Apart SLOB_UNIT x y :=
  (List.pairwise_append.mp h.spread.apart).2.2 x hx y hy

theorem live_apart (h : Layout arena pages free (b :: live)) (hy : y ∈ live) :
    Apart SLOB_UNIT b y :=
  (List.pairwise_cons.mp (List.pairwise_append.mp h.spread.apart).2.1).1 y hy

theorem free_pos (h : Layout arena pages free live) (hx : x ∈ free) : 0 < x.units :=
  h.spread.pos x (List.mem_append_left live hx)

theorem live_pos (h : Layout arena pages free live) (hx : x ∈ live) : 0 < x.units :=
  h.spread.pos x (List.mem_append_right free hx)

/-- The address of a free block is not in a block of a caller. -/
theorem start_not_mem (h : Layout arena pages free live) (hx : x ∈ free) (hy : y ∈ live) :
    ¬ Mem SLOB_UNIT x.start y :=
  (h.apart hx hy).not_mem (start_mem unit_pos (h.free_pos hx))

theorem live_start_not_mem (h : Layout arena pages free (b :: live)) (hy : y ∈ live) :
    ¬ Mem SLOB_UNIT b.start y :=
  (h.live_apart hy).not_mem (start_mem unit_pos (h.live_pos List.mem_cons_self))

theorem start_ne (h : Layout arena pages free live) (hx : x ∈ free) (hy : y ∈ live) :
    x.start ≠ y.start := by
  intro heq
  exact h.start_not_mem hx hy (heq ▸ start_mem unit_pos (h.live_pos hy))

/-- The block of a caller, and the others. -/
theorem perm_filter (h : Layout arena pages free live) (hx : x ∈ live) :
    live.Perm (x :: live.filter fun y => y.start ≠ x.start) := by
  obtain ⟨front, rest, rfl⟩ := List.append_of_mem hx
  have hfront : Layout arena pages free (x :: (front ++ rest)) := h.perm List.perm_middle
  have hne : ∀ y ∈ front ++ rest, y.start ≠ x.start := by
    intro y hy heq
    apply hfront.live_start_not_mem hy
    rw [← heq]
    exact start_mem unit_pos (hfront.live_pos (List.mem_cons_of_mem x hy))
  have hfilter : (front ++ x :: rest).filter (fun y => y.start ≠ x.start) = front ++ rest := by
    rw [List.filter_append, List.filter_cons_of_neg (by simp), ← List.filter_append,
      List.filter_eq_self.mpr (by simpa using hne)]
  rw [hfilter]
  exact List.perm_middle

/-- A block that is not adjacent to the free block behind it has a gap to all of them. -/
theorem gap_above (h : Layout arena pages (xs ++ ys) (b :: live))
    (habove : ∀ y ∈ ys, b.start < y.start)
    (hnot : ∀ y ∈ ys.head?, b.stop SLOB_UNIT ≠ y.start) : ∀ y ∈ ys, b.stop SLOB_UNIT < y.start := by
  cases ys with
  | nil => exact nofun
  | cons y ys =>
      have hle : b.stop SLOB_UNIT ≤ y.start :=
        (h.apart (by simp) List.mem_cons_self).symm.stop_le (habove y List.mem_cons_self)
      have hlt : b.stop SLOB_UNIT < y.start := Nat.lt_of_le_of_ne hle (hnot y rfl)
      refine List.forall_mem_cons.mpr ⟨hlt, ?_⟩
      intro z hz
      have hsorted := (List.pairwise_append.mp h.sorted).2.1
      exact Nat.lt_trans hlt ((List.pairwise_cons.mp hsorted).1 z hz).start_lt

/-- A block that is not adjacent to the free block before it has a gap to all of them. -/
theorem gap_below (h : Layout arena pages (xs ++ ys) (b :: live))
    (hbelow : ∀ x ∈ xs, x.start < b.start)
    (hnot : ∀ x ∈ xs.getLast?, x.stop SLOB_UNIT ≠ b.start) : ∀ x ∈ xs,
      x.stop SLOB_UNIT < b.start := by
  cases xs using List.reverseRecOn with
  | nil => exact nofun
  | append_singleton xs x =>
      have hle : x.stop SLOB_UNIT ≤ b.start :=
        (h.apart (by simp) List.mem_cons_self).stop_le (hbelow x (by simp))
      have hlt : x.stop SLOB_UNIT < b.start := Nat.lt_of_le_of_ne hle (hnot x (by simp))
      intro z hz
      rcases List.mem_append.mp hz with hz | hz
      · have hsorted := (List.pairwise_append.mp h.sorted).1
        have hbefore := (List.pairwise_append.mp hsorted).2.2 z hz x (List.mem_singleton_self x)
        exact Nat.lt_trans hbefore (Nat.lt_of_le_of_lt start_le_stop hlt)
      · exact List.mem_singleton.mp hz ▸ hlt

/-- The free list is not longer than the memory has units. -/
theorem length_le (h : Layout arena pages free live) : free.length ≤ 256 * pages.length + 1 := by
  rw [← h.spread.count, total_append]
  exact Nat.le_trans (length_le_total fun x hx => h.free_pos hx) (Nat.le_add_right ..)

/-- A block of a caller is not the arena. -/
theorem live_ne_arena (h : Layout arena pages free (b :: live)) : b ≠ arenaBlock arena := by
  have hspread : Spread arena pages (b :: (free ++ live)) := h.spread.perm List.perm_middle
  exact hspread.ne_of_mem (List.mem_append_left live h.holdsArena)

/-- The block of a caller takes the free block behind it. -/
theorem joinNext (h : Layout arena pages (xs ++ y :: ys) (b :: live))
    (hadj : b.stop SLOB_UNIT = y.start) : Layout arena pages (xs ++ ys) (b.fuse y :: live) := by
  have hspread : Spread arena pages (b :: y :: (xs ++ ys ++ live)) := by
    apply h.spread.perm
    exact List.perm_middle.trans (perm_front.cons b)
  have hb := h.live_ne_arena
  have hy : y ≠ arenaBlock arena := by
    rintro rfl
    exact (hspread.not_adjacent List.mem_cons_self hb).1 hadj
  constructor
  · exact h.sorted.sublist ((List.sublist_cons_self y ys).append_left xs)
  · have harena := h.holdsArena
    simp only [List.mem_append, List.mem_cons] at harena ⊢
    exact harena.imp_right fun hin => hin.resolve_left (Ne.symm hy)
  · exact (hspread.fuse hadj hb hy).perm List.perm_middle.symm

/-- A free block takes the block behind it, of a caller. -/
theorem joinPrev (h : Layout arena pages (xs ++ x :: ys) (b :: live))
    (hadj : x.stop SLOB_UNIT = b.start) (hnext : ∀ y ∈ ys, b.stop SLOB_UNIT < y.start) :
    Layout arena pages (xs ++ x.fuse b :: ys) live := by
  have hspread : Spread arena pages (x :: b :: (xs ++ ys ++ live)) := by
    apply h.spread.perm
    exact (List.perm_middle.trans (perm_front.cons b)).trans (List.Perm.swap x b _)
  have hb := h.live_ne_arena
  have hx : x ≠ arenaBlock arena := by
    rintro rfl
    have hmem : b ∈ arenaBlock arena :: b :: (xs ++ ys ++ live) :=
      List.mem_cons_of_mem _ List.mem_cons_self
    exact (hspread.not_adjacent hmem hb).2 hadj
  have hstop := fuse_stop hadj
  constructor
  · obtain ⟨hxs, hys, hcross⟩ := List.pairwise_append.mp h.sorted
    obtain ⟨_, hys⟩ := List.pairwise_cons.mp hys
    apply List.pairwise_append.mpr
    refine ⟨hxs, List.pairwise_cons.mpr ⟨?_, hys⟩, ?_⟩
    · intro y hy
      rw [Before, hstop]
      exact hnext y hy
    · intro z hz y hy
      rcases List.mem_cons.mp hy with rfl | hy
      · exact hcross z hz x List.mem_cons_self
      · exact hcross z hz y (List.mem_cons_of_mem x hy)
  · have harena := h.holdsArena
    simp only [List.mem_append, List.mem_cons] at harena ⊢
    exact harena.imp_right fun hin => Or.inr (hin.resolve_left (Ne.symm hx))
  · exact (hspread.fuse hadj hx hb).perm perm_front.symm

/-- A block of a caller becomes a free block of its own. -/
theorem link (h : Layout arena pages (xs ++ ys) (b :: live))
    (hprev : ∀ x ∈ xs, x.stop SLOB_UNIT < b.start) (hnext : ∀ y ∈ ys, b.stop SLOB_UNIT < y.start) :
    Layout arena pages (xs ++ b :: ys) live := by
  constructor
  · obtain ⟨hxs, hys, hcross⟩ := List.pairwise_append.mp h.sorted
    apply List.pairwise_append.mpr
    refine ⟨hxs, List.pairwise_cons.mpr ⟨hnext, hys⟩, ?_⟩
    intro x hx y hy
    rcases List.mem_cons.mp hy with rfl | hy
    · exact hprev x hx
    · exact hcross x hx y hy
  · have harena := h.holdsArena
    simp only [List.mem_append, List.mem_cons] at harena ⊢
    exact harena.imp_right Or.inr
  · exact h.spread.perm (List.perm_middle.trans perm_front.symm)

/-- A whole free block goes to a caller. -/
theorem takeAll (h : Layout arena pages (xs ++ x :: ys) live) (hx : x ≠ arenaBlock arena) :
    Layout arena pages (xs ++ ys) (x :: live) := by
  constructor
  · exact h.sorted.sublist ((List.sublist_cons_self x ys).append_left xs)
  · have harena := h.holdsArena
    simp only [List.mem_append, List.mem_cons] at harena ⊢
    exact harena.imp_right fun hin => hin.resolve_left (Ne.symm hx)
  · exact h.spread.perm (perm_front.trans List.perm_middle.symm)

/-- The first units of a free block go to a caller. -/
theorem takeFront (h : Layout arena pages (xs ++ x :: ys) live) (hx : x ≠ arenaBlock arena)
    {n : Nat} (hn : 0 < n) (hlt : n < x.units) :
    Layout arena pages (xs ++ x.back SLOB_UNIT n :: ys) (x.front n :: live) := by
  have hspread : Spread arena pages (x :: (xs ++ ys ++ live)) := h.spread.perm perm_front
  constructor
  · obtain ⟨hxs, hys, hcross⟩ := List.pairwise_append.mp h.sorted
    obtain ⟨hafter, hys⟩ := List.pairwise_cons.mp hys
    apply List.pairwise_append.mpr
    refine ⟨hxs, List.pairwise_cons.mpr ⟨?_, hys⟩, ?_⟩
    · intro y hy
      rw [Before, back_stop (Nat.le_of_lt hlt)]
      exact hafter y hy
    · intro z hz y hy
      rcases List.mem_cons.mp hy with rfl | hy
      · exact Nat.lt_of_lt_of_le (hcross z hz x List.mem_cons_self) (Nat.le_add_right ..)
      · exact hcross z hz y (List.mem_cons_of_mem x hy)
  · have harena := h.holdsArena
    simp only [List.mem_append, List.mem_cons] at harena ⊢
    exact harena.imp_right fun hin => Or.inr (hin.resolve_left (Ne.symm hx))
  · apply (hspread.split hn hlt hx).perm
    exact (perm_front.symm.cons (x.front n)).trans List.perm_middle.symm

/-- A fresh page goes to a caller, which is about to put it on the free list. -/
theorem getPage (h : Layout arena pages free live) {page : Nat}
    (hfresh : page % PAGE_SIZE = 0 ∧ 0 < page ∧ page ∉ pages ∧
      (page + PAGE_SIZE < arena ∨ arena + SLOB_UNIT < page)) :
    Layout arena (page :: pages) free (⟨page, 256⟩ :: live) :=
  ⟨h.sorted, h.holdsArena, (h.spread.getPage hfresh).perm
    List.perm_middle.symm⟩

end Layout

end Ucore.Slob
