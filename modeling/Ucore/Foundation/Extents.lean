import Mathlib.Algebra.BigOperators.Group.List.Basic
import Mathlib.Algebra.GroupWithZero.Nat
import Mathlib.Data.List.Pairwise

/-!
# Blocks of memory

An extent is a number of units of `w` bytes from an address on. Lists of extents in
ascending order with gaps between them are what an allocator that merges neighbours
keeps.
-/

namespace Ucore

structure Extent where
  start : Nat
  units : Nat
  deriving DecidableEq, Repr

namespace Extent

variable {w : Nat} {x y z : Extent} {xs ys : List Extent}

/-- The address behind an extent. -/
def stop (w : Nat) (x : Extent) : Nat := x.start + w * x.units

/-- The address is one of the extent. -/
def Mem (w : Nat) (a : Nat) (x : Extent) : Prop := x.start ≤ a ∧ a < x.stop w

/-- The extents share no address. -/
def Apart (w : Nat) (x y : Extent) : Prop := x.stop w ≤ y.start ∨ y.stop w ≤ x.start

/-- `x` comes before `y`, and there is memory between them. -/
def Before (w : Nat) (x y : Extent) : Prop := x.stop w < y.start

/-- The first `n` units. -/
def front (x : Extent) (n : Nat) : Extent := ⟨x.start, n⟩

/-- The other units. -/
def back (w : Nat) (x : Extent) (n : Nat) : Extent := ⟨x.start + w * n, x.units - n⟩

/-- Both extents, the second one right behind the first. -/
def fuse (x y : Extent) : Extent := ⟨x.start, x.units + y.units⟩

def total (xs : List Extent) : Nat := (xs.map units).sum

instance : Decidable (Apart w x y) := inferInstanceAs (Decidable (_ ∨ _))

instance : Decidable (Before w x y) := inferInstanceAs (Decidable (_ < _))

theorem start_le_stop : x.start ≤ x.stop w := Nat.le_add_right ..

theorem start_lt_stop (hw : 0 < w) (hx : 0 < x.units) : x.start < x.stop w :=
  Nat.lt_add_of_pos_right (Nat.mul_pos hw hx)

theorem start_mem (hw : 0 < w) (hx : 0 < x.units) : Mem w x.start x :=
  ⟨Nat.le_refl _, start_lt_stop hw hx⟩

theorem Apart.symm (h : Apart w x y) : Apart w y x := Or.symm h

theorem Before.start_lt (h : Before w x y) : x.start < y.start :=
  Nat.lt_of_le_of_lt start_le_stop h

/-- Extents that share no address are apart. -/
theorem apart_of_disjoint (hw : 0 < w) (hx : 0 < x.units) (hy : 0 < y.units)
    (hdisjoint : ∀ a, Mem w a x → ¬ Mem w a y) : Apart w x y := by
  have hxs := start_lt_stop hw hx
  have hys := start_lt_stop hw hy
  by_contra hnot
  simp only [Apart, not_or, Nat.not_le] at hnot
  apply hdisjoint (max x.start y.start)
  · exact ⟨Nat.le_max_left .., Nat.max_lt.mpr ⟨hxs, hnot.1⟩⟩
  · exact ⟨Nat.le_max_right .., Nat.max_lt.mpr ⟨hnot.2, hys⟩⟩

theorem Apart.not_mem (h : Apart w x y) {a : Nat} (hx : Mem w a x) : ¬ Mem w a y := by
  intro hy
  obtain ⟨hx1, hx2⟩ := hx
  obtain ⟨hy1, hy2⟩ := hy
  rcases h with h | h
  · exact absurd (Nat.lt_of_lt_of_le hx2 h) (Nat.not_lt.mpr hy1)
  · exact absurd (Nat.lt_of_lt_of_le hy2 h) (Nat.not_lt.mpr hx1)

theorem Apart.stop_le (h : Apart w x y) (hlt : x.start < y.start) : x.stop w ≤ y.start :=
  h.resolve_right fun hle => Nat.not_lt.mpr (Nat.le_trans start_le_stop hle) hlt

/-! ## Splitting and fusing -/

theorem back_stop {n : Nat} (hn : n ≤ x.units) : (x.back w n).stop w = x.stop w := by
  rw [stop, stop, back, Nat.add_assoc, ← Nat.mul_add, Nat.add_sub_cancel' hn]

theorem front_stop_le {n : Nat} (hn : n ≤ x.units) : (x.front n).stop w ≤ x.stop w :=
  Nat.add_le_add_left (Nat.mul_le_mul_left w hn) x.start

theorem fuse_stop (h : x.stop w = y.start) : (x.fuse y).stop w = y.stop w := by
  rw [stop, stop, fuse, ← h, stop, Nat.mul_add, Nat.add_assoc]

theorem mem_fuse (h : x.stop w = y.start) {a : Nat} :
    Mem w a (x.fuse y) ↔ Mem w a x ∨ Mem w a y := by
  have hx := start_le_stop (w := w) (x := x)
  have hy := start_le_stop (w := w) (x := y)
  have hstop := fuse_stop h
  simp only [Mem, hstop]
  change x.start ≤ a ∧ _ ↔ _
  omega

theorem mem_of_front {n : Nat} (hn : n ≤ x.units) {a : Nat} (ha : Mem w a (x.front n)) :
    Mem w a x :=
  ⟨ha.1, Nat.lt_of_lt_of_le ha.2 (front_stop_le hn)⟩

theorem mem_of_back {n : Nat} (hn : n ≤ x.units) {a : Nat} (ha : Mem w a (x.back w n)) :
    Mem w a x :=
  ⟨Nat.le_trans (Nat.le_add_right ..) ha.1, back_stop hn ▸ ha.2⟩

theorem Apart.front (h : Apart w x y) {n : Nat} (hn : n ≤ x.units) : Apart w (x.front n) y :=
  h.imp (Nat.le_trans (front_stop_le hn)) id

theorem Apart.back (h : Apart w x y) {n : Nat} (hn : n ≤ x.units) : Apart w (x.back w n) y :=
  h.imp (fun hle => back_stop hn ▸ hle) fun hle => Nat.le_trans hle (Nat.le_add_right ..)

theorem front_apart_back (n : Nat) : Apart w (x.front n) (x.back w n) := Or.inl (Nat.le_refl _)

theorem Apart.fuse (hx : Apart w x z) (hy : Apart w y z) (h : x.stop w = y.start) (hw : 0 < w)
    (hz : 0 < z.units) : Apart w (x.fuse y) z := by
  have hzs := start_lt_stop hw hz
  have hstop := fuse_stop h
  rw [Apart, hstop]
  change _ ∨ z.stop w ≤ x.start
  simp only [Apart] at hx hy
  omega

/-! ## Lists -/

@[simp] theorem total_nil : total [] = 0 := rfl

@[simp] theorem total_cons : total (x :: xs) = x.units + total xs := rfl

@[simp] theorem total_append : total (xs ++ ys) = total xs + total ys := by
  rw [total, List.map_append, List.sum_append, total, total]

theorem total_perm (h : xs.Perm ys) : total xs = total ys := (h.map units).sum_eq

theorem length_le_total (h : ∀ x ∈ xs, 0 < x.units) : xs.length ≤ total xs := by
  induction xs with
  | nil => exact Nat.le_refl _
  | cons x xs ih =>
      obtain ⟨hx, hxs⟩ := List.forall_mem_cons.mp h
      rw [List.length_cons, total_cons, Nat.add_comm]
      exact Nat.add_le_add hx (ih hxs)

/-- Ascending extents have different addresses. -/
theorem nodup_starts (h : xs.Pairwise (Before w)) : (xs.map start).Nodup := by
  rw [List.Nodup, List.pairwise_map]
  exact h.imp fun hbefore => Nat.ne_of_lt hbefore.start_lt

/-- An address that is not the start of one of ascending extents lies between two of them. -/
theorem exists_split (h : xs.Pairwise (Before w)) {a : Nat} (hne : ∀ x ∈ xs, x.start ≠ a) :
    ∃ ys zs, xs = ys ++ zs ∧ (∀ y ∈ ys, y.start < a) ∧ ∀ z ∈ zs, a < z.start := by
  induction xs with
  | nil => exact ⟨[], [], rfl, nofun, nofun⟩
  | cons x xs ih =>
      obtain ⟨hx, hxs⟩ := List.pairwise_cons.mp h
      rcases Nat.lt_or_gt_of_ne (hne x List.mem_cons_self) with hlt | hgt
      · obtain ⟨ys, zs, rfl, hys, hzs⟩ := ih hxs fun y hy => hne y (List.mem_cons_of_mem x hy)
        exact ⟨x :: ys, zs, rfl, List.forall_mem_cons.mpr ⟨hlt, hys⟩, hzs⟩
      · refine ⟨[], x :: xs, rfl, nofun, List.forall_mem_cons.mpr ⟨hgt, ?_⟩⟩
        exact fun z hz => Nat.lt_trans hgt (hx z hz).start_lt

end Extent

end Ucore
