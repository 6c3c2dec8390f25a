import Mathlib.Algebra.GroupWithZero.Nat
import Mathlib.Data.List.Perm.Basic
import Mathlib.Data.List.TakeWhile

/-!
# Delta lists

Keys wait in the order of their delays, and each entry holds the delay that it adds to
the one before. `due` gives the whole delays; the rules say what inserting, removing and
the passing of time do to them.
-/

namespace Ucore.DeltaList

variable {κ : Type*} {k x : κ} {b c d e : Nat} {l : List (κ × Nat)}

/-- The keys with their delays, after a delay `b`. -/
def due : Nat → List (κ × Nat) → List (κ × Nat)
  | _, [] => []
  | b, (x, e) :: rest => (x, b + e) :: due (b + e) rest

/-- A key that waits for `d` goes behind those that wait no longer. -/
def insert (k : κ) : Nat → List (κ × Nat) → List (κ × Nat)
  | d, [] => [(k, d)]
  | d, (x, e) :: rest =>
      if d < e then (k, d) :: (x, e - d) :: rest else (x, e) :: insert k (d - e) rest

/-- The first entry takes over a delay. -/
def delay (d : Nat) : List (κ × Nat) → List (κ × Nat)
  | [] => []
  | (x, e) :: rest => (x, e + d) :: rest

/-- One unit of time passes. -/
def tick : List (κ × Nat) → List (κ × Nat)
  | [] => []
  | (x, e) :: rest => (x, e - 1) :: rest

/-- The entries that do not wait any more, and the others. -/
def ripe (l : List (κ × Nat)) : List (κ × Nat) := l.takeWhile fun p => p.2 = 0

def unripe (l : List (κ × Nat)) : List (κ × Nat) := l.dropWhile fun p => p.2 = 0

theorem due_keys (b : Nat) (l : List (κ × Nat)) : (due b l).map Prod.fst = l.map Prod.fst := by
  induction l generalizing b with
  | nil => rfl
  | cons p rest ih => exact congrArg (p.1 :: ·) (ih (b + p.2))

theorem due_shift (b c : Nat) (l : List (κ × Nat)) :
    due (b + c) l = (due b l).map fun p => (p.1, p.2 + c) := by
  induction l generalizing b with
  | nil => rfl
  | cons p rest ih =>
      have hcomm : b + c + p.2 = b + p.2 + c := Nat.add_right_comm b c p.2
      rw [due, due, List.map_cons, hcomm, ih]

theorem le_of_mem_due {p : κ × Nat} (hp : p ∈ due b l) : b ≤ p.2 := by
  induction l generalizing b with
  | nil => cases hp
  | cons q rest ih =>
      rcases List.mem_cons.mp hp with rfl | hp
      · exact Nat.le_add_right ..
      · exact Nat.le_trans (Nat.le_add_right ..) (ih hp)

/-- The delay of an entry is not longer than the whole delay of its key. -/
theorem mem_due_of_mem {p : κ × Nat} (hp : p ∈ l) : ∃ d ≥ b + p.2, (p.1, d) ∈ due b l := by
  induction l generalizing b with
  | nil => cases hp
  | cons q rest ih =>
      rcases List.mem_cons.mp hp with rfl | hp
      · exact ⟨b + p.2, Nat.le_refl _, List.mem_cons_self⟩
      · obtain ⟨d, hd, hmem⟩ := ih (b := b + q.2) hp
        exact ⟨d, by omega, List.mem_cons_of_mem _ hmem⟩

theorem due_insert (k : κ) (b d : Nat) (l : List (κ × Nat)) :
    (due b (insert k d l)).Perm ((k, b + d) :: due b l) := by
  induction l generalizing b d with
  | nil => exact List.Perm.refl _
  | cons p rest ih =>
      obtain ⟨x, e⟩ := p
      rw [insert]
      split
      next hlt =>
        have hback : b + d + (e - d) = b + e := by omega
        rw [due, due, due, hback]
      next hnot =>
        have hback : b + e + (d - e) = b + d := by omega
        rw [due, due]
        apply ((ih (b + e) (d - e)).cons (x, b + e)).trans
        rw [hback]
        exact List.Perm.swap ..

/-- An entry whose delay the next one takes over leaves the others alone. -/
theorem due_delay (b d : Nat) (l : List (κ × Nat)) : due b (delay d l) = due (b + d) l := by
  cases l with
  | nil => rfl
  | cons p rest =>
      have hcomm : b + (p.2 + d) = b + d + p.2 := by omega
      rw [delay, due, due, hcomm]

theorem due_append (b : Nat) (l m : List (κ × Nat)) :
    due b (l ++ m) = due b l ++ due (b + (l.map Prod.snd).sum) m := by
  induction l generalizing b with
  | nil => rfl
  | cons p rest ih =>
      rw [List.cons_append, due, due, ih, List.map_cons, List.sum_cons, Nat.add_assoc]
      rfl

/-- An entry is taken out, and the next one takes over its delay. -/
theorem due_remove (b : Nat) (l m : List (κ × Nat)) (p : κ × Nat) :
    (due b (l ++ p :: m)).Perm ((p.1, b + (l.map Prod.snd).sum + p.2) :: due b
      (l ++ delay p.2 m)) := by
  rw [due_append, due_append, due_delay]
  exact List.perm_middle

theorem tick_keys (l : List (κ × Nat)) : (tick l).map Prod.fst = l.map Prod.fst := by
  cases l with
  | nil => rfl
  | cons p rest => rfl

theorem due_tick (hpos : ∀ p ∈ l.head?, 0 < p.2) :
    due 0 l = (due 0 (tick l)).map fun p => (p.1, p.2 + 1) := by
  cases l with
  | nil => rfl
  | cons p rest =>
      have hpos := hpos p rfl
      have hone : p.2 - 1 + 1 = p.2 := Nat.sub_add_cancel hpos
      rw [tick, due, due, List.map_cons, ← due_shift, Nat.zero_add, Nat.zero_add, hone]

/-- The keys that do not wait any more are at the front. -/
theorem due_unripe (l : List (κ × Nat)) : due 0 (unripe l) = (due 0 l).filter fun p => 0 < p.2 := by
  induction l with
  | nil => rfl
  | cons p rest ih =>
      rw [unripe, List.dropWhile_cons, due, Nat.zero_add]
      by_cases hzero : p.2 = 0
      · rw [if_pos (decide_eq_true hzero), hzero, List.filter_cons_of_neg (by simp)]
        exact ih
      · have hall : ∀ q ∈ due p.2 rest, 0 < q.2 := fun q hq =>
          Nat.lt_of_lt_of_le (Nat.pos_of_ne_zero hzero) (le_of_mem_due hq)
        rw [if_neg (by simpa using hzero), due, Nat.zero_add]
        symm
        apply List.filter_eq_self.mpr
        exact List.forall_mem_cons.mpr
          ⟨by simpa using Nat.pos_of_ne_zero hzero, by simpa using hall⟩

theorem due_ripe (l : List (κ × Nat)) : ripe l = (due 0 l).filter fun p => p.2 = 0 := by
  induction l with
  | nil => rfl
  | cons p rest ih =>
      obtain ⟨x, e⟩ := p
      rw [ripe, List.takeWhile_cons, due, Nat.zero_add]
      by_cases hzero : e = 0
      · subst hzero
        exact congrArg ((x, 0) :: ·) ih
      · have hall : ∀ q ∈ due e rest, q.2 ≠ 0 := fun q hq =>
          Nat.ne_of_gt (Nat.lt_of_lt_of_le (Nat.pos_of_ne_zero hzero) (le_of_mem_due hq))
        rw [if_neg (by simpa using hzero), List.filter_cons_of_neg (by simpa using hzero)]
        exact (List.filter_eq_nil_iff.mpr (by simpa using hall)).symm

end Ucore.DeltaList
