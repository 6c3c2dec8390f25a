import Mathlib.Data.List.Basic
import Mathlib.Logic.Function.Basic

/-!
# Ring buffers

A reader and a writer with positions that only grow, in cells that are used again and
again: position `p` is in the cell `p % size`. `window` is what the reader has not reached.
-/

namespace Ucore

variable {α : Type*} {size r w : Nat} {cells : Nat → α} {a : α}

/-- The contents between the position `r` of the reader and the position `w` of the writer. -/
def window (size : Nat) (cells : Nat → α) (r w : Nat) : List α :=
  (List.range (w - r)).map fun k => cells ((r + k) % size)

@[simp] theorem length_window : (window size cells r w).length = w - r := by
  rw [window, List.length_map, List.length_range]

/-- Two positions that are less than a round apart are in different cells. -/
theorem cell_ne {p q : Nat} (hlt : p < q) (hround : q - p < size) : p % size ≠ q % size := by
  intro heq
  have hdvd : size ∣ q - p := Nat.dvd_of_mod_eq_zero (Nat.sub_mod_eq_zero_of_mod_eq heq.symm)
  have hle := Nat.le_of_dvd (by omega) hdvd
  omega

/-- The reader passes one position. -/
theorem window_pop (hlt : r < w) :
    window size cells r w = cells (r % size) :: window size cells (r + 1) w := by
  have hlen : w - r = (w - (r + 1)) + 1 := by omega
  unfold window
  rw [hlen, List.range_succ_eq_map, List.map_cons, List.map_map]
  congr 1
  apply List.map_congr_left
  intro k _
  change cells ((r + (k + 1)) % size) = cells ((r + 1 + k) % size)
  rw [Nat.add_assoc, Nat.add_comm 1 k]

/-- What is written outside the window does not change it. -/
theorem window_write (hround : w - r < size) :
    window size (Function.update cells (w % size) a) r w = window size cells r w := by
  unfold window
  apply List.map_congr_left
  intro k hk
  have hlt := List.mem_range.mp hk
  exact Function.update_of_ne (cell_ne (by omega) (by omega)) _ _

/-- The writer fills a cell and passes it. -/
theorem window_push (hle : r ≤ w) (hround : w - r < size) :
    window size (Function.update cells (w % size) a) r (w + 1) = window size cells r w ++ [a] := by
  have hwrite : (List.range (w - r)).map (fun k =>
      Function.update cells (w % size) a ((r + k) % size)) = window size cells r w :=
    window_write hround
  have hlast : r + (w - r) = w := by omega
  rw [window, Nat.succ_sub hle, List.range_succ, List.map_append, hwrite, List.map_singleton, hlast,
    Function.update_self]

/-- A full ring has no cell left, and the writer overwrites what the reader gets next. -/
theorem window_overwrite (hpos : 0 < size) (hfull : w = r + size) :
    window size (Function.update cells (w % size) a) r w = a :: window size cells (r + 1) w := by
  have hcell : r % size = w % size := by rw [hfull, Nat.add_mod_right]
  rw [window_pop (by omega), hcell, Function.update_self, window_write (by omega)]

end Ucore
