import Mathlib.Data.List.Chain
import Mathlib.Data.List.Nodup
import Mathlib.Logic.Function.Basic

/-!
# Circular singly linked lists

A circular list without header is given by the `next` pointers of its nodes. It may be
read from any of them.
-/

namespace Ucore

variable {α : Type*} {next next' : α → α} {xs ys : List α} {x y e : α}

/-- Each node points to the one behind it. -/
def Path (next : α → α) (xs : List α) : Prop := xs.IsChain fun x y => next x = y

/-- `xs` are the nodes of a circular list, from one of them on. -/
structure Cycle (next : α → α) (xs : List α) : Prop where
  path : Path next xs
  close : ∀ x ∈ xs.getLast?, xs.head? = some (next x)
  nodup : xs.Nodup

namespace Path

theorem append (hxs : Path next xs) (hys : Path next ys)
    (hjoin : ∀ x ∈ xs.getLast?, ∀ y ∈ ys.head?, next x = y) : Path next (xs ++ ys) :=
  List.isChain_append.mpr ⟨hxs, hys, hjoin⟩

theorem left (h : Path next (xs ++ ys)) : Path next xs := (List.isChain_append.mp h).1

theorem right (h : Path next (xs ++ ys)) : Path next ys := (List.isChain_append.mp h).2.1

/-- Only the last node may point somewhere else. -/
theorem congr (h : Path next xs) (hsame : ∀ x ∈ xs.dropLast, next' x = next x) : Path next' xs := by
  induction xs with
  | nil => exact List.isChain_nil
  | cons x xs ih =>
      cases xs with
      | nil => exact List.isChain_singleton x
      | cons y ys =>
          have hcons := List.isChain_cons_cons.mp h
          rw [List.dropLast_cons_cons] at hsame
          apply List.isChain_cons_cons.mpr
          refine ⟨(hsame x List.mem_cons_self).trans hcons.1, ih hcons.2 ?_⟩
          exact fun z hz => hsame z (List.mem_cons_of_mem x hz)

/-- The last node is given another pointer. -/
theorem update_last [DecidableEq α] (h : Path next (xs ++ [x])) (hnodup : (xs ++ [x]).Nodup)
    (e : α) :
    Path (Function.update next x e) (xs ++ [x]) := by
  apply h.congr
  intro y hy
  rw [List.dropLast_concat] at hy
  exact Function.update_of_ne (fun heq => (List.nodup_append.mp hnodup).2.2 y hy x (by simp) heq) ..

end Path

namespace Cycle

/-- The same nodes, read from another one. -/
theorem rotate (h : Cycle next (xs ++ ys)) : Cycle next (ys ++ xs) := by
  obtain ⟨hpath, hclose, hnodup⟩ := h
  have hjoin := (List.isChain_append.mp hpath).2.2
  constructor
  · apply hpath.right.append hpath.left
    intro y hy x hx
    have hlast : y ∈ (xs ++ ys).getLast? := by
      rw [List.getLast?_append, Option.mem_def.mp hy]
      rfl
    have hhead : (xs ++ ys).head? = some x := by
      rw [List.head?_append, Option.mem_def.mp hx]
      rfl
    exact Option.some.inj ((hclose y hlast).symm.trans hhead)
  · intro x hx
    cases ys with
    | nil =>
        rw [List.append_nil] at hclose
        exact hclose x (by simpa using hx)
    | cons y ys =>
        cases xs using List.reverseRecOn with
        | nil =>
            rw [List.append_nil] at hx ⊢
            exact hclose x hx
        | append_singleton xs z =>
            rw [← List.append_assoc, List.getLast?_concat] at hx
            obtain rfl : z = x := Option.some.inj hx
            have hnext := hjoin z (by simp) y rfl
            simp [hnext]
  · exact (List.perm_append_comm.nodup_iff).mp hnodup

/-- The node behind the first one, with the list read from there on. -/
theorem step (h : Cycle next (x :: xs)) :
    ∃ ys, next x :: ys = xs ++ [x] ∧ Cycle next (next x :: ys) := by
  have hrotate : Cycle next (xs ++ [x]) := @rotate α next [x] xs h
  cases xs with
  | nil =>
      have hself : next x = x := by simpa using (h.close x (by simp)).symm
      exact ⟨[], by simp [hself], by simpa [hself] using h⟩
  | cons y ys =>
      have hnext : next x = y := (List.isChain_cons_cons.mp h.path).1
      exact ⟨ys ++ [x], by rw [hnext]; rfl, by rw [hnext]; exact hrotate⟩

/-- Only the last node points to the first one. -/
theorem getLast_of_next (h : Cycle next (x :: xs)) (hy : y ∈ x :: xs) (hnext : next y = x) :
    (x :: xs).getLast? = some y := by
  obtain ⟨front, rest, hcut⟩ := List.append_of_mem hy
  cases rest with
  | nil => rw [hcut, List.getLast?_concat]
  | cons z rest =>
      have hpath := h.path
      have hnodup := h.nodup
      rw [hcut] at hpath hnodup
      obtain rfl : z = x := (List.isChain_cons_cons.mp hpath.right).1.symm.trans hnext
      cases front with
      | nil =>
          obtain rfl : z = y := (List.cons.inj hcut).1
          exact absurd List.mem_cons_self (List.nodup_cons.mp hnodup).1
      | cons w front =>
          obtain rfl : z = w := (List.cons.inj hcut).1
          exact absurd (by simp) (List.nodup_cons.mp hnodup).1

/-- A path becomes a circular list when its last node points to the first one. -/
theorem of_path (h : Path next (xs ++ [x])) (hnodup : (xs ++ [x]).Nodup)
    (hclose : (xs ++ [x]).head? = some (next x)) : Cycle next (xs ++ [x]) := by
  refine ⟨h, ?_, hnodup⟩
  intro z hz
  obtain rfl : x = z := by simpa [List.getLast?_append] using hz
  exact hclose

/-- The last node of an open list is given the first one as its next. -/
theorem of_update [DecidableEq α] (h : Path next xs) (hnodup : xs.Nodup)
    (hlast : xs.getLast? = some x)
    (hhead : xs.head? = some e) : Cycle (Function.update next x e) xs := by
  obtain ⟨ys, rfl⟩ := List.getLast?_eq_some_iff.mp hlast
  apply of_path (h.update_last hnodup e) hnodup
  rw [hhead, Function.update_self]

/-- The last node of an open list is given a new next, which points to the first one. -/
theorem of_insert [DecidableEq α] (h : Path next xs) (hnodup : xs.Nodup)
    (hlast : xs.getLast? = some x)
    (hhead : xs.head? = some (next e)) (he : e ∉ xs) : Cycle (Function.update next x e)
    (xs ++ [e]) := by
  have hx : x ∈ xs := List.mem_of_getLast? hlast
  have hne : e ≠ x := fun heq => he (heq ▸ hx)
  obtain ⟨ys, rfl⟩ := List.getLast?_eq_some_iff.mp hlast
  apply of_path
  · apply (h.update_last hnodup e).append (List.isChain_singleton e)
    intro y hy z hz
    obtain rfl : x = y := by simpa using hy
    obtain rfl : e = z := by simpa using hz
    exact Function.update_self ..
  · rw [← List.concat_eq_append]
    exact hnodup.concat he
  · rw [Function.update_of_ne hne, List.head?_append, hhead]
    rfl

theorem congr (h : Cycle next xs) (hsame : ∀ x ∈ xs, next' x = next x) : Cycle next' xs := by
  refine ⟨h.path.congr fun x hx => hsame x (List.dropLast_subset xs hx), ?_, h.nodup⟩
  intro x hx
  rw [hsame x (List.mem_of_getLast? hx)]
  exact h.close x hx

end Cycle

end Ucore
