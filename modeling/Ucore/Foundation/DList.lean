import Mathlib.Data.List.Nodup
import Mathlib.Logic.Function.Basic

/-!
# Doubly linked lists that end in null

A list is given by the pointer to its first node and the `next` and `prev` pointers
of the nodes; there is no header. The rules say what pushing a node at the front and
taking a node out do to the list of nodes.
-/

namespace Ucore

variable {α : Type*} {next prev next' prev' : α → Option α} {first before : Option α} {x : α}
  {xs ys : List α}

/-- The nodes from `first` on, by their `next` pointers. -/
def Follows (next : α → Option α) : Option α → List α → Prop
  | first, [] => first = none
  | first, x :: xs => first = some x ∧ Follows next (next x) xs

/-- The same with `prev` pointers; `before` is what the first one points back to. -/
def DList (next prev : α → Option α) : Option α → Option α → List α → Prop
  | _, first, [] => first = none
  | before, first, x :: xs =>
      first = some x ∧ prev x = before ∧ DList next prev (some x) (next x) xs

theorem Follows.head (h : Follows next first xs) : first = xs.head? := by
  cases xs with
  | nil => exact h
  | cons x xs => exact h.1

theorem Follows.congr (h : Follows next first xs) (hnext : ∀ x ∈ xs, next' x = next x) :
    Follows next' first xs := by
  induction xs generalizing first with
  | nil => exact h
  | cons x xs ih =>
      refine ⟨h.1, ?_⟩
      rw [hnext x (by simp)]
      exact ih h.2 fun y hy => hnext y (List.mem_cons_of_mem x hy)

namespace DList

theorem follows (h : DList next prev before first xs) : Follows next first xs := by
  induction xs generalizing before first with
  | nil => exact h
  | cons x xs ih => exact ⟨h.1, ih h.2.2⟩

theorem congr (h : DList next prev before first xs) (hnext : ∀ x ∈ xs, next' x = next x)
    (hprev : ∀ x ∈ xs, prev' x = prev x) : DList next' prev' before first xs := by
  induction xs generalizing before first with
  | nil => exact h
  | cons x xs ih =>
      obtain ⟨hfirst, hbefore, hrest⟩ := h
      refine ⟨hfirst, (hprev x (by simp)).trans hbefore, ?_⟩
      rw [hnext x (by simp)]
      exact ih hrest (fun y hy => hnext y (List.mem_cons_of_mem x hy))
        fun y hy => hprev y (List.mem_cons_of_mem x hy)

/-- The neighbours of a node. -/
theorem neighbours (h : DList next prev before first (xs ++ x :: ys)) :
    prev x = (xs.getLast?).or before ∧ next x = ys.head? := by
  induction xs generalizing before first with
  | nil => exact ⟨h.2.1, h.2.2.follows.head⟩
  | cons w ws ih =>
      obtain ⟨hprev, hnext⟩ := ih h.2.2
      refine ⟨?_, hnext⟩
      rw [hprev, List.getLast?_cons]
      cases hlast : ws.getLast? with
      | none => simp
      | some z => simp

/-- `prev` is the inverse of `next` on the nodes. -/
theorem inverse (h : DList next prev none first xs) {y : α} :
    (x ∈ xs ∧ next x = some y) ↔ y ∈ xs ∧ prev y = some x := by
  constructor
  · rintro ⟨hx, hnext⟩
    obtain ⟨us, vs, rfl⟩ := List.append_of_mem hx
    rw [h.neighbours.2] at hnext
    obtain ⟨ws, rfl⟩ := List.head?_eq_some_iff.mp hnext
    have hsplit : us ++ x :: y :: ws = (us ++ [x]) ++ y :: ws := by simp
    rw [hsplit] at h ⊢
    exact ⟨by simp, by simpa using h.neighbours.1⟩
  · rintro ⟨hy, hprev⟩
    obtain ⟨us, vs, rfl⟩ := List.append_of_mem hy
    rw [h.neighbours.1, Option.or_none] at hprev
    obtain ⟨ws, rfl⟩ := List.getLast?_eq_some_iff.mp hprev
    have hsplit : ws ++ [x] ++ y :: vs = ws ++ x :: y :: vs := by simp
    rw [hsplit] at h ⊢
    exact ⟨by simp, by simpa using h.neighbours.2⟩

end DList

variable [DecidableEq α]

/-- Writing through a pointer that may be null. -/
def relink {β : Type*} (f : α → β) : Option α → β → α → β
  | none, _ => f
  | some a, v => Function.update f a v

theorem relink_of_ne {β : Type*} {f : α → β} {p : Option α} {v : β} {a : α} (hne : p ≠ some a) :
    relink f p v a = f a := by
  cases p with
  | none => rfl
  | some b =>
      apply Function.update_of_ne
      rintro rfl
      exact hne rfl

@[simp] theorem relink_self {β : Type*} (f : α → β) (a : α) (v : β) :
    relink f (some a) v a = v := Function.update_self ..

/-- A new node at the front. -/
theorem DList.push (h : DList next prev none first xs) (hnodup : (x :: xs).Nodup) :
    DList (Function.update next x first) (relink (Function.update prev x none) first (some x)) none
      (some x) (x :: xs) := by
  obtain ⟨hx, hxs⟩ := List.nodup_cons.mp hnodup
  have hne : ∀ y ∈ xs, y ≠ x := fun y hy heq => hx (heq ▸ hy)
  have hfirst : first ≠ some x := by
    rw [h.follows.head]
    exact fun heq => hx (List.mem_of_head? heq)
  refine ⟨rfl, (relink_of_ne hfirst).trans (Function.update_self ..), ?_⟩
  rw [Function.update_self]
  cases xs with
  | nil => exact h
  | cons y ys =>
      obtain ⟨rfl, _, hrest⟩ := h
      have hy := (List.nodup_cons.mp hxs).1
      refine ⟨rfl, relink_self _ _ _, ?_⟩
      rw [Function.update_of_ne (hne y (by simp))]
      apply hrest.congr
      · exact fun z hz => Function.update_of_ne (hne z (List.mem_cons_of_mem y hz)) _ _
      · intro z hz
        have hyz : some y ≠ some z := by
          intro heq
          obtain rfl := Option.some.inj heq
          exact hy hz
        rw [relink_of_ne hyz]
        exact Function.update_of_ne (hne z (List.mem_cons_of_mem y hz)) _ _

/-- A node is taken out. -/
theorem DList.remove (h : DList next prev before first (xs ++ x :: ys))
    (hnodup : (xs ++ x :: ys).Nodup) (hbefore : ∀ b, before = some b → b ∉ xs ++ x :: ys) :
    DList (relink next (prev x) (next x)) (relink prev (next x) (prev x)) before
      (if xs = [] then next x else first) (xs ++ ys) := by
  induction xs generalizing before first with
  | nil =>
      obtain ⟨_, rfl, hrest⟩ := h
      rw [if_pos rfl]
      cases ys with
      | nil => exact hrest
      | cons y ys =>
          obtain ⟨hy, _, htail⟩ := hrest
          obtain ⟨_, hnodup⟩ := List.nodup_cons.mp hnodup
          have hout : ∀ z ∈ y :: ys, prev x ≠ some z :=
            fun z hz heq => hbefore z heq (List.mem_cons_of_mem x hz)
          refine ⟨hy, by rw [hy, relink_self], ?_⟩
          rw [relink_of_ne (hout y (by simp))]
          apply htail.congr
          · exact fun z hz => relink_of_ne (hout z (List.mem_cons_of_mem y hz))
          · intro z hz
            apply relink_of_ne
            rw [hy]
            exact fun heq => (List.nodup_cons.mp hnodup).1 (Option.some.inj heq ▸ hz)
  | cons w ws ih =>
      obtain ⟨rfl, hw, hrest⟩ := h
      rw [List.cons_append, List.nodup_cons] at hnodup
      obtain ⟨hprev, hnext⟩ := hrest.neighbours
      have hih := ih hrest hnodup.2 fun b hb hmem => by
        obtain rfl := Option.some.inj hb
        exact hnodup.1 hmem
      rw [if_neg (List.cons_ne_nil w ws)]
      refine ⟨rfl, ?_, ?_⟩
      · rw [relink_of_ne, hw]
        rw [hnext]
        intro heq
        exact hnodup.1 (List.mem_append_right _ (List.mem_cons_of_mem x (List.mem_of_head? heq)))
      · cases ws with
        | nil =>
            rw [if_pos rfl] at hih
            have hback : prev x = some w := by simpa using hprev
            have hself : relink next (prev x) (next x) w = next x := by rw [hback, relink_self]
            rw [hself]
            exact hih
        | cons v vs =>
            rw [if_neg (List.cons_ne_nil v vs)] at hih
            rw [relink_of_ne]
            · exact hih
            · rw [hprev, List.getLast?_eq_some_getLast (List.cons_ne_nil v vs)]
              intro heq
              apply hnodup.1
              rw [← Option.some.inj heq]
              exact List.mem_append_left _ (List.getLast_mem _)

end Ucore
