import Mathlib.Data.List.Perm.Basic
import Mathlib.Data.Tree.Basic
import Mathlib.Order.Defs.Unbundled

/-!
# Skew heaps as trees

The merge of skew heaps on Mathlib's binary trees, over an arbitrary total
preorder. Merging keeps the nodes and the order, and deleting a node replaces
its subtree by the merge of its children.
-/

namespace Ucore.SkewTree

open BinaryTree
open scoped List

variable {α : Type*}

/-- The nodes of a tree, each before those of its subtrees. -/
def nodes : BinaryTree α → List α
  | .nil => []
  | .node a l r => a :: (nodes l ++ nodes r)

def root? : BinaryTree α → Option α
  | .nil => none
  | .node a _ _ => some a

theorem root?_mem {t : BinaryTree α} {a : α} (hroot : root? t = some a) : a ∈ nodes t := by
  cases t with
  | nil => cases hroot
  | node b l r =>
      obtain rfl := Option.some.inj hroot
      exact List.mem_cons_self

theorem length_nodes (t : BinaryTree α) : (nodes t).length = t.numNodes := by
  induction t with
  | nil => rfl
  | node a l r hl hr => simp [nodes, hl, hr]

section Merge

variable (le : α → α → Prop) [DecidableRel le]

/-- The root of the right argument goes on top unless the left one is smaller. The
merged part becomes the left subtree, the old left subtree the right one. -/
def merge : BinaryTree α → BinaryTree α → BinaryTree α
  | .nil, t => t
  | .node a l r, .nil => .node a l r
  | .node a l r, .node b l' r' =>
      if le b a then .node b (merge (.node a l r) r') l'
      else .node a (merge r (.node b l' r')) l
  termination_by s t => s.numNodes + t.numNodes
  decreasing_by
    all_goals simp only [numNodes]; omega

@[simp] theorem merge_nil_left (t : BinaryTree α) : merge le .nil t = t := by
  rw [merge]

@[simp] theorem merge_nil_right (s : BinaryTree α) : merge le s .nil = s := by
  cases s with
  | nil => rw [merge]
  | node a l r => rw [merge]

variable {le}

/-- Merging keeps the nodes. -/
theorem nodes_merge (s t : BinaryTree α) : (nodes (merge le s t)).Perm (nodes s ++ nodes t) := by
  induction s, t using merge.induct le with
  | case1 t => simp [nodes]
  | case2 a l r => simp [nodes]
  | case3 a l r b l' r' hle ih =>
      rw [merge, if_pos hle, nodes]
      calc b :: (nodes (merge le (.node a l r) r') ++ nodes l')
          _ ~ b :: ((nodes (.node a l r) ++ nodes r') ++ nodes l') := (ih.append_right _).cons b
          _ ~ b :: (nodes (.node a l r) ++ (nodes l' ++ nodes r')) := by
            rw [List.append_assoc]
            exact (List.perm_append_comm.append_left _).cons b
          _ ~ nodes (.node a l r) ++ nodes (.node b l' r') := List.perm_middle.symm
  | case4 a l r b l' r' hle ih =>
      rw [merge, if_neg hle, nodes]
      calc a :: (nodes (merge le r (.node b l' r')) ++ nodes l)
          _ ~ a :: ((nodes r ++ nodes (.node b l' r')) ++ nodes l) := (ih.append_right _).cons a
          _ ~ a :: (nodes l ++ (nodes r ++ nodes (.node b l' r'))) :=
            List.perm_append_comm.cons a
          _ = nodes (.node a l r) ++ nodes (.node b l' r') := by simp [nodes]

theorem mem_nodes_merge {s t : BinaryTree α} {x : α} :
    x ∈ nodes (merge le s t) ↔ x ∈ nodes s ∨ x ∈ nodes t := by
  rw [(nodes_merge s t).mem_iff, List.mem_append]

/-- One of the two roots comes on top. -/
theorem root?_merge (s t : BinaryTree α) :
    root? (merge le s t) = root? s ∨ root? (merge le s t) = root? t := by
  cases s with
  | nil => exact Or.inr (by rw [merge_nil_left])
  | node a l r =>
      cases t with
      | nil => exact Or.inl (by rw [merge_nil_right])
      | node b l' r' =>
          rw [merge]
          split
          · exact Or.inr rfl
          · exact Or.inl rfl

end Merge

section Order

variable (le : α → α → Prop)

/-- No child is smaller than its parent. -/
def Ordered : BinaryTree α → Prop
  | .nil => True
  | .node a l r =>
      (∀ c ∈ root? l, le a c) ∧ (∀ c ∈ root? r, le a c) ∧ Ordered l ∧ Ordered r

variable {le}

/-- The root of an ordered tree is a least node. -/
theorem Ordered.root_le [Std.Refl le] [IsTrans α le] {t : BinaryTree α} (h : Ordered le t) {a : α}
    (hroot : root? t = some a) : ∀ x ∈ nodes t, le a x := by
  induction t generalizing a with
  | nil => cases hroot
  | node b l r hl hr =>
      obtain rfl := Option.some.inj hroot
      obtain ⟨hleft, hright, hol, hor⟩ := h
      -- a node of a subtree is above the root of the subtree
      have hdown : ∀ u, Ordered le u → (∀ c ∈ root? u, le b c) →
          (∀ {c}, Ordered le u → root? u = some c → ∀ x ∈ nodes u, le c x) →
          ∀ x ∈ nodes u, le b x := by
        intro u hu hroot ih x hx
        cases u with
        | nil => cases hx
        | node c l' r' => exact trans_of le (hroot c rfl) (ih hu rfl x hx)
      intro x hx
      rcases List.mem_cons.mp hx with rfl | hx
      · exact refl_of le x
      · rcases List.mem_append.mp hx with hx | hx
        · exact hdown l hol hleft (fun hu hc => hl hu hc) x hx
        · exact hdown r hor hright (fun hu hc => hr hu hc) x hx

variable [DecidableRel le] [Std.Total le]

theorem merge_ordered {s t : BinaryTree α} (hs : Ordered le s) (ht : Ordered le t) :
    Ordered le (merge le s t) := by
  induction s, t using merge.induct le with
  | case1 t => rwa [merge_nil_left]
  | case2 a l r => rwa [merge_nil_right]
  | case3 a l r b l' r' hle ih =>
      obtain ⟨hleft, hright, hol, hor⟩ := ht
      rw [merge, if_pos hle]
      refine ⟨?_, hleft, ih hs hor, hol⟩
      intro c hc
      rcases @root?_merge α le _ (.node a l r) r' with heq | heq
      · rw [heq] at hc
        obtain rfl := Option.some.inj hc
        exact hle
      · exact hright c (heq ▸ hc)
  | case4 a l r b l' r' hle ih =>
      obtain ⟨hleft, hright, hol, hor⟩ := hs
      rw [merge, if_neg hle]
      refine ⟨?_, hleft, ih hor ht, hol⟩
      intro c hc
      rcases @root?_merge α le _ r (.node b l' r') with heq | heq
      · exact hright c (heq ▸ hc)
      · rw [heq] at hc
        obtain rfl := Option.some.inj hc
        exact (total_of le a b).resolve_right hle

end Order

section Delete

variable [DecidableEq α] (le : α → α → Prop) [DecidableRel le]

/-- Replace the subtree at `x` by the merge of its children. -/
def delete (x : α) : BinaryTree α → BinaryTree α
  | .nil => .nil
  | .node a l r => if a = x then merge le l r else .node a (delete x l) (delete x r)

variable {le}

theorem delete_of_notMem {x : α} {t : BinaryTree α} (hx : x ∉ nodes t) : delete le x t = t := by
  induction t with
  | nil => rfl
  | node a l r hl hr =>
      simp only [nodes, List.mem_cons, List.mem_append, not_or] at hx
      rw [delete, if_neg (Ne.symm hx.1), hl hx.2.1, hr hx.2.2]

/-- Deleting a node takes it out of the nodes. -/
theorem nodes_delete {x : α} {t : BinaryTree α} (hnodup : (nodes t).Nodup) :
    (nodes (delete le x t)).Perm ((nodes t).erase x) := by
  induction t with
  | nil => exact List.Perm.refl _
  | node a l r hl hr =>
      obtain ⟨ha, hrest⟩ := List.nodup_cons.mp hnodup
      obtain ⟨hnl, hnr, hdisj⟩ := List.nodup_append.mp hrest
      rw [delete, nodes]
      by_cases hax : a = x
      · rw [if_pos hax, hax, List.erase_cons_head]
        exact nodes_merge l r
      · rw [if_neg hax, nodes, List.erase_cons_tail (by simpa using hax)]
        apply List.Perm.cons
        by_cases hx : x ∈ nodes l
        · have hxr : x ∉ nodes r := fun hxr => hdisj x hx x hxr rfl
          rw [List.erase_append_left _ hx, delete_of_notMem hxr]
          exact (hl hnl).append_right _
        · rw [List.erase_append_right _ hx, delete_of_notMem hx]
          exact (hr hnr).append_left _

/-- No node comes on top that was not in the tree. -/
theorem root?_delete_mem {x a : α} {t : BinaryTree α} (hroot : root? (delete le x t) = some a) :
    a ∈ nodes t := by
  cases t with
  | nil => cases hroot
  | node b l r =>
      rw [delete] at hroot
      split at hroot
      · have hmem := mem_nodes_merge.mp (root?_mem hroot)
        exact List.mem_cons_of_mem b (List.mem_append.mpr hmem)
      · obtain rfl := Option.some.inj hroot
        exact List.mem_cons_self

theorem delete_ordered [IsTrans α le] [Std.Total le] {x : α} {t : BinaryTree α}
    (ht : Ordered le t) :
    Ordered le (delete le x t) := by
  have hrefl : Std.Refl le := inferInstance
  induction t with
  | nil => trivial
  | node a l r hl hr =>
      have hleast := ht.root_le rfl
      obtain ⟨_, _, hol, hor⟩ := ht
      rw [delete]
      split
      · exact merge_ordered hol hor
      · refine ⟨fun c hc => ?_, fun c hc => ?_, hl hol, hr hor⟩
        · exact hleast c (List.mem_cons_of_mem a (List.mem_append_left _ (root?_delete_mem hc)))
        · exact hleast c (List.mem_cons_of_mem a (List.mem_append_right _ (root?_delete_mem hc)))

end Delete

end Ucore.SkewTree
