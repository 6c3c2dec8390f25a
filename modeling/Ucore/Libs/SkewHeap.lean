import Mathlib.Data.Finset.Card
import Ucore.Foundation.SkewTree

/-!
# `libs/skew_heap.h`

The skew heap of the stride scheduler, on links that live outside their nodes. A
node is the address of a `skew_heap_entry_t`, and `none` is `NULL`. `Mirror` says
which tree the links form; the operations follow those of `Ucore.SkewTree`.
-/

namespace Ucore.SkewHeap

open BinaryTree SkewTree

variable {α : Type*}

/-- The fields of every `skew_heap_entry_t`. -/
structure Entries (α : Type*) where
  parent : α → Option α
  left : α → Option α
  right : α → Option α

section Fields

variable [DecidableEq α] (m : Entries α) (a x : α) (p : Option α)

namespace Entries

def setParent : Entries α := { m with parent := Function.update m.parent a p }

def setLeft : Entries α := { m with left := Function.update m.left a p }

def setRight : Entries α := { m with right := Function.update m.right a p }

@[simp] theorem setParent_parent :
    (m.setParent a p).parent x = if x = a then p else m.parent x := by
  simp [setParent, Function.update_apply]

@[simp] theorem setParent_left : (m.setParent a p).left = m.left := rfl

@[simp] theorem setParent_right : (m.setParent a p).right = m.right := rfl

@[simp] theorem setLeft_parent : (m.setLeft a p).parent = m.parent := rfl

@[simp] theorem setLeft_left : (m.setLeft a p).left x = if x = a then p else m.left x := by
  simp [setLeft, Function.update_apply]

@[simp] theorem setLeft_right : (m.setLeft a p).right = m.right := rfl

@[simp] theorem setRight_parent : (m.setRight a p).parent = m.parent := rfl

@[simp] theorem setRight_left : (m.setRight a p).left = m.left := rfl

@[simp] theorem setRight_right : (m.setRight a p).right x = if x = a then p else m.right x := by
  simp [setRight, Function.update_apply]

end Entries

end Fields

section Code

variable [DecidableEq α]

/-- `if (l) l->parent = p`. -/
def setParentOf (l p : Option α) (m : Entries α) : Entries α :=
  match l with
  | none => m
  | some l => m.setParent l p

/-- `skew_heap_init`. -/
def skewHeapInit (a : α) (m : Entries α) : Entries α :=
  ((m.setParent a none).setRight a none).setLeft a none

/-- `skew_heap_merge`, for at most `fuel` nested calls. -/
def skewHeapMerge (comp : α → α → Int) :
    Nat → Option α → Option α → Entries α → Option (Option α × Entries α)
  | 0, _, _, _ => none
  | _ + 1, none, b, m => some (b, m)
  | _ + 1, some a, none, m => some (some a, m)
  | fuel + 1, some a, some b, m =>
      if comp a b = -1 then
        let r := m.left a
        match skewHeapMerge comp fuel (m.right a) (some b) m with
        | none => none
        | some (l, m) =>
            let m := (m.setLeft a l).setRight a r
            some (some a, setParentOf l (some a) m)
      else
        let r := m.left b
        match skewHeapMerge comp fuel (some a) (m.right b) m with
        | none => none
        | some (l, m) =>
            let m := (m.setLeft b l).setRight b r
            some (some b, setParentOf l (some b) m)

/-- `skew_heap_insert`. -/
def skewHeapInsert (comp : α → α → Int) (fuel : Nat) (a : Option α) (b : α) (m : Entries α) :
    Option (Option α × Entries α) :=
  skewHeapMerge comp fuel a (some b) (skewHeapInit b m)

/-- `skew_heap_remove`. -/
def skewHeapRemove (comp : α → α → Int) (fuel : Nat) (a : Option α) (b : α) (m : Entries α) :
    Option (Option α × Entries α) :=
  let p := m.parent b
  match skewHeapMerge comp fuel (m.left b) (m.right b) m with
  | none => none
  | some (rep, m) =>
      let m := setParentOf rep p m
      match p with
      | some p =>
          if m.left p = some b then some (a, m.setLeft p rep) else some (a, m.setRight p rep)
      | none => some (rep, m)

end Code

/-! ## The tree that the links form -/

/-- The links from `p` down form this tree, every node of it points back to its
parent, and the node at the top points to `par`. -/
def Mirror (m : Entries α) : Option α → Option α → BinaryTree α → Prop
  | p, _, .nil => p = none
  | p, par, .node a l r =>
      p = some a ∧ m.parent a = par ∧ Mirror m (m.left a) (some a) l ∧
        Mirror m (m.right a) (some a) r

/-- The fields of `x` are the same. -/
def SameAt (m m' : Entries α) (x : α) : Prop :=
  m'.parent x = m.parent x ∧ m'.left x = m.left x ∧ m'.right x = m.right x

namespace Mirror

variable {m m' : Entries α} {p par : Option α} {t : BinaryTree α}

theorem root (h : Mirror m p par t) : p = root? t := by
  cases t with
  | nil => exact h
  | node a l r => exact h.1

theorem congr (h : Mirror m p par t) (hsame : ∀ x ∈ nodes t, SameAt m m' x) :
    Mirror m' p par t := by
  induction t generalizing p par with
  | nil => exact h
  | node a l r hl hr =>
      obtain ⟨hp, hpar, hleft, hright⟩ := h
      obtain ⟨ha, ha', ha''⟩ := hsame a List.mem_cons_self
      refine ⟨hp, ha.trans hpar, ?_, ?_⟩
      · rw [ha']
        exact hl hleft fun x hx => hsame x (List.mem_cons_of_mem a (List.mem_append_left _ hx))
      · rw [ha'']
        exact hr hright fun x hx => hsame x (List.mem_cons_of_mem a (List.mem_append_right _ hx))

/-- The links determine the tree. -/
theorem unique {par' : Option α} {t' : BinaryTree α} (h : Mirror m p par t)
    (h' : Mirror m p par' t') : t = t' := by
  induction t generalizing p par par' t' with
  | nil =>
      cases t' with
      | nil => rfl
      | node a l r =>
          obtain rfl : p = none := h
          cases h'.1
  | node a l r hl hr =>
      obtain ⟨hp, _, hleft, hright⟩ := h
      cases t' with
      | nil =>
          obtain rfl : p = none := h'
          cases hp
      | node a' l' r' =>
          obtain ⟨hp', _, hleft', hright'⟩ := h'
          obtain rfl := Option.some.inj (hp.symm.trans hp')
          rw [hl hleft hleft', hr hright hright']

/-- The node at the top gets another parent. -/
theorem setParentOf [DecidableEq α] (h : Mirror m p par t) (hnodup : (nodes t).Nodup)
    (q : Option α) : Mirror (SkewHeap.setParentOf p q m) p q t := by
  cases t with
  | nil =>
      obtain rfl : p = none := h
      rfl
  | node a l r =>
      obtain ⟨rfl, _, hleft, hright⟩ := h
      have ha := (List.nodup_cons.mp hnodup).1
      rw [List.mem_append, not_or] at ha
      have hsame : ∀ x, x ≠ a → SameAt m (m.setParent a q) x := by
        intro x hx
        simp [SameAt, hx]
      refine ⟨rfl, by simp [SkewHeap.setParentOf], ?_, ?_⟩
      · exact hleft.congr fun x hx => hsame x (ne_of_mem_of_not_mem hx ha.1)
      · exact hright.congr fun x hx => hsame x (ne_of_mem_of_not_mem hx ha.2)

end Mirror

theorem setParentOf_same [DecidableEq α] {m : Entries α} {l p : Option α} {x : α}
    (hx : l ≠ some x) :
    SameAt m (setParentOf l p m) x := by
  cases l with
  | none => exact ⟨rfl, rfl, rfl⟩
  | some l =>
      have hne : x ≠ l := fun heq => hx (congrArg some heq.symm)
      simp [setParentOf, SameAt, hne]

theorem SameAt.trans {m m' m'' : Entries α} {x : α} (h : SameAt m m' x) (h' : SameAt m' m'' x) :
    SameAt m m'' x :=
  ⟨h'.1.trans h.1, h'.2.1.trans h.2.1, h'.2.2.trans h.2.2⟩

/-! ## Merging -/

/-- The order that a comparison function stands for. -/
def skewLe (comp : α → α → Int) (x y : α) : Prop := comp y x ≠ -1

instance (comp : α → α → Int) : DecidableRel (skewLe comp) :=
  fun x y => inferInstanceAs (Decidable (comp y x ≠ -1))

section Merge

variable [DecidableEq α] {comp : α → α → Int} {m : Entries α} {p q pp pq : Option α}
  {s t : BinaryTree α} {fuel : Nat}

/-- Every pair of trees can be merged, also when they share nodes: on the way down
nothing is written. -/
theorem skewHeapMerge_terminates (hs : Mirror m p pp s) (ht : Mirror m q pq t)
    (hfuel : s.numNodes + t.numNodes < fuel) : ∃ r, skewHeapMerge comp fuel p q m = some r := by
  induction fuel generalizing p q pp pq s t with
  | zero => exact absurd hfuel (Nat.not_lt_zero _)
  | succ fuel ih =>
      cases s with
      | nil =>
          obtain rfl : p = none := hs
          exact ⟨_, rfl⟩
      | node a l r =>
          obtain ⟨rfl, hpar, hleft, hright⟩ := hs
          cases t with
          | nil =>
              obtain rfl : q = none := ht
              exact ⟨_, rfl⟩
          | node b l' r' =>
              obtain ⟨rfl, hpar', hleft', hright'⟩ := ht
              simp only [numNodes] at hfuel
              rw [skewHeapMerge]
              split
              · obtain ⟨res, hres⟩ := ih hright (t := .node b l' r') ⟨rfl, hpar', hleft', hright'⟩
                  (by simp only [numNodes]; omega)
                rw [hres]
                exact ⟨_, rfl⟩
              · obtain ⟨res, hres⟩ := ih (s := .node a l r) ⟨rfl, hpar, hleft, hright⟩ hright'
                  (by simp only [numNodes]; omega)
                rw [hres]
                exact ⟨_, rfl⟩

/-- What the writes after a nested call do that has touched the nodes `ws` only: the
merged part `c` becomes the left subtree of `a`, and its old left subtree the right one. -/
theorem Mirror.adopt {m' : Entries α} {a : α} {l u : BinaryTree α}
    {c pr par : Option α} {ws : List α}
    (hl : Mirror m (m.left a) (some a) l) (hpar : m.parent a = par) (hu : Mirror m' c pr u)
    (hws : (nodes u).Perm ws) (hnodup : (a :: (nodes l ++ ws)).Nodup)
    (hsame : ∀ x ∉ ws, SameAt m m' x) :
    Mirror (SkewHeap.setParentOf c (some a) ((m'.setLeft a c).setRight a (m.left a))) (some a) par
        (.node a u l) ∧
      ∀ x ∉ a :: (nodes l ++ ws),
        SameAt m (SkewHeap.setParentOf c (some a) ((m'.setLeft a c).setRight a (m.left a))) x := by
  obtain ⟨ha, hrest⟩ := List.nodup_cons.mp hnodup
  obtain ⟨_, hnw, hdisj⟩ := List.nodup_append.mp hrest
  rw [List.mem_append, not_or] at ha
  have hset : ∀ x, x ≠ a → SameAt m' ((m'.setLeft a c).setRight a (m.left a)) x := by
    intro x hx
    simp [SameAt, hx]
  have htop : ∀ x ∉ ws, c ≠ some x := by
    intro x hx heq
    exact hx (hws.subset (root?_mem (hu.root.symm.trans heq)))
  have hself := setParentOf_same (m := (m'.setLeft a c).setRight a (m.left a)) (p := some a)
    (htop a ha.2)
  refine ⟨⟨rfl, ?_, ?_, ?_⟩, ?_⟩
  · rw [hself.1]
    exact (hsame a ha.2).1.trans hpar
  · rw [hself.2.1]
    have hmoved := hu.congr fun x hx => hset x (ne_of_mem_of_not_mem (hws.subset hx) ha.2)
    simpa using hmoved.setParentOf (hws.nodup_iff.mpr hnw) (some a)
  · rw [hself.2.2]
    simp only [Entries.setRight_right, if_true]
    refine hl.congr fun x hx => ?_
    have hxw : x ∉ ws := fun hxw => hdisj x hx x hxw rfl
    exact ((hsame x hxw).trans (hset x (ne_of_mem_of_not_mem hx ha.1))).trans
      (setParentOf_same (htop x hxw))
  · intro x hx
    simp only [List.mem_cons, List.mem_append, not_or] at hx
    exact ((hsame x hx.2.2).trans (hset x hx.1)).trans (setParentOf_same (htop x hx.2.2))

/-- Merging two disjoint heaps: the links form the merged tree, the node on top
keeps its parent pointer, and no other node is touched. -/
theorem skewHeapMerge_spec (hs : Mirror m p pp s) (ht : Mirror m q pq t)
    (hnodup : (nodes s ++ nodes t).Nodup) (hfuel : s.numNodes + t.numNodes < fuel) :
    ∃ r m', skewHeapMerge comp fuel p q m = some (r, m') ∧
      (∃ pr, (pr = pp ∨ pr = pq) ∧ Mirror m' r pr (merge (skewLe comp) s t)) ∧
      ∀ x ∉ nodes s ++ nodes t, SameAt m m' x := by
  induction fuel generalizing p q pp pq s t with
  | zero => exact absurd hfuel (Nat.not_lt_zero _)
  | succ fuel ih =>
      cases s with
      | nil =>
          obtain rfl : p = none := hs
          exact ⟨q, m, rfl, ⟨pq, Or.inr rfl, by rwa [merge_nil_left]⟩, fun x _ => ⟨rfl, rfl, rfl⟩⟩
      | node a l r =>
          cases t with
          | nil =>
              obtain rfl : q = none := ht
              obtain rfl : p = some a := hs.1
              exact ⟨some a, m, rfl, ⟨pp, Or.inl rfl, by rwa [merge_nil_right]⟩,
                fun x _ => ⟨rfl, rfl, rfl⟩⟩
          | node b l' r' =>
              obtain ⟨rfl, hpar, hleft, hright⟩ := id hs
              obtain ⟨rfl, hpar', hleft', hright'⟩ := id ht
              rw [merge]
              simp only [numNodes] at hfuel
              by_cases hcomp : comp a b = -1
              · -- `a` comes on top: its right subtree is merged with the other heap
                have hperm : (nodes (.node a l r) ++ nodes (.node b l' r')).Perm
                    (a :: (nodes l ++ (nodes r ++ nodes (.node b l' r')))) := by
                  simp [nodes]
                obtain ⟨ha, hrest⟩ := List.nodup_cons.mp (hperm.nodup_iff.mp hnodup)
                obtain ⟨c, m', hcall, ⟨pr, _, hu⟩, hsame⟩ :=
                  ih hright ht (List.nodup_append.mp hrest).2.1 (by simp only [numNodes]; omega)
                have htop := hleft.adopt hpar hu (nodes_merge _ _)
                  (List.nodup_cons.mpr ⟨ha, hrest⟩) hsame
                refine ⟨some a, _, by rw [skewHeapMerge, if_pos hcomp, hcall],
                  ⟨pp, Or.inl rfl, ?_⟩, ?_⟩
                · rw [if_neg (fun hle => hle hcomp)]
                  exact htop.1
                · exact fun x hx => htop.2 x fun hmem => hx (hperm.mem_iff.mpr hmem)
              · -- `b` comes on top: its right subtree is merged with the other heap
                have hperm : (nodes (.node a l r) ++ nodes (.node b l' r')).Perm
                    (b :: (nodes l' ++ (nodes (.node a l r) ++ nodes r'))) := by
                  refine List.perm_middle.trans (List.Perm.cons b ?_)
                  rw [← List.append_assoc, ← List.append_assoc]
                  exact List.perm_append_comm.append_right _
                obtain ⟨hb, hrest⟩ := List.nodup_cons.mp (hperm.nodup_iff.mp hnodup)
                obtain ⟨c, m', hcall, ⟨pr, _, hu⟩, hsame⟩ :=
                  ih hs hright' (List.nodup_append.mp hrest).2.1 (by simp only [numNodes]; omega)
                have htop := hleft'.adopt hpar' hu (nodes_merge _ _)
                  (List.nodup_cons.mpr ⟨hb, hrest⟩) hsame
                refine ⟨some b, _, by rw [skewHeapMerge, if_neg hcomp, hcall],
                  ⟨pq, Or.inr rfl, ?_⟩, ?_⟩
                · have hle : skewLe comp b a := hcomp
                  rw [if_pos hle]
                  exact htop.1
                · exact fun x hx => htop.2 x fun hmem => hx (hperm.mem_iff.mpr hmem)

end Merge

/-! ## Removing a member -/

section Remove

variable {m m' : Entries α} {p par : Option α} {t l r : BinaryTree α} {b x : α}

/-- What a member of a heap is: the top of a subtree with the subtrees `l` and `r`,
and a child of a node outside of it unless it is the top of the heap. -/
structure Located (m : Entries α) (p par : Option α) (t : BinaryTree α) (b : α)
    (l r : BinaryTree α) : Prop where
  left : Mirror m (m.left b) (some b) l
  right : Mirror m (m.right b) (some b) r
  sub : (nodes (.node b l r)).Sublist (nodes t)
  place : p = some b ∧ m.parent b = par ∨
    p ≠ some b ∧ ∃ x ∈ nodes t, x ∉ nodes (.node b l r) ∧ m.parent b = some x ∧
      (m.left x = some b ∨ m.right x = some b)

theorem Mirror.locate (h : Mirror m p par t) (hnodup : (nodes t).Nodup) (hb : b ∈ nodes t) :
    ∃ l r, Located m p par t b l r := by
  induction t generalizing p par with
  | nil => cases hb
  | node a tl tr ihl ihr =>
      obtain ⟨rfl, hpar, hleft, hright⟩ := h
      by_cases hab : a = b
      · subst hab
        exact ⟨tl, tr, hleft, hright, List.Sublist.refl _, Or.inl ⟨rfl, hpar⟩⟩
      obtain ⟨ha, hrest⟩ := List.nodup_cons.mp hnodup
      obtain ⟨hnl, hnr, _⟩ := List.nodup_append.mp hrest
      rw [List.mem_append, not_or] at ha
      have hne : some a ≠ some b := fun heq => hab (Option.some.inj heq)
      have hmem : b ∈ nodes tl ∨ b ∈ nodes tr := by
        have hrest := (List.mem_cons.mp hb).resolve_left (Ne.symm hab)
        exact List.mem_append.mp hrest
      rcases hmem with hbl | hbr
      · obtain ⟨l, r, hl⟩ := ihl hleft hnl hbl
        have hin : (nodes tl).Sublist (nodes (.node a tl tr)) :=
          (List.sublist_append_left _ _).cons a
        refine ⟨l, r, hl.left, hl.right, hl.sub.trans hin, Or.inr ⟨hne, ?_⟩⟩
        rcases hl.place with ⟨htop, hp⟩ | ⟨_, x, hx, hout, hchild⟩
        · exact ⟨a, List.mem_cons_self, fun hmem => ha.1 (hl.sub.subset hmem), hp, Or.inl htop⟩
        · exact ⟨x, hin.subset hx, hout, hchild⟩
      · obtain ⟨l, r, hr⟩ := ihr hright hnr hbr
        have hin : (nodes tr).Sublist (nodes (.node a tl tr)) :=
          (List.sublist_append_right _ _).cons a
        refine ⟨l, r, hr.left, hr.right, hr.sub.trans hin, Or.inr ⟨hne, ?_⟩⟩
        rcases hr.place with ⟨htop, hp⟩ | ⟨_, x, hx, hout, hchild⟩
        · exact ⟨a, List.mem_cons_self, fun hmem => ha.2 (hr.sub.subset hmem), hp, Or.inr htop⟩
        · exact ⟨x, hin.subset hx, hout, hchild⟩

/-- The children of a node belong to the tree and point back to it. -/
theorem Mirror.child (h : Mirror m p par t) (hnodup : (nodes t).Nodup) (hx : x ∈ nodes t)
    (hb : m.left x = some b ∨ m.right x = some b) : b ∈ nodes t ∧ m.parent b = some x := by
  obtain ⟨l, r, hx⟩ := h.locate hnodup hx
  rcases hb with hb | hb
  · have hleft := hx.left
    cases l with
    | nil => cases hb.symm.trans hleft
    | node c l' r' =>
        obtain rfl := Option.some.inj (hb.symm.trans hleft.1)
        exact ⟨hx.sub.subset (by simp [nodes]), hleft.2.1⟩
  · have hright := hx.right
    cases r with
    | nil => cases hb.symm.trans hright
    | node c l' r' =>
        obtain rfl := Option.some.inj (hb.symm.trans hright.1)
        exact ⟨hx.sub.subset (by simp [nodes]), hright.2.1⟩

/-- A node is a child of another one only once. -/
theorem Mirror.left_ne_right (h : Mirror m p par t) (hnodup : (nodes t).Nodup) (hx : x ∈ nodes t)
    (hleft : m.left x = some b) : m.right x ≠ some b := by
  intro hright
  obtain ⟨l, r, hx⟩ := h.locate hnodup hx
  have hl : b ∈ nodes l := root?_mem (hx.left.root.symm.trans hleft)
  have hr : b ∈ nodes r := root?_mem (hx.right.root.symm.trans hright)
  have hboth := (List.nodup_cons.mp (hnodup.sublist hx.sub)).2
  exact (List.nodup_append.mp hboth).2.2 b hl b hr rfl

/-- Where `b` was, the memory `m'` has the tree `u` with top `rep`; the rest of the
links are as before. -/
structure Splices (m m' : Entries α) (t : BinaryTree α) (b : α) (l r : BinaryTree α)
    (rep : Option α) (u : BinaryTree α) : Prop where
  top : Mirror m' rep (m.parent b) u
  parent : ∀ x ∈ nodes t, x ∉ nodes (.node b l r) → m'.parent x = m.parent x
  left : ∀ x ∈ nodes t, x ∉ nodes (.node b l r) →
    (m.left x = some b → m'.left x = rep) ∧ (m.left x ≠ some b → m'.left x = m.left x)
  right : ∀ x ∈ nodes t, x ∉ nodes (.node b l r) →
    (m.right x = some b → m'.right x = rep) ∧ (m.right x ≠ some b → m'.right x = m.right x)

theorem Splices.mono {t' u : BinaryTree α} {rep : Option α} (h : Splices m m' t b l r rep u)
    (hsub : ∀ x ∈ nodes t', x ∈ nodes t) : Splices m m' t' b l r rep u :=
  ⟨h.top, fun x hx => h.parent x (hsub x hx), fun x hx => h.left x (hsub x hx),
    fun x hx => h.right x (hsub x hx)⟩

/-- A tree without `b` keeps its links. -/
theorem Splices.keep {u : BinaryTree α} {rep : Option α} (h : Splices m m' t b l r rep u)
    (ht : Mirror m p par t) (hnodup : (nodes t).Nodup)
    (hout : ∀ x ∈ nodes t, x ∉ nodes (.node b l r)) : Mirror m' p par t := by
  have hb : b ∉ nodes t := fun hb => hout b hb List.mem_cons_self
  apply ht.congr
  intro x hx
  refine ⟨h.parent x hx (hout x hx), (h.left x hx (hout x hx)).2 fun hleft => ?_,
    (h.right x hx (hout x hx)).2 fun hright => ?_⟩
  · exact hb (ht.child hnodup hx (Or.inl hleft)).1
  · exact hb (ht.child hnodup hx (Or.inr hright)).1

/-- The links of the whole heap after the splice. -/
theorem Splices.mirror [DecidableEq α] {le : α → α → Prop} [DecidableRel le] {rep : Option α}
    (h : Splices m m' t b l r rep (merge le l r)) (ht : Mirror m p par t) (hnodup : (nodes t).Nodup)
    (hb : b ∈ nodes t) (hl : Mirror m (m.left b) (some b) l)
    (hr : Mirror m (m.right b) (some b) r) :
    Mirror m' (if p = some b then rep else p) par (delete le b t) := by
  induction t generalizing p par with
  | nil => cases hb
  | node a tl tr ihl ihr =>
      obtain ⟨rfl, hpar, hleft, hright⟩ := ht
      rw [delete]
      by_cases hab : a = b
      · subst hab
        obtain rfl := hl.unique hleft
        obtain rfl := hr.unique hright
        rw [if_pos rfl, if_pos rfl, ← hpar]
        exact h.top
      obtain ⟨ha, hrest⟩ := List.nodup_cons.mp hnodup
      obtain ⟨hnl, hnr, hdisj⟩ := List.nodup_append.mp hrest
      rw [List.mem_append, not_or] at ha
      rw [if_neg hab, if_neg (fun heq => hab (Option.some.inj heq))]
      have hinl : ∀ x ∈ nodes tl, x ∈ nodes (.node a tl tr) := fun x hx =>
        List.mem_cons_of_mem a (List.mem_append_left _ hx)
      have hinr : ∀ x ∈ nodes tr, x ∈ nodes (.node a tl tr) := fun x hx =>
        List.mem_cons_of_mem a (List.mem_append_right _ hx)
      have hsub : ∀ {c q u}, Mirror m c q u → (nodes u).Nodup → b ∈ nodes u →
          ∀ x ∈ nodes (.node b l r), x ∈ nodes u := by
        intro c q u hu hnu hbu x hx
        obtain ⟨l', r', hloc⟩ := hu.locate hnu hbu
        obtain rfl := hl.unique hloc.left
        obtain rfl := hr.unique hloc.right
        exact hloc.sub.subset hx
      have hmem : b ∈ nodes tl ∨ b ∈ nodes tr :=
        List.mem_append.mp ((List.mem_cons.mp hb).resolve_left (Ne.symm hab))
      rcases hmem with hbl | hbr
      · have hbelow := hsub hleft hnl hbl
        have haout : a ∉ nodes (.node b l r) := fun hmem => ha.1 (hbelow a hmem)
        have hbr : b ∉ nodes tr := fun hbr => hdisj b hbl b hbr rfl
        have hright' : m.right a ≠ some b :=
          fun hroot => hbr (root?_mem (hright.root.symm.trans hroot))
        have hnew : m'.left a = if m.left a = some b then rep else m.left a := by
          split
          · next heq => exact (h.left a List.mem_cons_self haout).1 heq
          · next hne => exact (h.left a List.mem_cons_self haout).2 hne
        refine ⟨rfl, (h.parent a List.mem_cons_self haout).trans hpar, ?_, ?_⟩
        · rw [hnew]
          exact ihl (h.mono hinl) hleft hnl hbl
        · rw [(h.right a List.mem_cons_self haout).2 hright', delete_of_notMem hbr]
          exact (h.mono hinr).keep hright hnr fun x hx hmem => hdisj x (hbelow x hmem) x hx rfl
      · have hbelow := hsub hright hnr hbr
        have haout : a ∉ nodes (.node b l r) := fun hmem => ha.2 (hbelow a hmem)
        have hbl : b ∉ nodes tl := fun hbl => hdisj b hbl b hbr rfl
        have hleft' : m.left a ≠ some b :=
          fun hroot => hbl (root?_mem (hleft.root.symm.trans hroot))
        have hnew : m'.right a = if m.right a = some b then rep else m.right a := by
          split
          · next heq => exact (h.right a List.mem_cons_self haout).1 heq
          · next hne => exact (h.right a List.mem_cons_self haout).2 hne
        refine ⟨rfl, (h.parent a List.mem_cons_self haout).trans hpar, ?_, ?_⟩
        · rw [(h.left a List.mem_cons_self haout).2 hleft', delete_of_notMem hbl]
          exact (h.mono hinl).keep hleft hnl fun x hx hmem => hdisj x hx x (hbelow x hmem) rfl
        · rw [hnew]
          exact ihr (h.mono hinr) hright hnr hbr

/-- `skew_heap_remove` on a heap whose top has no parent. -/
theorem skewHeapRemove_spec [DecidableEq α] {comp : α → α → Int} {fuel : Nat}
    (ht : Mirror m p none t) (hnodup : (nodes t).Nodup) (hb : b ∈ nodes t)
    (hfuel : t.numNodes < fuel) :
    ∃ q m', skewHeapRemove comp fuel p b m = some (q, m') ∧
      Mirror m' q none (delete (skewLe comp) b t) := by
  obtain ⟨l, r, hloc⟩ := ht.locate hnodup hb
  have hsize : l.numNodes + r.numNodes < fuel := by
    have hlen := hloc.sub.length_le
    rw [length_nodes, length_nodes, numNodes] at hlen
    omega
  obtain ⟨hbout, hlr⟩ := List.nodup_cons.mp (hnodup.sublist hloc.sub)
  obtain ⟨rep, m₁, hmerge, ⟨pr, _, htop⟩, hsame⟩ :=
    @skewHeapMerge_spec _ _ comp _ _ _ _ _ _ _ fuel hloc.left hloc.right hlr hsize
  have hnewdup : (nodes (merge (skewLe comp) l r)).Nodup := (nodes_merge l r).nodup_iff.mpr hlr
  have hrep : ∀ x ∉ nodes (.node b l r), rep ≠ some x := by
    intro x hx heq
    have hin := mem_nodes_merge.mp (root?_mem (htop.root.symm.trans heq))
    exact hx (List.mem_cons_of_mem b (List.mem_append.mpr hin))
  set m₂ := setParentOf rep (m.parent b) m₁ with hm₂
  have htop₂ : Mirror m₂ rep (m.parent b) (merge (skewLe comp) l r) :=
    htop.setParentOf hnewdup _
  have hkept : ∀ x ∉ nodes (.node b l r), SameAt m m₂ x := by
    intro x hx
    refine (hsame x fun hin => hx (List.mem_cons_of_mem b hin)).trans (setParentOf_same (hrep x hx))
  rcases hloc.place with ⟨rfl, hparent⟩ | ⟨hne, y, hy, hout, hparent, hchild⟩
  · -- `b` is the top of the heap: what is left of it is the merge of its subtrees
    refine ⟨rep, m₂, ?_, ?_⟩
    · rw [skewHeapRemove, hmerge]
      simp only [hparent, hm₂]
    · have hsplice : Splices m m₂ t b l r rep (merge (skewLe comp) l r) := by
        have hnone : ∀ x ∈ nodes t, ¬ (m.left x = some b ∨ m.right x = some b) := by
          intro x hx hchild
          have hback := (ht.child hnodup hx hchild).2
          rw [hparent] at hback
          cases hback
        exact ⟨htop₂, fun x _ hx => (hkept x hx).1,
          fun x hin hx => ⟨fun heq => absurd (Or.inl heq) (hnone x hin), fun _ => (hkept x hx).2.1⟩,
          fun x hin hx => ⟨fun heq => absurd (Or.inr heq) (hnone x hin), fun _ => (hkept x hx).2.2⟩⟩
      simpa using hsplice.mirror ht hnodup hb hloc.left hloc.right
  · -- `b` is a child of `y`, which the merge has not touched
    have honly : ∀ x ∈ nodes t, m.left x = some b ∨ m.right x = some b → x = y := by
      intro x hx hchild
      exact Option.some.inj ((ht.child hnodup hx hchild).2.symm.trans hparent)
    have hsub : ∀ x ∈ nodes (merge (skewLe comp) l r), x ≠ y := by
      intro x hx heq
      exact hout (List.mem_cons_of_mem b (List.mem_append.mpr (mem_nodes_merge.mp (heq ▸ hx))))
    have hleft₂ : m₂.left y = m.left y := (hkept y hout).2.1
    have hother : p = if p = some b then rep else p := by rw [if_neg hne]
    -- the subtree that replaces `b` is hung below `y`, on the side where `b` was
    by_cases hleft : m.left y = some b
    · refine ⟨p, m₂.setLeft y rep, ?_, ?_⟩
      · rw [skewHeapRemove, hmerge]
        simp only [hparent]
        rw [← hparent, ← hm₂, hleft₂, if_pos hleft]
      · have hright := ht.left_ne_right hnodup hy hleft
        have hsplice : Splices m (m₂.setLeft y rep) t b l r rep (merge (skewLe comp) l r) := by
          refine ⟨htop₂.congr fun x hx => by simp [SameAt, hsub x hx], fun x _ hx => (hkept x hx).1,
            fun x hin hx => ⟨fun heq => ?_, fun hne => ?_⟩, fun x hin hx =>
              ⟨fun heq => ?_, fun hne => ?_⟩⟩
          · rw [honly x hin (Or.inl heq), Entries.setLeft_left, if_pos rfl]
          · have hxy : x ≠ y := fun heq => hne (heq ▸ hleft)
            rw [Entries.setLeft_left, if_neg hxy]
            exact (hkept x hx).2.1
          · exact absurd (honly x hin (Or.inr heq) ▸ heq) hright
          · exact (hkept x hx).2.2
        rw [hother]
        exact hsplice.mirror ht hnodup hb hloc.left hloc.right
    · have hright : m.right y = some b := hchild.resolve_left hleft
      refine ⟨p, m₂.setRight y rep, ?_, ?_⟩
      · rw [skewHeapRemove, hmerge]
        simp only [hparent]
        rw [← hparent, ← hm₂, hleft₂, if_neg hleft]
      · have hsplice : Splices m (m₂.setRight y rep) t b l r rep (merge (skewLe comp) l r) := by
          refine ⟨htop₂.congr fun x hx => by simp [SameAt, hsub x hx], fun x _ hx => (hkept x hx).1,
            fun x hin hx => ⟨fun heq => ?_, fun hne => ?_⟩, fun x hin hx =>
              ⟨fun heq => ?_, fun hne => ?_⟩⟩
          · exact absurd (honly x hin (Or.inl heq) ▸ heq) hleft
          · exact (hkept x hx).2.1
          · rw [honly x hin (Or.inr heq), Entries.setRight_right, if_pos rfl]
          · have hxy : x ≠ y := fun heq => hne (heq ▸ hright)
            rw [Entries.setRight_right, if_neg hxy]
            exact (hkept x hx).2.2
        rw [hother]
        exact hsplice.mirror ht hnodup hb hloc.left hloc.right

end Remove

/-! ## Sequences of operations -/

/-- The comparison functions that stand for a total preorder. They answer -1, 0 or 1, as those that
the schedulers pass do. -/
structure Compare (comp : α → α → Int) : Prop where
  range : ∀ x y, comp x y = -1 ∨ comp x y = 0 ∨ comp x y = 1
  symm : ∀ x y, comp y x = -comp x y
  trans : ∀ x y z, comp x y ≤ 0 → comp y z ≤ 0 → comp x z ≤ 0

namespace Compare

variable {comp : α → α → Int}

theorem skewLe_iff (h : Compare comp) (x y : α) : skewLe comp x y ↔ comp x y ≤ 0 := by
  rw [skewLe, h.symm x y]
  have hrange := h.range x y
  omega

theorem isTrans (h : Compare comp) : IsTrans α (skewLe comp) := by
  refine ⟨fun x y z hxy hyz => ?_⟩
  rw [h.skewLe_iff] at hxy hyz ⊢
  exact h.trans x y z hxy hyz

theorem total (h : Compare comp) : Std.Total (skewLe comp) := by
  refine ⟨fun x y => ?_⟩
  rw [h.skewLe_iff, h.skewLe_iff, h.symm x y]
  omega

end Compare

inductive Op (α : Type*)
  | insert (b : α)
  | remove (b : α)

section Ops

variable [DecidableEq α]

/-- One operation on the heap at `root`. -/
def runOp (comp : α → α → Int) (fuel : Nat) (root : Option α) (m : Entries α) :
    Op α → Option (Option α × Entries α)
  | .insert b => skewHeapInsert comp fuel root b m
  | .remove b => skewHeapRemove comp fuel root b m

def runOps (comp : α → α → Int) (fuel : Nat) :
    List (Op α) → Option α → Entries α → Option (Option α × Entries α)
  | [], root, m => some (root, m)
  | op :: ops, root, m =>
      match runOp comp fuel root m op with
      | none => none
      | some (root, m) => runOps comp fuel ops root m

/-- The members after an operation. -/
def membersAfter (members : Finset α) : Op α → Finset α
  | .insert b => insert b members
  | .remove b => members.erase b

/-- Nodes are inserted that are not members, and members are removed, as `skew_heap.h` leaves it to
its callers to see to. -/
def LegalOps : Finset α → List (Op α) → Prop
  | _, [] => True
  | members, .insert b :: ops => b ∉ members ∧ LegalOps (insert b members) ops
  | members, .remove b :: ops => b ∈ members ∧ LegalOps (members.erase b) ops

end Ops

/-- A heap in memory: the links form a tree of exactly the members, parent pointers
mirror child pointers, no child compares less than its parent, and the root has no
parent and compares no greater than any member. -/
structure IsHeap (comp : α → α → Int) (root : Option α) (m : Entries α) (members : Finset α) :
    Prop where
  tree : ∃ t, Mirror m root none t ∧ (nodes t).Nodup ∧ (∀ x, x ∈ nodes t ↔ x ∈ members) ∧
    Ordered (fun x y => comp y x ≠ -1) t
  root_parent : ∀ x, root = some x → m.parent x = none
  root_least : ∀ x, root = some x → ∀ y ∈ members, comp x y ≤ 0

section Runs

variable {comp : α → α → Int} {root : Option α} {m : Entries α} {members : Finset α}
  {t : BinaryTree α}

theorem IsHeap.of_tree (hcomp : Compare comp) (hmirror : Mirror m root none t)
    (hnodup : (nodes t).Nodup) (hmembers : ∀ x, x ∈ nodes t ↔ x ∈ members)
    (hordered : Ordered (skewLe comp) t) : IsHeap comp root m members := by
  have htrans := hcomp.isTrans
  have htotal := hcomp.total
  have hrefl : Std.Refl (skewLe comp) := inferInstance
  refine ⟨⟨t, hmirror, hnodup, hmembers, hordered⟩, ?_, ?_⟩
  · rintro x rfl
    cases t with
    | nil => cases hmirror
    | node a l r =>
        obtain rfl := Option.some.inj hmirror.1
        exact hmirror.2.1
  · rintro x rfl y hy
    rw [← hcomp.skewLe_iff]
    exact hordered.root_le hmirror.root.symm y ((hmembers y).mpr hy)

variable [DecidableEq α]

/-- The tree of a heap has as many nodes as the heap has members. -/
theorem numNodes_eq (hnodup : (nodes t).Nodup) (hmembers : ∀ x, x ∈ nodes t ↔ x ∈ members) :
    t.numNodes = members.card := by
  have heq : (nodes t).toFinset = members := by
    ext x
    rw [List.mem_toFinset, hmembers]
  rw [← heq, List.toFinset_card_of_nodup hnodup, length_nodes]

theorem IsHeap.insert (hcomp : Compare comp) (h : IsHeap comp root m members) {b : α}
    (hb : b ∉ members) {fuel : Nat} (hfuel : members.card + 1 < fuel) :
    ∃ root' m', skewHeapInsert comp fuel root b m = some (root', m') ∧
      IsHeap comp root' m' (insert b members) := by
  have htotal := hcomp.total
  obtain ⟨t, hmirror, hnodup, hmembers, hordered⟩ := h.tree
  have hsize := numNodes_eq hnodup hmembers
  have hbt : b ∉ nodes t := fun hmem => hb ((hmembers b).mp hmem)
  have hkept : Mirror (skewHeapInit b m) root none t := by
    apply hmirror.congr
    intro x hx
    have hne : x ≠ b := ne_of_mem_of_not_mem hx hbt
    simp [SameAt, skewHeapInit, hne]
  have hnew : Mirror (skewHeapInit b m) (some b) none (.node b .nil .nil) := by
    simp [Mirror, skewHeapInit]
  have hdup : (nodes t ++ nodes (.node b .nil .nil)).Nodup := by
    refine List.nodup_append.mpr ⟨hnodup, by simp [nodes], ?_⟩
    intro x hx y hy
    obtain rfl : y = b := by simpa [nodes] using hy
    exact ne_of_mem_of_not_mem hx hbt
  obtain ⟨root', m', hmerge, ⟨pr, hpr, htop⟩, _⟩ :=
    @skewHeapMerge_spec _ _ comp _ _ _ _ _ _ _ fuel hkept hnew hdup (by simp only [numNodes]; omega)
  obtain rfl : pr = none := or_self_iff.mp hpr
  refine ⟨root', m', hmerge, IsHeap.of_tree hcomp htop ((nodes_merge _ _).nodup_iff.mpr hdup) ?_ ?_⟩
  · intro x
    rw [mem_nodes_merge, hmembers, Finset.mem_insert]
    simp [nodes, or_comm]
  · exact merge_ordered hordered (by simp [Ordered, root?])

theorem IsHeap.remove (hcomp : Compare comp) (h : IsHeap comp root m members) {b : α}
    (hb : b ∈ members) {fuel : Nat} (hfuel : members.card < fuel) :
    ∃ root' m', skewHeapRemove comp fuel root b m = some (root', m') ∧
      IsHeap comp root' m' (members.erase b) := by
  have htrans := hcomp.isTrans
  have htotal := hcomp.total
  obtain ⟨t, hmirror, hnodup, hmembers, hordered⟩ := h.tree
  have hsize := numNodes_eq hnodup hmembers
  obtain ⟨root', m', hremove, htop⟩ :=
    @skewHeapRemove_spec _ _ _ _ _ _ comp fuel hmirror hnodup ((hmembers b).mpr hb) (by omega)
  have hperm : (nodes (delete (skewLe comp) b t)).Perm ((nodes t).erase b) := nodes_delete hnodup
  refine ⟨root', m', hremove, IsHeap.of_tree hcomp htop (hperm.nodup_iff.mpr (hnodup.erase b)) ?_
    (delete_ordered hordered)⟩
  intro x
  rw [hperm.mem_iff, hnodup.mem_erase_iff, hmembers, Finset.mem_erase]

/-! ## More nested calls than needed change nothing -/

theorem skewHeapMerge_mono {fuel fuel' : Nat} {a b : Option α} {r : Option α × Entries α}
    (hle : fuel ≤ fuel') (hmerge : skewHeapMerge comp fuel a b m = some r) :
    skewHeapMerge comp fuel' a b m = some r := by
  induction fuel generalizing fuel' a b r with
  | zero => cases hmerge
  | succ fuel ih =>
      obtain ⟨fuel', rfl⟩ : ∃ k, fuel' = k + 1 := ⟨fuel' - 1, by omega⟩
      have hle : fuel ≤ fuel' := Nat.le_of_succ_le_succ hle
      cases a with
      | none => exact hmerge
      | some a =>
          cases b with
          | none => exact hmerge
          | some b =>
              rw [skewHeapMerge] at hmerge ⊢
              split at hmerge
              · next hcomp =>
                  rw [if_pos hcomp]
                  cases hnested : skewHeapMerge comp fuel (m.right a) (some b) m with
                  | none =>
                      rw [hnested] at hmerge
                      cases hmerge
                  | some res =>
                      rw [hnested] at hmerge
                      rw [ih hle hnested]
                      exact hmerge
              · next hcomp =>
                  rw [if_neg hcomp]
                  cases hnested : skewHeapMerge comp fuel (some a) (m.right b) m with
                  | none =>
                      rw [hnested] at hmerge
                      cases hmerge
                  | some res =>
                      rw [hnested] at hmerge
                      rw [ih hle hnested]
                      exact hmerge

theorem skewHeapRemove_mono {fuel fuel' : Nat} {b : α} {r : Option α × Entries α}
    (hle : fuel ≤ fuel') (hremove : skewHeapRemove comp fuel root b m = some r) :
    skewHeapRemove comp fuel' root b m = some r := by
  rw [skewHeapRemove] at hremove ⊢
  cases hmerge : skewHeapMerge comp fuel (m.left b) (m.right b) m with
  | none =>
      rw [hmerge] at hremove
      cases hremove
  | some res =>
      rw [hmerge] at hremove
      rw [skewHeapMerge_mono hle hmerge]
      exact hremove

/-- Every run of legal operations on a heap. -/
theorem IsHeap.runOps (hcomp : Compare comp) {ops : List (Op α)} (h : IsHeap comp root m members)
    (hlegal : LegalOps members ops) :
    ∃ root' m', (∀ fuel, members.card + ops.length < fuel →
        SkewHeap.runOps comp fuel ops root m = some (root', m')) ∧
      IsHeap comp root' m' (ops.foldl membersAfter members) := by
  induction ops generalizing root m members with
  | nil => exact ⟨root, m, fun _ _ => rfl, h⟩
  | cons op ops ih =>
      cases op with
      | insert b =>
          obtain ⟨hb, hrest⟩ := hlegal
          obtain ⟨root₁, m₁, hone, h₁⟩ := h.insert hcomp hb (Nat.lt_succ_self _)
          obtain ⟨root', m', hrun, h'⟩ := ih h₁ hrest
          refine ⟨root', m', fun fuel hfuel => ?_, h'⟩
          rw [List.length_cons] at hfuel
          have hcard := Finset.card_insert_of_notMem hb
          rw [SkewHeap.runOps, runOp, skewHeapInsert, skewHeapMerge_mono (by omega) hone]
          exact hrun fuel (by omega)
      | remove b =>
          obtain ⟨hb, hrest⟩ := hlegal
          obtain ⟨root₁, m₁, hone, h₁⟩ := h.remove hcomp hb (Nat.lt_succ_self _)
          obtain ⟨root', m', hrun, h'⟩ := ih h₁ hrest
          refine ⟨root', m', fun fuel hfuel => ?_, h'⟩
          rw [List.length_cons] at hfuel
          have hcard := Finset.card_erase_le (a := b) (s := members)
          rw [SkewHeap.runOps, runOp, skewHeapRemove_mono (by omega) hone]
          exact hrun fuel (by omega)

/-- Every sequence of insertions and removals turns a heap into a heap of the members
that are then left, and any two heaps can be merged; both with a bound on the
nested calls of `skew_heap_merge`. -/
theorem skewHeap_correct (hcomp : Compare comp) :
    (∀ (ops : List (Op α)) (root : Option α) (m : Entries α) (members : Finset α),
      IsHeap comp root m members → LegalOps members ops →
        ∃ root' m', (∀ fuel, members.card + ops.length < fuel →
            runOps comp fuel ops root m = some (root', m')) ∧
          IsHeap comp root' m' (ops.foldl membersAfter members)) ∧
    (∀ (m : Entries α) (a b pa pb : Option α) (s t : BinaryTree α), Mirror m a pa s →
      Mirror m b pb t →
      ∀ fuel, s.numNodes + t.numNodes < fuel → ∃ r, skewHeapMerge comp fuel a b m = some r) :=
  ⟨fun _ _ _ _ h hlegal => h.runOps hcomp hlegal,
    fun _ _ _ _ _ _ _ hs ht _ hfuel => skewHeapMerge_terminates hs ht hfuel⟩

/-- The comparison of numbers. -/
def compareNat (x y : Nat) : Int := ((x : Int) - y).sign

theorem compareNat_compare : Compare compareNat := by
  refine ⟨fun x y => ?_, fun x y => ?_, fun x y z => ?_⟩
  · have htri := Int.sign_trichotomy ((x : Int) - y)
    unfold compareNat
    tauto
  · rw [compareNat, compareNat, ← Int.sign_neg, Int.neg_sub]
  · unfold compareNat
    simp only [Int.sign_nonpos_iff]
    omega

/-- Three numbers are put into an empty heap and one of them is taken out again. -/
theorem skewHeap_correct_numbers :
    ∃ root m, (∀ fuel, 4 < fuel →
      runOps compareNat fuel [.insert 2, .insert 1, .insert 3, .remove 2]
        none ⟨fun _ => none, fun _ => none, fun _ => none⟩ = some (root, m)) ∧
      IsHeap compareNat root m {1, 3} := by
  have hempty : IsHeap compareNat none ⟨fun _ => none, fun _ => none, fun _ => none⟩ ∅ := by
    refine ⟨⟨.nil, rfl, List.nodup_nil, by simp [nodes], trivial⟩, ?_, ?_⟩
    · intro x hx
      cases hx
    · intro x hx
      cases hx
  obtain ⟨root, m, hrun, hheap⟩ := (skewHeap_correct compareNat_compare).1
    [.insert 2, .insert 1, .insert 3, .remove 2] _ _ ∅ hempty (by simp [LegalOps])
  have hmembers : [Op.insert 2, .insert 1, .insert 3, .remove 2].foldl membersAfter ∅ = {1, 3} := by
    decide
  exact ⟨root, m, fun fuel hfuel => hrun fuel (by simpa using hfuel), hmembers ▸ hheap⟩

end Runs

end Ucore.SkewHeap
