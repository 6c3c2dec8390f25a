import Mathlib.Data.List.Chain
import Mathlib.Data.List.Nodup
import Mathlib.Logic.Function.Basic

/-!
# Circular doubly linked lists

The links of a list live outside its nodes, as two functions on an arbitrary
type of node addresses. `Links.Ring` describes a whole circular list through
its header; the rules say what the two link surgeries, splicing a node in and
bridging one out, do to a ring.
-/

namespace Ucore

/-- The `prev` and `next` pointers of every node. -/
@[ext] structure Links (α : Type*) where
  prev : α → α
  next : α → α

namespace Links

variable {α : Type*}

/-- The same list read backwards. -/
def reverse (l : Links α) : Links α := ⟨l.next, l.prev⟩

/-- `x` and `y` are neighbours, in both directions. -/
def Joined (l : Links α) (x y : α) : Prop := l.next x = y ∧ l.prev y = x

/-- `xs` is the circular list with header `h`, the header itself left out. Both links of each entry
lead to its neighbours, and no entry comes twice. -/
structure Ring (l : Links α) (h : α) (xs : List α) : Prop where
  chain : (h :: xs ++ [h]).IsChain l.Joined
  nodup : (h :: xs).Nodup

theorem ring_nil_iff {l : Links α} {h : α} : l.Ring h [] ↔ l.next h = h ∧ l.prev h = h := by
  constructor
  · intro hring
    exact (List.isChain_cons_cons.mp hring.chain).1
  · intro hjoin
    exact ⟨List.isChain_pair.mpr hjoin, List.nodup_singleton h⟩

/-- Following `step` from a node until `stop` is reached visits exactly the list. -/
def Visits (step : α → α) (stop : α) : α → List α → Prop
  | a, [] => step a = stop
  | a, x :: xs => step a = x ∧ x ≠ stop ∧ Visits step stop x xs

/-- A walk is determined by its start. -/
theorem Visits.unique {step : α → α} {stop a : α} {xs ys : List α}
    (hxs : Visits step stop a xs) (hys : Visits step stop a ys) : xs = ys := by
  induction xs generalizing a ys with
  | nil =>
      cases ys with
      | nil => rfl
      | cons y ys => exact absurd (hys.1.symm.trans hxs) hys.2.1
  | cons x xs ih =>
      cases ys with
      | nil => exact absurd (hxs.1.symm.trans hys) hxs.2.1
      | cons y ys =>
          obtain rfl : x = y := hxs.1.symm.trans hys.1
          rw [ih hxs.2.2 hys.2.2]

/-- A walk that enters a node which is its own successor never ends. -/
theorem Visits.not_of_fixed {step : α → α} {stop a : α} {xs : List α}
    (hfixed : step a = a) (hne : a ≠ stop) : ¬ Visits step stop a xs := by
  induction xs with
  | nil =>
      intro hwalk
      exact hne (hfixed.symm.trans hwalk)
  | cons x xs ih =>
      intro hwalk
      obtain rfl : x = a := hwalk.1.symm.trans hfixed
      exact ih hwalk.2.2

theorem visits_of_chain {l : Links α} {a h : α} {xs : List α}
    (hchain : (a :: xs ++ [h]).IsChain l.Joined) (hh : h ∉ xs) : Visits l.next h a xs := by
  induction xs generalizing a with
  | nil => simpa [Visits] using (List.isChain_cons_cons.mp hchain).1.1
  | cons x xs ih =>
      rw [List.mem_cons, not_or] at hh
      obtain ⟨hjoin, htail⟩ := List.isChain_cons_cons.mp hchain
      exact ⟨hjoin.1, Ne.symm hh.1, ih htail hh.2⟩

theorem Ring.reverse {l : Links α} {h : α} {xs : List α} (hring : l.Ring h xs) :
    l.reverse.Ring h xs.reverse := by
  constructor
  · have hchain := List.isChain_reverse.mpr hring.chain
    simp only [List.reverse_append, List.reverse_cons, List.reverse_nil, List.nil_append,
      List.singleton_append] at hchain
    exact hchain.imp fun x y hjoin => ⟨hjoin.2, hjoin.1⟩
  · have hnodup := hring.nodup
    rw [List.nodup_cons] at hnodup ⊢
    exact ⟨by simpa using hnodup.1, List.nodup_reverse.mpr hnodup.2⟩

/-- Following `next` from the header of a ring visits its nodes in order. -/
theorem Ring.visits_next {l : Links α} {h : α} {xs : List α} (hring : l.Ring h xs) :
    Visits l.next h h xs :=
  visits_of_chain hring.chain (List.nodup_cons.mp hring.nodup).1

/-- Following `prev` visits them in the reverse order. -/
theorem Ring.visits_prev {l : Links α} {h : α} {xs : List α} (hring : l.Ring h xs) :
    Visits l.prev h h xs.reverse :=
  hring.reverse.visits_next

/-- The node after the part `us` of a ring. -/
theorem Ring.joined {l : Links α} {h : α} {xs ys : List α} (hring : l.Ring h (xs ++ ys)) :
    l.Joined ((h :: xs).getLast (List.cons_ne_nil h xs)) ((ys ++ [h]).head (by simp)) := by
  have hchain := hring.chain
  rw [← List.cons_append, List.append_assoc, List.isChain_append] at hchain
  exact hchain.2.2 _ (List.getLast?_eq_getLast_of_ne_nil _ ▸ rfl) _
    (List.head?_eq_some_head _ ▸ rfl)

theorem Ring.joined_mem {l : Links α} {h x y : α} {xs ys : List α}
    (hring : l.Ring h (xs ++ x :: y :: ys)) : l.Joined x y := by
  have hsplit : l.Ring h ((xs ++ [x]) ++ y :: ys) := by simpa using hring
  simpa using hsplit.joined

theorem Ring.joined_last {l : Links α} {h x : α} {xs : List α} (hring : l.Ring h (xs ++ [x])) :
    l.Joined x h := by
  have hsplit : l.Ring h ((xs ++ [x]) ++ []) := by simpa using hring
  simpa using hsplit.joined

theorem Ring.joined_first {l : Links α} {h x : α} {xs : List α} (hring : l.Ring h (x :: xs)) :
    l.Joined h x := by
  have hsplit : l.Ring h ([] ++ x :: xs) := hring
  simpa using hsplit.joined

/-- The ring read from another of its nodes. -/
theorem Ring.rotate {l : Links α} {h e : α} {xs ys : List α} (hring : l.Ring h (xs ++ e :: ys)) :
    l.Ring e (ys ++ h :: xs) := by
  constructor
  · have hchain := hring.chain
    have hsplit : h :: (xs ++ e :: ys) ++ [h] = (h :: xs ++ [e]) ++ (ys ++ [h]) := by simp
    have hgoal : e :: (ys ++ h :: xs) ++ [e] = (e :: ys ++ [h]) ++ (xs ++ [e]) := by simp
    have hback : (e :: ys ++ [h]).IsChain l.Joined := by
      have hsplit' : h :: (xs ++ e :: ys) ++ [h] = (h :: xs) ++ (e :: ys ++ [h]) := by simp
      rw [hsplit', List.isChain_append] at hchain
      exact hchain.2.1
    rw [hsplit, List.isChain_append] at hchain
    have hfront := hchain.1
    rw [hgoal, List.isChain_append]
    rw [List.cons_append, List.isChain_cons] at hfront
    refine ⟨hback, hfront.2, fun x hx y hy => ?_⟩
    simp only [List.getLast?_append, List.getLast?_singleton, Option.some_or,
      Option.mem_some_iff] at hx
    subst hx
    exact hfront.1 y hy
  · have hperm : (h :: (xs ++ e :: ys)).Perm (e :: (ys ++ h :: xs)) := by
      rw [← List.cons_append, ← List.cons_append]
      exact List.perm_append_comm
    exact hperm.nodup_iff.mp hring.nodup

variable [DecidableEq α]

def setNext (l : Links α) (a b : α) : Links α := { l with next := Function.update l.next a b }

def setPrev (l : Links α) (a b : α) : Links α := { l with prev := Function.update l.prev a b }

@[simp] theorem setNext_next (l : Links α) (a b x : α) :
    (l.setNext a b).next x = if x = a then b else l.next x := by
  simp [setNext, Function.update_apply]

@[simp] theorem setNext_prev (l : Links α) (a b x : α) : (l.setNext a b).prev x = l.prev x := rfl

@[simp] theorem setPrev_prev (l : Links α) (a b x : α) :
    (l.setPrev a b).prev x = if x = a then b else l.prev x := by
  simp [setPrev, Function.update_apply]

@[simp] theorem setPrev_next (l : Links α) (a b x : α) : (l.setPrev a b).next x = l.next x := rfl

/-- Put `e` between `p` and `n`. -/
def splice (l : Links α) (e p n : α) : Links α :=
  (((l.setPrev n e).setNext p e).setNext e n).setPrev e p

/-- Make `p` and `n` neighbours. -/
def bridge (l : Links α) (p n : α) : Links α := (l.setNext p n).setPrev n p

omit [DecidableEq α] in
/-- A chain survives a change of links that its own neighbours do not use. -/
theorem chain_congr {l m : Links α} {xs : List α} (hchain : xs.IsChain l.Joined)
    (hnext : ∀ x ∈ xs.dropLast, m.next x = l.next x)
    (hprev : ∀ x ∈ xs.tail, m.prev x = l.prev x) : xs.IsChain m.Joined := by
  induction xs with
  | nil => exact List.isChain_nil
  | cons x xs ih =>
      cases xs with
      | nil => exact List.isChain_singleton x
      | cons y ys =>
          obtain ⟨hjoin, htail⟩ := List.isChain_cons_cons.mp hchain
          refine List.isChain_cons_cons.mpr ⟨⟨?_, ?_⟩, ih htail ?_ ?_⟩
          · rw [hnext x (by simp)]
            exact hjoin.1
          · rw [hprev y (by simp)]
            exact hjoin.2
          · intro z hz
            exact hnext z (by rw [List.dropLast_cons_cons]; exact List.mem_cons_of_mem x hz)
          · intro z hz
            exact hprev z (List.mem_of_mem_tail hz)

omit [DecidableEq α] in
theorem not_mem_dropLast_getLast {xs : List α} (hnodup : xs.Nodup) (hne : xs ≠ []) :
    xs.getLast hne ∉ xs.dropLast := by
  intro hmem
  rw [← List.dropLast_append_getLast hne, List.nodup_append] at hnodup
  exact hnodup.2.2 _ hmem _ (List.mem_singleton_self _) rfl

omit [DecidableEq α] in
theorem Ring.cut {l : Links α} {h : α} {xs ys : List α} (hring : l.Ring h (xs ++ ys)) :
    (h :: xs).IsChain l.Joined ∧ (ys ++ [h]).IsChain l.Joined := by
  have hchain := hring.chain
  rw [← List.cons_append, List.append_assoc, List.isChain_append] at hchain
  exact ⟨hchain.1, hchain.2.1⟩

omit [DecidableEq α] in
/-- Both halves of a cut ring stay chains when only the forward link of the
last node before the cut and the backward link of the first node after it
change. -/
theorem chain_halves {l m : Links α} {h : α} {xs ys : List α}
    (hchain : (h :: xs).IsChain l.Joined ∧ (ys ++ [h]).IsChain l.Joined)
    (hnodup : (h :: (xs ++ ys)).Nodup)
    (hnext : ∀ x ∈ h :: (xs ++ ys), x ≠ (h :: xs).getLast (List.cons_ne_nil h xs) →
      m.next x = l.next x)
    (hprev : ∀ x ∈ h :: (xs ++ ys), x ≠ (ys ++ [h]).head (by simp) → m.prev x = l.prev x) :
    (h :: xs).IsChain m.Joined ∧ (ys ++ [h]).IsChain m.Joined := by
  obtain ⟨hhead, hbody⟩ := List.nodup_cons.mp hnodup
  obtain ⟨hxs, hys, hdisj⟩ := List.nodup_append.mp hbody
  have hfront : (h :: xs).Nodup := hnodup.sublist (by simp)
  constructor
  · refine chain_congr hchain.1 ?_ ?_
    · intro x hx
      have hmem : x ∈ h :: xs := (List.dropLast_sublist _).mem hx
      refine hnext x (by simp at hmem ⊢; tauto) ?_
      rintro rfl
      exact not_mem_dropLast_getLast hfront _ hx
    · intro x hx
      refine hprev x (List.mem_cons_of_mem h (List.mem_append_left ys hx)) ?_
      rintro rfl
      have hmem : (ys ++ [h]).head (by simp) ∈ ys ++ [h] := List.head_mem _
      rcases List.mem_append.mp hmem with hmem | hmem
      · exact hdisj _ hx _ hmem rfl
      · rw [List.mem_singleton] at hmem
        exact hhead (hmem ▸ List.mem_append_left ys hx)
  · refine chain_congr hchain.2 ?_ ?_
    · intro x hx
      rw [List.dropLast_concat] at hx
      refine hnext x (List.mem_cons_of_mem h (List.mem_append_right xs hx)) ?_
      rintro rfl
      have hmem : (h :: xs).getLast (List.cons_ne_nil h xs) ∈ h :: xs := List.getLast_mem _
      rcases List.mem_cons.mp hmem with hmem | hmem
      · exact hhead (hmem ▸ List.mem_append_right xs hx)
      · exact hdisj _ hmem _ hx rfl
    · intro x hx
      cases ys with
      | nil => simp at hx
      | cons y ys =>
          simp only [List.cons_append, List.tail_cons] at hx
          refine hprev x (by simp at hx ⊢; tauto) ?_
          rintro rfl
          simp only [List.mem_append, List.mem_singleton] at hx
          rcases hx with hx | hx
          · exact (List.nodup_cons.mp hys).1 hx
          · exact hhead (by simp [← hx])

omit [DecidableEq α] in
/-- A ring survives changes of links of other nodes. -/
theorem Ring.congr {l m : Links α} {h : α} {xs : List α} (hring : l.Ring h xs)
    (hsame : ∀ x ∈ h :: xs, m.next x = l.next x ∧ m.prev x = l.prev x) : m.Ring h xs := by
  have hmem : ∀ x, x ∈ h :: xs ++ [h] → x ∈ h :: xs := by
    intro x hx
    simp at hx ⊢
    tauto
  refine ⟨chain_congr hring.chain (fun x hx => ?_) fun x hx => ?_, hring.nodup⟩
  · exact (hsame x (hmem x ((List.dropLast_sublist _).mem hx))).1
  · exact (hsame x (hmem x (List.mem_of_mem_tail hx))).2

omit [DecidableEq α] in
/-- The neighbours of a node of a ring belong to it. -/
theorem Ring.neighbours_mem {l : Links α} {h x : α} {xs : List α} (hring : l.Ring h xs)
    (hx : x ∈ h :: xs) : l.next x ∈ h :: xs ∧ l.prev x ∈ h :: xs := by
  have hnext : ∀ {l : Links α} {xs : List α}, l.Ring h xs → x ∈ h :: xs → l.next x ∈ h :: xs := by
    intro l xs hring hx
    obtain ⟨us, vs, hsplit⟩ := List.append_of_mem hx
    have hchain := hring.chain
    rw [hsplit, List.append_assoc, List.cons_append, List.isChain_append] at hchain
    cases vs with
    | nil =>
        have hlast := (List.isChain_cons_cons.mp hchain.2.1).1.1
        exact hlast ▸ List.mem_cons_self
    | cons v vs =>
        have hstep := (List.isChain_cons_cons.mp hchain.2.1).1.1
        rw [hsplit, hstep]
        simp
  refine ⟨hnext hring hx, ?_⟩
  have hback := hnext hring.reverse (by simpa using hx)
  simpa [Links.reverse] using hback

omit [DecidableEq α] in
/-- A walk from the header of a ring does not leave it. -/
theorem Ring.iterate_next_mem {l : Links α} {h : α} {xs : List α} (hring : l.Ring h xs) (k : Nat) :
    l.next^[k] h ∈ h :: xs := by
  induction k with
  | zero => exact List.mem_cons_self
  | succ k ih =>
      rw [Function.iterate_succ_apply']
      exact (hring.neighbours_mem ih).1

/-- Splicing a new node between two neighbours of a ring. -/
theorem Ring.splice {l : Links α} {h e : α} {xs ys : List α} (hring : l.Ring h (xs ++ ys))
    (hnew : e ∉ h :: (xs ++ ys)) :
    (l.splice e ((h :: xs).getLast (List.cons_ne_nil h xs)) ((ys ++ [h]).head (by simp))).Ring h
      (xs ++ e :: ys) := by
  set p := (h :: xs).getLast (List.cons_ne_nil h xs) with hp
  set n := (ys ++ [h]).head (by simp) with hn
  have hpmem : p ∈ h :: xs := List.getLast_mem _
  have hnmem : n ∈ ys ++ [h] := List.head_mem _
  have hpe : p ≠ e := ne_of_mem_of_not_mem (by simp at hpmem ⊢; tauto) hnew
  have hne : n ≠ e := ne_of_mem_of_not_mem (by simp at hnmem ⊢; tauto) hnew
  obtain ⟨hfront, hback⟩ := chain_halves (m := l.splice e p n) hring.cut hring.nodup
    (fun x hx hxp => by
      simp only [Links.splice, setPrev_next, setNext_next,
        if_neg (ne_of_mem_of_not_mem hx hnew), if_neg (hp ▸ hxp)])
    (fun x hx hxn => by
      simp only [Links.splice, setPrev_prev, setNext_prev,
        if_neg (ne_of_mem_of_not_mem hx hnew), if_neg (hn ▸ hxn)])
  refine ⟨?_, ?_⟩
  · rw [← List.cons_append, List.append_assoc, List.isChain_append]
    refine ⟨hfront, ?_, ?_⟩
    · rw [List.cons_append, List.isChain_cons]
      refine ⟨?_, hback⟩
      intro y hy
      rw [List.head?_eq_some_head (by simp), Option.mem_some_iff] at hy
      rw [← hy]
      exact ⟨by simp [Links.splice, hn], by simp [Links.splice, ← hn, hne]⟩
    · intro x hx y hy
      rw [List.getLast?_eq_some_getLast (List.cons_ne_nil h xs), Option.mem_some_iff] at hx
      simp only [List.cons_append, List.head?_cons, Option.mem_some_iff] at hy
      subst y
      rw [← hx]
      exact ⟨by simp [Links.splice, ← hp, hpe], by simp [Links.splice, hp]⟩
  · have hperm : (e :: h :: (xs ++ ys)).Perm (h :: (xs ++ e :: ys)) :=
      (List.Perm.swap h e _).trans (List.Perm.cons h List.perm_middle.symm)
    exact hperm.nodup_iff.mp (List.nodup_cons.mpr ⟨hnew, hring.nodup⟩)

/-- Bridging a node of a ring takes it out. -/
theorem Ring.bridge {l : Links α} {h e : α} {xs ys : List α}
    (hring : l.Ring h (xs ++ e :: ys)) :
    (l.bridge (l.prev e) (l.next e)).Ring h (xs ++ ys) := by
  have hprev : l.prev e = (h :: xs).getLast (List.cons_ne_nil h xs) := hring.joined.2
  have hnext : l.next e = (ys ++ [h]).head (by simp) := by
    have hcut : l.Ring h ((xs ++ [e]) ++ ys) := by simpa using hring
    simpa using hcut.joined.1
  have hnodup : (h :: (xs ++ ys)).Nodup :=
    hring.nodup.sublist (((List.sublist_cons_self e ys).append_left xs).cons_cons h)
  have hcut : (h :: xs).IsChain l.Joined ∧ (ys ++ [h]).IsChain l.Joined :=
    ⟨hring.cut.1, (List.isChain_cons.mp (List.cons_append ▸ hring.cut.2)).2⟩
  obtain ⟨hfront, hback⟩ := chain_halves (m := l.bridge (l.prev e) (l.next e)) hcut hnodup
    (fun x _ hxp => by simp only [Links.bridge, setPrev_next, setNext_next, if_neg (hprev ▸ hxp)])
    (fun x _ hxn => by simp only [Links.bridge, setPrev_prev, setNext_prev, if_neg (hnext ▸ hxn)])
  refine ⟨?_, hnodup⟩
  rw [← List.cons_append, List.append_assoc, List.isChain_append]
  refine ⟨hfront, hback, ?_⟩
  intro x hx y hy
  rw [List.getLast?_eq_some_getLast (List.cons_ne_nil h xs), Option.mem_some_iff] at hx
  rw [List.head?_eq_some_head (by simp), Option.mem_some_iff] at hy
  rw [← hx, ← hy, ← hprev, ← hnext]
  exact ⟨by simp [Links.bridge], by simp [Links.bridge]⟩

end Links

end Ucore
