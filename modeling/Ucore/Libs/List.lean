import Ucore.Foundation.Ring

/-!
# `libs/list.h`

The list operations of the kernel, on links that live outside their nodes. A
node is the address of a `list_entry_t`.
-/

namespace Ucore.Links

variable {α : Type*} [DecidableEq α]

/-- `list_init`. -/
def listInit (l : Links α) (elm : α) : Links α := (l.setNext elm elm).setPrev elm elm

/-- `__list_add`. -/
def rawListAdd (l : Links α) (elm prev next : α) : Links α :=
  (((l.setPrev next elm).setNext prev elm).setNext elm next).setPrev elm prev

/-- `__list_del`. -/
def rawListDel (l : Links α) (prev next : α) : Links α :=
  (l.setNext prev next).setPrev next prev

/-- `list_add_before`. -/
def listAddBefore (l : Links α) (listelm elm : α) : Links α :=
  l.rawListAdd elm (l.prev listelm) listelm

/-- `list_add_after`. -/
def listAddAfter (l : Links α) (listelm elm : α) : Links α :=
  l.rawListAdd elm listelm (l.next listelm)

/-- `list_add`. -/
def listAdd (l : Links α) (listelm elm : α) : Links α := l.listAddAfter listelm elm

/-- `list_del`. The links of the deleted entry keep their values. -/
def listDel (l : Links α) (listelm : α) : Links α :=
  l.rawListDel (l.prev listelm) (l.next listelm)

/-- `list_del_init`. -/
def listDelInit (l : Links α) (listelm : α) : Links α := (l.listDel listelm).listInit listelm

/-- `list_empty`. -/
def listEmpty (l : Links α) (list : α) : Bool := l.next list == list

theorem listInit_ring (l : Links α) (h : α) : (l.listInit h).Ring h [] := by
  simp [ring_nil_iff, listInit]

theorem Ring.listEmpty_eq {l : Links α} {h : α} {xs : List α} (hring : l.Ring h xs) :
    l.listEmpty h = xs.isEmpty := by
  cases xs with
  | nil => simp [Links.listEmpty, (ring_nil_iff.mp hring).1]
  | cons x xs =>
      have hhead : l.next h = x := hring.joined_first.1
      have hne : x ≠ h := fun heq => (List.nodup_cons.mp hring.nodup).1 (heq ▸ List.mem_cons_self)
      simp [Links.listEmpty, hhead, hne]

/-- Inserting after the last node of the part `xs`. -/
theorem Ring.listAdd {l : Links α} {h e : α} {xs ys : List α} (hring : l.Ring h (xs ++ ys))
    (hnew : e ∉ h :: (xs ++ ys)) :
    (l.listAdd ((h :: xs).getLast (List.cons_ne_nil h xs)) e).Ring h (xs ++ e :: ys) := by
  have hsplice := hring.splice hnew
  rw [← hring.joined.1] at hsplice
  exact hsplice

/-- Inserting after the entry before the header. -/
theorem Ring.listAdd_last {l : Links α} {h e : α} {xs : List α} (hring : l.Ring h xs)
    (hnew : e ∉ h :: xs) : (l.listAdd (l.prev h) e).Ring h (xs ++ [e]) := by
  have hwhole : l.Ring h (xs ++ []) := by rwa [List.append_nil]
  have hlast : l.prev h = (h :: xs).getLast (List.cons_ne_nil h xs) := hwhole.joined.2
  rw [hlast]
  exact hwhole.listAdd (by rwa [List.append_nil])

/-- Inserting before a node of a ring. -/
theorem Ring.listAddBefore {l : Links α} {h e y : α} {xs ys : List α}
    (hring : l.Ring h (xs ++ y :: ys)) (hnew : e ∉ h :: (xs ++ y :: ys)) :
    (l.listAddBefore y e).Ring h (xs ++ e :: y :: ys) := by
  have hsplice := hring.splice hnew
  rw [← hring.joined.2] at hsplice
  exact hsplice

/-- Inserting before the header of a ring. -/
theorem Ring.listAddBefore_header {l : Links α} {h e : α} {xs : List α} (hring : l.Ring h xs)
    (hnew : e ∉ h :: xs) : (l.listAddBefore h e).Ring h (xs ++ [e]) := by
  have hwhole : l.Ring h (xs ++ []) := by rwa [List.append_nil]
  have hsplice := hwhole.splice (by rwa [List.append_nil])
  rw [← hwhole.joined.2] at hsplice
  exact hsplice

/-- Deleting a node of a ring. -/
theorem Ring.listDel {l : Links α} {h e : α} {xs ys : List α}
    (hring : l.Ring h (xs ++ e :: ys)) : (l.listDel e).Ring h (xs ++ ys) :=
  hring.bridge

/-- Inserting a node does not touch one outside of the ring. -/
theorem Ring.listAddBefore_next {l : Links α} {h e x y : α} {xs : List α} (hring : l.Ring h xs)
    (hy : y ∈ h :: xs) (hx : x ∉ h :: xs)
    (hxe : x ≠ e) : (l.listAddBefore y e).next x = l.next x := by
  have hprev : x ≠ l.prev y := (ne_of_mem_of_not_mem (hring.neighbours_mem hy).2 hx).symm
  simp [Links.listAddBefore, rawListAdd, hxe, hprev]

/-- Deleting a node does not touch one outside of the ring. -/
theorem Ring.listDel_next {l : Links α} {h e x : α} {xs : List α} (hring : l.Ring h xs)
    (he : e ∈ h :: xs) (hx : x ∉ h :: xs) : (l.listDel e).next x = l.next x := by
  have hprev : x ≠ l.prev e := (ne_of_mem_of_not_mem (hring.neighbours_mem he).2 hx).symm
  simp [Links.listDel, rawListDel, hprev]

/-- Inserting a node does not touch a ring that it and its neighbours are not in. -/
theorem Ring.listAdd_other {l : Links α} {h g e : α} {ys : List α} (hother : l.Ring g ys)
    (hh : h ∉ g :: ys) (he : e ∉ g :: ys) (hnext : l.next h ∉ g :: ys) :
    (l.listAdd h e).Ring g ys := by
  apply hother.congr
  intro x hx
  have hxh : x ≠ h := fun heq => hh (heq ▸ hx)
  have hxe : x ≠ e := fun heq => he (heq ▸ hx)
  have hxn : x ≠ l.next h := fun heq => hnext (heq ▸ hx)
  simp [Links.listAdd, listAddAfter, rawListAdd, hxh, hxe, hxn]

/-- The same for inserting before a node. -/
theorem Ring.listAddBefore_other {l : Links α} {h g e : α} {ys : List α} (hother : l.Ring g ys)
    (hh : h ∉ g :: ys) (he : e ∉ g :: ys) (hprev : l.prev h ∉ g :: ys) :
    (l.listAddBefore h e).Ring g ys := by
  apply hother.congr
  intro x hx
  have hxh : x ≠ h := fun heq => hh (heq ▸ hx)
  have hxe : x ≠ e := fun heq => he (heq ▸ hx)
  have hxp : x ≠ l.prev h := fun heq => hprev (heq ▸ hx)
  simp [Links.listAddBefore, rawListAdd, hxh, hxe, hxp]

/-- Deleting a node does not touch a ring that its neighbours are not in. -/
theorem Ring.listDel_other {l : Links α} {g e : α} {ys : List α} (hother : l.Ring g ys)
    (hnext : l.next e ∉ g :: ys) (hprev : l.prev e ∉ g :: ys) : (l.listDel e).Ring g ys := by
  apply hother.congr
  intro x hx
  have hxn : x ≠ l.next e := fun heq => hnext (heq ▸ hx)
  have hxp : x ≠ l.prev e := fun heq => hprev (heq ▸ hx)
  simp [Links.listDel, rawListDel, hxn, hxp]

/-- Initialising another header does not touch a ring. -/
theorem Ring.listInit_other {l : Links α} {g e : α} {ys : List α} (hother : l.Ring g ys)
    (he : e ∉ g :: ys) : (l.listInit e).Ring g ys := by
  apply hother.congr
  intro x hx
  have hxe : x ≠ e := fun heq => he (heq ▸ hx)
  simp [listInit, hxe]

/-- The headers of several lists are initialised. -/
def listInitAll (l : Links α) (elms : List α) : Links α := elms.foldl listInit l

theorem Ring.listInitAll_other {l : Links α} {g : α} {ys elms : List α} (hother : l.Ring g ys)
    (helms : ∀ e ∈ elms, e ∉ g :: ys) : (l.listInitAll elms).Ring g ys := by
  induction elms generalizing l with
  | nil => exact hother
  | cons e rest ih =>
      apply ih (hother.listInit_other (helms e List.mem_cons_self))
      exact fun e he => helms e (List.mem_cons_of_mem _ he)

theorem listInitAll_ring (l : Links α) {h : α} {elms : List α} (hmem : h ∈ elms) :
    (l.listInitAll elms).Ring h [] := by
  induction elms generalizing l with
  | nil => cases hmem
  | cons e rest ih =>
      by_cases hrest : h ∈ rest
      · exact ih _ hrest
      · obtain rfl : h = e := (List.mem_cons.mp hmem).resolve_right hrest
        apply (listInit_ring l h).listInitAll_other
        intro e he
        simpa using ne_of_mem_of_not_mem he hrest

/-! ## Where links lead -/

/-- Every link leads to an entry of `P`. -/
def LeadTo (P : α → Prop) (l : Links α) : Prop := ∀ x, P (l.next x) ∧ P (l.prev x)

section LeadTo

variable {P : α → Prop} {l : Links α} {listelm elm : α}

theorem LeadTo.setNext (hl : l.LeadTo P) {x y : α} (hy : P y) : (l.setNext x y).LeadTo P := by
  intro z
  rw [setNext_next, setNext_prev]
  split
  · exact ⟨hy, (hl z).2⟩
  · exact hl z

theorem LeadTo.setPrev (hl : l.LeadTo P) {x y : α} (hy : P y) : (l.setPrev x y).LeadTo P := by
  intro z
  rw [setPrev_prev, setPrev_next]
  split
  · exact ⟨(hl z).1, hy⟩
  · exact hl z

theorem LeadTo.rawListAdd (hl : l.LeadTo P) {prev next : α} (helm : P elm) (hprev : P prev)
    (hnext : P next) : (l.rawListAdd elm prev next).LeadTo P :=
  (((hl.setPrev helm).setNext helm).setNext hnext).setPrev hprev

theorem LeadTo.listAdd (hl : l.LeadTo P) (hlistelm : P listelm) (helm : P elm) :
    (l.listAdd listelm elm).LeadTo P :=
  hl.rawListAdd helm hlistelm (hl listelm).1

theorem LeadTo.listAddBefore (hl : l.LeadTo P) (hlistelm : P listelm) (helm : P elm) :
    (l.listAddBefore listelm elm).LeadTo P :=
  hl.rawListAdd helm (hl listelm).2 hlistelm

theorem LeadTo.listDel (hl : l.LeadTo P) : (l.listDel listelm).LeadTo P :=
  (hl.setNext (hl listelm).1).setPrev (hl listelm).2

end LeadTo

end Ucore.Links
