import Ucore.Pmm.BuddyInit

/-!
# The bounds of `free_area`

`split_page` goes up from list to list until one is not empty, and relies on the counters
for that. A block that is handed out stays counted, so that a request may find counters
above zero and every list empty: `split_page` then goes past the last order. `merge_page`
never does. Frees that merge put blocks on lists of other orders, and with them the headers
of these lists, which then pass for blocks.
-/

namespace Ucore.Pmm.Buddy

open Machine Links

variable {headers : Headers} {s t : FreeAreas} {E : Stop → Prop} {fuel base n order i page : Nat}

inductive Request
  | alloc (n : Nat)
  | free (base n : Nat)
  deriving DecidableEq, Repr

def serve (headers : Headers) (fuel : Nat) : Request → BuddyM PUnit
  | .alloc n => do
      let _ ← buddySystemAllocPages n
      return ⟨⟩
  | .free base n => buddySystemFreePages headers fuel base n

/-- A run. -/
def serveAll (headers : Headers) (fuel : Nat) (requests : List Request) : BuddyM PUnit :=
  requests.forM (serve headers fuel)

/-- `free_area` is used outside of its bounds, or `split_page` splits a list header. These are the
accesses that the C program makes without a check. -/
def outOfBounds (e : Stop) : Prop := e = .outOfRange ∨ e = .sentinel

/-- What a run in bounds may stop for: a failed assertion, or a walk over a list that does
not come to an end. A header that is handed out or merged as a block is not among these:
the code goes on with it. -/
def inBounds (e : Stop) : Prop := e = .assertion ∨ e = .runaway

/-- The first list from `order` on that is not empty begins with a block. -/
def FirstBlock (order : Nat) (s : FreeAreas) : Prop :=
  ∃ i page, order ≤ i ∧ i < MAX_ORDER ∧ s.link.next (.freeList i) = .pageLink page ∧
    ∀ j, order ≤ j → j < i → s.link.listEmpty (.freeList j) = true

/-- A request that `split_page` is called for finds a block to split. -/
def Splittable (s : FreeAreas) : Request → Prop
  | .alloc n =>
      0 < n → n ≤ 2 ^ (MAX_ORDER - 1) → blocksFrom s (findOrder n (MAX_ORDER - 1) + 1) ≠ 0 →
        s.link.listEmpty (.freeList (findOrder n (MAX_ORDER - 1) + 1)) = true →
          FirstBlock (findOrder n (MAX_ORDER - 1) + 2) s
  | .free _ _ => True

/-- A link of some entry leads to the page. -/
def Pointed (s : FreeAreas) (page : Nat) : Prop :=
  ∃ e, s.link.next e = .pageLink page ∨ s.link.prev e = .pageLink page

/-- A request that the counters let through finds a block, and not a list header, on the
first list that it can be served from. Where a block is given back, no list header with its
`property` ends where this block or a linked one begins. -/
def Backed (headers : Headers) (s : FreeAreas) : Request → Prop
  | .alloc n =>
      0 < n → n ≤ 2 ^ (MAX_ORDER - 1) → blocksFrom s (findOrder n (MAX_ORDER - 1) + 1) ≠ 0 →
        FirstBlock (findOrder n (MAX_ORDER - 1) + 1) s
  | .free base _ => ∀ p, p = base ∨ Pointed s p → ∀ i, headerEnds headers s i p = false

/-- Every request of a run meets the condition `C` in the state in which it is made. A run that is
broken off has no further requests to meet it. -/
def AllMeet (C : FreeAreas → Request → Prop) (headers : Headers) (fuel : Nat) :
    FreeAreas → List Request → Prop
  | _, [] => True
  | s, request :: rest => C s request ∧
      ∀ t, serve headers fuel request s = .ok (⟨⟩, t) → AllMeet C headers fuel t rest

/-! ## `split_page` -/

theorem splitFirst_first (hfirst : s.link.next (.freeList (order + 1)) = .pageLink page) :
    Ends E (splitFirst (order + 1)) s fun _ t => t.link.next (.freeList order) =
      .pageLink page := by
  rw [splitFirst, ends_bind, ends_get, hfirst]
  simp only [ends_bind, ends_setLink, ends_setNrFree, ends_setPage, ends_get, Nat.add_sub_cancel]
  simp [listAdd, listAddAfter, rawListAdd]

/-- Where there is a block to split, one is left for the order below. -/
theorem splitPage_first {rest : Nat} (hrest : rest + (order + 1) = MAX_ORDER)
    (h : FirstBlock (order + 1) s) :
    Ends E (splitPage rest (order + 1)) s fun _ t => ∃ page, t.link.next (.freeList order) =
      .pageLink page := by
  obtain ⟨i, page, hle, hi, hfirst, hempty⟩ := h
  induction rest generalizing order with
  | zero => omega
  | succ rest ih =>
      rw [splitPage, ends_bind, ends_get]
      rcases Nat.eq_or_lt_of_le hle with rfl | hlt
      · have hfull : s.link.listEmpty (.freeList (order + 1)) = false := by simp [listEmpty, hfirst]
        rw [hfull, if_neg Bool.false_ne_true]
        exact (splitFirst_first hfirst).imp fun _ _ hnext => ⟨page, hnext⟩
      · rw [hempty (order + 1) (Nat.le_refl _) hlt, if_pos rfl, ends_bind]
        have hnext : rest + (order + 1 + 1) = MAX_ORDER := by omega
        have habove : ∀ j, order + 1 + 1 ≤ j → j < i → s.link.listEmpty (.freeList j) = true :=
          fun j hj => hempty j (by omega)
        apply (ih hnext hlt habove).imp
        rintro _ t ⟨page', hfirst'⟩
        exact (splitFirst_first hfirst').imp fun _ _ hnext => ⟨page', hnext⟩

theorem splitFirst_sentinel (hfirst : s.link.next (.freeList order) = .freeList i) :
    Ends outOfBounds (splitFirst order) s fun _ _ => False := by
  rw [splitFirst, ends_bind, ends_get, hfirst]
  exact Or.inr rfl

/-- Where there is none, it does not return. -/
theorem splitPage_stops {rest : Nat} (hrest : rest + order = MAX_ORDER) (h : ¬ FirstBlock order s) :
    Ends outOfBounds (splitPage rest order) s fun _ _ => False := by
  induction rest generalizing order with
  | zero => exact Or.inl rfl
  | succ rest ih =>
      have hlast : order < MAX_ORDER := by omega
      rw [splitPage, ends_bind, ends_get]
      by_cases hempty : s.link.listEmpty (.freeList order) = true
      · rw [if_pos hempty, ends_bind]
        have hnext : rest + (order + 1) = MAX_ORDER := by omega
        apply (ih hnext ?_).imp fun _ _ hfalse => hfalse.elim
        rintro ⟨i, page, hle, hi, hfirst, habove⟩
        refine h ⟨i, page, Nat.le_of_succ_le hle, hi, hfirst, ?_⟩
        intro j hj hlt
        rcases Nat.eq_or_lt_of_le hj with rfl | hj
        · exact hempty
        · exact habove j hj hlt
      · rw [if_neg hempty]
        cases hfirst : s.link.next (.freeList order) with
        | freeList i => exact splitFirst_sentinel hfirst
        | pageLink page =>
            exact absurd ⟨order, page, Nat.le_refl _, hlast, hfirst, fun j hj hlt => by omega⟩ h

/-! ## Requests -/

/-- A block is handed out, and not a header. -/
theorem popBlock_page (hfirst : s.link.next (.freeList order) = .pageLink page) :
    Ends E (popBlock order) s fun _ _ => True := by
  rw [popBlock, ends_bind, ends_get]
  split
  · trivial
  · rw [hfirst]
    trivial

theorem order_lt (h : blocksFrom s order ≠ 0) : order < MAX_ORDER := by
  by_contra hle
  apply h
  rw [blocksFrom, Finset.Ico_eq_empty hle, Finset.sum_empty]
  rfl

/-- A list that is not empty is not passed over. -/
theorem FirstBlock.here (h : FirstBlock order s)
    (hfull : ¬ s.link.listEmpty (.freeList order) = true) :
    ∃ page, s.link.next (.freeList order) = .pageLink page := by
  obtain ⟨i, page, hle, _, hfirst, hempty⟩ := h
  rcases Nat.eq_or_lt_of_le hle with rfl | hlt
  · exact ⟨page, hfirst⟩
  · exact absurd (hempty order (Nat.le_refl _) hlt) hfull

/-- A list that is empty is. -/
theorem FirstBlock.above (h : FirstBlock order s)
    (hempty : s.link.listEmpty (.freeList order) = true) : FirstBlock (order + 1) s := by
  obtain ⟨i, page, hle, hi, hfirst, hbelow⟩ := h
  rcases Nat.eq_or_lt_of_le hle with rfl | hlt
  · rw [listEmpty, hfirst] at hempty
    simp at hempty
  · exact ⟨i, page, hlt, hi, hfirst, fun j hj hji => hbelow j (Nat.le_of_succ_le hj) hji⟩

/-- A request that is backed stays in bounds. -/
theorem alloc_inBounds (hbacked : Backed headers s (.alloc n)) :
    Ends inBounds (buddySystemAllocPages n) s fun _ _ => True := by
  have hassert : inBounds .assertion := Or.inl rfl
  rw [buddySystemAllocPages, ends_bind, ends_check_of hassert]
  intro hn
  split
  · trivial
  next hlarge =>
    simp only [ends_bind, ends_get]
    split
    · trivial
    next hsome =>
      have hfirst := hbacked hn (Nat.not_lt.mp hlarge) hsome
      split
      next hempty =>
        have hrest := Nat.sub_add_cancel (order_lt hsome)
        rw [ends_bind]
        apply (splitPage_first hrest (hfirst.above hempty)).imp
        rintro _ t ⟨page, hpage⟩
        exact popBlock_page hpage
      next hfull =>
        obtain ⟨page, hpage⟩ := hfirst.here hfull
        exact popBlock_page hpage

/-- A request that finds nothing to split leaves them. -/
theorem alloc_outOfBounds (h : ¬ Splittable s (.alloc n)) :
    Ends outOfBounds (buddySystemAllocPages n) s fun _ _ => False := by
  rw [Splittable] at h
  push Not at h
  obtain ⟨hn, hle, hsome, hempty, hblock⟩ := h
  have hrest := Nat.sub_add_cancel (order_lt hsome)
  rw [buddySystemAllocPages, ends_bind, ends_check hn, if_neg (Nat.not_lt.mpr hle)]
  simp only [ends_bind, ends_get]
  rw [if_neg hsome, if_pos hempty, ends_bind]
  exact (splitPage_stops hrest hblock).imp fun _ _ hfalse => hfalse.elim

/-! ## Blocks that are given back -/

section Free

variable {P : Entry → Prop}

/-- No header is taken for a block. -/
def noHeader (e : Stop) : Prop := e ≠ .header

/-- The links lead to entries of `P`, and no header ends where a page of `P` begins. -/
structure Clear (headers : Headers) (P : Entry → Prop) (s : FreeAreas) : Prop where
  lead : s.link.LeadTo P
  lists : ∀ i, P (.freeList i)
  ends : ∀ p, P (.pageLink p) → ∀ i, headerEnds headers s i p = false

theorem Clear.link (h : Clear headers P s) {l : Links Entry} (hl : l.LeadTo P) :
    Clear headers P { s with link := l } :=
  ⟨hl, h.lists, h.ends⟩

theorem Clear.pages (h : Clear headers P s) {f : Nat → Page} :
    Clear headers P { s with page := f } :=
  ⟨h.lead, h.lists, h.ends⟩

theorem clear_addLoop (hbase : P (.pageLink base)) {le : Entry} (h : Clear headers P s) :
    Ends noHeader (addLoop order base fuel le) s fun _ t => Clear headers P t := by
  induction fuel generalizing s le with
  | zero => exact Stop.noConfusion
  | succ fuel ih =>
      have hle := (h.lead le).1
      rw [addLoop, ends_bind, ends_get]
      dsimp only
      split
      · exact h
      · split
        · exact h.link (h.lead.listAddBefore hle hbase)
        · split
          · exact ih (h.link (h.lead.listAdd hle hbase))
          · exact ih h

theorem clear_addPage (hbase : P (.pageLink base)) (h : Clear headers P s) :
    Ends noHeader (addPage fuel order base) s fun _ t => Clear headers P t := by
  have hrange : noHeader .outOfRange := Stop.noConfusion
  rw [addPage, ends_bind, ends_check_of hrange]
  intro _
  rw [ends_bind, ends_get]
  split
  · exact h.link (h.lead.listAdd (h.lists order) hbase)
  · exact clear_addLoop hbase h

theorem clear_raise (hbase : P (.pageLink base)) (h : Clear headers P s) :
    Ends noHeader (raise fuel order base) s fun _ t => Clear headers P t := by
  rw [raise, ends_bind, ends_setLink]
  exact clear_addPage hbase (h.link h.lead.listDel)

theorem clear_absorb {p q : Nat} (h : Clear headers P s) :
    Ends noHeader (absorb p q) s fun _ t => Clear headers P t := by
  simp only [absorb, ends_bind, ends_get, ends_setPage, ends_setLink]
  exact (h.link h.lead.listDel).pages

theorem clear_mergePrev (hbase : P (.pageLink base)) (h : Clear headers P s) :
    Ends noHeader (mergePrev headers fuel order base) s fun p t =>
      P (.pageLink p) ∧ Clear headers P t := by
  have hrange : noHeader .outOfRange := Stop.noConfusion
  rw [mergePrev, ends_bind, ends_check_of hrange]
  intro _
  rw [ends_bind, ends_get]
  split
  next i _ =>
    rw [if_neg (by simp [h.ends base hbase i])]
    exact ⟨hbase, h⟩
  next p hprev =>
    have hp : P (.pageLink p) := hprev ▸ (h.lead (.pageLink base)).2
    split
    · rw [ends_bind]
      apply (clear_absorb h).imp
      intro _ t ht
      rw [ends_bind]
      exact (clear_raise hp ht).imp fun _ _ hu => ⟨hp, hu⟩
    · exact ⟨hbase, h⟩

theorem clear_mergeNext (hbase : P (.pageLink base)) (h : Clear headers P s) :
    Ends noHeader (mergeNext fuel order base) s fun _ t => Clear headers P t := by
  have hrange : noHeader .outOfRange := Stop.noConfusion
  rw [mergeNext, ends_bind, ends_check_of hrange]
  intro _
  rw [ends_bind, ends_get]
  split
  · exact h
  · split
    · rw [ends_bind]
      exact (clear_absorb h).imp fun _ t ht => clear_raise hbase ht
    · exact h

theorem clear_mergePage {rest : Nat} (hbase : P (.pageLink base)) (h : Clear headers P s) :
    Ends noHeader (mergePage headers fuel rest order base) s fun _ t => Clear headers P t := by
  induction rest generalizing s order base with
  | zero => exact h
  | succ rest ih =>
      rw [mergePage, ends_bind]
      apply (clear_mergePrev hbase h).imp
      rintro p t ⟨hp, ht⟩
      rw [ends_bind]
      exact (clear_mergeNext hp ht).imp fun _ _ hu => ih hp hu

theorem clear_resetPages (h : Clear headers P s) :
    Ends noHeader (resetPages base n) s fun _ t => Clear headers P t := by
  induction n generalizing s base with
  | zero => exact h
  | succ n ih =>
      have hassert : noHeader .assertion := Stop.noConfusion
      rw [resetPages, ends_bind, ends_get, ends_bind, ends_check_of hassert]
      intro _
      rw [ends_bind, ends_setPage]
      exact ih h.pages

theorem clear_orderLoop {temp : Nat} (h : Clear headers P s) :
    Ends noHeader (orderLoop fuel temp order) s fun _ t => Clear headers P t := by
  induction fuel generalizing temp order with
  | zero => exact Stop.noConfusion
  | succ fuel ih =>
      rw [orderLoop]
      split
      · exact h
      · exact ih

/-- A block that is given back is not merged with a header. -/
theorem clear_free (hbase : P (.pageLink base)) (h : Clear headers P s) :
    Ends noHeader (buddySystemFreePages headers fuel base n) s fun _ t => Clear headers P t := by
  have hassert : noHeader .assertion := Stop.noConfusion
  rw [buddySystemFreePages, ends_bind, ends_check_of hassert]
  intro _
  rw [ends_bind, ends_check_of hassert]
  intro _
  rw [ends_bind, ends_check_of hassert]
  intro _
  rw [ends_bind]
  apply (clear_resetPages h).imp
  intro _ t ht
  simp only [ends_bind, ends_setPage]
  apply (clear_orderLoop ht.pages.pages).imp
  intro order u hu
  exact (clear_addPage hbase hu).imp fun _ _ hv => clear_mergePage hbase hv

/-- The pages that links lead to, and the block that is given back. -/
def reach (s : FreeAreas) (base : Nat) : Entry → Prop
  | .freeList _ => True
  | .pageLink p => p = base ∨ Pointed s p

theorem leadTo_reach : s.link.LeadTo (reach s base) := by
  intro x
  constructor
  · cases hnext : s.link.next x with
    | freeList i => trivial
    | pageLink p => exact Or.inr ⟨x, Or.inl hnext⟩
  · cases hprev : s.link.prev x with
    | freeList i => trivial
    | pageLink p => exact Or.inr ⟨x, Or.inr hprev⟩

theorem free_inBounds (hbacked : Backed headers s (.free base n)) :
    Ends inBounds (buddySystemFreePages headers fuel base n) s fun _ _ => True := by
  have hclear : Clear headers (reach s base) s := ⟨leadTo_reach, fun _ => trivial, hbacked⟩
  have hbase : reach s base (.pageLink base) := Or.inl rfl
  have hfree := @clear_free headers s fuel base n _ hbase hclear
  apply ((within_free s).both hfree).mono
  · rintro e ⟨rfl | rfl | rfl, hno⟩
    · exact Or.inl rfl
    · exact Or.inr rfl
    · exact absurd rfl hno
  · exact fun _ _ _ => trivial

end Free

/-! ## Runs -/

theorem serve_inBounds {request : Request} (hbacked : Backed headers s request) :
    Ends inBounds (serve headers fuel request) s fun _ _ => True := by
  cases request with
  | alloc n =>
      rw [serve, ends_bind]
      exact alloc_inBounds hbacked
  | free base n => exact free_inBounds hbacked

theorem serve_outOfBounds {request : Request} (h : ¬ Splittable s request) :
    Ends outOfBounds (serve headers fuel request) s fun _ _ => False := by
  cases request with
  | alloc n =>
      rw [serve, ends_bind]
      exact (alloc_outOfBounds h).imp fun _ _ hfalse => hfalse.elim
  | free base n => exact absurd trivial h

theorem serveAll_cons (request : Request) (rest : List Request) :
    serveAll headers fuel (request :: rest) =
      serve headers fuel request >>= fun _ => serveAll headers fuel rest :=
  rfl

/-- A run whose requests are all backed where they are made uses `free_area` within its
bounds and takes no list header for a block; and a run within the bounds finds a block to
split wherever it needs one. -/
theorem serveAll_inBounds (headers : Headers) (fuel : Nat) (s : FreeAreas)
    (requests : List Request) :
    (AllMeet (Backed headers) headers fuel s requests →
      Ends inBounds (serveAll headers fuel requests) s fun _ _ => True) ∧
    (Ends (fun e => ¬ outOfBounds e) (serveAll headers fuel requests) s (fun _ _ => True) →
      AllMeet Splittable headers fuel s requests) := by
  induction requests generalizing s with
  | nil => exact ⟨fun _ => trivial, fun _ => trivial⟩
  | cons request rest ih =>
      rw [serveAll_cons, ends_bind, ends_bind]
      constructor
      · rintro ⟨hbacked, hrest⟩
        apply ((serve_inBounds hbacked).both (Ends.self _ _)).mono
        · exact fun e he => he.1
        · exact fun _ t ht => (ih t).1 (hrest t ht.2)
      · intro hends
        refine ⟨?_, fun t hserve => (ih t).2 (hends.post hserve)⟩
        by_contra hsplit
        have hout := @serve_outOfBounds headers s fuel request hsplit
        cases hserve : serve headers fuel request s with
        | ok r => exact hout.post hserve
        | error e => exact hends.of_error hserve (hout.of_error hserve)

/-- The headers of the lists whose distance from `pages` is a whole number of pages. -/
def someHeaders : Headers where
  before := fun i => if i < MAX_ORDER ∧ i % 5 = 1 then some (103 - 3 * (i / 5)) else none
  property := 0

/-- Counters of at most one block do not reach the pages from these headers. -/
theorem headerEnds_someHeaders (hcount : ∀ i < MAX_ORDER, s.nrFree i ≤ 1) (i base : Nat) :
    headerEnds someHeaders s i base = false := by
  rw [headerEnds]
  split
  · rfl
  next k hbefore =>
    rw [someHeaders, Option.ite_none_right_eq_some] at hbefore
    obtain ⟨⟨hi, hmod⟩, hk⟩ := hbefore
    have hne : i ≠ 0 := by
      rintro rfl
      cases hmod
    have hle := hcount (i - 1) (Nat.lt_of_le_of_lt (Nat.sub_le i 1) hi)
    have hlast : i < 11 := hi
    obtain rfl := Option.some.inj hk
    rw [if_neg hne, beq_eq_false_iff_ne]
    omega

/-- A block of two pages is handed out, and its pages are given back one by one. -/
theorem serveAll_inBounds_onePair :
    Ends inBounds (serveAll someHeaders 9 [.alloc 1, .free 1 1, .free 0 1]) onePair
      fun _ _ => True := by
  apply (serveAll_inBounds someHeaders 9 onePair _).1
  have hfree : ∀ t : FreeAreas, (∀ i < MAX_ORDER, t.nrFree i ≤ 1) →
      ∀ base, Backed someHeaders t (.free base 1) :=
    fun t ht _ p _ i => headerEnds_someHeaders ht i p
  refine ⟨fun _ _ _ => ⟨1, 0, by decide, by decide, by decide, by decide⟩, fun t ht => ?_⟩
  have hcount : ∀ i < MAX_ORDER, t.nrFree i ≤ 1 := by
    have hyields : yields (serve someHeaders 9 (.alloc 1)) onePair
        (fun _ t => (List.range MAX_ORDER).all fun i => t.nrFree i ≤ 1) = true := by decide
    have hall := (Ends.of_yields hyields).post ht
    simpa using hall
  refine ⟨hfree t hcount 1, fun u hu => ⟨hfree u ?_ 0, fun _ _ => trivial⟩⟩
  have hkeeps : Keeps FreeAreas.nrFree (buddySystemFreePages someHeaders 9 1 1) := keeps_free
  rw [(hkeeps t).post hu]
  exact hcount

/-! ## One block of the last order -/

/-- The state in which `buddy_system_init_memmap` leaves a region of one such block: the
block is the only one on its list, and is counted. -/
structure OneBlock (s : FreeAreas) : Prop where
  ring : s.link.Ring (.freeList (MAX_ORDER - 1)) [.pageLink 0]
  count : s.nrFree (MAX_ORDER - 1) = 1

theorem init_oneBlock (hn : n = 2 ^ (MAX_ORDER - 1)) :
    ∃ t, buddySystemInitMemmap 2 0 n (buddySystemInit reservedPages) = .ok (⟨⟩, t) ∧
      OneBlock t := by
  have hlast : MAX_ORDER - 1 < MAX_ORDER := by decide
  have hpos : 0 < n := hn ▸ Nat.two_pow_pos _
  have hnext : 0 = (n + (2 ^ 64 - 2 ^ (MAX_ORDER - 1))) % 2 ^ 64 := by
    rw [hn]
    decide
  suffices hends : Ends never (buddySystemInitMemmap 2 0 n)
      (buddySystemInit reservedPages) fun _ t => OneBlock t by
    obtain ⟨_, t, hrun, ht⟩ := hends.ok
    exact ⟨t, hrun, ht⟩
  apply ends_initMemmap hpos fun p _ => reservedPages_reserved p
  intro u hu hcount
  rw [ends_initLoop (Nat.ne_of_gt hpos) hnext]
  apply initLoop_done
  have hlinked := hu.linkOne hlast Nat.one_pos
  constructor
  · have hring := hlinked.ring _ hlast
    rw [push, Function.update_self] at hring
    exact hring
  · have hone : uint ((buddySystemInit reservedPages).nrFree (MAX_ORDER - 1) + 1) = 1 := by decide
    change Function.update u.nrFree (MAX_ORDER - 1) (uint (u.nrFree (MAX_ORDER - 1) + 1))
      (MAX_ORDER - 1) = 1
    rw [Function.update_self, hcount, hone]

theorem OneBlock.blocksFrom (hcount : s.nrFree (MAX_ORDER - 1) = 1) :
    blocksFrom s (MAX_ORDER - 1) = 1 := by
  have hlast : Finset.Ico (MAX_ORDER - 1) MAX_ORDER = {MAX_ORDER - 1} := by decide
  rw [Buddy.blocksFrom, hlast, Finset.sum_singleton, hcount]
  rfl

section Half

variable (hn : 0 < n) (hsmall : ¬ 2 ^ (MAX_ORDER - 1) < n)
  (horder : findOrder n (MAX_ORDER - 1) + 1 = MAX_ORDER - 1)

include hn hsmall horder

/-- A request of half the block takes it as a whole, and leaves it counted. -/
theorem OneBlock.alloc_half (h : OneBlock s) : Ends never (buddySystemAllocPages n) s
    fun _ t => t.link.Ring (.freeList (MAX_ORDER - 1)) [] ∧ t.nrFree (MAX_ORDER - 1) = 1 := by
  have hfirst := h.ring.joined_first.1
  have hfull : s.link.listEmpty (.freeList (MAX_ORDER - 1)) = false := h.ring.listEmpty_eq
  have hsome : Buddy.blocksFrom s (MAX_ORDER - 1) ≠ 0 := by
    rw [OneBlock.blocksFrom h.count]
    exact Nat.one_ne_zero
  simp only [buddySystemAllocPages, ends_bind, ends_check hn, if_neg hsmall, ends_get, horder,
    if_neg hsome, hfull,
    if_neg Bool.false_ne_true, popBlock, hfirst, ends_setLink, ends_setPage, ends_pure]
  have hring : s.link.Ring (.freeList (MAX_ORDER - 1)) ([] ++ .pageLink 0 :: []) := h.ring
  exact ⟨hring.listDel, h.count⟩

/-- The next one goes past the last order. -/
theorem not_splittable_half (hring : s.link.Ring (.freeList (MAX_ORDER - 1)) [])
    (hcount : s.nrFree (MAX_ORDER - 1) = 1) : ¬ Splittable s (.alloc n) := by
  intro hsplit
  have hsome : Buddy.blocksFrom s (MAX_ORDER - 1) ≠ 0 := by
    rw [OneBlock.blocksFrom hcount]
    exact Nat.one_ne_zero
  rw [← horder] at hring hsome
  obtain ⟨i, _, hle, hi, _⟩ := hsplit hn (Nat.not_lt.mp hsmall) hsome hring.listEmpty_eq
  omega

theorem OneBlock.outOfBounds (h : OneBlock s) (headers : Headers) (fuel : Nat) :
    Ends Buddy.outOfBounds (serveAll headers fuel [.alloc n, .alloc n]) s fun _ _ => False := by
  rw [serveAll_cons, ends_bind, serve, ends_bind]
  apply (h.alloc_half hn hsmall horder).lift
  rintro _ t ⟨hring, hcount⟩
  rw [ends_pure, serveAll_cons, ends_bind]
  apply (serve_outOfBounds (not_splittable_half hn hsmall horder hring hcount)).imp
  exact fun _ _ hfalse => hfalse.elim

end Half

/-- Two requests of 512 pages to a manager of 1024 pages. -/
theorem buddy_outOfBounds : ∃ s,
    buddySystemInitMemmap 2 0 1024 (buddySystemInit reservedPages) = .ok (⟨⟩, s) ∧
    ∀ headers fuel,
      Ends outOfBounds (serveAll headers fuel [.alloc 512, .alloc 512]) s fun _ _ => False := by
  have hsize : 1024 = 2 ^ (MAX_ORDER - 1) := by decide
  obtain ⟨s, hrun, hs⟩ := init_oneBlock hsize
  exact ⟨s, hrun, hs.outOfBounds (by decide) (by decide) (by decide)⟩

end Ucore.Pmm.Buddy
