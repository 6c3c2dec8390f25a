import Ucore.Libs.List
import Ucore.Mm.Kern

/-!
# The clock

`kern/mm/swap_clock.c` of lab 3. The hand goes round the list of the swappable pages. A
page that it passes loses its mark `visited`; the first one without the mark leaves the
list. The header is passed over.
-/

namespace Ucore.Mm

open Machine Links

abbrev SwapM := Machine Panic Swap

def clockInitMm : SwapM Int := do
  modify fun s => { s with praList := s.praList.listInit .praListHead, currPtr := .praListHead }
  return 0

def clockMapSwappable (page : Nat) : SwapM Int := do
  modify fun s => { s with
    praList := s.praList.listAdd (s.praList.prev .praListHead) (.praPageLink page)
    visited := Function.update s.visited page true }
  return 0

/-- The loop of `_clock_swap_out_victim`. The header is no page. -/
def clockLoop : Nat → SwapM Nat
  | 0 => throw .runaway
  | fuel + 1 => do
      let s ← get
      let curr := if s.currPtr = .praListHead then s.praList.next .praListHead else s.currPtr
      match curr with
      | .praListHead => throw .emptyList
      | .praPageLink ptr =>
          if s.visited ptr then do
            set { s with
              visited := Function.update s.visited ptr false
              currPtr := s.praList.next curr }
            clockLoop fuel
          else do
            let next := s.praList.next curr
            set { s with currPtr := next, praList := s.praList.listDel (s.praList.prev next) }
            return ptr

/-- `_clock_swap_out_victim`, with the page that `ptr_page` gets. -/
def clockSwapOutVictim (fuel : Nat) (inTick : Int) : SwapM (Int × Nat) := do
  check .inTick (inTick = 0)
  let page ← clockLoop fuel
  return (0, page)

/-- The hand, when the pages from it on are `pages`. -/
def handOn : List Nat → PraEntry
  | [] => .praListHead
  | page :: _ => .praPageLink page

/-- The list holds the pages `before`, which the hand has passed, and then `after`, of which
`curr_ptr` is the first (or the header if there is none). -/
structure Clocked (s : Swap) (before after : List Nat) : Prop where
  ring : s.praList.Ring .praListHead ((before ++ after).map .praPageLink)
  hand : s.currPtr = handOn after

/-- The marks after the hand has passed `pages`. -/
def unmark (pages : List Nat) (visited : Nat → Bool) (page : Nat) : Bool :=
  visited page && !decide (page ∈ pages)

/-- The page to be chosen, when `pages` are those from the hand on all the way round: the
first one without a mark, after the marks before it have been cleared, or the first one
of all, after every mark has been cleared. -/
inductive Victim (visited : Nat → Bool) (pages : List Nat) (page : Nat) (visited' : Nat → Bool) :
    Prop
  | unmarked (passed rest : List Nat) (hsplit : pages = passed ++ page :: rest)
      (hpassed : ∀ p ∈ passed, visited p = true) (hpage : visited page = false)
      (hvisited : visited' = unmark passed visited)
  | again (rest : List Nat) (hfirst : pages = page :: rest) (hall : ∀ p ∈ pages, visited p = true)
      (hvisited : visited' = unmark pages visited)

variable {s t : Swap} {before after : List Nat} {page fuel : Nat}

/-- `_clock_init_mm` leaves an empty list. -/
theorem clockInitMm_clocked : ∃ t, clockInitMm s = .ok (0, t) ∧ Clocked t [] [] :=
  ⟨_, rfl, listInit_ring s.praList .praListHead, rfl⟩

/-- A new page comes last on the list. The hand stays where it is: on the header it has
passed the new page too. -/
theorem clockMapSwappable_clocked (h : Clocked s before after) (hnew : page ∉ before ++ after) :
    ∃ t, clockMapSwappable page s = .ok (0, t) ∧ t.visited = Function.update s.visited page true ∧
      (Clocked t before (after ++ [page]) ∨ after = [] ∧ Clocked t (before ++ [page]) []) := by
  have hentry : PraEntry.praPageLink page ∉ PraEntry.praListHead :: (before ++ after).map
      .praPageLink := by
    simpa using hnew
  have hring := h.ring.listAdd_last hentry
  refine ⟨_, rfl, rfl, ?_⟩
  cases after with
  | nil =>
      refine Or.inr ⟨rfl, ?_, h.hand⟩
      simpa using hring
  | cons p rest =>
      refine Or.inl ⟨?_, h.hand⟩
      simpa using hring

theorem unmark_nil (visited : Nat → Bool) : unmark [] visited = visited := by
  funext page
  simp [unmark]

theorem unmark_cons (pages : List Nat) (visited : Nat → Bool) :
    unmark pages (Function.update visited page false) = unmark (page :: pages) visited := by
  funext p
  by_cases hp : p = page
  · simp [unmark, hp]
  · simp [unmark, hp]

theorem unmark_append (pages pages' : List Nat) (visited : Nat → Bool) :
    unmark pages' (unmark pages visited) = unmark (pages ++ pages') visited := by
  funext p
  simp [unmark, Bool.and_assoc]

namespace Clocked

/-- The entry after a page. -/
theorem next (h : Clocked s before (page :: after)) :
    s.praList.next (.praPageLink page) = handOn after := by
  have hring := h.ring
  rw [List.map_append, List.map_cons] at hring
  cases after with
  | nil =>
      rw [List.map_nil] at hring
      exact hring.joined_last.1
  | cons p rest =>
      rw [List.map_cons] at hring
      exact hring.joined_mem.1

theorem prev (h : Clocked s before (page :: after)) :
    s.praList.prev (handOn after) = .praPageLink page := by
  have hring := h.ring
  rw [List.map_append, List.map_cons] at hring
  cases after with
  | nil =>
      rw [List.map_nil] at hring
      exact hring.joined_last.2
  | cons p rest =>
      rw [List.map_cons] at hring
      exact hring.joined_mem.2

/-- A round that passes a page. -/
theorem pass (h : Clocked s before (page :: after)) (hvisited : s.visited page = true) :
    clockLoop (fuel + 1) s =
      clockLoop fuel
        { s with visited := Function.update s.visited page false, currPtr := handOn after } := by
  have hcurr : (if s.currPtr = .praListHead then s.praList.next .praListHead else s.currPtr) =
      .praPageLink page := by
    rw [h.hand]
    exact if_neg PraEntry.noConfusion
  rw [clockLoop, bind_ok (a := s) (t := s) rfl]
  simp only [hcurr, hvisited, if_true, h.next]
  rfl

/-- The last round. -/
theorem take (h : Clocked s before (page :: after)) (hvisited : s.visited page = false) :
    clockLoop (fuel + 1) s = .ok (page,
      { s with currPtr := handOn after, praList := s.praList.listDel (.praPageLink page) }) := by
  have hcurr : (if s.currPtr = .praListHead then s.praList.next .praListHead else s.currPtr) =
      .praPageLink page := by
    rw [h.hand]
    exact if_neg PraEntry.noConfusion
  rw [clockLoop, bind_ok (a := s) (t := s) rfl]
  simp only [hcurr, hvisited, Bool.false_eq_true, if_false, h.next, h.prev]
  rfl

variable (fuel) in
/-- The hand on the header goes on to the first page. -/
theorem wrap (h : Clocked s before []) (hne : before ≠ []) :
    clockLoop (fuel + 1) s = clockLoop (fuel + 1) { s with currPtr := handOn before } := by
  cases before with
  | nil => exact absurd rfl hne
  | cons p rest =>
      have hring := h.ring
      rw [List.append_nil, List.map_cons] at hring
      have hcurr : (if s.currPtr = .praListHead then s.praList.next .praListHead else s.currPtr) =
          .praPageLink p := by
        rw [h.hand]
        exact (if_pos rfl).trans hring.joined_first.1
      have hcurr' :
          (if handOn (p :: rest) = .praListHead then s.praList.next .praListHead
            else handOn (p :: rest)) =
          .praPageLink p := if_neg PraEntry.noConfusion
      rw [clockLoop, bind_ok (a := s)
        (t := s) rfl, bind_ok (t := { s with currPtr := handOn (p :: rest) }) rfl]
      simp only [hcurr, hcurr']
      split
      · rfl
      · rfl

variable (fuel) in
/-- The hand passes the pages of a part of the list that are all marked. -/
theorem passes {pages : List Nat} (h : Clocked s before (pages ++ after))
    (hall : ∀ p ∈ pages, s.visited p = true) :
    ∃ t, clockLoop (pages.length + fuel) s = clockLoop fuel t ∧ Clocked t (before ++ pages) after ∧
      t = { s with visited := unmark pages s.visited, currPtr := t.currPtr } := by
  induction pages generalizing s before with
  | nil =>
      refine ⟨s, by rw [List.length_nil, Nat.zero_add], by rwa [List.append_nil], ?_⟩
      rw [unmark_nil]
  | cons page rest ih =>
      have hnext : Clocked { s with
          visited := Function.update s.visited page false
          currPtr := handOn (rest ++ after) } (before ++ [page]) (rest ++ after) := by
        refine ⟨?_, rfl⟩
        rw [List.append_assoc, List.singleton_append]
        exact h.ring
      have hnodup : page ∉ rest := by
        have hring := (List.nodup_cons.mp h.ring.nodup).2
        have hpages := (List.nodup_append.mp (List.Nodup.of_map _ hring)).2.1
        rw [List.cons_append, List.nodup_cons] at hpages
        exact fun hmem => hpages.1 (List.mem_append_left after hmem)
      have hrest : ∀ p ∈ rest, Function.update s.visited page false p = true := by
        intro p hp
        rw [Function.update_of_ne (ne_of_mem_of_not_mem hp hnodup)]
        exact hall p (List.mem_cons_of_mem page hp)
      obtain ⟨t, hloop, ht, hsame⟩ := ih hnext hrest
      refine ⟨t, ?_, ?_, ?_⟩
      · have hlength : (page :: rest).length + fuel = rest.length + fuel + 1 := by
          rw [List.length_cons]
          omega
        rw [hlength, h.pass (hall page List.mem_cons_self)]
        exact hloop
      · rwa [List.append_assoc, List.singleton_append] at ht
      · rw [hsame, unmark_cons]

/-- The list and the hand after a page has been taken out. -/
theorem taken (h : Clocked s before (page :: after)) :
    Clocked { s with currPtr := handOn after, praList := s.praList.listDel (.praPageLink page) }
      before after := by
  refine ⟨?_, rfl⟩
  have hring := h.ring
  rw [List.map_append, List.map_cons] at hring
  rw [List.map_append]
  exact hring.listDel

end Clocked

/-- What the search for a victim leaves: the page is no longer on the list, the hand is on
the entry after it, and only marks have changed besides. -/
structure Chosen (s : Swap) (before after : List Nat) (page : Nat) (t : Swap) : Prop where
  victim : Victim s.visited (after ++ before) page t.visited
  place : ∃ lo hi, before ++ after = lo ++ page :: hi ∧ Clocked t lo hi
  praVaddr : t.praVaddr = s.praVaddr
  disk : t.disk = s.disk

variable (fuel) in
/-- The hand passes marked pages and takes the first one that is not marked. -/
theorem Clocked.first_unmarked {passed rest : List Nat}
    (h : Clocked s before (passed ++ page :: rest))
    (hpassed : ∀ p ∈ passed, s.visited p = true) (hpage : s.visited page = false) : ∃ t,
      clockLoop (passed.length + (fuel + 1)) s = .ok (page, t) ∧
      Clocked t (before ++ passed) rest ∧ t.visited = unmark passed s.visited ∧
      t.praVaddr = s.praVaddr ∧ t.disk = s.disk := by
  obtain ⟨u, hloop, hu, hsame⟩ := h.passes (fuel + 1) hpassed
  have hmark : u.visited page = false := by
    rw [hsame]
    simp [unmark, hpage]
  refine ⟨_, hloop.trans (hu.take hmark), hu.taken, ?_, ?_, ?_⟩
  · change u.visited = _
    rw [hsame]
  · change u.praVaddr = _
    rw [hsame]
  · change u.disk = _
    rw [hsame]

theorem Clocked.nodup (h : Clocked s before after) : (before ++ after).Nodup :=
  List.Nodup.of_map _ (List.nodup_cons.mp h.ring.nodup).2

/-- The first page without a mark, if there is one. -/
theorem exists_unmarked (visited : Nat → Bool) (pages : List Nat) :
    (∀ p ∈ pages, visited p = true) ∨ ∃ passed page rest, pages = passed ++ page :: rest ∧
      (∀ p ∈ passed, visited p = true) ∧ visited page = false := by
  induction pages with
  | nil => exact Or.inl fun p hp => absurd hp List.not_mem_nil
  | cons page rest ih =>
      cases hpage : visited page with
      | false => exact Or.inr ⟨[], page, rest, rfl, fun p hp => absurd hp List.not_mem_nil, hpage⟩
      | true =>
          rcases ih with hall | ⟨passed, page', rest', rfl, hpassed, hpage'⟩
          · exact Or.inl (List.forall_mem_cons.mpr ⟨hpage, hall⟩)
          · exact Or.inr ⟨page :: passed, page', rest', rfl,
              List.forall_mem_cons.mpr ⟨hpage, hpassed⟩, hpage'⟩

/-- The hand on the header, with the first page to come. -/
theorem Clocked.wrapped (h : Clocked s before []) :
    Clocked { s with currPtr := handOn before } [] before := by
  refine ⟨?_, rfl⟩
  have hring := h.ring
  rwa [List.append_nil] at hring

/-- The hand on the header. -/
theorem Clocked.chosen_from_header (h : Clocked s before []) (hne : before ≠ [])
    (hfuel : before.length < fuel) :
    ∃ page t, clockLoop fuel s = .ok (page, t) ∧ Chosen s before [] page t := by
  obtain ⟨k, rfl⟩ : ∃ k, fuel = before.length + (k + 1) := ⟨fuel - before.length - 1, by omega⟩
  have hwrap := h.wrap (before.length + k) hne
  rcases exists_unmarked s.visited before with hall | ⟨passed, page, rest, rfl, hpassed, hpage⟩
  · -- every mark is cleared, and the hand comes to the header again
    obtain ⟨page, rest, rfl⟩ := List.exists_cons_of_ne_nil hne
    have hround : Clocked { s with currPtr := handOn (page :: rest) } [] (page :: rest ++ []) := by
      rw [List.append_nil]
      exact h.wrapped
    obtain ⟨u, hloop, hu, hsame⟩ := hround.passes (k + 1) hall
    rw [List.nil_append] at hu
    have hmark : u.visited page = false := by
      rw [hsame]
      simp [unmark]
    refine ⟨page, _, ?_, ?_, ⟨[], rest, by rw [List.append_nil, List.nil_append], hu.wrapped.taken⟩,
      ?_, ?_⟩
    · rw [← Nat.add_assoc, hwrap, Nat.add_assoc, hloop, hu.wrap _ (List.cons_ne_nil page rest)]
      exact hu.wrapped.take hmark
    · refine .again rest rfl hall ?_
      change u.visited = _
      rw [hsame, List.nil_append]
    · change u.praVaddr = _
      rw [hsame]
    · change u.disk = _
      rw [hsame]
  · obtain ⟨t, hrun, ht, hvisited, hvaddr, hdisk⟩ :=
      h.wrapped.first_unmarked (rest.length + 1 + k) hpassed hpage
    have hlength : (passed ++ page :: rest).length + k + 1 = passed.length +
        (rest.length + 1 + k + 1) := by
      rw [List.length_append, List.length_cons]
      omega
    rw [hlength] at hwrap
    refine ⟨page, t, ?_, ?_, ⟨passed, rest, by rw [List.append_nil], ht⟩, hvaddr, hdisk⟩
    · rw [← Nat.add_assoc, hlength, hwrap]
      exact hrun
    · exact .unmarked passed rest rfl hpassed hpage hvisited

/-- The marks on the pages before the hand, after it has passed those from it on. -/
theorem Clocked.unmark_before (h : Clocked s before after) :
    ∀ p ∈ before, unmark after s.visited p = s.visited p := by
  intro p hp
  have hnot : p ∉ after := fun hmem => List.disjoint_of_nodup_append h.nodup hp hmem
  simp [unmark, hnot]

/-- The pages from the hand on are all marked, so that it comes to the header. -/
theorem Clocked.chosen_past_header (h : Clocked s before after) (hne : after ≠ [])
    (hafter : ∀ p ∈ after, s.visited p = true) (hfuel : (before ++ after).length < fuel) :
    ∃ page t, clockLoop fuel s = .ok (page, t) ∧ Chosen s before after page t := by
  rw [List.length_append] at hfuel
  obtain ⟨k, rfl⟩ : ∃ k, fuel = after.length + (before.length + k + 1) :=
    ⟨fuel - after.length - before.length - 1, by omega⟩
  have hround : Clocked s before (after ++ []) := by rwa [List.append_nil]
  obtain ⟨u, hloop, hu, hsame⟩ := hround.passes (before.length + k + 1) hafter
  have hvisited : u.visited = unmark after s.visited := by rw [hsame]
  have hvaddr : u.praVaddr = s.praVaddr := by rw [hsame]
  have hdisk : u.disk = s.disk := by rw [hsame]
  have hwrap := hu.wrap (before.length + k) (List.append_ne_nil_of_right_ne_nil before hne)
  rcases exists_unmarked s.visited before with hbefore | ⟨passed, page, rest, rfl, hpassed, hpage⟩
  · -- nothing but the first page from the hand on is left, and its mark is gone
    obtain ⟨page, rest, rfl⟩ := List.exists_cons_of_ne_nil hne
    have hmarked : ∀ p ∈ before, u.visited p = true := by
      intro p hp
      rw [hvisited, h.unmark_before p hp]
      exact hbefore p hp
    have hmark : u.visited page = false := by
      rw [hvisited]
      simp [unmark]
    obtain ⟨t, hrun, ht, htvisited, htvaddr, htdisk⟩ := hu.wrapped.first_unmarked k hmarked hmark
    refine ⟨page, t, ?_, ?_, ⟨before, rest, rfl, ht⟩, htvaddr.trans hvaddr, htdisk.trans hdisk⟩
    · rw [hloop, hwrap]
      exact hrun
    · refine .again (rest ++ before) rfl ?_ ?_
      · exact List.forall_mem_append.mpr ⟨hafter, hbefore⟩
      · rw [htvisited, ← unmark_append]
        exact congrArg (unmark before) hvisited
  · have hmarked : ∀ p ∈ passed, u.visited p = true := by
      intro p hp
      rw [hvisited, h.unmark_before p (List.mem_append_left _ hp)]
      exact hpassed p hp
    have hmark : u.visited page = false := by
      rw [hvisited, h.unmark_before page (List.mem_append_right passed List.mem_cons_self)]
      exact hpage
    have hlist : passed ++ page :: rest ++ after = passed ++ page :: (rest ++ after) := by
      rw [List.append_assoc, List.cons_append]
    have hlength : (passed ++ page :: rest).length + k + 1 = passed.length +
        (rest.length + 1 + k + 1) := by
      rw [List.length_append, List.length_cons]
      omega
    have hon := hu.wrapped
    rw [hlist] at hon hwrap
    obtain ⟨t, hrun, ht, htvisited, htvaddr, htdisk⟩ :=
      hon.first_unmarked (rest.length + 1 + k) hmarked hmark
    refine ⟨page, t, ?_, ?_, ⟨passed, rest ++ after, hlist, ht⟩, htvaddr.trans hvaddr,
      htdisk.trans hdisk⟩
    · rw [hloop, hwrap, hlength]
      exact hrun
    · refine .unmarked (after ++ passed) rest (List.append_assoc ..).symm ?_ hpage ?_
      · exact List.forall_mem_append.mpr ⟨hafter, hpassed⟩
      · rw [htvisited, ← unmark_append]
        exact congrArg (unmark passed) hvisited

theorem Clocked.clockLoop_chosen (h : Clocked s before after) (hne : before ++ after ≠ [])
    (hfuel : (before ++ after).length < fuel) :
    ∃ page t, clockLoop fuel s = .ok (page, t) ∧ Chosen s before after page t := by
  rcases exists_unmarked s.visited after with hafter | ⟨passed, page, rest, rfl, hpassed, hpage⟩
  · cases after with
    | nil =>
        rw [List.append_nil] at hne hfuel
        exact h.chosen_from_header hne hfuel
    | cons page rest =>
        exact h.chosen_past_header (List.cons_ne_nil page rest) hafter hfuel
  · obtain ⟨k, rfl⟩ : ∃ k, fuel = passed.length + (k + 1) :=
      ⟨fuel - passed.length -
        1, by simp only [List.length_append, List.length_cons] at hfuel; omega⟩
    obtain ⟨t, hrun, ht, hvisited, hvaddr, hdisk⟩ := h.first_unmarked k hpassed hpage
    refine ⟨page, t, hrun, ?_, ⟨before ++ passed, rest, by rw [List.append_assoc], ht⟩, hvaddr,
      hdisk⟩
    exact .unmarked passed (rest ++ before)
      (by rw [List.append_assoc, List.cons_append]) hpassed hpage hvisited

/-- Wherever the hand is and whatever is marked, a list that is not empty has a victim, and
it is found before the hand has gone round twice. -/
theorem clockSwapOutVictim_chosen (h : Clocked s before after) (hne : before ++ after ≠ [])
    (hfuel : (before ++ after).length < fuel) :
    ∃ page t, clockSwapOutVictim fuel 0 s = .ok ((0, page), t) ∧ Chosen s before after page t := by
  obtain ⟨page, t, hrun, hchosen⟩ := h.clockLoop_chosen hne hfuel
  refine ⟨page, t, ?_, hchosen⟩
  rw [clockSwapOutVictim, bind_ok (a := ⟨⟩) (t := s) rfl, bind_ok hrun]
  rfl

/-- Two pages, with the hand on the second one. -/
def handOnSecond : Swap where
  visited _ := true
  praVaddr _ := 0
  praList :=
    (({ next _ := .praListHead, prev _ := .praListHead } : Links PraEntry).listAdd .praListHead
      (.praPageLink 4)).listAdd
      (.praPageLink 4) (.praPageLink 5)
  currPtr := .praPageLink 5
  disk _ _ := 0

theorem handOnSecond_clocked : Clocked handOnSecond [4] [5] := by
  refine ⟨?_, rfl⟩
  have hempty : ({ next _ := .praListHead, prev _ := .praListHead } : Links PraEntry).Ring
      .praListHead [] :=
    ring_nil_iff.mpr ⟨rfl, rfl⟩
  have hone := @Ring.listAdd PraEntry _ _ .praListHead (.praPageLink 4) [] [] hempty (by decide)
  exact @Ring.listAdd PraEntry _ _ .praListHead (.praPageLink 5) [.praPageLink 4]
    [] hone (by decide)

theorem clockSwapOutVictim_chosen_second : ∃ page t,
    clockSwapOutVictim 3 0 handOnSecond = .ok ((0, page), t) ∧ Chosen handOnSecond [4] [5] page t :=
  clockSwapOutVictim_chosen handOnSecond_clocked (by decide) (by decide)

end Ucore.Mm
