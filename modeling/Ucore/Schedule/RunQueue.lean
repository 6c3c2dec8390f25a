import Ucore.Foundation.Runs
import Ucore.Schedule.Timer

/-!
# The run queue

The round-robin scheduling class of `kern/schedule/default_sched_c.c` in lab 7, and
`wakeup_proc`, `schedule` and the tick of `kern/schedule/sched.c`. Lab 7 leaves the bodies
of `alloc_proc` and `proc_run` out: `run_link` is made a list of its own when a process is
created, and `proc_run` makes its argument the current process, as it does in labs 4 and 5.
-/

namespace Ucore.Schedule.RunQueue

open Machine Process

/-- A `list_entry_t *`: `&rq->run_list`, or the `run_link` of a process. -/
inductive Entry
  | runList
  | runLink (proc : Nat)
  deriving DecidableEq, Repr

def MAX_TIME_SLICE : Int := 5

def MAX_PROCESS : Nat := 4096

/-- The run queue, `current`, `idleproc`, and the fields of processes that scheduling uses;
`rq` says that the field of this name points to the run queue. `procs` are the processes
that exist. The last two fields record what `RR_enqueue` was called with and what
`RR_pick_next` has returned. -/
structure Sched where
  link : Links Entry
  procNum : Nat
  maxTimeSlice : Int
  current : Nat
  idleproc : Nat
  state : Nat → ProcState
  waitState : Nat → BitVec 32
  needResched : Nat → Bool
  timeSlice : Nat → Int
  rq : Nat → Bool
  procs : Finset Nat
  nrProcess : Nat
  enqueued : List Nat
  picked : List Nat

/-- The assertions and panics: of `RR_enqueue`, `RR_dequeue`, `wakeup_proc` and `do_exit`. -/
inductive Stop
  | enqueue
  | dequeue
  | wakeupProc
  | idleExit
  deriving DecidableEq, Repr

abbrev SchedM := Machine Stop Sched

/-! ## `default_sched_c.c` -/

def rrEnqueue (proc : Nat) : SchedM PUnit := do
  let s ← get
  check .enqueue (s.link.listEmpty (.runLink proc) = true)
  modify fun s => { s with
    link := s.link.listAddBefore .runList (.runLink proc)
    timeSlice :=
      if s.timeSlice proc = 0 ∨ s.maxTimeSlice < s.timeSlice proc then
        Function.update s.timeSlice proc s.maxTimeSlice
      else s.timeSlice
    rq := Function.update s.rq proc true
    procNum := uint (s.procNum + 1)
    enqueued := s.enqueued ++ [proc] }

def rrDequeue (proc : Nat) : SchedM PUnit := do
  let s ← get
  check .dequeue (s.link.listEmpty (.runLink proc) = false ∧ s.rq proc = true)
  modify fun s => { s with
    link := s.link.listDelInit (.runLink proc)
    procNum := uint (s.procNum + (2 ^ 32 - 1)) }

def rrPickNext : SchedM (Option Nat) := do
  let s ← get
  match s.link.next .runList with
  | .runList => return none
  | .runLink proc => do
      modify fun s => { s with picked := s.picked ++ [proc] }
      return some proc

def rrProcTick (proc : Nat) : SchedM PUnit := do
  modify fun s =>
    if 0 < s.timeSlice proc then
      { s with timeSlice := Function.update s.timeSlice proc (s.timeSlice proc - 1) }
    else s
  modify fun s =>
    if s.timeSlice proc = 0 then { s with needResched := Function.update s.needResched proc true }
    else s

/-! ## `sched.c` -/

def schedClassEnqueue (proc : Nat) : SchedM PUnit := do
  let s ← get
  if proc ≠ s.idleproc then rrEnqueue proc else return ⟨⟩

def schedClassProcTick (proc : Nat) : SchedM PUnit := do
  let s ← get
  if proc ≠ s.idleproc then rrProcTick proc
  else modify fun s => { s with needResched := Function.update s.needResched proc true }

def wakeupProc (proc : Nat) : SchedM PUnit := do
  let s ← get
  check .wakeupProc (s.state proc ≠ .zombie)
  if s.state proc ≠ .runnable then
    modify fun s => { s with
      state := Function.update s.state proc .runnable
      waitState := Function.update s.waitState proc 0 }
    if proc ≠ s.current then schedClassEnqueue proc else return ⟨⟩
  else return ⟨⟩

def procRun (proc : Nat) : SchedM PUnit := modify fun s => { s with current := proc }

/-- The process that `schedule` goes on with, off the run queue. -/
def takeNext : SchedM Nat := do
  match ← rrPickNext with
  | some next => do
      rrDequeue next
      return next
  | none => return (← get).idleproc

/-- `schedule` puts the current process back if it could run. -/
def putBack : SchedM PUnit := do
  let s ← get
  if s.state s.current = .runnable then schedClassEnqueue s.current else return ⟨⟩

def schedule : SchedM PUnit := do
  modify fun s => { s with needResched := Function.update s.needResched s.current false }
  putBack
  let next ← takeNext
  let s ← get
  if next ≠ s.current then procRun next else return ⟨⟩

/-! ## What happens to processes -/

inductive Event
  /-- `alloc_proc` for a `proc_struct` at a new address. -/
  | create (proc : Nat)
  | wakeup (proc : Nat)
  /-- The current process says that it sleeps, in any of the places that go on to `schedule`. -/
  | sleep (waitState : BitVec 32)
  /-- `do_exit` of the current process, up to `schedule`. -/
  | exit
  | schedule
  | tick
  /-- `do_wait` frees a process that has ended. -/
  | free (proc : Nat)
  deriving DecidableEq

/-- `do_fork` has a limit on the number of processes, a process that is woken exists, and `do_wait`
frees a zombie that does not run any more. -/
def Permitted (s : Sched) : Event → Prop
  | .create proc => proc ∉ s.procs ∧ s.nrProcess < MAX_PROCESS
  | .wakeup proc => proc ∈ s.procs
  | .sleep _ => True
  | .exit => True
  | .schedule => True
  | .tick => True
  | .free proc => proc ∈ s.procs ∧ s.state proc = .zombie ∧ proc ≠ s.current

instance (s : Sched) : DecidablePred (Permitted s)
  | .create proc => inferInstanceAs (Decidable (proc ∉ s.procs ∧ s.nrProcess < MAX_PROCESS))
  | .wakeup proc => inferInstanceAs (Decidable (proc ∈ s.procs))
  | .sleep _ => isTrue trivial
  | .exit => isTrue trivial
  | .schedule => isTrue trivial
  | .tick => isTrue trivial
  | .free proc =>
      inferInstanceAs (Decidable (proc ∈ s.procs ∧ s.state proc = .zombie ∧ proc ≠ s.current))

def act : Event → SchedM PUnit
  | .create proc =>
      modify fun s => { s with
        link := s.link.listInit (.runLink proc)
        state := Function.update s.state proc .uninit
        procs := insert proc s.procs
        nrProcess := s.nrProcess + 1 }
  | .wakeup proc => wakeupProc proc
  | .sleep waitState =>
      modify fun s => { s with
        state := Function.update s.state s.current .sleeping
        waitState := Function.update s.waitState s.current waitState }
  | .exit => do
      let s ← get
      check .idleExit (s.current ≠ s.idleproc)
      modify fun s => { s with state := Function.update s.state s.current .zombie }
  | .schedule => schedule
  | .tick => do schedClassProcTick (← get).current
  | .free proc =>
      modify fun s => { s with procs := s.procs.erase proc, nrProcess := s.nrProcess - 1 }

def step (s : Sched) (event : Event) : Option Sched := exec (act event) s

/-- `sched_init`, and `proc_init` has made `idleproc` run. -/
def Sched.initial (raw : Sched) (idleproc : Nat) : Sched :=
  { raw with
    link := (raw.link.listInit .runList).listInit (.runLink idleproc)
    procNum := 0
    maxTimeSlice := MAX_TIME_SLICE
    current := idleproc
    idleproc := idleproc
    state := Function.update raw.state idleproc .runnable
    procs := {idleproc}
    nrProcess := 1
    enqueued := []
    picked := [] }

/-! ## The links -/

/-- The run queue holds the processes `queue`, in this order, and those of the others that
exist are linked to nothing. -/
structure Linked (s : Sched) (queue : List Nat) : Prop where
  ring : s.link.Ring .runList (queue.map .runLink)
  subset : ∀ p ∈ queue, p ∈ s.procs
  apart : ∀ p ∈ s.procs, p ∉ queue → s.link.listEmpty (.runLink p) = true
  rq : ∀ p ∈ queue, s.rq p = true
  procNum : s.procNum = queue.length
  bound : s.procs.card ≤ MAX_PROCESS
  fifo : s.enqueued = s.picked ++ queue

/-- Processes exist and are in the states that they were in, and the same one is current. -/
structure Same (s s' : Sched) : Prop where
  state : s'.state = s.state
  current : s'.current = s.current
  idleproc : s'.idleproc = s.idleproc
  procs : s'.procs = s.procs
  nrProcess : s'.nrProcess = s.nrProcess

variable {s s' : Sched} {queue : List Nat} {p : Nat} {E : Stop → Prop}

theorem Same.refl (s : Sched) : Same s s := ⟨rfl, rfl, rfl, rfl, rfl⟩

theorem Same.trans {t : Sched} (h : Same s s') (h' : Same s' t) : Same s t :=
  ⟨h'.state.trans h.state, h'.current.trans h.current, h'.idleproc.trans h.idleproc,
    h'.procs.trans h.procs, h'.nrProcess.trans h.nrProcess⟩

namespace Linked

theorem congr (h : Linked s queue) (hsame : Same s s') (hlink : s'.link = s.link)
    (hrq : s'.rq = s.rq) (hnum : s'.procNum = s.procNum) (henqueued : s'.enqueued = s.enqueued)
    (hpicked : s'.picked = s.picked) : Linked s' queue where
  ring := hlink ▸ h.ring
  subset := hsame.procs ▸ h.subset
  apart := by
    rw [hsame.procs, hlink]
    exact h.apart
  rq := hrq ▸ h.rq
  procNum := hnum.trans h.procNum
  bound := hsame.procs ▸ h.bound
  fifo := by rw [henqueued, hpicked, h.fifo]

theorem nodup (h : Linked s queue) : queue.Nodup :=
  List.Nodup.of_map _ (List.nodup_cons.mp h.ring.nodup).2

/-- Its length is far from what an `unsigned int` can hold. -/
theorem length_le (h : Linked s queue) : queue.length ≤ MAX_PROCESS := by
  have hsub : queue.toFinset ⊆ s.procs := fun p hp => h.subset p (List.mem_toFinset.mp hp)
  have hcard := Finset.card_le_card hsub
  rw [List.toFinset_card_of_nodup h.nodup] at hcard
  exact hcard.trans h.bound

theorem not_entry (hp : p ∉ queue) : Entry.runLink p ∉ Entry.runList :: queue.map .runLink := by
  simpa using hp

end Linked

theorem rrEnqueue_spec (h : Linked s queue) (hp : p ∈ s.procs) (hout : p ∉ queue) :
    Ends E (rrEnqueue p) s fun _ s' => Linked s' (queue ++ [p]) ∧ Same s s' := by
  have hlen := h.length_le
  have hentry := Linked.not_entry hout
  rw [rrEnqueue, ends_bind, ends_get, ends_bind, ends_check (h.apart p hp hout), ends_modify]
  refine ⟨⟨?_, ?_, ?_, ?_, ?_, h.bound, ?_⟩, ⟨rfl, rfl, rfl, rfl, rfl⟩⟩
  · rw [List.map_append]
    exact h.ring.listAddBefore_header hentry
  · intro q hq
    rcases List.mem_append.mp hq with hq | hq
    · exact h.subset q hq
    · rw [List.mem_singleton.mp hq]
      exact hp
  · intro q hq hnot
    rw [List.mem_append, List.mem_singleton, not_or] at hnot
    have hne : Entry.runLink q ≠ Entry.runLink p := fun heq => hnot.2 (Entry.runLink.inj heq)
    have hnext := h.ring.listAddBefore_next List.mem_cons_self (Linked.not_entry hnot.1) hne
    have hempty := h.apart q hq hnot.1
    unfold Links.listEmpty at hempty ⊢
    rw [hnext]
    exact hempty
  · intro q hq
    by_cases hqp : q = p
    · rw [hqp]
      exact Function.update_self _ _ _
    · have hin : q ∈ queue :=
        (List.mem_append.mp hq).resolve_right fun hin => hqp (List.mem_singleton.mp hin)
      exact (Function.update_of_ne hqp _ _).trans (h.rq q hin)
  · change uint (s.procNum + 1) = (queue ++ [p]).length
    rw [h.procNum, List.length_append, List.length_singleton]
    exact Nat.mod_eq_of_lt (by unfold MAX_PROCESS at hlen; omega)
  · change s.enqueued ++ [p] = s.picked ++ (queue ++ [p])
    rw [h.fifo, List.append_assoc]

/-- `schedule` goes on with the first process of the run queue, or with `idleproc`. -/
theorem takeNext_spec (h : Linked s queue) :
    Ends E takeNext s fun next s' =>
      next = queue.head?.getD s.idleproc ∧ Linked s' queue.tail ∧ Same s s' := by
  rw [takeNext, rrPickNext, ends_bind, ends_bind, ends_get]
  cases queue with
  | nil =>
      have hnext : s.link.next .runList = .runList := (Links.ring_nil_iff.mp h.ring).1
      rw [hnext]
      exact ⟨rfl, h, .refl s⟩
  | cons p rest =>
      have hnext : s.link.next .runList = .runLink p := h.ring.joined_first.1
      have hlinked : s.link.listEmpty (.runLink p) = false := by
        have hring : s.link.Ring .runList ([] ++ .runLink p :: rest.map .runLink) := h.ring
        rw [hring.rotate.listEmpty_eq]
        simp
      obtain ⟨hp, hrest⟩ := List.nodup_cons.mp h.nodup
      have hlen := h.length_le
      rw [hnext]
      change Ends E (do rrDequeue p; return p) { s with picked := s.picked ++ [p] } _
      rw [rrDequeue, ends_bind, ends_bind, ends_get, ends_bind,
        ends_check ⟨hlinked, h.rq p List.mem_cons_self⟩, ends_modify]
      refine ⟨rfl, ⟨?_, ?_, ?_, ?_, ?_, h.bound, ?_⟩, ⟨rfl, rfl, rfl, rfl, rfl⟩⟩
      · have hring : s.link.Ring .runList ([] ++ .runLink p :: rest.map .runLink) := h.ring
        exact hring.listDel.listInit_other (Linked.not_entry hp)
      · exact fun q hq => h.subset q (List.mem_cons_of_mem p hq)
      · intro q hq hnot
        by_cases hqp : q = p
        · rw [hqp]
          simp [Links.listEmpty, Links.listDelInit, Links.listInit]
        · have hout : q ∉ p :: rest := fun hin => hnot ((List.mem_cons.mp hin).resolve_left hqp)
          have hempty := h.apart q hq hout
          have hnext := h.ring.listDel_next (e := .runLink p) (by simp) (Linked.not_entry hout)
          rw [Links.listEmpty] at hempty
          simpa [Links.listEmpty, Links.listDelInit, Links.listInit, hqp, hnext] using hempty
      · exact fun q hq => h.rq q (List.mem_cons_of_mem p hq)
      · change uint (s.procNum + (2 ^ 32 - 1)) = rest.length
        have hround : (p :: rest).length + (2 ^ 32 - 1) = rest.length + 2 ^ 32 := by
          rw [List.length_cons]
          omega
        rw [h.procNum, hround, uint, Nat.add_mod_right]
        rw [List.length_cons] at hlen
        exact Nat.mod_eq_of_lt (by unfold MAX_PROCESS at hlen; omega)
      · change s.enqueued = s.picked ++ [p] ++ rest
        rw [h.fifo, List.append_assoc]
        rfl

/-! ## Who is on the run queue -/

/-- A run ends when a process that has ended is woken, or when `idleproc` ends. The assertions on
the run queue are not excused. -/
def Excused : Stop → Prop
  | .enqueue => False
  | .dequeue => False
  | .wakeupProc => True
  | .idleExit => True

/-- The run queue holds the processes that could run and do not. -/
structure Inv (s : Sched) (queue : List Nat) : Prop where
  linked : Linked s queue
  mem : ∀ p, p ∈ queue ↔
    p ∈ s.procs ∧ s.state p = .runnable ∧ p ≠ s.current ∧ p ≠ s.idleproc
  current : s.current ∈ s.procs
  idle : s.idleproc ∈ s.procs
  alive : s.state s.idleproc ≠ .zombie
  card : s.procs.card = s.nrProcess

namespace Inv

theorem of_initial (raw : Sched) (idleproc : Nat) : Inv (.initial raw idleproc) [] where
  linked := by
    refine ⟨?_, fun _ hq => absurd hq List.not_mem_nil, ?_, fun _ hq => absurd hq List.not_mem_nil,
      rfl, ?_, rfl⟩
    · exact (Links.listInit_ring raw.link .runList).listInit_other (by simp)
    · intro p hp _
      obtain rfl := Finset.mem_singleton.mp hp
      simp [Links.listEmpty, Sched.initial, Links.listInit]
    · exact (Finset.card_singleton idleproc).le.trans (by decide)
  mem p := by
    constructor
    · exact fun hp => absurd hp List.not_mem_nil
    · rintro ⟨hp, _, hne, _⟩
      exact absurd (Finset.mem_singleton.mp hp) hne
  current := Finset.mem_singleton_self idleproc
  idle := Finset.mem_singleton_self idleproc
  alive := by
    change Function.update raw.state idleproc .runnable idleproc ≠ .zombie
    rw [Function.update_self]
    decide
  card := Finset.card_singleton idleproc

theorem current_out (h : Inv s queue) : s.current ∉ queue := fun hin => ((h.mem _).mp hin).2.2.1 rfl

/-- What is no field of the invariant may change. -/
theorem congr (h : Inv s queue) (hlinked : Linked s' queue) (hsame : Same s s') : Inv s' queue where
  linked := hlinked
  mem p := by
    rw [hsame.procs, hsame.state, hsame.current, hsame.idleproc]
    exact h.mem p
  current := by
    rw [hsame.current, hsame.procs]
    exact h.current
  idle := by
    rw [hsame.idleproc, hsame.procs]
    exact h.idle
  alive := by
    rw [hsame.idleproc, hsame.state]
    exact h.alive
  card := by
    rw [hsame.procs, hsame.nrProcess]
    exact h.card

/-- The current process changes its state. -/
theorem setState (h : Inv s queue) {state : ProcState} {waitState : Nat → BitVec 32}
    (halive : s.current = s.idleproc → state ≠ .zombie) :
    Inv { s with
      state := Function.update s.state s.current state
      waitState := waitState } queue where
  linked := ⟨h.linked.ring, h.linked.subset, h.linked.apart, h.linked.rq, h.linked.procNum,
    h.linked.bound, h.linked.fifo⟩
  mem p := by
    rw [h.mem p]
    by_cases hp : p = s.current
    · exact ⟨fun hin => absurd hp hin.2.2.1, fun hin => absurd hp hin.2.2.1⟩
    · change _ ↔ p ∈ s.procs ∧ Function.update s.state s.current state p = .runnable ∧ _
      rw [Function.update_of_ne hp]
  current := h.current
  idle := h.idle
  alive := by
    change Function.update s.state s.current state s.idleproc ≠ .zombie
    by_cases hidle : s.current = s.idleproc
    · rw [← hidle, Function.update_self]
      exact halive hidle
    · rw [Function.update_of_ne fun heq => hidle heq.symm]
      exact h.alive
  card := h.card

/-- `sched_class_enqueue` for a process that could run. -/
theorem enqueue_spec (hlinked : Linked s queue) (hp : p ∈ s.procs) (hout : p ∉ queue) :
    Ends E (schedClassEnqueue p) s fun _ s' =>
      Linked s' (if p ≠ s.idleproc then queue ++ [p] else queue) ∧ Same s s' := by
  rw [schedClassEnqueue, ends_bind, ends_get]
  split
  · exact rrEnqueue_spec hlinked hp hout
  · exact ⟨hlinked, .refl s⟩

theorem wakeupProc (h : Inv s queue) (hp : p ∈ s.procs) :
    Ends Excused (wakeupProc p) s fun _ s' => ∃ queue, Inv s' queue := by
  rw [RunQueue.wakeupProc, ends_bind, ends_get, ends_bind, ends_check_of trivial]
  intro hzombie
  split
  case isFalse => exact ⟨queue, h⟩
  case isTrue hasleep =>
    have hout : p ∉ queue := fun hin => hasleep ((h.mem p).mp hin).2.1
    rw [ends_bind, ends_modify]
    set s₁ : Sched := { s with
      state := Function.update s.state p .runnable
      waitState := Function.update s.waitState p 0 } with hs₁
    have hlinked : Linked s₁ queue := ⟨h.linked.ring, h.linked.subset, h.linked.apart, h.linked.rq,
      h.linked.procNum, h.linked.bound, h.linked.fifo⟩
    have hself : s₁.state p = .runnable := Function.update_self _ _ _
    have hother : ∀ q, q ≠ p → s₁.state q = s.state q := fun q hq => Function.update_of_ne hq _ _
    have halive : s₁.state s.idleproc ≠ .zombie := by
      by_cases hidle : s.idleproc = p
      · rw [hidle, hself]
        decide
      · rw [hother _ hidle]
        exact h.alive
    -- the queue is the same but for the process that has been woken
    have hmem : ∀ q, q ≠ p → (q ∈ queue ↔
        q ∈ s.procs ∧ s₁.state q = .runnable ∧ q ≠ s.current ∧ q ≠ s.idleproc) := by
      intro q hq
      rw [hother q hq]
      exact h.mem q
    by_cases hcur : p = s.current
    · rw [if_neg (not_not.mpr hcur)]
      refine ⟨queue, hlinked, ?_, h.current, h.idle, halive, h.card⟩
      intro q
      by_cases hq : q = p
      · rw [hq]
        exact ⟨fun hin => absurd hin hout, fun hin => absurd hcur hin.2.2.1⟩
      · exact hmem q hq
    · rw [if_pos hcur]
      apply (enqueue_spec hlinked hp hout).imp
      intro _ s' ⟨hlinked', hsame⟩
      by_cases hidle : p = s.idleproc
      · rw [if_neg (not_not.mpr hidle)] at hlinked'
        refine ⟨queue, Inv.congr ⟨hlinked, ?_, h.current, h.idle, halive, h.card⟩ hlinked' hsame⟩
        intro q
        by_cases hq : q = p
        · rw [hq]
          exact ⟨fun hin => absurd hin hout, fun hin => absurd hidle hin.2.2.2⟩
        · exact hmem q hq
      · have hidle' : p ≠ s₁.idleproc := hidle
        rw [if_pos hidle'] at hlinked'
        refine ⟨queue ++ [p], hlinked', ?_, ?_, ?_, ?_, ?_⟩
        · intro q
          rw [hsame.procs, hsame.state, hsame.current, hsame.idleproc, List.mem_append,
            List.mem_singleton]
          by_cases hq : q = p
          · rw [hq]
            exact ⟨fun _ => ⟨hp, hself, hcur, hidle⟩, fun _ => Or.inr rfl⟩
          · rw [hmem q hq]
            exact ⟨fun hin => hin.resolve_right hq, Or.inl⟩
        · rw [hsame.current, hsame.procs]
          exact h.current
        · rw [hsame.idleproc, hsame.procs]
          exact h.idle
        · rw [hsame.idleproc, hsame.state]
          exact halive
        · rw [hsame.procs, hsame.nrProcess]
          exact h.card

/-- The current process joins the queue if it could run. -/
def joined (s : Sched) (queue : List Nat) : List Nat :=
  if s.state s.current = .runnable ∧ s.current ≠ s.idleproc then queue ++ [s.current] else queue

theorem mem_joined (h : Inv s queue) :
    p ∈ joined s queue ↔ p ∈ s.procs ∧ s.state p = .runnable ∧ p ≠ s.idleproc := by
  unfold joined
  by_cases hp : p = s.current
  · have hout := h.current_out
    rw [hp]
    split
    case isTrue hjoins => exact ⟨fun _ => ⟨h.current, hjoins⟩, fun _ => by simp⟩
    case isFalse hstays => exact ⟨fun hin => absurd hin hout, fun hin => absurd hin.2 hstays⟩
  · have hmem := h.mem p
    split
    · rw [List.mem_append, List.mem_singleton, hmem]
      tauto
    · rw [hmem]
      tauto

theorem nodup_joined (h : Inv s queue) : (joined s queue).Nodup := by
  unfold joined
  split
  · rw [List.nodup_append]
    refine ⟨h.linked.nodup, List.nodup_singleton _, ?_⟩
    intro q hq r hr heq
    rw [heq, List.mem_singleton.mp hr] at hq
    exact h.current_out hq
  · exact h.linked.nodup

theorem putBack_spec (h : Inv s queue) :
    Ends E putBack s fun _ s' => Linked s' (joined s queue) ∧ Same s s' := by
  rw [putBack, ends_bind, ends_get, joined]
  split
  case isTrue hruns =>
    apply (enqueue_spec h.linked h.current h.current_out).imp
    intro _ s' hqueued
    by_cases hidle : s.current = s.idleproc
    · rw [if_neg (not_not.mpr hidle)] at hqueued
      rw [if_neg fun hin => hin.2 hidle]
      exact hqueued
    · rw [if_pos hidle] at hqueued
      rw [if_pos ⟨hruns, hidle⟩]
      exact hqueued
  case isFalse hblocked =>
    rw [if_neg fun hin => hblocked hin.1]
    exact ⟨h.linked, .refl s⟩

/-- The queue of those who could run, without the one that runs from now on. -/
theorem switch {next : Nat} (h : Inv s queue)
    (hnext : next = (joined s queue).head?.getD s.idleproc)
    (hlinked : Linked s' (joined s queue).tail) (hsame : Same s s') :
    Inv { s' with current := next } (joined s queue).tail where
  linked := ⟨hlinked.ring, hlinked.subset, hlinked.apart, hlinked.rq, hlinked.procNum,
    hlinked.bound, hlinked.fifo⟩
  mem p := by
    change p ∈ (joined s queue).tail ↔
      p ∈ s'.procs ∧ s'.state p = .runnable ∧ p ≠ next ∧ p ≠ s'.idleproc
    have hmem := h.mem_joined (p := p)
    have hnodup := h.nodup_joined
    rw [hsame.procs, hsame.state, hsame.idleproc]
    cases hjoined : joined s queue with
    | nil =>
        rw [hjoined] at hmem
        refine ⟨nofun, ?_⟩
        intro ⟨hp, hruns, _, hidle⟩
        exact hmem.mpr ⟨hp, hruns, hidle⟩
    | cons first rest =>
        rw [hjoined] at hmem hnodup
        rw [hjoined] at hnext
        obtain rfl : next = first := hnext
        have hfirst := (List.nodup_cons.mp hnodup).1
        rw [List.mem_cons] at hmem
        constructor
        · intro hin
          obtain ⟨hp, hruns, hidle⟩ := hmem.mp (Or.inr hin)
          exact ⟨hp, hruns, ne_of_mem_of_not_mem hin hfirst, hidle⟩
        · intro ⟨hp, hruns, hne, hidle⟩
          exact (hmem.mpr ⟨hp, hruns, hidle⟩).resolve_left hne
  current := by
    change next ∈ s'.procs
    rw [hsame.procs]
    cases hjoined : joined s queue with
    | nil =>
        rw [hjoined] at hnext
        exact hnext ▸ h.idle
    | cons first rest =>
        rw [hjoined] at hnext
        obtain rfl : next = first := hnext
        exact (h.mem_joined.mp (hjoined ▸ List.mem_cons_self)).1
  idle := by
    change s'.idleproc ∈ s'.procs
    rw [hsame.idleproc, hsame.procs]
    exact h.idle
  alive := by
    change s'.state s'.idleproc ≠ .zombie
    rw [hsame.idleproc, hsame.state]
    exact h.alive
  card := by
    change s'.procs.card = s'.nrProcess
    rw [hsame.procs, hsame.nrProcess]
    exact h.card

theorem schedule (h : Inv s queue) :
    Ends E schedule s fun _ s' => ∃ queue, Inv s' queue := by
  set s₀ : Sched := { s with needResched := Function.update s.needResched s.current false } with hs₀
  have hsame₀ : Same s s₀ := ⟨rfl, rfl, rfl, rfl, rfl⟩
  have h₀ : Inv s₀ queue := h.congr (h.linked.congr hsame₀ rfl rfl rfl rfl rfl) hsame₀
  rw [RunQueue.schedule, ends_bind, ends_modify, ends_bind]
  apply h₀.putBack_spec.imp
  intro _ s₁ ⟨hlinked₁, hsame₁⟩
  rw [ends_bind]
  apply (takeNext_spec hlinked₁).imp
  intro next s₂ ⟨hnext, hlinked₂, hsame₂⟩
  rw [hsame₁.idleproc] at hnext
  have hswitch := h₀.switch hnext hlinked₂ (hsame₁.trans hsame₂)
  rw [ends_bind, ends_get]
  split
  case isTrue => exact ⟨_, hswitch⟩
  case isFalse hstays =>
    -- the process that runs goes on
    rw [not_not.mp hstays] at hswitch
    exact ⟨_, hswitch⟩

theorem schedClassProcTick (h : Inv s queue) :
    Ends E (schedClassProcTick s.current) s fun _ s' => ∃ queue, Inv s' queue := by
  have hticks : Inv { s with
      timeSlice := Function.update s.timeSlice s.current (s.timeSlice s.current - 1) } queue :=
    h.congr (h.linked.congr ⟨rfl, rfl, rfl, rfl, rfl⟩ rfl rfl rfl rfl rfl) ⟨rfl, rfl, rfl, rfl, rfl⟩
  have hflags : ∀ {s : Sched}, Inv s queue → ∀ proc,
      Inv { s with needResched := Function.update s.needResched proc true } queue := by
    intro s h proc
    exact h.congr (h.linked.congr ⟨rfl, rfl, rfl, rfl, rfl⟩ rfl rfl rfl rfl rfl) ⟨rfl,
      rfl, rfl, rfl, rfl⟩
  rw [RunQueue.schedClassProcTick, ends_bind, ends_get]
  split
  case isTrue =>
    rw [rrProcTick, ends_bind, ends_modify, ends_modify]
    refine ⟨queue, ?_⟩
    split
    · split
      · exact hflags hticks s.current
      · exact hticks
    · split
      · exact hflags h s.current
      · exact h
  case isFalse => exact ⟨queue, hflags h s.current⟩

theorem create (h : Inv s queue) (hp : p ∉ s.procs) (hroom : s.nrProcess < MAX_PROCESS) :
    Ends E (act (.create p)) s fun _ s' => ∃ queue, Inv s' queue := by
  have hout : p ∉ queue := fun hin => hp (h.linked.subset p hin)
  have hne : ∀ q ∈ s.procs, q ≠ p := fun q hq heq => hp (heq ▸ hq)
  have hcard : (insert p s.procs).card = s.nrProcess + 1 := by
    rw [Finset.card_insert_of_notMem hp, h.card]
  rw [act, ends_modify]
  refine ⟨queue, ⟨?_, ?_, ?_, h.linked.rq, h.linked.procNum, ?_, h.linked.fifo⟩, ?_,
    ?_, ?_, ?_, hcard⟩
  · exact h.linked.ring.listInit_other (Linked.not_entry hout)
  · exact fun q hq => Finset.mem_insert_of_mem (h.linked.subset q hq)
  · intro q hq hnot
    by_cases hqp : q = p
    · rw [hqp]
      simp [Links.listEmpty, Links.listInit]
    · have hempty := h.linked.apart q ((Finset.mem_insert.mp hq).resolve_left hqp) hnot
      rw [Links.listEmpty] at hempty
      simpa [Links.listEmpty, Links.listInit, hqp] using hempty
  · exact hcard.trans_le hroom
  · intro q
    change q ∈ queue ↔ q ∈ insert p s.procs ∧ Function.update s.state p .uninit q = .runnable ∧ _
    by_cases hqp : q = p
    · rw [hqp, Function.update_self]
      exact ⟨fun hin => absurd hin hout, fun hin => by cases hin.2.1⟩
    · rw [h.mem q, Function.update_of_ne hqp, Finset.mem_insert, or_iff_right hqp]
  · exact Finset.mem_insert_of_mem h.current
  · exact Finset.mem_insert_of_mem h.idle
  · change Function.update s.state p .uninit s.idleproc ≠ .zombie
    rw [Function.update_of_ne (hne _ h.idle)]
    exact h.alive

theorem free (h : Inv s queue) (hp : p ∈ s.procs) (hzombie : s.state p = .zombie)
    (hcur : p ≠ s.current) : Ends E (act (.free p)) s fun _ s' => ∃ queue, Inv s' queue := by
  have hout : p ∉ queue := by
    intro hin
    have hruns := ((h.mem p).mp hin).2.1
    rw [hzombie] at hruns
    nomatch hruns
  have hidle : s.idleproc ≠ p := fun heq => h.alive (heq ▸ hzombie)
  rw [act, ends_modify]
  refine ⟨queue, ⟨h.linked.ring, ?_, ?_, h.linked.rq, h.linked.procNum, ?_, h.linked.fifo⟩,
    ?_, ?_, ?_, h.alive, ?_⟩
  · intro q hq
    exact Finset.mem_erase.mpr ⟨ne_of_mem_of_not_mem hq hout, h.linked.subset q hq⟩
  · intro q hq hnot
    exact h.linked.apart q (Finset.mem_of_mem_erase hq) hnot
  · exact (Finset.card_le_card (Finset.erase_subset p s.procs)).trans h.linked.bound
  · intro q
    change q ∈ queue ↔ q ∈ s.procs.erase p ∧ _
    rw [Finset.mem_erase, h.mem q]
    constructor
    · intro hin
      exact ⟨⟨ne_of_mem_of_not_mem ((h.mem q).mpr hin) hout, hin.1⟩, hin.2⟩
    · exact fun hin => ⟨hin.1.2, hin.2⟩
  · exact Finset.mem_erase.mpr ⟨hcur.symm, h.current⟩
  · exact Finset.mem_erase.mpr ⟨hidle, h.idle⟩
  · change (s.procs.erase p).card = s.nrProcess - 1
    rw [Finset.card_erase_of_mem hp, h.card]

/-- Whatever happens keeps the run queue, and no assertion of the scheduling class fails. -/
theorem of_act (h : Inv s queue) {event : Event} (hok : Permitted s event) :
    Ends Excused (act event) s fun _ s' => ∃ queue, Inv s' queue := by
  cases event with
  | create proc => exact h.create hok.1 hok.2
  | wakeup proc => exact h.wakeupProc hok
  | sleep waitState => exact ⟨queue, h.setState fun _ => by decide⟩
  | exit =>
      rw [act, ends_bind, ends_get, ends_bind, ends_check_of trivial]
      intro hne
      exact ⟨queue, h.setState fun hidle => absurd hidle hne⟩
  | schedule => exact h.schedule
  | tick => exact h.schedClassProcTick
  | free proc => exact h.free hok.1 hok.2.1 hok.2.2

theorem of_run {raw : Sched} {idleproc : Nat}
    (hrun : RunsTo step Permitted (.initial raw idleproc) s) : ∃ queue, Inv s queue := by
  induction hrun with
  | refl => exact ⟨[], of_initial raw idleproc⟩
  | tail _ hok hstep ih =>
      obtain ⟨queue, h⟩ := ih
      obtain ⟨_, hinv⟩ := (h.of_act hok).of_exec hstep
      exact hinv

end Inv

/-- The run queue in every state between two calls: it holds each process that could run, but
for the current one and `idleproc`, exactly once, and no other one; `proc_num` is its length;
processes are picked in the order in which they came; and no assertion of `RR_enqueue` or
`RR_dequeue` fails in what happens next. -/
theorem runQueue_sound {raw : Sched} {idleproc : Nat} {s : Sched}
    (hrun : RunsTo step Permitted (.initial raw idleproc) s) :
    ∃ queue : List Nat, s.link.Ring .runList (queue.map .runLink) ∧
      (∀ p, queue.count p =
        if p ∈ s.procs ∧ s.state p = .runnable ∧ p ≠ s.current ∧ p ≠ s.idleproc then 1 else 0) ∧
      s.procNum = queue.length ∧
      s.enqueued = s.picked ++ queue ∧
      ∀ event, Permitted s event → Ends Excused (act event) s fun _ _ => True := by
  obtain ⟨queue, h⟩ := Inv.of_run hrun
  refine ⟨queue, h.linked.ring, ?_, h.linked.procNum, h.linked.fifo, ?_⟩
  · intro p
    split
    next hin => exact List.count_eq_one_of_mem h.linked.nodup ((h.mem p).mpr hin)
    next hout => exact List.count_eq_zero_of_not_mem fun hin => hout ((h.mem p).mp hin)
  · intro event hok
    exact (h.of_act hok).imp fun _ _ _ => trivial

/-- Memory before anything has run. -/
def rawSched : Sched where
  link := ⟨id, id⟩
  procNum := 0
  maxTimeSlice := 0
  current := 0
  idleproc := 0
  state := fun _ => .uninit
  waitState := fun _ => 0
  needResched := fun _ => false
  timeSlice := fun _ => 0
  rq := fun _ => false
  procs := ∅
  nrProcess := 0
  enqueued := []
  picked := []

/-- A process is woken before it has been switched away, and queues behind the other one. -/
def earlyWakeup : List Event :=
  [.create 1, .wakeup 1, .create 2, .wakeup 2, .schedule, .sleep 0, .wakeup 1, .tick, .schedule]

theorem runQueue_sound_earlyWakeup : ∃ s : Sched, s.current = 2 ∧ s.enqueued = [1, 2, 1] ∧
    ∃ queue : List Nat, s.link.Ring .runList (queue.map .runLink) ∧ s.procNum = queue.length := by
  have hfold : (earlyWakeup.foldlM (fun s event => if Permitted s event then step s event else none)
      (.initial rawSched 0)).map (fun s => (s.current, s.enqueued)) = some (2, [1, 2, 1]) := by
    decide
  obtain ⟨s, hrun, hpair⟩ := Option.map_eq_some_iff.mp hfold
  obtain ⟨hcurrent, henqueued⟩ := Prod.mk.inj hpair
  obtain ⟨queue, hring, _, hnum, _⟩ := runQueue_sound (RunsTo.of_foldlM hrun)
  exact ⟨s, hcurrent, henqueued, queue, hring, hnum⟩

end Ucore.Schedule.RunQueue
