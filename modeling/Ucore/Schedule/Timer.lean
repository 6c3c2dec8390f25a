import Ucore.Foundation.Machine
import Ucore.Libs.List
import Ucore.Process.Proc

/-!
# Timers

`add_timer`, `del_timer` and `run_timer_list` of `kern/schedule/sched.c` in lab 8. Timers
are named by the addresses of their `timer_t`s. The loops get a bound on their rounds.
What the scheduling class does at a tick has no part in the timers and is left out.
-/

namespace Ucore.Schedule

open Machine Process

/-- A `list_entry_t *`: `&timer_list`, or the `timer_link` of a timer. -/
inductive Entry
  | timerList
  | timerLink (timer : Nat)
  deriving DecidableEq, Repr

/-- The fields of timers, and those of processes that timers use. -/
structure Timers where
  link : Links Entry
  expires : Nat → Nat
  proc : Nat → Option Nat
  state : Nat → ProcState
  waitState : Nat → BitVec 32

/-- Why the code does not return: a loop takes more rounds than it is given, a null pointer
is followed, or the assertion of a function fails. `run_timer_list` has two. -/
inductive Stop
  | runaway
  | nullPointer
  | addTimer
  | headExpires
  | waitState
  | wakeupProc
  deriving DecidableEq, Repr

abbrev TimerM := Machine Stop Timers

/-- The value of an expression stored in an `unsigned int`. -/
def uint (n : Nat) : Nat := n % 2 ^ 32

def setExpires (timer n : Nat) : TimerM PUnit :=
  modify fun s => { s with expires := Function.update s.expires timer n }

def setLink (f : Links Entry → Links Entry) : TimerM PUnit :=
  modify fun s => { s with link := f s.link }

def deref : Option Nat → TimerM Nat
  | some proc => pure proc
  | none => throw .nullPointer

/-- The loop of `add_timer`; returns the entry that the timer goes before. -/
def addLoop (timer : Nat) : Nat → Entry → TimerM Entry
  | 0, _ => throw .runaway
  | _ + 1, .timerList => return .timerList
  | fuel + 1, .timerLink next => do
      let s ← get
      if s.expires timer < s.expires next then
        setExpires next (s.expires next - s.expires timer)
        return .timerLink next
      else
        setExpires timer (s.expires timer - s.expires next)
        addLoop timer fuel (s.link.next (.timerLink next))

def addTimer (fuel timer : Nat) : TimerM PUnit := do
  let s ← get
  check .addTimer (0 < s.expires timer ∧ s.proc timer ≠ none)
  check .addTimer (s.link.listEmpty (.timerLink timer) = true)
  let le ← addLoop timer fuel (s.link.next .timerList)
  setLink fun l => l.listAddBefore le (.timerLink timer)

/-- `del_timer` gives the next timer what a timer still had to wait. -/
def giveNext (timer : Nat) : TimerM PUnit := do
  let s ← get
  if s.expires timer ≠ 0 then
    match s.link.next (.timerLink timer) with
    | .timerList => return ⟨⟩
    | .timerLink next => setExpires next (uint (s.expires next + s.expires timer))
  else return ⟨⟩

def delTimer (timer : Nat) : TimerM PUnit := do
  let s ← get
  if s.link.listEmpty (.timerLink timer) = false then
    giveNext timer
    setLink fun l => l.listDelInit (.timerLink timer)
  else return ⟨⟩

def wakeupProc (proc : Nat) : TimerM PUnit := do
  let s ← get
  check .wakeupProc (s.state proc ≠ .zombie)
  if s.state proc ≠ .runnable then
    modify fun s => { s with
      state := Function.update s.state proc .runnable
      waitState := Function.update s.waitState proc 0 }
  else return ⟨⟩

/-- `run_timer_list` wakes the process of a timer. -/
def fire (timer : Nat) : TimerM PUnit := do
  let s ← get
  let proc ← deref (s.proc timer)
  check .waitState (s.waitState proc ≠ 0 → s.waitState proc &&& WT_INTERRUPTED ≠ 0)
  wakeupProc proc
  delTimer timer

/-- The loop of `run_timer_list`. The result lists the timers that have fired. -/
def expireLoop : Nat → Entry → Nat → TimerM (List Nat)
  | 0, _, _ => throw .runaway
  | fuel + 1, le, timer => do
      let s ← get
      if s.expires timer = 0 then
        fire timer
        match s.link.next le with
        | .timerList => return [timer]
        | .timerLink next => do
            let rest ← expireLoop fuel (.timerLink next) next
            return timer :: rest
      else return []

def runTimerList (fuel : Nat) : TimerM (List Nat) := do
  let s ← get
  match s.link.next .timerList with
  | .timerList => return []
  | .timerLink timer => do
      check .headExpires (s.expires timer ≠ 0)
      setExpires timer (s.expires timer - 1)
      expireLoop fuel (.timerLink timer) timer

/-! ## The callers -/

/-- The timers, the number of calls of `run_timer_list` so far, and for each timer that has
fired the number of the call, the last one first. -/
structure Clock where
  timers : Timers
  ticks : Nat
  log : List (Nat × Nat)

/-- What happens next; `fuel` bounds the rounds of the loops. -/
inductive Action
  /-- `add_timer`, once the caller has set the fields. -/
  | add (fuel timer expires proc : Nat)
  | del (timer : Nat)
  | tick (fuel : Nat)
  /-- Other code runs, and processes are in other states. -/
  | other (state : Nat → ProcState) (waitState : Nat → BitVec 32)

/-- `add_timer`, with the fields that its caller sets. -/
def setTimer (fuel timer expires proc : Nat) : TimerM PUnit := do
  modify fun s => { s with
    expires := Function.update s.expires timer expires
    proc := Function.update s.proc timer (some proc) }
  addTimer fuel timer

/-- A timer is added when it is not on the list, to run out after at least one tick. `add_timer`
asserts both. -/
def Permitted (c : Clock) : Action → Prop
  | .add _ timer expires _ => 0 < expires ∧ expires < 2 ^ 32 ∧
      c.timers.link.listEmpty (.timerLink timer) = true
  | .del _ => True
  | .tick _ => True
  | .other _ _ => True

instance (c : Clock) : DecidablePred (Permitted c)
  | .add .. => inferInstanceAs (Decidable (_ ∧ _ ∧ _))
  | .del _ => isTrue trivial
  | .tick _ => isTrue trivial
  | .other .. => isTrue trivial

def step (c : Clock) : Action → Option Clock
  | .add fuel timer expires proc =>
      (exec (setTimer fuel timer expires proc) c.timers).map fun s => { c with timers := s }
  | .del timer => (exec (delTimer timer) c.timers).map fun s => { c with timers := s }
  | .tick fuel =>
      match runTimerList fuel c.timers with
      | .ok (fired, s) =>
          some ⟨s, c.ticks + 1, fired.map (fun timer => (c.ticks + 1, timer)) ++ c.log⟩
      | .error _ => none
  | .other state waitState =>
      some { c with timers := { c.timers with state := state, waitState := waitState } }

end Ucore.Schedule
