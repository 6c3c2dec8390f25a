import Mathlib.Data.Finset.Card
import Ucore.Foundation.Machine
import Ucore.Libs.List
import Ucore.Process.Proc

/-!
# Semaphores

`kern/sync/sem.c` and what it uses of `kern/sync/wait.c` in lab 8. What runs with
interrupts disabled is one step. The `wait_t` of a process is on its stack, and a process
waits for one thing at a time, so that a `wait_t` is named by its process.
-/

namespace Ucore.Sync

open Machine Process

def WT_KSEM : BitVec 32 := 0x100

/-- A `list_entry_t *`: the header of the wait queue, or the `wait_link` of a process. -/
inductive Entry
  | waitHead
  | waitLink (wait : Nat)
  deriving DecidableEq, Repr

/-- A semaphore, with the fields of waits and of processes that it uses. -/
structure Sem where
  value : Int
  link : Links Entry
  /-- `wait->proc`. -/
  proc : Nat → Option Nat
  wakeupFlags : Nat → BitVec 32
  /-- `wait->wait_queue` is the queue of the semaphore. -/
  waitQueue : Nat → Bool
  state : Nat → ProcState
  waitState : Nat → BitVec 32

/-- The functions whose assertions may fail; `nullPointer` is a null `wait->proc`. -/
inductive Failed
  | up
  | down
  | waitQueueAdd
  | waitQueueDel
  | wakeupProc
  | nullPointer
  deriving DecidableEq, Repr

abbrev SemM := Machine Failed Sem

/-- The value of an expression stored in an `int`. -/
def int (n : Int) : Int := (n + 2 ^ 31) % 2 ^ 32 - 2 ^ 31

def INT_MAX : Int := 2 ^ 31 - 1

/-! ## `wait.c` -/

def waitInit (wait proc : Nat) : SemM PUnit :=
  modify fun s => { s with
    proc := Function.update s.proc wait (some proc)
    wakeupFlags := Function.update s.wakeupFlags wait WT_INTERRUPTED
    link := s.link.listInit (.waitLink wait) }

def waitQueueAdd (wait : Nat) : SemM PUnit := do
  let s ← get
  check .waitQueueAdd (s.link.listEmpty (.waitLink wait) = true ∧ s.proc wait ≠ none)
  modify fun s => { s with
    waitQueue := Function.update s.waitQueue wait true
    link := s.link.listAddBefore .waitHead (.waitLink wait) }

def waitQueueDel (wait : Nat) : SemM PUnit := do
  let s ← get
  check .waitQueueDel (s.link.listEmpty (.waitLink wait) = false ∧ s.waitQueue wait = true)
  modify fun s => { s with link := s.link.listDelInit (.waitLink wait) }

def waitQueueFirst (s : Sem) : Option Nat :=
  match s.link.next .waitHead with
  | .waitHead => none
  | .waitLink wait => some wait

/-- `wakeup_proc`. -/
def wakeupProc (proc : Nat) : SemM PUnit := do
  let s ← get
  check .wakeupProc (s.state proc ≠ .zombie)
  if s.state proc ≠ .runnable then
    modify fun s => { s with
      state := Function.update s.state proc .runnable
      waitState := Function.update s.waitState proc 0 }
  else return ⟨⟩

def deref : Option Nat → SemM Nat
  | some proc => pure proc
  | none => throw .nullPointer

/-- `wakeup_wait` with `del`. -/
def wakeupWait (wait : Nat) (wakeupFlags : BitVec 32) : SemM PUnit := do
  waitQueueDel wait
  modify fun s => { s with wakeupFlags := Function.update s.wakeupFlags wait wakeupFlags }
  let s ← get
  let proc ← deref (s.proc wait)
  wakeupProc proc

/-- `wait_current_set`, where `current` is not null. -/
def waitCurrentSet (current wait : Nat) (waitState : BitVec 32) : SemM PUnit := do
  waitInit wait current
  modify fun s => { s with
    state := Function.update s.state current .sleeping
    waitState := Function.update s.waitState current waitState }
  waitQueueAdd wait

def waitCurrentDel (wait : Nat) : SemM PUnit := do
  let s ← get
  if s.link.listEmpty (.waitLink wait) = false then waitQueueDel wait
  else return ⟨⟩

/-! ## `sem.c` -/

/-- `__up`. The result is the process that it wakes. -/
def semUp (waitState : BitVec 32) : SemM (Option Nat) := do
  let s ← get
  match waitQueueFirst s with
  | none => do
      modify fun s => { s with value := int (s.value + 1) }
      return none
  | some wait => do
      let proc ← deref (s.proc wait)
      check .up (s.waitState proc = waitState)
      wakeupWait wait waitState
      return some wait

/-- `__down` up to `schedule`. The result says whether it returns before. -/
def semDown (current : Nat) (waitState : BitVec 32) : SemM Bool := do
  let s ← get
  if 0 < s.value then
    modify fun s => { s with value := int (s.value - 1) }
    return true
  else
    waitCurrentSet current current waitState
    return false

/-- `__down` after `schedule`. -/
def semDowned (current : Nat) (waitState : BitVec 32) : SemM (BitVec 32) := do
  waitCurrentDel current
  let s ← get
  if s.wakeupFlags current ≠ waitState then return s.wakeupFlags current else return 0

def up : SemM (Option Nat) := semUp WT_KSEM

/-- `down` up to `schedule`. -/
def down (current : Nat) : SemM Bool := semDown current WT_KSEM

/-- `down` after `schedule`. -/
def downed (current : Nat) : SemM PUnit := do
  let flags ← semDowned current WT_KSEM
  check .down (flags = 0)

def tryDown : SemM Bool := do
  let s ← get
  if 0 < s.value then
    modify fun s => { s with value := int (s.value - 1) }
    return true
  else return false

/-! ## Processes that use a semaphore -/

/-- A semaphore, the processes that are between the two parts of `down`, and counts of
what has happened: calls of `up`, and calls of `down` and `try_down` that have taken a
unit. `arrivals` and `wakeups` are the processes that were queued and woken, in order. -/
structure Shared where
  sem : Sem
  inside : Finset Nat
  ups : Nat
  taken : Nat
  arrivals : List Nat
  wakeups : List Nat

/-- What happens next. -/
inductive Action
  | up
  | down (proc : Nat)
  /-- The scheduler lets a process that is in `down` run again. -/
  | resume (proc : Nat)
  | tryDown
  /-- Other code runs, and processes are in other states. -/
  | other (state : Nat → ProcState) (waitState : Nat → BitVec 32)

/-- A process in `down` goes on when it is runnable, and nothing but `up` wakes it. A process that
is in no call may make any. -/
def Permitted (sys : Shared) : Action → Prop
  | .up => True
  | .down proc => proc ∉ sys.inside
  | .resume proc => proc ∈ sys.inside ∧ sys.sem.state proc = .runnable
  | .tryDown => True
  | .other state waitState => ∀ proc ∈ sys.inside,
      state proc = sys.sem.state proc ∧ waitState proc = sys.sem.waitState proc

instance (sys : Shared) : DecidablePred (Permitted sys)
  | .up => isTrue trivial
  | .down proc => inferInstanceAs (Decidable (proc ∉ sys.inside))
  | .resume _ => inferInstanceAs (Decidable (_ ∧ _))
  | .tryDown => isTrue trivial
  | .other state waitState => inferInstanceAs (Decidable (∀ proc ∈ sys.inside,
      state proc = sys.sem.state proc ∧ waitState proc = sys.sem.waitState proc))

def step (sys : Shared) : Action → Option Shared
  | .up =>
      match up sys.sem with
      | .ok (woken, sem) => some { sys with
          sem := sem, ups := sys.ups + 1, wakeups := sys.wakeups ++ woken.toList }
      | .error _ => none
  | .down proc =>
      match down proc sys.sem with
      | .ok (true, sem) => some { sys with sem := sem, taken := sys.taken + 1 }
      | .ok (false, sem) => some { sys with
          sem := sem, inside := insert proc sys.inside, arrivals := sys.arrivals ++ [proc] }
      | .error _ => none
  | .resume proc =>
      match downed proc sys.sem with
      | .ok (_, sem) => some { sys with
          sem := sem, inside := sys.inside.erase proc, taken := sys.taken + 1 }
      | .error _ => none
  | .tryDown =>
      match tryDown sys.sem with
      | .ok (true, sem) => some { sys with sem := sem, taken := sys.taken + 1 }
      | .ok (false, sem) => some { sys with sem := sem }
      | .error _ => none
  | .other state waitState =>
      some { sys with sem := { sys.sem with state := state, waitState := waitState } }

/-- `sem_init`. -/
def Sem.semInit (sem : Sem) (value : Int) : Sem :=
  { sem with value := value, link := sem.link.listInit .waitHead }

/-- A semaphore that nobody has used yet. -/
def Shared.initial (sem : Sem) (value : Int) : Shared where
  sem := sem.semInit value
  inside := ∅
  ups := 0
  taken := 0
  arrivals := []
  wakeups := []

end Ucore.Sync
