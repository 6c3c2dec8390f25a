import Ucore.Process.Lifecycle

/-!
# The kernel as a system

`kern/syscall/syscall.c`, the part of `kern/trap/trap.c` that ends or switches
processes, and the kernel threads. One step runs the current process from its context
to the next `schedule`, or to user mode. System calls and faults that panic on their
own account are left out.
-/

namespace Ucore.Process

open Machine

/-- A system call. `exec` either returns or ends in `do_exit`. -/
inductive Syscall
  | exit (errorCode : Int)
  | fork
  | wait (pid : Int) (store : CodeStore)
  | exec (failed : Option Int)
  | yield
  | kill (pid : Int)
  | other
  deriving DecidableEq, Repr

/-- Why the current process enters the kernel. `tick` is a timer interrupt at which
`ticks % TICK_NUM` is 0. -/
inductive Trap
  | tick
  | syscall (call : Syscall)
  | other
  deriving DecidableEq, Repr

/-- The trap, and the memory there is for a fork. -/
structure Event where
  trap : Trap
  memory : ForkMemory
  deriving DecidableEq, Repr

/-- `syscall`; whether it returns before another process runs. -/
def syscall (memory : ForkMemory) : Syscall → KernM Bool
  | .exit errorCode => do
      doExit errorCode
      pure false
  | .fork => do
      let _ ← doFork .user memory
      pure true
  | .wait pid store => do
      let r ← doWait pid store (.waiting pid store)
      pure r.isSome
  | .exec none => pure true
  | .exec (some errorCode) => do
      doExit errorCode
      pure false
  | .yield => do
      let _ ← doYield
      pure true
  | .kill pid => do
      let _ ← doKill pid
      pure true
  | .other => pure true

/-- `interrupt_handler`, for a timer interrupt. -/
def timerInterrupt : KernM Unit := do
  let cur ← deref (← get).current
  modify fun k => { k with needResched := Function.update k.needResched cur true }

/-- The end of `trap`, on the way back to user mode. -/
def trapReturn : KernM Unit := do
  let cur ← deref (← get).current
  if (← get).flags cur &&& PF_EXITING ≠ 0 then doExit (-E_KILLED)
  else if (← get).needResched cur then schedule .user

/-- `trap`, from user mode. -/
def trap (event : Event) : KernM Unit := do
  match event.trap with
  | .tick => do
      timerInterrupt
      trapReturn
  | .syscall call => do
      if ← syscall event.memory call then trapReturn
  | .other => trapReturn

/-- The end of `init_main`, which returns to `do_exit`. -/
def initFinish : KernM Unit := do
  let k ← get
  let init ← deref k.initproc
  if k.cptr init ≠ none ∨ k.yptr init ≠ none ∨ k.optr init ≠ none then throw .initCheck
  else if k.nrProcess ≠ 2 then throw .initCheck
  else if k.links.next .procList ≠ .listLink init then throw .initCheck
  else if k.links.prev .procList ≠ .listLink init then throw .initCheck
  else doExit 0

/-- The loop of `init_main` behind its `do_wait`. -/
def initLoop : Option (Int × Option Int) → KernM Unit
  | none => pure ()
  | some (r, _) => if r = 0 then schedule .initLoop else initFinish

/-- A kernel thread goes on; a timer interrupt only sets its `need_resched`. -/
def runThread (context : Context) (event : Event) : KernM Unit := do
  let cur ← deref (← get).current
  if event.trap = .tick then timerInterrupt
  else
    match context with
    | .cpuIdle => if (← get).needResched cur then schedule .cpuIdle
    | .initMain => do
        let pid ← doFork .userMain event.memory
        if pid ≤ 0 then throw .createUserMain
        else modify fun k => { k with context := Function.update k.context cur .initLoop }
    | .initWaiting => do
        let r ← waitResume 0 .null .initWaiting
        initLoop r
    | .initLoop => do
        let r ← doWait 0 .null .initWaiting
        initLoop r
    | .userMain =>
        match event.trap with
        | .syscall (.exec none) =>
            modify fun k => { k with context := Function.update k.context cur .user }
        | .syscall (.exec (some errorCode)) => doExit errorCode
        | _ => pure ()
    | _ => throw .exitReturned

/-- The current process runs. -/
def step (event : Event) : KernM Unit := do
  let cur ← deref (← get).current
  match (← get).context cur with
  | .user => trap event
  | .waiting pid store => do
      let r ← waitResume pid store (.waiting pid store)
      if r.isSome then trapReturn
  | context => runThread context event

def Event.step (k : Kernel) (event : Event) : Option Kernel := exec (Process.step event) k

/-- Memory that `kmalloc` returns is not in use. -/
def Event.Permitted (k : Kernel) (event : Event) : Prop := ∀ p ∈ event.memory.proc, p ∉ k.heap

instance (k : Kernel) (event : Event) : Decidable (event.Permitted k) := by
  unfold Event.Permitted
  infer_instance

end Ucore.Process
