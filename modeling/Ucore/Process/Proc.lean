import Mathlib.Data.Finset.Insert
import Ucore.Foundation.DList
import Ucore.Foundation.Machine
import Ucore.Libs.List
import Ucore.Process.Pid

/-!
# Processes

`kern/process/proc.c` and `kern/schedule/sched.c` of lab 5. Processes are named by
the addresses of their `proc_struct`s, and the fields of a `proc_struct` are maps on
these addresses. `schedule` ends what the calling process does for now; where it goes
on later is kept in its `context`.
-/

namespace Ucore.Process

open Machine

/-! ## The data -/

inductive ProcState
  | uninit
  | sleeping
  | runnable
  | zombie
  deriving DecidableEq, Repr

/-- A `list_entry_t *` on `proc_list`: its header or the `list_link` of a process. -/
inductive ListEntry
  | procList
  | listLink (proc : Nat)
  deriving DecidableEq, Repr

def HASH_SHIFT : Nat := 10

def HASH_LIST_SIZE : Nat := 2 ^ HASH_SHIFT

/-- A `list_entry_t *` on a list of `hash_list`: a header or the `hash_link` of a process. -/
inductive HashEntry
  | hashList (i : Fin HASH_LIST_SIZE)
  | hashLink (proc : Nat)
  deriving DecidableEq, Repr

def PF_EXITING : BitVec 32 := 1

def WT_INTERRUPTED : BitVec 32 := 0x80000000

def WT_CHILD : BitVec 32 := 1 ||| WT_INTERRUPTED

def E_BAD_PROC : Int := 2

def E_INVAL : Int := 3

def E_NO_MEM : Int := 4

def E_NO_FREE_PROC : Int := 5

def E_KILLED : Int := 9

/-- The argument `code_store` of `do_wait`; `user_mem_check` refuses `unmapped`. -/
inductive CodeStore
  | null
  | unmapped
  | mapped
  deriving DecidableEq, Repr

/-- Where a process goes on when it runs again. -/
inductive Context
  /-- In user mode. -/
  | user
  /-- After `schedule` in the `do_wait` of `sys_wait`. -/
  | waiting (pid : Int) (store : CodeStore)
  /-- In the loop of `cpu_idle`. -/
  | cpuIdle
  /-- At the start of `init_main`. -/
  | initMain
  /-- After `schedule` in the `do_wait` of `init_main`. -/
  | initWaiting
  /-- After `schedule` in the loop of `init_main`. -/
  | initLoop
  /-- At the start of `user_main`. -/
  | userMain
  /-- After `schedule` in `do_exit`. -/
  | exited
  deriving DecidableEq, Repr

/-- `proc_list` and `hash_list`, with the fields and the variables that go with them. -/
structure Lists where
  links : Links ListEntry
  hash : Links HashEntry
  pid : Nat → Int
  nrProcess : Int
  /-- The static variables of `get_pid`. -/
  lastPid : Int
  nextSafe : Int

/-- The relations between processes. -/
structure Relations where
  parent : Nat → Option Nat
  cptr : Nat → Option Nat
  yptr : Nat → Option Nat
  optr : Nat → Option Nat

structure Kernel extends Lists, Relations where
  state : Nat → ProcState
  needResched : Nat → Bool
  context : Nat → Context
  flags : Nat → BitVec 32
  exitCode : Nat → Int
  waitState : Nat → BitVec 32
  /-- The `proc_struct`s in use. -/
  heap : Finset Nat
  idleproc : Option Nat
  initproc : Option Nat
  current : Option Nat

/-- Reasons why the kernel stops. `runaway` is a list walk that does not end. -/
inductive Panic
  | nullPointer
  | runaway
  | paddr
  | wakeupZombie
  | idleExit
  | initExit
  | exitReturned
  | waitInit
  | createInitMain
  | createUserMain
  | initCheck
  deriving DecidableEq, Repr

abbrev KernM := Machine Panic Kernel

/-- The address in a pointer that is followed. -/
def deref : Option Nat → KernM Nat
  | some p => pure p
  | none => throw .nullPointer

/-! ## `sched.c` -/

def wakeupProc (proc : Nat) : KernM Unit := do
  let k ← get
  if k.state proc = .zombie then throw .wakeupZombie
  if k.state proc ≠ .runnable then
    modify fun k => { k with
      state := Function.update k.state proc .runnable
      waitState := Function.update k.waitState proc 0 }

/-- The loop of `schedule` behind the entry `le`; `next` is its variable. -/
def pickNext (l : Lists) (state : Nat → ProcState) (last : ListEntry) :
    Nat → ListEntry → Option Nat → Option (Option Nat)
  | 0, _, _ => none
  | fuel + 1, le, next =>
      match l.links.next le with
      | .procList =>
          if .procList = last then some next else pickNext l state last fuel .procList next
      | .listLink proc =>
          if state proc = .runnable then some (some proc)
          else if .listLink proc = last then some (some proc)
          else pickNext l state last fuel (.listLink proc) (some proc)

/-- No list of processes is longer. -/
def listBound : Nat := MAX_PROCESS + 2

/-- `schedule`, called at `context`. -/
def schedule (context : Context) : KernM Unit := do
  let cur ← deref (← get).current
  modify fun k => { k with needResched := Function.update k.needResched cur false }
  let k ← get
  let last := if k.current = k.idleproc then .procList else .listLink cur
  match pickNext k.toLists k.state last listBound last none with
  | none => throw .runaway
  | some next => do
      let next ← match next with
        | some proc => if k.state proc = .runnable then pure proc else deref k.idleproc
        | none => deref k.idleproc
      modify fun k => { k with
        context := Function.update k.context cur context
        current := some next }

/-! ## The lists of processes -/

/-- `pid_hashfn`. -/
def pidHashfn (pid : Int) : Fin HASH_LIST_SIZE :=
  let hash := BitVec.ofInt 32 pid * 0x9e370001#32
  ⟨(hash >>> (32 - HASH_SHIFT)).toNat % HASH_LIST_SIZE, Nat.mod_lt _ (by decide)⟩

/-- The processes behind an entry of `proc_list`. -/
def listProcs (l : Lists) : Nat → ListEntry → Option (List Nat)
  | 0, _ => none
  | fuel + 1, le =>
      match l.links.next le with
      | .procList => some []
      | .listLink proc => (proc :: ·) <$> listProcs l fuel (.listLink proc)

def allocPid : KernM Int := do
  let k ← get
  match listProcs k.toLists listBound .procList with
  | none => throw .runaway
  | some procs =>
      match getPid MAX_PID.toNat (procs.map k.pid) k.lastPid k.nextSafe with
      | none => throw .runaway
      | some (lastPid, nextSafe) => do
          modify fun k => { k with lastPid := lastPid, nextSafe := nextSafe }
          pure lastPid

def setLinks (proc : Nat) : KernM Unit := do
  modify fun k => { k with links := k.links.listAdd .procList (.listLink proc) }
  modify fun k => { k with yptr := Function.update k.yptr proc none }
  let parent ← deref ((← get).parent proc)
  modify fun k => { k with optr := Function.update k.optr proc (k.cptr parent) }
  modify fun k => { k with yptr := relink k.yptr (k.optr proc) (some proc) }
  modify fun k => { k with cptr := Function.update k.cptr parent (some proc) }
  modify fun k => { k with nrProcess := k.nrProcess + 1 }

def removeLinks (proc : Nat) : KernM Unit := do
  modify fun k => { k with links := k.links.listDel (.listLink proc) }
  modify fun k => { k with yptr := relink k.yptr (k.optr proc) (k.yptr proc) }
  match (← get).yptr proc with
  | some younger =>
      modify fun k => { k with optr := Function.update k.optr younger (k.optr proc) }
  | none => do
      let parent ← deref ((← get).parent proc)
      modify fun k => { k with cptr := Function.update k.cptr parent (k.optr proc) }
  modify fun k => { k with nrProcess := k.nrProcess - 1 }

def hashProc (proc : Nat) : KernM Unit :=
  modify fun k => { k with
    hash := k.hash.listAdd (.hashList (pidHashfn (k.pid proc))) (.hashLink proc) }

def unhashProc (proc : Nat) : KernM Unit :=
  modify fun k => { k with hash := k.hash.listDel (.hashLink proc) }

/-- The loop of `find_proc` behind the entry `le` of a list. -/
def findFrom (l : Lists) (pid : Int) (list : Fin HASH_LIST_SIZE) :
    Nat → HashEntry → Option (Option Nat)
  | 0, _ => none
  | fuel + 1, le =>
      match l.hash.next le with
      | .hashList i => if i = list then some none else none
      | .hashLink proc =>
          if l.pid proc = pid then some (some proc) else findFrom l pid list fuel (.hashLink proc)

def findProc (pid : Int) : KernM (Option Nat) := do
  if 0 < pid ∧ pid < MAX_PID then
    match findFrom (← get).toLists pid (pidHashfn pid) listBound (.hashList (pidHashfn pid)) with
    | some proc => pure proc
    | none => throw .runaway
  else pure none

/-! ## Fork -/

/-- How the allocations of `do_fork` end: `kmalloc` in `alloc_proc`, `setup_kstack`
and `copy_mm`. -/
structure ForkMemory where
  proc : Option Nat
  kstack : Bool
  mm : Bool
  deriving DecidableEq, Repr

/-- `alloc_proc`, when `kmalloc` returns `proc`. The list entries are cleared as well;
they are written before they are read. -/
def allocProc (proc : Nat) : KernM Unit :=
  modify fun k => { k with
    heap := insert proc k.heap
    state := Function.update k.state proc .uninit
    pid := Function.update k.pid proc (-1)
    needResched := Function.update k.needResched proc false
    parent := Function.update k.parent proc none
    flags := Function.update k.flags proc 0
    exitCode := Function.update k.exitCode proc 0
    waitState := Function.update k.waitState proc 0
    cptr := Function.update k.cptr proc none
    yptr := Function.update k.yptr proc none
    optr := Function.update k.optr proc none }

def kfree (proc : Nat) : KernM Unit := modify fun k => { k with heap := k.heap.erase proc }

/-- `do_fork` after `copy_thread`. -/
def enterProc (proc : Nat) : KernM Int := do
  let pid ← allocPid
  modify fun k => { k with pid := Function.update k.pid proc pid }
  hashProc proc
  setLinks proc
  wakeupProc proc
  pure pid

/-- `do_fork`; `context` is where `copy_thread` lets the new process start. -/
def doFork (context : Context) (memory : ForkMemory) : KernM Int := do
  if (← get).nrProcess ≥ MAX_PROCESS then pure (-E_NO_FREE_PROC)
  else
    match memory.proc with
    | none => pure (-E_NO_MEM)
    | some proc => do
        allocProc proc
        modify fun k => { k with parent := Function.update k.parent proc k.current }
        -- `bad_fork_cleanup_kstack` calls `put_kstack` with the address 0.
        if memory.kstack = false then throw .paddr
        else if memory.mm = false then
          kfree proc
          pure (-E_NO_MEM)
        else
          modify fun k => { k with context := Function.update k.context proc context }
          enterProc proc

/-! ## Exit -/

/-- One round of the loop of `do_exit`, for the child `proc` of `cur`. -/
def adopt (cur proc : Nat) : KernM Unit := do
  modify fun k => { k with cptr := Function.update k.cptr cur (k.optr proc) }
  modify fun k => { k with yptr := Function.update k.yptr proc none }
  let init ← deref (← get).initproc
  modify fun k => { k with optr := Function.update k.optr proc (k.cptr init) }
  modify fun k => { k with yptr := relink k.yptr (k.cptr init) (some proc) }
  modify fun k => { k with parent := Function.update k.parent proc (some init) }
  modify fun k => { k with cptr := Function.update k.cptr init (some proc) }
  if (← get).state proc = .zombie then
    if (← get).waitState init = WT_CHILD then wakeupProc init

/-- The loop over the children of `cur`. -/
def adoptAll (cur : Nat) : Nat → KernM Unit
  | 0 => throw .runaway
  | fuel + 1 => do
      match (← get).cptr cur with
      | none => pure ()
      | some proc => do
          adopt cur proc
          adoptAll cur fuel

def doExit (errorCode : Int) : KernM Unit := do
  let k ← get
  if k.current = k.idleproc then throw .idleExit
  if k.current = k.initproc then throw .initExit
  let cur ← deref k.current
  modify fun k => { k with
    state := Function.update k.state cur .zombie
    exitCode := Function.update k.exitCode cur errorCode }
  let parent ← deref (k.parent cur)
  if (← get).waitState parent = WT_CHILD then wakeupProc parent
  adoptAll cur listBound
  schedule .exited

/-! ## Wait -/

/-- The loop of `do_wait` over the children from `proc` on: whether there are any, and
the first zombie. -/
def searchKids (k : Kernel) : Nat → Option Nat → Option (Bool × Option Nat)
  | 0, _ => none
  | _ + 1, none => some (false, none)
  | fuel + 1, some proc =>
      if k.state proc = .zombie then some (true, some proc)
      else (fun found => (true, found.2)) <$> searchKids k fuel (k.optr proc)

/-- The values of `haskid` and, at `found`, of `proc`. -/
def searchZombie (cur : Nat) (pid : Int) : KernM (Bool × Option Nat) := do
  if pid ≠ 0 then
    match ← findProc pid with
    | none => pure (false, none)
    | some proc =>
        let k ← get
        if k.parent proc = some cur then
          pure (true, if k.state proc = .zombie then some proc else none)
        else pure (false, none)
  else
    let k ← get
    match searchKids k listBound (k.cptr cur) with
    | none => throw .runaway
    | some found => pure found

/-- The code at `found`: the return value and what is stored in `*code_store`. -/
def reap (proc : Nat) (store : CodeStore) : KernM (Int × Option Int) := do
  let k ← get
  if some proc = k.idleproc ∨ some proc = k.initproc then throw .waitInit
  let code := if store = .null then none else some (k.exitCode proc)
  unhashProc proc
  removeLinks proc
  kfree proc
  pure (0, code)

/-- `do_wait` from `repeat` on, called at `context`. There is no result when the
process has gone to sleep. -/
def waitRepeat (pid : Int) (store : CodeStore) (context : Context) :
    KernM (Option (Int × Option Int)) := do
  let cur ← deref (← get).current
  let (haskid, found) ← searchZombie cur pid
  match found with
  | some proc => some <$> reap proc store
  | none =>
      if haskid then
        modify fun k => { k with
          state := Function.update k.state cur .sleeping
          waitState := Function.update k.waitState cur WT_CHILD }
        schedule context
        pure none
      else pure (some (-E_BAD_PROC, none))

def doWait (pid : Int) (store : CodeStore) (context : Context) :
    KernM (Option (Int × Option Int)) :=
  if store = .unmapped then pure (some (-E_INVAL, none)) else waitRepeat pid store context

/-- `do_wait` after its `schedule`. -/
def waitResume (pid : Int) (store : CodeStore) (context : Context) :
    KernM (Option (Int × Option Int)) := do
  let cur ← deref (← get).current
  if (← get).flags cur &&& PF_EXITING ≠ 0 then
    doExit (-E_KILLED)
    pure none
  else waitRepeat pid store context

/-! ## Kill and yield -/

def doKill (pid : Int) : KernM Int := do
  match ← findProc pid with
  | none => pure (-E_INVAL)
  | some proc =>
      if (← get).flags proc &&& PF_EXITING = 0 then
        modify fun k =>
          { k with flags := Function.update k.flags proc (k.flags proc ||| PF_EXITING) }
        if (← get).waitState proc &&& WT_INTERRUPTED ≠ 0 then wakeupProc proc
        pure 0
      else pure (-E_KILLED)

def doYield : KernM Int := do
  let cur ← deref (← get).current
  modify fun k => { k with needResched := Function.update k.needResched cur true }
  pure 0

/-! ## The start -/

/-- The kernel when `proc_init` is called. -/
structure Kernel.Boot (k : Kernel) : Prop where
  heap : k.heap = ∅
  idleproc : k.idleproc = none
  initproc : k.initproc = none
  current : k.current = none
  nrProcess : k.nrProcess = 0
  lastPid : k.lastPid = MAX_PID
  nextSafe : k.nextSafe = MAX_PID

/-- The loop of `proc_init`, which empties lists of the hash table. -/
@[irreducible] def initHash (is : List (Fin HASH_LIST_SIZE)) : KernM Unit :=
  is.forM fun i => modify fun k => { k with hash := k.hash.listInit (.hashList i) }

/-- `proc_init` up to the assignment to `current`, when `kmalloc` returns `idle`.
After `proc_init`, `kern_init` calls `cpu_idle`. -/
def initIdle (idle : Nat) : KernM Unit := do
  modify fun k => { k with links := k.links.listInit .procList }
  initHash (List.finRange HASH_LIST_SIZE)
  allocProc idle
  modify fun k => { k with
    idleproc := some idle
    pid := Function.update k.pid idle 0
    state := Function.update k.state idle .runnable
    needResched := Function.update k.needResched idle true
    nrProcess := k.nrProcess + 1
    current := some idle
    context := Function.update k.context idle .cpuIdle }

def procInit (idle : Nat) (memory : ForkMemory) : KernM Unit := do
  initIdle idle
  let pid ← doFork .initMain memory
  if pid ≤ 0 then throw .createInitMain
  else
    let initproc ← findProc pid
    modify fun k => { k with initproc := initproc }
    let init ← deref initproc
    if (← get).pid init ≠ 1 then throw .initCheck

end Ucore.Process
