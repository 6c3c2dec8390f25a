import Mathlib.Data.Finset.Card
import Ucore.Vfs.Path

/-!
# Processes and their file tables

`kern/fs/file.c` and `kern/fs/fs.c` with the inodes that they open, and `copy_files`,
`put_files`, `do_exit` and `do_execve` of `kern/process/proc.c` in lab 8, where one call
runs at a time. Of a process, what these functions use is modelled; `load_icode` and what
is read from user memory come with each call.
-/

namespace Ucore.Vfs

open Machine
open Fs (File FilesM Slot Status E_INVAL O_RDONLY O_APPEND NO_FD FILES_STRUCT_NENTRY accessMode)
open Fs.Inode (E_NO_MEM)

/-! ## The data -/

/-- A `files_struct *` that is not null. -/
abbrev Filesp := Nat

/-- A `files_struct`. -/
structure Table extends Fs.Files where
  pwd : Option Node

/-- The fields of a `proc_struct` that are modelled. -/
structure Proc where
  filesp : Option Filesp
  mm : Option Nat
  zombie : Bool
  deriving DecidableEq, Repr

/-- The inodes, the tables at their addresses, and the processes. For every address,
`created` and `destroyed` count the calls of `files_create` that returned it and the calls
of `files_destroy` for it. -/
structure Sys where
  inodes : Inodes
  filesHeap : Finset Filesp
  table : Filesp → Table
  created : Filesp → Nat
  destroyed : Filesp → Nat
  procs : Finset Nat
  proc : Nat → Proc
  idleproc : Nat
  initproc : Nat

/-- Reasons why the kernel stops. `nullFiles` is a null `current->filesp`. -/
inductive Halt
  | vfs (e : Stop)
  | files (e : Fs.Failed)
  | nullFiles
  | filesDestroy
  | copyFiles
  /-- `panic` of `do_exit`. -/
  | exitIdle
  | exitInit
  deriving DecidableEq, Repr

abbrev SysM := Machine Halt Sys

def onInodes {α : Type} (x : VfsM α) : SysM α := fun sys =>
  match x sys.inodes with
  | .ok (a, s) => .ok (a, { sys with inodes := s })
  | .error e => .error (.vfs e)

def Sys.setTable (sys : Sys) (f : Filesp) (T : Table) : Sys :=
  { sys with table := Function.update sys.table f T }

def Sys.setProc (sys : Sys) (p : Nat) (proc : Proc) : Sys :=
  { sys with proc := Function.update sys.proc p proc }

/-- Code on the slots of a table. -/
def onFiles {α : Type} (f : Filesp) (x : FilesM α) : SysM α := fun sys =>
  match x (sys.table f).toFiles with
  | .ok (a, T) => .ok (a, sys.setTable f { T with pwd := (sys.table f).pwd })
  | .error e => .error (.files e)

/-- `current->filesp`, where it is used. -/
def filespOf (current : Nat) : SysM Filesp := do
  match ((← get).proc current).filesp with
  | some f => return f
  | none => throw .nullFiles

/-! ## `file.c` -/

/-- `fd_array_free` from the call of `vfs_close` on. -/
def closeNode (f : Filesp) (s : Slot) : SysM PUnit := do
  let file ← onFiles f (Fs.load s)
  let node ← onFiles f (Fs.useNode file.node)
  onInodes (vfsClose node)
  onFiles f (Fs.fdArrayFreed s)

def fdArrayFree (f : Filesp) (s : Slot) : SysM PUnit := do
  if ← onFiles f (Fs.fdArrayFree s) then closeNode f s else return ⟨⟩

def fdArrayClose (f : Filesp) (s : Slot) : SysM PUnit := do
  if ← onFiles f (Fs.fdArrayClose s) then closeNode f s else return ⟨⟩

/-- `fd_array_dup`, where `source` is what the other slot holds. -/
def fdArrayDup (f : Filesp) (s : Slot) (source : File) : SysM PUnit := do
  let node ← onFiles f (Fs.useNode source.node)
  let _ ← onInodes (inodeRefInc node)
  onInodes (inodeOpenInc node)
  onFiles f (Fs.fdArrayDup s source)

/-- `file_open` from the setting of `file->node` on. -/
def fileOpened (f : Filesp) (s : Slot) (node : Node) (access : Bool × Bool) (pos : Int) :
    SysM (Except Int Int) :=
  onFiles f do
    let file ← Fs.load s
    Fs.store s
      { file with pos := pos, node := some node, readable := access.1, writable := access.2 }
    Fs.fdArrayOpen s
    return .ok file.fd

/-- `file_open`: an error or the descriptor. -/
def fileOpen (current : Nat) (path : Str) (openFlags : BitVec 32) : SysM (Except Int Int) := do
  match accessMode openFlags with
  | none => return .error (-E_INVAL)
  | some access =>
      let f ← filespOf current
      match ← onFiles f (Fs.fdArrayAlloc NO_FD) with
      | .error ret => return .error ret
      | .ok s =>
          let pwd := ((← get).table f).pwd
          match ← onInodes (vfsOpen pwd path openFlags) with
          | .error ret =>
              fdArrayFree f s
              return .error ret
          | .ok node =>
              if openFlags &&& O_APPEND ≠ 0 then
                let size ← onInodes (vopFstat node)
                fileOpened f s node access size
              else fileOpened f s node access 0

def fileClose (current : Nat) (fd : Int) : SysM Int := do
  let f ← filespOf current
  match ← onFiles f (Fs.fd2file fd) with
  | .error ret => return ret
  | .ok s =>
      fdArrayClose f s
      return 0

def fileDup (current : Nat) (fd1 fd2 : Int) : SysM Int := do
  let f ← filespOf current
  match ← onFiles f (Fs.fd2file fd1) with
  | .error ret => return ret
  | .ok s1 =>
      match ← onFiles f (Fs.fdArrayAlloc fd2) with
      | .error ret => return ret
      | .ok s2 =>
          let source ← onFiles f (Fs.load s1)
          fdArrayDup f s2 source
          return (← onFiles f (Fs.load s2)).fd

/-- `vfs_chdir` by a process. -/
def chdir (current : Nat) (path : Str) : SysM Int := do
  let f ← filespOf current
  let pwd := ((← get).table f).pwd
  let changed ← onInodes (vfsChdir pwd path)
  modify fun sys => sys.setTable f { sys.table f with pwd := changed.2 }
  return changed.1

/-! ## `fs.c` -/

/-- `files_create`, where `memory` is what the new table held before. -/
def filesCreate (memory : Slot → File) : SysM (Option Filesp) := do
  let answer ← onInodes ask
  if answer.error ≠ 0 then return none
  else
    let f := answer.place (← get).filesHeap
    modify fun sys => { sys.setTable f { Fs.filesCreate memory with pwd := none } with
      filesHeap := insert f sys.filesHeap
      created := Function.update sys.created f (sys.created f + 1) }
    return some f

/-- The slots of `files_closeall` and `files_destroy`: those that are open are closed. -/
def closeFrom (f : Filesp) : List Slot → SysM PUnit
  | [] => return ⟨⟩
  | s :: rest => do
      let file ← onFiles f (Fs.load s)
      if file.status = .fdOpened then fdArrayClose f s
      closeFrom f rest

def filesCloseall (f : Filesp) : SysM PUnit := do
  let sys ← get
  check (.files .filesCloseall) ((sys.table f).filesCount > 0)
  -- skip the stdin & stdout
  closeFrom f ((List.finRange FILES_STRUCT_NENTRY).drop 2)

/-- `files_destroy`, where a slot that is neither open nor free fails the assertion. -/
def filesDestroy (f : Filesp) : SysM PUnit := do
  let sys ← get
  check .filesDestroy ((sys.table f).filesCount = 0)
  match (sys.table f).pwd with
  | some node => onInodes (inodeRefDec node)
  | none => pure ⟨⟩
  closeFrom f (List.finRange FILES_STRUCT_NENTRY)
  let sys ← get
  check .filesDestroy (∀ s, ((sys.table f).fdArray s).status = .fdNone)
  modify fun sys => { sys with
    filesHeap := sys.filesHeap.erase f
    destroyed := Function.update sys.destroyed f (sys.destroyed f + 1) }

/-- The slots of `dup_files`. -/
def dupFrom (target source : Filesp) : List Slot → SysM PUnit
  | [] => return ⟨⟩
  | s :: rest => do
      let file ← onFiles source (Fs.load s)
      if file.status = .fdOpened then
        -- alloc_fd first
        let toFile ← onFiles target (Fs.load s)
        onFiles target (Fs.store s { toFile with status := .fdInit })
        fdArrayDup target s file
      dupFrom target source rest

/-- `dup_files`, which does not fail. -/
def dupFiles (target source : Filesp) : SysM PUnit := do
  let sys ← get
  check (.files .dupFiles) ((sys.table target).filesCount = 0 ∧ (sys.table source).filesCount > 0)
  let pwd := (sys.table source).pwd
  modify fun sys => sys.setTable target { sys.table target with pwd := pwd }
  match pwd with
  | some node => let _ ← onInodes (inodeRefInc node)
  | none => pure ⟨⟩
  dupFrom target source (List.finRange FILES_STRUCT_NENTRY)

/-! ## `proc.c` -/

def filesCountInc (f : Filesp) : SysM PUnit := onFiles f Fs.filesCountInc

def filesCountDec (f : Filesp) : SysM Int := do
  let count := ((← get).table f).filesCount
  onFiles f (modify fun T => { T with filesCount := T.filesCount - 1 })
  return (count : Int) - 1

/-- `copy_files`, where `memory` is what a new table held before. -/
def copyFiles (current proc : Nat) (cloneFs : Bool) (memory : Slot → File) : SysM Int := do
  match ((← get).proc current).filesp with
  | none => throw .copyFiles
  | some old =>
      if cloneFs then
        filesCountInc old
        modify fun sys => sys.setProc proc { sys.proc proc with filesp := some old }
        return 0
      else
        match ← filesCreate memory with
        | none => return -E_NO_MEM
        | some f =>
            dupFiles f old
            filesCountInc f
            modify fun sys => sys.setProc proc { sys.proc proc with filesp := some f }
            return 0

def putFiles (current : Nat) : SysM PUnit := do
  match ((← get).proc current).filesp with
  | none => return ⟨⟩
  | some f =>
      if (← filesCountDec f) = 0 then filesDestroy f

/-- The creation of the process `proc`, whose `mm` is given. -/
def createProc (current proc : Nat) (cloneFs : Bool) (memory : Slot → File) (mm : Option Nat) :
    SysM Int := do
  modify fun sys => sys.setProc proc { filesp := none, mm := mm, zombie := false }
  let ret ← copyFiles current proc cloneFs memory
  if ret = 0 then
    modify fun sys => { sys with procs := insert proc sys.procs }
  return ret

/-- `do_exit`, as far as files go. -/
def doExit (current : Nat) : SysM PUnit := do
  let sys ← get
  check .exitIdle (current ≠ sys.idleproc)
  check .exitInit (current ≠ sys.initproc)
  if (sys.proc current).mm ≠ none then
    modify fun sys => sys.setProc current { sys.proc current with mm := none }
    putFiles current
  modify fun sys => sys.setProc current { sys.proc current with zombie := true }

/-- What `do_execve` meets: whether `argc` is in range, what `copy_string` of the name and
`copy_kargv` return, the path that `copy_path` copies, and the `mm` that `load_icode` sets
when it returns 0. -/
structure Exec where
  argc : Bool
  name : Bool
  kargv : Int
  path : Except Int Str
  loadIcode : Except Int Nat

/-- The `int` that `file_open` returns. -/
def fdOf : Except Int Int → Int
  | .ok fd => fd
  | .error ret => ret

def sysfileOpen (current : Nat) (path : Except Int Str) (openFlags : BitVec 32) : SysM Int :=
  match path with
  | .error ret => return ret
  | .ok path => return fdOf (← fileOpen current path openFlags)

/-- `do_execve` up to `execve_exit`; the result is what it returns if it does not get there. -/
def execve (current : Nat) (args : Exec) : SysM (Option Int) := do
  if args.argc = false then return some (-E_INVAL)
  else if args.name = false then return some (-E_INVAL)
  else if args.kargv ≠ 0 then return some args.kargv
  else
    filesCloseall (← filespOf current)
    let ret ← sysfileOpen current args.path O_RDONLY
    if ret < 0 then return none
    else
      modify fun sys => sys.setProc current { sys.proc current with mm := none }
      match args.loadIcode with
      | .error _ => return none
      | .ok mm =>
          modify fun sys => sys.setProc current { sys.proc current with mm := some mm }
          return some 0

def doExecve (current : Nat) (args : Exec) : SysM (Option Int) := do
  let ret ← execve current args
  if ret.isNone then doExit current
  return ret

/-! ## What processes do -/

inductive Action
  | create (current proc : Nat) (cloneFs : Bool) (memory : Slot → File) (mm : Option Nat)
  | execve (current : Nat) (args : Exec)
  | exit (current : Nat)
  /-- The parent waits for the process. -/
  | reap (proc : Nat)
  | fileOpen (current : Nat) (path : Str) (openFlags : BitVec 32)
  | fileClose (current : Nat) (fd : Int)
  | fileDup (current : Nat) (fd1 fd2 : Int)
  | chdir (current : Nat) (path : Str)

/-- A process that is not a zombie runs, a new one is not at the address of another, and only a
zombie is taken out. -/
def Permitted (sys : Sys) : Action → Prop
  | .create current proc .. =>
      current ∈ sys.procs ∧ (sys.proc current).zombie = false ∧ proc ∉ sys.procs
  | .execve current _ | .exit current | .fileOpen current .. | .fileClose current _
  | .fileDup current .. | .chdir current _ =>
      current ∈ sys.procs ∧ (sys.proc current).zombie = false
  | .reap proc => proc ∈ sys.procs ∧ (sys.proc proc).zombie = true

instance (sys : Sys) : DecidablePred (Permitted sys)
  | .create .. | .execve .. | .exit _ | .fileOpen .. | .fileClose .. | .fileDup .. | .chdir ..
  | .reap _ => inferInstanceAs (Decidable (_ ∧ _))

/-- The code of an action, and what it returns. -/
def Action.code : Action → SysM Int
  | .create current proc cloneFs memory mm => createProc current proc cloneFs memory mm
  | .execve current args => return (← doExecve current args).getD 0
  | .exit current => do
      doExit current
      return 0
  | .reap proc => do
      modify fun sys => { sys with procs := sys.procs.erase proc }
      return 0
  | .fileOpen current path openFlags => return fdOf (← Vfs.fileOpen current path openFlags)
  | .fileClose current fd => Vfs.fileClose current fd
  | .fileDup current fd1 fd2 => Vfs.fileDup current fd1 fd2
  | .chdir current path => Vfs.chdir current path

def step (sys : Sys) (a : Action) : Option Sys := exec a.code sys

end Ucore.Vfs
