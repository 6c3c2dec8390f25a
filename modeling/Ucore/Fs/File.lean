import Mathlib.Data.List.FinRange
import Mathlib.Logic.Function.Basic
import Ucore.Foundation.Machine

/-!
# Open files

`kern/fs/file.c` and `files_closeall` and `dup_files` of `kern/fs/fs.c` in lab 8. A
call into the file system may sleep: there the code ends for now, and a `Task` says
where its thread goes on when the call returns.
-/

namespace Ucore.Fs

open Machine

/-! ## The data -/

def E_INVAL : Int := 3

def E_BUSY : Int := 15

def E_MAX_OPEN : Int := 22

def O_RDONLY : BitVec 32 := 0

def O_WRONLY : BitVec 32 := 1

def O_RDWR : BitVec 32 := 2

def O_APPEND : BitVec 32 := 0x20

def O_ACCMODE : BitVec 32 := 3

def NO_FD : Int := -0x9527

def LSEEK_SET : Int := 0

def LSEEK_CUR : Int := 1

def LSEEK_END : Int := 2

/-- A `struct inode *` that is not null. -/
abbrev Node := Nat

inductive Status
  | fdNone
  | fdInit
  | fdOpened
  | fdClosed
  deriving DecidableEq, Repr

structure File where
  status : Status
  readable : Bool
  writable : Bool
  fd : Int
  pos : Int
  node : Option Node
  openCount : Nat
  deriving DecidableEq, Repr

/-- A page without the 48 bytes of `struct files_struct`. -/
def FILES_STRUCT_BUFSIZE : Nat := 4096 - 48

/-- A `struct file` has 56 bytes. -/
def FILES_STRUCT_NENTRY : Nat := FILES_STRUCT_BUFSIZE / 56

/-- An index of `fd_array`. -/
abbrev Slot := Fin FILES_STRUCT_NENTRY

/-- What was done to the inode of a slot: it was opened for it, by `vfs_open` or by
`fd_array_dup`, or it was given to `vfs_close`. -/
inductive NodeCall
  | opened (node : Node)
  | vfsClose (node : Node)
  deriving DecidableEq, Repr

/-- A `files_struct`, with the calls made for each slot, the last one first. -/
structure Files where
  fdArray : Slot → File
  filesCount : Nat
  calls : Slot → List NodeCall

/-- The functions whose assertions may fail; `vop` is a call on a null inode. -/
inductive Failed
  | getFdArray
  | fdArrayAlloc
  | fdArrayFree
  | fdArrayAcquire
  | fdArrayRelease
  | fdArrayOpen
  | fdArrayClose
  | fdArrayDup
  | filesCloseall
  | dupFiles
  | vop
  deriving DecidableEq, Repr

abbrev FilesM := Machine Failed Files

def Files.setFile (T : Files) (s : Slot) (file : File) : Files :=
  { T with fdArray := Function.update T.fdArray s file }

/-- A call on the inode of a slot. -/
def Files.log (T : Files) (s : Slot) (call : NodeCall) : Files :=
  { T with calls := Function.update T.calls s (call :: T.calls s) }

/-- The fields of a slot. -/
def load (s : Slot) : FilesM File := do
  return (← get).fdArray s

def store (s : Slot) (file : File) : FilesM PUnit :=
  modify fun T => T.setFile s file

def log (s : Slot) (call : NodeCall) : FilesM PUnit :=
  modify fun T => T.log s call

/-- An inode that is used. -/
def useNode : Option Node → FilesM Node
  | some node => pure node
  | none => throw .vop

/-! ## Slots -/

def testfd (fd : Int) : Prop := 0 ≤ fd ∧ fd < FILES_STRUCT_NENTRY

instance (fd : Int) : Decidable (testfd fd) := inferInstanceAs (Decidable (_ ∧ _))

/-- `fd_array + fd`. -/
def slotOf (fd : Int) (h : testfd fd) : Slot := ⟨fd.toNat, by unfold testfd at h; omega⟩

def getFdArray : FilesM PUnit := do
  let T ← get
  check .getFdArray (T.filesCount > 0)

/-- `memory` is what the array holds before. -/
def fdArrayInit (memory : Slot → File) : Slot → File :=
  fun s => { memory s with openCount := 0, status := .fdNone, fd := s.val }

/-- The part of `fd_array_alloc` after `found`. -/
def fdArrayFound (s : Slot) : FilesM PUnit := do
  let file ← load s
  check .fdArrayAlloc (file.openCount = 0)
  store s { file with status := .fdInit, node := none }

def fdArrayAlloc (fd : Int) : FilesM (Except Int Slot) := do
  getFdArray
  let T ← get
  if fd = NO_FD then
    match (List.finRange FILES_STRUCT_NENTRY).find? fun s => (T.fdArray s).status = .fdNone with
    | some s =>
        fdArrayFound s
        return .ok s
    | none => return .error (-E_MAX_OPEN)
  else if h : testfd fd then
    if (T.fdArray (slotOf fd h)).status = .fdNone then
      fdArrayFound (slotOf fd h)
      return .ok (slotOf fd h)
    else return .error (-E_BUSY)
  else return .error (-E_INVAL)

/-- `fd_array_free` up to the call of `vfs_close`, if it calls it. -/
def fdArrayFree (s : Slot) : FilesM Bool := do
  let file ← load s
  check .fdArrayFree (file.status = .fdInit ∨ file.status = .fdClosed)
  check .fdArrayFree (file.openCount = 0)
  if file.status = .fdClosed then
    let node ← useNode file.node
    log s (.vfsClose node)
    return true
  else
    store s { file with status := .fdNone }
    return false

/-- `fd_array_free` after `vfs_close`. -/
def fdArrayFreed (s : Slot) : FilesM PUnit := do
  let file ← load s
  store s { file with status := .fdNone }

def fdArrayAcquire (s : Slot) : FilesM PUnit := do
  let file ← load s
  check .fdArrayAcquire (file.status = .fdOpened)
  store s { file with openCount := file.openCount + 1 }

/-- The result says whether the thread is in `vfs_close`, as for `fdArrayFree`. -/
def fdArrayRelease (s : Slot) : FilesM Bool := do
  let file ← load s
  check .fdArrayRelease (file.status = .fdOpened ∨ file.status = .fdClosed)
  check .fdArrayRelease (file.openCount > 0)
  store s { file with openCount := file.openCount - 1 }
  if file.openCount - 1 = 0 then fdArrayFree s else return false

def fdArrayOpen (s : Slot) : FilesM PUnit := do
  let file ← load s
  check .fdArrayOpen (file.status = .fdInit ∧ file.node ≠ none)
  store s { file with status := .fdOpened, openCount := file.openCount + 1 }

/-- The result says whether the thread is in `vfs_close`, as for `fdArrayFree`. -/
def fdArrayClose (s : Slot) : FilesM Bool := do
  let file ← load s
  check .fdArrayClose (file.status = .fdOpened)
  check .fdArrayClose (file.openCount > 0)
  store s { file with status := .fdClosed, openCount := file.openCount - 1 }
  if file.openCount - 1 = 0 then fdArrayFree s else return false

/-- The slot `source` is read only, and may be one of another table. -/
def fdArrayDup (s : Slot) (source : File) : FilesM PUnit := do
  let file ← load s
  check .fdArrayDup (file.status = .fdInit ∧ source.status = .fdOpened)
  -- `vop_ref_inc` and `vop_open_inc`
  let node ← useNode source.node
  log s (.opened node)
  store s { file with
    pos := source.pos, readable := source.readable, writable := source.writable, node := some node }
  fdArrayOpen s

def fd2file (fd : Int) : FilesM (Except Int Slot) := do
  if h : testfd fd then
    getFdArray
    let file ← load (slotOf fd h)
    if file.status = .fdOpened ∧ file.fd = fd then return .ok (slotOf fd h)
    else return .error (-E_INVAL)
  else return .error (-E_INVAL)

/-! ## Calls and their parts -/

/-- An operation whose call on the inode has not returned. -/
inductive Op
  | read
  | write
  /-- `vop_fstat` in `file_seek` with `LSEEK_END`. -/
  | seekEnd (pos : Int)
  /-- `vop_tryseek` in `file_seek`. -/
  | seek (pos : Int)
  | fstat
  | fsync
  | getdirentry
  deriving DecidableEq, Repr

/-- What follows when a slot has been freed. -/
inductive After
  /-- The call returns `ret`, and has `stored` a value for its caller. -/
  | done (ret stored : Int)
  /-- `files_closeall` goes on with the slots `rest`. -/
  | closeall (rest : List Slot)
  deriving DecidableEq, Repr

/-- Where a thread is. -/
inductive Task
  /-- In no call; the last one returned `ret`. -/
  | done (ret stored : Int)
  /-- In the `vfs_open` of `file_open`. -/
  | opening (s : Slot) (openFlags : BitVec 32)
  /-- In the `vop_fstat` of `file_open`. -/
  | appending (s : Slot) (node : Node) (openFlags : BitVec 32)
  /-- In the `vfs_close` of `file_open`, which is to fail with `ret`. -/
  | abandoning (s : Slot) (ret : Int)
  /-- In an operation on the inode of a slot, after `fd_array_acquire`. -/
  | operating (s : Slot) (node : Node) (op : Op)
  /-- In the `vfs_close` of `fd_array_free`. -/
  | freeing (s : Slot) (after : After)
  deriving DecidableEq, Repr

/-- What a call into the file system gives back: `vfs_open` an inode, `vop_read`,
`vop_write` and `vop_getdirentry` what `iobuf_used` says, `vop_fstat` the `st_size`. -/
structure Reply where
  ret : Int
  node : Node
  amount : Int
  deriving DecidableEq, Repr

/-- The access that the flags of `file_open` ask for: readable and writable. -/
def accessMode (openFlags : BitVec 32) : Option (Bool × Bool) :=
  if openFlags &&& O_ACCMODE = O_RDONLY then some (true, false)
  else if openFlags &&& O_ACCMODE = O_WRONLY then some (false, true)
  else if openFlags &&& O_ACCMODE = O_RDWR then some (true, true)
  else none

def filesCloseallFrom : List Slot → FilesM Task
  | [] => return .done 0 0
  | s :: rest => do
      let file ← load s
      if file.status = .fdOpened then
        if ← fdArrayClose s then return .freeing s (.closeall rest)
        else filesCloseallFrom rest
      else filesCloseallFrom rest

def filesCloseall : FilesM Task := do
  let T ← get
  check .filesCloseall (T.filesCount > 0)
  -- skip the stdin & stdout
  filesCloseallFrom ((List.finRange FILES_STRUCT_NENTRY).drop 2)

/-- What follows a slot that may have to be freed. -/
def freed (s : Slot) (after : After) (inClose : Bool) : FilesM Task :=
  if inClose then return .freeing s after
  else match after with
    | .done ret stored => return .done ret stored
    | .closeall rest => filesCloseallFrom rest

def fileTestfd (fd : Int) (readable writable : Bool) : FilesM Bool := do
  match ← fd2file fd with
  | .error _ => return false
  | .ok s =>
      let file ← load s
      return (!readable || file.readable) && (!writable || file.writable)

/-- `file_open` up to `vfs_open`. -/
def fileOpen (openFlags : BitVec 32) : FilesM Task := do
  if (accessMode openFlags).isNone then return .done (-E_INVAL) 0
  else match ← fdArrayAlloc NO_FD with
    | .error ret => return .done ret 0
    | .ok s => return .opening s openFlags

/-- The end of `file_open`. -/
def fileOpenEnd (s : Slot) (node : Node) (openFlags : BitVec 32) : FilesM Task := do
  let file ← load s
  let access := (accessMode openFlags).getD (false, false)
  store s { file with node := some node, readable := access.1, writable := access.2 }
  fdArrayOpen s
  return .done file.fd 0

/-- `file_open` after `vfs_open`. -/
def fileOpened (s : Slot) (openFlags : BitVec 32) (reply : Reply) : FilesM Task := do
  if reply.ret ≠ 0 then
    let inClose ← fdArrayFree s
    freed s (.done reply.ret 0) inClose
  else
    log s (.opened reply.node)
    let file ← load s
    store s { file with pos := 0 }
    if openFlags &&& O_APPEND ≠ 0 then return .appending s reply.node openFlags
    else fileOpenEnd s reply.node openFlags

/-- `file_open` after `vop_fstat`. -/
def fileAppending (s : Slot) (node : Node) (openFlags : BitVec 32) (reply : Reply) :
    FilesM Task := do
  if reply.ret ≠ 0 then
    log s (.vfsClose node)
    return .abandoning s reply.ret
  else
    let file ← load s
    store s { file with pos := reply.amount }
    fileOpenEnd s node openFlags

/-- `file_open` after `vfs_close`. -/
def fileAbandoned (s : Slot) (ret : Int) : FilesM Task := do
  let inClose ← fdArrayFree s
  freed s (.done ret 0) inClose

def fileClose (fd : Int) : FilesM Task := do
  match ← fd2file fd with
  | .error ret => return .done ret 0
  | .ok s =>
      let inClose ← fdArrayClose s
      freed s (.done 0 0) inClose

/-- `fd_array_release` and the return of an operation. -/
def fileRelease (s : Slot) (ret stored : Int) : FilesM Task := do
  let inClose ← fdArrayRelease s
  freed s (.done ret stored) inClose

/-- `fd_array_acquire` and the call of an operation on the inode. -/
def fileAcquire (s : Slot) (op : Op) : FilesM Task := do
  fdArrayAcquire s
  let file ← load s
  let node ← useNode file.node
  return .operating s node op

def fileRead (fd : Int) : FilesM Task := do
  match ← fd2file fd with
  | .error ret => return .done ret 0
  | .ok s =>
      let file ← load s
      if !file.readable then return .done (-E_INVAL) 0
      else fileAcquire s .read

def fileWrite (fd : Int) : FilesM Task := do
  match ← fd2file fd with
  | .error ret => return .done ret 0
  | .ok s =>
      let file ← load s
      if !file.writable then return .done (-E_INVAL) 0
      else fileAcquire s .write

def fileSeek (fd pos whence : Int) : FilesM Task := do
  match ← fd2file fd with
  | .error ret => return .done ret 0
  | .ok s =>
      fdArrayAcquire s
      let file ← load s
      if whence = LSEEK_SET then
        let node ← useNode file.node
        return .operating s node (.seek pos)
      else if whence = LSEEK_CUR then
        let node ← useNode file.node
        return .operating s node (.seek (pos + file.pos))
      else if whence = LSEEK_END then
        let node ← useNode file.node
        return .operating s node (.seekEnd pos)
      else fileRelease s (-E_INVAL) 0

def fileFstat (fd : Int) : FilesM Task := do
  match ← fd2file fd with
  | .error ret => return .done ret 0
  | .ok s => fileAcquire s .fstat

def fileFsync (fd : Int) : FilesM Task := do
  match ← fd2file fd with
  | .error ret => return .done ret 0
  | .ok s => fileAcquire s .fsync

def fileGetdirentry (fd : Int) : FilesM Task := do
  match ← fd2file fd with
  | .error ret => return .done ret 0
  | .ok s => fileAcquire s .getdirentry

/-- `file_read` and `file_write` after the call on the inode. -/
def fileMoved (s : Slot) (reply : Reply) : FilesM Task := do
  let file ← load s
  if file.status = .fdOpened then store s { file with pos := file.pos + reply.amount }
  fileRelease s reply.ret reply.amount

/-- An operation after its call on the inode. -/
def fileOperated (s : Slot) (op : Op) (reply : Reply) : FilesM Task :=
  match op with
  | .read => fileMoved s reply
  | .write => fileMoved s reply
  | .seekEnd pos => do
      if reply.ret = 0 then
        let file ← load s
        let node ← useNode file.node
        return .operating s node (.seek (pos + reply.amount))
      else fileRelease s reply.ret 0
  | .seek pos => do
      let file ← load s
      if reply.ret = 0 then store s { file with pos := pos }
      fileRelease s reply.ret 0
  | .fstat => fileRelease s reply.ret reply.amount
  | .fsync => fileRelease s reply.ret 0
  | .getdirentry => fileRelease s reply.ret (if reply.ret = 0 then reply.amount else 0)

def fileDup (fd1 fd2 : Int) : FilesM Task := do
  match ← fd2file fd1 with
  | .error ret => return .done ret 0
  | .ok s1 =>
      match ← fdArrayAlloc fd2 with
      | .error ret => return .done ret 0
      | .ok s2 =>
          let source ← load s1
          fdArrayDup s2 source
          let file ← load s2
          return .done file.fd 0

/-! ## New tables -/

/-- `files_create`, where `memory` is what the array holds before. -/
def filesCreate (memory : Slot → File) : Files :=
  { fdArray := fdArrayInit memory, filesCount := 0, calls := fun _ => [] }

def dupFilesFrom (source : Files) : List Slot → FilesM PUnit
  | [] => return ⟨⟩
  | s :: rest => do
      if (source.fdArray s).status = .fdOpened then
        let file ← load s
        -- alloc_fd first
        store s { file with status := .fdInit }
        fdArrayDup s (source.fdArray s)
      dupFilesFrom source rest

def dupFiles (source : Files) : FilesM PUnit := do
  let T ← get
  check .dupFiles (T.filesCount = 0 ∧ source.filesCount > 0)
  dupFilesFrom source (List.finRange FILES_STRUCT_NENTRY)

def filesCountInc : FilesM PUnit :=
  modify fun T => { T with filesCount := T.filesCount + 1 }

/-- `copy_files` without `CLONE_FS`, once `files_create` has succeeded. -/
def copyFiles (source : Files) : FilesM PUnit := do
  dupFiles source
  filesCountInc

/-! ## Threads that share a table -/

/-- The calls that threads make on files. -/
inductive Call
  | fileOpen (openFlags : BitVec 32)
  | fileClose (fd : Int)
  | fileRead (fd : Int)
  | fileWrite (fd : Int)
  | fileSeek (fd pos whence : Int)
  | fileFstat (fd : Int)
  | fileFsync (fd : Int)
  | fileGetdirentry (fd : Int)
  | fileDup (fd1 fd2 : Int)
  | filesCloseall
  deriving DecidableEq, Repr

/-- A call up to where it sleeps or returns. -/
def Call.start : Call → FilesM Task
  | .fileOpen openFlags => Fs.fileOpen openFlags
  | .fileClose fd => Fs.fileClose fd
  | .fileRead fd => Fs.fileRead fd
  | .fileWrite fd => Fs.fileWrite fd
  | .fileSeek fd pos whence => Fs.fileSeek fd pos whence
  | .fileFstat fd => Fs.fileFstat fd
  | .fileFsync fd => Fs.fileFsync fd
  | .fileGetdirentry fd => Fs.fileGetdirentry fd
  | .fileDup fd1 fd2 => Fs.fileDup fd1 fd2
  | .filesCloseall => Fs.filesCloseall

/-- The code of a thread after the call into the file system that it is in. -/
def Task.resume (reply : Reply) : Task → FilesM Task
  | .done ret stored => return .done ret stored
  | .opening s openFlags => fileOpened s openFlags reply
  | .appending s node openFlags => fileAppending s node openFlags reply
  | .abandoning s ret => fileAbandoned s ret
  | .operating s _ op => fileOperated s op reply
  | .freeing s after => do
      fdArrayFreed s
      freed s after false

/-- Threads and the table that they share. -/
structure Shared (Thread : Type) where
  files : Files
  task : Thread → Task

/-- What happens next: a thread makes a call, or the call into the file system in
which a thread sleeps returns. -/
inductive Action (Thread : Type)
  | call (t : Thread) (c : Call)
  | resume (t : Thread) (reply : Reply)

variable {Thread : Type} [DecidableEq Thread]

def Action.thread : Action Thread → Thread
  | .call t _ => t
  | .resume t _ => t

/-- The code that an action runs. -/
def Action.code (sys : Shared Thread) : Action Thread → FilesM Task
  | .call _ c => c.start
  | .resume t reply => (sys.task t).resume reply

/-- A thread makes a call when it is in none, and goes on with the one it is in. Threads are
otherwise taken in any order. -/
def Permitted (sys : Shared Thread) : Action Thread → Prop
  | .call t _ => ∃ ret stored, sys.task t = .done ret stored
  | .resume t _ => ∀ ret stored, sys.task t ≠ .done ret stored

def step (sys : Shared Thread) (a : Action Thread) : Option (Shared Thread) :=
  match a.code sys sys.files with
  | .ok (task, files) => some ⟨files, Function.update sys.task a.thread task⟩
  | .error _ => none

/-- All threads are outside of calls. -/
def Shared.start (files : Files) : Shared Thread := ⟨files, fun _ => .done 0 0⟩

end Ucore.Fs
