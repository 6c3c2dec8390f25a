import Mathlib.Data.Finset.Insert
import Mathlib.Logic.Function.Basic
import Ucore.Foundation.Machine
import Ucore.Fs.File
import Ucore.Fs.InodeCache

/-!
# Inodes of the virtual file system

`kern/fs/vfs/inode.{c,h}` in lab 8 with the inodes of devices (`kern/fs/devs/dev.c`) and
of SFS (`kern/fs/sfs/sfs_inode.c`), where one call runs at a time. One SFS is mounted. Of
its disk, the inodes and the entries of its directories are modelled. What `kmalloc` and
the disk answer is part of the state.
-/

namespace Ucore.Vfs

open Machine
open Fs (E_INVAL E_BUSY O_RDONLY O_WRONLY O_RDWR O_APPEND O_ACCMODE)
open Fs.Inode (E_NO_MEM MAX_INODE_COUNT)

def E_NO_DEV : Int := 13

def E_NA_DEV : Int := 14

def E_NOENT : Int := 16

def E_ISDIR : Int := 17

def E_NOTDIR : Int := 18

def E_EXISTS : Int := 23

def O_CREAT : BitVec 32 := 0x4

def O_EXCL : BitVec 32 := 0x8

def O_TRUNC : BitVec 32 := 0x10

def SFS_TYPE_FILE : BitVec 16 := 1

def SFS_TYPE_DIR : BitVec 16 := 2

def SFS_TYPE_LINK : BitVec 16 := 3

def SFS_MAX_FNAME_LEN : Nat := 255

def SFS_BLKN_ROOT : BitVec 32 := 1

/-- A `struct inode *` that is not null. -/
abbrev Node := Nat

/-- The number of a block of the disk. -/
abbrev Ino := BitVec 32

/-- A string, without the zero at its end. -/
abbrev Str := List UInt8

/-! ## The data -/

/-- A `struct device`, with the functions that opening and closing it call. -/
structure Device where
  dBlocks : Nat
  dBlocksize : Nat
  dOpen : BitVec 32 → Int
  dClose : Int

/-- A `struct sfs_disk_inode`, without the numbers of its blocks. -/
structure DiskInode where
  type : BitVec 16
  nlinks : BitVec 16
  size : Nat
  blocks : Nat
  deriving DecidableEq, Repr

structure SfsInode where
  din : DiskInode
  ino : Ino
  dirty : Bool
  reclaimCount : Nat
  deriving DecidableEq, Repr

/-- `in_info` and `in_type` of a `struct inode`. -/
inductive Info
  | device (dev : Device)
  | sfsInode (sin : SfsInode)

/-- A `struct sfs_disk_entry`. -/
structure DiskEntry where
  ino : Ino
  name : Str
  deriving DecidableEq, Repr

/-- A `vfs_dev_t`. Its `fs` is null or the SFS. -/
structure VfsDev where
  devname : Str
  devnode : Option Node
  fs : Bool
  mountable : Bool
  deriving DecidableEq, Repr

/-- What the disk of the SFS has: the blocks in use, inodes, the blocks of a directory, and
the entries in them. -/
structure Disk where
  inuse : Ino → Bool
  inode : Ino → DiskInode
  bmap : Ino → Nat → Ino
  entry : Ino → DiskEntry

/-- What a call of `kmalloc` or of the disk answers: an error or zero, and the address of
new memory, which is not in use. A loop that frees the blocks of a file and fails leaves
`kept` blocks before the one that it fails at. -/
structure Answer where
  error : Nat
  place : Finset Node → Node
  fresh : ∀ heap, place heap ∉ heap
  kept : Nat

structure Inodes where
  /-- The inodes that are allocated. -/
  heap : Finset Node
  refCount : Node → Nat
  openCount : Node → Nat
  info : Node → Info
  /-- The inodes of the SFS on its lists, the last one first. -/
  inodeList : List Node
  vdevList : List VfsDev
  bootfsNode : Option Node
  disk : Disk
  answers : Nat → Answer

/-- The operations of `struct inode_ops`. -/
inductive Sym
  | «open»
  | close
  | read
  | write
  | fstat
  | fsync
  | namefile
  | getdirentry
  | reclaim
  | gettype
  | tryseek
  | truncate
  | create
  | lookup
  | ioctl
  deriving DecidableEq, Repr

/-- Reasons why the kernel stops. `dangling` is the use of an inode that is not allocated. -/
inductive Stop
  | dangling
  | refDec
  | openDec
  | reclaim
  | kill
  /-- `inode_check`: more open files than references. -/
  | openCount
  /-- `inode_check`: too many references. -/
  | tooMany
  /-- `__vop_op` of an operation that the inode does not have. -/
  | noOp (sym : Sym)
  /-- `vop_info` of another type of inode. -/
  | inType
  /-- `panic` of `sfs_get_ops` and `sfs_gettype`. -/
  | fileType
  /-- `panic` of `sfs_get_root`. -/
  | getRoot
  | blockInuse
  /-- `sfs_truncfile`: the file has other blocks than its size needs. -/
  | truncfile
  | noLinks
  | direntRead
  | direntSearch
  | sfsLookup
  | getDevice
  deriving DecidableEq, Repr

abbrev VfsM := Machine Stop Inodes

def Inodes.setRef (s : Inodes) (node : Node) (n : Nat) : Inodes :=
  { s with refCount := Function.update s.refCount node n }

def Inodes.setOpen (s : Inodes) (node : Node) (n : Nat) : Inodes :=
  { s with openCount := Function.update s.openCount node n }

def Inodes.setSin (s : Inodes) (node : Node) (sin : SfsInode) : Inodes :=
  { s with info := Function.update s.info node (.sfsInode sin) }

/-- The operations in `dev_node_ops`, `sfs_node_dirops` and `sfs_node_fileops`. -/
def Info.inOps : Info → List Sym
  | .device _ => [.open, .close, .read, .write, .fstat, .ioctl, .gettype, .tryseek, .lookup]
  | .sfsInode sin =>
      if sin.din.type = SFS_TYPE_DIR then
        [.open, .close, .fstat, .fsync, .namefile, .getdirentry, .reclaim, .gettype, .lookup]
      else if sin.din.type = SFS_TYPE_FILE then
        [.open, .close, .read, .write, .fstat, .fsync, .reclaim, .gettype, .tryseek, .truncate]
      else []

/-- The next answer of the environment. -/
def ask : VfsM Answer := do
  let s ← get
  modify fun s => { s with answers := fun i => s.answers (i + 1) }
  return s.answers 0

/-- An inode that is used. -/
def live (node : Node) : VfsM PUnit := do
  let s ← get
  check .dangling (node ∈ s.heap)

/-! ## `inode.h` -/

def inodeCheck (node : Node) : VfsM PUnit := do
  live node
  let s ← get
  check .openCount (s.openCount node ≤ s.refCount node)
  check .tooMany (s.refCount node < MAX_INODE_COUNT ∧ s.openCount node < MAX_INODE_COUNT)

/-- `__vop_op`. -/
def vopOp (node : Node) (sym : Sym) : VfsM PUnit := do
  live node
  let s ← get
  check (.noOp sym) (sym ∈ (s.info node).inOps)
  inodeCheck node

/-- `vop_info` of an inode of the SFS. -/
def sfsInode (node : Node) : VfsM SfsInode := do
  live node
  let s ← get
  match s.info node with
  | .sfsInode sin => return sin
  | .device _ => throw .inType

/-! ## `sfs_inode.c` -/

/-- `sfs_fsync`. What it writes is not kept, only whether the write succeeds. -/
def sfsFsync (node : Node) : VfsM Int := do
  let sin ← sfsInode node
  if sin.dirty then
    let answer ← ask
    modify fun s => s.setSin node { sin with dirty := decide (answer.error ≠ 0) }
    return -answer.error
  else return 0

def vopFsync (node : Node) : VfsM Int := do
  vopOp node .fsync
  sfsFsync node

/-- A file of which the last blocks have been freed. -/
def SfsInode.shortened (sin : SfsInode) (blocks : Nat) : SfsInode :=
  { sin with
    din := { sin.din with blocks := blocks }
    dirty := sin.dirty || decide (blocks < sin.din.blocks) }

def SfsInode.emptied (sin : SfsInode) : SfsInode :=
  { sin with din := { sin.din with size := 0, blocks := 0 }, dirty := true }

/-- `sfs_truncfile` to length zero. It frees the blocks from the last one on, and a block
that it cannot free stays, with those before it. -/
def sfsTruncfile (node : Node) : VfsM Int := do
  let sin ← sfsInode node
  if sin.din.size = 0 then
    check .truncfile (sin.din.blocks = 0)
    return 0
  else if sin.din.blocks = 0 then
    modify fun s => s.setSin node sin.emptied
    return 0
  else
    let answer ← ask
    if answer.error ≠ 0 then
      modify fun s => s.setSin node (sin.shortened (min (answer.kept + 1) sin.din.blocks))
      return -answer.error
    else
      modify fun s => s.setSin node sin.emptied
      return 0

def vopTruncate (node : Node) : VfsM Int := do
  vopOp node .truncate
  sfsTruncfile node

def inodeKill (node : Node) : VfsM PUnit := do
  live node
  let s ← get
  check .kill (s.refCount node = 0)
  check .kill (s.openCount node = 0)
  modify fun s => { s with heap := s.heap.erase node }

/-- `sfs_reclaim` from `sfs_remove_links` on. The blocks of the file are not modelled. -/
def sfsDiscard (node : Node) : VfsM Int := do
  modify fun s => { s with inodeList := s.inodeList.erase node }
  inodeKill node
  return 0

/-- `sfs_reclaim` after `vop_truncate`. -/
def sfsFlush (node : Node) : VfsM Int := do
  let sin ← sfsInode node
  if sin.dirty then
    let ret ← vopFsync node
    if ret ≠ 0 then return ret else sfsDiscard node
  else sfsDiscard node

def sfsReclaim (node : Node) : VfsM Int := do
  let sin ← sfsInode node
  check .reclaim (sin.reclaimCount > 0)
  modify fun s => s.setSin node { sin with reclaimCount := sin.reclaimCount - 1 }
  let s ← get
  if sin.reclaimCount - 1 ≠ 0 ∨ s.refCount node ≠ 0 then return -E_BUSY
  else if sin.din.nlinks = 0 then
    let ret ← vopTruncate node
    if ret ≠ 0 then return ret else sfsFlush node
  else sfsFlush node

def vopReclaim (node : Node) : VfsM Int := do
  vopOp node .reclaim
  sfsReclaim node

/-! ## `inode.c` -/

def inodeRefInc (node : Node) : VfsM Nat := do
  live node
  modify fun s => s.setRef node (s.refCount node + 1)
  return (← get).refCount node

def inodeRefDec (node : Node) : VfsM PUnit := do
  live node
  let s ← get
  check .refDec (s.refCount node > 0)
  modify fun s => s.setRef node (s.refCount node - 1)
  if (← get).refCount node = 0 then
    let _ ← vopReclaim node

def inodeOpenInc (node : Node) : VfsM PUnit := do
  live node
  modify fun s => s.setOpen node (s.openCount node + 1)

/-- `dev_close` and `sfs_close`. -/
def vopClose (node : Node) : VfsM Int := do
  vopOp node .close
  let s ← get
  match s.info node with
  | .device dev => return dev.dClose
  | .sfsInode _ => vopFsync node

def inodeOpenDec (node : Node) : VfsM PUnit := do
  live node
  let s ← get
  check .openDec (s.openCount node > 0)
  modify fun s => s.setOpen node (s.openCount node - 1)
  if (← get).openCount node = 0 then
    let _ ← vopClose node

/-! ## Loading inodes -/

/-- `sfs_create_inode`, with `inode_init`. -/
def sfsCreateInode (din : DiskInode) (ino : Ino) : VfsM (Except Int Node) := do
  let answer ← ask
  if answer.error ≠ 0 then return .error (-E_NO_MEM)
  else
    let node := answer.place (← get).heap
    -- `sfs_get_ops`
    check .fileType (din.type = SFS_TYPE_DIR ∨ din.type = SFS_TYPE_FILE)
    modify fun s => { s with
      heap := insert node s.heap
      refCount := Function.update s.refCount node 0
      openCount := Function.update s.openCount node 0 }
    let _ ← inodeRefInc node
    modify fun s => s.setSin node { din := din, ino := ino, dirty := false, reclaimCount := 1 }
    return .ok node

/-- The inode on the lists of the SFS with the number `ino`. -/
def Inodes.cached (s : Inodes) (ino : Ino) : Option Node :=
  s.inodeList.find? fun node => match s.info node with
    | .sfsInode sin => sin.ino = ino
    | .device _ => false

def lookupSfsNolock (ino : Ino) : VfsM (Option Node) := do
  match (← get).cached ino with
  | none => return none
  | some node =>
      if (← inodeRefInc node) = 1 then
        let sin ← sfsInode node
        modify fun s => s.setSin node { sin with reclaimCount := sin.reclaimCount + 1 }
      return some node

def sfsLoadInode (ino : Ino) : VfsM (Except Int Node) := do
  match ← lookupSfsNolock ino with
  | some node => return .ok node
  | none =>
      let din ← ask
      if din.error ≠ 0 then return .error (-E_NO_MEM)
      else
        let disk := (← get).disk
        check .blockInuse (disk.inuse ino)
        let read ← ask
        if read.error ≠ 0 then return .error (-read.error)
        else
          check .noLinks ((disk.inode ino).nlinks ≠ 0)
          match ← sfsCreateInode (disk.inode ino) ino with
          | .error ret => return .error ret
          | .ok node =>
              -- `sfs_set_links`
              modify fun s => { s with inodeList := node :: s.inodeList }
              return .ok node

def sfsGetRoot : VfsM Node := do
  match ← sfsLoadInode SFS_BLKN_ROOT with
  | .ok node => return node
  | .error _ => throw .getRoot

/-! ## Directories -/

def sfsDirentReadNolock (sin : SfsInode) (slot : Nat) : VfsM (Except Int DiskEntry) := do
  check .direntRead (sin.din.type = SFS_TYPE_DIR ∧ slot < sin.din.blocks)
  -- `sfs_bmap_load_nolock`, which reads the indirect block
  let load ← ask
  if load.error ≠ 0 then return .error (-load.error)
  else
    let disk := (← get).disk
    let ino := disk.bmap sin.ino slot
    check .blockInuse (disk.inuse ino)
    let read ← ask
    if read.error ≠ 0 then return .error (-read.error)
    else return .ok (disk.entry ino)

/-- The loop of `sfs_dirent_search_nolock` over the slots. -/
def sfsDirentSearchFrom (sin : SfsInode) (name : Str) : List Nat → VfsM (Except Int Ino)
  | [] => return .error (-E_NOENT)
  | i :: rest => do
      match ← sfsDirentReadNolock sin i with
      | .error ret => return .error ret
      | .ok entry =>
          if entry.ino = 0 then sfsDirentSearchFrom sin name rest
          else if name = entry.name then return .ok entry.ino
          else sfsDirentSearchFrom sin name rest

def sfsDirentSearchNolock (sin : SfsInode) (name : Str) : VfsM (Except Int Ino) := do
  check .direntSearch (name.length ≤ SFS_MAX_FNAME_LEN)
  let entry ← ask
  if entry.error ≠ 0 then return .error (-E_NO_MEM)
  else sfsDirentSearchFrom sin name (List.range sin.din.blocks)

def sfsLookupOnce (sin : SfsInode) (name : Str) : VfsM (Except Int Node) := do
  match ← sfsDirentSearchNolock sin name with
  | .error ret => return .error ret
  | .ok ino => sfsLoadInode ino

def slashChar : UInt8 := 47

def colonChar : UInt8 := 58

def sfsLookup (node : Node) (path : Str) : VfsM (Except Int Node) := do
  check .sfsLookup (path ≠ [] ∧ path.head? ≠ some slashChar)
  let _ ← inodeRefInc node
  let sin ← sfsInode node
  if sin.din.type ≠ SFS_TYPE_DIR then
    inodeRefDec node
    return .error (-E_NOTDIR)
  else
    let found ← sfsLookupOnce sin path
    inodeRefDec node
    return found

def devLookup (node : Node) (path : Str) : VfsM (Except Int Node) := do
  if path ≠ [] then return .error (-E_NOENT)
  else
    let _ ← inodeRefInc node
    return .ok node

def vopLookup (node : Node) (path : Str) : VfsM (Except Int Node) := do
  vopOp node .lookup
  match (← get).info node with
  | .device _ => devLookup node path
  | .sfsInode _ => sfsLookup node path

/-! ## Other operations -/

def sfsOpendir (openFlags : BitVec 32) : Int :=
  if openFlags &&& O_ACCMODE ≠ O_RDONLY then -E_ISDIR
  else if openFlags &&& O_APPEND ≠ 0 then -E_ISDIR
  else 0

def devOpen (dev : Device) (openFlags : BitVec 32) : Int :=
  if openFlags &&& (O_CREAT ||| O_TRUNC ||| O_EXCL ||| O_APPEND) ≠ 0 then -E_INVAL
  else dev.dOpen openFlags

def vopOpen (node : Node) (openFlags : BitVec 32) : VfsM Int := do
  vopOp node .open
  match (← get).info node with
  | .device dev => return devOpen dev openFlags
  | .sfsInode sin =>
      if sin.din.type = SFS_TYPE_DIR then return sfsOpendir openFlags else return 0

/-- `vop_create`, which no inode has. -/
def vopCreate (dir : Node) : VfsM Node := do
  vopOp dir .create
  throw (.noOp .create)

/-- `vop_gettype`: whether the inode is a directory. -/
def vopGettype (node : Node) : VfsM Bool := do
  vopOp node .gettype
  match (← get).info node with
  | .device _ => return false
  | .sfsInode sin =>
      check .fileType (sin.din.type = SFS_TYPE_DIR ∨ sin.din.type = SFS_TYPE_FILE ∨
        sin.din.type = SFS_TYPE_LINK)
      return sin.din.type = SFS_TYPE_DIR

/-- `vop_fstat`: the `st_size`. It does not fail, nor does `vop_gettype`. -/
def vopFstat (node : Node) : VfsM Nat := do
  vopOp node .fstat
  let _ ← vopGettype node
  match (← get).info node with
  | .device dev => return dev.dBlocks * dev.dBlocksize
  | .sfsInode sin => return sin.din.size

end Ucore.Vfs
