import Mathlib.Data.Finset.Insert
import Mathlib.Data.List.FinRange
import Ucore.Foundation.Census
import Ucore.Foundation.Machine
import Ucore.Libs.List

/-!
# The inode cache of SFS

`sfs_load_inode` and `sfs_reclaim` of `kern/fs/sfs/sfs_inode.c` and the reference counts
of `kern/fs/vfs/inode.c` in lab 8. In-memory inodes are named by their addresses. What
the disk and the allocator answer comes with each call.
-/

namespace Ucore.Fs.Inode

open Machine

/-! ## The data -/

def E_NO_MEM : Int := 4

def E_BUSY : Int := 15

def SFS_HLIST_SHIFT : Nat := 10

def SFS_HLIST_SIZE : Nat := 2 ^ SFS_HLIST_SHIFT

def MAX_INODE_COUNT : Nat := 0x10000

/-- A `struct inode *` that is not null. -/
abbrev Node := Nat

/-- A `list_entry_t *` on `inode_list`: its header or the `inode_link` of an inode. -/
inductive InodeEntry
  | inodeList
  | inodeLink (node : Node)
  deriving DecidableEq, Repr

/-- A `list_entry_t *` on a list of `hash_list`: a header or the `hash_link` of an inode. -/
inductive HashEntry
  | hashList (i : Fin SFS_HLIST_SIZE)
  | hashLink (node : Node)
  deriving DecidableEq, Repr

/-- The lists of a `sfs_fs`, and which inodes there are. -/
structure Lists where
  inodeList : Links InodeEntry
  hashList : Links HashEntry
  ino : Node → BitVec 32
  /-- The inodes that are allocated. -/
  heap : Finset Node

/-- The other fields of the inodes. -/
structure Counts where
  reclaimCount : Node → Nat
  refCount : Node → Nat
  openCount : Node → Nat
  dirty : Node → Bool
  nlinks : Node → Nat

structure Cache extends Lists, Counts

/-- Reasons why the kernel stops. `runaway` is a list walk that does not end, and
`dangling` the use of an inode that is not allocated. -/
inductive Stop
  | runaway
  | dangling
  | refDec
  | openDec
  | reclaim
  | kill
  /-- `inode_check`: more open files than references. -/
  | openCount
  /-- `inode_check`: too many references. -/
  | tooMany
  /-- `sfs_load_inode` of a block that is free. -/
  | blockInuse
  /-- `sfs_load_inode` of an inode without links. -/
  | noLinks
  deriving DecidableEq, Repr

abbrev CacheM := Machine Stop Cache

/-- An inode that is used. -/
def live (node : Node) : CacheM PUnit := do
  let c ← get
  check .dangling (node ∈ c.heap)

/-! ## `inode.c` -/

def inodeCheck (node : Node) : CacheM PUnit := do
  live node
  let c ← get
  check .openCount (c.openCount node ≤ c.refCount node)
  check .tooMany (c.refCount node < MAX_INODE_COUNT)

def inodeRefInc (node : Node) : CacheM Nat := do
  live node
  modify fun c => { c with refCount := Function.update c.refCount node (c.refCount node + 1) }
  return (← get).refCount node

/-- `inode_ref_dec`. The result says whether it calls `vop_reclaim`. -/
def inodeRefDec (node : Node) : CacheM Bool := do
  live node
  let c ← get
  check .refDec (c.refCount node > 0)
  modify fun c => { c with refCount := Function.update c.refCount node (c.refCount node - 1) }
  if (← get).refCount node = 0 then
    inodeCheck node
    return true
  else return false

def inodeOpenInc (node : Node) : CacheM PUnit := do
  live node
  modify fun c => { c with openCount := Function.update c.openCount node (c.openCount node + 1) }

/-- `sfs_fsync`, where writing the inode returns `written`. -/
def sfsFsync (node : Node) (written : Int) : CacheM Int := do
  inodeCheck node
  if (← get).dirty node then
    modify fun c => { c with dirty := Function.update c.dirty node (decide (written ≠ 0)) }
    return written
  else return 0

/-- `inode_open_dec`, with `vop_close`. -/
def inodeOpenDec (node : Node) (written : Int) : CacheM PUnit := do
  live node
  let c ← get
  check .openDec (c.openCount node > 0)
  modify fun c => { c with openCount := Function.update c.openCount node (c.openCount node - 1) }
  if (← get).openCount node = 0 then
    inodeCheck node
    let _ ← sfsFsync node written

def inodeKill (node : Node) : CacheM PUnit := do
  live node
  let c ← get
  check .kill (c.refCount node = 0)
  check .kill (c.openCount node = 0)
  modify fun c => { c with heap := c.heap.erase node }

/-! ## `sfs_inode.c` -/

/-- `hash32`. -/
def hash32 (val : BitVec 32) (bits : Nat) : BitVec 32 :=
  (val * 0x9e370001#32) >>> (32 - bits)

/-- `sin_hashfn`. -/
def sinHashfn (ino : BitVec 32) : Fin SFS_HLIST_SIZE :=
  ⟨(hash32 ino SFS_HLIST_SHIFT).toNat % SFS_HLIST_SIZE, Nat.mod_lt _ (by decide)⟩

def sfsSetLinks (node : Node) : CacheM PUnit :=
  modify fun c => { c with
    inodeList := c.inodeList.listAdd .inodeList (.inodeLink node)
    hashList := c.hashList.listAdd (.hashList (sinHashfn (c.ino node))) (.hashLink node) }

def sfsRemoveLinks (node : Node) : CacheM PUnit :=
  modify fun c => { c with
    inodeList := c.inodeList.listDel (.inodeLink node)
    hashList := c.hashList.listDel (.hashLink node) }

/-- `sfs_create_inode`, where `alloc_inode` returns `node`. -/
def sfsCreateInode (node : Node) (ino : BitVec 32) (nlinks : Nat) : CacheM PUnit := do
  modify fun c => { c with
    heap := insert node c.heap
    refCount := Function.update c.refCount node 0
    openCount := Function.update c.openCount node 0 }
  let _ ← inodeRefInc node
  modify fun c => { c with
    nlinks := Function.update c.nlinks node nlinks
    ino := Function.update c.ino node ino
    dirty := Function.update c.dirty node false
    reclaimCount := Function.update c.reclaimCount node 1 }

/-- The loop of `lookup_sfs_nolock` behind the entry `le` of a list. -/
def lookupFrom (c : Lists) (ino : BitVec 32) (list : Fin SFS_HLIST_SIZE) :
    Nat → HashEntry → Option (Option Node)
  | 0, _ => none
  | fuel + 1, le =>
      match c.hashList.next le with
      | .hashList i => if i = list then some none else none
      | .hashLink node =>
          if c.ino node = ino then some (some node) else lookupFrom c ino list fuel (.hashLink node)

def lookupSfsNolock (ino : BitVec 32) : CacheM (Option Node) := do
  let c ← get
  -- no list has more inodes than there are
  match lookupFrom c.toLists ino (sinHashfn ino) (c.heap.card + 1) (.hashList (sinHashfn ino)) with
  | none => throw .runaway
  | some none => return none
  | some (some node) =>
      if (← inodeRefInc node) = 1 then
        modify fun c => { c with
          reclaimCount := Function.update c.reclaimCount node (c.reclaimCount node + 1) }
      return some node

/-- What `sfs_load_inode` meets: the two allocations, the freemap at the block, the
result of reading it and the `nlinks` read. -/
structure LoadIo where
  din : Bool
  inuse : Bool
  read : Int
  nlinks : Nat
  node : Option Node
  deriving DecidableEq, Repr

def sfsLoadInode (ino : BitVec 32) (io : LoadIo) : CacheM (Except Int Node) := do
  match ← lookupSfsNolock ino with
  | some node => return .ok node
  | none =>
      if io.din = false then return .error (-E_NO_MEM)
      else
        check .blockInuse (io.inuse = true)
        if io.read ≠ 0 then return .error io.read
        else
          check .noLinks (io.nlinks ≠ 0)
          match io.node with
          | none => return .error (-E_NO_MEM)
          | some node =>
              sfsCreateInode node ino io.nlinks
              sfsSetLinks node
              return .ok node

/-- What `sfs_reclaim` meets: the result of `vop_truncate` and whether the inode is dirty
after it, and the result of writing the inode. -/
structure ReclaimIo where
  truncate : Int
  dirty : Bool
  written : Int
  deriving DecidableEq, Repr

/-- `vop_truncate` in `sfs_reclaim`. -/
def vopTruncate (node : Node) (io : ReclaimIo) : CacheM Int := do
  inodeCheck node
  modify fun c => { c with dirty := Function.update c.dirty node io.dirty }
  return io.truncate

/-- `sfs_reclaim` from `sfs_remove_links` on. The blocks of the file are not modelled. -/
def sfsDiscard (node : Node) : CacheM Int := do
  sfsRemoveLinks node
  inodeKill node
  return 0

/-- `sfs_reclaim` after `vop_truncate`. -/
def sfsFlush (node : Node) (io : ReclaimIo) : CacheM Int := do
  if (← get).dirty node then
    let ret ← sfsFsync node io.written
    if ret ≠ 0 then return ret else sfsDiscard node
  else sfsDiscard node

def sfsReclaim (node : Node) (io : ReclaimIo) : CacheM Int := do
  live node
  let c ← get
  check .reclaim (c.reclaimCount node > 0)
  modify fun c => { c with
    reclaimCount := Function.update c.reclaimCount node (c.reclaimCount node - 1) }
  let c ← get
  if c.reclaimCount node ≠ 0 ∨ c.refCount node ≠ 0 then return -E_BUSY
  else if c.nlinks node = 0 then
    let ret ← vopTruncate node io
    if ret ≠ 0 then return ret else sfsFlush node io
  else sfsFlush node io

/-! ## Processes that use the cache -/

/-- Processes, the references and open files that they hold, and the inodes that they
are about to reclaim. -/
structure Shared (Proc : Type) where
  cache : Cache
  held : Node → Nat
  opened : Node → Nat
  reclaiming : Proc → Option Node

/-- What happens next. -/
inductive Action (Proc : Type)
  | load (p : Proc) (ino : BitVec 32) (io : LoadIo)
  | refInc (p : Proc) (node : Node)
  | refDec (p : Proc) (node : Node)
  /-- The `sfs_reclaim` that `inode_ref_dec` calls. -/
  | reclaim (p : Proc) (node : Node) (io : ReclaimIo)
  | openInc (p : Proc) (node : Node)
  | openDec (p : Proc) (node : Node) (written : Int)
  /-- Another operation on an inode, which may change it. -/
  | change (p : Proc) (node : Node) (nlinks : Nat) (dirty : Bool)

variable {Proc : Type} [DecidableEq Proc]

/-- A process uses an inode while references to it are held, and one that is not open.
`alloc_inode` returns an address that is not in use. -/
def Permitted (sys : Shared Proc) : Action Proc → Prop
  | .load p _ io => sys.reclaiming p = none ∧ ∀ node ∈ io.node, node ∉ sys.cache.heap
  | .refInc p node => sys.reclaiming p = none ∧ 0 < sys.held node
  | .refDec p node => sys.reclaiming p = none ∧ sys.opened node < sys.held node
  | .reclaim p node _ => sys.reclaiming p = some node
  | .openInc p node => sys.reclaiming p = none ∧ sys.opened node < sys.held node
  | .openDec p node _ => sys.reclaiming p = none ∧ 0 < sys.opened node
  | .change p node _ _ => sys.reclaiming p = none ∧ 0 < sys.held node

instance (sys : Shared Proc) : DecidablePred (Permitted sys)
  | .load .. | .refInc .. | .refDec .. | .openInc .. | .openDec .. | .change .. =>
      inferInstanceAs (Decidable (_ ∧ _))
  | .reclaim p node _ => inferInstanceAs (Decidable (sys.reclaiming p = some node))

def give (f : Node → Nat) (node : Node) : Node → Nat := Function.update f node (f node + 1)

def take (f : Node → Nat) (node : Node) : Node → Nat := Function.update f node (f node - 1)

/-- The system after the code `x` has run, where `next` says what it has changed besides
the cache. -/
def Shared.after {α : Type} (sys : Shared Proc) (x : CacheM α) (next : α → Shared Proc) :
    Except Stop (Shared Proc) :=
  match x sys.cache with
  | .ok (a, cache) => .ok { next a with cache := cache }
  | .error e => .error e

def act (sys : Shared Proc) : Action Proc → Except Stop (Shared Proc)
  | .load _ ino io => sys.after (sfsLoadInode ino io) fun
      | .ok node => { sys with held := give sys.held node }
      | .error _ => sys
  | .refInc _ node => sys.after (inodeRefInc node) fun _ => { sys with held := give sys.held node }
  | .refDec p node => sys.after (inodeRefDec node) fun reclaims => { sys with
      held := take sys.held node
      reclaiming := if reclaims then Function.update sys.reclaiming p (some node)
        else sys.reclaiming }
  | .reclaim p node io => sys.after (sfsReclaim node io) fun _ =>
      { sys with reclaiming := Function.update sys.reclaiming p none }
  | .openInc _ node => sys.after (inodeOpenInc node) fun _ =>
      { sys with opened := give sys.opened node }
  | .openDec _ node written => sys.after (inodeOpenDec node written) fun _ =>
      { sys with opened := take sys.opened node }
  | .change _ node nlinks dirty => .ok { sys with cache := { sys.cache with
      nlinks := Function.update sys.cache.nlinks node nlinks
      dirty := Function.update sys.cache.dirty node dirty } }

def step (sys : Shared Proc) (a : Action Proc) : Option (Shared Proc) := (act sys a).toOption

/-- The cache of a file system that has just been mounted: empty lists. -/
def Cache.mounted (c : Cache) : Cache := { c with
  inodeList := c.inodeList.listInit .inodeList
  hashList := c.hashList.listInitAll ((List.finRange SFS_HLIST_SIZE).map .hashList)
  heap := ∅ }

/-- A file system that has just been mounted: its lists are empty, nobody uses an inode, and no
inode is on its way to be reclaimed. -/
def Started (sys : Shared Proc) : Prop :=
  (∃ c : Cache, sys.cache = c.mounted) ∧ (∀ node, sys.held node = 0) ∧
    (∀ node, sys.opened node = 0) ∧ ∀ p, sys.reclaiming p = none

end Ucore.Fs.Inode
