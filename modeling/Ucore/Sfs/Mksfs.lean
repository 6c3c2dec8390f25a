import Mathlib.Data.List.FinRange
import Ucore.Foundation.Machine
import Ucore.Sfs.Layout

/-!
# The image builder

`tools/mksfs.c` of lab 8, which writes a directory of the host to an image file. Cached
inodes and cached blocks are known by their block numbers. `handed`, `appended` and
`names` record calls and are not read by the code.
-/

namespace Ucore.Sfs.Mksfs

open Machine

/-! ## The host -/

/-- What a `read` or a `readlink` into a buffer of a block gives. -/
structure Chunk where
  data : Bytes
  len : Nat
  len_le : len ≤ SFS_BLKSIZE

/-- A file name: bytes without a NUL. -/
structure Name where
  bytes : List Byte
  noNul : ∀ b ∈ bytes, b ≠ 0
  deriving DecidableEq

mutual

/-- What `lstat` and `open` find under a name; `none` is a call that fails. -/
inductive HostNode
  | link (real : BitVec 64) (target : Option Chunk)
  | file (real : BitVec 64) (reads : List (Option Chunk))
  | dir (real : BitVec 64) (entries : HostDir)
  | unsupported
  | unreadable

/-- What `readdir` gives, entry by entry. -/
inductive HostDir
  | done
  | entry (name : Name) (node : HostNode) (rest : HostDir)

end

/-! ## The state -/

def SFS_MAX_NBLKS : Nat := 1024 * 512

def SFS_L0_NBLKS : Nat := SFS_NDIRECT

def SFS_L1_NBLKS : Nat := SFS_BLK_NENTRY + SFS_L0_NBLKS

def SFS_L2_NBLKS : Nat := SFS_BLK_NENTRY * SFS_BLK_NENTRY + SFS_L1_NBLKS

def SFS_LN_NBLKS : Nat := SFS_MAX_FILE_SIZE / SFS_BLKSIZE

/-- Why the tool exits: the failures it reports and the functions whose assertions fail. -/
inductive Stop
  | imageTooSmall
  | outOfSpace
  | fileTooBig
  | nameTooLong
  | host
  | updateCache
  | appendBlock
  | addEntry
  | addDir
  | openFile
  | writeBlock
  deriving DecidableEq, Repr

/-- `struct inode` of the tool. -/
structure Inode where
  size : BitVec 32
  type : BitVec 16
  nlinks : BitVec 16
  blocks : BitVec 32
  direct : Fin SFS_NDIRECT → BitVec 32
  indirect : BitVec 32
  dbIndirect : BitVec 32

/-- The words of the 68 bytes of an inode. -/
def Inode.words (inode : Inode) (i : Nat) : BitVec 32 :=
  if i = 0 then inode.size
  else if i = 1 then inode.nlinks ++ inode.type
  else if i = 2 then inode.blocks
  else if h : i - 3 < SFS_NDIRECT then inode.direct ⟨i - 3, h⟩
  else if i = 15 then inode.indirect
  else inode.dbIndirect

/-- A `struct cache_inode`, with the numbers given to `append_block` and what `add_entry`
added to a directory. -/
structure CacheInode where
  inode : Inode
  real : BitVec 64
  nblks : Nat
  l1 : Option (BitVec 32)
  l2 : Option (BitVec 32)
  appended : List (BitVec 32)
  names : List (BitVec 32 × Name)

/-- A `struct sfs_fs` with the image and the buffer of `add_entry`. The cached inodes and
blocks are chained by hash, the last one first; `handed` has the results of
`sfs_alloc_ino`, the last one first. -/
structure Tool where
  super : Super
  ninos : BitVec 32
  nextIno : BitVec 32
  inodes : Nat → List (BitVec 32)
  inode : BitVec 32 → CacheInode
  blocks : Nat → List (BitVec 32)
  cache : BitVec 32 → Bytes
  entry : Bytes
  img : Blocks
  handed : List (BitVec 32)

abbrev ToolM := Machine Stop Tool

def Tool.setInode (s : Tool) (ino : BitVec 32) (ci : CacheInode) : Tool :=
  { s with inode := Function.update s.inode ino ci }

def Tool.setCache (s : Tool) (ino : BitVec 32) (b : Bytes) : Tool :=
  { s with cache := Function.update s.cache ino b }

/-! ## Allocation and caches -/

def HASH_LIST_SIZE : Nat := 1024

def hash32 (val : BitVec 32) : Nat := ((val * 0x9e370001) >>> 22).toNat

def hash64 (val : BitVec 64) : Nat := hash32 (val.truncate 32)

/-- One more number is handed out. -/
def Tool.hand (s : Tool) : Tool :=
  { s with
    super := { s.super with unusedBlocks := s.super.unusedBlocks - 1 }
    nextIno := s.nextIno + 1
    handed := s.nextIno :: s.handed }

def sfsAllocIno : ToolM (BitVec 32) := do
  let s ← get
  if s.nextIno < s.ninos then
    set s.hand
    return s.nextIno
  else throw .outOfSpace

def Tool.newBlock (s : Tool) (bucket : Nat) (number : BitVec 32) : Tool :=
  { s.setCache number (fun _ => 0) with
    blocks := Function.update s.blocks bucket (number :: s.blocks bucket) }

/-- The hash is that of the argument, not of the number that was allocated. -/
def allocCacheBlock (ino : BitVec 32) : ToolM (BitVec 32) := do
  let number ← if ino ≠ 0 then pure ino else sfsAllocIno
  modify fun s => s.newBlock (hash32 ino) number
  return number

def searchCacheBlock (ino : BitVec 32) : ToolM (Option (BitVec 32)) := do
  return ((← get).blocks (hash32 ino)).find? fun number => number = ino

def emptyInode (real : BitVec 64) (type : BitVec 16) : CacheInode :=
  ⟨⟨0, type, 0, 0, fun _ => 0, 0, 0⟩, real, 0, none, none, [], []⟩

def Tool.newInode (s : Tool) (real : BitVec 64) (type : BitVec 16) (number : BitVec 32) : Tool :=
  { s.setInode number (emptyInode real type) with
    inodes := Function.update s.inodes (hash64 real) (number :: s.inodes (hash64 real)) }

def allocCacheInode (real : BitVec 64) (ino : BitVec 32) (type : BitVec 16) : ToolM (BitVec 32) :=
    do
  let number ← if ino ≠ 0 then pure ino else sfsAllocIno
  modify fun s => s.newInode real type number
  return number

def searchCacheInode (real : BitVec 64) : ToolM (Option (BitVec 32)) := do
  let s ← get
  return (s.inodes (hash64 real)).find? fun number => (s.inode number).real = real

def rootIno : BitVec 32 := BitVec.ofNat 32 SFS_BLKN_ROOT

/-- Blocks of the image that `create_sfs` uses, a `uint32_t`. -/
def numberOfBlocks (imgSize : Nat) : Nat := min (imgSize / SFS_BLKSIZE % 2 ^ 32) SFS_MAX_NBLKS

/-- The first block after the freemap. -/
def firstIno (ninos : Nat) : Nat := SFS_BLKN_FREEMAP + (ninos + SFS_BLKBITS - 1) / SFS_BLKBITS

/-- `info` is what `snprintf` leaves in the superblock. -/
def createSfs (imgSize : Nat) (info : Fin (SFS_MAX_INFO_LEN + 1) → Byte) : ToolM (BitVec 32) := do
  let ninos := numberOfBlocks imgSize
  let nextIno := firstIno ninos
  if nextIno ≥ ninos then throw .imageTooSmall
  else
  modify fun s =>
    { s with
      super := ⟨SFS_MAGIC, BitVec.ofNat 32 ninos, BitVec.ofNat 32 (ninos - nextIno), info⟩
      ninos := BitVec.ofNat 32 ninos
      nextIno := BitVec.ofNat 32 nextIno
      inodes := fun _ => []
      blocks := fun _ => []
      handed := [] }
  allocCacheInode 0 rootIno SFS_TYPE_DIR

/-! ## Writing blocks -/

/-- A block shorter than `SFS_BLKSIZE` is filled up with zeros. -/
def writeBlock (data : Bytes) (len : Nat) (ino : BitVec 32) : ToolM PUnit := do
  check .writeBlock (len ≤ SFS_BLKSIZE ∧ ino < (← get).ninos)
  let data := if len ≠ SFS_BLKSIZE then splice 0 len data fun _ => 0 else data
  modify fun s => { s with img := Function.update s.img ino.toNat data }

def flushCacheBlock (number : BitVec 32) : ToolM PUnit := do
  writeBlock ((← get).cache number) SFS_BLKSIZE number

def flushCacheInode (number : BitVec 32) : ToolM PUnit := do
  writeBlock (ofWords ((← get).inode number).inode.words) 68 number

/-- Where the set bits of the freemap block from bit `i` on start. -/
def freeStart (i nextIno : Nat) : Nat := if i < nextIno then nextIno - i else 0

/-- Where they end. -/
def freeEnd (i ninos : Nat) : Nat := if i + SFS_BLKBITS > ninos then ninos - i else SFS_BLKBITS

/-- The block of the freemap from bit `i` on. -/
def freemapBlock (i nextIno ninos : Nat) : Bytes :=
  if i + SFS_BLKBITS > nextIno then
    (List.range' (freeStart i nextIno) (freeEnd i ninos - freeStart i nextIno)).foldl
      (fun data j => setWord data (j / 32) (word data (j / 32) ||| 1#32 <<< (j % 32))) fun _ => 0
  else fun _ => 0

/-- The loop over the freemap; `left` blocks are still to be written. -/
def writeFreemap : Nat → Nat → BitVec 32 → ToolM PUnit
  | 0, _, _ => pure ⟨⟩
  | left + 1, i, ino => do
      let s ← get
      writeBlock (freemapBlock i s.nextIno.toNat s.ninos.toNat) SFS_BLKSIZE ino
      writeFreemap left (i + SFS_BLKBITS) (ino + 1)

/-- Everything in the buckets is written, bucket by bucket. -/
def flushBucket (i : Nat) : ToolM PUnit := do
  ((← get).blocks i).forM flushCacheBlock
  ((← get).inodes i).forM flushCacheInode

def closeSfs : ToolM PUnit := do
  let s ← get
  writeFreemap ((s.ninos.toNat + SFS_BLKBITS - 1) / SFS_BLKBITS) 0
    (BitVec.ofNat 32 SFS_BLKN_FREEMAP)
  writeBlock s.super.bytes 44 (BitVec.ofNat 32 SFS_BLKN_SUPER)
  (List.range HASH_LIST_SIZE).forM flushBucket

/-! ## Appending -/

/-- The number of the cached block, with the cache it is in. -/
def updateCache (cb : Option (BitVec 32)) (ino : BitVec 32) : ToolM (BitVec 32) := do
  if ino = 0 then allocCacheBlock 0
  else if cb ≠ some ino then
    match ← searchCacheBlock ino with
    | none => throw .updateCache
    | some number =>
        check .updateCache (number = ino)
        return number
  else return ino

/-- The branches of `append_block` that store the number. -/
def storeNumber (file : BitVec 32) (nblks : Nat) (ino : BitVec 32) : ToolM PUnit := do
  let ci := (← get).inode file
  if h : nblks < SFS_L0_NBLKS then
    let direct := Function.update ci.inode.direct ⟨nblks, h⟩ ino
    modify fun s => s.setInode file { ci with inode := { ci.inode with direct } }
  else if nblks < SFS_L1_NBLKS then
    let l1 ← updateCache ci.l1 ci.inode.indirect
    modify fun s =>
      s.setInode file { ci with l1 := some l1, inode := { ci.inode with indirect := l1 } }
    modify fun s => s.setCache l1 (setWord (s.cache l1) (nblks - SFS_L0_NBLKS) ino)
  else if nblks < SFS_L2_NBLKS then
    let nblks := nblks - SFS_L1_NBLKS
    let l2 ← updateCache ci.l2 ci.inode.dbIndirect
    let data2 := (← get).cache l2
    let l1 ← updateCache ci.l1 (word data2 (nblks / SFS_BLK_NENTRY))
    modify fun s => s.setInode file
      { ci with l1 := some l1, l2 := some l2, inode := { ci.inode with dbIndirect := l2 } }
    modify fun s => s.setCache l2 (setWord (s.cache l2) (nblks / SFS_BLK_NENTRY) l1)
    modify fun s => s.setCache l1 (setWord (s.cache l1) (nblks % SFS_BLK_NENTRY) ino)

/-- The end of `append_block`. -/
def CacheInode.grow (ci : CacheInode) (size : Nat) (ino : BitVec 32) : CacheInode :=
  { ci with
    nblks := ci.nblks + 1
    inode := { ci.inode with
      size := ci.inode.size + BitVec.ofNat 32 size
      blocks := ci.inode.blocks + 1 }
    appended := ci.appended ++ [ino] }

def appendBlock (file : BitVec 32) (size : Nat) (ino : BitVec 32) : ToolM PUnit := do
  check .appendBlock (size ≤ SFS_BLKSIZE)
  let nblks := ((← get).inode file).nblks
  if nblks ≥ SFS_LN_NBLKS then throw .fileTooBig
  else
  storeNumber file nblks ino
  modify fun s => s.setInode file ((s.inode file).grow size ino)

/-- `entry->ino = ino, strcpy(entry->name, name)`. -/
def fillEntry (old : Bytes) (ino : BitVec 32) (name : Name) : Bytes :=
  fun k =>
    if k < 4 then byteOf ino k
    else if h : k - 4 < name.bytes.length then name.bytes.get ⟨k - 4, h⟩
    else if k - 4 = name.bytes.length then 0
    else old k

def CacheInode.link (ci : CacheInode) : CacheInode :=
  { ci with inode := { ci.inode with nlinks := ci.inode.nlinks + 1 } }

def CacheInode.record (ci : CacheInode) (ino : BitVec 32) (name : Name) : CacheInode :=
  { ci with names := ci.names ++ [(ino, name)] }

/-- `sizeof(entry->name)`. -/
def sfsDentrySize : Nat := SFS_MAX_FNAME_LEN + 1

def addEntry (current file : BitVec 32) (name : Name) : ToolM PUnit := do
  check .addEntry (((← get).inode current).inode.type = SFS_TYPE_DIR ∧
    name.bytes.length ≤ SFS_MAX_FNAME_LEN)
  modify fun s => { s with entry := fillEntry s.entry file name }
  let entryIno ← sfsAllocIno
  writeBlock (← get).entry sfsDentrySize entryIno
  appendBlock current sfsDentrySize entryIno
  modify fun s => s.setInode current ((s.inode current).record file name)
  modify fun s => s.setInode file (s.inode file).link

/-! ## Walking the host -/

def dot : Name := ⟨[0x2e], by decide⟩

def dotDot : Name := ⟨[0x2e, 0x2e], by decide⟩

/-- The loop of `open_file`; `last` is what the read before gave. A failed read gives -1,
which is not the end of the file. -/
def readFile (file : BitVec 32) : Nat → List (Option Chunk) → ToolM PUnit
  | _, [] => pure ⟨⟩
  | last, read :: rest => do
      if (read.map Chunk.len) = some 0 then return
      check .openFile (last = SFS_BLKSIZE)
      let ino ← sfsAllocIno
      match read with
      | none => throw .writeBlock
      | some chunk =>
          writeBlock chunk.data chunk.len ino
          appendBlock file chunk.len ino
          readFile file chunk.len rest

def openFile (file : BitVec 32) (reads : List (Option Chunk)) : ToolM PUnit :=
  readFile file SFS_BLKSIZE reads

def openLink (file : BitVec 32) (target : Option Chunk) : ToolM PUnit := do
  let ino ← sfsAllocIno
  match target with
  | none => throw .host
  | some chunk =>
      if chunk.len = SFS_BLKSIZE then throw .host
      else
      writeBlock chunk.data chunk.len ino
      appendBlock file chunk.len ino

def addFile (current : BitVec 32) (name : Name) (real : BitVec 64) (reads : List (Option Chunk)) :
    ToolM PUnit := do
  match ← searchCacheInode real with
  | some file => addEntry current file name
  | none =>
      let file ← allocCacheInode real 0 SFS_TYPE_FILE
      openFile file reads
      addEntry current file name

def addLink (current : BitVec 32) (name : Name) (real : BitVec 64) (target : Option Chunk) :
    ToolM PUnit := do
  let file ← allocCacheInode real 0 SFS_TYPE_LINK
  openLink file target
  addEntry current file name

/-- The first two entries of a directory. -/
def openDirStart (current parent : BitVec 32) : ToolM PUnit := do
  addEntry current current dot
  addEntry current parent dotDot

/-- `name[0] == '.'`. -/
def hidden (name : Name) : Prop := name.bytes.head? = some 0x2e

instance (name : Name) : Decidable (hidden name) := inferInstanceAs (Decidable (_ = _))

mutual

/-- The loop of `open_dir`. -/
def readDir (current : BitVec 32) : HostDir → ToolM PUnit
  | .done => pure ⟨⟩
  | .entry name node rest => do
      if hidden name then readDir current rest
      else if name.bytes.length > SFS_MAX_FNAME_LEN then throw .nameTooLong
      else
      addNode current name node
      readDir current rest

/-- One entry; for a directory `add_dir`, with `open_dir` in it. -/
def addNode (current : BitVec 32) (name : Name) : HostNode → ToolM PUnit
  | .link real target => addLink current name real target
  | .file real reads => addFile current name real reads
  | .unsupported => pure ⟨⟩
  | .unreadable => throw .host
  | .dir real entries => do
      check .addDir ((← searchCacheInode real) = none)
      let dir ← allocCacheInode real 0 SFS_TYPE_DIR
      openDirStart dir current
      readDir dir entries
      addEntry current dir name

end

def openDir (current parent : BitVec 32) (entries : HostDir) : ToolM PUnit := do
  openDirStart current parent
  readDir current entries

/-- `open_img` and `create_img`: the image of a directory. -/
def createImg (imgSize : Nat) (info : Fin (SFS_MAX_INFO_LEN + 1) → Byte) (home : HostDir) :
    ToolM PUnit := do
  let root ← createSfs imgSize info
  openDir root root home
  closeSfs

end Ucore.Sfs.Mksfs
