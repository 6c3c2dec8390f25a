import Ucore.Sfs.Volume

/-!
# Growing, shrinking and writing back files

The functions of `kern/fs/sfs/sfs_inode.c` in lab 8 that free blocks of a file and change
its size, `sfs_reclaim`, and what `kern/fs/sfs/sfs_io.c` and `kern/fs/sfs/sfs_fs.c` write
back. The locks of an inode and of the volume are not part of this.
-/

namespace Ucore.Sfs

open Machine

def E_BUSY : Int := 15

/-- The largest number of blocks that an inode has room for. -/
def maxBlocks : Nat := SFS_NDIRECT + SFS_BLK_NENTRY

/-- `ROUNDUP_DIV(len, SFS_BLKSIZE)`. -/
def blocksFor (len : Nat) : Nat := (len + SFS_BLKSIZE - 1) / SFS_BLKSIZE

section Model

variable (io : Nat → Int)

/-! ## Freeing blocks -/

def sfsBmapFreeSubNolock (ent : BitVec 32) (index : Nat) : SfsM Int := do
  check .sfsBmapFreeSubNolock ((← sfsBlockInuse ent) = true ∧ index < SFS_BLK_NENTRY)
  match ← sfsRbuf io 4 ent (4 * index) with
  | .error ret => return ret
  | .ok data =>
      if word data 0 ≠ 0 then
        let ret ← sfsWbuf io (fun _ => 0) 4 ent (4 * index)
        if ret ≠ 0 then return ret
        else
          sfsBlockFree (word data 0)
          return 0
      else return 0

def sfsBmapFreeNolock (node : BitVec 32) (index : Nat) : SfsM Int := do
  let sin := (← get).sin node
  if h : index < SFS_NDIRECT then
    let ino := sin.din.direct ⟨index, h⟩
    if ino ≠ 0 then
      sfsBlockFree ino
      let direct := Function.update sin.din.direct ⟨index, h⟩ 0
      modify fun v => v.setSin node { sin with din := { sin.din with direct }, dirty := true }
      return 0
    else return 0
  else if index - SFS_NDIRECT < SFS_BLK_NENTRY then
    if sin.din.indirect ≠ 0 then sfsBmapFreeSubNolock io sin.din.indirect (index - SFS_NDIRECT)
    else return 0
  else return 0

/-- `din->blocks --`, with the inode dirty. -/
def shrinkBlocks (node : BitVec 32) : SfsM PUnit :=
  modify fun v =>
    let sin := v.sin node
    v.setSin node
      { sin with din := { sin.din with blocks := sin.din.blocks - 1 }, dirty := true }

def sfsBmapTruncateNolock (node : BitVec 32) : SfsM Int := do
  let blocks := ((← get).sin node).din.blocks
  check .sfsBmapTruncateNolock (blocks ≠ 0)
  let ret ← sfsBmapFreeNolock io node (blocks.toNat - 1)
  if ret ≠ 0 then return ret
  else
    shrinkBlocks node
    return 0

/-! ## The size of a file -/

/-- The loop of `sfs_truncfile` that adds blocks, from block `nblks` on. -/
def growFile (node : BitVec 32) : Nat → Nat → SfsM Int
  | 0, _ => return 0
  | left + 1, nblks => do
      match ← sfsBmapLoadNolock io node nblks with
      | .error ret => return ret
      | .ok _ => growFile node left (nblks + 1)

/-- The loop that frees blocks. -/
def shrinkFile (node : BitVec 32) : Nat → SfsM Int
  | 0 => return 0
  | left + 1 => do
      let ret ← sfsBmapTruncateNolock io node
      if ret ≠ 0 then return ret
      else shrinkFile node left

def resizeFile (node : BitVec 32) (nblks tblks : Nat) : SfsM Int :=
  if nblks < tblks then growFile io node (tblks - nblks) nblks
  else if tblks < nblks then shrinkFile io node (nblks - tblks)
  else return 0

/-- `din->size = len`, with the inode dirty. -/
def setSize (node : BitVec 32) (len : Int) : SfsM PUnit :=
  modify fun v =>
    let sin := v.sin node
    v.setSin node { sin with din := { sin.din with size := BitVec.ofInt 32 len }, dirty := true }

def sfsTruncfile (node : BitVec 32) (len : Int) : SfsM Int := do
  if len < 0 ∨ SFS_MAX_FILE_SIZE < len then return -E_INVAL
  else
    let din := ((← get).sin node).din
    let tblks := blocksFor len.toNat
    if (din.size.toNat : Int) = len then
      check .sfsTruncfile (tblks = din.blocks.toNat)
      return 0
    else
      let ret ← resizeFile io node din.blocks.toNat tblks
      if ret ≠ 0 then return ret
      else
        check .sfsTruncfile (((← get).sin node).din.blocks.toNat = tblks)
        setSize node len
        return 0

def sfsTryseek (node : BitVec 32) (pos : Int) : SfsM Int := do
  if pos < 0 ∨ SFS_MAX_FILE_SIZE ≤ pos then return -E_INVAL
  else if (((← get).sin node).din.size.toNat : Int) < pos then sfsTruncfile io node pos
  else return 0

/-! ## Writing back -/

/-- `sizeof(struct sfs_disk_inode)`. -/
def sizeofDiskInode : Nat := 64

def setDirty (node : BitVec 32) (dirty : Bool) : SfsM PUnit :=
  modify fun v => v.setSin node { v.sin node with dirty }

def sfsFsync (node : BitVec 32) : SfsM Int := do
  let sin := (← get).sin node
  if sin.dirty then
    setDirty node false
    let ret ← sfsWbuf io (ofWords sin.din.words) sizeofDiskInode node 0
    if ret ≠ 0 then
      setDirty node true
      return ret
    else return 0
  else return 0

/-- `vop_truncate`, which directories do not have. -/
def vopTruncate (node : BitVec 32) (len : Int) : SfsM Int := do
  check .vopOp (((← get).sin node).din.type ≠ SFS_TYPE_DIR)
  sfsTruncfile io node len

/-- Whether `sfs_reclaim` goes on to free the inode: the file has been emptied if nothing
links to it, and the inode has been written back. -/
def prepareReclaim (node : BitVec 32) : SfsM Int := do
  let ret ← if ((← get).sin node).din.nlinks = 0 then vopTruncate io node 0 else pure 0
  if ret ≠ 0 then return ret
  else if ((← get).sin node).dirty then sfsFsync io node
  else return 0

/-- `sfs_reclaim`; the inode has `refs` references. -/
def sfsReclaim (node : BitVec 32) (refs : Nat) : SfsM Int := do
  let sin := (← get).sin node
  check .sfsReclaim (0 < sin.reclaimCount)
  modify fun v => v.setSin node { sin with reclaimCount := sin.reclaimCount - 1 }
  if sin.reclaimCount - 1 ≠ 0 ∨ refs ≠ 0 then return -E_BUSY
  else
    let ret ← prepareReclaim io node
    if ret ≠ 0 then return ret
    else
      modify fun v => { v with inodeList := v.inodeList.erase node }
      let din := ((← get).sin node).din
      if din.nlinks = 0 then
        sfsBlockFree node
        if din.indirect ≠ 0 then sfsBlockFree din.indirect
        return 0
      else return 0

/-- The superblock in a block of zeros. -/
def superBlock (super : Super) : Bytes := splice 0 44 super.bytes fun _ => 0

def sfsSyncSuper : SfsM Int := do
  writeBlock io (BitVec.ofNat 32 SFS_BLKN_SUPER) (superBlock (← get).super) false

/-- Block `i` of the words of a bitmap. -/
def freemapBlock (freemap : Bitmap) (i : Nat) : Bytes :=
  ofWords fun k => freemap.map (SFS_BLK_NENTRY * i + k)

/-- `sfs_wblock` of `left` blocks from block `i` of the data on. -/
def sfsWblock (data : Nat → Bytes) (blkno : BitVec 32) : Nat → Nat → SfsM Int
  | 0, _ => return 0
  | left + 1, i => do
      let ret ← writeBlock io (blkno + BitVec.ofNat 32 i) (data i) true
      if ret ≠ 0 then return ret
      else sfsWblock data blkno left (i + 1)

def sfsSyncFreemap : SfsM Int := do
  let v ← get
  sfsWblock io (freemapBlock v.freemap) (BitVec.ofNat 32 SFS_BLKN_FREEMAP)
    (sfsFreemapBlocks v.super) 0

def setSuperDirty (superDirty : Bool) : SfsM PUnit := modify fun v => { v with superDirty }

/-- `sfs_sync`. What `vop_fsync` returns is not looked at. -/
def sfsSync : SfsM Int := do
  (← get).inodeList.forM fun node => do
    let _ ← sfsFsync io node
  if (← get).superDirty then
    setSuperDirty false
    let ret ← sfsSyncSuper io
    if ret ≠ 0 then
      setSuperDirty true
      return ret
    else
      let ret ← sfsSyncFreemap io
      if ret ≠ 0 then
        setSuperDirty true
        return ret
      else return 0
  else return 0

end Model

/-! ## Calls -/

/-- A call that sets the size of a file. -/
inductive SizeCall
  | truncfile (node : BitVec 32) (len : Int)
  | tryseek (node : BitVec 32) (pos : Int)

namespace SizeCall

def node : SizeCall → BitVec 32
  | truncfile node _ => node
  | tryseek node _ => node

/-- The size that is asked for. -/
def len : SizeCall → Int
  | truncfile _ len => len
  | tryseek _ pos => pos

def run (io : Nat → Int) : SizeCall → SfsM Int
  | truncfile node len => sfsTruncfile io node len
  | tryseek node pos => sfsTryseek io node pos

end SizeCall

end Ucore.Sfs
