import Mathlib.Algebra.Group.Nat.Defs
import Mathlib.Data.Nat.Notation
import Ucore.Foundation.Words

/-!
# What is on an SFS disk

The structures of `kern/fs/sfs/sfs.h` in lab 8, as the kernel lays them out in a
block: the superblock and the inode.
-/

namespace Ucore.Sfs

def E_INVAL : Int := 3

def E_NO_MEM : Int := 4

def E_NA_DEV : Int := 14

def E_NOENT : Int := 16

def SFS_MAGIC : BitVec 32 := 0x2f8dbe2a

def SFS_BLKSIZE : Nat := 4096

def SFS_NDIRECT : Nat := 12

def SFS_MAX_INFO_LEN : Nat := 31

def SFS_MAX_FNAME_LEN : Nat := 255

def SFS_MAX_FILE_SIZE : Nat := 1024 * 1024 * 128

def SFS_BLKN_SUPER : Nat := 0

def SFS_BLKN_ROOT : Nat := 1

def SFS_BLKN_FREEMAP : Nat := 2

/-- Bits of a block. -/
def SFS_BLKBITS : Nat := SFS_BLKSIZE * 8

/-- Words of a block. -/
def SFS_BLK_NENTRY : Nat := SFS_BLKSIZE / 4

def SFS_TYPE_FILE : BitVec 16 := 1

def SFS_TYPE_DIR : BitVec 16 := 2

def SFS_TYPE_LINK : BitVec 16 := 3

/-- The functions whose assertions may fail and those that panic; `kfree` gets an
address that is not allocated. -/
inductive Failed
  | kfree
  | bitmapCreate
  | bitmapAlloc
  | bitmapTranslate
  | bitmapFree
  | sfsInitFreemap
  | sfsDoMount
  | sfsRwblockNolock
  | sfsRbuf
  | sfsWbuf
  | sfsBlockInuse
  | sfsBlockAlloc
  | sfsBlockFree
  | sfsBmapGetSubNolock
  | sfsBmapGetNolock
  | sfsBmapFreeSubNolock
  | sfsBmapLoadNolock
  | sfsBmapTruncateNolock
  | sfsDirentReadNolock
  | sfsDirentSearchNolock
  | sfsTruncfile
  | sfsReclaim
  | vopOp
  deriving DecidableEq, Repr

/-- A block device or an image file, by block numbers. -/
abbrev Blocks := Nat → Bytes

/-- `ROUNDUP(a, n)` for a `uint32_t` `a`. -/
@[irreducible] def roundup (a n : Nat) : Nat := (a + n - 1 - (a + n - 1) % n) % 2 ^ 32

/-- `ROUNDUP_DIV(a, n)` for a `uint32_t` `a`. -/
@[irreducible] def roundupDiv (a n : Nat) : Nat := (a + n - 1) / n % 2 ^ 32

/-! ## The superblock -/

/-- `struct sfs_super`. -/
structure Super where
  magic : BitVec 32
  blocks : BitVec 32
  unusedBlocks : BitVec 32
  info : Fin (SFS_MAX_INFO_LEN + 1) → Byte

def Super.ofBytes (b : Bytes) : Super where
  magic := word b 0
  blocks := word b 1
  unusedBlocks := word b 2
  info i := b (12 + i)

/-- The 44 bytes of a superblock. -/
def Super.bytes (super : Super) : Bytes := fun k =>
  if k < 12 then
    ofWords (fun i =>
      if i = 0 then super.magic else if i = 1 then super.blocks else super.unusedBlocks) k
  else if h : k - 12 < SFS_MAX_INFO_LEN + 1 then super.info ⟨k - 12, h⟩
  else 0

/-- `sfs_freemap_bits(super)`. -/
def sfsFreemapBits (super : Super) : Nat := roundup super.blocks.toNat SFS_BLKBITS

/-- `sfs_freemap_blocks(super)`. -/
def sfsFreemapBlocks (super : Super) : Nat := roundupDiv super.blocks.toNat SFS_BLKBITS

/-- A superblock that was written is read back. -/
theorem Super.ofBytes_splice (super : Super) (old : Bytes) :
    Super.ofBytes (splice 0 44 super.bytes old) = super := by
  have hword : ∀ i < 3, word (splice 0 44 super.bytes old) i =
      if i = 0 then super.magic else if i = 1 then super.blocks else super.unusedBlocks := by
    intro i hi
    rw [word_splice _ _ (by omega)]
    apply (word_congr _).trans (word_ofWords _ i)
    intro k hk
    rw [Super.bytes, if_pos (by omega)]
  have hinfo : ∀ i : Fin (SFS_MAX_INFO_LEN + 1),
      splice 0 44 super.bytes old (12 + i) = super.info i := by
    intro i
    have hi : i.val < 32 := i.isLt
    rw [splice, if_pos (by omega), Super.bytes, if_neg (by omega), dif_pos (by
      show 12 + i.val - 0 - 12 < 32
      omega)]
    congr 1
    apply Fin.ext
    show 12 + i.val - 0 - 12 = i.val
    omega
  cases super with
  | mk magic blocks unusedBlocks info =>
      rw [Super.ofBytes, hword 0 (by omega), hword 1 (by omega), hword 2 (by omega)]
      simp only [hinfo]
      rfl

/-! ## The inode -/

/-- `struct sfs_disk_inode`. -/
structure DiskInode where
  size : BitVec 32
  type : BitVec 16
  nlinks : BitVec 16
  blocks : BitVec 32
  direct : Fin SFS_NDIRECT → BitVec 32
  indirect : BitVec 32

/-- The bytes of an inode. -/
def DiskInode.ofBytes (b : Bytes) : DiskInode where
  size := word b 0
  type := (word b 1).extractLsb' 0 16
  nlinks := (word b 1).extractLsb' 16 16
  blocks := word b 2
  direct i := word b (3 + i)
  indirect := word b 15

def DiskInode.words (din : DiskInode) (i : Nat) : BitVec 32 :=
  if i = 0 then din.size
  else if i = 1 then din.nlinks ++ din.type
  else if i = 2 then din.blocks
  else if h : i - 3 < SFS_NDIRECT then din.direct ⟨i - 3, h⟩
  else din.indirect

/-- An inode is decided by its words. -/
theorem DiskInode.ofBytes_of_words {b : Bytes} {din : DiskInode}
    (hwords : ∀ i < 16, word b i = din.words i) : DiskInode.ofBytes b = din := by
  have hdirect : (fun i : Fin SFS_NDIRECT => word b (3 + i)) = din.direct := by
    funext i
    have hi : i.val < 12 := i.isLt
    rw [hwords _ (by omega), DiskInode.words, if_neg (by omega), if_neg (by omega),
      if_neg (by omega), dif_pos (by
        show 3 + i.val - 3 < 12
        omega)]
    congr 1
    apply Fin.ext
    show 3 + i.val - 3 = i.val
    omega
  have htype : (word b 1).extractLsb' 0 16 = din.type := by
    rw [hwords 1 (by omega)]
    exact BitVec.extractLsb'_append_eq_right
  have hnlinks : (word b 1).extractLsb' 16 16 = din.nlinks := by
    rw [hwords 1 (by omega)]
    exact BitVec.extractLsb'_append_eq_left
  rw [DiskInode.ofBytes, hdirect, htype, hnlinks, hwords 0 (by omega), hwords 2 (by omega),
    hwords 15 (by omega)]
  rfl

/-- The 64 bytes of an inode that was written are read back. -/
theorem DiskInode.ofBytes_splice (din : DiskInode) (old : Bytes) :
    DiskInode.ofBytes (splice 0 64 (ofWords din.words) old) = din := by
  apply DiskInode.ofBytes_of_words
  intro i hi
  rw [word_splice _ _ (by omega), word_ofWords]

end Ucore.Sfs
