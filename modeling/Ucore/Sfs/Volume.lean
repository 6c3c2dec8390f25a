import Ucore.Sfs.Mount

/-!
# A mounted volume

The block layer of `kern/fs/sfs/sfs_io.c` in lab 8 and the functions of
`kern/fs/sfs/sfs_inode.c` that allocate and free blocks, on the in-memory superblock and
freemap and the blocks of the device.
-/

namespace Ucore.Sfs

open Machine

/-- A `struct sfs_inode`. -/
structure SfsInode where
  din : DiskInode
  dirty : Bool
  reclaimCount : Int

/-- A `struct sfs_fs` with its device. Inodes are known by their numbers, and `ios` counts
the calls of `d_io`. -/
structure Volume where
  super : Super
  freemap : Bitmap
  superDirty : Bool
  sin : BitVec 32 → SfsInode
  inodeList : List (BitVec 32)
  disk : Blocks
  ios : Nat

abbrev SfsM := Machine Failed Volume

def Volume.setSin (v : Volume) (ino : BitVec 32) (sin : SfsInode) : Volume :=
  { v with sin := Function.update v.sin ino sin }

/-- The volume after `sfs_do_mount`; no inode is cached. -/
def Volume.mounted (sfs : SfsFs) (disk : Blocks) (sin : BitVec 32 → SfsInode) : Volume where
  super := sfs.super
  freemap := sfs.freemap
  superDirty := sfs.superDirty
  sin := sin
  inodeList := []
  disk := disk
  ios := 0

/-- The inode as `sfs_load_inode` takes it from its block. -/
def Volume.load (v : Volume) (ino : BitVec 32) : Volume :=
  { v with
    sin := Function.update v.sin ino ⟨DiskInode.ofBytes (v.disk ino.toNat), false, 1⟩
    inodeList := ino :: v.inodeList }

section Model

variable (io : Nat → Int)

/-- What `d_io` returns. -/
def dopIo : SfsM Int := do
  let v ← get
  set { v with ios := v.ios + 1 }
  return io v.ios

/-- The block of the device at the offset `blkno * SFS_BLKSIZE`, a `uint32_t`. -/
def blockAt (blkno : BitVec 32) : Nat :=
  (blkno * BitVec.ofNat 32 SFS_BLKSIZE).toNat / SFS_BLKSIZE

/-- The assertion of `sfs_rwblock_nolock`. -/
def checkBlkno (blkno : BitVec 32) (checked : Bool) : SfsM PUnit := do
  check .sfsRwblockNolock ((blkno ≠ 0 ∨ checked = false) ∧ blkno < (← get).super.blocks)

/-- `sfs_rwblock_nolock` where it reads. -/
def readBlock (blkno : BitVec 32) (checked : Bool) : SfsM (Except Int Bytes) := do
  checkBlkno blkno checked
  let ret ← dopIo io
  if ret ≠ 0 then return .error ret
  return .ok ((← get).disk (blockAt blkno))

/-- `sfs_rwblock_nolock` where it writes. -/
def writeBlock (blkno : BitVec 32) (data : Bytes) (checked : Bool) : SfsM Int := do
  checkBlkno blkno checked
  let ret ← dopIo io
  if ret ≠ 0 then return ret
  modify fun v => { v with disk := Function.update v.disk (blockAt blkno) data }
  return 0

def sfsRbuf (len : Nat) (blkno : BitVec 32) (offset : Nat) : SfsM (Except Int Bytes) := do
  check .sfsRbuf (offset < SFS_BLKSIZE ∧ offset + len ≤ SFS_BLKSIZE)
  match ← readBlock io blkno true with
  | .error ret => return .error ret
  | .ok data => return .ok fun k => data (offset + k)

def sfsWbuf (buf : Bytes) (len : Nat) (blkno : BitVec 32) (offset : Nat) : SfsM Int := do
  check .sfsWbuf (offset < SFS_BLKSIZE ∧ offset + len ≤ SFS_BLKSIZE)
  match ← readBlock io blkno true with
  | .error ret => return ret
  | .ok data => writeBlock io blkno (splice offset len buf data) true

/-- `sfs_clear_block` of one block. -/
def sfsClearBlock (blkno : BitVec 32) : SfsM Int := writeBlock io blkno (fun _ => 0) true

/-! ## Blocks -/

def sfsBlockInuse (ino : BitVec 32) : SfsM Bool := do
  let v ← get
  if ino ≠ 0 ∧ ino < v.super.blocks then return !(← bitmapTest v.freemap ino.toNat)
  else throw .sfsBlockInuse

def sfsBlockAlloc : SfsM (Except Int (BitVec 32)) := do
  match ← bitmapAlloc (← get).freemap with
  | none => return .error (-E_NO_MEM)
  | some (i, freemap) =>
      modify fun v => { v with freemap }
      check .sfsBlockAlloc ((← get).super.unusedBlocks > 0)
      modify fun v => { v with
        super := { v.super with unusedBlocks := v.super.unusedBlocks - 1 }
        superDirty := true }
      let ino := BitVec.ofNat 32 i
      check .sfsBlockAlloc ((← sfsBlockInuse ino) = true)
      let ret ← sfsClearBlock io ino
      if ret ≠ 0 then return .error ret
      return .ok ino

def sfsBlockFree (ino : BitVec 32) : SfsM PUnit := do
  check .sfsBlockFree ((← sfsBlockInuse ino) = true)
  let freemap ← bitmapFree (← get).freemap ino.toNat
  modify fun v => { v with
    freemap
    super := { v.super with unusedBlocks := v.super.unusedBlocks + 1 }
    superDirty := true }

/-! ## The block map of an inode -/

/-- `sfs_bmap_get_sub_nolock` from the allocation of the block on; `entp` is what the
pointer had. -/
def allocSub (entp ent : BitVec 32) (index : Nat) : SfsM (Except Int (BitVec 32 × BitVec 32)) := do
  match ← sfsBlockAlloc io with
  | .error ret =>
      if ent ≠ entp then sfsBlockFree ent
      return .error ret
  | .ok ino =>
      let ret ← sfsWbuf io (ofWords fun _ => ino) 4 ent (4 * index)
      if ret ≠ 0 then
        sfsBlockFree ino
        if ent ≠ entp then sfsBlockFree ent
        return .error ret
      return .ok (ent, ino)

/-- The entry block, which may be new, with the entry. -/
def sfsBmapGetSubNolock (entp : BitVec 32) (index : Nat) (create : Bool) :
    SfsM (Except Int (BitVec 32 × BitVec 32)) := do
  check .sfsBmapGetSubNolock (index < SFS_BLK_NENTRY)
  if entp ≠ 0 then
    match ← sfsRbuf io 4 entp (4 * index) with
    | .error ret => return .error ret
    | .ok data =>
        if word data 0 ≠ 0 ∨ create = false then return .ok (entp, word data 0)
        else allocSub io entp entp index
  else if create = false then return .ok (0, 0)
  else
    match ← sfsBlockAlloc io with
    | .error ret => return .error ret
    | .ok ent => allocSub io entp ent index

/-- The end of `sfs_bmap_get_nolock`. -/
def bmapOut (ino : BitVec 32) : SfsM (Except Int (BitVec 32)) := do
  if ino = 0 then return .ok ino
  else
    check .sfsBmapGetNolock ((← sfsBlockInuse ino) = true)
    return .ok ino

def sfsBmapGetNolock (node : BitVec 32) (index : Nat) (create : Bool) :
    SfsM (Except Int (BitVec 32)) := do
  let sin := (← get).sin node
  if h : index < SFS_NDIRECT then
    let ino := sin.din.direct ⟨index, h⟩
    if ino = 0 ∧ create = true then
      match ← sfsBlockAlloc io with
      | .error ret => return .error ret
      | .ok ino =>
          let direct := Function.update sin.din.direct ⟨index, h⟩ ino
          modify fun v => v.setSin node { sin with din := { sin.din with direct }, dirty := true }
          bmapOut ino
    else bmapOut ino
  else if index - SFS_NDIRECT < SFS_BLK_NENTRY then
    match ← sfsBmapGetSubNolock io sin.din.indirect (index - SFS_NDIRECT) create with
    | .error ret => return .error ret
    | .ok (ent, ino) =>
        if ent ≠ sin.din.indirect then
          check .sfsBmapGetNolock (sin.din.indirect = 0)
          modify fun v =>
            v.setSin node { sin with din := { sin.din with indirect := ent }, dirty := true }
          bmapOut ino
        else bmapOut ino
  else throw .sfsBmapGetNolock

/-- `din->blocks ++`, which does not make the inode dirty. -/
def growBlocks (node : BitVec 32) (create : Bool) : SfsM PUnit :=
  if create then modify fun v =>
    let sin := v.sin node
    v.setSin node { sin with din := { sin.din with blocks := sin.din.blocks + 1 } }
  else pure ⟨⟩

def sfsBmapLoadNolock (node : BitVec 32) (index : Nat) : SfsM (Except Int (BitVec 32)) := do
  let blocks := ((← get).sin node).din.blocks.toNat
  check .sfsBmapLoadNolock (index ≤ blocks)
  match ← sfsBmapGetNolock io node index (index = blocks) with
  | .error ret => return .error ret
  | .ok ino =>
      check .sfsBmapLoadNolock ((← sfsBlockInuse ino) = true)
      growBlocks node (index = blocks)
      return .ok ino

end Model

/-! ## The block layer -/

section Steps

variable {io : Nat → Int} {v : Volume} {blkno ino : BitVec 32}

/-- Below 4 GiB the offset does not wrap around. -/
theorem blockAt_eq (hlt : blkno.toNat < 2 ^ 20) : blockAt blkno = blkno.toNat := by
  unfold blockAt SFS_BLKSIZE
  rw [BitVec.toNat_mul]
  simp only [BitVec.toNat_ofNat, Nat.reducePow, Nat.reduceMod]
  omega

/-- A block of the volume that is neither the superblock nor past the end, with a number whose
product with the block size does not wrap. -/
structure Volume.Valid (v : Volume) (blkno : BitVec 32) : Prop where
  ne_zero : blkno ≠ 0
  lt : blkno < v.super.blocks
  small : blkno.toNat < 2 ^ 20

theorem readBlock_spec (hblkno : v.Valid blkno) :
    Ends never (readBlock io blkno true) v fun r t => t = { v with ios := v.ios + 1 } ∧
      match r with
      | .error ret => ret = io v.ios ∧ ret ≠ 0
      | .ok data => io v.ios = 0 ∧ data = v.disk blkno.toNat := by
  rw [readBlock, ends_bind, checkBlkno, ends_bind, ends_get,
    ends_check ⟨.inl hblkno.ne_zero, hblkno.lt⟩,
    ends_bind, dopIo, ends_bind, ends_get, ends_bind, ends_set, ends_pure]
  split
  case isTrue hne => exact ⟨rfl, rfl, hne⟩
  case isFalse heq =>
    rw [ends_bind, ends_get]
    exact ⟨rfl, Decidable.not_not.mp heq, by rw [blockAt_eq hblkno.small]⟩

theorem sfsRbuf_spec (hblkno : v.Valid blkno) {len offset : Nat} (hoffset : offset < SFS_BLKSIZE)
    (hlen : offset + len ≤ SFS_BLKSIZE) :
    Ends never (sfsRbuf io len blkno offset) v fun r t => t = { v with ios := v.ios + 1 } ∧
      match r with
      | .error ret => ret = io v.ios ∧ ret ≠ 0
      | .ok buf => io v.ios = 0 ∧ buf = fun k => v.disk blkno.toNat (offset + k) := by
  rw [sfsRbuf, ends_bind, ends_check ⟨hoffset, hlen⟩, ends_bind]
  apply (readBlock_spec hblkno).imp
  intro r t ht
  obtain ⟨rfl, hread⟩ := ht
  cases r with
  | error ret => exact ⟨rfl, hread⟩
  | ok data => exact ⟨rfl, hread.1, by rw [hread.2]⟩

theorem writeBlock_spec (hblkno : v.Valid blkno) (data : Bytes) :
    Ends never (writeBlock io blkno data true) v fun r t => r = io v.ios ∧
      t = if io v.ios = 0 then
        { v with ios := v.ios + 1, disk := Function.update v.disk blkno.toNat data }
      else { v with ios := v.ios + 1 } := by
  rw [writeBlock, ends_bind, checkBlkno, ends_bind, ends_get,
    ends_check ⟨.inl hblkno.ne_zero, hblkno.lt⟩,
    ends_bind, dopIo, ends_bind, ends_get, ends_bind, ends_set, ends_pure]
  by_cases hio : io v.ios = 0
  · rw [if_neg (not_not.mpr hio), if_pos hio, ends_bind, ends_modify, blockAt_eq hblkno.small]
    exact ⟨hio.symm, rfl⟩
  · rw [if_pos hio, if_neg hio]
    exact ⟨rfl, rfl⟩

/-- Writing a part of a block takes a read and a write. -/
theorem sfsWbuf_spec (hblkno : v.Valid blkno) {len offset : Nat} (hoffset : offset < SFS_BLKSIZE)
    (hlen : offset + len ≤ SFS_BLKSIZE) (buf : Bytes) :
    Ends never (sfsWbuf io buf len blkno offset) v fun r t =>
      (r = io v.ios ∧ r ≠ 0 ∧ t = { v with ios := v.ios + 1 }) ∨
      (io v.ios = 0 ∧ r = io (v.ios + 1) ∧ r ≠ 0 ∧ t = { v with ios := v.ios + 2 }) ∨
      (io v.ios = 0 ∧ io (v.ios + 1) = 0 ∧ r = 0 ∧ t = { v with
        ios := v.ios + 2
        disk := Function.update v.disk blkno.toNat
          (splice offset len buf (v.disk blkno.toNat)) }) := by
  rw [sfsWbuf, ends_bind, ends_check ⟨hoffset, hlen⟩, ends_bind]
  apply (readBlock_spec hblkno).imp
  intro r t ht
  obtain ⟨rfl, hread⟩ := ht
  cases r with
  | error ret => exact .inl ⟨hread.1, hread.2, rfl⟩
  | ok data =>
      obtain ⟨hzero, rfl⟩ := hread
      have hvalid : ({ v with ios := v.ios + 1 } : Volume).Valid blkno :=
        ⟨hblkno.ne_zero, hblkno.lt, hblkno.small⟩
      apply (writeBlock_spec hvalid _).imp
      rintro r t ⟨rfl, rfl⟩
      by_cases hio : io (v.ios + 1) = 0
      · exact .inr (.inr ⟨hzero, hio, hio, if_pos hio⟩)
      · exact .inr (.inl ⟨hzero, rfl, hio, if_neg hio⟩)

/-- The freemap has a bit for every block. -/
def Volume.Covered (v : Volume) : Prop := v.super.blocks.toNat ≤ v.freemap.nbits

/-- The block is in use. -/
structure Volume.InUse (v : Volume) (ino : BitVec 32) : Prop where
  ne_zero : ino ≠ 0
  lt : ino < v.super.blocks
  used : ino.toNat ∉ v.freemap.bits

theorem sfsBlockInuse_spec (hcovered : v.Covered) (hne : ino ≠ 0) (hlt : ino < v.super.blocks) :
    Ends never (sfsBlockInuse ino) v fun r t => t = v ∧
      (r = true ↔ ino.toNat ∉ v.freemap.bits) := by
  have hbit : ino.toNat < v.freemap.nbits := Nat.lt_of_lt_of_le hlt hcovered
  rw [sfsBlockInuse, ends_bind, ends_get]
  rw [if_pos ⟨hne, hlt⟩, ends_bind, bitmapTest_eq hbit, ends_pure]
  refine ⟨rfl, ?_⟩
  rw [Bitmap.mem_bits]
  cases hset : bitOf v.freemap.map ino.toNat with
  | true => simp [hbit]
  | false => simp

theorem bmapOut_spec (hcovered : v.Covered) (hino : ino = 0 ∨ v.InUse ino) :
    Ends never (bmapOut ino) v fun r t => t = v ∧ r = .ok ino := by
  rw [bmapOut]
  split
  case isTrue => exact ⟨rfl, rfl⟩
  case isFalse hne =>
    have huse := hino.resolve_left hne
    rw [ends_bind]
    apply (sfsBlockInuse_spec hcovered hne huse.lt).imp
    intro r t ht
    obtain ⟨rfl, hr⟩ := ht
    rw [ends_bind, ends_check (hr.mpr huse.used)]
    exact ⟨rfl, rfl⟩

end Steps

end Ucore.Sfs
