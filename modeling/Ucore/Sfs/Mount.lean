import Ucore.Sfs.Bitmap

/-!
# Mounting

`sfs_do_mount` of `kern/fs/sfs/sfs_fs.c` in lab 8 and what it calls. Of the mounted
file system, `SfsFs` has what the mount reads and the objects it allocates.
-/

namespace Ucore.Sfs

open Machine

/-- A `struct device`, with what is on it. -/
structure Device where
  dBlocks : Nat
  dBlocksize : Nat
  disk : Blocks

/-- A `struct sfs_fs`, with the addresses of it and of its buffers. -/
structure SfsFs where
  self : Addr
  sfsBuffer : Addr
  hashList : Addr
  super : Super
  freemap : Bitmap
  superDirty : Bool

section Model

variable (answers : Answers) (dev : Device)

/-- The block at the offset `blkno * SFS_BLKSIZE`, a `uint32_t`, unless the read fails. -/
def sfsInitRead (blkno : Nat) : KernelM (Except Int Bytes) := do
  let k ← get
  set { k with reads := k.reads + 1 }
  if answers.io k.reads ≠ 0 then return .error (answers.io k.reads)
  return .ok (dev.disk (blkno * SFS_BLKSIZE % 2 ^ 32 / SFS_BLKSIZE))

/-- The words of a block put at the word `pos` of the map. -/
def putBlock (map : Nat → BitVec 32) (pos : Nat) (b : Bytes) : Nat → BitVec 32 :=
  fun w => if pos ≤ w ∧ w < pos + SFS_BLK_NENTRY then word b (w - pos) else map w

/-- The loop of `sfs_init_freemap`. -/
def readFreemap : Nat → Nat → Nat → (Nat → BitVec 32) → KernelM (Except Int (Nat → BitVec 32))
  | 0, _, _, map => return .ok map
  | nblks + 1, blkno, pos, map => do
      match ← sfsInitRead answers dev blkno with
      | .error ret => return .error ret
      | .ok b => readFreemap nblks (blkno + 1) (pos + SFS_BLK_NENTRY) (putBlock map pos b)

def sfsInitFreemap (freemap : Bitmap) (blkno nblks : Nat) :
    KernelM (Except Int (Nat → BitVec 32)) := do
  check .sfsInitFreemap (4 * freemap.nwords = nblks * SFS_BLKSIZE % 2 ^ 32)
  readFreemap answers dev nblks blkno 0 freemap.map

/-- The loop that counts the set bits up to a bound. -/
def countUnused (freemap : Bitmap) : Nat → KernelM (BitVec 32)
  | 0 => return 0
  | i + 1 => do
      let unused ← countUnused freemap i
      if ← bitmapTest freemap i then return unused + 1
      return unused

def failedCleanupFs (fs : Addr) : KernelM PUnit := kfree fs

def failedCleanupSfsBuffer (sfsBuffer fs : Addr) : KernelM PUnit := do
  kfree sfsBuffer
  failedCleanupFs fs

def failedCleanupHashList (hashList sfsBuffer fs : Addr) : KernelM PUnit := do
  kfree hashList
  failedCleanupSfsBuffer sfsBuffer fs

def failedCleanupFreemap (freemap : Bitmap) (hashList sfsBuffer fs : Addr) : KernelM PUnit := do
  bitmapDestroy freemap
  failedCleanupHashList hashList sfsBuffer fs

/-- `super->info[SFS_MAX_INFO_LEN] = '\0'`. -/
def Super.terminated (super : Super) : Super :=
  { super with info := Function.update super.info ⟨SFS_MAX_INFO_LEN, Nat.lt_succ_self _⟩ 0 }

/-- `sfs_do_mount` after the superblock was loaded and checked. -/
def loadFreemap (super : Super) (sfsBuffer fs : Addr) : KernelM (Except Int SfsFs) := do
  match ← kmalloc answers with
  | none =>
      failedCleanupSfsBuffer sfsBuffer fs
      return .error (-E_NO_MEM)
  | some hashList =>
  match ← bitmapCreate answers (sfsFreemapBits super) with
  | none =>
      failedCleanupHashList hashList sfsBuffer fs
      return .error (-E_NO_MEM)
  | some freemap =>
  match ← sfsInitFreemap answers dev freemap SFS_BLKN_FREEMAP (sfsFreemapBlocks super) with
  | .error ret =>
      failedCleanupFreemap freemap hashList sfsBuffer fs
      return .error ret
  | .ok map =>
      let unused ← countUnused { freemap with map } (sfsFreemapBits super)
      check .sfsDoMount (unused = super.unusedBlocks)
      return .ok ⟨fs, sfsBuffer, hashList, super, { freemap with map }, false⟩

def sfsDoMount : KernelM (Except Int SfsFs) := do
  if dev.dBlocksize ≠ SFS_BLKSIZE then return .error (-E_NA_DEV)
  else
  match ← kmalloc answers with
  | none => return .error (-E_NO_MEM)
  | some fs =>
  match ← kmalloc answers with
  | none =>
      failedCleanupFs fs
      return .error (-E_NO_MEM)
  | some sfsBuffer =>
  match ← sfsInitRead answers dev SFS_BLKN_SUPER with
  | .error ret =>
      failedCleanupSfsBuffer sfsBuffer fs
      return .error ret
  | .ok b =>
      let super := (Super.ofBytes b).terminated
      if super.magic ≠ SFS_MAGIC then
        failedCleanupSfsBuffer sfsBuffer fs
        return .error (-E_INVAL)
      else if super.blocks.toNat > dev.dBlocks then
        failedCleanupSfsBuffer sfsBuffer fs
        return .error (-E_INVAL)
      else loadFreemap answers dev super sfsBuffer fs

end Model

/-! ## The steps of a mount -/

section Steps

variable {answers : Answers} {dev : Device} {k : Kernel}

theorem sfsInitRead_spec {blkno : Nat} (hlt : blkno < 2 ^ 20) :
    Ends never (sfsInitRead answers dev blkno) k fun r t =>
      t = { k with reads := k.reads + 1 } ∧
        match r with
        | .error ret => ret = answers.io k.reads ∧ ret ≠ 0
        | .ok b => answers.io k.reads = 0 ∧ b = dev.disk blkno := by
  have hblkno : blkno * SFS_BLKSIZE % 2 ^ 32 / SFS_BLKSIZE = blkno := by
    unfold SFS_BLKSIZE
    omega
  rw [sfsInitRead, ends_bind, ends_get, ends_bind, hblkno]
  show Ends never _ _ _
  split
  case isTrue hne => exact ⟨rfl, rfl, hne⟩
  case isFalse heq => exact ⟨rfl, Decidable.not_not.mp heq, rfl⟩

/-- Bit `i` of the freemap on the disk. -/
def diskBit (disk : Blocks) (i : Nat) : Bool :=
  (word (disk (SFS_BLKN_FREEMAP + i / SFS_BLKBITS)) (i % SFS_BLKBITS / 32)).getLsbD (i % 32)

/-- The blocks that the freemap on the disk has as free. -/
def diskBits (disk : Blocks) (nbits : Nat) : Finset Nat := {i ∈ Finset.range nbits | diskBit disk i}

/-- The map has what `n` blocks of the disk have. -/
def Loaded (disk : Blocks) (n : Nat) (map : Nat → BitVec 32) : Prop :=
  ∀ w < n * SFS_BLK_NENTRY,
    map w = word (disk (SFS_BLKN_FREEMAP + w / SFS_BLK_NENTRY)) (w % SFS_BLK_NENTRY)

theorem Loaded.putBlock {n : Nat} {map : Nat → BitVec 32} (hloaded : Loaded dev.disk n map) :
    Loaded dev.disk (n + 1)
      (putBlock map (n * SFS_BLK_NENTRY) (dev.disk (SFS_BLKN_FREEMAP + n))) := by
  unfold Loaded at hloaded ⊢
  unfold Sfs.putBlock
  unfold SFS_BLK_NENTRY SFS_BLKSIZE at hloaded ⊢
  intro w hw
  by_cases hnew : n * (4096 / 4) ≤ w
  · rw [if_pos (by omega), show w / (4096 / 4) = n by omega,
      show w % (4096 / 4) = w - n * (4096 / 4) by omega]
  · rw [if_neg fun hin => hnew hin.1]
    exact hloaded w (Nat.lt_of_not_le hnew)

/-- The loop reads the blocks that are left, or stops at the first read that fails. -/
theorem readFreemap_spec {n left : Nat} {map : Nat → BitVec 32} (hlt : n + left < 2 ^ 19)
    (hloaded : Loaded dev.disk n map) :
    Ends never (readFreemap answers dev left (SFS_BLKN_FREEMAP + n) (n * SFS_BLK_NENTRY) map) k
      fun r t => t.heap = k.heap ∧
        match r with
        | .error ret => ret < 0 ∧ ∃ i < left, answers.io (k.reads + i) ≠ 0
        | .ok map =>
            (∀ i < left, answers.io (k.reads + i) = 0) ∧ Loaded dev.disk (n + left) map := by
  induction left generalizing n map k with
  | zero => exact ⟨rfl, fun i hi => absurd hi (Nat.not_lt_zero i), hloaded⟩
  | succ left ih =>
      have hblkno : SFS_BLKN_FREEMAP + n < 2 ^ 20 := by
        unfold SFS_BLKN_FREEMAP
        omega
      rw [readFreemap, ends_bind]
      apply (sfsInitRead_spec hblkno).imp
      intro r t ht
      obtain ⟨rfl, hread⟩ := ht
      cases r with
      | error ret =>
          obtain ⟨hret, hne⟩ := hread
          have hneg := answers.io_nonpos k.reads
          exact ⟨rfl, by omega, 0, Nat.succ_pos _, hret ▸ hne⟩
      | ok b =>
          obtain ⟨hzero, rfl⟩ := hread
          have hnext := ih (k := { k with reads := k.reads + 1 }) (n := n + 1) (by omega)
            hloaded.putBlock
          rw [← Nat.add_assoc, Nat.add_mul, Nat.one_mul] at hnext
          apply hnext.imp
          intro r t ht
          refine ⟨ht.1, ?_⟩
          cases r with
          | error ret =>
              obtain ⟨hneg, i, hi, hne⟩ := ht.2
              refine ⟨hneg, i + 1, by omega, ?_⟩
              rw [← Nat.add_assoc, Nat.add_right_comm]
              exact hne
          | ok map =>
              obtain ⟨hreads, hmap⟩ := ht.2
              refine ⟨fun i hi => ?_, by rw [← Nat.add_assoc, Nat.add_right_comm]; exact hmap⟩
              cases i with
              | zero => exact hzero
              | succ i =>
                  rw [← Nat.add_assoc, Nat.add_right_comm]
                  exact hreads i (by omega)

theorem Loaded.bits_eq {n nbits : Nat} {freemap : Bitmap} (hloaded : Loaded dev.disk n freemap.map)
    (hbits : nbits = n * SFS_BLKBITS) (hnbits : freemap.nbits = nbits) :
    freemap.bits = diskBits dev.disk nbits := by
  ext i
  rw [Bitmap.mem_bits, diskBits, Finset.mem_filter, Finset.mem_range, hnbits]
  apply and_congr_right
  intro hi
  unfold Loaded at hloaded
  have hword := hloaded (i / 32)
  unfold SFS_BLK_NENTRY SFS_BLKSIZE at hword
  unfold SFS_BLKBITS SFS_BLKSIZE at hbits
  rw [bitOf, diskBit, hword (by omega)]
  unfold SFS_BLKBITS SFS_BLKSIZE
  rw [show i / 32 / (4096 / 4) = i / (4096 * 8) by omega,
    show i / 32 % (4096 / 4) = i % (4096 * 8) / 32 by omega]

/-- The loop counts the set bits. -/
theorem countUnused_spec {freemap : Bitmap} {n : Nat} (hle : n ≤ freemap.nbits) :
    Ends never (countUnused freemap n) k fun r t => t = k ∧
      r = BitVec.ofNat 32 {i ∈ Finset.range n | bitOf freemap.map i}.card := by
  induction n with
  | zero => exact ⟨rfl, rfl⟩
  | succ n ih =>
      rw [countUnused, ends_bind]
      apply (ih (by omega)).imp
      intro unused t ht
      obtain ⟨rfl, rfl⟩ := ht
      rw [ends_bind, bitmapTest_eq (by omega), ends_pure, Finset.range_add_one,
        Finset.filter_insert]
      cases hbit : bitOf freemap.map n with
      | false => exact ⟨rfl, by simp⟩
      | true =>
          have hnot : n ∉ {i ∈ Finset.range n | bitOf freemap.map i = true} := by simp
          refine ⟨rfl, ?_⟩
          rw [if_pos rfl, Finset.card_insert_of_notMem hnot, BitVec.ofNat_add]
          rfl

/-! ## Cleaning up -/

variable {heap : Finset Addr} {fs sfsBuffer hashList : Addr} {freemap : Bitmap}

theorem failedCleanupFs_spec (hfs : fs ∉ heap) (hheap : k.heap = insert fs heap) :
    Ends never (failedCleanupFs fs) k fun _ t => t.heap = heap := by
  have hmem : fs ∈ k.heap := by simp [hheap]
  apply (kfree_spec hmem).imp
  intro _ t ht
  rw [ht]
  show k.heap.erase fs = heap
  rw [hheap, Finset.erase_insert hfs]

theorem failedCleanupSfsBuffer_spec (hfs : fs ∉ heap) (hbuffer : sfsBuffer ∉ insert fs heap)
    (hheap : k.heap = insert sfsBuffer (insert fs heap)) :
    Ends never (failedCleanupSfsBuffer sfsBuffer fs) k fun _ t => t.heap = heap := by
  rw [failedCleanupSfsBuffer, ends_bind]
  apply (failedCleanupFs_spec hbuffer hheap).imp
  intro _ t ht
  exact failedCleanupFs_spec hfs ht

theorem failedCleanupHashList_spec (hfs : fs ∉ heap) (hbuffer : sfsBuffer ∉ insert fs heap)
    (hlist : hashList ∉ insert sfsBuffer (insert fs heap))
    (hheap : k.heap = insert hashList (insert sfsBuffer (insert fs heap))) :
    Ends never (failedCleanupHashList hashList sfsBuffer fs) k fun _ t => t.heap = heap := by
  rw [failedCleanupHashList, ends_bind]
  apply (failedCleanupFs_spec hlist hheap).imp
  intro _ t ht
  exact failedCleanupSfsBuffer_spec hfs hbuffer ht

/-! ## Mounts that stop the kernel -/

/-- The superblock on a device. -/
def Device.super (dev : Device) : Super := Super.ofBytes (dev.disk SFS_BLKN_SUPER)

/-- The bits of the freemap, a `uint32_t`, are none: `blocks` is zero, or so large that
rounding it up wraps around. -/
def Super.NoBits (super : Super) : Prop :=
  super.blocks = 0 ∨ 2 ^ 32 - SFS_BLKBITS < super.blocks.toNat

/-- The freemap is read, and it has not `unused_blocks` set bits. -/
structure WrongCount (answers : Answers) (dev : Device) : Prop where
  bitmap : answers.full 3 = false
  map : answers.full 4 = false
  reads : ∀ n < sfsFreemapBlocks dev.super, answers.io (n + 1) = 0
  count : (diskBits dev.disk (sfsFreemapBits dev.super)).card ≠ dev.super.unusedBlocks.toNat

/-- The mount gets as far as the freemap, with a superblock that has no bits for it or the
wrong number of unused blocks. -/
structure MountFatal (answers : Answers) (dev : Device) : Prop where
  blocksize : dev.dBlocksize = SFS_BLKSIZE
  fs : answers.full 0 = false
  buffer : answers.full 1 = false
  superRead : answers.io 0 = 0
  magic : dev.super.magic = SFS_MAGIC
  fits : dev.super.blocks.toNat ≤ dev.dBlocks
  hashList : answers.full 2 = false
  wrong : dev.super.NoBits ∨ WrongCount answers dev

/-- No assertion fails, and the mount either has a freemap with `unused_blocks` set bits or
gives back all it allocated. -/
def MountSafe (answers : Answers) (dev : Device) (heap : Finset Addr) : Prop :=
  Ends never (sfsDoMount answers dev) ⟨heap, 0, 0⟩ fun r t =>
    match r with
    | .ok sfs => sfs.freemap.bits.card = sfs.super.unusedBlocks.toNat
    | .error ret => ret < 0 ∧ t.heap = heap

/-- A mounted file system is what the device has: its superblock and its freemap, with a count of
unused blocks that agrees with the freemap. -/
structure Mounted (dev : Device) (sfs : SfsFs) : Prop where
  super : sfs.super = dev.super.terminated
  clean : sfs.superDirty = false
  nbits : sfs.freemap.nbits = sfsFreemapBits dev.super
  full : sfs.freemap.nbits = sfs.freemap.nwords * 32
  bits : sfs.freemap.bits = diskBits dev.disk (sfsFreemapBits dev.super)
  count : sfs.freemap.bits.card = sfs.super.unusedBlocks.toNat

/-- The device is not an SFS device that fits, or a call fails. -/
def Refused (answers : Answers) (dev : Device) : Prop :=
  dev.dBlocksize ≠ SFS_BLKSIZE ∨ dev.super.magic ≠ SFS_MAGIC ∨
    dev.dBlocks < dev.super.blocks.toNat ∨ (∃ n, answers.full n = true) ∨ ∃ n, answers.io n ≠ 0

theorem Refused.of_full {n : Nat} (hfull : answers.full n = true) : Refused answers dev :=
  .inr (.inr (.inr (.inl ⟨n, hfull⟩)))

theorem Refused.of_io {n : Nat} (hio : answers.io n ≠ 0) : Refused answers dev :=
  .inr (.inr (.inr (.inr ⟨n, hio⟩)))

theorem Super.NoBits.iff (super : Super) : super.NoBits ↔ sfsFreemapBits super = 0 := by
  have hlt := super.blocks.isLt
  have hzero : super.blocks = 0 ↔ super.blocks.toNat = 0 := by
    rw [← BitVec.toNat_inj]
    rfl
  rw [Super.NoBits, hzero]
  unfold sfsFreemapBits roundup SFS_BLKBITS SFS_BLKSIZE
  omega

theorem sfsFreemapBits_lt (super : Super) : sfsFreemapBits super < 2 ^ 32 := by
  unfold sfsFreemapBits roundup
  exact Nat.mod_lt _ (by omega)

/-- Where there are bits, there are as many as the blocks of the freemap have. -/
theorem sfsFreemapBits_eq {super : Super} (hbits : ¬super.NoBits) :
    sfsFreemapBits super = sfsFreemapBlocks super * SFS_BLKBITS ∧
      sfsFreemapBlocks super < 2 ^ 18 := by
  have hlt := super.blocks.isLt
  rw [Super.NoBits.iff] at hbits
  unfold sfsFreemapBits sfsFreemapBlocks roundup roundupDiv SFS_BLKBITS SFS_BLKSIZE at *
  omega

/-- The mount from the bitmap on, when all before it went well. -/
theorem mountFreemap_ends {super : Super} (hbits : ¬super.NoBits)
    (hfreemap : freemap.nbits = sfsFreemapBits super)
    (hwords : freemap.nwords = (sfsFreemapBits super + 31) / 32) :
    Ends never (sfsInitFreemap answers dev freemap SFS_BLKN_FREEMAP (sfsFreemapBlocks super)) k
      fun r t => t.heap = k.heap ∧
        match r with
        | .error ret =>
            ret < 0 ∧ ∃ i < sfsFreemapBlocks super, answers.io (k.reads + i) ≠ 0
        | .ok map =>
            (∀ i < sfsFreemapBlocks super, answers.io (k.reads + i) = 0) ∧
              (⟨freemap.self, freemap.mapAddr, freemap.nbits, freemap.nwords, map⟩ : Bitmap).bits =
                diskBits dev.disk (sfsFreemapBits super) := by
  obtain ⟨hsize, hsmall⟩ := sfsFreemapBits_eq hbits
  have hlen : 4 * freemap.nwords = sfsFreemapBlocks super * SFS_BLKSIZE % 2 ^ 32 := by
    rw [hwords, hsize]
    unfold SFS_BLKBITS SFS_BLKSIZE
    omega
  have hnone : Loaded dev.disk 0 freemap.map := by
    intro w hw
    rw [Nat.zero_mul] at hw
    exact absurd hw (Nat.not_lt_zero w)
  have hless : 0 + sfsFreemapBlocks super < 2 ^ 19 := by omega
  have hread := @readFreemap_spec answers dev k 0 _ _ hless hnone
  rw [Nat.add_zero, Nat.zero_mul] at hread
  rw [sfsInitFreemap, ends_bind, ends_check hlen]
  apply hread.imp
  intro r t ht
  refine ⟨ht.1, ?_⟩
  cases r with
  | error ret => exact ht.2
  | ok map =>
      obtain ⟨hreads, hloaded⟩ := ht.2
      rw [Nat.zero_add] at hloaded
      exact ⟨hreads, @Loaded.bits_eq dev _ _ ⟨_, _, _, _, map⟩ hloaded hsize hfreemap⟩

theorem failedCleanupFreemap_spec (hfs : fs ∉ heap) (hbuffer : sfsBuffer ∉ insert fs heap)
    (hlist : hashList ∉ insert sfsBuffer (insert fs heap))
    (hself : freemap.self ∉ insert hashList (insert sfsBuffer (insert fs heap)))
    (hmap : freemap.mapAddr ∉
      insert freemap.self (insert hashList (insert sfsBuffer (insert fs heap))))
    (hheap : k.heap = insert freemap.mapAddr
      (insert freemap.self (insert hashList (insert sfsBuffer (insert fs heap))))) :
    Ends never (failedCleanupFreemap freemap hashList sfsBuffer fs) k fun _ t => t.heap = heap := by
  rw [failedCleanupFreemap, ends_bind]
  apply (bitmapDestroy_spec hself hmap hheap).imp
  intro _ t ht
  exact failedCleanupHashList_spec hfs hbuffer hlist ht

/-- The assertions after the superblock was checked fail when the bits are none or their
count is wrong. -/
theorem loadFreemap_ends {super : Super} (hsuper : super = dev.super.terminated)
    (hcalls : k.calls = 2) (hreads : k.reads = 1) (hfs : fs ∉ heap)
    (hbuffer : sfsBuffer ∉ insert fs heap) (hheap : k.heap = insert sfsBuffer (insert fs heap)) :
    Ends (fun _ => answers.full 2 = false ∧ (dev.super.NoBits ∨ WrongCount answers dev))
      (loadFreemap answers dev super sfsBuffer fs) k fun r t =>
        (answers.full 2 = true ∨ ¬dev.super.NoBits ∧ ¬WrongCount answers dev) ∧
        match r with
        | .ok sfs => Mounted dev sfs
        | .error ret => ret < 0 ∧ t.heap = heap ∧ Refused answers dev := by
  have hbitsEq : sfsFreemapBits super = sfsFreemapBits dev.super := by rw [hsuper]; rfl
  have hblocksEq : sfsFreemapBlocks super = sfsFreemapBlocks dev.super := by rw [hsuper]; rfl
  have hunused : super.unusedBlocks = dev.super.unusedBlocks := by rw [hsuper]; rfl
  have hnomem : -E_NO_MEM < 0 := by decide
  rw [loadFreemap, ends_bind]
  apply kmalloc_spec.lift
  intro hashList k₁ hlist
  obtain ⟨hreads₁, hcalls₁, hlist⟩ := hlist
  cases hashList with
  | none =>
      rw [hcalls] at hlist
      change Ends _ (failedCleanupSfsBuffer sfsBuffer fs >>= _) k₁ _
      rw [ends_bind]
      apply (failedCleanupSfsBuffer_spec hfs hbuffer (hlist.2.trans hheap)).lift
      exact fun _ t ht => ⟨.inl hlist.1, hnomem, ht, .of_full hlist.1⟩
  | some hashList =>
      have hroom : answers.full 2 = false := hcalls ▸ hlist.1
      have hfresh : hashList ∉ insert sfsBuffer (insert fs heap) := hheap ▸ hlist.2.1
      have hheap₁ : k₁.heap = insert hashList (insert sfsBuffer (insert fs heap)) :=
        hheap ▸ hlist.2.2
      rw [hcalls] at hcalls₁
      change Ends _ (bitmapCreate answers (sfsFreemapBits super) >>= _) k₁ _
      rw [ends_bind]
      cases Classical.em dev.super.NoBits with
      | inl hbits =>
          -- the assertion of `bitmap_create`
          have hnot : ¬(sfsFreemapBits super ≠ 0 ∧
              sfsFreemapBits super + WORD_BITS > sfsFreemapBits super) := by
            rw [hbitsEq, (Super.NoBits.iff _).mp hbits]
            exact fun h => h.1 rfl
          rw [bitmapCreate, ends_bind, check, if_neg hnot]
          exact ⟨hroom, .inl hbits⟩
      | inr hbits =>
          have hne : sfsFreemapBits super ≠ 0 := by
            rw [hbitsEq]
            exact fun hzero => hbits ((Super.NoBits.iff _).mpr hzero)
          apply (bitmapCreate_spec hne (sfsFreemapBits_lt super)).lift
          intro freemap k₂ hcreate
          obtain ⟨hreads₂, hcreate⟩ := hcreate
          rw [hcalls₁] at hcreate
          cases freemap with
          | none =>
              change Ends _ (failedCleanupHashList hashList sfsBuffer fs >>= _) k₂ _
              rw [ends_bind]
              apply (failedCleanupHashList_spec hfs hbuffer hfresh (hcreate.2.trans hheap₁)).lift
              intro _ t ht
              rcases hcreate.1 with hfull | hfull
              · exact ⟨.inr ⟨hbits, fun hwrong => absurd hwrong.bitmap (by simp [hfull])⟩, hnomem,
                  ht, .of_full hfull⟩
              · exact ⟨.inr ⟨hbits, fun hwrong => absurd hwrong.map (by simp [hfull])⟩, hnomem,
                  ht, .of_full hfull⟩
          | some freemap =>
              obtain ⟨hroom₃, hroom₄, hself, hmap, hheap₂, hnbits, hnwords⟩ := hcreate
              rw [hheap₁] at hself hmap hheap₂
              have hbits' : ¬super.NoBits := by
                rw [Super.NoBits.iff, hbitsEq, ← Super.NoBits.iff]
                exact hbits
              have hreadsEq : k₂.reads = 1 := hreads₂.trans (hreads₁.trans hreads)
              change Ends _ (sfsInitFreemap answers dev freemap _ _ >>= _) k₂ _
              rw [ends_bind]
              apply (mountFreemap_ends hbits' hnbits hnwords).lift
              intro read k₃ hread
              obtain ⟨hheap₃, hread⟩ := hread
              rw [hreadsEq] at hread
              cases read with
              | error ret =>
                  obtain ⟨hneg, i, hi, hio⟩ := hread
                  change Ends _ (failedCleanupFreemap freemap hashList sfsBuffer fs >>= _) k₃ _
                  rw [ends_bind]
                  apply (failedCleanupFreemap_spec hfs hbuffer hfresh hself hmap
                    (hheap₃.trans hheap₂)).lift
                  intro _ t ht
                  refine ⟨.inr ⟨hbits, fun hwrong => hio ?_⟩, hneg, ht, .of_io hio⟩
                  rw [Nat.add_comm]
                  exact hwrong.reads i (hblocksEq ▸ hi)
              | ok map =>
                  obtain ⟨hio, hmapBits⟩ := hread
                  change Ends _ (countUnused { freemap with map } _ >>= _) k₃ _
                  rw [ends_bind]
                  apply (countUnused_spec (hnbits ▸ le_rfl)).lift
                  intro unused t ht
                  obtain ⟨rfl, hcount⟩ := ht
                  have hcard : {i ∈ Finset.range (sfsFreemapBits super) | bitOf map i}.card =
                      (diskBits dev.disk (sfsFreemapBits super)).card := by
                    rw [← hmapBits, Bitmap.bits, hnbits]
                  have hcardLt : (diskBits dev.disk (sfsFreemapBits super)).card < 2 ^ 32 := by
                    have hle := Finset.card_filter_le (Finset.range (sfsFreemapBits super))
                      fun i => diskBit dev.disk i = true
                    rw [Finset.card_range] at hle
                    exact lt_of_le_of_lt hle (sfsFreemapBits_lt super)
                  have hunusedNat : unused.toNat =
                      (diskBits dev.disk (sfsFreemapBits super)).card := by
                    rw [hcount, hcard, BitVec.toNat_ofNat, Nat.mod_eq_of_lt hcardLt]
                  rw [ends_bind]
                  apply Ends.check_or
                  · -- the assertion on the count of unused blocks
                    by_cases heq : unused = super.unusedBlocks
                    · exact .inl heq
                    · refine .inr ⟨hroom,
                        .inr ⟨hroom₃, hroom₄, fun n hn => ?_, fun hcard => heq ?_⟩⟩
                      · rw [Nat.add_comm]
                        exact hio n (hblocksEq ▸ hn)
                      · rw [← BitVec.toNat_inj, hunusedNat, hbitsEq, hcard, hunused]
                  · intro heq
                    refine ⟨.inr ⟨hbits, fun hwrong => hwrong.count ?_⟩, ?_⟩
                    · rw [← hbitsEq, ← hunusedNat, heq, hunused]
                    · have hcount : (diskBits dev.disk (sfsFreemapBits super)).card =
                          super.unusedBlocks.toNat := by rw [← hunusedNat, heq]
                      exact {
                        super := hsuper
                        clean := rfl
                        nbits := hnbits.trans hbitsEq
                        full := by
                          show freemap.nbits = freemap.nwords * 32
                          rw [hnwords, hnbits, (sfsFreemapBits_eq hbits').1]
                          unfold SFS_BLKBITS SFS_BLKSIZE
                          omega
                        bits := hmapBits.trans (by rw [hbitsEq])
                        count := (congrArg Finset.card hmapBits).trans hcount }

/-- A mount stops exactly at the two assertions. -/
theorem sfsDoMount_ends (answers : Answers) (dev : Device) (heap : Finset Addr) :
    Ends (fun _ => MountFatal answers dev) (sfsDoMount answers dev) ⟨heap, 0, 0⟩ fun r t =>
      ¬MountFatal answers dev ∧
      match r with
      | .ok sfs => Mounted dev sfs
      | .error ret => ret < 0 ∧ t.heap = heap ∧ Refused answers dev := by
  have hnomem : -E_NO_MEM < 0 := by decide
  have hinval : -E_INVAL < 0 := by decide
  rw [sfsDoMount]
  split
  case isTrue hblocksize =>
    exact ⟨fun h => hblocksize h.blocksize, by decide, rfl, .inl hblocksize⟩
  case isFalse hblocksize =>
    rw [ends_bind]
    apply kmalloc_spec.lift
    intro fs k₁ hfs
    obtain ⟨hreads₁, hcalls₁, hfs⟩ := hfs
    cases fs with
    | none => exact ⟨fun h => absurd h.fs (by simp [hfs.1]), hnomem, hfs.2, .of_full hfs.1⟩
    | some fs =>
        obtain ⟨hroom₀, hfresh₁, hheap₁⟩ := hfs
        change Ends _ (kmalloc answers >>= _) k₁ _
        rw [ends_bind]
        apply kmalloc_spec.lift
        intro sfsBuffer k₂ hbuffer
        obtain ⟨hreads₂, hcalls₂, hbuffer⟩ := hbuffer
        rw [hcalls₁] at hbuffer hcalls₂
        rw [hheap₁] at hbuffer
        cases sfsBuffer with
        | none =>
            change Ends _ (failedCleanupFs fs >>= _) k₂ _
            rw [ends_bind]
            apply (failedCleanupFs_spec hfresh₁ hbuffer.2).lift
            exact fun _ t ht =>
              ⟨fun h => absurd h.buffer (by simp [hbuffer.1]), hnomem, ht, .of_full hbuffer.1⟩
        | some sfsBuffer =>
            obtain ⟨hroom₁, hfresh₂, hheap₂⟩ := hbuffer
            have hreads : k₂.reads = 0 := hreads₂.trans hreads₁
            change Ends _ (sfsInitRead answers dev SFS_BLKN_SUPER >>= _) k₂ _
            rw [ends_bind]
            apply (sfsInitRead_spec (by decide)).lift
            intro b k₃ hread
            obtain ⟨hk₃, hread⟩ := hread
            rw [hreads] at hread
            have hcalls₃ : k₃.calls = 2 := by rw [hk₃]; exact hcalls₂
            have hreads₃ : k₃.reads = 1 := by rw [hk₃]; exact congrArg (· + 1) hreads
            have hheap₃ : k₃.heap = insert sfsBuffer (insert fs heap) := by rw [hk₃]; exact hheap₂
            -- what every exit from here on does
            have hexit : ∀ ret : Int, ret < 0 → ¬MountFatal answers dev → Refused answers dev →
                Ends (fun _ => MountFatal answers dev)
                  (failedCleanupSfsBuffer sfsBuffer fs >>= fun _ => pure (Except.error ret))
                  k₃ fun (r : Except Int SfsFs) t => ¬MountFatal answers dev ∧
                    match r with
                    | .ok sfs => Mounted dev sfs
                    | .error ret => ret < 0 ∧ t.heap = heap ∧ Refused answers dev := by
              intro ret hneg hsafe hrefused
              rw [ends_bind]
              apply (failedCleanupSfsBuffer_spec hfresh₁ hfresh₂ hheap₃).lift
              exact fun _ t ht => ⟨hsafe, hneg, ht, hrefused⟩
            cases b with
            | error ret =>
                have hneg := answers.io_nonpos 0
                have hne : answers.io 0 ≠ 0 := fun hio => hread.2 (hread.1.trans hio)
                exact hexit ret (by omega) (fun h => hne h.superRead) (.of_io hne)
            | ok b =>
                obtain ⟨hio, rfl⟩ := hread
                change Ends _ (if dev.super.magic ≠ SFS_MAGIC then _ else _) _ _
                split
                case isTrue hmagic =>
                  exact hexit _ hinval (fun h => hmagic h.magic) (.inr (.inl hmagic))
                case isFalse hmagic =>
                  change Ends _ (if dev.super.blocks.toNat > dev.dBlocks then _ else _) _ _
                  split
                  case isTrue hbig =>
                    exact hexit _ hinval (fun h => absurd h.fits (by omega))
                      (.inr (.inr (.inl hbig)))
                  case isFalse hfits =>
                    -- the superblock is accepted, and the rest is about the freemap
                    apply (loadFreemap_ends rfl hcalls₃ hreads₃ hfresh₁ hfresh₂ hheap₃).mono
                    · intro _ hwrong
                      exact ⟨Decidable.not_not.mp hblocksize, hroom₀, hroom₁, hio,
                        Decidable.not_not.mp hmagic, Nat.le_of_not_lt hfits, hwrong.1, hwrong.2⟩
                    · intro r t ht
                      refine ⟨fun h => ?_, ht.2⟩
                      rcases ht.1 with hfull | ⟨hbits, hcount⟩
                      · exact absurd h.hashList (by simp [hfull])
                      · exact h.wrong.elim hbits hcount

theorem MountFatal.not_mountSafe (hfatal : MountFatal answers dev) :
    ¬MountSafe answers dev heap := by
  intro hsafe
  have hends := sfsDoMount_ends answers dev heap
  obtain ⟨r, t, hrun, -⟩ := hsafe.ok
  replace hends := hends.post hrun
  exact hends.1 hfatal

/-- Nothing fails, and the freemap has as many set bits as the superblock says. -/
theorem sfsDoMount_mounts (hsafe : ¬MountFatal answers dev) (haccepted : ¬Refused answers dev) :
    Ends never (sfsDoMount answers dev) ⟨heap, 0, 0⟩ fun r _ => ∃ sfs, r = .ok sfs ∧
      Mounted dev sfs := by
  apply (sfsDoMount_ends answers dev heap).mono
  · exact fun _ h => hsafe h
  · intro r t ht
    cases r with
    | error ret => exact absurd ht.2.2.2 haccepted
    | ok sfs => exact ⟨sfs, rfl, ht.2⟩

end Steps

/-- Mounting brings the kernel down exactly on a superblock that is taken for good and
has no bits for the freemap or the wrong number of unused blocks. -/
theorem mountSafe_iff (answers : Answers) (dev : Device) (heap : Finset Addr) :
    MountSafe answers dev heap ↔ ¬MountFatal answers dev := by
  constructor
  · exact fun hsafe hfatal => hfatal.not_mountSafe hsafe
  · intro hfatal
    apply (sfsDoMount_ends answers dev heap).mono
    · exact fun _ h => hfatal h
    · intro r t ht
      cases r with
      | error ret => exact ⟨ht.2.1, ht.2.2.1⟩
      | ok sfs => exact ht.2.count

/-- A device of one block, whose superblock counts no blocks. -/
def blankDevice : Device where
  dBlocks := 1
  dBlocksize := SFS_BLKSIZE
  disk _ := (⟨SFS_MAGIC, 0, 0, fun _ => 0⟩ : Super).bytes

/-- A superblock of zero blocks fails the assertion of `bitmap_create`. -/
theorem blankDevice_stops : ¬MountSafe calmAnswers blankDevice ∅ := by
  have hzero : blankDevice.super.blocks = 0 := by decide
  have hmagic : blankDevice.super.magic = SFS_MAGIC := by decide
  exact MountFatal.not_mountSafe ⟨rfl, rfl, rfl, rfl, hmagic, by simp [hzero], rfl,
    .inl (.inl hzero)⟩

end Ucore.Sfs
