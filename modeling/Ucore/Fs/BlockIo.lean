import Ucore.Fs.Disk0

/-!
# The block layer of SFS

`kern/fs/sfs/sfs_io.c` in lab 8, over the disk device. A block number is turned into
the byte offset of an I/O buffer with 32 bits, so that the blocks whose numbers agree
modulo `2 ^ 20` are the same one.
-/

namespace Ucore.BlockIo

open Machine Disk0

def SFS_BLKSIZE : Nat := 4096

/-- What the block layer uses of a `struct sfs_fs`: `super.blocks` and the address
`sfs_buffer`. -/
structure SfsFs where
  superBlocks : BitVec 32
  sfsBuffer : Nat

variable (sfs : SfsFs)

/-- `sfs_rwblock_nolock`. -/
def sfsRwblockNolock (buf blkno : Nat) (write checked : Bool) : DiskM Int := do
  check .assertion ((blkno ≠ 0 ∨ checked = false) ∧ blkno < sfs.superBlocks.toNat)
  modify fun s => { s with iob := iobufInit buf SFS_BLKSIZE (uint32 (blkno * SFS_BLKSIZE)) }
  disk0Io write

/-- The loop of `sfs_rwblock`. -/
def sfsRwblock (write : Bool) : Nat → Nat → Nat → DiskM Int
  | _, _, 0 => return 0
  | buf, blkno, nblks + 1 => do
      let ret ← sfsRwblockNolock sfs buf blkno write true
      if ret ≠ 0 then return ret
      sfsRwblock write (buf + SFS_BLKSIZE) (uint32 (blkno + 1)) nblks

/-- `sfs_rblock`. -/
def sfsRblock (buf blkno nblks : Nat) : DiskM Int := sfsRwblock sfs false buf blkno nblks

/-- `sfs_wblock`. -/
def sfsWblock (buf blkno nblks : Nat) : DiskM Int := sfsRwblock sfs true buf blkno nblks

/-- `memcpy` in the memory of the kernel. -/
def memcpy (dst src len : Nat) : DiskM PUnit :=
  modify fun s => { s with mem := splice dst len (fun i => s.mem (src + i)) s.mem }

/-- `sfs_rbuf`. -/
def sfsRbuf (buf len blkno offset : Nat) : DiskM Int := do
  check .assertion (offset < SFS_BLKSIZE ∧ offset + len ≤ SFS_BLKSIZE)
  let ret ← sfsRwblockNolock sfs sfs.sfsBuffer blkno false true
  if ret = 0 then memcpy buf (sfs.sfsBuffer + offset) len
  return ret

/-- `sfs_wbuf`. -/
def sfsWbuf (buf len blkno offset : Nat) : DiskM Int := do
  check .assertion (offset < SFS_BLKSIZE ∧ offset + len ≤ SFS_BLKSIZE)
  let ret ← sfsRwblockNolock sfs sfs.sfsBuffer blkno false true
  if ret = 0 then
    memcpy (sfs.sfsBuffer + offset) buf len
    sfsRwblockNolock sfs sfs.sfsBuffer blkno true true
  else return ret

/-! ## One block -/

/-- The block that a block number names in the code: the first one with the same byte
offset modulo `2 ^ 32`. -/
def named (blkno : Nat) : Nat := blkno % 2 ^ 20

theorem named_eq {blkno : Nat} (hlt : blkno < 2 ^ 20) : named blkno = blkno := Nat.mod_eq_of_lt hlt

theorem named_le (blkno : Nat) : named blkno ≤ blkno := Nat.mod_le _ _

/-- The bytes that are moved between the memory and the disk, whatever the I/O buffer. -/
structure Moved (write : Bool) (base off len : Nat) (s t : DiskState) : Prop where
  size : t.size = s.size
  image : t.image = if write then splice off len (fun i => s.mem (base + i)) s.image else s.image
  mem : t.mem = if write then s.mem else splice base len (fun i => s.image (off + i)) s.mem

variable {sfs} {s : DiskState}

theorem dBlocks_congr {t : DiskState} (hsize : t.size = s.size) : s.dBlocks = t.dBlocks := by
  rw [DiskState.dBlocks, DiskState.dBlocks, hsize]

/-- Reading and writing a block of a mounted file system succeeds, on the block named. -/
theorem sfsRwblockNolock_spec {buf blkno : Nat} {write : Bool} (hpos : 0 < blkno)
    (hblkno : blkno < sfs.superBlocks.toNat) (hmount : sfs.superBlocks.toNat ≤ s.dBlocks) :
    Ends never (sfsRwblockNolock sfs buf blkno write true) s fun ret t =>
      ret = 0 ∧ Moved write buf (named blkno * SFS_BLKSIZE) SFS_BLKSIZE s t := by
  have hblk : SFS_BLKSIZE = 4096 := rfl
  have hdisk : DISK0_BLKSIZE = 4096 := rfl
  have hmax : MAX_DISK_NSECS * SECTSIZE = 2 ^ 37 := rfl
  have hoff : uint32 (blkno * SFS_BLKSIZE) = named blkno * SFS_BLKSIZE := by
    rw [hblk, uint32, named]
    omega
  have hle := named_le blkno
  rw [sfsRwblockNolock, ends_bind, ends_check ⟨Or.inl (Nat.ne_of_gt hpos), hblkno⟩,
    ends_bind, ends_modify, hoff]
  obtain ⟨u, hu⟩ : ∃ u : DiskState, u =
    { s with iob := iobufInit buf SFS_BLKSIZE (named blkno * SFS_BLKSIZE : Nat) } := ⟨_, rfl⟩
  rw [← hu]
  have hoffset : u.iob.ioOffset = (named blkno * 4096 : Nat) := by rw [hu]; rfl
  have hresid : u.iob.ioResid = 4096 := by rw [hu]; rfl
  have hbase : u.iob.ioBase = buf := by rw [hu]; rfl
  have hblocks : u.dBlocks = s.dBlocks := by rw [hu]; rfl
  refine (@disk0Io_serves u write ?_ ?_ ?_).imp fun ret t hdone => ?_
  · rw [Misaligned, hoffset, hresid, hdisk]
    omega
  · rw [InRange, hoffset, hresid, hblocks, hdisk]
    omega
  · have hlt : named blkno < 2 ^ 20 := Nat.mod_lt _ (by decide)
    rw [hoffset, hresid, hmax]
    omega
  · obtain ⟨hret, hmoved⟩ := hdone
    rw [hoffset, hresid, hbase, Int.toNat_natCast] at hmoved
    subst hu
    exact ⟨hret, hmoved.size, hmoved.image, hmoved.mem⟩

/-! ## A part of a block -/

/-- `n` bytes at `a` and `k` bytes at `b` have none in common. -/
def Apart (a n b k : Nat) : Prop := a + n ≤ b ∨ b + k ≤ a

section

variable {buf len blkno offset : Nat}

/-- The bytes end up in the block named. -/
theorem sfsWbuf_spec (hpos : 0 < blkno) (hblkno : blkno < sfs.superBlocks.toNat)
    (hmount : sfs.superBlocks.toNat ≤ s.dBlocks)
    (hin : offset < SFS_BLKSIZE ∧ offset + len ≤ SFS_BLKSIZE)
    (hapart : Apart buf len sfs.sfsBuffer SFS_BLKSIZE) :
    Ends never (sfsWbuf sfs buf len blkno offset) s fun ret t => ret = 0 ∧ t.size = s.size ∧
      t.image = splice (named blkno * SFS_BLKSIZE + offset) len (fun i =>
        s.mem (buf + i)) s.image := by
  rw [sfsWbuf, ends_bind, ends_check hin, ends_bind]
  refine (sfsRwblockNolock_spec hpos hblkno hmount).imp ?_
  rintro ret t ⟨rfl, ht⟩
  have himage : t.image = s.image := ht.image
  have hmem : t.mem = splice sfs.sfsBuffer SFS_BLKSIZE
    (fun i => s.image (named blkno * SFS_BLKSIZE + i)) s.mem := ht.mem
  have hsame : (fun i => t.mem (buf + i)) =
      fun i => if i < len then s.mem (buf + i) else t.mem (buf + i) := by
    funext i
    split
    · rw [hmem, splice_out]
      unfold Apart at hapart
      omega
    · rfl
  simp only [if_true]
  rw [ends_bind, memcpy, ends_modify]
  refine (sfsRwblockNolock_spec hpos hblkno (dBlocks_congr ht.size ▸ hmount)).imp ?_
  rintro ret u ⟨rfl, hu⟩
  refine ⟨rfl, hu.size.trans ht.size, ?_⟩
  rw [hu.image, if_pos rfl]
  -- the buffer holds the block with the new bytes in it
  have hbuffer : ∀ i < SFS_BLKSIZE,
      splice (sfs.sfsBuffer + offset) len (fun i => t.mem (buf + i)) t.mem (sfs.sfsBuffer + i) =
        splice offset len (fun i => s.mem (buf + i))
          (fun i => s.image (named blkno * SFS_BLKSIZE + i)) i := by
    intro i hi
    by_cases hpart : offset ≤ i ∧ i < offset + len
    · obtain ⟨j, rfl⟩ : ∃ j, i = offset + j := ⟨i - offset, by omega⟩
      rw [← Nat.add_assoc, splice_at (by omega), splice_at (by omega), congrFun hsame j,
        if_pos (by omega)]
    · rw [splice_out (by omega), splice_out (by omega), hmem, splice_at hi]
  rw [splice_congr hbuffer, himage]
  exact splice_part hin.2

theorem sfsRbuf_spec (hpos : 0 < blkno) (hblkno : blkno < sfs.superBlocks.toNat)
    (hmount : sfs.superBlocks.toNat ≤ s.dBlocks)
    (hin : offset < SFS_BLKSIZE ∧ offset + len ≤ SFS_BLKSIZE) :
    Ends never (sfsRbuf sfs buf len blkno offset) s fun ret t => ret = 0 ∧
      ∀ i < len, t.mem (buf + i) = s.image (named blkno * SFS_BLKSIZE + offset + i) := by
  rw [sfsRbuf, ends_bind, ends_check hin, ends_bind]
  refine (sfsRwblockNolock_spec hpos hblkno hmount).imp ?_
  rintro ret t ⟨rfl, ht⟩
  have hmem : t.mem = splice sfs.sfsBuffer SFS_BLKSIZE
    (fun i => s.image (named blkno * SFS_BLKSIZE + i)) s.mem := ht.mem
  simp only [if_true]
  rw [ends_bind, memcpy, ends_modify, ends_pure]
  refine ⟨rfl, fun i hi => ?_⟩
  calc splice buf len (fun i => t.mem (sfs.sfsBuffer + offset + i)) t.mem (buf + i)
      _ = t.mem (sfs.sfsBuffer + (offset + i)) := by rw [splice_at hi, Nat.add_assoc]
      _ = s.image (named blkno * SFS_BLKSIZE + offset + i) := by
        rw [hmem, splice_at (by omega), Nat.add_assoc]

end

/-- A part of a block has been written without an error, reads back from everywhere in memory, and
no byte of the device outside of it has changed. -/
def WbufFaithful (sfs : SfsFs) (s : DiskState) (buf len blkno offset : Nat) : Prop :=
  ∃ t, sfsWbuf sfs buf len blkno offset s = .ok (0, t) ∧
    (∀ dst, ∃ u, sfsRbuf sfs dst len blkno offset t = .ok (0, u) ∧
      ∀ i < len, u.mem (dst + i) = s.mem (buf + i)) ∧
    ∀ k, k < blkno * SFS_BLKSIZE + offset ∨ blkno * SFS_BLKSIZE + offset + len ≤ k →
      t.image k = s.image k

theorem wbufFaithful_iff {buf len blkno offset : Nat} (hpos : 0 < blkno)
    (hblkno : blkno < sfs.superBlocks.toNat) (hmount : sfs.superBlocks.toNat ≤ s.dBlocks)
    (hin : offset < SFS_BLKSIZE ∧ offset + len ≤ SFS_BLKSIZE)
    (hapart : Apart buf len sfs.sfsBuffer SFS_BLKSIZE) :
    WbufFaithful sfs s buf len blkno offset ↔ blkno < 2 ^ 20 ∨
      ∀ i < len, s.mem (buf + i) = s.image (named blkno * SFS_BLKSIZE + offset + i) := by
  have hblk : SFS_BLKSIZE = 4096 := rfl
  obtain ⟨ret, t, hret, rfl, hsize, himage⟩ := (sfsWbuf_spec hpos hblkno hmount hin hapart).ok
  constructor
  · rintro ⟨t', hret', _, hother⟩
    obtain rfl : t = t' := congrArg Prod.snd (Except.ok.inj (hret.symm.trans hret'))
    by_cases hlt : blkno < 2 ^ 20
    · exact Or.inl hlt
    · refine Or.inr fun i hi => ?_
      have hnamed : named blkno < 2 ^ 20 := Nat.mod_lt _ (by decide)
      have hkept := hother (named blkno * SFS_BLKSIZE + offset + i) (by rw [hblk]; omega)
      rwa [himage, splice_at hi] at hkept
  · intro hcond
    refine ⟨t, hret, fun dst => ?_, fun k hk => ?_⟩
    · obtain ⟨ret, u, hread, rfl, hmem⟩ :=
        (@sfsRbuf_spec sfs t dst _ _ _ hpos hblkno (dBlocks_congr hsize ▸ hmount) hin).ok
      refine ⟨u, hread, fun i hi => ?_⟩
      rw [hmem i hi, himage, splice_at hi]
    · rw [himage]
      rcases hcond with hlt | hsame
      · rw [splice_out (by rwa [named_eq hlt])]
      · unfold splice
        split
        · exact (hsame (k - (named blkno * SFS_BLKSIZE + offset)) (by omega)).trans
            (congrArg s.image (by omega))
        · rfl

/-! ## A run of blocks -/

section

variable {buf blkno n : Nat}

/-- Reading a run copies the blocks named, one after the other. -/
theorem sfsRblock_spec (hpos : 0 < blkno) (hrun : blkno + n ≤ sfs.superBlocks.toNat)
    (hmount : sfs.superBlocks.toNat ≤ s.dBlocks) :
    Ends never (sfsRblock sfs buf blkno n) s fun ret t => ret = 0 ∧
      (∀ k, k < buf ∨ buf + n * SFS_BLKSIZE ≤ k → t.mem k = s.mem k) ∧
      ∀ j < n, ∀ i < SFS_BLKSIZE,
        t.mem (buf + (j * SFS_BLKSIZE + i)) = s.image (named (blkno + j) * SFS_BLKSIZE + i) := by
  unfold sfsRblock
  induction n generalizing s buf blkno with
  | zero =>
      rw [sfsRwblock, ends_pure]
      exact ⟨rfl, fun _ _ => rfl, fun j hj => absurd hj (Nat.not_lt_zero j)⟩
  | succ n ih =>
      have hblk : SFS_BLKSIZE = 4096 := rfl
      have hnext : uint32 (blkno + 1) = blkno + 1 := Nat.mod_eq_of_lt (by omega)
      rw [sfsRwblock, ends_bind]
      refine (sfsRwblockNolock_spec hpos (by omega) hmount).imp ?_
      rintro ret t ⟨rfl, ht⟩
      have himage : t.image = s.image := ht.image
      have hmem : t.mem = splice buf SFS_BLKSIZE
        (fun i => s.image (named blkno * SFS_BLKSIZE + i)) s.mem := ht.mem
      simp only [ne_eq, not_true_eq_false, if_false, hnext]
      refine (ih (Nat.succ_pos _) (by omega) (dBlocks_congr ht.size ▸ hmount)).imp ?_
      rintro ret u ⟨rfl, hother, hblocks⟩
      refine ⟨rfl, fun k hk => ?_, fun j hj i hi => ?_⟩
      · rw [hblk] at hk
        rw [hother k (by rw [hblk]; omega), hmem, splice_out (by rw [hblk]; omega)]
      · rw [hblk] at hi
        cases j with
        | zero =>
            rw [Nat.zero_mul, Nat.zero_add, hother _ (by rw [hblk]; omega), hmem,
              splice_at (by rw [hblk]; omega), Nat.add_zero]
        | succ j =>
            have hplace : buf + ((j + 1) * SFS_BLKSIZE + i) = buf + SFS_BLKSIZE +
                (j * SFS_BLKSIZE + i) := by
              rw [hblk]
              omega
            have hnumber : blkno + (j + 1) = blkno + 1 + j := by omega
            rw [hplace, hblocks j (by omega) i hi, himage, hnumber]

/-- Writing a run succeeds and does not touch the memory. -/
theorem sfsWblock_ends (hpos : 0 < blkno) (hrun : blkno + n ≤ sfs.superBlocks.toNat)
    (hmount : sfs.superBlocks.toNat ≤ s.dBlocks) :
    Ends never (sfsWblock sfs buf blkno n) s fun ret t =>
      ret = 0 ∧ t.size = s.size ∧ t.mem = s.mem := by
  unfold sfsWblock
  induction n generalizing s buf blkno with
  | zero =>
      rw [sfsRwblock, ends_pure]
      exact ⟨rfl, rfl, rfl⟩
  | succ n ih =>
      have hnext : uint32 (blkno + 1) = blkno + 1 := Nat.mod_eq_of_lt (by omega)
      rw [sfsRwblock, ends_bind]
      refine (sfsRwblockNolock_spec hpos (by omega) hmount).imp ?_
      rintro ret t ⟨rfl, ht⟩
      simp only [ne_eq, not_true_eq_false, if_false, hnext]
      refine (ih (Nat.succ_pos _) (by omega) (dBlocks_congr ht.size ▸ hmount)).imp ?_
      rintro ret u ⟨rfl, hsize, hmem⟩
      exact ⟨rfl, hsize.trans ht.size, hmem.trans ht.mem⟩

/-- The data for every block of the run is what the block named holds, or gets from its
own part of the data when it belongs to the run itself. -/
def Agrees (mem image : Bytes) (buf blkno n : Nat) : Prop :=
  ∀ j < n, ∀ i < SFS_BLKSIZE, mem (buf + (j * SFS_BLKSIZE + i)) =
    if blkno ≤ named (blkno + j) then mem (buf + ((named (blkno + j) - blkno) * SFS_BLKSIZE + i))
    else image (named (blkno + j) * SFS_BLKSIZE + i)

/-- The disk after the first `j` blocks of the run: the blocks that exist have their data. -/
def written (mem image : Bytes) (buf blkno j : Nat) : Bytes := fun k =>
  if blkno * SFS_BLKSIZE ≤ k ∧ k < (blkno + j) * SFS_BLKSIZE ∧ k < 2 ^ 20 * SFS_BLKSIZE then
    mem (buf + (k - blkno * SFS_BLKSIZE))
  else image k

/-- The block named holds its data before or after it is written with the data of a block
of the run that agrees. -/
theorem written_named {mem image : Bytes} {j m i : Nat} (hagrees : Agrees mem image buf blkno n)
    (hj : j < n) (hm : j ≤ m) (hmore : blkno + j < 2 ^ 20 → j < m) (hi : i < SFS_BLKSIZE) :
    written mem image buf blkno m (named (blkno + j) * SFS_BLKSIZE + i) =
      mem (buf + (j * SFS_BLKSIZE + i)) := by
  have hblk : SFS_BLKSIZE = 4096 := rfl
  have hle := named_le (blkno + j)
  have hlt : named (blkno + j) < 2 ^ 20 := Nat.mod_lt _ (by decide)
  have hsmaller : ¬ blkno + j < 2 ^ 20 → named (blkno + j) < blkno + j := fun hge =>
    Nat.lt_of_lt_of_le hlt (Nat.not_lt.mp hge)
  rw [hagrees j hj i hi, written, hblk]
  rw [hblk] at hi
  by_cases hin : blkno ≤ named (blkno + j)
  · rw [if_pos hin, if_pos]
    · exact congrArg mem (by omega)
    · by_cases hsmall : blkno + j < 2 ^ 20
      · have hjm := hmore hsmall
        omega
      · have hbelow := hsmaller hsmall
        omega
  · rw [if_neg hin, if_neg (by omega)]

theorem written_succ {mem image : Bytes} {j : Nat} (hagrees : Agrees mem image buf blkno n)
    (hj : j < n) :
    splice (named (blkno + j) * SFS_BLKSIZE) SFS_BLKSIZE (fun i => mem (buf + j * SFS_BLKSIZE + i))
      (written mem image buf blkno j) = written mem image buf blkno (j + 1) := by
  have hblk : SFS_BLKSIZE = 4096 := rfl
  funext k
  by_cases hin : named (blkno + j) * SFS_BLKSIZE ≤ k ∧
    k < named (blkno + j) * SFS_BLKSIZE + SFS_BLKSIZE
  · obtain ⟨i, rfl⟩ : ∃ i, k = named (blkno + j) * SFS_BLKSIZE + i :=
      ⟨k - named (blkno + j) * SFS_BLKSIZE, by omega⟩
    rw [splice_at (by omega), written_named hagrees hj (Nat.le_succ j) (fun _ => Nat.lt_succ_self j)
      (by omega), Nat.add_assoc]
  · rw [splice_out (by omega), written, written]
    apply if_congr _ rfl rfl
    -- the bytes that are new in the run are those of a block that is named by itself
    rw [hblk] at hin ⊢
    by_cases hsmall : blkno + j < 2 ^ 20
    · rw [named_eq hsmall] at hin
      omega
    · omega

/-- Writing a run that agrees with itself and with the disk. -/
theorem sfsWblock_spec (hpos : 0 < blkno) (hrun : blkno + n ≤ sfs.superBlocks.toNat)
    (hmount : sfs.superBlocks.toNat ≤ s.dBlocks) (hagrees : Agrees s.mem s.image buf blkno n) :
    Ends never (sfsWblock sfs buf blkno n) s fun ret t =>
      ret = 0 ∧ t.image = written s.mem s.image buf blkno n := by
  have hrest : ∀ m j (t : DiskState), j + m = n → t.size = s.size → t.mem = s.mem →
      t.image = written s.mem s.image buf blkno j →
      Ends never (sfsRwblock sfs true (buf + j * SFS_BLKSIZE) (blkno + j) m) t fun ret u =>
        ret = 0 ∧ u.image = written s.mem s.image buf blkno n := by
    intro m
    induction m with
    | zero =>
        intro j t hj _ _ himage
        rw [sfsRwblock, ends_pure]
        exact ⟨rfl, (show j = n by omega) ▸ himage⟩
    | succ m ih =>
        intro j t hj hsize hmem himage
        have hnext : uint32 (blkno + j + 1) = blkno + (j + 1) := Nat.mod_eq_of_lt (by omega)
        have hbuf : buf + j * SFS_BLKSIZE + SFS_BLKSIZE = buf + (j + 1) * SFS_BLKSIZE := by
          rw [Nat.succ_mul, Nat.add_assoc]
        rw [sfsRwblock, ends_bind]
        refine (sfsRwblockNolock_spec (by omega) (by omega) (dBlocks_congr hsize ▸ hmount)).imp ?_
        rintro ret u ⟨rfl, hu⟩
        simp only [ne_eq, not_true_eq_false, if_false, hnext, hbuf]
        refine ih (j + 1) u (by omega) (hu.size.trans hsize) (hu.mem.trans hmem) ?_
        rw [hu.image, if_pos rfl, hmem, himage]
        exact written_succ hagrees (by omega)
  have hstart : s.image = written s.mem s.image buf blkno 0 := by
    funext k
    rw [written, Nat.add_zero, if_neg (by omega)]
  unfold sfsWblock
  simpa using hrest n 0 s (Nat.zero_add n) rfl rfl hstart

end

/-- A run of `n` blocks has been written without an error, reads back from everywhere in memory, and
no byte of the device outside of it has changed. -/
def WblockFaithful (sfs : SfsFs) (s : DiskState) (buf blkno n : Nat) : Prop :=
  ∃ t, sfsWblock sfs buf blkno n s = .ok (0, t) ∧
    (∀ dst, ∃ u, sfsRblock sfs dst blkno n t = .ok (0, u) ∧
      ∀ k < n * SFS_BLKSIZE, u.mem (dst + k) = s.mem (buf + k)) ∧
    ∀ k, k < blkno * SFS_BLKSIZE ∨ (blkno + n) * SFS_BLKSIZE ≤ k → t.image k = s.image k

theorem wblockFaithful_iff {buf blkno n : Nat} (hpos : 0 < blkno)
    (hrun : blkno + n ≤ sfs.superBlocks.toNat) (hmount : sfs.superBlocks.toNat ≤ s.dBlocks) :
    WblockFaithful sfs s buf blkno n ↔ Agrees s.mem s.image buf blkno n := by
  have hblk : SFS_BLKSIZE = 4096 := rfl
  constructor
  · rintro ⟨t, hret, hback, hother⟩
    obtain ⟨_, hsize, _⟩ := (sfsWblock_ends hpos hrun hmount).post hret
    obtain ⟨u, hread, hmem⟩ := hback 0
    have hblocks := ((sfsRblock_spec hpos hrun (dBlocks_congr hsize ▸ hmount)).post hread).2.2
    -- what is on the disk is what was to be written
    have hdisk : ∀ j < n, ∀ i < SFS_BLKSIZE,
        s.mem (buf + (j * SFS_BLKSIZE + i)) = t.image (named (blkno + j) * SFS_BLKSIZE + i) := by
      intro j hj i hi
      rw [hblk] at hi
      rw [← hblocks j hj i (by rw [hblk]; exact hi)]
      exact (hmem _ (by rw [hblk]; omega)).symm
    intro j hj i hi
    have hle := named_le (blkno + j)
    have hlt : named (blkno + j) < 2 ^ 20 := Nat.mod_lt _ (by decide)
    rw [hdisk j hj i hi]
    split
    · next hin =>
        have hself : blkno + (named (blkno + j) - blkno) = named (blkno + j) := by omega
        rw [hdisk (named (blkno + j) - blkno) (by omega) i hi, hself, named_eq hlt]
    · next hout =>
        rw [hblk] at hi ⊢
        exact hother _ (by rw [hblk]; omega)
  · intro hagrees
    obtain ⟨ret, t, hret, rfl, himage⟩ := (sfsWblock_spec hpos hrun hmount hagrees).ok
    obtain ⟨_, hsize, _⟩ := (sfsWblock_ends hpos hrun hmount).post hret
    refine ⟨t, hret, fun dst => ?_, fun k hk => ?_⟩
    · obtain ⟨ret, u, hread, rfl, _, hblocks⟩ :=
        (@sfsRblock_spec sfs t dst _ _ hpos hrun (dBlocks_congr hsize ▸ hmount)).ok
      refine ⟨u, hread, fun k hk => ?_⟩
      rw [hblk] at hk
      have hk' : k = k / 4096 * SFS_BLKSIZE + k % 4096 := by
        rw [hblk]
        omega
      rw [hk', hblocks (k / 4096) (by omega) (k % 4096) (by rw [hblk]; omega), himage]
      exact written_named hagrees (by omega) (by omega) (fun _ => by omega) (by rw [hblk]; omega)
    · rw [himage, written, if_neg (by omega)]

/-- The block layer of a mounted file system is an array of blocks on the first `2 ^ 20`
blocks of a device. Behind them a write lands in the block whose number agrees modulo
`2 ^ 20`, and is noticed exactly when the bytes there are not the same already. -/
theorem blockLayer_faithful {sfs : SfsFs} {s : DiskState}
    (hmount : sfs.superBlocks.toNat ≤ s.dBlocks) :
    (∀ buf len blkno offset, 0 < blkno → blkno < sfs.superBlocks.toNat → offset < SFS_BLKSIZE →
      offset + len ≤ SFS_BLKSIZE → Apart buf len sfs.sfsBuffer SFS_BLKSIZE →
      (WbufFaithful sfs s buf len blkno offset ↔ blkno < 2 ^ 20 ∨
        ∀ i < len, s.mem (buf + i) = s.image (named blkno * SFS_BLKSIZE + offset + i))) ∧
    (∀ buf blkno n, 0 < blkno → blkno + n ≤ sfs.superBlocks.toNat →
      (WblockFaithful sfs s buf blkno n ↔ Agrees s.mem s.image buf blkno n)) :=
  ⟨fun _ _ _ _ hpos hblkno hoffset hlen hapart =>
      wbufFaithful_iff hpos hblkno hmount ⟨hoffset, hlen⟩ hapart,
    fun _ _ _ hpos hrun => wblockFaithful_iff hpos hrun hmount⟩

/-- A run below the block `2 ^ 20` always agrees. -/
theorem agrees_of_le {mem image : Bytes} {buf blkno n : Nat} (hend : blkno + n ≤ 2 ^ 20) :
    Agrees mem image buf blkno n := by
  intro j hj i _
  rw [named_eq (by omega), if_pos (by omega), Nat.add_sub_cancel_left]

/-- A file system of two blocks on the disk of two blocks. -/
theorem blockLayer_faithful_small :
    WbufFaithful ⟨2, 8192⟩ (smallDisk (iobufInit 0 0 0)) 100 10 1 20 ∧
      WblockFaithful ⟨2, 8192⟩ (smallDisk (iobufInit 0 0 0)) 100 1 1 := by
  have hboth := @blockLayer_faithful ⟨2, 8192⟩ (smallDisk (iobufInit 0 0 0)) (by decide)
  exact ⟨(hboth.1 100 10 1 20 (by decide) (by decide) (by decide) (by decide)
    (Or.inl (by decide))).mpr
      (Or.inl (by decide)),
    (hboth.2 100 1 1 (by decide) (by decide)).mpr (agrees_of_le (by decide))⟩

/-- A disk of `2 ^ 20 + 1` blocks, all of it zero, and a memory of sevens. -/
def largeDisk : DiskState :=
  ⟨8388616, fun _ => 0, fun _ => 0, fun _ => 7, iobufInit 0 0 0⟩

/-- One byte is written to the last block of a file system that covers this disk: the
first byte of the superblock changes. -/
theorem blockLayer_superblock :
    let sfs : SfsFs := ⟨1048577, 8192⟩
    sfs.superBlocks.toNat ≤ largeDisk.dBlocks ∧ 2 ^ 20 < sfs.superBlocks.toNat ∧
      (∃ t, sfsWbuf sfs 100 1 (2 ^ 20) 0 largeDisk = .ok (0, t) ∧ largeDisk.image 0 = 0 ∧
        t.image 0 = 7) ∧
      ¬ WbufFaithful sfs largeDisk 100 1 (2 ^ 20) 0 := by
  intro sfs
  have hmount : sfs.superBlocks.toNat ≤ largeDisk.dBlocks := by decide
  have hblkno : 2 ^ 20 < sfs.superBlocks.toNat := by decide
  have hapart : Apart 100 1 sfs.sfsBuffer SFS_BLKSIZE := Or.inl (by decide)
  obtain ⟨ret, t, hret, rfl, _, himage⟩ :=
    (@sfsWbuf_spec sfs largeDisk 100 1 _ 0 (by decide) hblkno hmount (by decide) hapart).ok
  refine ⟨hmount, hblkno, ⟨t, hret, rfl, ?_⟩, ?_⟩
  · rw [himage]
    rfl
  · rw [wbufFaithful_iff (by decide) hblkno hmount (by decide) hapart]
    rintro (hlt | hsame)
    · exact absurd hlt (by decide)
    · exact absurd (hsame 0 (by decide)) (by decide)

end Ucore.BlockIo
