import Mathlib.Algebra.Group.Nat.Defs
import Mathlib.Algebra.Group.Int.Defs
import Ucore.Foundation.Machine
import Ucore.Foundation.Words

/-!
# The disk device

`disk0_io` of `kern/fs/devs/dev_disk0.c` in lab 8, with `kern/fs/iobuf.c` and the
drivers below it, `kern/driver/ide.c` and `kern/driver/ramdisk.c`. Addresses of
the caller's memory are numbers, and so are the offsets of an I/O buffer; what the
code converts to `uint32_t` is taken modulo `2 ^ 32`.
-/

namespace Ucore.Disk0

open Machine

def E_INVAL : Int := 3

def E_NO_MEM : Int := 4

def SECTSIZE : Nat := 512

def MAX_NSECS : Nat := 128

def MAX_DISK_NSECS : Nat := 0x10000000

def DISK0_BLKSIZE : Nat := 4096

def DISK0_BUFSIZE : Nat := 4 * DISK0_BLKSIZE

def DISK0_BLK_NSECT : Nat := DISK0_BLKSIZE / SECTSIZE

/-- `struct iobuf`. -/
structure Iobuf where
  ioBase : Nat
  ioOffset : Int
  ioLen : Nat
  ioResid : Nat
  deriving DecidableEq, Repr

/-- The number of sectors of the disk, the memory from its first byte on, the
buffer `disk0_buffer`, the memory of the caller and its I/O buffer. -/
structure DiskState where
  size : BitVec 32
  image : Bytes
  disk0Buffer : Bytes
  mem : Bytes
  iob : Iobuf

/-- `dev->d_blocks`, as `disk0_device_init` sets it. -/
def DiskState.dBlocks (s : DiskState) : Nat := s.size.toNat / DISK0_BLK_NSECT

/-- Why a call does not return. -/
inductive DiskStop
  | assertion
  | panic
  | endless
  deriving DecidableEq, Repr

abbrev DiskM := Machine DiskStop DiskState

/-- The size in sectors that `ramdisk_init` gives an image of `length` bytes. -/
def ramdiskSize (length : Nat) : BitVec 32 := BitVec.ofNat 32 length / BitVec.ofNat 32 SECTSIZE

/-- The value of an expression stored in a `uint32_t`. -/
def uint32 (n : Nat) : Nat := n % 2 ^ 32

/-- `iobuf_init`. -/
def iobufInit (base len : Nat) (offset : Int) : Iobuf := ⟨base, offset, len, len⟩

/-- `iobuf_skip`. -/
def iobufSkip (n : Nat) : DiskM PUnit := do
  check .assertion (n ≤ (← get).iob.ioResid)
  modify fun s => { s with iob :=
    { s.iob with ioBase := s.iob.ioBase + n, ioOffset := s.iob.ioOffset + n
                 ioResid := s.iob.ioResid - n } }

/-- `iobuf_move` between the memory of the caller and `disk0_buffer`, to the memory
for `m2b`. Returns the error code and what is stored in `*copiedp`. -/
def iobufMove (len : Nat) (m2b : Bool) : DiskM (Int × Nat) := do
  let s ← get
  let alen := if len < s.iob.ioResid then len else s.iob.ioResid
  if 0 < alen then
    if m2b then
      modify fun s => { s with mem := splice s.iob.ioBase alen s.disk0Buffer s.mem }
    else
      modify fun s => { s with
        disk0Buffer := splice 0 alen (fun i => s.mem (s.iob.ioBase + i)) s.disk0Buffer }
    iobufSkip alen
  return (if len - alen = 0 then 0 else -E_NO_MEM, alen)

/-- `ramdisk_read` and `ramdisk_write`. The number of sectors behind `secno` is a
`size_t`, so that no number of sectors is negative. -/
def ramdiskRw (write : Bool) (secno nsecs : Nat) : DiskM Int := do
  let s ← get
  let nsecs := min nsecs ((s.size.toNat + (2 ^ 64 - secno)) % 2 ^ 64)
  if write then
    modify fun s => { s with
      image := splice (secno * SECTSIZE) (nsecs * SECTSIZE) s.disk0Buffer s.image }
  else
    modify fun s => { s with
      disk0Buffer :=
        splice 0 (nsecs * SECTSIZE) (fun i => s.image (secno * SECTSIZE + i)) s.disk0Buffer }
  return 0

/-- `ide_read_secs` and `ide_write_secs`, on a disk that is valid. -/
def ideRwSecs (write : Bool) (secno nsecs : Nat) : DiskM Int := do
  check .assertion (nsecs ≤ MAX_NSECS)
  check .assertion (secno < MAX_DISK_NSECS ∧ secno + nsecs ≤ MAX_DISK_NSECS)
  ramdiskRw write secno nsecs

/-- The common body of `disk0_read_blks_nolock` and `disk0_write_blks_nolock`. -/
def disk0RwBlks (write : Bool) (blkno nblks : Nat) : DiskM PUnit := do
  let sectno := uint32 (blkno * DISK0_BLK_NSECT)
  let nsecs := uint32 (nblks * DISK0_BLK_NSECT)
  if (← ideRwSecs write sectno nsecs) ≠ 0 then throw .panic

/-- `disk0_read_blks_nolock`. -/
def disk0ReadBlks (blkno nblks : Nat) : DiskM PUnit := disk0RwBlks false blkno nblks

/-- `disk0_write_blks_nolock`. -/
def disk0WriteBlks (blkno nblks : Nat) : DiskM PUnit := disk0RwBlks true blkno nblks

/-- The loop of `disk0_io`, for at most `fuel` rounds. -/
def disk0Loop (write : Bool) : Nat → Nat → Nat → DiskM Int
  | 0, _, _ => throw .endless
  | fuel + 1, resid, blkno =>
      if resid = 0 then return 0
      else if write then do
        let (_, copied) ← iobufMove DISK0_BUFSIZE false
        check .assertion (copied ≠ 0 ∧ copied ≤ resid ∧ copied % DISK0_BLKSIZE = 0)
        let nblks := uint32 (copied / DISK0_BLKSIZE)
        disk0WriteBlks blkno nblks
        disk0Loop write fuel (resid - copied) (uint32 (blkno + nblks))
      else do
        let alen := if resid < DISK0_BUFSIZE then resid else DISK0_BUFSIZE
        let nblks := uint32 (alen / DISK0_BLKSIZE)
        disk0ReadBlks blkno nblks
        let (_, copied) ← iobufMove alen true
        check .assertion (copied = alen ∧ copied % DISK0_BLKSIZE = 0)
        disk0Loop write fuel (resid - copied) (uint32 (blkno + nblks))

/-- `disk0_io`. The offset is signed, and its quotient is rounded towards zero before
it is converted. -/
def disk0Io (write : Bool) : DiskM Int := do
  let s ← get
  let offset := s.iob.ioOffset
  let resid := s.iob.ioResid
  let blkno := ((offset.tdiv DISK0_BLKSIZE) % 2 ^ 32).toNat
  let nblks := uint32 (resid / DISK0_BLKSIZE)
  if offset.tmod DISK0_BLKSIZE ≠ 0 ∨ resid % DISK0_BLKSIZE ≠ 0 then return -E_INVAL
  if s.dBlocks < uint32 (blkno + nblks) then return -E_INVAL
  if nblks = 0 then return 0
  disk0Loop write (resid + 1) resid blkno

/-! ## One transfer -/

/-- Between the memory at `base` and the disk at `off`, `len` bytes have been moved,
and the I/O buffer has advanced by as many. Nothing else has changed. -/
structure Transferred (write : Bool) (base off len : Nat) (s t : DiskState) : Prop where
  size : t.size = s.size
  image : t.image = if write then splice off len (fun i => s.mem (base + i)) s.image else s.image
  mem : t.mem = if write then s.mem else splice base len (fun i => s.image (off + i)) s.mem
  iob : t.iob = ⟨base + len, s.iob.ioOffset + len, s.iob.ioLen, s.iob.ioResid - len⟩

theorem Transferred.trans {write : Bool} {base off n k : Nat} {s t u : DiskState}
    (hst : Transferred write base off n s t) (htu : Transferred write (base + n) (off + n) k t u) :
    Transferred write base off (n + k) s u := by
  refine ⟨htu.size.trans hst.size, ?_, ?_, ?_⟩
  · rw [htu.image, hst.image, hst.mem]
    cases write with
    | false => rfl
    | true =>
        simp only [if_true, Nat.add_assoc]
        exact splice_append off n k (fun i => s.mem (base + i)) s.image
  · rw [htu.mem, hst.image, hst.mem]
    cases write with
    | true => rfl
    | false =>
        simp only [Bool.false_eq_true, if_false, Nat.add_assoc]
        exact splice_append base n k (fun i => s.image (off + i)) s.mem
  · rw [htu.iob, hst.iob]
    simp only [Iobuf.mk.injEq, true_and]
    omega

theorem Transferred.zero {write : Bool} {base off : Nat} {s : DiskState}
    (hbase : s.iob.ioBase = base) :
    Transferred write base off 0 s s := by
  refine ⟨rfl, by simp, by simp, ?_⟩
  subst hbase
  simp

/-! ## The operations of one round -/

variable {s : DiskState}

/-- As many bytes are moved as are asked for and the I/O buffer has left. -/
theorem iobufMove_spec {len n : Nat} (m2b : Bool) (hn : min len s.iob.ioResid = n) (hpos : 0 < n) :
    Ends never (iobufMove len m2b) s fun r t =>
      r.2 = n ∧ t = { s with
        mem := if m2b then splice s.iob.ioBase n s.disk0Buffer s.mem else s.mem
        disk0Buffer := if m2b then s.disk0Buffer
          else splice 0 n (fun i => s.mem (s.iob.ioBase + i)) s.disk0Buffer
        iob := ⟨s.iob.ioBase + n, s.iob.ioOffset + n, s.iob.ioLen, s.iob.ioResid - n⟩ } := by
  have hmin : (if len < s.iob.ioResid then len else s.iob.ioResid) = n := by
    split <;> omega
  have hle : n ≤ s.iob.ioResid := by omega
  rw [iobufMove, ends_bind, ends_get]
  simp only [hmin, if_pos hpos]
  cases m2b with
  | true =>
      simp only [if_true]
      rw [ends_bind, ends_modify, ends_bind, iobufSkip, ends_bind, ends_get, ends_bind]
      rw [ends_check hle, ends_modify, ends_pure]
      exact ⟨rfl, rfl⟩
  | false =>
      simp only [Bool.false_eq_true, if_false]
      rw [ends_bind, ends_modify, ends_bind, iobufSkip, ends_bind, ends_get, ends_bind]
      rw [ends_check hle, ends_modify, ends_pure]
      exact ⟨rfl, rfl⟩

/-- Some blocks of the disk, read into or written from the buffer of the device. -/
theorem disk0RwBlks_spec {write : Bool} {blkno nblks : Nat} (hfew : nblks ≤ 4)
    (hpos : 0 < nblks) (hlimit : blkno + nblks ≤ MAX_DISK_NSECS / DISK0_BLK_NSECT)
    (hend : blkno + nblks ≤ s.dBlocks) :
    Ends never (disk0RwBlks write blkno nblks) s fun _ t =>
      t = { s with
        image := if write then
            splice (blkno * DISK0_BLKSIZE) (nblks * DISK0_BLKSIZE) s.disk0Buffer s.image
          else s.image
        disk0Buffer := if write then s.disk0Buffer
          else splice 0 (nblks * DISK0_BLKSIZE) (fun i => s.image (blkno * DISK0_BLKSIZE + i))
            s.disk0Buffer } := by
  have hsect : DISK0_BLK_NSECT = 8 := rfl
  have hmax : MAX_DISK_NSECS = 2 ^ 28 := rfl
  have hsectsize : SECTSIZE = 512 := rfl
  have hblk : DISK0_BLKSIZE = 4096 := rfl
  have hsize : s.size.toNat < 2 ^ 32 := s.size.isLt
  rw [hsect, hmax] at hlimit
  rw [DiskState.dBlocks, hsect] at hend
  have hsectno : uint32 (blkno * DISK0_BLK_NSECT) = blkno * 8 := by
    rw [hsect, uint32]
    omega
  have hnsecs : uint32 (nblks * DISK0_BLK_NSECT) = nblks * 8 := by
    rw [hsect, uint32]
    omega
  have hall : min (nblks * 8) ((s.size.toNat + (2 ^ 64 - blkno * 8)) % 2 ^ 64) = nblks * 8 := by
    omega
  have hbytes : ∀ n, n * 8 * SECTSIZE = n * DISK0_BLKSIZE := by
    intro n
    rw [hsectsize, hblk]
    omega
  rw [disk0RwBlks]
  simp only [hsectno, hnsecs]
  rw [ends_bind, ideRwSecs, ends_bind]
  rw [ends_check (by rw [MAX_NSECS]; omega), ends_bind, ends_check (by rw [hmax]; omega), ramdiskRw,
    ends_bind, ends_get]
  simp only [hall, hbytes]
  cases write with
  | false => simp
  | true => simp

/-! ## The loop -/

/-- One round of a write moves `n` bytes to the disk. -/
theorem transferred_write {t u : DiskState} {off n : Nat}
    (ht : t = { s with
      mem := s.mem
      disk0Buffer := splice 0 n (fun i => s.mem (s.iob.ioBase + i)) s.disk0Buffer
      iob := ⟨s.iob.ioBase + n, s.iob.ioOffset + n, s.iob.ioLen, s.iob.ioResid - n⟩ })
    (hu : u = { t with image := splice off n t.disk0Buffer t.image }) :
    Transferred true s.iob.ioBase off n s u := by
  subst ht hu
  refine ⟨rfl, ?_, rfl, rfl⟩
  rw [if_pos rfl]
  exact splice_congr fun i hi =>
    @splice_front n i (fun i => s.mem (s.iob.ioBase + i)) s.disk0Buffer hi

/-- One round of a read moves `n` bytes from the disk. -/
theorem transferred_read {t u : DiskState} {off n : Nat}
    (ht : t = { s with disk0Buffer := splice 0 n (fun i => s.image (off + i)) s.disk0Buffer })
    (hu : u = { t with
      mem := splice t.iob.ioBase n t.disk0Buffer t.mem
      iob := ⟨t.iob.ioBase + n, t.iob.ioOffset + n, t.iob.ioLen, t.iob.ioResid - n⟩ }) :
    Transferred false s.iob.ioBase off n s u := by
  subst ht hu
  refine ⟨rfl, rfl, ?_, rfl⟩
  rw [if_neg Bool.false_ne_true]
  exact splice_congr fun i hi => @splice_front n i (fun i => s.image (off + i)) s.disk0Buffer hi

/-- Within the disk the loop moves all that is left, and none of its assertions fails. -/
theorem disk0Loop_spec {write : Bool} {fuel resid blkno : Nat} (hresid : s.iob.ioResid = resid)
    (haligned : resid % DISK0_BLKSIZE = 0) (hend : blkno + resid / DISK0_BLKSIZE ≤ s.dBlocks)
    (hlimit : blkno + resid / DISK0_BLKSIZE ≤ MAX_DISK_NSECS / DISK0_BLK_NSECT)
    (hfuel : resid < fuel) :
    Ends never (disk0Loop write fuel resid blkno) s fun ret t =>
      ret = 0 ∧ Transferred write s.iob.ioBase (blkno * DISK0_BLKSIZE) resid s t := by
  have hblk : DISK0_BLKSIZE = 4096 := rfl
  have hbuf : DISK0_BUFSIZE = 16384 := rfl
  have hmax : MAX_DISK_NSECS / DISK0_BLK_NSECT = 2 ^ 25 := rfl
  induction fuel generalizing s resid blkno with
  | zero => exact absurd hfuel (Nat.not_lt_zero _)
  | succ fuel ih =>
      rw [disk0Loop]
      by_cases hzero : resid = 0
      · rw [if_pos hzero, ends_pure]
        exact ⟨rfl, hzero ▸ Transferred.zero rfl⟩
      rw [if_neg hzero]
      obtain ⟨k, hk⟩ : ∃ k, min DISK0_BUFSIZE resid = k * DISK0_BLKSIZE :=
        ⟨min DISK0_BUFSIZE resid / DISK0_BLKSIZE, by rw [hblk, hbuf] at *; omega⟩
      rw [hblk] at hk haligned hend hlimit ⊢
      rw [hbuf] at hk ⊢
      rw [hmax] at hlimit
      have hdiv : k * 4096 / 4096 = k := Nat.mul_div_cancel k (by decide)
      have hpos : 0 < k * 4096 := by omega
      have hnblks : uint32 k = k := Nat.mod_eq_of_lt (by omega)
      have hnext : uint32 (blkno + k) = blkno + k := Nat.mod_eq_of_lt (by omega)
      have hsmall : blkno + k ≤ MAX_DISK_NSECS / DISK0_BLK_NSECT := by omega
      have hin : blkno + k ≤ s.dBlocks := by omega
      -- what the remaining rounds do, once this round has moved its blocks
      have hrest : ∀ u, Transferred write s.iob.ioBase (blkno * 4096) (k * 4096) s u →
          Ends never (disk0Loop write fuel (resid - k * 4096) (uint32 (blkno + k))) u fun ret t =>
            ret = 0 ∧ Transferred write s.iob.ioBase (blkno * 4096) resid s t := by
        intro u hu
        have hsize : u.dBlocks = s.dBlocks := by rw [DiskState.dBlocks, hu.size, DiskState.dBlocks]
        have hbase : u.iob.ioBase = s.iob.ioBase + k * 4096 := by rw [hu.iob]
        have hleft : u.iob.ioResid = resid - k * 4096 := by rw [hu.iob, hresid]
        rw [hnext]
        refine (ih hleft (by rw [hblk]; omega) (by rw [hblk, hsize]; omega)
          (by rw [hblk, hmax]; omega) (by omega)).imp fun ret t hdone => ?_
        refine ⟨hdone.1, ?_⟩
        have hoff : (blkno + k) * DISK0_BLKSIZE = blkno * 4096 + k * 4096 :=
          Nat.add_mul blkno k 4096
        have hall := hdone.2
        rw [hbase, hoff] at hall
        have hsum : k * 4096 + (resid - k * 4096) = resid := by omega
        exact hsum ▸ hu.trans hall
      cases write with
      | true =>
          rw [if_pos rfl, ends_bind]
          refine (iobufMove_spec false (n := k * 4096) (by rw [hresid]; exact hk) hpos).imp ?_
          rintro ⟨_, copied⟩ t ⟨rfl, ht⟩
          simp only [Bool.false_eq_true, if_false] at ht
          simp only
          rw [ends_bind, ends_check (by omega), hdiv, hnblks, ends_bind, disk0WriteBlks]
          have hblocks : t.dBlocks = s.dBlocks := by rw [ht, DiskState.dBlocks, DiskState.dBlocks]
          refine (disk0RwBlks_spec (by omega) (by omega) hsmall (hblocks ▸ hin)).imp fun _ u hu =>
            ?_
          exact hrest u (transferred_write ht hu)
      | false =>
          have halen : (if resid < 16384 then resid else 16384) = k * 4096 := by
            split <;> omega
          rw [if_neg (by decide)]
          simp only [halen, hdiv, hnblks]
          rw [ends_bind, disk0ReadBlks]
          refine (disk0RwBlks_spec (by omega) (by omega) hsmall hin).imp fun _ t ht => ?_
          simp only [Bool.false_eq_true, if_false] at ht
          have hleft : t.iob.ioResid = resid := by rw [ht, hresid]
          rw [ends_bind]
          refine (iobufMove_spec true (n := k * 4096) (by omega) hpos).imp ?_
          rintro ⟨_, copied⟩ u ⟨rfl, hu⟩
          simp only [if_true] at hu
          simp only
          rw [ends_bind, ends_check (by omega)]
          exact hrest u (transferred_read ht hu)

/-- A loop that returns has no error to report. -/
theorem disk0Loop_returns (write : Bool) (fuel resid blkno : Nat) :
    Ends (fun _ => True) (disk0Loop write fuel resid blkno) s fun ret _ => ret = 0 := by
  have hany : ∀ {α : Type} (x : DiskM α) (s : DiskState),
      Ends (fun _ => True) x s fun _ _ => True := by
    intro α x s
    exact (Ends.self x s).mono (fun _ _ => trivial) fun _ _ _ => trivial
  induction fuel generalizing s resid blkno with
  | zero => trivial
  | succ fuel ih =>
      rw [disk0Loop]
      split
      · rfl
      split
      · rw [ends_bind]
        refine (hany _ s).imp fun r t _ => ?_
        rw [ends_bind]
        refine (hany _ t).imp fun _ u _ => ?_
        rw [ends_bind]
        exact (hany _ u).imp fun _ v _ => ih _ _
      · rw [ends_bind]
        refine (hany _ s).imp fun _ t _ => ?_
        rw [ends_bind]
        refine (hany _ t).imp fun r u _ => ?_
        rw [ends_bind]
        exact (hany _ u).imp fun _ v _ => ih _ _

/-! ## A request -/

/-- The offset or the length is no multiple of the block size. -/
def Misaligned (s : DiskState) : Prop :=
  s.iob.ioOffset % DISK0_BLKSIZE ≠ 0 ∨ s.iob.ioResid % DISK0_BLKSIZE ≠ 0

/-- The request lies within the blocks of the device. This is in unbounded integers, where the check
of `disk0_io` is in 32-bit block numbers. -/
def InRange (s : DiskState) : Prop :=
  0 ≤ s.iob.ioOffset ∧ s.iob.ioOffset + s.iob.ioResid ≤ (s.dBlocks * DISK0_BLKSIZE : Nat)

/-- A request is either refused, and then nothing has changed, or served in full; it
is refused whenever it is not aligned or reaches outside of the device. -/
def Exact (write : Bool) (s : DiskState) : Prop :=
  ∃ ret t, disk0Io write s = .ok (ret, t) ∧
    ((ret = -E_INVAL ∧ t = s) ∨
      (ret = 0 ∧ ¬ Misaligned s ∧ InRange s ∧
        Transferred write s.iob.ioBase s.iob.ioOffset.toNat s.iob.ioResid s t))

/-- The first check of the code. -/
theorem misaligned_iff :
    (s.iob.ioOffset.tmod DISK0_BLKSIZE ≠ 0 ∨ s.iob.ioResid % DISK0_BLKSIZE ≠ 0) ↔ Misaligned s := by
  simp only [Misaligned, ne_eq, ← Int.dvd_iff_emod_eq_zero, ← Int.dvd_iff_tmod_eq_zero]

/-- The block behind the request, as the code computes it. -/
theorem endBlock_eq (haligned : ¬ Misaligned s) :
    uint32 (((s.iob.ioOffset.tdiv DISK0_BLKSIZE) % 2 ^ 32).toNat +
      uint32 (s.iob.ioResid / DISK0_BLKSIZE)) =
      ((s.iob.ioOffset + s.iob.ioResid) / DISK0_BLKSIZE % 2 ^ 32).toNat := by
  have hblk : DISK0_BLKSIZE = 4096 := rfl
  rw [Misaligned, not_or, not_not, not_not, hblk] at haligned
  obtain ⟨q, hq⟩ : ∃ q, s.iob.ioOffset = 4096 * q := ⟨s.iob.ioOffset / 4096, by omega⟩
  have hdiv : s.iob.ioOffset.tdiv (4096 : Nat) = q := by
    rw [hq]
    exact Int.mul_tdiv_cancel_left q (by decide)
  rw [hblk, hdiv, uint32, uint32]
  omega

/-- An aligned request within a disk of at most `MAX_DISK_NSECS` sectors is served. -/
theorem disk0Io_serves {write : Bool} (haligned : ¬ Misaligned s) (hin : InRange s)
    (hlimit : s.iob.ioOffset + s.iob.ioResid ≤ (MAX_DISK_NSECS * SECTSIZE : Nat)) :
    Ends never (disk0Io write) s fun ret t =>
      ret = 0 ∧ Transferred write s.iob.ioBase s.iob.ioOffset.toNat s.iob.ioResid s t := by
  have hblk : DISK0_BLKSIZE = 4096 := rfl
  have hmax : MAX_DISK_NSECS * SECTSIZE = 2 ^ 37 := rfl
  have hmax' : MAX_DISK_NSECS / DISK0_BLK_NSECT = 2 ^ 25 := rfl
  have hend := endBlock_eq haligned
  have hdevice : s.dBlocks < 2 ^ 32 := Nat.lt_of_le_of_lt (Nat.div_le_self _ _) s.size.isLt
  rw [Misaligned, not_or, not_not, not_not, hblk] at haligned
  rw [InRange, hblk] at hin
  rw [hmax] at hlimit
  rw [hblk] at hend
  obtain ⟨q, hq⟩ : ∃ q : Nat, s.iob.ioOffset = 4096 * q := ⟨(s.iob.ioOffset / 4096).toNat, by omega⟩
  have hdiv : s.iob.ioOffset.tdiv (4096 : Nat) = q := by
    rw [hq]
    exact Int.mul_tdiv_cancel_left _ (by decide)
  have hmod : s.iob.ioOffset.tmod (4096 : Nat) = 0 := by
    rw [hq]
    exact Int.mul_tmod_right _ _
  have hblkno : ((q : Int) % 2 ^ 32).toNat = q := by omega
  rw [disk0Io, ends_bind, ends_get]
  simp only [hblk]
  rw [if_neg (by rw [hmod]; omega), if_neg (by rw [hend]; omega), hdiv, hblkno]
  by_cases hnone : uint32 (s.iob.ioResid / 4096) = 0
  · have hzero : s.iob.ioResid = 0 := by
      rw [uint32] at hnone
      omega
    rw [if_pos hnone, ends_pure]
    exact ⟨rfl, hzero ▸ Transferred.zero rfl⟩
  · rw [if_neg hnone]
    have hoff : q * DISK0_BLKSIZE = s.iob.ioOffset.toNat := by
      rw [hblk]
      omega
    rw [← hoff]
    exact disk0Loop_spec rfl (by rw [hblk]; omega) (by rw [hblk]; omega)
      (by rw [hblk, hmax']; omega)
      (Nat.lt_succ_self _)

/-- A request that passes the checks is not refused. -/
theorem disk0Io_passes {write : Bool} (haligned : ¬ Misaligned s)
    (hpass : (s.iob.ioOffset + s.iob.ioResid) / DISK0_BLKSIZE % 2 ^ 32 ≤ (s.dBlocks : Int)) :
    Ends (fun _ => True) (disk0Io write) s fun ret _ => ret = 0 := by
  have hnonneg : 0 ≤ (s.iob.ioOffset + s.iob.ioResid) / DISK0_BLKSIZE % 2 ^ 32 :=
    Int.emod_nonneg _ (by decide)
  rw [disk0Io, ends_bind, ends_get]
  simp only
  rw [if_neg (misaligned_iff.not.mpr haligned), if_neg (by rw [endBlock_eq haligned]; omega)]
  split
  · rfl
  · exact disk0Loop_returns write _ _ _

theorem disk0Io_refuses {write : Bool} (hbad : Misaligned s ∨
      (s.dBlocks : Int) < (s.iob.ioOffset + s.iob.ioResid) / DISK0_BLKSIZE % 2 ^ 32) :
    disk0Io write s = .ok (-E_INVAL, s) := by
  apply Ends.eq_ok
  rw [disk0Io, ends_bind, ends_get]
  simp only
  by_cases hmis : Misaligned s
  · rw [if_pos (misaligned_iff.mpr hmis)]
    exact ⟨rfl, rfl⟩
  · have hpast := hbad.resolve_left hmis
    rw [if_neg (misaligned_iff.not.mpr hmis), if_pos (by rw [endBlock_eq hmis]; omega)]
    exact ⟨rfl, rfl⟩

/-- On the disk that `ramdisk_init` sets up, requests are refused or served in full,
except for those that reach outside of the device but whose last block is taken for one
of its blocks because its number is computed with 32 bits. -/
theorem disk0Io_exact {write : Bool} {length : Nat} (hsize : s.size = ramdiskSize length) :
    Exact write s ↔ Misaligned s ∨ InRange s ∨
      (s.dBlocks : Int) < (s.iob.ioOffset + s.iob.ioResid) / DISK0_BLKSIZE % 2 ^ 32 := by
  by_cases hbad : Misaligned s ∨
      (s.dBlocks : Int) < (s.iob.ioOffset + s.iob.ioResid) / DISK0_BLKSIZE % 2 ^ 32
  · refine iff_of_true ⟨_, _, disk0Io_refuses hbad, Or.inl ⟨rfl, rfl⟩⟩ ?_
    exact hbad.imp_right Or.inr
  rw [not_or] at hbad
  constructor
  · rintro ⟨ret, t, hret, hrefused | hserved⟩
    · have hzero : ret = 0 := (disk0Io_passes hbad.1 (Int.not_lt.mp hbad.2)).post hret
      rw [hrefused.1] at hzero
      cases hzero
    · exact Or.inr (Or.inl hserved.2.2.1)
  · intro hcond
    have hin : InRange s := (hcond.resolve_left hbad.1).resolve_right hbad.2
    have hlimit : s.iob.ioOffset + s.iob.ioResid ≤ (MAX_DISK_NSECS * SECTSIZE : Nat) := by
      have hsectors : s.size.toNat < 2 ^ 23 := by
        rw [hsize, ramdiskSize, BitVec.toNat_udiv]
        exact Nat.div_lt_of_lt_mul (BitVec.ofNat 32 length).isLt
      have hend := hin.2
      rw [DiskState.dBlocks] at hend
      have hsect : DISK0_BLK_NSECT = 8 := rfl
      have hblk : DISK0_BLKSIZE = 4096 := rfl
      have hmax : MAX_DISK_NSECS * SECTSIZE = 2 ^ 37 := rfl
      rw [hsect, hblk] at hend
      rw [hmax]
      omega
    obtain ⟨ret, t, hret, hzero, hmoved⟩ := (disk0Io_serves hbad.1 hin hlimit).ok
    exact ⟨ret, t, hret, Or.inr ⟨hzero, hbad.1, hin, hmoved⟩⟩

/-- A disk of 16 sectors, whose first block holds ones and its second block twos. -/
def smallDisk (iob : Iobuf) : DiskState :=
  ⟨ramdiskSize 8192, fun i => if i < 4096 then 1 else 2, fun _ => 0, fun _ => 7, iob⟩

/-- The second block is asked for, and a block 2 ^ 32 blocks behind it. -/
theorem disk0Io_exact_small :
    (Exact false (smallDisk (iobufInit 0 4096 4096)) ↔
      Misaligned (smallDisk (iobufInit 0 4096 4096)) ∨ InRange (smallDisk (iobufInit 0 4096 4096)) ∨
        (2 : Int) < (4096 + 4096) / 4096 % 2 ^ 32) ∧
    (Exact true (smallDisk (iobufInit 0 4096 (2 ^ 44 + 4096))) ↔
      Misaligned (smallDisk (iobufInit 0 4096 (2 ^ 44 + 4096))) ∨
        InRange (smallDisk (iobufInit 0 4096 (2 ^ 44 + 4096))) ∨
        (2 : Int) < (2 ^ 44 + 4096 + 4096) / 4096 % 2 ^ 32) :=
  ⟨disk0Io_exact rfl, disk0Io_exact rfl⟩

/-- A block is written far behind the end of the disk: the call returns 0, and the
second block of the disk has been overwritten. -/
theorem disk0Io_wraps :
    ¬ InRange (smallDisk (iobufInit 0 4096 (2 ^ 44 + 4096))) ∧
    ∃ t, disk0Io true (smallDisk (iobufInit 0 4096 (2 ^ 44 + 4096))) = .ok (0, t) ∧
      (smallDisk (iobufInit 0 4096 (2 ^ 44 + 4096))).image 4096 = 2 ∧ t.image 4096 = 7 := by
  refine ⟨fun hin => absurd hin.2 (by decide), ?_⟩
  have hyields : yields (disk0Io true) (smallDisk (iobufInit 0 4096 (2 ^ 44 + 4096)))
      (fun ret t => ret = 0 && t.image 4096 = 7) = true := by
    decide
  obtain ⟨ret, t, hret, hvalues⟩ := (Ends.of_yields hyields).ok
  simp only [Bool.and_eq_true, decide_eq_true_eq] at hvalues
  exact ⟨t, hvalues.1 ▸ hret, by decide, hvalues.2⟩

end Ucore.Disk0
