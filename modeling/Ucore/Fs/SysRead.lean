import Ucore.Foundation.Words
import Ucore.Fs.Slots
import Ucore.Mm.UserCheck

/-!
# Reading into user memory

`sysfile_read` of `kern/fs/sysfile.c` and `copy_to_user` of `kern/mm/vmm.c` in lab 8. The
bytes go through a buffer of the kernel, 4096 at a time. Loops get a bound on their
rounds.
-/

namespace Ucore.Fs

open Machine Mm

def E_NO_MEM : Int := 4

def IOBUF_SIZE : Nat := 4096

/-- What a system call of a user process works on: its files, its areas and its memory,
and the number of calls of `vop_read` so far. -/
structure ReadState where
  files : Files
  mm : MmStruct
  user : BitVec 64 → Byte
  reads : Nat

/-- Why a call does not return. -/
inductive ReadStop
  | files (e : Failed)
  | runaway
  | assertion
  deriving DecidableEq, Repr

abbrev ReadM := Machine ReadStop ReadState

def onFiles {α : Type} (x : FilesM α) : ReadM α := fun s =>
  match x s.files with
  | .ok (a, files) => .ok (a, { s with files })
  | .error e => .error (.files e)

/-- `vop_read`: for the number of the call, the inode, the offset and the length, what it
returns and the bytes that it puts into the buffer. -/
abbrev VopRead := Nat → Node → Int → Nat → Int × List Byte

section

variable (vopRead : VopRead)

/-- `file_read`, with the bytes that are then in the buffer. -/
def readFile (fd : Int) (len : Nat) : ReadM (Int × List Byte) := do
  match ← onFiles (fileRead fd) with
  | .operating s node op => do
      let file ← onFiles (load s)
      let (ret, bytes) := vopRead (← get).reads node file.pos len
      modify fun st => { st with reads := st.reads + 1 }
      match ← onFiles (fileOperated s op ⟨ret, node, bytes.length⟩) with
      | .freeing s after => do
          -- the file was closed while it was read
          let _ ← onFiles ((Task.freeing s after).resume ⟨0, node, 0⟩)
          return (ret, bytes)
      | _ => return (ret, bytes)
  | .done ret _ => return (ret, [])
  | _ => return (0, [])

/-- The user memory after `memcpy`. -/
def writeUser (user : BitVec 64 → Byte) (dst : BitVec 64) (src : List Byte) (a : BitVec 64) :
    Byte :=
  src.getD (a - dst).toNat (user a)

def copyToUser (areas : Nat) (dst : BitVec 64) (src : List Byte) : ReadM Bool := do
  let s ← get
  match userMemCheck areas (some s.mm) dst (BitVec.ofNat 64 src.length) true with
  | some (true, some mm) => do
      set { s with mm := mm, user := writeUser s.user dst src }
      return true
  | some (_, some mm) => do
      set { s with mm := mm }
      return false
  | _ => throw .runaway

/-- The loop of `sysfile_read`: it ends with `ret` and `copied`. -/
def readLoop (areas : Nat) (fd : Int) : Nat → BitVec 64 → Nat → Nat → ReadM (Int × Nat)
  | 0, _, _, _ => throw .runaway
  | rounds + 1, base, len, copied => do
      if len = 0 then return (0, copied)
      else do
        let (ret, bytes) ← readFile vopRead fd (min IOBUF_SIZE len)
        let alen := bytes.length
        if alen = 0 then return (ret, copied)
        else if ← copyToUser areas base bytes then do
          check .assertion (len ≥ alen)
          if ret ≠ 0 then return (ret, copied + alen)
          else readLoop areas fd rounds (base + BitVec.ofNat 64 alen) (len - alen) (copied + alen)
        else return (if ret = 0 then -E_INVAL else ret, copied)

/-- The `int` that is returned for a `size_t`. -/
def intOfCount (copied : Nat) : Int := (BitVec.ofNat 32 copied).toInt

/-- `sysfile_read`; `buffer` says whether `kmalloc` has returned one. -/
def sysfileRead (areas rounds : Nat) (buffer : Bool) (fd : Int) (base len : BitVec 64) :
    ReadM Int := do
  if len = 0 then return 0
  else if !(← onFiles (fileTestfd fd true false)) then return -E_INVAL
  else if !buffer then return -E_NO_MEM
  else do
    let (ret, copied) ← readLoop vopRead areas fd rounds base len.toNat 0
    return if copied ≠ 0 then intOfCount copied else ret

end

/-! ## What is assumed -/

/-- `vop_read` returns consecutive bytes of the file, at most as many as asked for, and
zero or an error. -/
structure Consecutive (contents : Node → Int → Byte) (vopRead : VopRead) : Prop where
  length : ∀ k node pos len, (vopRead k node pos len).2.length ≤ len
  bytes : ∀ k node pos len (i : Nat) (b : Byte), (vopRead k node pos len).2[i]? = some b →
    b = contents node (pos + i)
  ret : ∀ k node pos len, (vopRead k node pos len).1 ≤ 0

/-- The slot `s` is an open file that may be read, and `node` is its inode. This is what `fd2file`
and `file_testfd` look at. -/
structure Readable (T : Files) (s : Slot) (node : Node) : Prop where
  count : 0 < T.filesCount
  status : (T.fdArray s).status = .fdOpened
  fd : (T.fdArray s).fd = s.val
  readable : (T.fdArray s).readable = true
  node : (T.fdArray s).node = some node
  openCount : 0 < (T.fdArray s).openCount

/-! ## What is promised -/

/-- What a read from `pos` that returns `r` is to leave: the position behind the bytes that
are in the user's buffer. -/
def ReadsDelivered (contents : Int → Byte) (base : BitVec 64) (pos pos' r : Int)
    (user' : BitVec 64 → Byte) : Prop :=
  if 0 < r then pos' = pos + r ∧ ∀ i : Nat, i < r →
    user' (base + BitVec.ofNat 64 i) = contents (pos + i)
  else pos' = pos

/-- The pieces that `vop_read` delivers, from its call `k` on, when `len` bytes are read
from `pos`: where each starts, and its length. -/
def pieces (vopRead : VopRead) (node : Node) (k : Nat) (pos : Int) (start len : Nat) :
    List (Nat × Nat) :=
  if len = 0 then []
  else
    let (ret, bytes) := vopRead k node pos (min IOBUF_SIZE len)
    if bytes.length = 0 then []
    else if ret ≠ 0 then [(start, bytes.length)]
    else (start, bytes.length) ::
      pieces vopRead node (k + 1) (pos + bytes.length) (start + bytes.length) (len - bytes.length)
termination_by len
decreasing_by omega

variable {T : Files} {s : Slot} {node : Node} {st : ReadState} {E : ReadStop → Prop}
  {vopRead : VopRead}
  {α : Type}

theorem ends_onFiles {x : FilesM α} {Q : α → ReadState → Prop} :
    Ends E (onFiles x) st Q ↔ Ends (fun e => E (.files e)) x st.files fun a files =>
      Q a { st with files } := by
  unfold Ends onFiles
  cases x st.files with
  | error e => rfl
  | ok r => rfl

theorem setFile_setFile (file file' : File) :
    (T.setFile s file).setFile s file' = T.setFile s file' := by
  rw [Files.setFile, Files.setFile, Files.setFile, Function.update_idem]

/-- `fd_array_release` of a file that stays open. -/
theorem ends_release {E : Failed → Prop} {file : File} (hstatus : file.status = .fdOpened)
    (hcount : 1 < file.openCount)
    {Q : Bool → Files → Prop} : Ends E (fdArrayRelease s) (T.setFile s file) Q ↔
      Q false (T.setFile s { file with openCount := file.openCount - 1 }) := by
  have hload : (T.setFile s file).fdArray s = file := Files.setFile_fdArray
  have hmore : ¬file.openCount - 1 = 0 := by omega
  rw [fdArrayRelease, ends_bind, ends_load, hload, ends_bind, ends_check (Or.inl hstatus),
    ends_bind,
    ends_check (Nat.zero_lt_of_lt hcount), ends_bind, ends_store, setFile_setFile,
    if_neg hmore, ends_pure]

/-- The slot `s` is an open file. -/
structure OpenFile (T : Files) (s : Slot) (node : Node) : Prop where
  count : 0 < T.filesCount
  status : (T.fdArray s).status = .fdOpened
  fd : (T.fdArray s).fd = s.val
  node : (T.fdArray s).node = some node
  openCount : 0 < (T.fdArray s).openCount

namespace OpenFile

variable {E : Failed → Prop} (h : OpenFile T s node)
include h

theorem ends_fd2file {Q : Except Int Slot → Files → Prop} :
    Ends E (fd2file s.val) T Q ↔ Q (.ok s) T := by
  have htest : testfd s.val := ⟨Int.natCast_nonneg _, Int.ofNat_lt.mpr s.isLt⟩
  have hslot : slotOf s.val htest = s := by
    apply Fin.ext
    exact Int.toNat_natCast s.val
  rw [fd2file, dif_pos htest, getFdArray]
  simp only [ends_bind, ends_get, ends_check h.count, hslot]
  rw [ends_load, if_pos ⟨h.status, h.fd⟩, ends_pure]

/-- The file is taken for an operation. -/
theorem ends_fileAcquire {op : Op} {Q : Task → Files → Prop} : Ends E (fileAcquire s op) T Q ↔
    Q (.operating s node op)
    (T.setFile s { T.fdArray s with openCount := (T.fdArray s).openCount + 1 }) := by
  simp only [fileAcquire, fdArrayAcquire, ends_bind, ends_load, ends_check h.status, ends_store,
    Files.setFile_fdArray]
  rw [ends_useNode h.node, ends_pure]

/-- After `vop_read` or `vop_write` the position moves on. -/
theorem ends_fileMoved (reply : Reply) {Q : Task → Files → Prop} :
    Ends E (fileMoved s reply)
        (T.setFile s { T.fdArray s with openCount := (T.fdArray s).openCount + 1 }) Q ↔
      Q (.done reply.ret reply.amount)
        (T.setFile s { T.fdArray s with pos := (T.fdArray s).pos + reply.amount }) := by
  have hopened :
      ((T.setFile s
        { T.fdArray s with openCount := (T.fdArray s).openCount + 1 }).fdArray s).status =
      .fdOpened := by
    rw [Files.setFile_fdArray]
    exact h.status
  simp only [fileMoved, ends_bind, ends_load, if_pos hopened, ends_store,
    setFile_setFile, fileRelease]
  rw [ends_release]
  · rw [Files.setFile_fdArray]
    exact Iff.rfl
  · rw [Files.setFile_fdArray]
    exact h.status
  · rw [Files.setFile_fdArray]
    exact Nat.succ_lt_succ h.openCount

theorem setPos (pos : Int) : OpenFile (T.setFile s { T.fdArray s with pos := pos }) s node := by
  obtain ⟨hcount, hstatus, hfd, hnode, hopen⟩ := h
  refine ⟨hcount, ?_, ?_, ?_, ?_⟩
  · rwa [Files.setFile_fdArray]
  · rwa [Files.setFile_fdArray]
  · rwa [Files.setFile_fdArray]
  · rwa [Files.setFile_fdArray]

end OpenFile

namespace Readable

variable {E : Failed → Prop} (h : Readable T s node)
include h

theorem opened : OpenFile T s node := ⟨h.count, h.status, h.fd, h.node, h.openCount⟩

theorem ends_fileTestfd {Q : Bool → Files → Prop} :
    Ends E (fileTestfd s.val true false) T Q ↔ Q true T := by
  rw [fileTestfd, ends_bind, h.opened.ends_fd2file]
  simp only [ends_bind, ends_load, ends_pure, h.readable]
  rfl

/-- `file_read` up to `vop_read`. -/
theorem ends_fileRead {Q : Task → Files → Prop} : Ends E (fileRead s.val) T Q ↔
    Q (.operating s node .read)
    (T.setFile s { T.fdArray s with openCount := (T.fdArray s).openCount + 1 }) := by
  have hyes : ¬(!(T.fdArray s).readable) = true := by
    rw [h.readable]
    decide
  rw [fileRead, ends_bind, h.opened.ends_fd2file]
  simp only [ends_bind, ends_load, if_neg hyes]
  exact h.opened.ends_fileAcquire

end Readable

variable {k : Nat} {contents : Node → Int → Byte}

/-- The state after a call of `vop_read` that has put `n` bytes into the buffer. -/
def ReadState.moved (st : ReadState) (s : Slot) (n : Nat) : ReadState :=
  { st with
    files := st.files.setFile s { st.files.fdArray s with pos := (st.files.fdArray s).pos + n }
    reads := st.reads + 1 }

theorem ends_readFile (h : Readable st.files s node) {len : Nat}
    {Q : Int × List Byte → ReadState → Prop} :
    Ends E (readFile vopRead s.val len) st Q ↔
      Q (vopRead st.reads node (st.files.fdArray s).pos len)
        (st.moved s (vopRead st.reads node (st.files.fdArray s).pos len).2.length) := by
  rw [readFile, ends_bind, ends_onFiles, h.ends_fileRead]
  simp only [ends_bind, ends_onFiles, ends_load, ends_get, ends_modify, Files.setFile_fdArray,
    fileOperated]
  rw [h.opened.ends_fileMoved]
  exact Iff.rfl

/-! ## Copying -/

theorem userRange_congr {mm mm' : MmStruct} (hlist : mm'.mmapList = mm.mmapList)
    {addr len : BitVec 64} {write : Bool} :
    mm'.UserRange addr len write ↔ mm.UserRange addr len write := by
  unfold MmStruct.UserRange MmStruct.Permits MmStruct.Guarded
  rw [hlist]

theorem copyToUser_spec {areas : Nat} (hmm : st.mm.Apart) (hareas : st.mm.mmapList.length < areas)
    (dst : BitVec 64) (src : List Byte) : Ends E (copyToUser areas dst src) st fun ok t =>
      (ok = true ↔ st.mm.UserRange dst (BitVec.ofNat 64 src.length) true) ∧ t.mm.Apart ∧
        t.mm.mmapList = st.mm.mmapList ∧
        t = { st with mm := t.mm, user := if ok then writeUser st.user dst src else st.user } := by
  obtain ⟨ok, mm, hcheck, hmm', hlist, hok⟩ :=
    userMemCheck_spec hmm dst (BitVec.ofNat 64 src.length) true hareas
  rw [copyToUser, ends_bind, ends_get, hcheck]
  cases ok with
  | false => exact ⟨hok, hmm', hlist, rfl⟩
  | true => exact ⟨hok, hmm', hlist, rfl⟩

/-- Addresses behind `dst`. -/
theorem writeUser_behind {user : BitVec 64 → Byte} {base : BitVec 64} {src : List Byte}
    {n i : Nat} (hle : n ≤ i) (hi : i < n + src.length) (hwrap : n + src.length < 2 ^ 64) :
    some (writeUser user (base + BitVec.ofNat 64 n) src (base + BitVec.ofNat 64 i)) =
      src[i - n]? := by
  have hindex : (base + BitVec.ofNat 64 i - (base + BitVec.ofNat 64 n)).toNat = i - n := by
    have hsum : BitVec.ofNat 64 i = BitVec.ofNat 64 (i - n) + BitVec.ofNat 64 n := by
      rw [← BitVec.ofNat_add, Nat.sub_add_cancel hle]
    have hsub : base + BitVec.ofNat 64 i - (base + BitVec.ofNat 64 n) =
        BitVec.ofNat 64 (i - n) := by
      rw [hsum, BitVec.add_comm base, BitVec.add_comm base, BitVec.add_assoc, BitVec.add_sub_cancel]
    rw [hsub, BitVec.toNat_ofNat, Nat.mod_eq_of_lt (by omega)]
  have hlt : i - n < src.length := by omega
  rw [writeUser, hindex, List.getD_eq_getElem?_getD, List.getElem?_eq_getElem hlt]
  rfl

/-- Addresses before it. -/
theorem writeUser_before {user : BitVec 64 → Byte} {base : BitVec 64} {src : List Byte}
    {n i : Nat} (hlt : i < n) (hwrap : n + src.length < 2 ^ 64) :
    writeUser user (base + BitVec.ofNat 64 n) src (base + BitVec.ofNat 64 i) =
      user (base + BitVec.ofNat 64 i) := by
  have hindex : src.length ≤ (base + BitVec.ofNat 64 i - (base + BitVec.ofNat 64 n)).toNat := by
    rw [BitVec.toNat_sub, BitVec.toNat_add, BitVec.toNat_add, BitVec.toNat_ofNat,
      BitVec.toNat_ofNat]
    have hbase := base.isLt
    omega
  rw [writeUser, List.getD_eq_getElem?_getD, List.getElem?_eq_none hindex]
  rfl

/-! ## The loop -/

/-- `n` bytes have gone to the user since `st`, and the position is behind them. -/
structure Progress (contents : Node → Int → Byte) (st : ReadState) (s : Slot) (node : Node)
    (base : BitVec 64) (n : Nat) (t : ReadState) : Prop where
  readable : Readable t.files s node
  apart : t.mm.Apart
  areas : t.mm.mmapList = st.mm.mmapList
  pos : (t.files.fdArray s).pos = (st.files.fdArray s).pos + n
  bytes : ∀ i < n, t.user (base + BitVec.ofNat 64 i) = contents node ((st.files.fdArray s).pos + i)
  room : n = 0 ∨ USERBASE ≤ base.toNat ∧ base.toNat + n ≤ USERTOP

/-- More bytes have left the file than have reached the user. -/
structure Lost (st : ReadState) (s : Slot) (base : BitVec 64) (n : Nat) (t : ReadState) : Prop where
  pos : (st.files.fdArray s).pos + n < (t.files.fdArray s).pos
  room : n = 0 ∨ USERBASE ≤ base.toNat ∧ base.toNat + n ≤ USERTOP

/-- The pieces, each a distance from `base` and a length, lie where `user_mem_check` lets the user
write. -/
def Writable (mm : MmStruct) (base : BitVec 64) (parts : List (Nat × Nat)) : Prop :=
  ∀ part ∈ parts, mm.UserRange (base + BitVec.ofNat 64 part.1) (BitVec.ofNat 64 part.2) true

variable {st₀ : ReadState} {base : BitVec 64} {n : Nat}

/-- A piece behind `n` bytes is user memory too. -/
theorem room_add {mm : MmStruct} {write : Bool} {m len : Nat}
    (hroom : n = 0 ∨ USERBASE ≤ base.toNat ∧ base.toNat + n ≤ USERTOP)
    (hrange : mm.UserRange (base + BitVec.ofNat 64 n) (BitVec.ofNat 64 len) write)
    (hlen : len ≤ IOBUF_SIZE)
    (hm : m ≤ len) : USERBASE ≤ base.toNat ∧ base.toNat + (n + m) ≤ USERTOP := by
  obtain ⟨_, _, hbase, htop, _⟩ := hrange
  unfold IOBUF_SIZE at hlen
  have hstart : (base + BitVec.ofNat 64 n).toNat = base.toNat + n := by
    rw [BitVec.toNat_add, BitVec.toNat_ofNat]
    have hlt := base.isLt
    unfold USERBASE USERTOP at hroom
    omega
  rw [hstart] at hbase htop
  rw [BitVec.toNat_ofNat, Nat.mod_eq_of_lt (by omega)] at htop
  omega

theorem Readable.setPos {T : Files} (h : Readable T s node) (pos : Int) :
    Readable (T.setFile s { T.fdArray s with pos := pos }) s node := by
  obtain ⟨hcount, hstatus, hfd, hnode, hopen⟩ := h.opened.setPos pos
  refine ⟨hcount, hstatus, hfd, ?_, hnode, hopen⟩
  rw [Files.setFile_fdArray]
  exact h.readable

/-- A piece that is writable reaches the user. -/
theorem Progress.copied (h : Progress contents st₀ s node base n st)
    (hvop : Consecutive contents vopRead) {len : Nat}
    {bytes : List Byte} (hbytes : bytes = (vopRead st.reads node (st.files.fdArray s).pos len).2)
    {t : ReadState} (hrange : st₀.mm.UserRange (base + BitVec.ofNat 64 n)
      (BitVec.ofNat 64 bytes.length) true)
    (hlen : len ≤ IOBUF_SIZE) (hapart : t.mm.Apart) (hareas : t.mm.mmapList = st.mm.mmapList)
    (hfiles : t.files = (st.moved s bytes.length).files)
    (huser : t.user = writeUser st.user (base + BitVec.ofNat 64 n) bytes) :
    Progress contents st₀ s node base (n + bytes.length) t := by
  have hlength : bytes.length ≤ IOBUF_SIZE := hbytes ▸ Nat.le_trans (hvop.length ..) hlen
  have hpos' : (t.files.fdArray s).pos = (st.files.fdArray s).pos + bytes.length := by
    rw [hfiles, ReadState.moved, Files.setFile_fdArray]
  have hroom := room_add h.room hrange hlength (le_refl _)
  refine ⟨?_, hapart, hareas.trans h.areas, ?_, ?_, Or.inr hroom⟩
  · rw [hfiles]
    exact h.readable.setPos _
  · rw [hpos', h.pos, Int.natCast_add, Int.add_assoc]
  · intro i hi
    have hwrap : n + bytes.length < 2 ^ 64 := by
      unfold USERTOP at hroom
      omega
    rw [huser]
    by_cases hlt : i < n
    · rw [writeUser_before hlt hwrap]
      exact h.bytes i hlt
    · have hle := Nat.not_lt.mp hlt
      have hbehind := @writeUser_behind st.user base bytes n i hle hi hwrap
      have hget : (vopRead st.reads node (st.files.fdArray s).pos len).2[i - n]? =
          some (writeUser st.user (base + BitVec.ofNat 64 n) bytes (base + BitVec.ofNat 64 i)) := by
        rw [← hbytes]
        exact hbehind.symm
      rw [hvop.bytes _ _ _ _ _ _ hget, h.pos]
      congr 1
      omega

theorem writable_cons {mm : MmStruct} {base : BitVec 64} {part : Nat × Nat}
    {parts : List (Nat × Nat)} :
    Writable mm base (part :: parts) ↔
      mm.UserRange (base + BitVec.ofNat 64 part.1) (BitVec.ofNat 64 part.2) true ∧
        Writable mm base parts :=
  List.forall_mem_cons

/-- What the loop leaves, when it is done with `r`. -/
def LoopDone (contents : Node → Int → Byte) (st : ReadState) (s : Slot) (node : Node)
    (base : BitVec 64) (parts : List (Nat × Nat)) (r : Int × Nat) (t : ReadState) : Prop :=
  r.1 ≤ 0 ∧ (Writable st.mm base parts → Progress contents st s node base r.2 t) ∧
    (¬Writable st.mm base parts → Lost st s base r.2 t)

/-- The loop delivers piece after piece, up to one that is not writable. -/
theorem readLoop_spec {areas rounds len : Nat} (hvop : Consecutive contents vopRead)
    (hareas : st₀.mm.mmapList.length < areas) (h : Progress contents st₀ s node base n st)
    (hrounds : len < rounds) :
    Ends never (readLoop vopRead areas s.val rounds (base + BitVec.ofNat 64 n) len n) st fun r t =>
      LoopDone contents st₀ s node base
        (pieces vopRead node st.reads (st.files.fdArray s).pos n len) r t := by
  induction rounds generalizing n len st with
  | zero => exact absurd hrounds (Nat.not_lt_zero _)
  | succ rounds ih =>
      rw [readLoop, pieces]
      by_cases hlen : len = 0
      · rw [if_pos hlen, if_pos hlen]
        exact ⟨le_refl _, fun _ => h, fun hnot =>
          absurd (fun part hpart => absurd hpart List.not_mem_nil) hnot⟩
      rw [if_neg hlen, if_neg hlen, ends_bind, ends_readFile h.readable]
      have hret := hvop.ret st.reads node (st.files.fdArray s).pos (min IOBUF_SIZE len)
      have hlength := hvop.length st.reads node (st.files.fdArray s).pos (min IOBUF_SIZE len)
      rcases hread : vopRead st.reads node (st.files.fdArray s).pos (min IOBUF_SIZE len)
        with ⟨ret, bytes⟩
      rw [hread] at hret hlength
      by_cases hnone : bytes.length = 0
      · -- the end of the file, or an error
        simp only [hnone, if_true, ends_pure]
        refine ⟨hret, fun _ => ?_, fun hnot =>
          absurd (fun part hpart => absurd hpart List.not_mem_nil) hnot⟩
        refine ⟨h.readable.setPos _, h.apart, h.areas, ?_, h.bytes, h.room⟩
        rw [ReadState.moved, Files.setFile_fdArray, h.pos, Int.natCast_zero, Int.add_zero]
      simp only [hnone, if_false, ends_bind]
      have hmoved : ((st.moved s bytes.length).files.fdArray s).pos = (st.files.fdArray s).pos +
          bytes.length := by
        rw [ReadState.moved, Files.setFile_fdArray]
      have hmm : (st.moved s bytes.length).mm = st.mm := rfl
      have hareas' : (st.moved s bytes.length).mm.mmapList.length < areas := by rwa [hmm, h.areas]
      have hcopy :=
        @copyToUser_spec (st.moved s bytes.length) never areas h.apart hareas' (base +
          BitVec.ofNat 64 n) bytes
      apply hcopy.imp
      rintro ok t ⟨hok, hapart, hlist, ht⟩
      have hrange : ok = true ↔ st₀.mm.UserRange (base + BitVec.ofNat 64 n)
          (BitVec.ofNat 64 bytes.length) true :=
        hok.trans (userRange_congr (hmm ▸ h.areas))
      have hfiles : t.files = (st.moved s bytes.length).files := by rw [ht]
      cases ok with
      | false =>
          -- the piece has left the file and is lost
          have hbad : ∀ {parts}, ¬Writable st₀.mm base ((n, bytes.length) :: parts) :=
            fun hwritable =>
            Bool.false_ne_true (hrange.mpr (writable_cons.mp hwritable).1)
          have hlost : Lost st₀ s base n t := by
            refine ⟨?_, h.room⟩
            rw [hfiles, hmoved, h.pos]
            omega
          have hret' : (if ret = 0 then -E_INVAL else ret) ≤ 0 := by
            split
            · decide
            · exact hret
          rw [if_neg Bool.false_ne_true, ends_pure]
          by_cases hzero : ret = 0
          · rw [if_neg (not_not_intro hzero)]
            exact ⟨hret', fun hwritable => absurd hwritable hbad, fun _ => hlost⟩
          · rw [if_pos hzero]
            exact ⟨hret', fun hwritable => absurd hwritable hbad, fun _ => hlost⟩
      | true =>
          have hgood := hrange.mp rfl
          have hbytes : bytes =
              (vopRead st.reads node (st.files.fdArray s).pos
                (min IOBUF_SIZE len)).2 := by rw [hread]
          have hprogress :=
            h.copied hvop hbytes hgood (Nat.min_le_left ..) hapart hlist hfiles (by rw [ht]; rfl)
          have hle : bytes.length ≤ len := Nat.le_trans hlength (Nat.min_le_right ..)
          rw [if_pos rfl, ends_bind, ends_check hle]
          by_cases hzero : ret = 0
          · have hbase : base + BitVec.ofNat 64 n + BitVec.ofNat 64 bytes.length =
                base + BitVec.ofNat 64 (n + bytes.length) := by
              rw [BitVec.add_assoc, ← BitVec.ofNat_add]
            have hreads : t.reads = st.reads + 1 := by
              rw [ht]
              rfl
            rw [if_neg (not_not_intro hzero), if_neg (not_not_intro hzero), hbase, ← hreads,
              ← hmoved, ← hfiles]
            apply (ih hprogress (by omega)).imp
            rintro r u ⟨hr, hwritable, hnot⟩
            refine ⟨hr, fun hall => hwritable (writable_cons.mp hall).2, fun hsome =>
              hnot fun hall => ?_⟩
            exact hsome (writable_cons.mpr ⟨hgood, hall⟩)
          · rw [if_pos hzero, if_pos hzero, ends_pure]
            refine ⟨hret, fun _ => hprogress, fun hnot => absurd ?_ hnot⟩
            exact writable_cons.mpr ⟨hgood, fun part hpart => absurd hpart List.not_mem_nil⟩

/-! ## The call -/

theorem intOfCount_eq {copied : Nat} (h : copied < 2 ^ 31) : intOfCount copied = copied := by
  rw [intOfCount, BitVec.toInt_ofNat']
  exact Int.bmod_eq_of_le (by omega) (by omega)

/-- What was counted fits in an `int`. -/
theorem count_lt {base : BitVec 64} {n : Nat}
    (hroom : n = 0 ∨ USERBASE ≤ base.toNat ∧ base.toNat + n ≤ USERTOP) :
    n < 2 ^ 31 := by
  unfold USERBASE USERTOP at hroom
  omega

/-- A call that delivers nothing leaves the position alone. -/
theorem readsDelivered_of_nonpos {contents : Int → Byte} {base : BitVec 64} {pos pos' r : Int}
    {user : BitVec 64 → Byte}
    (hr : r ≤ 0) : ReadsDelivered contents base pos pos' r user ↔ pos' = pos := by
  rw [ReadsDelivered, if_neg (not_lt.mpr hr)]

theorem sysfileRead_spec {areas rounds : Nat} {buffer : Bool} {base len : BitVec 64}
    (hvop : Consecutive contents vopRead) (h : Readable st.files s node) (hmm : st.mm.Apart)
    (hareas : st.mm.mmapList.length < areas) (hrounds : len.toNat < rounds) :
    Ends never (sysfileRead vopRead areas rounds buffer s.val base len) st fun r t =>
      (ReadsDelivered (contents node) base (st.files.fdArray s).pos (t.files.fdArray s).pos r
        t.user ↔ buffer = false ∨
          Writable st.mm base (pieces vopRead node st.reads (st.files.fdArray s).pos 0
            len.toNat)) := by
  rw [sysfileRead]
  by_cases hlen : len = 0
  · rw [if_pos hlen]
    refine iff_of_true ((readsDelivered_of_nonpos (le_refl 0)).mpr rfl) (Or.inr ?_)
    rw [hlen, pieces]
    exact fun part hpart => absurd hpart List.not_mem_nil
  rw [if_neg hlen, ends_bind, ends_onFiles, h.ends_fileTestfd]
  cases buffer with
  | false => exact iff_of_true ((readsDelivered_of_nonpos (by decide)).mpr rfl) (Or.inl rfl)
  | true =>
      have hstart : Progress contents st s node base 0 st :=
        ⟨h, hmm, rfl, (Int.add_zero _).symm, fun i hi => absurd hi (Nat.not_lt_zero i), Or.inl rfl⟩
      have hloop := readLoop_spec hvop hareas hstart hrounds
      have hbase : base + BitVec.ofNat 64 0 = base := BitVec.add_zero base
      rw [hbase] at hloop
      simp only [Bool.not_true, Bool.false_eq_true, if_false, ends_bind,
        Bool.true_eq_false, false_or]
      apply hloop.imp
      rintro ⟨ret, copied⟩ t ⟨hret, hwritable, hnot⟩
      rw [ends_pure]
      by_cases hall :
        Writable st.mm base (pieces vopRead node st.reads (st.files.fdArray s).pos 0 len.toNat)
      · have hprogress := hwritable hall
        refine iff_of_true ?_ hall
        by_cases hcopied : copied = 0
        · rw [if_neg (not_not_intro hcopied)]
          apply (readsDelivered_of_nonpos hret).mpr
          rw [hprogress.pos, hcopied, Int.natCast_zero, Int.add_zero]
        · have hcount := intOfCount_eq (count_lt hprogress.room)
          have hpos : (0 : Int) < copied := by omega
          rw [if_pos hcopied, ReadsDelivered, hcount, if_pos hpos]
          exact ⟨hprogress.pos, fun i hi => hprogress.bytes i (Int.ofNat_lt.mp hi)⟩
      · obtain ⟨hpos, hroom⟩ := hnot hall
        refine iff_of_false ?_ hall
        by_cases hcopied : copied = 0
        · rw [if_neg (not_not_intro hcopied), readsDelivered_of_nonpos hret]
          omega
        · rw [if_pos hcopied, intOfCount_eq (count_lt hroom), ReadsDelivered]
          have hcount : (0 : Int) < copied := by omega
          rw [if_pos hcount]
          omega

/-- A read has consumed what it has delivered exactly if each piece that `vop_read` gave
could be written to the user's buffer, or none was asked for because there was no memory. -/
theorem sysfileRead_consumes {areas rounds : Nat} {buffer : Bool} {base len : BitVec 64}
    (hvop : Consecutive contents vopRead) (h : Readable st.files s node) (hmm : st.mm.Apart)
    (hareas : st.mm.mmapList.length < areas) (hrounds : len.toNat < rounds) :
    ∃ r t, sysfileRead vopRead areas rounds buffer s.val base len st = .ok (r, t) ∧
      (ReadsDelivered (contents node) base (st.files.fdArray s).pos (t.files.fdArray s).pos r
        t.user ↔ buffer = false ∨
          Writable st.mm base
            (pieces vopRead node st.reads (st.files.fdArray s).pos 0 len.toNat)) :=
  (sysfileRead_spec hvop h hmm hareas hrounds).ok

/-- A file without an end, whose bytes count up. -/
def countUp : VopRead :=
    fun _ _ pos len => (0, (List.range len).map fun i : Nat => BitVec.ofInt 8 (pos + i))

theorem countUp_consecutive : Consecutive (fun _ pos => BitVec.ofInt 8 pos) countUp where
  length _ _ _ len := by simp [countUp]
  bytes k node pos len i b hget := by
    obtain ⟨_, hvalue⟩ := List.getElem?_eq_some_iff.mp hget
    simpa [countUp] using hvalue.symm
  ret _ _ _ _ := le_refl 0

/-- Every file is open for reading; of two adjacent areas only the lower one may be written. -/
def readStart : ReadState where
  files := {
    fdArray := fun s =>
      { status := .fdOpened, readable := true, writable := false, fd := s.val, pos := 0
        node := some 7, openCount := 1 }
    filesCount := 1
    calls := fun _ => [] }
  mm := adjacentAreas
  user _ := 0
  reads := 0

/-- The first slot that is not for the standard files. -/
def userSlot : Slot := ⟨3, by decide⟩

theorem readStart_readable (s : Slot) : Readable readStart.files s 7 := by
  constructor
  · exact Nat.one_pos
  · rfl
  · rfl
  · rfl
  · rfl
  · exact Nat.one_pos

theorem sysfileRead_consumes_across : ∃ r t,
    sysfileRead countUp 3 5001 true userSlot.val 0x400000 5000 readStart = .ok (r, t) ∧
      (ReadsDelivered (fun pos => BitVec.ofInt 8 pos) 0x400000 0 (t.files.fdArray userSlot).pos r
        t.user ↔ true = false ∨ Writable adjacentAreas 0x400000 (pieces countUp 7 0 0 0 5000)) :=
  have hareas : readStart.mm.mmapList.length < 3 := by decide
  have hrounds : (5000 : BitVec 64).toNat < 5001 := by decide
  sysfileRead_consumes countUp_consecutive (readStart_readable userSlot) ⟨by decide, by decide,
    nofun⟩ hareas hrounds

/-- The last eight bytes of the buffer cannot be written: nothing is delivered, and the
position is behind the sixteen bytes. -/
theorem sysfileRead_loses_bytes : ∃ r t,
    sysfileRead countUp 3 17 true userSlot.val 0x400ff8 16 readStart = .ok (r, t) ∧ r = -E_INVAL ∧
      (t.files.fdArray userSlot).pos = 16 ∧
      ¬ReadsDelivered (fun pos => BitVec.ofInt 8 pos) 0x400ff8 0 (t.files.fdArray userSlot).pos r
      t.user := by
  have hyields : yields (sysfileRead countUp 3 17 true userSlot.val 0x400ff8 16) readStart
      (fun r t => r == -E_INVAL && (t.files.fdArray userSlot).pos == 16) = true := by
    decide
  obtain ⟨r, t, hreturns, hvalues⟩ := (Ends.of_yields hyields).ok
  simp only [Bool.and_eq_true, beq_iff_eq] at hvalues
  obtain ⟨hr, hpos⟩ := hvalues
  refine ⟨r, t, hreturns, hr, hpos, ?_⟩
  rw [readsDelivered_of_nonpos (by rw [hr]; decide), hpos]
  decide

end Ucore.Fs
