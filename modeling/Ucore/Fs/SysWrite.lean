import Ucore.Fs.SysRead

/-!
# Writing from user memory

`sysfile_write` of `kern/fs/sysfile.c` and `copy_from_user` of `kern/mm/vmm.c` in lab 8. The
bytes go through a buffer of the kernel, 4096 at a time. Loops get a bound on their
rounds.
-/

namespace Ucore.Fs

open Machine Mm

/-- What a system call of a user process works on: its files, its areas, its memory and
the contents of the inodes, and the number of calls of `vop_write` so far. -/
structure WriteState where
  files : Files
  mm : MmStruct
  user : BitVec 64 → Byte
  contents : Node → Int → Byte
  writes : Nat

abbrev WriteM := Machine ReadStop WriteState

def withFiles {α : Type} (x : FilesM α) : WriteM α := fun s =>
  match x s.files with
  | .ok (a, files) => .ok (a, { s with files })
  | .error e => .error (.files e)

/-- What `vop_write` returns, how many bytes it has used of the buffer, and the contents
that it leaves. -/
structure Written where
  ret : Int
  used : Nat
  contents : Int → Byte

/-- `vop_write`: for the number of the call, the inode, the offset, the buffer and the
contents of the inode. -/
abbrev VopWrite := Nat → Node → Int → List Byte → (Int → Byte) → Written

section

variable (vopWrite : VopWrite)

/-- `file_write`, with what it stores through `copied_store`. -/
def writeFile (fd : Int) (bytes : List Byte) : WriteM (Int × Nat) := do
  match ← withFiles (fileWrite fd) with
  | .operating s node op => do
      let file ← withFiles (load s)
      let st ← get
      let w := vopWrite st.writes node file.pos bytes (st.contents node)
      set { st with
        contents := Function.update st.contents node w.contents
        writes := st.writes + 1 }
      match ← withFiles (fileOperated s op ⟨w.ret, node, w.used⟩) with
      | .freeing s after => do
          -- the file was closed while it was written
          let _ ← withFiles ((Task.freeing s after).resume ⟨0, node, 0⟩)
          return (w.ret, w.used)
      | _ => return (w.ret, w.used)
  | .done ret _ => return (ret, 0)
  | _ => return (0, 0)

/-- The `len` bytes of user memory that `memcpy` takes from `src`. -/
def readUser (user : BitVec 64 → Byte) (src : BitVec 64) (len : Nat) : List Byte :=
  (List.range len).map fun i => user (src + BitVec.ofNat 64 i)

/-- `copy_from_user`, with what is then in the buffer. -/
def copyFromUser (areas : Nat) (src : BitVec 64) (len : Nat) (writable : Bool) :
    WriteM (Option (List Byte)) := do
  let s ← get
  match userMemCheck areas (some s.mm) src (BitVec.ofNat 64 len) writable with
  | some (true, some mm) => do
      set { s with mm := mm }
      return some (readUser s.user src len)
  | some (_, some mm) => do
      set { s with mm := mm }
      return none
  | _ => throw .runaway

/-- The loop of `sysfile_write`: it ends with `ret` and `copied`. -/
def writeLoop (areas : Nat) (fd : Int) : Nat → BitVec 64 → Nat → Nat → WriteM (Int × Nat)
  | 0, _, _, _ => throw .runaway
  | rounds + 1, base, len, copied => do
      if len = 0 then return (0, copied)
      else match ← copyFromUser areas base (min IOBUF_SIZE len) false with
        | none => return (-E_INVAL, copied)
        | some bytes => do
            let (ret, alen) ← writeFile vopWrite fd bytes
            if alen = 0 then return (ret, copied)
            else do
              check .assertion (len ≥ alen)
              if ret ≠ 0 then return (ret, copied + alen)
              else
                writeLoop areas fd rounds (base + BitVec.ofNat 64 alen) (len - alen)
                  (copied + alen)

/-- `sysfile_write`; `buffer` says whether `kmalloc` has returned one. -/
def sysfileWrite (areas rounds : Nat) (buffer : Bool) (fd : Int) (base len : BitVec 64) :
    WriteM Int := do
  if len = 0 then return 0
  else if !(← withFiles (fileTestfd fd false true)) then return -E_INVAL
  else if !buffer then return -E_NO_MEM
  else do
    let (ret, copied) ← writeLoop vopWrite areas fd rounds base len.toNat 0
    return if copied ≠ 0 then intOfCount copied else ret

end

/-! ## What is assumed -/

/-- Contents after `n` bytes were written at `pos`. -/
def overwrite (old : Int → Byte) (pos : Int) (bytes : Nat → Byte) (n : Nat) (p : Int) : Byte :=
  if pos ≤ p ∧ p < pos + n then bytes (p - pos).toNat else old p

/-- `vop_write` stores as many bytes of the buffer as it says that it has used, and
returns zero or an error. -/
structure Stores (vopWrite : VopWrite) : Prop where
  used : ∀ k node pos bytes old, (vopWrite k node pos bytes old).used ≤ bytes.length
  contents : ∀ k node pos (bytes : List Byte) old, (vopWrite k node pos bytes old).contents =
    overwrite old pos (fun i => bytes.getD i 0) (vopWrite k node pos bytes old).used
  ret : ∀ k node pos bytes old, (vopWrite k node pos bytes old).ret ≤ 0

/-- The slot `s` is an open file that may be written, and `node` is its inode. -/
structure OpenForWriting (T : Files) (s : Slot) (node : Node) : Prop extends OpenFile T s node where
  writable : (T.fdArray s).writable = true

/-! ## What is promised -/

/-- The contents of the file after the first `n` bytes of the user's buffer. -/
def WriteState.after (st : WriteState) (s : Slot) (node : Node) (base : BitVec 64) (n : Nat) :
    Int → Byte :=
  overwrite (st.contents node)
  (st.files.fdArray s).pos (fun i => st.user (base + BitVec.ofNat 64 i)) n

/-- The state when the first `n` bytes of the user's buffer have gone into the file, and
nothing else has. -/
structure Handed (st : WriteState) (s : Slot) (node : Node) (base : BitVec 64) (n : Nat)
    (t : WriteState) : Prop where
  files : t.files =
    st.files.setFile s { st.files.fdArray s with pos := (st.files.fdArray s).pos + n }
  areas : t.mm.mmapList = st.mm.mmapList
  user : t.user = st.user
  contents : t.contents = Function.update st.contents node (st.after s node base n)

/-- Why a write of `len` bytes stops after `n` bytes and some calls of `vop_write`: the next
piece of the buffer may not be read, or the last call has failed or used nothing. -/
inductive Held (vopWrite : VopWrite) (st : WriteState) (s : Slot) (node : Node)
    (base : BitVec 64) (len : Nat) :
    Nat → Nat → Prop
  | unreadable (n writes : Nat)
      (hrange : ¬st.mm.UserRange (base + BitVec.ofNat 64 n)
        (BitVec.ofNat 64 (min IOBUF_SIZE (len - n))) false) :
      Held vopWrite st s node base len n writes
  | refused (n k : Nat) (w : Written) (hk : st.writes ≤ k)
      (hw : vopWrite k node ((st.files.fdArray s).pos + n)
        (readUser st.user (base + BitVec.ofNat 64 n) (min IOBUF_SIZE (len - n)))
        (st.after s node base n) = w)
      (hrefused : w.ret ≠ 0 ∨ w.used = 0) : Held vopWrite st s node base len (n + w.used) (k + 1)

variable {T : Files} {s : Slot} {node : Node} {st : WriteState} {E : ReadStop → Prop}
  {vopWrite : VopWrite}
  {α : Type}

theorem ends_withFiles {x : FilesM α} {Q : α → WriteState → Prop} :
    Ends E (withFiles x) st Q ↔ Ends (fun e => E (.files e)) x st.files fun a files =>
      Q a { st with files } := by
  unfold Ends withFiles
  cases x st.files with
  | error e => rfl
  | ok r => rfl

namespace OpenForWriting

variable {E : Failed → Prop} (h : OpenForWriting T s node)
include h

theorem ends_fileTestfd {Q : Bool → Files → Prop} :
    Ends E (fileTestfd s.val false true) T Q ↔ Q true T := by
  rw [fileTestfd, ends_bind, h.toOpenFile.ends_fd2file]
  simp only [ends_bind, ends_load, ends_pure, h.writable]
  rfl

/-- `file_write` up to `vop_write`. -/
theorem ends_fileWrite {Q : Task → Files → Prop} : Ends E (fileWrite s.val) T Q ↔
    Q (.operating s node .write)
    (T.setFile s { T.fdArray s with openCount := (T.fdArray s).openCount + 1 }) := by
  have hyes : ¬(!(T.fdArray s).writable) = true := by
    rw [h.writable]
    decide
  rw [fileWrite, ends_bind, h.toOpenFile.ends_fd2file]
  simp only [ends_bind, ends_load, if_neg hyes]
  exact h.toOpenFile.ends_fileAcquire

theorem setPos (pos : Int) :
    OpenForWriting (T.setFile s { T.fdArray s with pos := pos }) s node := by
  refine ⟨h.toOpenFile.setPos pos, ?_⟩
  rw [Files.setFile_fdArray]
  exact h.writable

end OpenForWriting

/-- The state after a call of `vop_write`. -/
def WriteState.moved (st : WriteState) (s : Slot) (node : Node) (w : Written) : WriteState :=
  { st with
    files := st.files.setFile s { st.files.fdArray s with pos := (st.files.fdArray s).pos + w.used }
    contents := Function.update st.contents node w.contents
    writes := st.writes + 1 }

theorem ends_writeFile (h : OpenForWriting st.files s node) {bytes : List Byte}
    {Q : Int × Nat → WriteState → Prop}
    {w : Written}
    (hw : vopWrite st.writes node (st.files.fdArray s).pos bytes (st.contents node) = w) :
    Ends E (writeFile vopWrite s.val bytes) st Q ↔ Q (w.ret, w.used) (st.moved s node w) := by
  subst hw
  rw [writeFile, ends_bind, ends_withFiles, h.ends_fileWrite]
  simp only [ends_bind, ends_withFiles, ends_load, ends_get, ends_set, Files.setFile_fdArray,
    fileOperated]
  rw [h.toOpenFile.ends_fileMoved]
  exact Iff.rfl

/-! ## Copying -/

theorem readUser_getD {user : BitVec 64 → Byte} {src : BitVec 64} {len i : Nat} (hi : i < len) :
    (readUser user src len).getD i 0 = user (src + BitVec.ofNat 64 i) := by
  have hlt : i < (readUser user src len).length := by
    rw [readUser, List.length_map, List.length_range]
    exact hi
  rw [List.getD_eq_getElem?_getD, List.getElem?_eq_getElem hlt]
  simp only [readUser, List.getElem_map, List.getElem_range, Option.getD_some]

theorem Stores.used_le (hvop : Stores vopWrite) {k len : Nat} {pos : Int} {user : BitVec 64 → Byte}
    {src : BitVec 64}
    {old : Int → Byte} {w : Written} (hw : vopWrite k node pos (readUser user src len) old = w) :
    w.used ≤ len := by
  have hle := hvop.used k node pos (readUser user src len) old
  rwa [hw, readUser, List.length_map, List.length_range] at hle

theorem copyFromUser_spec {areas : Nat} (hmm : st.mm.Apart) (hareas : st.mm.mmapList.length < areas)
    (src : BitVec 64)
    (len : Nat) (writable : Bool) : Ends E (copyFromUser areas src len writable) st fun bytes t =>
      (st.mm.UserRange src (BitVec.ofNat 64 len) writable ∧
        bytes = some (readUser st.user src len) ∨
          ¬st.mm.UserRange src (BitVec.ofNat 64 len) writable ∧ bytes = none) ∧
        t.mm.Apart ∧ t.mm.mmapList = st.mm.mmapList ∧ t = { st with mm := t.mm } := by
  obtain ⟨ok, mm, hcheck, hmm', hlist, hok⟩ :=
    userMemCheck_spec hmm src (BitVec.ofNat 64 len) writable hareas
  rw [copyFromUser, ends_bind, ends_get, hcheck]
  cases ok with
  | false =>
      exact ⟨Or.inr ⟨fun hrange => Bool.false_ne_true (hok.mpr hrange), rfl⟩, hmm', hlist, rfl⟩
  | true => exact ⟨Or.inl ⟨hok.mp rfl, rfl⟩, hmm', hlist, rfl⟩

theorem overwrite_none {old : Int → Byte} {pos : Int} {bytes : Nat → Byte} :
    overwrite old pos bytes 0 = old := by
  funext p
  rw [overwrite, if_neg (by omega)]

/-- A second piece behind the first. -/
theorem overwrite_overwrite {old : Int → Byte} {pos : Int} {all next : Nat → Byte} {n m : Nat}
    (hnext : ∀ i < m, next i = all (n + i)) :
    overwrite (overwrite old pos all n) (pos + n) next m = overwrite old pos all (n + m) := by
  funext p
  unfold overwrite
  by_cases hbehind : pos + n ≤ p ∧ p < pos + n + m
  · rw [if_pos hbehind, if_pos (by omega), hnext _ (by omega)]
    congr 1
    omega
  rw [if_neg hbehind]
  by_cases hbefore : pos ≤ p ∧ p < pos + n
  · rw [if_pos hbefore, if_pos (by omega)]
  · rw [if_neg hbefore, if_neg (by omega)]

/-! ## The loop -/

/-- The loop has come to the byte `n`. -/
structure Advanced (st : WriteState) (s : Slot) (node : Node) (base : BitVec 64) (n : Nat)
    (t : WriteState) : Prop
    extends Handed st s node base n t where
  writable : OpenForWriting t.files s node
  apart : t.mm.Apart
  writes : st.writes ≤ t.writes
  room : n = 0 ∨ USERBASE ≤ base.toNat ∧ base.toNat + n ≤ USERTOP

namespace Advanced

variable {st₀ t : WriteState} {base : BitVec 64} {n : Nat} (h : Advanced st₀ s node base n st)
include h

theorem pos : (st.files.fdArray s).pos = (st₀.files.fdArray s).pos + n := by
  rw [h.files, Files.setFile_fdArray]

theorem contents_self : st.contents node = st₀.after s node base n := by
  rw [h.contents, Function.update_self]

theorem checked (hapart : t.mm.Apart) (hlist : t.mm.mmapList = st.mm.mmapList)
    (ht : t = { st with mm := t.mm }) :
    Advanced st₀ s node base n t := by
  have hareas := hlist.trans h.areas
  rw [ht]
  exact ⟨⟨h.files, hareas, h.user, h.contents⟩, h.writable, hapart, h.writes, h.room⟩

/-- What `vop_write` has used of a piece is in the file. -/
theorem moved (hvop : Stores vopWrite) {len : Nat} {w : Written}
    (hw : vopWrite st.writes node (st.files.fdArray s).pos
      (readUser st₀.user (base + BitVec.ofNat 64 n) len) (st.contents node) = w)
    (hrange : st₀.mm.UserRange (base + BitVec.ofNat 64 n) (BitVec.ofNat 64 len) false)
    (hlen : len ≤ IOBUF_SIZE) :
    Advanced st₀ s node base (n + w.used) (st.moved s node w) := by
  have hused := hvop.used_le hw
  have hcontents := hvop.contents st.writes node (st.files.fdArray s).pos
    (readUser st₀.user (base + BitVec.ofNat 64 n) len) (st.contents node)
  have hbehind : ∀ i < w.used, (readUser st₀.user (base + BitVec.ofNat 64 n) len).getD i 0 =
      st₀.user (base + BitVec.ofNat 64 (n + i)) := by
    intro i hi
    rw [readUser_getD (Nat.lt_of_lt_of_le hi hused), BitVec.add_assoc, ← BitVec.ofNat_add]
  rw [hw, h.contents_self, h.pos] at hcontents
  have hroom := room_add h.room hrange hlen hused
  refine ⟨⟨?_, h.areas, h.user, ?_⟩, h.writable.setPos _, h.apart, Nat.le_succ_of_le h.writes,
    Or.inr hroom⟩
  · change st.files.setFile s { st.files.fdArray s with pos := (st.files.fdArray s).pos + w.used } =
      _
    rw [h.files, setFile_setFile, Files.setFile_fdArray, Int.natCast_add, Int.add_assoc]
  · change Function.update st.contents node w.contents = _
    rw [hcontents, h.contents, Function.update_idem]
    refine congrArg (Function.update st₀.contents node) (overwrite_overwrite ?_)
    exact hbehind

end Advanced

variable {st₀ : WriteState} {base : BitVec 64} {n : Nat}

/-- The loop hands over piece after piece, up to one that it cannot read or `vop_write` does
not take. -/
theorem writeLoop_spec {areas rounds len : Nat} (hvop : Stores vopWrite)
    (hareas : st₀.mm.mmapList.length < areas)
    (h : Advanced st₀ s node base n st) (hrounds : len < rounds) :
    Ends never (writeLoop vopWrite areas s.val rounds (base + BitVec.ofNat 64 n) len n) st
      fun r t =>
      r.1 ≤ 0 ∧ r.2 ≤ n + len ∧ Advanced st₀ s node base r.2 t ∧
        (r.2 = n + len ∨ Held vopWrite st₀ s node base (n + len) r.2 t.writes) := by
  induction rounds generalizing n len st with
  | zero => exact absurd hrounds (Nat.not_lt_zero _)
  | succ rounds ih =>
      rw [writeLoop]
      by_cases hlen : len = 0
      · rw [if_pos hlen]
        exact ⟨le_refl _, Nat.le_add_right .., h, Or.inl (by omega)⟩
      rw [if_neg hlen, ends_bind]
      have hareas' : st.mm.mmapList.length < areas := by rwa [h.areas]
      apply (copyFromUser_spec h.apart hareas' (base + BitVec.ofNat 64 n)
        (min IOBUF_SIZE len) false).imp
      rintro bytes t ⟨hbytes, hapart, hlist, ht⟩
      have h' := h.checked hapart hlist ht
      have hrest : n + len - n = len := Nat.add_sub_cancel_left ..
      have hsame := @userRange_congr _ _ h.areas (base + BitVec.ofNat 64 n)
        (BitVec.ofNat 64 (min IOBUF_SIZE len)) false
      rcases hbytes with ⟨hread, rfl⟩ | ⟨hunread, rfl⟩
      · -- the piece is in the buffer
        have hrange := hsame.mp hread
        rw [h.user]
        generalize hw : vopWrite t.writes node (t.files.fdArray s).pos
          (readUser st₀.user (base + BitVec.ofNat 64 n) (min IOBUF_SIZE len)) (t.contents node) = w
        have hmoved := h'.moved hvop hw hrange (Nat.min_le_left ..)
        have hret : w.ret ≤ 0 := hw ▸ hvop.ret ..
        have hused := Nat.le_trans (hvop.used_le hw) (Nat.min_le_right ..)
        have hrefused : w.ret ≠ 0 ∨ w.used = 0 → Held vopWrite st₀ s node base (n + len)
            (n + w.used) (t.writes + 1) := by
          apply Held.refused n t.writes w h'.writes
          rw [hrest, ← h'.contents_self, ← h'.pos]
          exact hw
        dsimp only
        rw [ends_bind, ends_writeFile h'.writable hw]
        by_cases hnone : w.used = 0
        · -- nothing was used
          have hheld := hrefused (Or.inr hnone)
          rw [hnone] at hmoved hheld
          rw [if_pos hnone, ends_pure]
          exact ⟨hret, Nat.le_add_right .., hmoved, Or.inr hheld⟩
        rw [if_neg hnone, ends_bind, ends_check hused]
        by_cases hzero : w.ret = 0
        · have hbase : base + BitVec.ofNat 64 n + BitVec.ofNat 64 w.used = base +
              BitVec.ofNat 64 (n + w.used) := by
            rw [BitVec.add_assoc, ← BitVec.ofNat_add]
          have htotal : n + w.used + (len - w.used) = n + len := by omega
          rw [if_neg (not_not_intro hzero), hbase, ← htotal]
          exact ih hmoved (by omega)
        · rw [if_pos hzero, ends_pure]
          exact ⟨hret, Nat.add_le_add_left hused n, hmoved, Or.inr (hrefused (Or.inl hzero))⟩
      · -- it may not be read, and `ret` has the error
        have hinval : -E_INVAL ≤ 0 := by decide
        refine ⟨hinval, Nat.le_add_right .., h', Or.inr (.unreadable _ _ ?_)⟩
        rw [hrest]
        exact fun hrange => hunread (hsame.mpr hrange)

/-! ## The call -/

theorem handed_nothing : Handed st s node base 0 st := by
  refine ⟨?_, rfl, rfl, ?_⟩
  · rw [Int.natCast_zero, Int.add_zero, Files.setFile, Function.update_eq_self]
  · rw [WriteState.after, overwrite_none, Function.update_eq_self]

theorem sysfileWrite_spec {areas rounds : Nat} {buffer : Bool} {base len : BitVec 64}
    (hvop : Stores vopWrite) (h : OpenForWriting st.files s node) (hmm : st.mm.Apart)
    (hareas : st.mm.mmapList.length < areas) (hrounds : len.toNat < rounds) :
    Ends never (sysfileWrite vopWrite areas rounds buffer s.val base len) st fun r t =>
      t.mm.Apart ∧ Handed st s node base r.toNat t ∧
      (r = len.toNat ∨
        r < len.toNat ∧
          (buffer = false ∨ Held vopWrite st s node base len.toNat r.toNat t.writes)) := by
  rw [sysfileWrite]
  by_cases hlen : len = 0
  · rw [if_pos hlen, hlen]
    exact ⟨hmm, handed_nothing, Or.inl rfl⟩
  have hpos : 0 < len.toNat := Nat.pos_of_ne_zero fun hzero => hlen (BitVec.eq_of_toNat_eq hzero)
  rw [if_neg hlen, ends_bind, ends_withFiles, h.ends_fileTestfd]
  cases buffer with
  | false =>
      exact ⟨hmm, handed_nothing, Or.inr ⟨lt_of_lt_of_le (by decide)
        (Int.natCast_nonneg _), Or.inl rfl⟩⟩
  | true =>
      have hstart : Advanced st s node base 0 st :=
        ⟨handed_nothing, h, hmm, Nat.le_refl _, Or.inl rfl⟩
      have hloop := writeLoop_spec hvop hareas hstart hrounds
      have hbase : base + BitVec.ofNat 64 0 = base := BitVec.add_zero base
      rw [hbase, Nat.zero_add] at hloop
      simp only [Bool.not_true, Bool.false_eq_true, if_false, ends_bind,
        Bool.true_eq_false, false_or]
      apply hloop.imp
      rintro ⟨ret, copied⟩ t ⟨hret, hle, hadvanced, hstop⟩
      dsimp only at hret hle hadvanced hstop
      rw [ends_pure]
      by_cases hcopied : copied = 0
      · have hnothing : ret.toNat = 0 := Int.toNat_of_nonpos hret
        rw [if_neg (not_not_intro hcopied), hnothing, ← hcopied]
        refine ⟨hadvanced.apart, hadvanced.toHanded, Or.inr ⟨by omega, ?_⟩⟩
        exact hstop.resolve_left (by omega)
      · rw [if_pos hcopied, intOfCount_eq (count_lt hadvanced.room), Int.toNat_natCast]
        refine ⟨hadvanced.apart, hadvanced.toHanded, ?_⟩
        rcases hstop with hall | hheld
        · exact Or.inl (congrArg Nat.cast hall)
        · rcases Nat.lt_or_eq_of_le hle with hlt | hall
          · exact Or.inr ⟨Int.ofNat_lt.mpr hlt, hheld⟩
          · exact Or.inl (congrArg Nat.cast hall)

/-- A write has put into the file exactly the bytes that it reports, and reports fewer than
it was asked for only if it had no memory or was held up. -/
theorem sysfileWrite_delivers {areas rounds : Nat} {buffer : Bool} {base len : BitVec 64}
    (hvop : Stores vopWrite) (h : OpenForWriting st.files s node) (hmm : st.mm.Apart)
    (hareas : st.mm.mmapList.length < areas) (hrounds : len.toNat < rounds) :
    ∃ r t, sysfileWrite vopWrite areas rounds buffer s.val base len st = .ok (r, t) ∧
      Handed st s node base r.toNat t ∧
      (r = len.toNat ∨
        r < len.toNat ∧
          (buffer = false ∨ Held vopWrite st s node base len.toNat r.toNat t.writes)) := by
  obtain ⟨r, t, hrun, _, hhanded⟩ := (sysfileWrite_spec hvop h hmm hareas hrounds).ok
  exact ⟨r, t, hrun, hhanded⟩

/-- A file that takes everything. -/
def storeAll : VopWrite := fun _ _ pos bytes old =>
  ⟨0, bytes.length, overwrite old pos (fun i => bytes.getD i 0) bytes.length⟩

theorem storeAll_stores : Stores storeAll where
  used _ _ _ _ _ := le_refl _
  contents _ _ _ _ _ := rfl
  ret _ _ _ _ _ := le_refl 0

/-- Every file is open for writing; the user's bytes count up. -/
def writeStart : WriteState where
  files := {
    fdArray := fun s =>
      { status := .fdOpened, readable := false, writable := true, fd := s.val, pos := 0
        node := some 7, openCount := 1 }
    filesCount := 1
    calls := fun _ => [] }
  mm := adjacentAreas
  user a := a.setWidth 8
  contents _ _ := 0
  writes := 0

theorem writeStart_writable (s : Slot) : OpenForWriting writeStart.files s 7 :=
  ⟨⟨Nat.one_pos, rfl, rfl, rfl, Nat.one_pos⟩, rfl⟩

theorem sysfileWrite_delivers_across : ∃ r t,
    sysfileWrite storeAll 3 5001 true userSlot.val 0x400000 5000 writeStart = .ok (r, t) ∧
      Handed writeStart userSlot 7 0x400000 r.toNat t ∧
      (r = (5000 : BitVec 64).toNat ∨ r < (5000 : BitVec 64).toNat ∧
        (true = false ∨
          Held storeAll writeStart userSlot 7 0x400000 (5000 : BitVec 64).toNat
          r.toNat t.writes)) :=
  have hareas : writeStart.mm.mmapList.length < 3 := by decide
  have hrounds : (5000 : BitVec 64).toNat < 5001 := by decide
  sysfileWrite_delivers storeAll_stores (writeStart_writable userSlot) ⟨by decide, by decide,
    nofun⟩ hareas hrounds

end Ucore.Fs
