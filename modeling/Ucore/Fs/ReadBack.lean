import Ucore.Fs.SysWrite

/-!
# Reading back

A process that writes, seeks back and reads has its own bytes again. `sysfile_seek` is that
of `kern/fs/sysfile.c` in lab 8.
-/

namespace Ucore.Fs

open Machine Mm

/-- The rest of a call, where `answer` is what the inodes reply. -/
def finish (answer : Task → Reply) : Nat → Task → ReadM Int
  | _, .done ret _ => return ret
  | 0, _ => throw .runaway
  | rounds + 1, task => do
      let task ← onFiles (task.resume (answer task))
      finish answer rounds task

/-- `sysfile_seek`: at most `vop_fstat`, `vop_tryseek` and a `vfs_close`. -/
def sysfileSeek (answer : Task → Reply) (fd pos whence : Int) : ReadM Int := do
  let task ← onFiles (fileSeek fd pos whence)
  finish answer 3 task

/-- To `pos`, and then a read. -/
def seekAndRead (answer : Task → Reply) (vopRead : VopRead) (areas rounds : Nat)
    (buffer : Bool) (fd pos : Int) (base len : BitVec 64) : ReadM (Int × Int) := do
  let ret ← sysfileSeek answer fd pos LSEEK_SET
  let r ← sysfileRead vopRead areas rounds buffer fd base len
  return (ret, r)

/-- The process after its writes; `reads` counts the calls of `vop_read`. -/
def WriteState.reader (st : WriteState) (reads : Nat) : ReadState :=
    ⟨st.files, st.mm, st.user, reads⟩

variable {T : Files} {s : Slot} {node : Node} {st : WriteState} {vopWrite : VopWrite}

namespace OpenFile

variable {E : Failed → Prop} (h : OpenFile T s node)
include h

/-- `file_seek` up to `vop_tryseek`. -/
theorem ends_fileSeek {pos : Int} {Q : Task → Files → Prop} :
    Ends E (fileSeek s.val pos LSEEK_SET) T Q ↔
    Q (.operating s node (.seek pos))
    (T.setFile s { T.fdArray s with openCount := (T.fdArray s).openCount + 1 }) := by
  rw [fileSeek, ends_bind, h.ends_fd2file]
  simp only [ends_bind, fdArrayAcquire, ends_load, ends_check h.status, ends_store,
    Files.setFile_fdArray, if_true]
  rw [ends_useNode h.node, ends_pure]

/-- `file_seek` after `vop_tryseek` has accepted the position. -/
theorem ends_seeked {pos : Int} {reply : Reply} (hret : reply.ret = 0) {Q : Task → Files → Prop} :
    Ends E (fileOperated s (.seek pos) reply)
        (T.setFile s { T.fdArray s with openCount := (T.fdArray s).openCount + 1 }) Q ↔
      Q (.done 0 0) (T.setFile s { T.fdArray s with pos := pos }) := by
  simp only [fileOperated, ends_bind, ends_load, if_pos hret, ends_store,
    setFile_setFile, fileRelease]
  rw [ends_release]
  · rw [Files.setFile_fdArray, hret]
    exact Iff.rfl
  · rw [Files.setFile_fdArray]
    exact h.status
  · rw [Files.setFile_fdArray]
    exact Nat.succ_lt_succ h.openCount

end OpenFile

theorem ends_sysfileSeek {E : ReadStop → Prop} {st : ReadState} (h : OpenFile st.files s node)
    {answer : Task → Reply}
    {pos : Int} (hret : (answer (.operating s node (.seek pos))).ret = 0)
    {Q : Int → ReadState → Prop} :
    Ends E (sysfileSeek answer s.val pos LSEEK_SET) st Q ↔
      Q 0 { st with files := st.files.setFile s { st.files.fdArray s with pos := pos } } := by
  rw [sysfileSeek, ends_bind, ends_onFiles, h.ends_fileSeek, finish, ends_bind,
    ends_onFiles, Task.resume, h.ends_seeked hret]
  · exact Iff.rfl
  · rintro _ _ ⟨⟩

/-- What a process has written to a file it reads back from there, in whatever pieces. -/
theorem reads_back {vopRead : (Node → Int → Byte) → VopRead} {answer : Task → Reply}
    {areas rounds reads : Nat}
    {buffer buffer' : Bool} {base len base' len' : BitVec 64} (hwrites : Stores vopWrite)
    (hreads : ∀ contents, Consecutive contents (vopRead contents))
    (hseeks : ∀ pos, (answer (.operating s node (.seek pos))).ret = 0)
    (h : OpenForWriting st.files s node)
    (hreadable : (st.files.fdArray s).readable = true) (hmm : st.mm.Apart)
    (hareas : st.mm.mmapList.length < areas) (hrounds : len.toNat < rounds)
    (hrounds' : len'.toNat < rounds) :
    ∃ r t r' u, sysfileWrite vopWrite areas rounds buffer s.val base len st = .ok (r, t) ∧
      seekAndRead answer (vopRead t.contents) areas rounds buffer' s.val (st.files.fdArray s).pos
        base' len'
        (t.reader reads) = .ok ((0, r'), u) ∧
      (Writable t.mm base' (pieces (vopRead t.contents) node reads (st.files.fdArray s).pos 0
        len'.toNat) → ∀ i : Nat, i < r → i < r' →
          u.user (base' + BitVec.ofNat 64 i) = st.user (base + BitVec.ofNat 64 i)) := by
  have hwrite : Ends never (sysfileWrite vopWrite areas rounds buffer s.val base len) st _ :=
    sysfileWrite_spec hwrites h hmm hareas hrounds
  obtain ⟨r, t, hwritten, hapart, hhanded, _⟩ := hwrite.ok
  have hopen : OpenForWriting t.files s node := hhanded.files ▸ h.setPos _
  have hfirst : Readable st.files s node :=
    ⟨h.count, h.status, h.fd, hreadable, h.node, h.openCount⟩
  have hagain : Readable t.files s node := hhanded.files ▸ hfirst.setPos _
  have hareas' : t.mm.mmapList.length < areas := hhanded.areas ▸ hareas
  have hends : Ends never (seekAndRead answer (vopRead t.contents) areas rounds buffer' s.val
      (st.files.fdArray s).pos base' len') (t.reader reads) fun r' u => r'.1 = 0 ∧
        (ReadsDelivered (t.contents node) base' (st.files.fdArray s).pos (u.files.fdArray s).pos
          r'.2 u.user ↔ buffer' = false ∨
            Writable t.mm base' (pieces (vopRead t.contents) node reads (st.files.fdArray s).pos 0
              len'.toNat)) := by
    rw [seekAndRead, ends_bind, ends_sysfileSeek hopen.toOpenFile (hseeks _), ends_bind]
    apply (sysfileRead_spec (hreads t.contents) (hagain.setPos _) hapart hareas' hrounds').imp
    intro r' u hdelivered
    refine ⟨rfl, ?_⟩
    simp only [Files.setFile_fdArray] at hdelivered
    exact hdelivered
  obtain ⟨⟨ret, r'⟩, u, hread, hret, hdelivered⟩ := hends.ok
  obtain rfl : ret = 0 := hret
  refine ⟨r, t, r', u, hwritten, hread, fun hwritable i hi hi' => ?_⟩
  have hbytes := hdelivered.mpr (Or.inr hwritable)
  rw [ReadsDelivered, if_pos (by omega)] at hbytes
  have hplace : (st.files.fdArray s).pos ≤ (st.files.fdArray s).pos + i ∧
      (st.files.fdArray s).pos + i < (st.files.fdArray s).pos + r.toNat := by
    omega
  rw [hbytes.2 i hi', hhanded.contents, Function.update_self, WriteState.after,
    overwrite, if_pos hplace, add_sub_cancel_left, Int.toNat_natCast]

/-- A file that has all of its contents. -/
def readAll (contents : Node → Int → Byte) : VopRead := fun _ node pos len =>
  (0, (List.range len).map fun i : Nat => contents node (pos + i))

theorem readAll_consecutive (contents : Node → Int → Byte) :
    Consecutive contents (readAll contents) where
  length _ _ _ len := by simp [readAll]
  bytes k node pos len i b hget := by
    obtain ⟨_, hvalue⟩ := List.getElem?_eq_some_iff.mp hget
    simpa [readAll] using hvalue.symm
  ret _ _ _ _ := le_refl 0

/-- Every file is open for reading and writing. -/
def bothStart : WriteState :=
  { writeStart with
    files := {
      fdArray := fun s =>
        { status := .fdOpened, readable := true, writable := true, fd := s.val, pos := 0
          node := some 7, openCount := 1 }
      filesCount := 1
      calls := fun _ => [] } }

theorem bothStart_writable (s : Slot) : OpenForWriting bothStart.files s 7 :=
  ⟨⟨Nat.one_pos, rfl, rfl, rfl, Nat.one_pos⟩, rfl⟩

theorem reads_back_across : ∃ r t r' u,
    sysfileWrite storeAll 3 5001 true userSlot.val 0x400ff8 16 bothStart = .ok (r, t) ∧
      seekAndRead (fun _ => ⟨0, 7, 0⟩) (readAll t.contents) 3 5001 true userSlot.val 0 0x400000 5000
        (t.reader 0) = .ok ((0, r'), u) ∧
      (Writable t.mm 0x400000 (pieces (readAll t.contents) 7 0 0 0 (5000 : BitVec 64).toNat) →
        ∀ i : Nat, i < r → i < r' →
          u.user (0x400000 + BitVec.ofNat 64 i) = bothStart.user (0x400ff8 + BitVec.ofNat 64 i)) :=
  have hmm : bothStart.mm.Apart := ⟨by decide, by decide, nofun⟩
  have hareas : bothStart.mm.mmapList.length < 3 := by decide
  have hrounds : (16 : BitVec 64).toNat < 5001 := by decide
  have hrounds' : (5000 : BitVec 64).toNat < 5001 := by decide
  reads_back storeAll_stores readAll_consecutive (fun _ => rfl)
  (bothStart_writable userSlot) rfl hmm hareas hrounds
    hrounds'

end Ucore.Fs
