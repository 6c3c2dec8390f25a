import Ucore.Mm.Procs

/-!
# Who may write

`do_pgfault` takes every fault on a present page for one on a shared page and
maps the copy writable, whatever the area permits. Areas without `VM_WRITE` stay
free of writable pages as long as no fault is taken on a present page of theirs.
-/

namespace Ucore.Mm

open Mmu Machine

/-- No page of an area without `VM_WRITE` is mapped writable, in the address space of any process.
-/
def Procs.Confined (st : Procs) : Prop :=
  ∀ id mm vma v, st.mm id = some mm → vma ∈ mm.mmapList → vma.covers v → vma.writable = false →
    writable (leaf st.kern.mem mm.pgdir v) = false

theorem Procs.Inv.confined {role : Nat → Role} {st : Procs} (hinv : st.Inv role) :
    st.Confined := by
  intro id mm vma v hmm hvma hcovers hreadOnly
  have hok := (hinv.mms id mm hmm).1
  rcases hinv.entries id mm v hmm ((hok.areas vma hvma).user_page hcovers) with
    hzero | ⟨_, vma', hvma', hcovers', himp⟩
  · rw [hzero]
    rfl
  · obtain rfl := hok.unique hvma hvma' hcovers hcovers'
    rw [← Bool.not_eq_true]
    intro hwritable
    rw [himp hwritable] at hreadOnly
    cases hreadOnly

/-- The copy is writable. -/
theorem Copied.writable {role : Nat → Role} {s t : Kern} {pgdir v n : Nat}
    (h : Copied role s t pgdir v n) (hdir : role pgdir = .dir) (hv : v < userPages) :
    Mmu.writable (Mm.leaf t.mem pgdir v) = true := by
  rw [h.leaf pgdir v hdir hv, if_pos ⟨rfl, rfl⟩, writable_pteCreate]
  simp [writable_eq, PTE_W]

/-- A fault on a present page of an area without `VM_WRITE` leaves it writable. -/
theorem Procs.Inv.not_confined {role : Nat → Role} {al : Allocator} {st st' : Procs} {op : ProcOp}
    (hinv : st.Inv role) {vma : VmaStruct} (hfault : op.FaultsOnPresent st vma)
    (hreadOnly : vma.writable = false) (hstep : op.step al st = some st') : ¬ st'.Confined := by
  intro hconfined
  obtain ⟨id, mm, v, n, hmm, hvma, hcovers, _, hmm', hcopied⟩ := hinv.replaced hfault hstep
  have hv := ((hinv.mms id mm hmm).1.areas vma hvma).user_page hcovers
  have hself : st'.mm id = some { mm with mmapCache := some vma } := by
    rw [hmm', Function.update_self]
  have hnot := hconfined id _ vma v hself hvma hcovers hreadOnly
  exact Bool.noConfusion ((hcopied.writable (hinv.dir hmm) hv).symm.trans hnot)

/-- Page faults give no permission to write that the area does not, in any run
without faults on present pages of areas without `VM_WRITE`; and the first such
fault that returns does. -/
theorem pgfault_confined (al : Allocator) {st₀ st : Procs} (hinit : st₀.Initial)
    (hrun : RunsTo (fun st op => ProcOp.step al st op) (fun st op => op.Permitted st ∧
      ∀ vma, op.FaultsOnPresent st vma → vma.writable = true) st₀ st) :
    st.Confined ∧ ∀ op st', op.Permitted st → ProcOp.step al st op = some st' →
      (st'.Confined ↔ ∀ vma, op.FaultsOnPresent st vma → vma.writable = true) := by
  obtain ⟨role, hinv⟩ := hinit.run hrun
  refine ⟨hinv.confined, fun op st' hok hstep => ⟨fun hconfined vma hfault => ?_, fun hwrite => ?_⟩⟩
  · by_contra hno
    exact hinv.not_confined hfault (Bool.eq_false_iff.mpr hno) hstep hconfined
  · obtain ⟨role', hinv', _⟩ := hinv.next_of_step hok hwrite hstep
    exact hinv'.confined

/-- The first access to a page of a read-only area maps it, and not writable. -/
def touchReadOnly : List ProcOp :=
    [.create 1, .mmMap 1 0x200000 0x1000 VM_READ, .doPgfault 1 0 0x200000]

/-- The memory that `touchReadOnly` leaves. -/
theorem touchReadOnly_run : ∃ st mm, RunsTo (fun st op => ProcOp.step
      (.ofList [0x80500, 0x80501, 0x80502, 0x80503, 0x80504]) st op)
      (fun st op => op.firstTouch st = true)
      (bootProcs {0x80500, 0x80501, 0x80502, 0x80503, 0x80504}) st ∧ st.mm 1 = some mm ∧
    mm.mmapList = [⟨0x200000, 0x201000, VM_READ⟩] ∧
    valid (leaf st.kern.mem mm.pgdir 0x200) = true ∧
    ∃ st', (ProcOp.doPgfault 1 0 0x200000).step
      (.ofList [0x80500, 0x80501, 0x80502, 0x80503, 0x80504]) st = some st' := by
  have hfold : (touchReadOnly.foldlM (fun st op => if op.firstTouch st = true then
      ProcOp.step (.ofList [0x80500, 0x80501, 0x80502, 0x80503, 0x80504]) st op else none)
      (bootProcs {0x80500, 0x80501, 0x80502, 0x80503, 0x80504})).map (fun st =>
        (st.mm 1).map (fun mm => (mm.mmapList, valid (leaf st.kern.mem mm.pgdir 0x200),
          ((ProcOp.doPgfault 1 0 0x200000).step
            (.ofList [0x80500, 0x80501, 0x80502, 0x80503, 0x80504]) st).isSome))) =
      some (some ([⟨0x200000, 0x201000, VM_READ⟩], true, true)) := by
    decide
  obtain ⟨st, hst, hmm⟩ := Option.map_eq_some_iff.mp hfold
  obtain ⟨mm, hmm, hvalues⟩ := Option.map_eq_some_iff.mp hmm
  obtain ⟨hlist, hvalid, hnext⟩ := by simpa only [Prod.mk.injEq] using hvalues
  exact ⟨st, mm, RunsTo.of_foldlM hst, hmm, hlist, hvalid, Option.isSome_iff_exists.mp hnext⟩

/-- After the first access the page is mapped, and not writable. -/
theorem pgfault_confined_first : ∃ (st : Procs) (mm : MmStruct), st.mm 1 = some mm ∧
    valid (leaf st.kern.mem mm.pgdir 0x200) = true ∧
    writable (leaf st.kern.mem mm.pgdir 0x200) = false := by
  obtain ⟨st, mm, hrun, hmm, hlist, hvalid, _⟩ := touchReadOnly_run
  have hconfined := (pgfault_confined _ (bootProcs_initial (by decide))
    (hrun.mono fun st op hfirst => ⟨(ProcOp.of_firstTouch hfirst).1,
      fun vma hfault => absurd hfault ((ProcOp.of_firstTouch hfirst).2 vma)⟩)).1
  have hmem : (⟨0x200000, 0x201000, VM_READ⟩ : VmaStruct) ∈ mm.mmapList := by simp [hlist]
  exact ⟨st, mm, hmm, hvalid, hconfined 1 mm _ 0x200 hmm hmem (by decide) (by decide)⟩

/-- A second fault on the page makes it writable. -/
theorem pgfault_escalates : ¬ ∀ (al : Allocator) (st₀ st : Procs), st₀.Initial →
    RunsTo (fun st op => ProcOp.step al st op) (fun st op => op.Permitted st) st₀ st →
    st.Confined := by
  intro hclaim
  obtain ⟨st, mm, hrun, hmm, hlist, hvalid, st', hstep⟩ := touchReadOnly_run
  have hinit : (bootProcs {0x80500, 0x80501, 0x80502, 0x80503, 0x80504}).Initial :=
    bootProcs_initial (by decide)
  obtain ⟨role, hinv⟩ := hinit.run (hrun.mono fun st op hfirst => ⟨(ProcOp.of_firstTouch hfirst).1,
    fun vma hfault => absurd hfault ((ProcOp.of_firstTouch hfirst).2 vma)⟩)
  have hmem : (⟨0x200000, 0x201000, VM_READ⟩ : VmaStruct) ∈ mm.mmapList := by simp [hlist]
  have hfault : (ProcOp.doPgfault 1 0 0x200000).FaultsOnPresent st ⟨0x200000, 0x201000, VM_READ⟩ :=
    ⟨1, 0, 0x200000, mm, rfl, hmm, hmem, by decide, hvalid⟩
  have hpermitted : RunsTo (fun st op => ProcOp.step
      (.ofList [0x80500, 0x80501, 0x80502, 0x80503, 0x80504]) st op)
      (fun st op => op.Permitted st) _ st :=
        hrun.mono fun st op hfirst => (ProcOp.of_firstTouch hfirst).1
  exact hinv.not_confined hfault (by decide) hstep
    (hclaim _ _ _ hinit (hpermitted.tail (i := .doPgfault 1 0 0x200000) trivial hstep))

end Ucore.Mm
