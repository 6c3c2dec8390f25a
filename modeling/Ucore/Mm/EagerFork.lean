import Ucore.Mm.ForkEquiv

/-!
# Eager fork copies exactly

What `dup_mmap` leaves behind, read off the two page tables: the child has the
areas of its parent, maps the same pages with the same rights and the same bytes,
and every page of it is a frame that nothing used before.
-/

namespace Ucore.Mm

open Mmu Machine Finset

variable {E : Panic → Prop} {role role' : Nat → Role} {s t : Kern} {al : Allocator}
  {toMm fromMm mm : MmStruct}

/-- A parent whose present pages lie inside its areas, and a child that has
neither areas nor mappings. -/
structure Forkable (role : Nat → Role) (s : Kern) (toMm fromMm : MmStruct) : Prop where
  paged : Paged role s
  toDir : role toMm.pgdir = .dir
  fromDir : role fromMm.pgdir = .dir
  distinct : toMm.pgdir ≠ fromMm.pgdir
  toOk : toMm.Ok
  fromOk : fromMm.Ok
  new : toMm.mmapList = []
  empty : ∀ v, v < userPages → valid (leaf s.mem toMm.pgdir v) = false
  inside : ∀ v, v < userPages → valid (leaf s.mem fromMm.pgdir v) = true →
    ∃ vma ∈ fromMm.mmapList, vma.covers v

/-- The frames of an address space: its page tables and the pages it maps. -/
def FrameOf (role : Nat → Role) (s : Kern) (pgdir f : Nat) : Prop :=
  (role f).TableOf f pgdir ∨
    ∃ v, v < userPages ∧ valid (leaf s.mem pgdir v) = true ∧ frame (leaf s.mem pgdir v) = f

/-- In `t` the address space `mm` is an exact copy of what `fromMm` is in `s`, and
`fromMm` is as it was. -/
structure ExactCopy (role : Nat → Role) (s t : Kern) (mm fromMm : MmStruct) : Prop where
  areas : mm.mmapList = fromMm.mmapList
  mapped : ∀ v, v < userPages →
    (valid (leaf t.mem mm.pgdir v) = true ↔ valid (leaf s.mem fromMm.pgdir v) = true)
  perm : ∀ v, v < userPages → valid (leaf s.mem fromMm.pgdir v) = true →
    leaf t.mem mm.pgdir v &&& PTE_USER = leaf s.mem fromMm.pgdir v &&& PTE_USER
  bytes : ∀ addr, ppn addr < userPages → valid (leaf s.mem fromMm.pgdir (ppn addr)) = true →
    contents t.mem mm.pgdir addr = contents s.mem fromMm.pgdir addr
  apart : ∀ v v', v < userPages → v' < userPages → valid (leaf t.mem mm.pgdir v) = true →
    valid (leaf t.mem mm.pgdir v') = true →
    frame (leaf t.mem mm.pgdir v) = frame (leaf t.mem mm.pgdir v') → v = v'
  fresh : ∀ v, v < userPages → valid (leaf t.mem mm.pgdir v) = true →
    frame (leaf t.mem mm.pgdir v) ∈ s.free ∧
      ¬ FrameOf role s fromMm.pgdir (frame (leaf t.mem mm.pgdir v))
  table : ∀ v, v < userPages → leaf t.mem fromMm.pgdir v = leaf s.mem fromMm.pgdir v
  memory : ∀ f, FrameOf role s fromMm.pgdir f → t.mem f = s.mem f

namespace Forkable

variable (h : Forkable role s toMm fromMm)

include h

/-- The frames of the parent are in use, and none is a table of the child. -/
theorem frameOf {f : Nat} (hf : FrameOf role s fromMm.pgdir f) :
    role f ≠ .free ∧ ¬ (role f).TableOf f toMm.pgdir := by
  rcases hf with htable | ⟨v, hv, hvalid, rfl⟩
  · cases hrole : role f with
    | dir | mid | tab =>
        rw [hrole] at htable
        exact ⟨by simp, fun hto => h.distinct (hto.symm.trans htable)⟩
    | _ =>
        rw [hrole] at htable
        exact htable.elim
  · rw [h.paged.tree.data h.fromDir hv hvalid]
    exact ⟨by simp, id⟩

/-- What has been duplicated is an exact copy. -/
theorem exact (hcopied : AreasCopied toMm mm fromMm.mmapList)
    (hareas : mm.mmapList = fromMm.mmapList)
    (hdup : Duplicated role role' s t toMm.pgdir fromMm.pgdir fun v =>
      ∃ vma ∈ fromMm.mmapList, vma.covers v) : ExactCopy role s t mm fromMm := by
  have hmapped : ∀ v, v < userPages → (valid (leaf t.mem mm.pgdir v) = true ↔
      valid (leaf s.mem fromMm.pgdir v) = true) := by
    intro v hv
    rw [hcopied.pgdir]
    refine ⟨fun hvalid => ?_, fun hvalid => hdup.valid v hv (h.inside v hv hvalid) hvalid⟩
    -- an entry that is not a copy is the one that the new child had
    rw [← Bool.not_eq_false]
    intro hinvalid
    rw [hdup.rest toMm.pgdir v h.toDir hv fun _ hsource _ => Bool.false_ne_true
      (hinvalid.symm.trans hsource), h.empty v hv] at hvalid
    cases hvalid
  have hfree : ∀ v, v < userPages → valid (leaf t.mem mm.pgdir v) = true →
      role (frame (leaf t.mem mm.pgdir v)) = .free := by
    intro v hv hvalid
    have hsource := (hmapped v hv).mp hvalid
    rw [hcopied.pgdir]
    exact (hdup.fresh v hv (h.inside v hv hsource) hsource).1
  refine ⟨hareas, hmapped, fun v hv hvalid => ?_, fun addr hv hvalid => ?_,
    fun v v' hv hv' hvalid hvalid' heq => ?_, fun v hv hvalid => ⟨?_, fun hframe => ?_⟩,
    fun v hv => ?_, fun f hf => ?_⟩
  · rw [hcopied.pgdir]
    exact hdup.perm v hv (h.inside v hv hvalid) hvalid
  · unfold contents
    rw [hcopied.pgdir, hdup.copy _ hv (h.inside _ hv hvalid) hvalid]
  · have hsource := (hmapped v hv).mp hvalid
    have hsource' := (hmapped v' hv').mp hvalid'
    rw [hcopied.pgdir] at heq
    exact hdup.apart v v' hv hv' (h.inside v hv hsource) (h.inside v' hv' hsource') hsource hsource'
      heq
  · exact (h.paged.free _).mp (hfree v hv hvalid)
  · exact (h.frameOf hframe).1 (hfree v hv hvalid)
  · exact hdup.rest _ v h.fromDir hv fun _ _ heq => h.distinct heq.symm
  · exact hdup.still f (h.frameOf hf).1 (h.frameOf hf).2

end Forkable

/-- The assertion on the frame that `copy_range` asks for. -/
def outOfFrames (e : Panic) : Prop := e = .nullPage

/-- `dup_mmap` runs out of memory or makes an exact copy. With three free frames
for each page the parent maps it does not run out of memory. -/
theorem dupMmap_exact (al : Allocator) (h : Forkable role s toMm fromMm) :
    (Ends outOfFrames (dupMmap al toMm fromMm) s fun r t =>
      r.1 = -E_NO_MEM ∨ r.1 = 0 ∧ r.2.pgdir = toMm.pgdir ∧ ExactCopy role s t r.2 fromMm) ∧
    ∀ pages : Finset Nat,
      (∀ v, v < userPages → valid (leaf s.mem fromMm.pgdir v) = true → v ∈ pages) →
      Plenty al (3 * pages.card) s → Ends never (dupMmap al toMm fromMm) s fun r t =>
        r.1 = 0 ∧ r.2.pgdir = toMm.pgdir ∧ ExactCopy role s t r.2 fromMm := by
  constructor
  · have hnull : outOfFrames .nullPage := rfl
    apply (dupMmap_spec (Or.inl hnull) h.new h.toOk h.fromOk h.paged h.toDir h.fromDir h.distinct
      h.empty fun v hv _ => mem_range.mpr hv).imp
    rintro r t ⟨hmemory, hdone⟩
    by_cases hret : r.1 = 0
    · obtain ⟨hcopied, hareas, _, role', _, _, hdup⟩ := hdone hret
      have hlist := hareas.resolve_left Panic.noConfusion
      exact Or.inr ⟨hret, hcopied.pgdir, h.exact hcopied hlist hdup⟩
    · exact Or.inl (hmemory hret).1
  · intro pages hpages hplenty
    apply (dupMmap_spec (Or.inr hplenty) h.new h.toOk h.fromOk h.paged h.toDir h.fromDir h.distinct
      h.empty hpages).imp
    rintro r t ⟨hmemory, hdone⟩
    have hret : r.1 = 0 := by
      by_contra hret
      exact (hmemory hret).2 hplenty
    obtain ⟨hcopied, hareas, _, role', _, _, hdup⟩ := hdone hret
    exact ⟨hret, hcopied.pgdir, h.exact hcopied (hareas.resolve_left id) hdup⟩

/-- Two address spaces of a reachable state, the second of which is new. -/
theorem Procs.Inv.forkable {st : Procs} (hinv : st.Inv role) {id id' : Nat}
    (hid : st.mm id = some fromMm) (hid' : st.mm id' = some toMm) (hne : id ≠ id')
    (hnew : toMm.mmapList = []) : Forkable role st.kern toMm fromMm where
  paged := hinv.paged
  toDir := hinv.dir hid'
  fromDir := hinv.dir hid
  distinct := fun heq => hne (hinv.distinct _ _ _ _ hid hid' heq.symm)
  toOk := (hinv.mms _ _ hid').1
  fromOk := (hinv.mms _ _ hid).1
  new := hnew
  empty := fun v hv => by
    rcases hinv.entries id' toMm v hid' hv with hzero | ⟨_, vma, hvma, _⟩
    · rw [hzero, valid_zero]
    · rw [hnew] at hvma
      cases hvma
  inside := fun v hv hvalid => by
    rcases hinv.entries id fromMm v hid hv with hzero | ⟨_, vma, hvma, hcovers, _⟩
    · rw [hzero, valid_zero] at hvalid
      cases hvalid
    · exact ⟨vma, hvma, hcovers⟩

/-- A process with one page, and a new one. -/
def oneAndNew : List ProcOp := touchOne 0x1000 ++ [.create 2]

/-- A copy of the page is made. -/
theorem dupMmap_exact_one : ∃ role s toMm fromMm, Forkable role s toMm fromMm ∧
    valid (leaf s.mem fromMm.pgdir 0x200) = true ∧
    Ends never (dupMmap .lowest toMm fromMm) s fun r t =>
      r.1 = 0 ∧ r.2.pgdir = toMm.pgdir ∧ ExactCopy role s t r.2 fromMm := by
  have hfold : (oneAndNew.foldlM (fun st op => if op.firstTouch st = true then
      ProcOp.step .lowest st op else none) (bootProcs exampleFrames.toFinset)).map (fun st =>
        ((st.mm 1).map fun mm => (mm.mmapList, valid (leaf st.kern.mem mm.pgdir 0x200)),
          (st.mm 2).map MmStruct.mmapList, decide (3 ≤ st.kern.free.card))) =
      some (some ([⟨0x200000, 0x201000, VM_READ ||| VM_WRITE⟩], true), some [], true) := by
    decide
  obtain ⟨st, hst, hvalues⟩ := Option.map_eq_some_iff.mp hfold
  simp only [Prod.mk.injEq, Option.map_eq_some_iff, decide_eq_true_eq] at hvalues
  obtain ⟨⟨mm, hmm, hlist, hvalid⟩, ⟨child, hchild, hnew⟩, hroom⟩ := hvalues
  have hinit : (bootProcs exampleFrames.toFinset).Initial := bootProcs_initial (by decide)
  obtain ⟨role, hinv⟩ := hinit.run ((RunsTo.of_foldlM hst).mono fun st op hfirst =>
    ⟨(ProcOp.of_firstTouch hfirst).1,
      fun vma hfault => absurd hfault ((ProcOp.of_firstTouch hfirst).2 vma)⟩)
  have hforkable := hinv.forkable hmm hchild (by decide) hnew
  refine ⟨role, st.kern, child, mm, hforkable, hvalid,
    (dupMmap_exact .lowest hforkable).2 {0x200} (fun v hv hvalid => ?_)
      ⟨Allocator.lowest_generous, hroom⟩⟩
  obtain ⟨vma, hvma, hcovers⟩ := hforkable.inside v hv hvalid
  rw [hlist, List.mem_singleton] at hvma
  subst hvma
  unfold VmaStruct.covers VmaStruct.contains PGSIZE at hcovers
  rw [mem_singleton]
  simp only at hcovers
  omega

end Ucore.Mm
