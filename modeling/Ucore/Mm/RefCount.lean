import Mathlib.Data.Set.Card
import Ucore.Mm.PageMap
import Ucore.Mm.Procs

/-!
# Reference counts

The count of a page is the number of its mappings, over all address spaces, as
long as no fault is taken on a present page: `cow_pgfault` gives the page up
without giving up its reference. Page tables are told from other pages by what
they have been used for since the manager handed them out; `exit_range` does not
give all of them back.
-/

namespace Ucore.Mm

open Mmu Machine

/-- The address spaces, and the frames that have been page tables since they
were allocated. -/
structure Tracked where
  procs : Procs
  tables : Set Nat

/-- A frame is a page table of some address space. -/
def Procs.IsTable (st : Procs) (f : Nat) : Prop :=
  ∃ id mm, st.mm id = some mm ∧ ∃ n : Node, n.page st.kern.mem mm.pgdir = some f

def Tracked.step (al : Allocator) (st : Tracked) (op : ProcOp) : Option Tracked :=
  (op.step al st.procs).map fun procs =>
    ⟨procs, { f | (f ∈ st.tables ∨ procs.IsTable f) ∧ f ∉ procs.kern.free }⟩

/-- The page directories and page numbers of user addresses whose entry maps a frame. -/
def Procs.mapped (st : Procs) (f : Nat) : Set (Nat × Nat) :=
  { p | p.2 < userPages ∧ (∃ id mm, st.mm id = some mm ∧ mm.pgdir = p.1) ∧
    valid (leaf st.kern.mem p.1 p.2) = true ∧ frame (leaf st.kern.mem p.1 p.2) = f }

/-- The counts are right, and of the frames `pages` of the manager exactly those
that are mapped are in use. -/
structure Tracked.CountsExact (pages : Finset Nat) (st : Tracked) : Prop where
  finite : ∀ f, (st.procs.mapped f).Finite
  ref : ∀ f, f ∉ st.tables → st.procs.kern.ref f = (st.procs.mapped f).ncard
  free : ∀ f ∈ pages, f ∉ st.tables → (f ∈ st.procs.kern.free ↔ st.procs.mapped f = ∅)

/-- The uses of the frames agree with what has been a page table. Frames of the
manager that are neither used for data nor free nor tables have been tables. -/
structure Tracked.Inv (pages : Finset Nat) (role : Nat → Role) (st : Tracked) : Prop where
  procs : st.procs.Inv role
  exact : Exact role st.procs.kern
  table : ∀ f, (role f).isTable = true → f ∈ st.tables
  data : ∀ f, role f = .data → f ∉ st.tables
  free : ∀ f, role f = .free → f ∉ st.tables
  other : ∀ f, role f = .other → f ∈ st.tables ∨ f ∉ pages
  unref : ∀ f, role f = .other → f ∉ st.tables → st.procs.kern.ref f = 0

section

variable {role role' : Nat → Role} {pages : Finset Nat} {al : Allocator} {st st' : Tracked}
  {op : ProcOp}

theorem Procs.mapped_eq {st : Procs} (hpaged : Paged role st.kern)
    (hdirs : ∀ f, role f = .dir ↔ ∃ id mm, st.mm id = some mm ∧ mm.pgdir = f) (f : Nat) :
    st.mapped f = ↑(mappings role st.kern.mem f) := by
  ext p
  rw [Finset.mem_coe, mem_mappings, hdirs]
  constructor
  · rintro ⟨hv, hdir, hmaps⟩
    exact ⟨hpaged.bound p.1 (by simp [(hdirs p.1).mpr hdir]), hv, hdir, hmaps⟩
  · rintro ⟨_, hv, hdir, hmaps⟩
    exact ⟨hv, hdir, hmaps⟩

theorem Procs.isTable_iff {st : Procs} (hpaged : Paged role st.kern)
    (hdirs : ∀ f, role f = .dir ↔ ∃ id mm, st.mm id = some mm ∧ mm.pgdir = f) (f : Nat) :
    st.IsTable f ↔ (role f).isTable = true := by
  constructor
  · rintro ⟨id, mm, hmm, n, hn⟩
    rw [hpaged.tree.node ((hdirs _).mpr ⟨id, mm, hmm, rfl⟩) hn]
    exact n.isTable_role _
  · intro htable
    obtain ⟨pgdir, hdir, hplace⟩ := hpaged.linked.place htable
    obtain ⟨id, mm, hmm, rfl⟩ := (hdirs pgdir).mp hdir
    exact ⟨id, mm, hmm, hplace⟩

theorem Tracked.Inv.countsExact (hinv : st.Inv pages role) : st.CountsExact pages := by
  have hpaged := hinv.procs.paged
  refine ⟨fun f => ?_, fun f hf => ?_, fun f hf hnot => ?_⟩
  · rw [Procs.mapped_eq hpaged hinv.procs.dirs]
    exact Finset.finite_toSet _
  · rw [Procs.mapped_eq hpaged hinv.procs.dirs, Set.ncard_coe_finset]
    cases hrole : role f with
    | data =>
        have hzero := (hinv.exact f hrole).1
        unfold excess at hzero
        omega
    | free =>
        rw [hpaged.unref f ((hpaged.free f).mp hrole), hpaged.unmapped (by simp [hrole])]
        rfl
    | other =>
        rw [hinv.unref f hrole hf, hpaged.unmapped (by simp [hrole])]
        rfl
    | _ => exact absurd (hinv.table f (by rw [hrole]; rfl)) hf
  · rw [Procs.mapped_eq hpaged hinv.procs.dirs, Finset.coe_eq_empty, ← hpaged.free]
    cases hrole : role f with
    | data =>
        obtain ⟨hzero, hlive⟩ := hinv.exact f hrole
        refine iff_of_false Role.noConfusion fun hempty => ?_
        rw [excess, hempty, Finset.card_empty] at hzero
        omega
    | free => exact iff_of_true rfl (hpaged.unmapped (by simp [hrole]))
    | other => exact absurd hf ((hinv.other f hrole).resolve_left hnot)
    | _ => exact absurd (hinv.table f (by rw [hrole]; rfl)) hnot

/-- Every step without a fault on a present page keeps the counts exact. -/
theorem Tracked.Inv.step (hinv : st.Inv pages role) (hok : op.Permitted st.procs)
    (hfault : ∀ vma, ¬ op.FaultsOnPresent st.procs vma) (hstep : st.step al op = some st') :
    ∃ role', st'.Inv pages role' := by
  obtain ⟨procs, hprocs, rfl⟩ := Option.map_eq_some_iff.mp hstep
  obtain ⟨role', hinv', htransition, hexact⟩ :=
    hinv.procs.next_of_step hok (fun vma h => absurd h (hfault vma)) hprocs
  have hfree := hinv'.paged.free
  have htables := Procs.isTable_iff hinv'.paged hinv'.dirs
  refine ⟨role', hinv', hexact hfault hinv.exact, fun f hf => ?_, fun f hf => ?_, fun f hf => ?_,
    fun f hf => ?_, fun f hf hnot => ?_⟩
  · refine ⟨Or.inr ((htables f).mpr hf), fun hin => ?_⟩
    rw [(hfree f).mpr hin] at hf
    cases hf
  · rintro ⟨htable | htable, _⟩
    · rcases htransition.data f hf with hdata | hfree
      · exact hinv.data f hdata htable
      · exact hinv.free f hfree htable
    · rw [htables, hf] at htable
      cases htable
  · exact fun h => h.2 ((hfree f).mp hf)
  · have hused : f ∉ procs.kern.free := by
      rw [← hfree, hf]
      exact Role.noConfusion
    rcases htransition.other f hf with hother | htable
    · exact (hinv.other f hother).imp_left fun h => ⟨Or.inl h, hused⟩
    · exact Or.inl ⟨Or.inl (hinv.table f htable), hused⟩
  · have hused : f ∉ procs.kern.free := by
      rw [← hfree, hf]
      exact Role.noConfusion
    rcases htransition.other f hf with hother | htable
    · show procs.kern.ref f = 0
      rw [(htransition.rest f hother).2]
      exact hinv.unref f hother fun h => hnot ⟨Or.inl h, hused⟩
    · exact absurd ⟨Or.inl (hinv.table f htable), hused⟩ hnot

/-- A fault on a present page leaves its count one too high. -/
theorem Tracked.Inv.not_countsExact (hinv : st.Inv pages role) {vma : VmaStruct}
    (hfault : op.FaultsOnPresent st.procs vma) (hstep : st.step al op = some st') :
    ¬ st'.CountsExact pages := by
  intro hexact
  obtain ⟨procs, hprocs, rfl⟩ := Option.map_eq_some_iff.mp hstep
  obtain ⟨id, mm, v, n, hmm, hvma, hcovers, hvalid, hmm', hcopied⟩ :=
    hinv.procs.replaced hfault hprocs
  have hdir := hinv.procs.dir hmm
  have hv := ((hinv.procs.mms id mm hmm).1.areas vma hvma).user_page hcovers
  have hdirs : ∀ f, Function.update role n .data f = .dir ↔
      ∃ id mm, procs.mm id = some mm ∧ mm.pgdir = f := by
    intro f
    rw [dir_data hcopied.fresh, hinv.procs.dirs, hmm']
    exact (@Procs.Inv.exists_pgdir_update id mm { mm with mmapCache := some vma } _ hmm rfl f).symm
  -- the page that has been replaced
  have hdata := hinv.procs.paged.tree.data hdir hv hvalid
  generalize hf : frame (leaf st.procs.kern.mem mm.pgdir v) = f at hdata
  have hfn : f ≠ n := by
    rintro rfl
    rw [hcopied.fresh] at hdata
    cases hdata
  have hnot : f ∉ { f | (f ∈ st.tables ∨ procs.IsTable f) ∧ f ∉ procs.kern.free } := by
    rintro ⟨htable | htable, _⟩
    · exact hinv.data f hdata htable
    · rw [Procs.isTable_iff hcopied.paged hdirs, Function.update_of_ne hfn, hdata] at htable
      cases htable
  have hcount := hexact.ref f hnot
  have hexcess := hcopied.excess hinv.procs.paged hdir hv hvalid f
  rw [if_pos hf, (hinv.exact f hdata).1, excess] at hexcess
  rw [Procs.mapped_eq hcopied.paged hdirs, Set.ncard_coe_finset] at hcount
  simp only at hcount
  omega

theorem Procs.Initial.tracked {st₀ : Procs} (hinit : st₀.Initial) :
    Tracked.Inv st₀.kern.free (bootRole st₀.kern) ⟨st₀, ∅⟩ := by
  refine ⟨hinit.inv, fun f hf => absurd hf (bootRole_ne_data _ f), fun f hf => ?_, fun f _ => ?_,
    fun f _ => ?_, fun f hf => ?_, fun f _ _ => hinit.refs f⟩
  · rw [bootRole_plain] at hf
    cases hf
  · exact Set.notMem_empty f
  · exact Set.notMem_empty f
  · right
    rw [← bootRole_free, hf]
    exact Role.noConfusion

theorem Tracked.inv_of_run {st₀ : Procs} (hinit : st₀.Initial)
    (hrun : RunsTo (fun st op => Tracked.step al st op) (fun st op => op.Permitted st.procs ∧
      ∀ vma, ¬ op.FaultsOnPresent st.procs vma) ⟨st₀, ∅⟩ st) :
    ∃ role, st.Inv st₀.kern.free role := by
  apply @RunsTo.invariant _ _ _ _ _ _ (fun st => ∃ role, Tracked.Inv st₀.kern.free role st) hrun
    ⟨_, hinit.tracked⟩
  rintro t op u ⟨role, hinv⟩ ⟨hok, hfault⟩ hstep
  exact hinv.step hok hfault hstep

end

/-- The counts of all pages that are not page tables are exact, and pages go back
to the manager with their last mapping, in any run without faults on present
pages; and the first such fault that returns leaves a count that is too high. -/
theorem refCount_exact (al : Allocator) {st₀ : Procs} {st : Tracked} (hinit : st₀.Initial)
    (hrun : RunsTo (fun st op => Tracked.step al st op) (fun st op => op.Permitted st.procs ∧
      ∀ vma, ¬ op.FaultsOnPresent st.procs vma) ⟨st₀, ∅⟩ st) :
    st.CountsExact st₀.kern.free ∧ ∀ op st', op.Permitted st.procs →
      Tracked.step al st op = some st' →
      (st'.CountsExact st₀.kern.free ↔ ∀ vma, ¬ op.FaultsOnPresent st.procs vma) := by
  obtain ⟨role, hinv⟩ := Tracked.inv_of_run hinit hrun
  refine ⟨hinv.countsExact, fun op st' hok hstep => ⟨fun hexact vma hfault => ?_, fun hfault => ?_⟩⟩
  · exact hinv.not_countsExact hfault hstep hexact
  · obtain ⟨role', hinv'⟩ := hinv.step hok hfault hstep
    exact hinv'.countsExact

/-- A process maps a page and forks. -/
def touchAndFork : List ProcOp :=
  [.create 1, .mmMap 1 0x200000 0x1000 (VM_READ ||| VM_WRITE), .doPgfault 1 0 0x200000, .create 2,
    .cowCopyMmap 2 1]

/-- The memory that `touchAndFork` leaves. -/
theorem touchAndFork_run : ∃ st mm, RunsTo (fun st op => Tracked.step
      (.ofList [0x80500, 0x80501, 0x80502, 0x80503, 0x80504, 0x80505, 0x80506, 0x80507]) st op)
      (fun st op => op.firstTouch st.procs = true)
      ⟨bootProcs {0x80500, 0x80501, 0x80502, 0x80503, 0x80504, 0x80505, 0x80506, 0x80507}, ∅⟩ st ∧
    st.procs.mm 2 = some mm ∧
    mm.mmapList = [⟨0x200000, 0x201000, VM_READ ||| VM_WRITE⟩] ∧
    valid (leaf st.procs.kern.mem mm.pgdir 0x200) = true ∧
    ∃ st', Tracked.step
      (.ofList [0x80500, 0x80501, 0x80502, 0x80503, 0x80504, 0x80505, 0x80506, 0x80507]) st
      (.doPgfault 2 0 0x200000) = some st' := by
  have hfold : (touchAndFork.foldlM (fun st op => if op.firstTouch st.procs = true then
      Tracked.step (.ofList [0x80500, 0x80501, 0x80502, 0x80503, 0x80504, 0x80505,
        0x80506, 0x80507])
        st op else none)
      ⟨bootProcs {0x80500, 0x80501, 0x80502, 0x80503, 0x80504, 0x80505, 0x80506, 0x80507}, ∅⟩).map
        (fun st => (st.procs.mm 2).map (fun mm =>
          (mm.mmapList, valid (leaf st.procs.kern.mem mm.pgdir 0x200),
            (Tracked.step (.ofList [0x80500, 0x80501, 0x80502, 0x80503, 0x80504, 0x80505, 0x80506,
              0x80507]) st (.doPgfault 2 0 0x200000)).isSome))) =
      some (some ([⟨0x200000, 0x201000, VM_READ ||| VM_WRITE⟩], true, true)) := by
    decide +kernel
  obtain ⟨st, hst, hmm⟩ := Option.map_eq_some_iff.mp hfold
  obtain ⟨mm, hmm, hvalues⟩ := Option.map_eq_some_iff.mp hmm
  obtain ⟨hlist, hvalid, hnext⟩ := by simpa only [Prod.mk.injEq] using hvalues
  exact ⟨st, mm, RunsTo.of_foldlM hst, hmm, hlist, hvalid, Option.isSome_iff_exists.mp hnext⟩

/-- After the fork both processes map the page, and its count is 2. -/
theorem refCount_exact_fork : ∃ st : Tracked,
    st.CountsExact {0x80500, 0x80501, 0x80502, 0x80503, 0x80504, 0x80505, 0x80506, 0x80507} ∧
    ∃ mm, st.procs.mm 2 = some mm ∧ valid (leaf st.procs.kern.mem mm.pgdir 0x200) = true := by
  obtain ⟨st, mm, hrun, hmm, _, hvalid, _⟩ := touchAndFork_run
  have hexact := (refCount_exact _ (bootProcs_initial (by decide))
    (hrun.mono fun st op hfirst => ProcOp.of_firstTouch hfirst)).1
  exact ⟨st, hexact, mm, hmm, hvalid⟩

/-- When the child writes to the page, the count of the page stays 2 with one
mapping left. -/
theorem refCount_leaks : ¬ ∀ (al : Allocator) (st₀ : Procs) (st : Tracked), st₀.Initial →
    RunsTo (fun st op => Tracked.step al st op) (fun st op => op.Permitted st.procs) ⟨st₀, ∅⟩ st →
    st.CountsExact st₀.kern.free := by
  intro hclaim
  obtain ⟨st, mm, hrun, hmm, hlist, hvalid, st', hstep⟩ := touchAndFork_run
  have hinit : (bootProcs {0x80500, 0x80501, 0x80502, 0x80503, 0x80504, 0x80505, 0x80506,
      0x80507}).Initial := bootProcs_initial (by decide)
  obtain ⟨role, hinv⟩ := Tracked.inv_of_run hinit
    (hrun.mono fun st op hfirst => ProcOp.of_firstTouch hfirst)
  have hmem : (⟨0x200000, 0x201000, VM_READ ||| VM_WRITE⟩ : VmaStruct) ∈ mm.mmapList := by
    simp [hlist]
  have hfault : (ProcOp.doPgfault 2 0 0x200000).FaultsOnPresent st.procs
      ⟨0x200000, 0x201000, VM_READ ||| VM_WRITE⟩ :=
    ⟨2, 0, 0x200000, mm, rfl, hmm, hmem, by decide, hvalid⟩
  have hpermitted : RunsTo (fun st op => Tracked.step (.ofList [0x80500, 0x80501, 0x80502, 0x80503,
      0x80504, 0x80505, 0x80506, 0x80507]) st op) (fun st op => op.Permitted st.procs) _ st :=
    hrun.mono fun st op hfirst => (ProcOp.of_firstTouch hfirst).1
  exact hinv.not_countsExact hfault hstep
    (hclaim _ _ _ hinit (hpermitted.tail (i := .doPgfault 2 0 0x200000) trivial hstep))

end Ucore.Mm
