import Mathlib.Order.Lattice.Nat
import Ucore.Mm.EagerCount
import Ucore.Mm.Resolve
import Ucore.Process.Lifecycle

/-!
# Fork and its clean-up

`do_fork` of lab 5 over the processes and the memory together: what is allocated on
the way to a new process, and what each of the labels behind `fork_out` gives back.
-/

namespace Ucore.Fork

open Machine

/-- Where `do_fork` stops: in the memory system or among the processes. -/
inductive Stop
  | mm (e : Mm.Panic)
  | proc (e : Process.Panic)
  deriving DecidableEq, Repr

/-- The memory, the address spaces by the frames of their page directories, the
processes, and the fields `mm` and `kstack` of a `proc_struct`. -/
structure Os where
  kern : Mm.Kern
  mms : Nat → Option Mm.MmStruct
  procs : Process.Kernel
  mm : Nat → Option Nat
  kstack : Nat → Option Nat

abbrev OsM := Machine Stop Os

def KSTACKPAGE : Nat := 2

/-- The allocators: for single pages and for `KSTACKPAGE` pages in a row, and the
addresses that `kmalloc` returns for a `proc_struct`. -/
structure Memory where
  al : Mm.Allocator
  stack : Nat → Finset Nat → Option Nat
  sound : ∀ tick free page, stack tick free = some page → ∀ i < KSTACKPAGE, page + i ∈ free
  place : Finset Nat → Nat
  fresh : ∀ heap, place heap ∉ heap

section

variable {ε σ α : Type} {E : Stop → Prop} {s : Os}

/-- A call of the memory system. -/
def onKern (x : Mm.KernM α) : OsM α := fun s =>
  match x s.kern with
  | .ok (a, t) => .ok (a, { s with kern := t })
  | .error e => .error (.mm e)

/-- A call on the processes. -/
def onProcs (x : Process.KernM α) : OsM α := fun s =>
  match x s.procs with
  | .ok (a, t) => .ok (a, { s with procs := t })
  | .error e => .error (.proc e)

theorem ends_onKern {x : Mm.KernM α} {Q : α → Os → Prop} :
    Ends E (onKern x) s Q ↔
      Ends (fun e => E (.mm e)) x s.kern fun a t => Q a { s with kern := t } := by
  unfold Ends onKern
  cases x s.kern <;> rfl

theorem ends_onProcs {x : Process.KernM α} {Q : α → Os → Prop} :
    Ends E (onProcs x) s Q ↔
      Ends (fun e => E (.proc e)) x s.procs fun a t => Q a { s with procs := t } := by
  unfold Ends onProcs
  cases x s.procs <;> rfl

/-- Calls of the memory system leave the processes alone. -/
theorem onKern_procs (x : Mm.KernM α) :
    Ends (fun _ => True) (onKern x) s fun _ t => t.procs = s.procs := by
  unfold Ends onKern
  cases x s.kern with
  | error e => trivial
  | ok r => rfl

/-- Calls on the processes leave the memory alone. -/
theorem onProcs_kern (x : Process.KernM α) :
    Ends (fun _ => True) (onProcs x) s fun _ t => t.kern = s.kern := by
  unfold Ends onProcs
  cases x s.procs with
  | error e => trivial
  | ok r => rfl

end

/-! ## The code -/

section

variable (memory : Memory)

/-- `alloc_pages(KSTACKPAGE)`. -/
def allocStack : Mm.KernM (Option Nat) := do
  let s ← get
  modify Mm.Kern.nextTick
  match memory.stack s.tick s.free with
  | none => pure none
  | some page =>
      modify fun s => (s.take page).take (page + 1)
      pure (some page)

def allocProc : OsM (Option Nat) := do
  if ← onKern memory.al.kmalloc then
    let proc := memory.place (← get).procs.heap
    onProcs (Process.allocProc proc)
    modify fun s => { s with
      mm := Function.update s.mm proc none
      kstack := Function.update s.kstack proc none }
    pure (some proc)
  else pure none

def setupKstack (proc : Nat) : OsM Int := do
  match ← onKern (allocStack memory) with
  | none => pure (-Mm.E_NO_MEM)
  | some page =>
      let kstack ← onKern (Mm.kaddr page)
      modify fun s => { s with kstack := Function.update s.kstack proc (some kstack) }
      pure 0

/-- `free_pages(kva2page(kstack), KSTACKPAGE)`; the address 0 is not one of the kernel. -/
def putKstack (proc : Nat) : OsM PUnit := do
  match (← get).kstack proc with
  | none => throw (.proc .paddr)
  | some kstack => onKern (do
      let page ← Mm.pa2page kstack
      Mm.freePage page
      Mm.freePage (page + 1))

/-- `copy_mm` from `mm_create` on, up to `good_mm` or to the end of the clean-up. -/
def dupMm (oldmm : Mm.MmStruct) : Mm.KernM (Int × Option Mm.MmStruct) := do
  match ← Mm.mmCreate memory.al with
  | none => pure (-Mm.E_NO_MEM, none)
  | some mm =>
      let (ret, mm) ← Mm.setupPgdir memory.al mm
      if ret ≠ 0 then
        Mm.mmDestroy mm
        pure (-Mm.E_NO_MEM, none)
      else
        let (ret, mm) ← Mm.dupMmap memory.al mm oldmm
        if ret ≠ 0 then
          Mm.exitMmap memory.al mm
          Mm.putPgdir mm
          Mm.mmDestroy mm
          pure (ret, none)
        else pure (0, some mm)

/-- `copy_mm` at `good_mm`. -/
def goodMm (proc : Nat) (mm : Mm.MmStruct) : OsM Int := do
  modify fun s => { s with
    mms := Function.update s.mms mm.pgdir (some { mm with mmCount := mm.mmCount + 1 })
    mm := Function.update s.mm proc (some mm.pgdir) }
  pure 0

/-- `cloneVm` is the flag `CLONE_VM`. -/
def copyMm (cloneVm : Bool) (proc : Nat) : OsM Int := do
  let current ← onProcs (Process.deref (← get).procs.current)
  match (← get).mm current with
  | none => pure 0
  | some pgdir =>
      let oldmm ← onKern (Mm.getMm (← get).mms pgdir)
      if cloneVm then goodMm proc oldmm
      else
        match ← onKern (dupMm memory oldmm) with
        | (_, some mm) => goodMm proc mm
        | (ret, none) => pure ret

/-- `do_fork`; `context` is where `copy_thread` lets the new process start. -/
def doFork (cloneVm : Bool) (context : Process.Context) : OsM Int := do
  if (← get).procs.nrProcess ≥ Process.MAX_PROCESS then pure (-Process.E_NO_FREE_PROC)
  else
    match ← allocProc memory with
    | none => pure (-Process.E_NO_MEM)
    | some proc =>
        onProcs (modify fun k => { k with parent := Function.update k.parent proc k.current })
        if (← setupKstack memory proc) ≠ 0 then
          -- `bad_fork_cleanup_kstack`
          putKstack proc
          onProcs (Process.kfree proc)
          pure (-Process.E_NO_MEM)
        else if (← copyMm memory cloneVm proc) ≠ 0 then
          -- `bad_fork_cleanup_proc`, which keeps the kernel stack
          onProcs (Process.kfree proc)
          pure (-Process.E_NO_MEM)
        else onProcs (do
          modify fun k => { k with context := Function.update k.context proc context }
          Process.enterProc proc)

end

/-! ## Kernel stacks stay in use -/

section

open Mm

variable {role : Nat → Role} {s : Kern} {pgdirs : List Nat} {page : Nat} {memory : Memory}

/-- A free frame becomes one of the kernel. -/
theorem takeOther (hpaged : Paged role s) (hcounted : Counted role s) (hpage : page ∈ s.free) :
    Paged (Function.update role page .other) (s.take page) ∧
      Counted (Function.update role page .other) (s.take page) ∧
      ∀ f, role f ≠ .free → Function.update role page .other f = role f := by
  have hfree : role page = .free := (hpaged.free page).mpr hpage
  have hdir : ∀ f, Function.update role page .other f = .dir ↔ role f = .dir := by
    intro f
    by_cases hf : f = page
    · rw [hf, Function.update_self, hfree]
      exact iff_of_false Role.noConfusion Role.noConfusion
    · rw [Function.update_of_ne hf]
  refine ⟨?_, fun f hf => ?_, fun f hf => ?_⟩
  · apply Paged.use_plain _ (by simp) rfl Role.noConfusion
    rw [hpaged.giveBack_take hpage]
    exact hpaged
  · by_cases hne : f = page
    · rw [hne, Function.update_self] at hf
      cases hf
    · rw [Function.update_of_ne hne] at hf
      have hexcess := @excess_congr _ _ _ (s.take page) (LeafSame.refl role s) hdir f rfl
      rw [hexcess]
      exact hcounted f hf
  · apply Function.update_of_ne
    rintro rfl
    exact hf hfree

/-- A frame that the kernel uses itself, `page`, while `pgdirs` are page directories. No entry maps
it, so nothing that is done to an address space touches it. -/
structure Held (role : Nat → Role) (pgdirs : List Nat) (page : Nat) (s : Kern) : Prop where
  paged : Paged role s
  counted : Counted role s
  page : role page = .other
  dirs : ∀ pgdir ∈ pgdirs, role pgdir = .dir

/-- The same, for some uses of the frames. -/
def Holds (pgdirs : List Nat) (page : Nat) (s : Kern) : Prop := ∃ role, Held role pgdirs page s

theorem notFree_of_other (hpaged : Paged role s) (hpage : role page = .other) : page ∉ s.free := by
  rw [← hpaged.free, hpage]
  exact Role.noConfusion

namespace Holds

theorem notFree (h : Holds pgdirs page s) : page ∉ s.free := by
  obtain ⟨role, hheld⟩ := h
  exact notFree_of_other hheld.paged hheld.page

theorem nextTick (h : Holds pgdirs page s) : Holds pgdirs page s.nextTick := by
  obtain ⟨role, hheld⟩ := h
  exact ⟨role, hheld.paged.nextTick, hheld.counted, hheld.page, hheld.dirs⟩

/-- Two free frames in a row are handed out. -/
theorem take (hpaged : Paged role s) (hcounted : Counted role s)
    (hdirs : ∀ pgdir ∈ pgdirs, role pgdir = .dir) (hfree : ∀ i < KSTACKPAGE, page + i ∈ s.free) :
    Holds pgdirs page ((s.take page).take (page + 1)) := by
  have hfirst : page ∈ s.free := hfree 0 (by decide)
  have hsecond : page + 1 ∈ (s.take page).free := by
    rw [Kern.take_free, Finset.mem_erase]
    exact ⟨by omega, hfree 1 (by decide)⟩
  obtain ⟨hpaged₁, hcounted₁, hkeep₁⟩ := takeOther hpaged hcounted hfirst
  obtain ⟨hpaged₂, hcounted₂, hkeep₂⟩ := takeOther hpaged₁ hcounted₁ hsecond
  refine ⟨_, hpaged₂, hcounted₂, ?_, fun pgdir hpgdir => ?_⟩
  · rw [hkeep₂ page (by simp), Function.update_self]
  · have hdir := hdirs pgdir hpgdir
    have hdir₁ := (hkeep₁ pgdir (by simp [hdir])).trans hdir
    exact (hkeep₂ pgdir (by simp [hdir₁])).trans hdir₁

theorem setupPgdir (h : Holds pgdirs page s) {mm : MmStruct} :
    Ends (fun _ => True) (setupPgdir memory.al mm) s fun r t => Holds pgdirs page t ∧
      (r.1 = 0 → ∃ n, r.2 = { mm with pgdir := n } ∧ Holds (n :: pgdirs) page t) := by
  obtain ⟨role, hheld⟩ := h
  apply (setupPgdir_spec hheld.paged).imp
  rintro r t (⟨rfl, rfl, _⟩ | ⟨n, rfl, hadded⟩)
  · exact ⟨nextTick ⟨role, hheld⟩, fun hzero => by simp [E_NO_MEM] at hzero⟩
  · have hkeep : ∀ f, role f ≠ .free → Function.update role n .dir f = role f := by
      intro f hf
      apply Function.update_of_ne
      rintro rfl
      exact hf hadded.fresh
    have hcounted := hadded.counted hheld.paged hheld.counted
    have hpage := (hkeep page (by simp [hheld.page])).trans hheld.page
    have hdirs : ∀ pgdir ∈ pgdirs, Function.update role n .dir pgdir = .dir := by
      intro pgdir hpgdir
      have hdir := hheld.dirs pgdir hpgdir
      exact (hkeep pgdir (by simp [hdir])).trans hdir
    refine ⟨⟨_, hadded.paged, hcounted, hpage, hdirs⟩, fun _ => ⟨n, rfl, _, hadded.paged, hcounted,
      hpage, ?_⟩⟩
    intro pgdir hpgdir
    rcases List.mem_cons.mp hpgdir with rfl | hold
    · exact Function.update_self ..
    · exact hdirs pgdir hold

theorem copyRange (h : Holds pgdirs page s) {toDir fromDir start stop : Nat}
    (hto : toDir ∈ pgdirs) (hfrom : fromDir ∈ pgdirs) :
    Ends (fun _ => True) (copyRange memory.al.allocPage toDir fromDir start stop) s
      fun _ t => Holds pgdirs page t := by
  obtain ⟨role, hheld⟩ := h
  apply (copyRange_turnover trivial trivial trivial hheld.paged hheld.counted
    (hheld.dirs _ hto) (hheld.dirs _ hfrom)).imp
  rintro _ t ⟨role', hpaged, hturnover⟩
  have hevolves := hturnover.evolves
  exact ⟨role', hpaged, hevolves.counted hheld.counted, (hevolves.rest page hheld.page).1,
    fun pgdir hpgdir => (hevolves.dir pgdir).mpr (hheld.dirs pgdir hpgdir)⟩

/-- `dup_mmap` into an address space that has been set up, however it ends. -/
theorem dupMmap {toMm fromMm : MmStruct} (h : Holds [toMm.pgdir, fromMm.pgdir] page s)
    (hto : toMm.Ok) (hfrom : fromMm.Ok) :
    Ends (fun _ => True) (dupMmap memory.al toMm fromMm) s fun r t =>
      r.2.Ok ∧ Holds [r.2.pgdir] page t := by
  have hdone : ∀ (mm : MmStruct) t, mm.Ok ∧ mm.pgdir = toMm.pgdir ∧
      Holds [toMm.pgdir, fromMm.pgdir] page t → mm.Ok ∧ Holds [mm.pgdir] page t := by
    rintro mm t ⟨hok, hpgdir, role, hheld⟩
    refine ⟨hok, role, hheld.paged, hheld.counted, hheld.page, fun pgdir hmem => ?_⟩
    rw [List.mem_singleton.mp hmem, hpgdir]
    exact hheld.dirs _ (by simp)
  unfold Mm.dupMmap
  apply copyAreas_spec (P := fun rest mm t => (∀ vma ∈ rest, vma.Ok) ∧ mm.Ok ∧
    mm.pgdir = toMm.pgdir ∧ Holds [toMm.pgdir, fromMm.pgdir] page t)
  · rintro mm t ⟨_, hmm⟩
    exact hdone mm t hmm
  · rintro rest mm t _ ⟨_, hok, hpgdir, hholds⟩
    exact hdone mm _ ⟨hok, hpgdir, hholds.nextTick⟩
  · rintro vma rest mm t ⟨hrest, hok, hpgdir, hholds⟩
    apply (insertVmaStruct_spec trivial hok (hrest vma (by simp))).imp
    rintro mm' u ⟨rfl, hok', hpgdir', _⟩
    have hdir : mm'.pgdir = toMm.pgdir := hpgdir'.trans hpgdir
    apply (hholds.nextTick.copyRange (by simp [hdir]) (by simp)).imp
    intro ret v hcopied
    exact ⟨fun _ => ⟨fun a ha => hrest a (List.mem_cons_of_mem _ ha), hok', hdir, hcopied⟩,
      fun _ => hdone mm' v ⟨hok', hdir, hcopied⟩⟩
  · exact ⟨fun vma hvma => hfrom.areas vma (List.mem_reverse.mp hvma), hto, rfl, h⟩

/-- The clean-up at `bad_dup_cleanup_mmap`. -/
theorem cleanup {mm : MmStruct} (h : Holds [mm.pgdir] page s) (hmm : mm.Ok) :
    Ends (fun _ => True) (do
      exitMmap memory.al mm
      putPgdir mm
      mmDestroy mm) s fun _ t => page ∉ t.free := by
  have hloop := @ends_forM _ _ _ (fun _ => True)
    (fun vma => unmapRange memory.al.allocPage mm.pgdir vma.vmStart vma.vmEnd)
    (fun _ t => Holds [mm.pgdir] page t) ?_ mm.mmapList s h
  · unfold exitMmap putPgdir mmDestroy
    by_cases hcount : mm.mmCount = 0
    · simp only [hcount, ne_eq, not_true_eq_false, if_false, ends_bind, ends_pure]
      apply hloop.imp
      rintro _ t ⟨role, hheld⟩
      have hdir := hheld.dirs mm.pgdir (by simp)
      apply (exitAreas_spec hmm hheld.paged hdir).imp
      rintro _ u ⟨role', hpaged, hpruned, hdir'⟩
      have hpage := (hpruned.rest page hheld.page).1
      apply ends_pa2page (hpaged.bound mm.pgdir (by simp [hdir']))
      apply ends_freePage
      · rw [← hpaged.free, hdir']
        exact Role.noConfusion
      · obtain ⟨hpaged', hpruned'⟩ := hpaged.giveBack_dir hdir'
        exact notFree_of_other hpaged' (hpruned'.rest page hpage).1
    · simp only [hcount, ne_eq, not_false_eq_true, if_true, ends_bind, ends_throw]
  · rintro vma rest t ⟨role, hheld⟩
    apply (unmapRange_spec hheld.paged hheld.counted (hheld.dirs _ (by simp)) (Or.inl trivial)
      (Or.inl trivial)).imp
    rintro _ u ⟨role', hpaged, hsettled, _⟩
    exact ⟨role', hpaged, hsettled.counted hheld.counted, (hsettled.rest page hheld.page).1,
      fun pgdir hpgdir => (hsettled.dir pgdir).mpr (hheld.dirs pgdir hpgdir)⟩

/-- `copy_mm` without `CLONE_VM`. -/
theorem dupMm {oldmm : MmStruct} (h : Holds [oldmm.pgdir] page s) (hold : oldmm.Ok) :
    Ends (fun _ => True) (dupMm memory oldmm) s fun _ t => page ∉ t.free := by
  unfold Fork.dupMm mmCreate
  rw [ends_bind, ends_bind]
  apply memory.al.ends_kmalloc
  intro got
  cases got with
  | false => exact h.nextTick.notFree
  | true =>
      simp only [if_true, ends_pure]
      rw [ends_bind]
      apply h.nextTick.setupPgdir.imp
      rintro ⟨ret, mm⟩ t ⟨hholds, hset⟩
      change Ends _ (if ret ≠ 0 then _ else _) t _
      split
      next =>
        unfold mmDestroy
        rw [ends_bind]
        split
        next => trivial
        next => exact hholds.notFree
      next hret =>
        obtain ⟨n, hmm, hholds'⟩ := hset (not_not.mp hret)
        subst hmm
        rw [ends_bind]
        apply (dupMmap hholds' (.empty n 0) hold).imp
        rintro ⟨ret', mm'⟩ u ⟨hok, hcopied⟩
        change Ends _ (if ret' ≠ 0 then _ else _) u _
        split
        next =>
          have hclean := @cleanup _ _ memory _ hcopied hok
          simp only [ends_bind] at hclean ⊢
          exact hclean
        next => exact hcopied.notFree

end Holds

end

/-! ## Failures -/

/-- The memory system and the address spaces are in order, and each `mm` has a page directory of its
own. -/
structure Os.Ok (role : Nat → Mm.Role) (s : Os) : Prop where
  paged : Mm.Paged role s.kern
  counted : Mm.Counted role s.kern
  mms : ∀ pgdir mm, s.mms pgdir = some mm → mm.Ok ∧ mm.pgdir = pgdir ∧ role pgdir = .dir

/-- Nothing that `do_fork` allocates is left, and what there was is as before: memory in
use, the address spaces, the lists of processes and the links between them. -/
structure Unchanged (s t : Os) : Prop where
  free : t.kern.free = s.kern.free
  mem : ∀ f, f ∉ s.kern.free → t.kern.mem f = s.kern.mem f
  ref : ∀ f, f ∉ s.kern.free → t.kern.ref f = s.kern.ref f
  mms : t.mms = s.mms
  heap : t.procs.heap = s.procs.heap
  procList : t.procs.links = s.procs.links
  hashList : t.procs.hash = s.procs.hash
  nrProcess : t.procs.nrProcess = s.procs.nrProcess
  relations : ∀ proc ∈ s.procs.heap, t.procs.parent proc = s.procs.parent proc ∧
    t.procs.cptr proc = s.procs.cptr proc ∧ t.procs.yptr proc = s.procs.yptr proc ∧
    t.procs.optr proc = s.procs.optr proc

/-- `do_fork` returns the process id of a new process. -/
def Completes (memory : Memory) (cloneVm : Bool) (context : Process.Context) (s : Os) : Prop :=
  Ends never (doFork memory cloneVm context) s fun r _ => 0 < r

/-- `do_fork` returns an error and leaves everything as it was: the lists of processes, the counts
of frames, the free frames and the address spaces. -/
def FailsCleanly (memory : Memory) (cloneVm : Bool) (context : Process.Context) (s : Os) : Prop :=
  Ends never (doFork memory cloneVm context) s fun r t => r < 0 ∧ Unchanged s t

section

variable {role : Nat → Mm.Role} {s : Os} {memory : Memory} {cloneVm : Bool}
  {context : Process.Context} {page : Nat}

/-- The address spaces, while a kernel stack is in use. -/
def Stacked (page : Nat) (s : Os) : Prop :=
  page ∉ s.kern.free ∧ ∀ pgdir mm, s.mms pgdir = some mm →
    mm.Ok ∧ mm.pgdir = pgdir ∧ Holds [pgdir] page s.kern

theorem copyMm_keeps (h : Stacked page s) (proc : Nat) :
    Ends (fun _ => True) (copyMm memory cloneVm proc) s fun _ t => page ∉ t.kern.free := by
  obtain ⟨hpage, hmms⟩ := h
  unfold copyMm
  rw [ends_bind, ends_get, ends_bind, ends_onProcs]
  cases s.procs.current with
  | none => trivial
  | some current =>
      rw [Process.ends_deref rfl, ends_bind, ends_get]
      cases s.mm current with
      | none => exact hpage
      | some pgdir =>
          change Ends _ (get >>= _) s _
          rw [ends_bind, ends_get, ends_bind, ends_onKern]
          apply Mm.Procs.Inv.ends_getMm trivial
          intro oldmm hold
          obtain ⟨hok, rfl, hholds⟩ := hmms pgdir oldmm hold
          cases cloneVm with
          | true => exact hpage
          | false =>
              change Ends _ (onKern (dupMm memory oldmm) >>= _) s _
              rw [ends_bind, ends_onKern]
              apply (hholds.dupMm hok).imp
              rintro ⟨ret, mm⟩ t hkept
              cases mm with
              | none => exact hkept
              | some mm => exact hkept

theorem ends_allocProc {E : Stop → Prop} {Q : Option Nat → Os → Prop}
    (hnone : memory.al.heap s.kern.tick = false → Q none { s with kern := s.kern.nextTick })
    (hsome : memory.al.heap s.kern.tick = true → ∀ proc t, t.kern = s.kern.nextTick →
      t.mms = s.mms → t.kstack proc = none →
      Process.allocProc proc s.procs = .ok (⟨⟩, t.procs) → Q (some proc) t) :
    Ends E (allocProc memory) s Q := by
  unfold allocProc Mm.Allocator.kmalloc
  simp only [ends_bind, ends_onKern, ends_get, ends_modify, ends_pure]
  cases hheap : memory.al.heap s.kern.tick with
  | false => exact hnone hheap
  | true => exact hsome hheap _ _ rfl rfl (Function.update_self ..) rfl

/-- A kernel stack is taken from the free frames, or there is none. -/
theorem setupKstack_spec (proc : Nat) :
    Ends (fun _ => True) (setupKstack memory proc) s fun r t => t.procs = s.procs ∧
      ((r ≠ 0 ∧ t.kstack = s.kstack) ∨ (r = 0 ∧ t.mms = s.mms ∧ ∃ page,
        (∀ i < KSTACKPAGE, page + i ∈ s.kern.free) ∧
          t.kern = (s.kern.nextTick.take page).take (page + 1))) := by
  unfold setupKstack allocStack Mm.kaddr
  simp only [ends_bind, ends_onKern, ends_get, ends_modify]
  cases hstack : memory.stack s.kern.tick s.kern.free with
  | none => exact ⟨rfl, Or.inl ⟨by simp [Mm.E_NO_MEM], rfl⟩⟩
  | some page =>
      simp only [ends_bind, ends_onKern, ends_modify, ends_pure]
      split
      next => trivial
      next => exact ⟨trivial, Or.inr ⟨trivial, trivial, page, memory.sound _ _ _ hstack, rfl⟩⟩

theorem Os.Ok.stacked {t : Os} (hok : s.Ok role) (hmms : t.mms = s.mms)
    (hfree : ∀ i < KSTACKPAGE, page + i ∈ s.kern.free)
    (hkern : t.kern = (s.kern.nextTick.take page).take (page + 1)) : Stacked page t := by
  have htake : ∀ {pgdirs : List Nat}, (∀ pgdir ∈ pgdirs, role pgdir = .dir) →
      Holds pgdirs page t.kern := by
    intro pgdirs hdirs
    rw [hkern]
    exact Holds.take hok.paged.nextTick hok.counted hdirs hfree
  refine ⟨(@htake [] fun _ h => by cases h).notFree, fun pgdir mm hmm => ?_⟩
  rw [hmms] at hmm
  obtain ⟨hmmOk, hpgdir, hdir⟩ := hok.mms pgdir mm hmm
  refine ⟨hmmOk, hpgdir, htake fun pgdir' h => ?_⟩
  rw [List.mem_singleton.mp h]
  exact hdir

/-- Where there is a `proc_struct`, the call stops or keeps a kernel stack. -/
theorem doFork_keeps (hok : s.Ok role) (hroom : s.procs.nrProcess < Process.MAX_PROCESS)
    (hheap : memory.al.heap s.kern.tick = true) :
    Ends (fun _ => True) (doFork memory cloneVm context) s fun _ t =>
      ∃ page ∈ s.kern.free, page ∉ t.kern.free := by
  unfold doFork
  rw [ends_bind, ends_get, if_neg (not_le_of_gt hroom), ends_bind]
  apply ends_allocProc
  · intro hno
    rw [hheap] at hno
    cases hno
  · intro _ proc t hkern hmms hkstack _
    simp only [ends_bind, ends_onProcs, ends_modify]
    have hok' : t.Ok role := by
      refine ⟨?_, ?_, ?_⟩
      · rw [hkern]
        exact hok.paged.nextTick
      · rw [hkern]
        exact hok.counted
      · rw [hmms]
        exact hok.mms
    have hok₁ : Os.Ok role { t with procs := { t.procs with
        parent := Function.update t.procs.parent proc t.procs.current } } :=
      ⟨hok'.paged, hok'.counted, hok'.mms⟩
    apply (setupKstack_spec proc).imp
    rintro ret u ⟨_, ⟨hret, hsame⟩ | ⟨rfl, hmms', page, hfree, hkern'⟩⟩
    · rw [if_pos hret]
      unfold putKstack
      simp only [ends_bind, ends_get, hsame, hkstack, ends_throw]
    · rw [if_neg (not_not.mpr rfl), ends_bind]
      apply (copyMm_keeps (hok₁.stacked hmms' hfree hkern') proc).imp
      intro ret' v hkept
      have hpage' : page ∈ s.kern.free := by
        have hfirst := hfree 0 (by decide)
        change page ∈ t.kern.free at hfirst
        rwa [hkern] at hfirst
      split
      next => exact ⟨page, hpage', hkept⟩
      next =>
        apply (onProcs_kern _).imp
        intro pid w hw
        rw [hw]
        exact ⟨page, hpage', hkept⟩

theorem Unchanged.nextTick (s : Os) : Unchanged s { s with kern := s.kern.nextTick } :=
  ⟨rfl, fun _ _ => rfl, fun _ _ => rfl, rfl, rfl, rfl, rfl, rfl, fun _ _ => ⟨rfl, rfl, rfl, rfl⟩⟩

/-- A fork fails cleanly where there are too many processes or no memory for the
`proc_struct`. Where it fails later, it panics or leaves a kernel stack behind. -/
theorem doFork_failsCleanly (hok : s.Ok role) : FailsCleanly memory cloneVm context s ↔
    (Process.MAX_PROCESS : Int) ≤ s.procs.nrProcess ∨ memory.al.heap s.kern.tick = false := by
  constructor
  · intro hclean
    by_contra hno
    rw [not_or, not_le, Bool.not_eq_false] at hno
    have hkeeps := @doFork_keeps _ _ memory cloneVm context hok hno.1 hno.2
    obtain ⟨t, ht⟩ := hclean.exec_some
    obtain ⟨_, _, hunchanged⟩ := hclean.of_exec ht
    obtain ⟨_, page, hfree, hused⟩ := hkeeps.of_exec ht
    rw [hunchanged.free] at hused
    exact hused hfree
  · intro hcond
    unfold FailsCleanly doFork
    rw [ends_bind, ends_get]
    split
    next => exact ⟨by decide, ⟨rfl, fun _ _ => rfl, fun _ _ => rfl, rfl, rfl, rfl, rfl, rfl,
        fun _ _ => ⟨rfl, rfl, rfl, rfl⟩⟩⟩
    next hroom =>
      rw [ends_bind]
      apply ends_allocProc
      · intro _
        exact ⟨by decide, Unchanged.nextTick s⟩
      · intro hheap
        rw [hcond.resolve_left hroom] at hheap
        cases hheap

theorem copyMm_procs (proc : Nat) :
    Ends (fun _ => True) (copyMm memory cloneVm proc) s fun _ t => t.procs = s.procs := by
  unfold copyMm
  rw [ends_bind, ends_get, ends_bind, ends_onProcs]
  cases s.procs.current with
  | none => trivial
  | some current =>
      rw [Process.ends_deref rfl, ends_bind, ends_get]
      cases s.mm current with
      | none => exact rfl
      | some pgdir =>
          change Ends _ (get >>= _) s _
          rw [ends_bind, ends_get, ends_bind]
          apply (onKern_procs _).imp
          intro oldmm t ht
          cases cloneVm with
          | true => exact ht
          | false =>
              change Ends _ (onKern (dupMm memory oldmm) >>= _) t _
              rw [ends_bind]
              apply (onKern_procs _).imp
              rintro ⟨ret, mm⟩ u hu
              cases mm with
              | none => exact hu.trans ht
              | some mm => exact hu.trans ht

/-- What `do_fork` does to the processes is what it does there for some outcome of its
allocations. -/
theorem doFork_refines : Ends (fun _ => True) (doFork memory cloneVm context) s fun r t =>
    ∃ outcome, Process.doFork context outcome s.procs = .ok (r, t.procs) := by
  unfold doFork Process.doFork
  rw [ends_bind, ends_get]
  have hget : (get : Process.KernM Process.Kernel) s.procs = .ok (s.procs, s.procs) := rfl
  simp only [bind_ok hget]
  split
  next => exact ⟨⟨none, false, false⟩, rfl⟩
  next =>
    rw [ends_bind]
    apply ends_allocProc
    · intro _
      exact ⟨⟨none, false, false⟩, rfl⟩
    · intro _ proc t _ _ hkstack halloc
      rw [ends_bind, ends_onProcs, ends_modify, ends_bind]
      apply (setupKstack_spec proc).imp
      rintro ret u ⟨hu, ⟨hret, hsame⟩ | ⟨rfl, _⟩⟩
      · rw [if_pos hret]
        unfold putKstack
        simp only [ends_bind, ends_get, hsame, hkstack, ends_throw]
      · rw [if_neg (not_not.mpr rfl), ends_bind]
        apply (copyMm_procs proc).imp
        intro ret' v hv
        split
        next =>
          rw [ends_bind, ends_onProcs]
          unfold Process.kfree
          refine ⟨⟨some proc, true, false⟩, ?_⟩
          simp only [bind_ok halloc]
          rw [hv, hu]
          rfl
        next =>
          rw [ends_onProcs]
          apply (Ends.self _ _).imp
          intro pid k hk
          refine ⟨⟨some proc, true, true⟩, ?_⟩
          simp only [bind_ok halloc]
          rw [hv, hu] at hk
          exact hk

/-- There are no pages for a kernel stack: the clean-up takes the address 0 for one. -/
theorem doFork_noStack (hroom : s.procs.nrProcess < Process.MAX_PROCESS)
    (hheap : memory.al.heap s.kern.tick = true)
    (hstack : ∀ tick free, memory.stack tick free = none) :
    Ends (fun e => e = .proc .paddr) (doFork memory cloneVm context) s fun _ _ => False := by
  unfold doFork
  rw [ends_bind, ends_get, if_neg (not_le_of_gt hroom), ends_bind]
  apply ends_allocProc
  · intro hno
    rw [hheap] at hno
    cases hno
  · intro _ proc t _ _ hkstack _
    unfold setupKstack allocStack putKstack
    simp only [ends_bind, ends_onProcs, ends_onKern, ends_get, ends_modify, hstack, ends_pure]
    rw [if_pos (by simp [Mm.E_NO_MEM])]
    simp only [ends_bind, ends_get, hkstack, ends_throw]

end

/-- `kmalloc` finds no memory. -/
def noHeap : Memory where
  al := { Mm.Allocator.ofList [] with heap := fun _ => false }
  stack _ _ := none
  sound _ _ _ h := by cases h
  place heap := heap.sup id + 1
  fresh heap h := Nat.not_succ_le_self _ (Finset.le_sup (f := id) h)

/-- `kmalloc` finds memory, but there are no pages. -/
def noPages : Memory := { noHeap with al := Mm.Allocator.ofList [] }

/-- The process at 100 runs in an address space without areas. -/
def loneParent (k : Process.Kernel) : Os where
  kern := Mm.bootKern {0x80501, 0x80502, 0x80503}
  mms := Function.update (fun _ => none) 0x80500 (some ⟨[], none, 0x80500, 1⟩)
  procs := k
  mm := Function.update (fun _ => none) 100 (some 0x80500)
  kstack _ := none

theorem loneParent_ok (k : Process.Kernel) : (loneParent k).Ok
    (Mm.emptyRole 0x80500 (Mm.bootKern {0x80501, 0x80502, 0x80503})) := by
  have hinv := Mm.emptyDir_boot.inv
  refine ⟨hinv.paged, hinv.counted, fun pgdir mm hmm => ?_⟩
  change Function.update (fun _ => none) 0x80500 (some _) pgdir = some mm at hmm
  by_cases hpgdir : pgdir = 0x80500
  · subst hpgdir
    rw [Function.update_self, Option.some.injEq] at hmm
    subst hmm
    exact ⟨.empty _ _, rfl, hinv.dir⟩
  · rw [Function.update_of_ne hpgdir] at hmm
    cases hmm

/-- The processes after `proc_init`. -/
theorem procInit_started : ∃ k : Process.Kernel, k.Started ∧ k.nrProcess = 2 := by
  have hinit : (exec (Process.procInit 100 ⟨some 101, true, true⟩) .zero).map (·.nrProcess) =
      some 2 := by
    decide +kernel
  obtain ⟨k, hk, hcount⟩ := Option.map_eq_some_iff.mp hinit
  exact ⟨k, ⟨_, 100, _, Process.Kernel.boot_zero, by decide, hk⟩, hcount⟩

/-- After `proc_init` a fork without memory for a `proc_struct` fails cleanly, and one without
pages for a kernel stack does not. -/
theorem doFork_failsCleanly_noHeap : ∃ k : Process.Kernel, k.Started ∧
    FailsCleanly noHeap false .user (loneParent k) ∧
      ¬FailsCleanly noPages false .user (loneParent k) := by
  obtain ⟨k, hstarted, hcount⟩ := procInit_started
  refine ⟨k, hstarted, (doFork_failsCleanly (loneParent_ok k)).mpr (.inr rfl), fun hclean => ?_⟩
  rcases (doFork_failsCleanly (loneParent_ok k)).mp hclean with hfull | hheap
  · change (Process.MAX_PROCESS : Int) ≤ k.nrProcess at hfull
    rw [hcount] at hfull
    exact absurd hfull (by decide)
  · cases hheap

/-- After `proc_init`, without pages for a kernel stack, `do_fork` panics. -/
theorem doFork_panics : ¬ ∀ (memory : Memory) (cloneVm : Bool) (context : Process.Context)
    (role : Nat → Mm.Role) (s : Os), s.procs.Started → s.Ok role →
    ¬ Completes memory cloneVm context s → FailsCleanly memory cloneVm context s := by
  intro hclaim
  obtain ⟨k, hstarted, hcount⟩ := procInit_started
  have hroom : (loneParent k).procs.nrProcess < Process.MAX_PROCESS := by
    change k.nrProcess < _
    rw [hcount]
    decide
  have hpanics := @doFork_noStack (loneParent k) noPages false .user hroom rfl fun _ _ => rfl
  have hstops : ∀ {Q : Int → Os → Prop}, ¬ Ends never (doFork noPages false .user)
      (loneParent k) Q := by
    intro Q hends
    obtain ⟨t, ht⟩ := hends.exec_some
    obtain ⟨_, hfalse⟩ := hpanics.of_exec ht
    exact hfalse
  exact hstops (hclaim noPages false .user _ (loneParent k) hstarted (loneParent_ok k) hstops)

end Ucore.Fork
