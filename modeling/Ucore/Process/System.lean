import Ucore.Process.Trap

/-!
# Every step of the kernel keeps its order

`System` collects what holds between steps: the tree of processes, who is asleep, and
which code each process runs. `step_spec` says that every step keeps it, and when a
step may stop the kernel.
-/

namespace Ucore.Process

open Machine

/-- Whose code a process runs. -/
inductive Owner
  | idle
  | init
  | user
  deriving DecidableEq

def Context.owner : Context → Owner
  | .cpuIdle => .idle
  | .initMain => .init
  | .initWaiting => .init
  | .initLoop => .init
  | _ => .user

def Tree.owner (T : Tree) (init p : Nat) : Owner :=
  if p = T.idle then .idle else if p = init then .init else .user

/-- Between two steps, when `cur` is the current process. -/
structure System (T : Tree) (init : Nat) (users : List Nat) (cur : Nat) (k : Kernel) : Prop where
  inv : Inv T none k
  root : Rooted T init users k
  run : Running T cur k
  owner : ∀ p, T.Live p → (k.context p).owner = T.owner init p
  pid : k.pid init = 1

/-- `initproc` is not to be killed. -/
def Spared (init : Nat) (k : Kernel) : Prop := k.flags init &&& PF_EXITING = 0

/-- After some code has run the system is in order, and `initproc` is spared if it was
and the code is `harmless`. -/
structure Ordered (init idle : Nat) (harmless : Prop) (k k' : Kernel) : Prop where
  system : ∃ T users cur, T.idle = idle ∧ System T init users cur k'
  spared : harmless → Spared init k → Spared init k'

variable {T T' : Tree} {k k' : Kernel} {cur next init p q : Nat} {users users' : List Nat}
  {pid : Int}
  {context : Context}

theorem Tree.owner_user (hidle : p ≠ T.idle) (hinit : p ≠ init) : T.owner init p = .user := by
  rw [Tree.owner, if_neg hidle, if_neg hinit]

namespace System

theorem init_ne_idle (h : System T init users cur k) : init ≠ T.idle :=
  fun heq => h.inv.family.idle (heq ▸ h.root.mem)

/-- A process that does not run the code of `cpu_idle` is on the list. -/
theorem cur_mem (h : System T init users cur k) (howner : (k.context cur).owner ≠ .idle) :
    cur ∈ T.procs := by
  rcases h.run.live with hidle | hmem
  · rw [h.owner cur h.run.live, Tree.owner, if_pos hidle] at howner
    exact absurd rfl howner
  · exact hmem

theorem cur_ne_init (h : System T init users cur k) (howner : (k.context cur).owner = .user) :
    cur ≠ init := by
  rintro rfl
  rw [h.owner cur h.run.live, Tree.owner, if_neg h.init_ne_idle, if_pos rfl] at howner
  cases howner

theorem cur_eq_init (h : System T init users cur k) (howner : (k.context cur).owner = .init) :
    cur = init := by
  rw [h.owner cur h.run.live, Tree.owner] at howner
  split at howner
  · cases howner
  · split at howner
    next heq => exact heq
    next => cases howner

/-- The owners stay when the current process stays in code of the same owner. -/
theorem owner_frame (h : System T init users cur k) (hframe : Frame T cur k k')
    (hidle : T'.idle = T.idle) (hprocs : T'.procs ⊆ T.procs)
    (hcur : (k'.context cur).owner = (k.context cur).owner) :
    ∀ p, T'.Live p → (k'.context p).owner = T'.owner init p := by
  intro p hp
  have hlive : T.Live p := by
    rcases hp with rfl | hp
    · exact Or.inl hidle
    · exact Or.inr (hprocs hp)
  have howner := h.owner p hlive
  rw [Tree.owner, hidle, ← Tree.owner, ← howner]
  by_cases hpc : p = cur
  · rw [hpc, hcur]
  · rw [hframe.context p hlive hpc]

theorem init_live (h : System T init users cur k) : T.Live init := Or.inr h.root.mem

/-- Code that runs for `cur` leaves the system in order. -/
theorem ordered (h : System T init users cur k) (hframe : Frame T cur k k')
    (hidle : T'.idle = T.idle) (hprocs : T'.procs ⊆ T.procs) (hinv : Inv T' none k')
    (hroot : Rooted T' init users' k') (hrun : Running T' next k')
    (hcur : (k'.context cur).owner = (k.context cur).owner) :
    System T' init users' next k' ∧ (Spared init k → Spared init k') :=
  ⟨⟨hinv, hroot, hrun, h.owner_frame hframe hidle hprocs hcur,
    (hframe.pid init h.init_live).trans h.pid⟩, fun hspared => by
      rw [Spared, hframe.flags init h.init_live]
      exact hspared⟩

end System

/-! ## Single functions -/

/-- The context of the current process changes to one of the same owner, and another
process that can run becomes the current one. -/
theorem System.congr (h : System T init users cur k) (hlists : k'.toLists = k.toLists)
    (hrelations : k'.toRelations = k.toRelations) (hstate : k'.state = k.state)
    (hwait : k'.waitState = k.waitState)
    (hcontext : k'.context = Function.update k.context cur context)
    (howner : context.owner = (k.context cur).owner) (hheap : k'.heap = k.heap)
    (hidleproc : k'.idleproc = k.idleproc) (hinitproc : k'.initproc = k.initproc)
    (hcurrent : k'.current = some next) (hnext : T.Live next)
    (hrunnable : k.state next = .runnable) :
    System T init users next k' := by
  obtain ⟨⟨hlisted, hfamily, hsettled, hlive, hidle⟩, hroot, hrun, howners, hpid⟩ := h
  have hawake : k.state cur ≠ .sleeping := by
    rw [hrun.state]
    decide
  have hmoved := hsettled.move context hawake
  have hpids : k'.pid = k.pid := congrArg Lists.pid hlists
  have hparent : k'.parent = k.parent := congrArg Relations.parent hrelations
  refine ⟨⟨hlists ▸ hlisted, hrelations ▸ hfamily, ?_, by rwa [hheap], hidleproc.trans hidle⟩,
    hroot.congr rfl rfl hinitproc (fun _ _ => Or.inl (by rw [hparent])) (by rw [hparent])
      (by rw [hstate]; exact hroot.alive), ⟨hcurrent, hnext, by rw [hstate, hrunnable]⟩,
    fun p hp => ?_, by rw [hpids, hpid]⟩
  · exact hmoved.congr (fun _ _ => by rw [hstate]) (fun _ _ => by rw [hwait])
      (fun _ _ => by rw [hcontext]) (fun _ _ => by rw [hparent]) fun _ _ => by rw [hpids]
  · rw [hcontext]
    by_cases hpc : p = cur
    · rw [hpc, Function.update_self, howner]
      exact howners cur hrun.live
    · rw [Function.update_of_ne hpc]
      exact howners p hp

namespace System

/-- The code that has run so far was harmless. -/
theorem done {harmless : Prop} (h : System T' init users' next k') (hidle : T'.idle = T.idle)
    (hspared : Spared init k → Spared init k') : Ordered init T.idle harmless k k' :=
  ⟨⟨T', users', next, hidle, h⟩, fun _ => hspared⟩

theorem schedule (h : System T init users cur k) (howner : context.owner = (k.context cur).owner) :
    Ends never (schedule context) k fun _ k' => Ordered init T.idle True k k' := by
  apply (schedule_spec h.inv.listed h.run.current h.run.live h.inv.idleproc h.inv.settled.idle).imp
  rintro _ _ ⟨next, hnext, hrunnable, rfl⟩
  exact done (h.congr rfl rfl rfl rfl rfl howner rfl rfl rfl rfl hnext hrunnable) rfl id

theorem doExit (h : System T init users cur k) (howner : (k.context cur).owner ≠ .idle)
    {errorCode : Int} : Ends (fun e => e = .initExit ∧ cur = init) (doExit errorCode) k fun _ k' =>
      Ordered init T.idle True k k' := by
  have hcur := h.cur_mem howner
  apply (doExit_spec h.inv h.root h.run hcur).imp
  rintro _ k₁ ⟨T₁, next, hne, hprocs, hidle, hinv, hroot, hframe, hcontext, hrun⟩
  have huser : (k.context cur).owner = .user := by
    have hidle' : cur ≠ T.idle := fun heq => h.inv.family.idle (heq ▸ hcur)
    rw [h.owner cur h.run.live, Tree.owner_user hidle' hne]
  obtain ⟨hsys, hspared⟩ := h.ordered hframe hidle (hprocs ▸ List.Subset.refl _) hinv hroot hrun
    (by rw [hcontext, huser]; rfl)
  exact hsys.done hidle hspared

/-- The process of a user can always end. -/
theorem doExit_user (h : System T init users cur k) (howner : (k.context cur).owner = .user)
    {errorCode : Int} :
    Ends never (Process.doExit errorCode) k fun _ k' => Ordered init T.idle True k k' := by
  refine (h.doExit (by rw [howner]; decide)).mono ?_ fun _ _ hpost => hpost
  rintro e ⟨_, heq⟩
  exact h.cur_ne_init howner heq

theorem doFork (h : System T init users cur k) (howner : (k.context cur).owner ≠ .idle)
    (hcontext : context.owner = .user) {memory : ForkMemory}
    (hmemory : ∀ p ∈ memory.proc, p ∉ k.heap) :
    Ends (· = .paddr) (doFork context memory) k fun _ k' => ∃ T' users', T'.idle = T.idle ∧
      System T' init users' cur k' ∧ (Spared init k → Spared init k') ∧
      k'.context cur = k.context cur := by
  have hcur := h.cur_mem howner
  refine (doFork_spec h.inv h.run hmemory).mono (fun _ he => he.1) ?_
  rintro r k₁ ⟨hframe, hcurrent, hself, hstate, hfork⟩
  have halive : k₁.state init ≠ .zombie := by
    rw [hstate init h.init_live]
    exact h.root.alive
  have hrunnable : k₁.state cur = .runnable := (hstate cur h.run.live).trans h.run.state
  have hspared : Spared init k → Spared init k₁ := fun hs => by
    rw [Spared, hframe.flags init h.init_live]
    exact hs
  rcases hfork with ⟨_, hinv, hparent⟩ | ⟨proc, i, hnew, _, _, hinv, hpid, hparent, hentry, _, _⟩
  · have hroot : Rooted T init users k₁ := h.root.congr rfl rfl hframe.initproc
      (fun p hp => Or.inl (hparent p (Or.inr (h.root.procs ▸ List.mem_append_left _ hp))))
      (hparent init h.init_live) halive
    obtain ⟨hsys, _⟩ := h.ordered hframe rfl (List.Subset.refl _) hinv hroot
      ⟨hcurrent.trans h.run.current, h.run.live, hrunnable⟩ (by rw [hself])
    exact ⟨T, users, rfl, hsys, hspared, hself⟩
  · have hroot := h.root.push hnew hcur i hframe.initproc hparent halive
    have hlive : (T.push proc cur i).Live cur := h.run.live.imp id (List.mem_cons_of_mem _)
    refine ⟨T.push proc cur i, proc :: users, rfl,
      ⟨hinv, hroot, ⟨hcurrent.trans h.run.current, hlive, hrunnable⟩,
      fun p hp => ?_, (hframe.pid init h.init_live).trans h.pid⟩, hspared, hself⟩
    by_cases hpp : p = proc
    · have hidle : proc ≠ T.idle := fun heq => hnew (Or.inl heq)
      have hinit : proc ≠ init := fun heq => hnew (heq ▸ h.init_live)
      rw [hpp, hentry, hcontext]
      exact (Tree.owner_user hidle hinit).symm
    · have hlive : T.Live p := hp.imp id fun hmem => (List.mem_cons.mp hmem).resolve_left hpp
      rw [← (show T.owner init p = (T.push proc cur i).owner init p from rfl), ← h.owner p hlive]
      by_cases hpc : p = cur
      · rw [hpc, hself]
      · rw [hframe.context p hlive hpc]

end System

/-- After `do_wait`: when it fails nothing has changed, and there is no child. -/
structure Waited (T : Tree) (init cur : Nat) (pid : Int) (k : Kernel)
    (r : Option (Int × Option Int)) (k' : Kernel) : Prop where
  system : ∃ T' users' next, T'.idle = T.idle ∧ System T' init users' next k' ∧
    (r ≠ none → next = cur ∧ k'.context cur = k.context cur)
  spared : Spared init k → Spared init k'
  failed : ∀ value, r = some value → value.1 ≠ 0 → k' = k ∧
    ∀ q ∈ T.procs, k.parent q = some cur → ¬ (pid = 0 ∨ k.pid q = pid)

namespace System

theorem waitRepeat (h : System T init users cur k) (howner : (k.context cur).owner ≠ .idle)
    {store : CodeStore} (hcontext : context.owner = (k.context cur).owner) (hin : context.inWait)
    (hawaits : ∀ child, context.awaits child → pid = 0 ∨ child = pid) :
    Ends never (Process.waitRepeat pid store context) k (Waited T init cur pid k) := by
  apply (waitRepeat_spec h.inv h.root h.run (h.cur_mem howner) hin hawaits).imp
  rintro r k₁ ⟨T₁, users₁, next, hidle, hprocs, hinv, hroot, hrun, hframe, hnone, hsome⟩
  have hself : (k₁.context cur).owner = (k.context cur).owner := by
    cases r with
    | none => rw [hnone rfl, hcontext]
    | some value => rw [(hsome value rfl).2.1]
  obtain ⟨hsys, hspared⟩ := h.ordered hframe hidle hprocs hinv hroot hrun hself
  refine ⟨⟨T₁, users₁, next, hidle, hsys, fun hr => ?_⟩, hspared, fun value hr =>
    (hsome value hr).2.2⟩
  obtain ⟨value, rfl⟩ := Option.ne_none_iff_exists'.mp hr
  exact ⟨(hsome value rfl).1, (hsome value rfl).2.1⟩

theorem doWait (h : System T init users cur k) (howner : (k.context cur).owner ≠ .idle)
    {store : CodeStore} (hcontext : context.owner = (k.context cur).owner) (hin : context.inWait)
    (hawaits : ∀ child, context.awaits child → pid = 0 ∨ child = pid) (hstore : store ≠ .unmapped) :
    Ends never (Process.doWait pid store context) k (Waited T init cur pid k) := by
  unfold Process.doWait
  rw [if_neg hstore]
  exact h.waitRepeat howner hcontext hin hawaits

/-- After its sleep a process ends or looks for a zombie again. -/
theorem waitResume (h : System T init users cur k) (howner : (k.context cur).owner ≠ .idle)
    {store : CodeStore} (hcontext : context.owner = (k.context cur).owner) (hin : context.inWait)
    (hawaits : ∀ child, context.awaits child → pid = 0 ∨ child = pid) :
    Ends (fun e => e = .initExit ∧ cur = init ∧ ¬ Spared init k)
    (Process.waitResume pid store context)
      k (Waited T init cur pid k) := by
  unfold Process.waitResume
  simp only [ends_bind, ends_get, ends_deref h.run.current]
  split
  next hexiting =>
    rw [ends_bind]
    refine (h.doExit howner).mono ?_ ?_
    · rintro e ⟨he, rfl⟩
      exact ⟨he, rfl, hexiting⟩
    · rintro _ k₁ ⟨⟨T₁, users₁, next, hidle, hsys⟩, hspared⟩
      exact ⟨⟨T₁, users₁, next, hidle, hsys, fun hr => absurd rfl hr⟩, hspared trivial,
        fun _ hno => by cases hno⟩
  next =>
    exact (h.waitRepeat howner hcontext hin hawaits).mono (fun _ he => he.elim) fun _ _ hpost =>
      hpost

/-- The current process asks to be rescheduled. -/
theorem setNeedResched (h : System T init users cur k) :
    System T init users cur { k with needResched := Function.update k.needResched cur true } := by
  have hsame : k.context = Function.update k.context cur (k.context cur) :=
    (Function.update_eq_self _ _).symm
  exact h.congr rfl rfl rfl rfl hsame rfl rfl rfl rfl h.run.current h.run.live h.run.state

theorem doYield (h : System T init users cur k) :
    Ends never doYield k fun _ k' => System T init users cur k' ∧
      k'.context = k.context ∧ k'.flags = k.flags := by
  unfold Process.doYield
  simp only [ends_bind, ends_get, ends_deref h.run.current, ends_modify, ends_pure]
  exact ⟨h.setNeedResched, trivial, trivial⟩

theorem timerInterrupt (h : System T init users cur k) :
    Ends never timerInterrupt k fun _ k' => System T init users cur k' ∧
      k'.context = k.context ∧ k'.flags = k.flags := by
  unfold Process.timerInterrupt
  simp only [ends_bind, ends_get, ends_deref h.run.current, ends_modify]
  exact ⟨h.setNeedResched, trivial, trivial⟩

theorem trapReturn (h : System T init users cur k) (howner : (k.context cur).owner = .user) :
    Ends never trapReturn k fun _ k' => Ordered init T.idle True k k' := by
  unfold Process.trapReturn
  simp only [ends_bind, ends_get, ends_deref h.run.current]
  split
  next => exact h.doExit_user howner
  next =>
    simp only [ends_bind, ends_get]
    split
    next => exact h.schedule howner.symm
    next =>
      rw [ends_pure]
      exact h.done rfl id

/-! ## System calls -/

theorem syscall (h : System T init users cur k) (howner : (k.context cur).owner = .user)
    {memory : ForkMemory} (hmemory : ∀ p ∈ memory.proc, p ∉ k.heap) (call : Syscall) :
    Ends (· = .paddr) (syscall memory call) k fun returned k' => ∃ T' users' next,
      T'.idle = T.idle ∧ System T' init users' next k' ∧
      (call ≠ .kill 1 → Spared init k → Spared init k') ∧
      (returned = true → next = cur ∧ (k'.context cur).owner = .user) := by
  have hne : (k.context cur).owner ≠ .idle := by
    rw [howner]
    decide
  have hstay : ∀ k', System T init users cur k' → (k'.context cur).owner = .user →
      (call ≠ .kill 1 → Spared init k → Spared init k') → ∃ T' users' next, T'.idle = T.idle ∧
        System T' init users' next k' ∧ (call ≠ .kill 1 → Spared init k → Spared init k') ∧
        (true = true → next = cur ∧ (k'.context cur).owner = .user) :=
    fun k' hsys hcur hspared => ⟨T, users, cur, rfl, hsys, hspared, fun _ => ⟨rfl, hcur⟩⟩
  have hleave : ∀ k', Ordered init T.idle True k k' → ∃ T' users' next, T'.idle = T.idle ∧
      System T' init users' next k' ∧ (call ≠ .kill 1 → Spared init k → Spared init k') ∧
      (false = true → next = cur ∧ (k'.context cur).owner = .user) := by
    rintro k' ⟨⟨T₁, users₁, next, hidle, hsys⟩, hspared⟩
    exact ⟨T₁, users₁, next, hidle, hsys, fun _ => hspared trivial, nofun⟩
  cases call with
  | exit errorCode =>
      rw [Process.syscall, ends_bind]
      exact (h.doExit_user howner).mono (fun _ he => he.elim) fun _ k' => hleave k'
  | fork =>
      rw [Process.syscall, ends_bind]
      apply (h.doFork hne rfl hmemory).imp
      rintro _ k₁ ⟨T₁, users₁, hidle, hsys, hspared, hself⟩
      rw [ends_pure]
      exact ⟨T₁, users₁, cur, hidle, hsys, fun _ => hspared, fun _ => ⟨rfl, hself ▸ howner⟩⟩
  | wait pid store =>
      rw [Process.syscall, ends_bind]
      by_cases hstore : store = .unmapped
      · rw [Process.doWait, if_pos hstore]
        exact hstay k h howner fun _ hs => hs
      · have hin : (Context.waiting pid store).inWait := trivial
        have hcontext : (Context.waiting pid store).owner = (k.context cur).owner := howner.symm
        refine (h.doWait hne hcontext hin (fun _ ha => ha) hstore).mono (fun _ he => he.elim) ?_
        rintro r k₁ ⟨⟨T₁, users₁, next, hidle, hsys, hnext⟩, hspared, _⟩
        refine ⟨T₁, users₁, next, hidle, hsys, fun _ => hspared, fun hr => ?_⟩
        obtain ⟨hcur, hself⟩ := hnext (Option.isSome_iff_ne_none.mp hr)
        exact ⟨hcur, hself ▸ howner⟩
  | exec failed =>
      cases failed with
      | none => exact hstay k h howner fun _ hs => hs
      | some errorCode =>
          rw [Process.syscall, ends_bind]
          exact (h.doExit_user howner).mono (fun _ he => he.elim) fun _ k' => hleave k'
  | yield =>
      rw [Process.syscall, ends_bind]
      refine h.doYield.mono (fun _ he => he.elim) ?_
      rintro _ k₁ ⟨hsys, hcontext, hflags⟩
      rw [ends_pure]
      exact hstay k₁ hsys (by rw [hcontext, howner]) fun _ hs => by rwa [Spared, hflags]
  | kill pid =>
      rw [Process.syscall, ends_bind]
      refine (doKill_spec h.inv h.root h.run).mono (fun _ he => he.elim) ?_
      rintro _ k₁ ⟨hinv, hroot, hrun, hcontext, hpid, hflags⟩
      rw [ends_pure]
      refine hstay k₁ ⟨hinv, hroot, hrun, by rw [hcontext]; exact h.owner, by rw [hpid, h.pid]⟩
        (by rw [hcontext, howner]) fun hkill hs => ?_
      rw [Spared, hflags init h.root.mem]
      · exact hs
      · rw [h.pid]
        rintro rfl
        exact hkill rfl
  | other => exact hstay k h howner fun _ hs => hs

/-- A trap from user mode. -/
theorem trap (h : System T init users cur k) (howner : (k.context cur).owner = .user)
    {event : Event} (hok : event.Permitted k) : Ends (· = .paddr) (trap event) k fun _ k' =>
      Ordered init T.idle (event.trap ≠ .syscall (.kill 1)) k k' := by
  unfold Process.trap
  split
  next =>
    rw [ends_bind]
    refine h.timerInterrupt.mono (fun _ he => he.elim) ?_
    rintro _ k₁ ⟨hsys, hcontext, hflags⟩
    refine (hsys.trapReturn (by rw [hcontext, howner])).mono (fun _ he => he.elim) ?_
    rintro _ k₂ ⟨hsystem, hspared⟩
    exact ⟨hsystem, fun _ hs => hspared trivial (by rw [Spared, hflags]; exact hs)⟩
  next call htrap =>
    rw [ends_bind]
    apply (h.syscall howner hok call).imp
    rintro returned k₁ ⟨T₁, users₁, next, hidle, hsys, hspared, hreturn⟩
    have hharmless : event.trap ≠ .syscall (.kill 1) → Spared init k → Spared init k₁ :=
      fun hkill => hspared fun heq => hkill (by rw [htrap, heq])
    cases returned with
    | false => exact ⟨⟨T₁, users₁, next, hidle, hsys⟩, hharmless⟩
    | true =>
        obtain ⟨rfl, huser⟩ := hreturn rfl
        refine (hsys.trapReturn huser).mono (fun _ he => he.elim) ?_
        rintro _ k₂ ⟨⟨T₂, users₂, next₂, hidle₂, hsys₂⟩, hspared₂⟩
        exact ⟨⟨T₂, users₂, next₂, hidle₂.trans hidle, hsys₂⟩,
          fun hkill hs => hspared₂ trivial (hharmless hkill hs)⟩
  next =>
    refine (h.trapReturn howner).mono (fun _ he => he.elim) ?_
    rintro _ k₁ ⟨hsystem, hspared⟩
    exact ⟨hsystem, fun _ => hspared trivial⟩

/-! ## Kernel threads -/

/-- When `init_main` ends there are no other processes, and its assertions hold. -/
theorem initFinish (h : System T init users cur k) (howner : (k.context cur).owner = .init)
    (hnone : ∀ q ∈ T.procs, k.parent q ≠ some init) :
    Ends (fun e => e = .initExit ∧ users = []) initFinish k fun _ k' =>
      Ordered init T.idle True k k' := by
  have husers : users = [] := by
    by_contra hne
    obtain ⟨p, hp, hpar⟩ := h.root.descend.exists_child hne
    exact hnone p (h.root.procs ▸ List.mem_append_left _ hp) hpar
  have hprocs : T.procs = [init] := by rw [h.root.procs, husers, List.nil_append]
  have hidle : T.Live T.idle := Or.inl rfl
  have hkids : T.kids init = [] := by
    apply List.eq_nil_iff_forall_not_mem.mpr
    intro q hq
    obtain ⟨hmem, hpar⟩ := (h.inv.family.child init h.init_live q).mp hq
    exact hnone q hmem hpar
  have hbrothers : T.kids T.idle = [init] := by
    have hmem := (h.inv.family.child T.idle hidle init).mpr ⟨h.root.mem, h.root.parent⟩
    have hsub : T.kids T.idle ⊆ [init] := hprocs ▸ h.inv.family.kids_subset hidle
    have hle := ((h.inv.family.nodup T.idle hidle).subperm hsub).length_le
    obtain ⟨xs, ys, hsplit⟩ := List.append_of_mem hmem
    rw [hsplit] at hle ⊢
    simp only [List.length_append, List.length_cons, List.length_nil] at hle
    have hxs : xs = [] := List.length_eq_zero_iff.mp (by omega)
    have hys : ys = [] := List.length_eq_zero_iff.mp (by omega)
    rw [hxs, hys, List.nil_append]
  have hcptr := h.inv.family.chain init h.init_live (by simp)
  have hchain := h.inv.family.chain T.idle hidle (by simp)
  rw [hkids] at hcptr
  rw [hbrothers] at hchain
  have hcount : k.nrProcess = 2 := by
    rw [h.inv.listed.count, hprocs]
    rfl
  have hring : k.links.Ring .procList ([] ++ [.listLink init]) := by
    have hlinks := h.inv.listed.links
    rwa [hprocs] at hlinks
  have hlast := hring.joined_last
  have hfirst := Links.Ring.joined_first hring
  unfold Process.initFinish
  simp only [ends_bind, ends_get, ends_deref h.root.initproc]
  rw [if_neg, if_neg (not_not.mpr hcount), if_neg (not_not.mpr hfirst.1),
    if_neg (not_not.mpr hlast.2)]
  · refine (h.doExit (by rw [howner]; decide)).mono ?_ fun _ _ hpost => hpost
    rintro e ⟨he, _⟩
    exact ⟨he, husers⟩
  · obtain ⟨_, hyptr, hoptr⟩ := hchain
    simp only [not_or, not_not]
    exact ⟨hcptr, hyptr, hoptr⟩

/-- `init_main` goes on after `do_wait`, and ends only when there are no other processes. -/
theorem initLoop (h : System T init users cur k) (howner : (k.context cur).owner = .init)
    {r : Option (Int × Option Int)} (hwaited : Waited T init cur 0 k r k') :
    Ends (fun e => e = .initExit ∧ users = []) (initLoop r) k' fun _ k'' =>
      Ordered init T.idle True k k'' := by
  obtain ⟨⟨T₁, users₁, next, hidle, hsys, hnext⟩, hspared, hfailed⟩ := hwaited
  cases r with
  | none => exact ⟨⟨T₁, users₁, next, hidle, hsys⟩, fun _ => hspared⟩
  | some value =>
      obtain ⟨code, store⟩ := value
      obtain ⟨rfl, hself⟩ := hnext nofun
      unfold Process.initLoop
      dsimp only
      split
      next =>
        have hloop : Context.initLoop.owner = (k'.context next).owner := by
          rw [hself, howner]
          rfl
        refine (hsys.schedule hloop).mono (fun _ he => he.elim) ?_
        rintro _ k₂ ⟨⟨T₂, users₂, next₂, hidle₂, hsys₂⟩, hspared₂⟩
        exact ⟨⟨T₂, users₂, next₂, hidle₂.trans hidle, hsys₂⟩,
          fun _ hs => hspared₂ trivial (hspared hs)⟩
      next hcode =>
        obtain ⟨rfl, hnone⟩ := hfailed _ rfl hcode
        have hinit := h.cur_eq_init howner
        exact h.initFinish howner fun q hq hpar =>
          hnone q hq (by rw [hpar, hinit]) (Or.inl rfl)

end System

/-! ## All steps -/

/-- Why a step may stop the kernel. -/
def Stops (init : Nat) (users : List Nat) (k : Kernel) (e : Panic) : Prop :=
  e = .paddr ∨ e = .createUserMain ∨ e = .exitReturned ∨
    e = .initExit ∧ (users = [] ∨ ¬ Spared init k)

namespace System

/-- A kernel thread goes on. -/
theorem runThread (h : System T init users cur k) (hcontext : k.context cur = context)
    (huser : context ≠ .user) (hwaiting : ∀ pid store, context ≠ .waiting pid store) {event : Event}
    (hok : event.Permitted k) : Ends (Stops init users k) (runThread context event) k fun _ k' =>
      Ordered init T.idle True k k' := by
  have hin : Context.initWaiting.inWait := trivial
  have hall : ∀ child, Context.initWaiting.awaits child → (0 : Int) = 0 ∨ child = 0 :=
    fun _ _ => Or.inl rfl
  have hrest : ∀ {E : Panic → Prop} {x : KernM Unit} {k₁ : Kernel},
      Ends E x k₁ (fun _ k' => Ordered init T.idle True k k') → (∀ e, E e → Stops init users k e) →
      Ends (Stops init users k) x k₁ fun _ k' => Ordered init T.idle True k k' :=
    fun hends hE => hends.mono hE fun _ _ hpost => hpost
  unfold Process.runThread
  simp only [ends_bind, ends_get, ends_deref h.run.current]
  split
  next =>
    refine h.timerInterrupt.mono (fun _ he => he.elim) ?_
    rintro _ k₁ ⟨hsys, _, hflags⟩
    exact hsys.done rfl fun hs => by rwa [Spared, hflags]
  next =>
    cases context with
    | user => exact absurd rfl huser
    | waiting pid store => exact absurd rfl (hwaiting pid store)
    | exited => exact Or.inr (Or.inr (Or.inl rfl))
    | cpuIdle =>
        simp only [ends_bind, ends_get]
        split
        next => exact hrest (h.schedule (by rw [hcontext])) fun _ he => he.elim
        next => exact h.done rfl id
    | initMain =>
        have howner : (k.context cur).owner = .init := by rw [hcontext]; rfl
        rw [ends_bind]
        refine (h.doFork (by rw [howner]; decide) rfl hok).mono (fun _ he => Or.inl he) ?_
        rintro pid k₁ ⟨T₁, users₁, hidle, hsys, hspared, hself⟩
        split
        next => exact Or.inr (Or.inl rfl)
        next =>
          rw [ends_modify]
          refine done (hsys.congr rfl rfl rfl rfl rfl ?_ rfl rfl rfl hsys.run.current hsys.run.live
            hsys.run.state) hidle hspared
          rw [hself, howner]
          rfl
    | initWaiting =>
        have howner : (k.context cur).owner = .init := by rw [hcontext]; rfl
        rw [ends_bind]
        refine (h.waitResume (by rw [howner]; decide) (by rw [howner]; rfl) hin hall).mono ?_ ?_
        · rintro e ⟨he, _, hkilled⟩
          exact Or.inr (Or.inr (Or.inr ⟨he, Or.inr hkilled⟩))
        · intro r k₁ hwaited
          exact hrest (h.initLoop howner hwaited) fun _ he =>
            Or.inr (Or.inr (Or.inr ⟨he.1, Or.inl he.2⟩))
    | initLoop =>
        have howner : (k.context cur).owner = .init := by rw [hcontext]; rfl
        rw [ends_bind]
        refine (h.doWait (by rw [howner]; decide) (by rw [howner]; rfl) hin hall (by decide)).mono
          (fun _ he => he.elim) ?_
        intro r k₁ hwaited
        exact hrest (h.initLoop howner hwaited) fun _ he =>
          Or.inr (Or.inr (Or.inr ⟨he.1, Or.inl he.2⟩))
    | userMain =>
        have howner : (k.context cur).owner = .user := by rw [hcontext]; rfl
        dsimp only
        split
        next =>
          rw [ends_modify]
          refine done (h.congr rfl rfl rfl rfl rfl ?_ rfl rfl rfl h.run.current h.run.live
            h.run.state) rfl id
          rw [howner]
          rfl
        next => exact hrest (h.doExit_user howner) fun _ he => he.elim
        next => exact h.done rfl id

/-- Every step keeps the system in order. -/
theorem step (h : System T init users cur k) {event : Event} (hok : event.Permitted k) :
    Ends (Stops init users k) (step event) k fun _ k' =>
      Ordered init T.idle (event.trap ≠ .syscall (.kill 1)) k k' := by
  unfold Process.step
  simp only [ends_bind, ends_get, ends_deref h.run.current]
  split
  next hcontext =>
    refine (h.trap (by rw [hcontext]; rfl) hok).mono (fun _ he => Or.inl he) fun _ _ hpost => hpost
  next pid store hcontext =>
    have howner : (k.context cur).owner = .user := by rw [hcontext]; rfl
    have hin : (Context.waiting pid store).inWait := trivial
    rw [ends_bind]
    refine (h.waitResume (by rw [howner]; decide)
      (by rw [howner]; rfl) hin fun _ ha => ha).mono ?_ ?_
    · rintro e ⟨_, heq, _⟩
      exact absurd heq (h.cur_ne_init howner)
    · rintro r k₁ ⟨⟨T₁, users₁, next, hidle, hsys, hnext⟩, hspared, _⟩
      split
      next hsome =>
        obtain ⟨rfl, hself⟩ := hnext (Option.isSome_iff_ne_none.mp hsome)
        refine (hsys.trapReturn (by rw [hself, howner])).mono (fun _ he => he.elim) ?_
        rintro _ k₂ ⟨⟨T₂, users₂, next₂, hidle₂, hsys₂⟩, hspared₂⟩
        exact ⟨⟨T₂, users₂, next₂, hidle₂.trans hidle, hsys₂⟩,
          fun _ hs => hspared₂ trivial (hspared hs)⟩
      next => exact ⟨⟨T₁, users₁, next, hidle, hsys⟩, fun _ => hspared⟩
  next context huser hwaiting =>
    refine (h.runThread rfl huser hwaiting hok).imp ?_
    rintro _ k₁ ⟨hsystem, hspared⟩
    exact ⟨hsystem, fun _ => hspared trivial⟩

end System

/-! ## Runs -/

/-- After `proc_init` the system is in order. -/
theorem Kernel.Started.system (hstart : k.Started) : ∃ T init cur,
    System T init [] cur k ∧ Spared init k := by
  obtain ⟨k₀, idle, memory, hboot, hmemory, hexec⟩ := hstart
  obtain ⟨_, T, init, rfl, hinv, hroot, hrun, hidle, hinit, hflags, hpid⟩ :=
    (procInit_spec hboot hmemory).of_exec hexec
  refine ⟨T, init, T.idle,
    ⟨hinv, hroot, hrun, fun p hp => ?_, hpid⟩, by rw [Spared, hflags]; decide⟩
  have hne : init ≠ T.idle := fun heq => hinv.family.idle (heq ▸ hroot.mem)
  rcases hp with rfl | hp
  · rw [hidle, Tree.owner, if_pos rfl]
    rfl
  · rw [hroot.procs, List.nil_append, List.mem_singleton] at hp
    rw [hp, hinit, Tree.owner, if_neg hne, if_pos rfl]
    rfl

/-- The system is in order after every run, and `initproc` is spared unless a process
has tried to kill it. -/
theorem Kernel.Started.run {k₁ : Kernel} {ok : Kernel → Event → Prop} (harmless : Prop)
    (hstart : k₁.Started) (hrun : RunsTo Event.step ok k₁ k)
    (hok : ∀ k event, ok k event → event.Permitted k ∧
      (harmless → event.trap ≠ .syscall (.kill 1))) :
    ∃ T init users cur, System T init users cur k ∧ (harmless → Spared init k) := by
  obtain ⟨T, init, cur, hsys, hspared⟩ := hstart.system
  have hinv : ∃ T users cur, System T init users cur k ∧ (harmless → Spared init k) := by
    apply hrun.invariant
    · exact ⟨T, [], cur, hsys, fun _ => hspared⟩
    · rintro k₂ event k₃ ⟨T₂, users₂, cur₂, hsys₂, hspared₂⟩ hevent hstep
      obtain ⟨hallowed, hharmless⟩ := hok k₂ event hevent
      obtain ⟨_, ⟨T₃, users₃, cur₃, _, hsys₃⟩, hspared₃⟩ := (hsys₂.step hallowed).of_exec hstep
      exact ⟨T₃, users₃, cur₃, hsys₃, fun hh => hspared₃ (hharmless hh) (hspared₂ hh)⟩
  obtain ⟨T, users, cur, hsys, hspared⟩ := hinv
  exact ⟨T, init, users, cur, hsys, hspared⟩

end Ucore.Process
