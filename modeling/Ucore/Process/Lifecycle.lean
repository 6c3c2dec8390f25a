import Ucore.Foundation.Runs
import Ucore.Process.Spec

/-!
# The process graph over all histories of fork, exit and wait

The system starts with `proc_init`. Then processes that can run call `do_fork`,
`do_exit` and `do_wait`, in any order.
-/

namespace Ucore.Process

open Machine

variable {T : Tree} {k k' : Kernel} {cur init idle p q : Nat} {users : List Nat}

/-! ## The start -/

/-- The tree that `proc_init` starts with. -/
def Tree.lone (idle : Nat) : Tree := ⟨idle, [], fun _ => [], fun _ => []⟩

theorem Tree.lone_live : (Tree.lone idle).Live p ↔ p = idle := by
  simp [Tree.Live, Tree.lone]

/-- Only `idleproc` exists. -/
theorem lone_inv (hlinks : k.links.Ring .procList []) (hhash : ∀ i, k.hash.Ring (.hashList i) [])
    (hcount : k.nrProcess = 1) (hpids : k.lastPid = MAX_PID ∧ k.nextSafe = MAX_PID)
    (hparent : k.parent idle = none)
    (hptrs : k.cptr idle = none ∧ k.yptr idle = none ∧ k.optr idle = none)
    (hstate : k.state idle = .runnable) (hwait : k.waitState idle = 0) (hheap : k.heap = {idle})
    (hidleproc : k.idleproc = some idle) : Inv (.lone idle) none k := by
  obtain ⟨hcptr, hyptr, hoptr⟩ := hptrs
  refine ⟨⟨hlinks, hhash, by simp [Tree.lone], hcount, ?_⟩, ?_, ?_, ?_, hidleproc⟩
  · rw [hpids.1, hpids.2]
    exact .boot
  · refine ⟨by simp [Tree.lone], fun q hq _ => ?_, by simp, fun _ _ => List.nodup_nil, ?_, ?_,
      hoptr, hyptr, hparent⟩
    · rw [Tree.lone_live.mp hq]
      exact hcptr
    · simp [Tree.lone]
    · simp [Tree.lone]
  · refine ⟨hstate, by simp [Tree.lone], fun q hq hs => ?_, fun q hq _ => ?_, ?_, ?_⟩
    · rw [Tree.lone_live.mp hq, hstate] at hs
      cases hs
    · rw [Tree.lone_live.mp hq, hwait]
    · simp [Tree.lone]
    · simp [Tree.lone]
  · intro q
    rw [hheap, Tree.lone_live, Finset.mem_singleton]

/-- The loop of `proc_init` empties the lists of the hash table. -/
theorem initHash_spec (is : List (Fin HASH_LIST_SIZE)) : Ends never (initHash is) k fun _ k' =>
    ∃ hash : Links HashEntry, (∀ i ∈ is, hash.Ring (.hashList i) []) ∧
      k' = { k with hash := hash } := by
  unfold initHash
  have hloop := ends_forM (E := never) (f := fun i =>
      (modify fun k => { k with hash := k.hash.listInit (.hashList i) } : KernM PUnit))
    (P := fun rest k' => ∃ hash : Links HashEntry,
      (∀ i ∈ is, i ∉ rest → hash.Ring (.hashList i) []) ∧ k' = { k with hash := hash })
    (fun i rest k' => by
      rintro ⟨hash, hempty, rfl⟩
      refine ⟨hash.listInit (.hashList i), fun j hj hrest => ?_, rfl⟩
      by_cases hji : j = i
      · exact hji ▸ Links.listInit_ring hash _
      · exact (hempty j hj (by simp [hji, hrest])).listInit_other (by simpa using Ne.symm hji))
    is k ⟨k.hash, fun i hi hno => absurd hi hno, rfl⟩
  apply hloop.imp
  rintro _ _ ⟨hash, hempty, rfl⟩
  exact ⟨hash, fun i hi => hempty i hi List.not_mem_nil, rfl⟩

theorem initIdle_spec (hboot : k.Boot) : Ends never (initIdle idle) k fun _ k' =>
    Inv (.lone idle) none k' ∧ Running (.lone idle) idle k' ∧ k'.context idle = .cpuIdle ∧
      k'.heap = {idle} := by
  unfold initIdle
  simp only [ends_bind, ends_modify]
  refine (initHash_spec (k := { k with links := k.links.listInit .procList }) _).imp ?_
  rintro _ _ ⟨hash, hempty, rfl⟩
  simp only [allocProc, ends_modify]
  have hheap : insert idle k.heap = {idle} := by simp [hboot.heap]
  refine ⟨?_, ⟨rfl, Tree.lone_live.mpr rfl, Function.update_self ..⟩, Function.update_self ..,
    hheap⟩
  apply lone_inv
  · exact Links.listInit_ring _ _
  · exact fun i => hempty i (List.mem_finRange i)
  · simp [hboot.nrProcess]
  · exact ⟨hboot.lastPid, hboot.nextSafe⟩
  · exact Function.update_self ..
  · exact ⟨Function.update_self .., Function.update_self .., Function.update_self ..⟩
  · exact Function.update_self ..
  · exact Function.update_self ..
  · exact hheap
  · rfl

/-- After `proc_init` there are `idleproc`, which runs, and `initproc`. -/
theorem procInit_spec {memory : ForkMemory} (hboot : k.Boot) (hmemory : memory.proc ≠ some idle) :
    Ends (fun _ => True) (procInit idle memory) k fun _ k' => ∃ T init, T.idle = idle ∧
      Inv T none k' ∧ Rooted T init [] k' ∧ Running T idle k' ∧ k'.context idle = .cpuIdle ∧
      k'.context init = .initMain ∧ k'.flags init = 0 ∧ k'.pid init = 1 := by
  unfold procInit
  rw [ends_bind]
  refine (initIdle_spec hboot).mono (fun _ _ => trivial) ?_
  rintro _ k₁ ⟨hinv, hrun, hidle, hheap⟩
  rw [ends_bind]
  refine (doFork_spec hinv hrun ?_).mono (fun _ _ => trivial) ?_
  · intro p hp hmem
    rw [hheap, Finset.mem_singleton] at hmem
    exact hmemory (hmem ▸ hp)
  rintro pid k₂ ⟨hframe, hcurrent, hcontext, hstate, hfork⟩
  split
  next => trivial
  next hpos =>
    rcases hfork with ⟨hle, _⟩ | ⟨proc, i, hnew, _, _, hinv₂, hpid, hparent, hentry,
      hflags, hrunnable⟩
    · exact absurd hle hpos
    · rw [ends_bind]
      refine (findProc_spec hinv₂.listed).mono (fun _ _ => trivial) ?_
      rintro r k₃ ⟨hk, hr⟩
      subst k₃
      have hproc : r = some proc :=
        (hr proc).mpr ⟨List.mem_cons_self, by rw [hpid, Function.update_self]⟩
      subst hproc
      simp only [ends_bind, ends_modify, ends_deref rfl, ends_get]
      split
      next => trivial
      next hone =>
        have hlive : (Tree.lone idle).Live idle := Tree.lone_live.mpr rfl
        refine ⟨_, proc, rfl, ⟨hinv₂.listed, hinv₂.family, ?_, hinv₂.heap, hinv₂.idleproc⟩,
          ⟨rfl, rfl, trivial, ?_, ?_⟩, ⟨?_, Or.inl rfl, ?_⟩, ?_, hentry, hflags, not_not.mp hone⟩
        · exact hinv₂.settled.congr (fun _ _ => rfl) (fun _ _ => rfl) (fun _ _ => rfl)
            (fun _ _ => rfl) fun _ _ => rfl
        · show k₂.parent proc = some idle
          rw [hparent, Function.update_self]
        · show k₂.state proc ≠ .zombie
          rw [hrunnable]
          decide
        · exact hcurrent.trans hrun.current
        · exact (hstate idle hlive).trans hrun.state
        · exact hcontext.trans hidle

/-! ## Histories -/

/-- A kernel after `proc_init`, which has made `idleproc` and `initproc`; `idle` and `memory` are
what it got from `kmalloc`. -/
def Kernel.Started (k : Kernel) : Prop := ∃ (k₀ : Kernel) (idle : Nat) (memory : ForkMemory),
  k₀.Boot ∧ memory.proc ≠ some idle ∧ exec (procInit idle memory) k₀ = some k

/-- What a process may call. -/
inductive LifeOp
  | fork (memory : ForkMemory)
  | exit (errorCode : Int)
  | wait (pid : Int) (store : CodeStore)

def LifeOp.run : LifeOp → KernM Unit
  | .fork memory => do
      let _ ← doFork .user memory
  | .exit errorCode => doExit errorCode
  | .wait pid store => do
      let _ ← doWait pid store (.waiting pid store)

/-- The process `call.1` runs and makes the call `call.2`. -/
def LifeOp.step (k : Kernel) (call : Nat × LifeOp) : Option Kernel :=
  exec call.2.run { k with current := some call.1 }

/-- Memory that `kmalloc` returns is not in use. -/
def LifeOp.Allocated (k : Kernel) : LifeOp → Prop
  | .fork memory => ∀ p ∈ memory.proc, p ∉ k.heap
  | _ => True

/-- Any process but `idleproc` may call, when it can run. What the call gets from `kmalloc` is not
in use. -/
structure LifeOp.Permitted (k : Kernel) (call : Nat × LifeOp) : Prop where
  exists' : call.1 ∈ k.heap
  idle : k.idleproc ≠ some call.1
  runnable : k.state call.1 = .runnable
  allocated : call.2.Allocated k

instance (k : Kernel) (op : LifeOp) : Decidable (op.Allocated k) := by
  cases op <;> unfold LifeOp.Allocated <;> infer_instance

instance (k : Kernel) (call : Nat × LifeOp) : Decidable (LifeOp.Permitted k call) :=
  decidable_of_iff (call.1 ∈ k.heap ∧ k.idleproc ≠ some call.1 ∧ k.state call.1 = .runnable ∧
    call.2.Allocated k) ⟨fun ⟨h₁, h₂, h₃, h₄⟩ => ⟨h₁, h₂, h₃, h₄⟩,
      fun ⟨h₁, h₂, h₃, h₄⟩ => ⟨h₁, h₂, h₃, h₄⟩⟩

/-- The pointers, the lists and the count of processes fit together. All of it is in terms of the
fields of `proc_struct`. -/
structure Kernel.Consistent (k : Kernel) : Prop where
  /-- `proc_list` has every process but `idleproc` once. -/
  procList : ∃ procs : List Nat, k.links.Ring .procList (procs.map .listLink) ∧ procs.Nodup ∧
    (∀ p, p ∈ procs ↔ p ∈ k.heap ∧ k.idleproc ≠ some p) ∧ k.nrProcess = procs.length + 1
  /-- The hash table has every process but `idleproc` once, by its id. -/
  hashList : ∀ i, ∃ chain : List Nat, k.hash.Ring (.hashList i) (chain.map .hashLink) ∧
    chain.Nodup ∧ ∀ p, p ∈ chain ↔ p ∈ k.heap ∧ k.idleproc ≠ some p ∧ pidHashfn (k.pid p) = i
  /-- `cptr` and then `optr` lead to the children of a process, once to each, and end. -/
  children : ∀ q ∈ k.heap, ∃ kids : List Nat, Follows k.optr (k.cptr q) kids ∧ kids.Nodup ∧
    ∀ p, p ∈ kids ↔ p ∈ k.heap ∧ k.parent p = some q
  /-- `yptr` is the inverse of `optr`. -/
  younger : ∀ p ∈ k.heap, ∀ q ∈ k.heap, k.optr p = some q ↔ k.yptr q = some p

theorem Inv.consistent (hinv : Inv T none k) : k.Consistent := by
  have hmem : ∀ p, p ∈ T.procs ↔ p ∈ k.heap ∧ k.idleproc ≠ some p := by
    intro p
    rw [hinv.heap p, hinv.idleproc]
    constructor
    · intro hp
      exact ⟨Or.inr hp, fun heq => hinv.family.idle (Option.some.inj heq ▸ hp)⟩
    · rintro ⟨rfl | hp, hidle⟩
      · exact absurd rfl hidle
      · exact hp
  have hchild : ∀ q ∈ k.heap, ∀ p, p ∈ T.kids q ↔ p ∈ k.heap ∧ k.parent p = some q := by
    intro q hq p
    rw [hinv.family.child q ((hinv.heap q).mp hq) p, hinv.heap p]
    constructor
    · rintro ⟨hp, hpar⟩
      exact ⟨Or.inr hp, hpar⟩
    · rintro ⟨rfl | hp, hpar⟩
      · rw [hinv.family.alone.2.2] at hpar
        cases hpar
      · exact ⟨hp, hpar⟩
  refine ⟨⟨T.procs, hinv.listed.links, hinv.listed.nodup, hmem, hinv.listed.count⟩, fun i => ?_,
    fun q hq => ?_, fun p hp q hq => ?_⟩
  · refine ⟨T.chains i, hinv.listed.hash i, hinv.listed.chain_nodup i, fun p => ?_⟩
    rw [hinv.listed.chains i p, hmem p, and_assoc]
  · have hlive := (hinv.heap q).mp hq
    exact ⟨T.kids q, hinv.family.follows hlive, hinv.family.nodup q hlive, hchild q hq⟩
  · -- Both say that `p` comes before `q` in the chain of one parent.
    have hpair : ∀ x, T.Live x → x ≠ T.idle → ∃ r, T.Live r ∧ x ∈ T.kids r := by
      intro x hx hxi
      obtain ⟨r, hr, hpar⟩ := hinv.family.parent x (hx.resolve_left hxi)
      exact ⟨r, hr, (hinv.family.child r hr x).mpr ⟨hx.resolve_left hxi, hpar⟩⟩
    constructor
    · intro holder
      have hidle : p ≠ T.idle := by
        rintro rfl
        rw [hinv.family.alone.1] at holder
        cases holder
      obtain ⟨r, hr, hmem⟩ := hpair p ((hinv.heap p).mp hp) hidle
      exact ((hinv.family.chain r hr (by simp)).inverse.mp ⟨hmem, holder⟩).2
    · intro hyounger
      have hidle : q ≠ T.idle := by
        rintro rfl
        rw [hinv.family.alone.2.1] at hyounger
        cases hyounger
      obtain ⟨r, hr, hmem⟩ := hpair q ((hinv.heap q).mp hq) hidle
      exact ((hinv.family.chain r hr (by simp)).inverse.mpr ⟨hmem, hyounger⟩).2

/-- Another process becomes the current one. -/
theorem Inv.setCurrent (hinv : Inv T none k) (current : Option Nat) :
    Inv T none { k with current := current } :=
  ⟨hinv.listed, hinv.family, hinv.settled.congr (fun _ _ => rfl) (fun _ _ => rfl) (fun _ _ => rfl)
    (fun _ _ => rfl) fun _ _ => rfl, hinv.heap, hinv.idleproc⟩

theorem LifeOp.run_spec {op : LifeOp} (hinv : Inv T none k) (hroot : Rooted T init users k)
    (hok : LifeOp.Permitted k (p, op)) :
    Ends (fun e => (e = .paddr ∧ ∃ memory, op = .fork memory ∧ memory.kstack = false) ∨
      e = .initExit ∧ k.initproc = some p) op.run { k with current := some p } fun _ k' =>
      ∃ T' users', Inv T' none k' ∧ Rooted T' init users' k' := by
  have hlive := (hinv.heap p).mp hok.exists'
  have hproc : p ∈ T.procs := by
    rcases hlive with rfl | hproc
    · exact absurd hinv.idleproc hok.idle
    · exact hproc
  have hinv' := hinv.setCurrent (some p)
  have hroot' : Rooted T init users { k with current := some p } :=
    hroot.congr rfl rfl rfl (fun _ _ => Or.inl rfl) rfl hroot.alive
  have hrun : Running T p { k with current := some p } := ⟨rfl, hlive, hok.runnable⟩
  cases op with
  | fork memory =>
      rw [LifeOp.run, ends_bind]
      refine (doFork_spec hinv' hrun hok.allocated).mono
        (fun e he => Or.inl ⟨he.1, memory, rfl, he.2⟩) ?_
      rintro r k₁ ⟨hframe, _, _, hstate, hfork⟩
      rcases hfork with ⟨_, hinv₁, hparent⟩ |
        ⟨proc, i, hnew, _, _, hinv₁, _, hparent, _, _, hrunnable⟩
      · refine ⟨T, users, hinv₁, hroot'.congr rfl rfl hframe.initproc (fun q hq => Or.inl ?_) ?_ ?_⟩
        · exact hparent q (Or.inr (hroot.procs ▸ List.mem_append_left _ hq))
        · exact hparent init (Or.inr hroot.mem)
        · rw [hstate init (Or.inr hroot.mem)]
          exact hroot.alive
      · have halive : k₁.state init ≠ .zombie := by
          rw [hstate init (Or.inr hroot.mem)]
          exact hroot.alive
        exact ⟨_, _, hinv₁, hroot'.push hnew hproc i hframe.initproc hparent halive⟩
  | exit errorCode =>
      refine (doExit_spec hinv' hroot' hrun hproc).mono ?_ ?_
      · rintro e ⟨he, rfl⟩
        exact Or.inr ⟨he, hroot.initproc⟩
      · rintro _ k₁ ⟨T', _, _, _, _, hinv₁, hroot₁, _⟩
        exact ⟨T', users, hinv₁, hroot₁⟩
  | wait pid store =>
      rw [LifeOp.run, ends_bind]
      unfold doWait
      split
      next => exact ⟨T, users, hinv', hroot'⟩
      next =>
        have hin : (Context.waiting pid store).inWait := trivial
        refine (waitRepeat_spec hinv' hroot' hrun hproc hin fun _ h => h).mono
          (fun _ he => he.elim) ?_
        rintro _ k₁ ⟨T', users', _, _, _, hinv₁, hroot₁, _⟩
        exact ⟨T', users', hinv₁, hroot₁⟩

/-- The process graph is consistent after any history of fork, exit and wait. -/
theorem lifecycle_consistent {k₁ : Kernel} (hstart : k₁.Started)
    (hrun : RunsTo LifeOp.step LifeOp.Permitted k₁ k) : k.Consistent := by
  obtain ⟨k₀, idle, memory, hboot, hmemory, hexec⟩ := hstart
  have hinv : ∃ T init users, Inv T none k ∧ Rooted T init users k := by
    apply hrun.invariant
    · obtain ⟨_, T, init, _, hinv, hroot, _⟩ := (procInit_spec hboot hmemory).of_exec hexec
      exact ⟨T, init, [], hinv, hroot⟩
    · rintro k₂ ⟨p, op⟩ k₃ ⟨T, init, users, hinv, hroot⟩ hok hstep
      obtain ⟨_, T', users', hinv', hroot'⟩ := (LifeOp.run_spec hinv hroot hok).of_exec hstep
      exact ⟨T', init, users', hinv', hroot'⟩
  obtain ⟨T, _, _, hinv, _⟩ := hinv
  exact hinv.consistent

/-- A kernel whose memory is all zero, but for the variables with initial values. -/
def Kernel.zero : Kernel where
  links := ⟨fun _ => .procList, fun _ => .procList⟩
  hash := ⟨fun _ => .hashLink 0, fun _ => .hashLink 0⟩
  pid _ := 0
  nrProcess := 0
  lastPid := MAX_PID
  nextSafe := MAX_PID
  parent _ := none
  cptr _ := none
  yptr _ := none
  optr _ := none
  state _ := .uninit
  needResched _ := false
  context _ := .user
  flags _ := 0
  exitCode _ := 0
  waitState _ := 0
  heap := ∅
  idleproc := none
  initproc := none
  current := none

theorem Kernel.boot_zero : Kernel.zero.Boot := ⟨rfl, rfl, rfl, rfl, rfl, rfl, rfl⟩

/-- `initproc` has a child and a grandchild; the child ends, its child becomes one of
`initproc`, and the zombie is removed. -/
theorem lifecycle_consistent_orphan : ∃ k : Kernel,
    k.cptr 101 = some 103 ∧ k.parent 103 = some 101 ∧ k.nrProcess = 3 ∧ k.Consistent := by
  have hfold : ((exec (procInit 100 ⟨some 101, true, true⟩) .zero).bind fun k =>
      ([(101, .fork ⟨some 102, true, true⟩), (102, .fork ⟨some 103, true, true⟩), (102, .exit 0),
        (101, .wait 0 .null)] : List (Nat × LifeOp)).foldlM
          (fun k call => if LifeOp.Permitted k call then LifeOp.step k call else none) k).map
        (fun k => (k.cptr 101, k.parent 103, k.nrProcess)) = some (some 103, some 101, 3) := by
    decide +kernel
  obtain ⟨k, hk, hvalues⟩ := Option.map_eq_some_iff.mp hfold
  obtain ⟨k₁, hstart, hrun⟩ := Option.bind_eq_some_iff.mp hk
  obtain ⟨hcptr, hparent, hcount⟩ := by simpa only [Prod.mk.injEq] using hvalues
  exact ⟨k, hcptr, hparent, hcount, lifecycle_consistent
    ⟨_, 100, _, Kernel.boot_zero, by decide, hstart⟩ (RunsTo.of_foldlM hrun)⟩

end Ucore.Process
