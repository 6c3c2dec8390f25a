import Ucore.Process.System

/-!
# Waiting for children, and the end of `initproc`

The two safety properties of runs of the kernel: a process never sleeps while a child
it waits for is a zombie, and `initproc` only ends when no user process is left. The
second one holds as long as nobody kills `initproc`.
-/

namespace Ucore.Process

open Machine

/-- In every state of every run whoever sleeps is in `do_wait`, none of the children it
waits for is a zombie, and no step wakes up a zombie. -/
theorem wait_notLost {k₁ k : Kernel} (hstart : k₁.Started)
    (hrun : RunsTo Event.step Event.Permitted k₁ k) :
    (∀ p ∈ k.heap, k.state p = .sleeping → k.waitState p = WT_CHILD ∧ (k.context p).inWait ∧
      ∀ q ∈ k.heap, k.parent q = some p → (k.context p).awaits (k.pid q) → k.state q ≠ .zombie) ∧
    ∀ event, event.Permitted k → step event k ≠ .error .wakeupZombie := by
  obtain ⟨T, init, users, cur, hsys, _⟩ := hstart.run False hrun
    fun _ _ hevent => ⟨hevent, fun hfalse => hfalse.elim⟩
  constructor
  · intro p hp hs
    have hlive := (hsys.inv.heap p).mp hp
    obtain ⟨hwait, hin⟩ := hsys.inv.settled.asleep p hlive hs
    refine ⟨hwait, hin, fun q hq hpar hawaits => ?_⟩
    rcases (hsys.inv.heap q).mp hq with rfl | hmem
    · rw [hsys.inv.settled.idle]
      decide
    · exact hsys.inv.settled.watched p hlive hs q hmem hpar hawaits
  · intro event hevent herror
    have hstops := (hsys.step hevent).of_error herror
    unfold Stops at hstops
    simp at hstops

/-- There is memory for one process. -/
def someMemory (proc : Nat) : ForkMemory := ⟨some proc, true, true⟩

def noMemory : ForkMemory := ⟨none, false, false⟩

/-- `initproc` starts a user process and waits for it. -/
def startUser : List Event :=
  [⟨.other, noMemory⟩, ⟨.other, someMemory 102⟩, ⟨.other, noMemory⟩,
    ⟨.syscall (.exec none), noMemory⟩]

/-- `initproc` sleeps, and the child that it waits for is no zombie. -/
theorem wait_notLost_init : ∃ k : Kernel, k.state 101 = .sleeping ∧ k.parent 102 = some 101 ∧
    k.state 102 ≠ .zombie := by
  have hfold : ((exec (procInit 100 (someMemory 101)) .zero).bind fun k =>
      startUser.foldlM
        (fun k event => if event.Permitted k then Event.step k event else none) k).map
        (fun k => (k.state 101, k.parent 102, decide (101 ∈ k.heap), decide (102 ∈ k.heap),
          k.context 101)) = some (.sleeping, some 101, true, true, .initWaiting) := by
    decide +kernel
  obtain ⟨k, hk, hvalues⟩ := Option.map_eq_some_iff.mp hfold
  obtain ⟨k₁, hstart, hrun⟩ := Option.bind_eq_some_iff.mp hk
  simp only [Prod.mk.injEq, decide_eq_true_eq] at hvalues
  obtain ⟨hsleeps, hparent, hinit, huser, hcontext⟩ := hvalues
  obtain ⟨hlost, _⟩ := wait_notLost ⟨_, 100, _, Kernel.boot_zero, by decide, hstart⟩
    (RunsTo.of_foldlM hrun)
  obtain ⟨_, _, hwatched⟩ := hlost 101 hinit hsleeps
  exact ⟨k, hsleeps, hparent, hwatched 102 huser hparent (by rw [hcontext]; trivial)⟩

/-! ## The end of `initproc` -/

/-- No step makes `idleproc` end, or `initproc` while there is another process. `do_exit` panics in
both cases. -/
def Kernel.KeepsInit (k : Kernel) : Prop := ∀ event : Event, event.Permitted k →
  step event k ≠ .error .idleExit ∧
  (step event k = .error .initExit → ∀ p ∈ k.heap, k.idleproc = some p ∨ k.initproc = some p)

/-- As long as no process kills the process 1, `initproc` ends only when it is alone. -/
theorem init_outlives {k₁ k : Kernel} (hstart : k₁.Started)
    (hrun : RunsTo Event.step
      (fun k event => event.Permitted k ∧ event.trap ≠ .syscall (.kill 1)) k₁ k) :
    k.KeepsInit := by
  obtain ⟨T, init, users, cur, hsys, hspared⟩ := hstart.run True hrun
    fun _ _ hevent => ⟨hevent.1, fun _ => hevent.2⟩
  intro event hevent
  constructor
  · intro herror
    have hstops := (hsys.step hevent).of_error herror
    unfold Stops at hstops
    simp at hstops
  · intro herror p hp
    have hstops := (hsys.step hevent).of_error herror
    unfold Stops at hstops
    simp only [reduceCtorEq, true_and, false_or] at hstops
    have hempty := hstops.resolve_right (not_not.mpr (hspared trivial))
    rcases (hsys.inv.heap p).mp hp with rfl | hmem
    · exact Or.inl hsys.inv.idleproc
    · rw [hsys.root.procs, hempty, List.nil_append, List.mem_singleton] at hmem
      exact Or.inr (hmem ▸ hsys.root.initproc)

theorem init_outlives_user : ∃ k : Kernel, 102 ∈ k.heap ∧ k.KeepsInit := by
  have hfold : ((exec (procInit 100 (someMemory 101)) .zero).bind fun k =>
      startUser.foldlM (fun k event => if event.Permitted k ∧ event.trap ≠ .syscall (.kill 1)
        then Event.step k event else none) k).map (fun k => decide (102 ∈ k.heap)) = some true := by
    decide +kernel
  obtain ⟨k, hk, huser⟩ := Option.map_eq_some_iff.mp hfold
  obtain ⟨k₁, hstart, hrun⟩ := Option.bind_eq_some_iff.mp hk
  exact ⟨k, of_decide_eq_true huser, init_outlives ⟨_, 100, _, Kernel.boot_zero, by decide, hstart⟩
    (RunsTo.of_foldlM hrun)⟩

/-- The user process kills the process 1 and yields. -/
def killInit : List Event :=
  startUser ++ [⟨.syscall (.kill 1), noMemory⟩, ⟨.syscall .yield, noMemory⟩]

/-- Then `initproc` runs, and ends before the user process. -/
theorem init_killed : ¬ ∀ k₁ k : Kernel, k₁.Started → RunsTo Event.step Event.Permitted k₁ k →
    k.KeepsInit := by
  intro hclaim
  have hfold : ((exec (procInit 100 (someMemory 101)) .zero).bind fun k =>
      killInit.foldlM (fun k event => if event.Permitted k then Event.step k event else none) k).map
        (fun k => (decide (102 ∈ k.heap), k.idleproc, k.initproc,
          match step ⟨.other, noMemory⟩ k with
          | .error e => some e
          | .ok _ => none)) = some (true, some 100, some 101, some .initExit) := by
    decide +kernel
  obtain ⟨k, hk, hvalues⟩ := Option.map_eq_some_iff.mp hfold
  obtain ⟨k₁, hstart, hrun⟩ := Option.bind_eq_some_iff.mp hk
  simp only [Prod.mk.injEq, decide_eq_true_eq] at hvalues
  obtain ⟨huser, hidle, hinit, hstep⟩ := hvalues
  have herror : step ⟨.other, noMemory⟩ k = .error .initExit := by
    cases hx : step ⟨.other, noMemory⟩ k with
    | ok r =>
        rw [hx] at hstep
        cases hstep
    | error e =>
        rw [hx] at hstep
        rw [Option.some.inj hstep]
  have hkeeps :=
    hclaim k₁ k ⟨_, 100, _, Kernel.boot_zero, by decide, hstart⟩ (RunsTo.of_foldlM hrun)
  rcases (hkeeps ⟨.other, noMemory⟩ (by simp [Event.Permitted, noMemory])).2 herror 102 huser
    with h | h
  · rw [hidle] at h
    cases h
  · rw [hinit] at h
    cases h

end Ucore.Process
