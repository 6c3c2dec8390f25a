import Ucore.Process.Graph

/-!
# Who sleeps and who is awake

`Settled` is about the states of the processes: whoever sleeps waits for a child, and
none of the children it waits for is a zombie. The specifications of the functions of
`sched.c` and `proc.c` follow, with what each of them does to the lists, the family and
the states.
-/

namespace Ucore.Process

open Machine

/-- A process that goes on here waits for the end of the child with the id `pid`. The id 0 stands
for any child. -/
def Context.awaits : Context → Int → Prop
  | .waiting pid _, child => pid = 0 ∨ child = pid
  | .initWaiting, _ => True
  | _, _ => False

/-- Here `do_wait` has called `schedule`. -/
def Context.inWait : Context → Prop
  | .waiting _ _ => True
  | .initWaiting => True
  | _ => False

/-- The children of `loose` are on their way to `initproc`. -/
structure Settled (T : Tree) (loose : Option Nat) (k : Kernel) : Prop where
  idle : k.state T.idle = .runnable
  started : ∀ p ∈ T.procs, k.state p ≠ .uninit
  asleep : ∀ p, T.Live p → k.state p = .sleeping →
    k.waitState p = WT_CHILD ∧ (k.context p).inWait
  awake : ∀ p, T.Live p → k.state p ≠ .sleeping → k.waitState p = 0
  watched : ∀ p, T.Live p → k.state p = .sleeping → ∀ q ∈ T.procs, k.parent q = some p →
    (k.context p).awaits (k.pid q) → k.state q ≠ .zombie
  childless : ∀ p, T.Live p → k.state p = .zombie → loose ≠ some p →
    ∀ q ∈ T.procs, k.parent q ≠ some p

structure Inv (T : Tree) (loose : Option Nat) (k : Kernel) : Prop where
  listed : Listed T k.toLists
  family : Family T loose k.toRelations
  settled : Settled T loose k
  heap : ∀ p, p ∈ k.heap ↔ T.Live p
  idleproc : k.idleproc = some T.idle

/-- `cur` is the current process, and runs. -/
structure Running (T : Tree) (cur : Nat) (k : Kernel) : Prop where
  current : k.current = some cur
  live : T.Live cur
  state : k.state cur = .runnable

/-- Every process has its parent behind it on the list, or is a child of `init`. -/
def Descend (parent : Nat → Option Nat) (init : Nat) : List Nat → Prop
  | [] => True
  | p :: rest => (∃ q ∈ rest ++ [init], parent p = some q) ∧ Descend parent init rest

/-- `initproc` is the oldest process on the list. -/
structure Rooted (T : Tree) (init : Nat) (users : List Nat) (k : Kernel) : Prop where
  initproc : k.initproc = some init
  procs : T.procs = users ++ [init]
  descend : Descend k.parent init users
  parent : k.parent init = some T.idle
  alive : k.state init ≠ .zombie

/-- What a function that runs for `cur` leaves alone. -/
structure Frame (T : Tree) (cur : Nat) (k k' : Kernel) : Prop where
  idleproc : k'.idleproc = k.idleproc
  initproc : k'.initproc = k.initproc
  context : ∀ p, T.Live p → p ≠ cur → k'.context p = k.context p
  flags : ∀ p, T.Live p → k'.flags p = k.flags p
  pid : ∀ p, T.Live p → k'.pid p = k.pid p

section

variable {T : Tree} {k k' : Kernel} {cur proc parent init p q : Nat} {loose : Option Nat}
  {context : Context}

namespace Settled

theorem congr (h : Settled T loose k) (hstate : ∀ p, T.Live p → k'.state p = k.state p)
    (hwait : ∀ p, T.Live p → k'.waitState p = k.waitState p)
    (hcontext : ∀ p, T.Live p → k'.context p = k.context p)
    (hparent : ∀ p, T.Live p → k'.parent p = k.parent p)
    (hpid : ∀ p, T.Live p → k'.pid p = k.pid p) : Settled T loose k' := by
  constructor
  · rw [hstate _ (Or.inl rfl), h.idle]
  · intro p hp
    rw [hstate p (Or.inr hp)]
    exact h.started p hp
  · intro p hp
    rw [hstate p hp, hwait p hp, hcontext p hp]
    exact h.asleep p hp
  · intro p hp
    rw [hstate p hp, hwait p hp]
    exact h.awake p hp
  · intro p hp hs q hq
    rw [hparent q (Or.inr hq), hcontext p hp, hpid q (Or.inr hq), hstate q (Or.inr hq)]
    rw [hstate p hp] at hs
    exact h.watched p hp hs q hq
  · intro p hp hs hloose q hq
    rw [hparent q (Or.inr hq)]
    rw [hstate p hp] at hs
    exact h.childless p hp hs hloose q hq

/-- `wait_state` is `WT_CHILD` for those who sleep. -/
theorem sleeping_of_wait (h : Settled T loose k) (hp : T.Live p) (hwait : k.waitState p ≠ 0) :
    k.state p = .sleeping := by
  by_contra hno
  exact hwait (h.awake p hp hno)

/-- A process wakes up. -/
theorem wake (h : Settled T loose k) :
    Settled T loose { k with
      state := Function.update k.state p .runnable
      waitState := Function.update k.waitState p 0 } := by
  have hstate : ∀ q s, s ≠ .runnable → Function.update k.state p .runnable q = s →
      q ≠ p ∧ k.state q = s := by
    intro q s hs hq
    by_cases hqp : q = p
    · subst hqp
      rw [Function.update_self] at hq
      exact absurd hq.symm hs
    · rw [Function.update_of_ne hqp] at hq
      exact ⟨hqp, hq⟩
  constructor
  · show Function.update k.state p .runnable T.idle = .runnable
    by_cases hip : T.idle = p
    · rw [hip, Function.update_self]
    · rw [Function.update_of_ne hip, h.idle]
  · intro q hq hs
    exact h.started q hq (hstate q _ (by decide) hs).2
  · intro q hq hs
    obtain ⟨hqp, hs⟩ := hstate q _ (by decide) hs
    obtain ⟨hwait, hcontext⟩ := h.asleep q hq hs
    exact ⟨(Function.update_of_ne hqp _ _).trans hwait, hcontext⟩
  · intro q hq hs
    show Function.update k.waitState p 0 q = 0
    by_cases hqp : q = p
    · rw [hqp, Function.update_self]
    · rw [Function.update_of_ne hqp]
      exact h.awake q hq fun hk => hs ((Function.update_of_ne hqp _ _).trans hk)
  · intro q hq hs c hc hpar hawaits hz
    exact h.watched q hq (hstate q _ (by decide) hs).2 c hc hpar hawaits
      (hstate c _ (by decide) hz).2
  · intro q hq hs
    exact h.childless q hq (hstate q _ (by decide) hs).2

/-- The process `cur` ends, while its parent is awake. -/
theorem die (h : Settled T none k) (hidle : cur ≠ T.idle)
    (hrun : k.state cur = .runnable)
    (hparent : ∀ p, k.parent cur = some p → k.state p ≠ .sleeping) :
    Settled T (some cur) { k with state := Function.update k.state cur .zombie } := by
  have hother : ∀ q, q ≠ cur → Function.update k.state cur .zombie q = k.state q :=
    fun q hq => Function.update_of_ne hq _ _
  have hself : Function.update k.state cur .zombie cur = .zombie := Function.update_self ..
  have hasleep : ∀ q, Function.update k.state cur .zombie q = .sleeping →
      q ≠ cur ∧ k.state q = .sleeping := by
    intro q hq
    by_cases hqc : q = cur
    · rw [hqc, hself] at hq
      cases hq
    · exact ⟨hqc, (hother q hqc).symm.trans hq⟩
  constructor
  · exact (hother _ (Ne.symm hidle)).trans h.idle
  · intro q hq hs
    by_cases hqc : q = cur
    · rw [hqc] at hs
      cases hself.symm.trans hs
    · exact h.started q hq ((hother q hqc).symm.trans hs)
  · intro q hq hs
    exact h.asleep q hq (hasleep q hs).2
  · intro q hq hs
    by_cases hqc : q = cur
    · exact h.awake q hq (by rw [hqc, hrun]; decide)
    · exact h.awake q hq fun hk => hs ((hother q hqc).trans hk)
  · intro q hq hs c hc hpar hawaits hz
    by_cases hcc : c = cur
    · exact hparent q (hcc ▸ hpar) (hasleep q hs).2
    · exact h.watched q hq (hasleep q hs).2 c hc hpar hawaits ((hother c hcc).symm.trans hz)
  · intro q hq hs hqc
    have hqc : q ≠ cur := fun heq => hqc (congrArg some heq.symm)
    exact h.childless q hq ((hother q hqc).symm.trans hs) (by simp)

/-- A child moves to `init`, which is awake if the child is a zombie. -/
theorem adopt (h : Settled T loose k) (cur proc : Nat) (halive : k.state init ≠ .zombie)
    (hwoken : k.state proc = .zombie → k.state init ≠ .sleeping) :
    Settled (T.adopt cur proc init) loose { k with
      parent := Function.update k.parent proc (some init) } := by
  have hparent : ∀ q p, Function.update k.parent proc (some init) q = some p →
      q = proc ∧ p = init ∨ k.parent q = some p := by
    intro q p hq
    by_cases hqp : q = proc
    · subst hqp
      rw [Function.update_self] at hq
      exact Or.inl ⟨rfl, (Option.some.inj hq).symm⟩
    · rw [Function.update_of_ne hqp] at hq
      exact Or.inr hq
  refine ⟨h.idle, h.started, h.asleep, h.awake, ?_, ?_⟩
  · intro p hp hs q hq hpar hawaits hz
    rcases hparent q p hpar with ⟨rfl, rfl⟩ | hpar
    · exact hwoken hz hs
    · exact h.watched p hp hs q hq hpar hawaits hz
  · intro p hp hs hloose q hq hpar
    rcases hparent q p hpar with ⟨rfl, rfl⟩ | hpar
    · exact halive hs
    · exact h.childless p hp hs hloose q hq hpar

/-- All children of `cur` have gone to `init`. -/
theorem settle (h : Settled T (some cur) k) (hempty : ∀ q ∈ T.procs, k.parent q ≠ some cur) :
    Settled T none k := by
  refine ⟨h.idle, h.started, h.asleep, h.awake, h.watched, fun p hp hs _ => ?_⟩
  by_cases hpc : cur = p
  · exact hpc ▸ hempty
  · exact h.childless p hp hs fun heq => hpc (Option.some.inj heq)

/-- A process that does not sleep goes on elsewhere. -/
theorem move (h : Settled T loose k) (context : Context) (hcur : k.state cur ≠ .sleeping) :
    Settled T loose { k with context := Function.update k.context cur context } := by
  have hother : ∀ p, k.state p = .sleeping →
      Function.update k.context cur context p = k.context p := by
    intro p hp
    apply Function.update_of_ne
    rintro rfl
    exact hcur hp
  refine ⟨h.idle, h.started, ?_, h.awake, ?_, h.childless⟩
  · intro p hp hs
    obtain ⟨hwait, hin⟩ := h.asleep p hp hs
    refine ⟨hwait, ?_⟩
    show (Function.update k.context cur context p).inWait
    rwa [hother p hs]
  · intro p hp hs q hq hpar hawaits
    exact h.watched p hp hs q hq hpar (hother p hs ▸ hawaits)

/-- The process `cur` starts to wait, when no child that it waits for is a zombie. -/
theorem sleep (h : Settled T none k) (hidle : cur ≠ T.idle) (hrun : k.state cur = .runnable)
    (hin : context.inWait) (hnone : ∀ q ∈ T.procs, k.parent q = some cur →
      context.awaits (k.pid q) → k.state q ≠ .zombie) :
    Settled T none { k with
      state := Function.update k.state cur .sleeping
      waitState := Function.update k.waitState cur WT_CHILD
      context := Function.update k.context cur context } := by
  have hother : ∀ q, q ≠ cur → Function.update k.state cur .sleeping q = k.state q :=
    fun q hq => Function.update_of_ne hq _ _
  have hzombie : ∀ q, Function.update k.state cur .sleeping q = .zombie → k.state q = .zombie := by
    intro q hq
    by_cases hqc : q = cur
    · rw [hqc, Function.update_self] at hq
      cases hq
    · exact (hother q hqc).symm.trans hq
  constructor
  · exact (hother _ (Ne.symm hidle)).trans h.idle
  · intro q hq hs
    by_cases hqc : q = cur
    · rw [hqc] at hs
      have hself : Function.update k.state cur .sleeping cur = .sleeping := Function.update_self ..
      cases hself.symm.trans hs
    · exact h.started q hq ((hother q hqc).symm.trans hs)
  · intro q hq hs
    show Function.update k.waitState cur WT_CHILD q = WT_CHILD ∧
      (Function.update k.context cur context q).inWait
    by_cases hqc : q = cur
    · subst hqc
      rw [Function.update_self, Function.update_self]
      exact ⟨rfl, hin⟩
    · rw [Function.update_of_ne hqc, Function.update_of_ne hqc]
      exact h.asleep q hq ((hother q hqc).symm.trans hs)
  · intro q hq hs
    by_cases hqc : q = cur
    · exact absurd (hqc ▸ Function.update_self ..) hs
    · exact (Function.update_of_ne hqc _ _).trans
        (h.awake q hq fun hk => hs ((hother q hqc).trans hk))
  · intro p hp hs q hq hpar hawaits hz
    by_cases hpc : p = cur
    · subst hpc
      refine hnone q hq hpar ?_ (hzombie q hz)
      exact (Function.update_self p context k.context : _ = context) ▸ hawaits
    · refine h.watched p hp ((hother p hpc).symm.trans hs) q hq hpar ?_ (hzombie q hz)
      exact (Function.update_of_ne hpc context k.context : _ = k.context p) ▸ hawaits
  · intro p hp hs _
    exact h.childless p hp (hzombie p hs) (by simp)

/-- A new process enters. -/
theorem push (h : Settled T none k) (context : Context) (pid : Int) (hnew : ¬ T.Live proc)
    (hrun : k.state cur = .runnable) (i : Fin HASH_LIST_SIZE) :
    Settled (T.push proc cur i) none { k with
      state := Function.update k.state proc .runnable
      waitState := Function.update k.waitState proc 0
      context := Function.update k.context proc context
      parent := Function.update k.parent proc (some cur)
      pid := Function.update k.pid proc pid } := by
  have hlive : ∀ q, (T.push proc cur i).Live q → q ≠ proc → T.Live q := by
    intro q hq hqp
    exact hq.imp id fun hmem => (List.mem_cons.mp hmem).resolve_left hqp
  have hstate : ∀ q s, s ≠ .runnable → Function.update k.state proc .runnable q = s →
      q ≠ proc ∧ k.state q = s := by
    intro q s hs hq
    by_cases hqp : q = proc
    · rw [hqp, Function.update_self] at hq
      exact absurd hq.symm hs
    · exact ⟨hqp, (Function.update_of_ne hqp _ _ : _ = k.state q).symm.trans hq⟩
  constructor
  · have hne : T.idle ≠ proc := fun heq => hnew (Or.inl heq.symm)
    exact (Function.update_of_ne hne _ _).trans h.idle
  · intro q hq hs
    obtain ⟨hqp, hs⟩ := hstate q _ (by decide) hs
    exact h.started q ((List.mem_cons.mp hq).resolve_left hqp) hs
  · intro q hq hs
    obtain ⟨hqp, hs⟩ := hstate q _ (by decide) hs
    obtain ⟨hwait, hin⟩ := h.asleep q (hlive q hq hqp) hs
    refine ⟨(Function.update_of_ne hqp _ _).trans hwait, ?_⟩
    show (Function.update k.context proc context q).inWait
    rwa [Function.update_of_ne hqp]
  · intro q hq hs
    show Function.update k.waitState proc 0 q = 0
    by_cases hqp : q = proc
    · rw [hqp, Function.update_self]
    · rw [Function.update_of_ne hqp]
      exact h.awake q (hlive q hq hqp) fun hk => hs ((Function.update_of_ne hqp _ _).trans hk)
  · intro p hp hs q hq hpar hawaits hz
    obtain ⟨hpp, hs⟩ := hstate p _ (by decide) hs
    obtain ⟨hqp, hz⟩ := hstate q _ (by decide) hz
    refine h.watched p (hlive p hp hpp) hs q ((List.mem_cons.mp hq).resolve_left hqp)
      ((Function.update_of_ne hqp _ _ : _ = k.parent q).symm.trans hpar) ?_ hz
    have hcontext : Function.update k.context proc context p = k.context p :=
      Function.update_of_ne hpp _ _
    have hpid : Function.update k.pid proc pid q = k.pid q := Function.update_of_ne hqp _ _
    exact hcontext ▸ hpid ▸ hawaits
  · intro p hp hs _ q hq hpar
    obtain ⟨hpp, hs⟩ := hstate p _ (by decide) hs
    by_cases hqp : q = proc
    · have hself : Function.update k.parent proc (some cur) q = some cur := by
        rw [hqp, Function.update_self]
      rw [← Option.some.inj (hself.symm.trans hpar), hrun] at hs
      cases hs
    · exact h.childless p (hlive p hp hpp) hs (by simp) q ((List.mem_cons.mp hq).resolve_left hqp)
        ((Function.update_of_ne hqp _ _ : _ = k.parent q).symm.trans hpar)

/-- A process is removed. -/
theorem remove (h : Settled T none k) (parent : Nat) (i : Fin HASH_LIST_SIZE) :
    Settled (T.remove proc parent i) none k := by
  have hmem : ∀ q ∈ (T.remove proc parent i).procs, q ∈ T.procs :=
    fun q hq => List.mem_of_mem_erase hq
  have hlive : ∀ q, (T.remove proc parent i).Live q → T.Live q := fun q hq => hq.imp id (hmem q)
  exact ⟨h.idle, fun q hq => h.started q (hmem q hq), fun q hq => h.asleep q (hlive q hq),
    fun q hq => h.awake q (hlive q hq),
    fun p hp hs q hq => h.watched p (hlive p hp) hs q (hmem q hq),
    fun p hp hs hloose q hq => h.childless p (hlive p hp) hs hloose q (hmem q hq)⟩

end Settled

end

end Ucore.Process
