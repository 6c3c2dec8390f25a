import Ucore.Process.Settled

/-!
# What the functions of `proc.c` and `sched.c` do

One specification for each function, in terms of the tree of processes.
-/

namespace Ucore.Process

open Machine

variable {T : Tree} {k k' : Kernel} {cur proc parent init p q : Nat} {users : List Nat} {pid : Int}
  {context : Context} {E : Panic → Prop}

theorem ends_deref {o : Option Nat} (h : o = some p) {Q : Nat → Kernel → Prop} :
    Ends E (deref o) k Q ↔ Q p k := by
  rw [h]
  exact Iff.rfl

/-! ## The oldest process -/

namespace Descend

variable {parent : Nat → Option Nat}

theorem mem (h : Descend parent init users) (hp : p ∈ users) :
    ∃ q ∈ users ++ [init], parent p = some q := by
  induction users with
  | nil => cases hp
  | cons u rest ih =>
      rcases List.mem_cons.mp hp with rfl | hp
      · obtain ⟨q, hq, hpar⟩ := h.1
        exact ⟨q, List.mem_cons_of_mem _ hq, hpar⟩
      · obtain ⟨q, hq, hpar⟩ := ih h.2 hp
        exact ⟨q, List.mem_cons_of_mem _ hq, hpar⟩

/-- Some process is a child of `init`. -/
theorem exists_child (h : Descend parent init users) (hne : users ≠ []) :
    ∃ p ∈ users, parent p = some init := by
  induction users with
  | nil => exact absurd rfl hne
  | cons u rest ih =>
      cases rest with
      | nil =>
          obtain ⟨q, hq, hpar⟩ := h.1
          obtain rfl := List.mem_singleton.mp hq
          exact ⟨u, List.mem_cons_self, hpar⟩
      | cons v rest =>
          obtain ⟨p, hp, hpar⟩ := ih h.2 (List.cons_ne_nil v rest)
          exact ⟨p, List.mem_cons_of_mem _ hp, hpar⟩

theorem congr (h : Descend parent init users) {parent' : Nat → Option Nat}
    (hsame : ∀ p ∈ users, parent' p = parent p ∨ parent' p = some init) :
    Descend parent' init users := by
  induction users with
  | nil => trivial
  | cons u rest ih =>
      refine ⟨?_, ih h.2 fun p hp => hsame p (List.mem_cons_of_mem _ hp)⟩
      rcases hsame u List.mem_cons_self with hu | hu
      · rw [hu]
        exact h.1
      · exact ⟨init, by simp, hu⟩

theorem erase (h : Descend parent init users) (hinit : proc ≠ init)
    (hchildless : ∀ p ∈ users, parent p ≠ some proc) : Descend parent init (users.erase proc) := by
  induction users with
  | nil => trivial
  | cons u rest ih =>
      by_cases hu : u = proc
      · rw [hu, List.erase_cons_head]
        exact h.2
      · rw [List.erase_cons_tail (by simpa using hu)]
        refine ⟨?_, ih h.2 fun p hp => hchildless p (List.mem_cons_of_mem _ hp)⟩
        obtain ⟨q, hq, hpar⟩ := h.1
        have hqp : q ≠ proc := by
          rintro rfl
          exact hchildless u List.mem_cons_self hpar
        refine ⟨q, ?_, hpar⟩
        rcases List.mem_append.mp hq with hq | hq
        · exact List.mem_append_left _ ((List.mem_erase_of_ne hqp).mpr hq)
        · exact List.mem_append_right _ hq

end Descend

namespace Rooted

theorem mem (h : Rooted T init users k) : init ∈ T.procs := by
  rw [h.procs]
  simp

/-- What a step that keeps the list of processes does to the parents. -/
theorem congr (h : Rooted T init users k) {T' : Tree} (hprocs : T'.procs = T.procs)
    (hidle : T'.idle = T.idle) (hinitproc : k'.initproc = k.initproc)
    (hparent : ∀ p ∈ users, k'.parent p = k.parent p ∨ k'.parent p = some init)
    (hinit : k'.parent init = k.parent init) (halive : k'.state init ≠ .zombie) :
    Rooted T' init users k' :=
  ⟨hinitproc.trans h.initproc, hprocs.trans h.procs, h.descend.congr hparent,
    by rw [hinit, h.parent, hidle], halive⟩

theorem push (h : Rooted T init users k) (hnew : ¬ T.Live proc) (hcur : cur ∈ T.procs)
    (i : Fin HASH_LIST_SIZE) (hinitproc : k'.initproc = k.initproc)
    (hparent : k'.parent = Function.update k.parent proc (some cur))
    (halive : k'.state init ≠ .zombie) :
    Rooted (T.push proc cur i) init (proc :: users) k' := by
  have hne : ∀ p ∈ T.procs, p ≠ proc := fun p hp heq => hnew (Or.inr (heq ▸ hp))
  have hinit := hne init h.mem
  refine ⟨hinitproc.trans h.initproc, ?_, ⟨⟨cur, h.procs ▸ hcur, ?_⟩, ?_⟩, ?_, halive⟩
  · show proc :: T.procs = proc :: users ++ [init]
    rw [h.procs, List.cons_append]
  · rw [hparent, Function.update_self]
  · apply h.descend.congr
    intro p hp
    have hpp := hne p (h.procs ▸ List.mem_append_left _ hp)
    rw [hparent, Function.update_of_ne hpp]
    exact Or.inl rfl
  · rw [hparent, Function.update_of_ne hinit, h.parent]
    rfl

theorem remove (h : Rooted T init users k) (hproc : proc ∈ T.procs)
    (hne : proc ≠ init) (hchildless : ∀ p ∈ T.procs, k.parent p ≠ some proc) (parent : Nat)
    (i : Fin HASH_LIST_SIZE) (hinitproc : k'.initproc = k.initproc) (hparent : k'.parent = k.parent)
    (hstate : k'.state = k.state) :
    Rooted (T.remove proc parent i) init (users.erase proc) k' := by
  have husers : proc ∈ users := by
    rw [h.procs] at hproc
    simpa [hne] using hproc
  refine ⟨hinitproc.trans h.initproc, ?_, ?_, ?_, ?_⟩
  · show T.procs.erase proc = users.erase proc ++ [init]
    rw [h.procs, List.erase_append_left _ husers]
  · rw [hparent]
    exact h.descend.erase hne fun p hp => hchildless p (h.procs ▸ List.mem_append_left _ hp)
  · rw [hparent]
    exact h.parent
  · rw [hstate]
    exact h.alive

end Rooted

/-! ## `sched.c` -/

theorem wakeupProc_spec (hzombie : k.state proc ≠ .zombie) (hrunnable : k.state proc ≠ .runnable) :
    Ends never (wakeupProc proc) k fun _ k' => k' = { k with
      state := Function.update k.state proc .runnable
      waitState := Function.update k.waitState proc 0 } := by
  unfold wakeupProc
  simp [hzombie, hrunnable]

/-- The loop of `schedule` comes back to `last`, with a process of the list if any. -/
theorem pickNext_spec {last le : ListEntry} {es : List ListEntry} {fuel : Nat} {next : Option Nat}
    {P : Nat → Prop} (hwalk : Links.Visits k.links.next last le es) (hfuel : es.length < fuel)
    (hmem : ∀ p, ListEntry.listLink p ∈ last :: es → P p) (hnext : ∀ p, next = some p → P p) :
    ∃ r, pickNext k.toLists k.state last fuel le next = some r ∧ ∀ p, r = some p → P p := by
  induction es generalizing le fuel next with
  | nil =>
      obtain ⟨n, rfl⟩ : ∃ n, fuel = n + 1 := ⟨fuel - 1, by simp at hfuel; omega⟩
      have hend : k.links.next le = last := hwalk
      cases last with
      | procList => exact ⟨next, by simp [pickNext, hend], hnext⟩
      | listLink p =>
          refine ⟨some p, by simp [pickNext, hend], fun q hq => ?_⟩
          rw [← Option.some.inj hq]
          exact hmem p List.mem_cons_self
  | cons e es ih =>
      obtain ⟨n, rfl⟩ : ∃ n, fuel = n + 1 := ⟨fuel - 1, by simp at hfuel; omega⟩
      obtain ⟨hstep, hne, hrest⟩ := hwalk
      have hsub : ∀ p, ListEntry.listLink p ∈ last :: es → P p := by
        intro p hp
        apply hmem p
        rcases List.mem_cons.mp hp with hp | hp
        · exact hp ▸ List.mem_cons_self
        · exact List.mem_cons_of_mem _ (List.mem_cons_of_mem _ hp)
      have hlen : es.length < n := by simpa using hfuel
      cases e with
      | procList =>
          obtain ⟨r, hr, hP⟩ := ih hrest hlen hsub hnext
          exact ⟨r, by simp [pickNext, hstep, hne, hr], hP⟩
      | listLink p =>
          have hp : P p := hmem p (by simp)
          by_cases hrun : k.state p = .runnable
          · refine ⟨some p, by simp [pickNext, hstep, hrun], fun q hq => ?_⟩
            rw [← Option.some.inj hq]
            exact hp
          · obtain ⟨r, hr, hP⟩ := @ih (.listLink p) n (some p) hrest hlen hsub fun q hq =>
              Option.some.inj hq ▸ hp
            exact ⟨r, by simp [pickNext, hstep, hne, hrun, hr], hP⟩

/-- `schedule` goes on with a process that can run. -/
theorem schedule_spec (hlisted : Listed T k.toLists) (hcurrent : k.current = some cur)
    (hlive : T.Live cur) (hidleproc : k.idleproc = some T.idle)
    (hidle : k.state T.idle = .runnable) :
    Ends never (schedule context) k fun _ k' => ∃ next, T.Live next ∧ k.state next = .runnable ∧
      k' = { k with
        needResched := Function.update k.needResched cur false
        context := Function.update k.context cur context
        current := some next } := by
  have hlen := hlisted.length_le
  obtain ⟨r, hr, hmem⟩ : ∃ r, pickNext k.toLists k.state
      (if cur = T.idle then .procList else .listLink cur) listBound
      (if cur = T.idle then .procList else .listLink cur) none = some r ∧
      ∀ p, r = some p → p ∈ T.procs := by
    by_cases hcur : cur = T.idle
    · rw [if_pos hcur]
      apply pickNext_spec hlisted.links.visits_next
      · rw [List.length_map]
        unfold listBound
        omega
      · simp
      · simp
    · rw [if_neg hcur]
      obtain ⟨xs, ys, hsplit⟩ := List.append_of_mem (hlive.resolve_left hcur)
      have hring := hlisted.links
      rw [hsplit, List.map_append, List.map_cons] at hring
      rw [hsplit, List.length_append, List.length_cons] at hlen
      apply pickNext_spec hring.rotate.visits_next
      · rw [List.length_append, List.length_cons, List.length_map, List.length_map]
        unfold listBound
        omega
      · intro p hp
        rw [hsplit]
        simp only [List.mem_cons, ListEntry.listLink.injEq, List.mem_append, List.mem_map,
          exists_eq_right, reduceCtorEq, false_or] at hp ⊢
        tauto
      · simp
  have hlast : (if k.current = k.idleproc then ListEntry.procList else .listLink cur) =
      if cur = T.idle then .procList else .listLink cur := by
    rw [hcurrent, hidleproc]
    simp
  unfold schedule
  simp only [ends_bind, ends_get, ends_deref hcurrent, ends_modify]
  rw [hlast, hr]
  cases r with
  | none =>
      simp only [ends_bind, ends_deref hidleproc, ends_modify]
      exact ⟨T.idle, Or.inl rfl, hidle, rfl⟩
  | some p =>
      have hp := hmem p rfl
      by_cases hrun : k.state p = .runnable
      · simp only [hrun, if_true, ends_bind, ends_pure, ends_modify]
        exact ⟨p, Or.inr hp, hrun, rfl⟩
      · simp only [hrun, if_false, ends_bind, ends_deref hidleproc, ends_modify]
        exact ⟨T.idle, Or.inl rfl, hidle, rfl⟩

/-! ## The lists -/

theorem findProc_spec (hlisted : Listed T k.toLists) :
    Ends never (findProc pid) k fun r k' => k' = k ∧ ∀ p, r = some p ↔ p ∈ T.procs ∧
      k.pid p = pid := by
  unfold findProc
  by_cases hrange : 0 < pid ∧ pid < MAX_PID
  · have hlen := hlisted.chain_length_le (pidHashfn pid)
    have hfind := Listed.findFrom_visits pid (hlisted.hash (pidHashfn pid)).visits_next
      (by unfold listBound; omega : _ < listBound)
    simp only [if_pos hrange, ends_bind, ends_get, hfind, ends_pure, true_and]
    exact hlisted.findFrom_eq pid _ hfind
  · simp only [if_neg hrange, ends_pure, true_and]
    intro p
    constructor
    · intro h
      cases h
    · rintro ⟨hp, rfl⟩
      exact absurd (hlisted.pids.range _ (List.mem_map_of_mem hp)) hrange

theorem allocPid_spec (hlisted : Listed T k.toLists) :
    Ends never allocPid k fun pid k' => ∃ safe, (1 ≤ pid ∧ pid < MAX_PID) ∧
      pid ∉ T.procs.map k.pid ∧ safe ≤ MAX_PID ∧ Gap (pid :: T.procs.map k.pid) (pid + 1) safe ∧
      k' = { k with lastPid := pid, nextSafe := safe } := by
  obtain ⟨last, safe, hfuel, hlo, hhi, hnew, hmax, hgap⟩ := hlisted.pids.getPid
  unfold allocPid
  have hget := hfuel MAX_PID.toNat (by decide)
  simp only [ends_bind, ends_get, hlisted.listProcs_eq, hget, ends_modify, ends_pure]
  exact ⟨safe, ⟨hlo, hhi⟩, hnew, hmax, hgap, rfl⟩

theorem setLinks_spec (hparent : k.parent proc = some parent) :
    Ends never (setLinks proc) k fun _ k' => k' = { k with
      links := k.links.listAdd .procList (.listLink proc)
      cptr := Function.update k.cptr parent (some proc)
      yptr := relink (Function.update k.yptr proc none) (k.cptr parent) (some proc)
      optr := Function.update k.optr proc (k.cptr parent)
      nrProcess := k.nrProcess + 1 } := by
  unfold setLinks
  simp only [ends_bind, ends_get, ends_modify, ends_deref hparent, Function.update_self]

theorem removeLinks_spec (hparent : k.parent proc = some parent) (hself : k.optr proc ≠ some proc) :
    Ends never (removeLinks proc) k fun _ k' => k' = { k with
      links := k.links.listDel (.listLink proc)
      cptr := if k.yptr proc = none then Function.update k.cptr parent (k.optr proc) else k.cptr
      yptr := relink k.yptr (k.optr proc) (k.yptr proc)
      optr := relink k.optr (k.yptr proc) (k.optr proc)
      nrProcess := k.nrProcess - 1 } := by
  unfold removeLinks
  simp only [ends_bind, ends_get, ends_modify, relink_of_ne hself]
  cases hyounger : k.yptr proc with
  | none => simp [ends_deref hparent, relink]
  | some younger => simp [relink]

/-! ## Fork -/

theorem enterProc_spec (hlisted : Listed T k.toLists)
    (hparent : k.parent proc = some parent) (hstate : k.state proc = .uninit) :
    Ends never (enterProc proc) k fun pid k' => ∃ safe, (1 ≤ pid ∧ pid < MAX_PID) ∧
      pid ∉ T.procs.map k.pid ∧ safe ≤ MAX_PID ∧ Gap (pid :: T.procs.map k.pid) (pid + 1) safe ∧
      k' = { k with
        links := k.links.listAdd .procList (.listLink proc)
        hash := k.hash.listAdd (.hashList (pidHashfn pid)) (.hashLink proc)
        pid := Function.update k.pid proc pid
        nrProcess := k.nrProcess + 1
        lastPid := pid
        nextSafe := safe
        cptr := Function.update k.cptr parent (some proc)
        yptr := relink (Function.update k.yptr proc none) (k.cptr parent) (some proc)
        optr := Function.update k.optr proc (k.cptr parent)
        state := Function.update k.state proc .runnable
        waitState := Function.update k.waitState proc 0 } := by
  unfold enterProc
  rw [ends_bind]
  apply (allocPid_spec hlisted).imp
  rintro pid _ ⟨safe, hpid, hfresh, hmax, hgap, rfl⟩
  simp only [ends_bind, ends_modify, hashProc, Function.update_self]
  refine (setLinks_spec (k := { k with
    hash := k.hash.listAdd (.hashList (pidHashfn pid)) (.hashLink proc)
    pid := Function.update k.pid proc pid
    lastPid := pid
    nextSafe := safe }) hparent).imp ?_
  rintro _ _ rfl
  refine (wakeupProc_spec ?_ ?_).imp ?_
  · show k.state proc ≠ .zombie
    rw [hstate]
    decide
  · show k.state proc ≠ .runnable
    rw [hstate]
    decide
  · rintro _ _ rfl
    exact ⟨safe, hpid, hfresh, hmax, hgap, rfl⟩

/-- `do_fork` makes a new process, a child of the current one, or changes nothing. It
stops the kernel when there is no page for the stack. -/
theorem doFork_spec (hinv : Inv T none k) (hrun : Running T cur k) {memory : ForkMemory}
    (hmemory : ∀ p, memory.proc = some p → p ∉ k.heap) :
    Ends (fun e => e = .paddr ∧ memory.kstack = false) (doFork context memory) k fun r k' =>
      Frame T cur k k' ∧ k'.current = k.current ∧ k'.context cur = k.context cur ∧
      (∀ p, T.Live p → k'.state p = k.state p) ∧
      ((r ≤ 0 ∧ Inv T none k' ∧ ∀ p, T.Live p → k'.parent p = k.parent p) ∨
        ∃ proc i, ¬ T.Live proc ∧ memory.proc = some proc ∧ 0 < r ∧
          Inv (T.push proc cur i) none k' ∧ k'.pid = Function.update k.pid proc r ∧
          k'.parent = Function.update k.parent proc (some cur) ∧ k'.context proc = context ∧
          k'.flags proc = 0 ∧ k'.state proc = .runnable) := by
  unfold doFork
  simp only [ends_bind, ends_get]
  split
  next =>
    rw [ends_pure]
    exact ⟨⟨rfl, rfl, fun _ _ _ => rfl, fun _ _ => rfl, fun _ _ => rfl⟩, rfl, rfl, fun _ _ => rfl,
      Or.inl ⟨by decide, hinv, fun _ _ => rfl⟩⟩
  next hroom =>
    cases hproc : memory.proc with
    | none =>
        -- `alloc_proc` has failed
        rw [ends_pure]
        exact ⟨⟨rfl, rfl, fun _ _ _ => rfl, fun _ _ => rfl, fun _ _ => rfl⟩, rfl,
          rfl, fun _ _ => rfl, Or.inl ⟨by decide, hinv, fun _ _ => rfl⟩⟩
    | some proc =>
        have hheap := hmemory proc hproc
        have hnew : ¬ T.Live proc := fun hlive => hheap ((hinv.heap proc).mpr hlive)
        have hprocs : proc ∉ T.procs := fun hp => hnew (Or.inr hp)
        have hother : ∀ {β : Type} (f : Nat → β) (v : β) p, T.Live p →
            Function.update f proc v p = f p := by
          intro β f v p hp
          apply Function.update_of_ne
          rintro rfl
          exact hnew hp
        have hlisted : Listed T { k.toLists with pid := Function.update k.pid proc (-1) } :=
          hinv.listed.congr_pid fun p hp => hother _ _ p (Or.inr hp)
        have hfamily : Family T none {
            parent := Function.update (Function.update k.parent proc none) proc k.current
            cptr := Function.update k.cptr proc none
            yptr := Function.update k.yptr proc none
            optr := Function.update k.optr proc none } :=
          hinv.family.congr (fun p hp => (hother _ _ p hp).trans (hother _ _ p hp))
            (hother _ _) (hother _ _) (hother _ _)
        simp only [allocProc, ends_bind, ends_modify]
        split
        next hkstack => exact ⟨rfl, hkstack⟩
        next =>
          split
          next =>
            simp only [kfree, ends_bind, ends_modify, ends_pure]
            refine ⟨⟨rfl, rfl, fun _ _ _ => rfl, hother _ _, hother _ _⟩, trivial,
              trivial, hother _ _,
              Or.inl ⟨by decide, ⟨hlisted, hfamily, ?_, ?_, hinv.idleproc⟩, ?_⟩⟩
            · exact hinv.settled.congr (hother _ _) (hother _ _) (fun _ _ => rfl)
                (fun p hp => (hother _ _ p hp).trans (hother _ _ p hp)) (hother _ _)
            · intro p
              rw [← hinv.heap p, Finset.erase_insert hheap]
            · exact fun p hp => (hother _ _ p hp).trans (hother _ _ p hp)
          next =>
            have hcur : cur ≠ proc := fun heq => hnew (heq ▸ hrun.live)
            rw [hrun.current] at hfamily ⊢
            refine ((enterProc_spec hlisted (Function.update_self ..)
              (Function.update_self ..)).mono (fun _ he => he.elim) ?_)
            rintro pid _ ⟨safe, hpid, hfresh, hmax, hgap, rfl⟩
            have hlength : T.procs.length < MAX_PROCESS := by
              have hcount := hinv.listed.count
              omega
            have hsettled := hinv.settled.push context pid hnew hrun.state (pidHashfn pid)
            refine ⟨⟨rfl, rfl, fun p hp _ => hother _ _ p hp, hother _ _,
                fun p hp => (hother _ _ p hp).trans (hother _ _ p hp)⟩, rfl, hother _ _ _ hrun.live,
              fun p hp => (hother _ _ p hp).trans (hother _ _ p hp),
              Or.inr ⟨proc, pidHashfn pid, hnew, rfl, by omega, ⟨?_, ?_, ?_, ?_, hinv.idleproc⟩, ?_,
                ?_, Function.update_self .., Function.update_self .., Function.update_self ..⟩⟩
            · exact hlisted.push hprocs hlength hpid hfresh hmax hgap
            · exact hfamily.push hnew hrun.live (Function.update_self ..)
                (Function.update_self ..) _
            · apply hsettled.congr
              all_goals intro p _
              · exact congrFun (Function.update_idem _ _ _) p
              · exact congrFun (Function.update_idem _ _ _) p
              · rfl
              · exact congrFun (Function.update_idem _ _ _) p
              · exact congrFun (Function.update_idem _ _ _) p
            · intro p
              rw [Finset.mem_insert, hinv.heap p]
              simp only [Tree.Live, Tree.push, List.mem_cons]
              tauto
            · exact Function.update_idem _ _ _
            · exact Function.update_idem _ _ _

/-! ## Exit -/

/-- What the loop of `do_exit` leaves alone. -/
structure Untouched (k k' : Kernel) : Prop where
  lists : k'.toLists = k.toLists
  context : k'.context = k.context
  flags : k'.flags = k.flags
  idleproc : k'.idleproc = k.idleproc
  initproc : k'.initproc = k.initproc
  current : k'.current = k.current

theorem Untouched.trans {k'' : Kernel} (h : Untouched k k') (h' : Untouched k' k'') :
    Untouched k k'' :=
  ⟨h'.lists.trans h.lists, h'.context.trans h.context, h'.flags.trans h.flags,
    h'.idleproc.trans h.idleproc, h'.initproc.trans h.initproc, h'.current.trans h.current⟩

/-- One round moves the first child of `cur` to `init`. -/
theorem adopt_spec (hinv : Inv T (some cur) k) (hroot : Rooted T init users k)
    (hcur : cur ∈ T.procs) (hne : init ≠ cur) (hfirst : k.cptr cur = some proc) :
    Ends never (adopt cur proc) k fun _ k' => Inv (T.adopt cur proc init) (some cur) k' ∧
      Rooted (T.adopt cur proc init) init users k' ∧ Untouched k k' ∧
        k'.state cur = k.state cur := by
  have hlive : T.Live cur := Or.inr hcur
  have hhead : proc ∈ T.kids cur := by
    have hwalk := (hinv.family.follows hlive).head
    rw [hfirst] at hwalk
    exact List.mem_of_head? hwalk.symm
  have hparent := ((hinv.family.child cur hlive proc).mp hhead).2
  have hproc : proc ≠ init := by
    rintro rfl
    rw [hroot.parent] at hparent
    exact hinv.family.idle (Option.some.inj hparent ▸ hcur)
  have hfamily := hinv.family.adopt hlive (Or.inr hroot.mem) hne hfirst
  have hroot' : ∀ k' : Kernel, k'.initproc = k.initproc →
      k'.parent = Function.update k.parent proc (some init) → k'.state init ≠ .zombie →
      Rooted (T.adopt cur proc init) init users k' := by
    intro k' hinitproc hpar halive
    refine hroot.congr rfl rfl hinitproc ?_ ?_ halive
    · intro p _
      rw [hpar]
      by_cases hp : p = proc
      · exact Or.inr (hp ▸ Function.update_self ..)
      · exact Or.inl (Function.update_of_ne hp _ _)
    · rw [hpar, Function.update_of_ne (Ne.symm hproc)]
  unfold adopt
  simp only [ends_bind, ends_modify, ends_get, ends_deref hroot.initproc,
    Function.update_of_ne hne]
  split
  next hzombie =>
    simp only [ends_bind, ends_get]
    split
    next hwait =>
      have hasleep : k.state init = .sleeping :=
        hinv.settled.sleeping_of_wait (Or.inr hroot.mem) (by rw [hwait]; decide)
      refine (wakeupProc_spec ?_ ?_).imp ?_
      · show k.state init ≠ .zombie
        rw [hasleep]
        decide
      · show k.state init ≠ .runnable
        rw [hasleep]
        decide
      · rintro _ _ rfl
        have hself : Function.update k.state init .runnable init = .runnable :=
          Function.update_self ..
        have hsettled := (hinv.settled.wake (p := init)).adopt cur proc
          (by show Function.update k.state init .runnable init ≠ .zombie; rw [hself]; decide)
          (fun _ => by
            show Function.update k.state init .runnable init ≠ .sleeping
            rw [hself]
            decide)
        refine ⟨⟨hinv.listed.adopt _ _, hfamily, ?_, hinv.heap, hinv.idleproc⟩, hroot' _ rfl rfl ?_,
          ⟨rfl, rfl, rfl, rfl, rfl, rfl⟩, Function.update_of_ne (Ne.symm hne) _ _⟩
        · exact hsettled.congr (fun _ _ => rfl) (fun _ _ => rfl) (fun _ _ => rfl) (fun _ _ => rfl)
            fun _ _ => rfl
        · show Function.update k.state init .runnable init ≠ .zombie
          rw [hself]
          decide
    next hwait =>
      rw [ends_pure]
      have hsettled := hinv.settled.adopt cur proc hroot.alive fun _ hs =>
        hwait (hinv.settled.asleep init (Or.inr hroot.mem) hs).1
      exact ⟨⟨hinv.listed.adopt _ _, hfamily, hsettled.congr (fun _ _ => rfl)
        (fun _ _ => rfl) (fun _ _ => rfl)
        (fun _ _ => rfl) fun _ _ => rfl, hinv.heap, hinv.idleproc⟩, hroot' _ rfl rfl hroot.alive,
        ⟨rfl, rfl, rfl, rfl, rfl, rfl⟩, rfl⟩
  next hzombie =>
    rw [ends_pure]
    have hsettled := hinv.settled.adopt cur proc hroot.alive fun hz =>
      absurd hz hzombie
    exact ⟨⟨hinv.listed.adopt _ _, hfamily, hsettled.congr (fun _ _ => rfl)
      (fun _ _ => rfl) (fun _ _ => rfl)
      (fun _ _ => rfl) fun _ _ => rfl, hinv.heap, hinv.idleproc⟩, hroot' _ rfl rfl hroot.alive,
      ⟨rfl, rfl, rfl, rfl, rfl, rfl⟩, rfl⟩

/-- The loop moves all children of `cur` to `init`. -/
theorem adoptAll_spec {fuel : Nat} (hinv : Inv T (some cur) k) (hroot : Rooted T init users k)
    (hcur : cur ∈ T.procs) (hne : init ≠ cur) (hfuel : (T.kids cur).length < fuel) :
    Ends never (adoptAll cur fuel) k fun _ k' => ∃ T', T'.procs = T.procs ∧ T'.idle = T.idle ∧
      Inv T' none k' ∧ Rooted T' init users k' ∧ Untouched k k' ∧ k'.state cur = k.state cur := by
  induction fuel generalizing T k with
  | zero => exact absurd hfuel (Nat.not_lt_zero _)
  | succ fuel ih =>
      have hwalk := (hinv.family.follows (Or.inr hcur)).head
      unfold adoptAll
      simp only [ends_bind, ends_get]
      cases hfirst : k.cptr cur with
      | none =>
          rw [ends_pure]
          have hempty : T.kids cur = [] := by
            rw [hfirst] at hwalk
            exact List.head?_eq_none_iff.mp hwalk.symm
          have hchildless : ∀ q ∈ T.procs, k.parent q ≠ some cur := by
            intro q hq hpar
            have hmem := (hinv.family.child cur (Or.inr hcur) q).mpr ⟨hq, hpar⟩
            rw [hempty] at hmem
            cases hmem
          exact ⟨T, rfl, rfl, ⟨hinv.listed, hinv.family.settle hempty,
            hinv.settled.settle hchildless, hinv.heap, hinv.idleproc⟩, hroot,
            ⟨rfl, rfl, rfl, rfl, rfl, rfl⟩, rfl⟩
      | some proc =>
          rw [ends_bind]
          apply (adopt_spec hinv hroot hcur hne hfirst).imp
          rintro _ k₁ ⟨hinv₁, hroot₁, hkept₁, hstate₁⟩
          have hkids : (T.adopt cur proc init).kids cur = (T.kids cur).tail := by
            simp [Tree.adopt, Ne.symm hne]
          have hlen : ((T.adopt cur proc init).kids cur).length < fuel := by
            rw [hkids, List.length_tail]
            have hpos : T.kids cur ≠ [] := by
              intro hempty
              rw [hfirst, hempty] at hwalk
              cases hwalk
            have := List.length_pos_iff.mpr hpos
            omega
          apply (ih hinv₁ hroot₁ hcur hlen).imp
          rintro _ k₂ ⟨T', hprocs, hidle, hinv₂, hroot₂, hkept₂, hstate₂⟩
          exact ⟨T', hprocs, hidle, hinv₂, hroot₂, hkept₁.trans hkept₂, hstate₂.trans hstate₁⟩

/-- `do_exit` is left to another process, except that it stops the kernel when
`initproc` calls it. -/
theorem doExit_spec {errorCode : Int} (hinv : Inv T none k) (hroot : Rooted T init users k)
    (hrun : Running T cur k) (hcur : cur ∈ T.procs) :
    Ends (fun e => e = .initExit ∧ cur = init) (doExit errorCode) k fun _ k' =>
      ∃ T' next, cur ≠ init ∧ T'.procs = T.procs ∧ T'.idle = T.idle ∧ Inv T' none k' ∧
        Rooted T' init users k' ∧ Frame T cur k k' ∧ k'.context cur = .exited ∧
        Running T' next k' := by
  have hidle : cur ≠ T.idle := fun heq => hinv.family.idle (heq ▸ hcur)
  obtain ⟨parent, hlive, hparent⟩ := hinv.family.parent cur hcur
  unfold doExit
  simp only [ends_bind, ends_get]
  rw [if_neg (by rw [hrun.current, hinv.idleproc]; simpa using hidle)]
  split
  next heq =>
    rw [hrun.current, hroot.initproc] at heq
    exact ⟨rfl, Option.some.inj heq⟩
  next hne =>
    rw [hrun.current, hroot.initproc] at hne
    have hne : init ≠ cur := fun heq => hne (congrArg some heq.symm)
    simp only [ends_bind, ends_get, ends_deref hrun.current, ends_modify, ends_deref hparent]
    -- what is left once the process is a zombie: its children are handed on, and another runs
    have hrest : ∀ k₁ : Kernel, Inv T (some cur) k₁ → Rooted T init users k₁ → Untouched k k₁ →
        k₁.state cur = .zombie →
        Ends (fun e => e = .initExit ∧ cur = init) (do adoptAll cur listBound; schedule .exited) k₁
          fun _ k' => ∃ T' next, cur ≠ init ∧ T'.procs = T.procs ∧ T'.idle = T.idle ∧
            Inv T' none k' ∧ Rooted T' init users k' ∧ Frame T cur k k' ∧ k'.context cur = .exited ∧
            Running T' next k' := by
      intro k₁ hinv₁ hroot₁ hkept₁ hzombie
      rw [ends_bind]
      have hlen : (T.kids cur).length < listBound := by
        have hsub := (hinv.family.nodup cur (Or.inr hcur)).subperm
          (hinv.family.kids_subset (Or.inr hcur))
        have hle := hsub.length_le
        have := hinv.listed.length_le
        unfold listBound
        omega
      refine ((adoptAll_spec hinv₁ hroot₁ hcur hne hlen).mono (fun _ he => he.elim) ?_)
      rintro _ k₂ ⟨T', hprocs, hidle', hinv₂, hroot₂, hkept₂, hstate₂⟩
      have hkept := hkept₁.trans hkept₂
      refine ((schedule_spec hinv₂.listed (hkept.current.trans hrun.current)
        (Or.inr (hprocs ▸ hcur) : T'.Live cur) hinv₂.idleproc hinv₂.settled.idle).mono
        (fun _ he => he.elim) ?_)
      rintro _ _ ⟨next, hnext, hrunnable, rfl⟩
      have hsettled := hinv₂.settled.move .exited (by rw [hstate₂, hzombie]; decide :
        k₂.state cur ≠ .sleeping)
      refine ⟨T', next, Ne.symm hne, hprocs, hidle',
        ⟨hinv₂.listed, hinv₂.family, ?_, hinv₂.heap, hinv₂.idleproc⟩,
        hroot₂.congr rfl rfl rfl (fun _ _ => Or.inl rfl) rfl hroot₂.alive, ⟨hkept.idleproc,
        hkept.initproc, ?_, fun p _ => congrFun hkept.flags p,
        fun p _ => congrFun (congrArg Lists.pid hkept.lists) p⟩, Function.update_self ..,
        ⟨rfl, hnext, hrunnable⟩⟩
      · exact hsettled.congr (fun _ _ => rfl) (fun _ _ => rfl) (fun _ _ => rfl) (fun _ _ => rfl)
          fun _ _ => rfl
      · intro p _ hp
        exact (Function.update_of_ne hp _ _).trans (congrFun hkept.context p)
    have halive : Function.update k.state cur .zombie init ≠ .zombie := by
      rw [Function.update_of_ne hne]
      exact hroot.alive
    split
    next hwait =>
      -- the parent waits and is woken
      have hasleep : k.state parent = .sleeping :=
        hinv.settled.sleeping_of_wait hlive (by rw [hwait]; decide)
      have hcp : parent ≠ cur := by
        rintro rfl
        rw [hrun.state] at hasleep
        cases hasleep
      have hstate : Function.update k.state cur .zombie parent = .sleeping := by
        rw [Function.update_of_ne hcp, hasleep]
      rw [ends_bind]
      refine ((wakeupProc_spec ?_ ?_).mono (fun _ he => he.elim) ?_)
      · show Function.update k.state cur .zombie parent ≠ .zombie
        rw [hstate]
        decide
      · show Function.update k.state cur .zombie parent ≠ .runnable
        rw [hstate]
        decide
      · rintro _ _ rfl
        have hsettled := (hinv.settled.wake (p := parent)).die hidle
          ((Function.update_of_ne (Ne.symm hcp) _ _).trans hrun.state) (fun p hp => by
            obtain rfl := Option.some.inj (hparent.symm.trans hp)
            show Function.update k.state parent .runnable parent ≠ .sleeping
            rw [Function.update_self]
            decide)
        refine hrest _ ⟨hinv.listed, hinv.family.loosen (Or.inr hcur), ?_, hinv.heap,
          hinv.idleproc⟩ (hroot.congr rfl rfl rfl (fun _ _ => Or.inl rfl) rfl ?_)
          ⟨rfl, rfl, rfl, rfl, rfl, rfl⟩ ?_
        · exact hsettled.congr (fun p _ => congrFun (Function.update_comm hcp _ _ _).symm p)
            (fun _ _ => rfl) (fun _ _ => rfl) (fun _ _ => rfl) fun _ _ => rfl
        · show Function.update (Function.update k.state cur .zombie) parent .runnable init ≠ .zombie
          by_cases hip : init = parent
          · rw [hip, Function.update_self]
            decide
          · rw [Function.update_of_ne hip]
            exact halive
        · exact (Function.update_of_ne (Ne.symm hcp) _ _).trans (Function.update_self ..)
    next hwait =>
      -- the parent does not wait, so that the death leaves no sleeper behind
      have hsettled := hinv.settled.die hidle hrun.state fun p hp hs => by
        obtain rfl := Option.some.inj (hparent.symm.trans hp)
        exact hwait (hinv.settled.asleep parent hlive hs).1
      refine hrest _ ⟨hinv.listed, hinv.family.loosen (Or.inr hcur), ?_, hinv.heap, hinv.idleproc⟩
        (hroot.congr rfl rfl rfl (fun _ _ => Or.inl rfl) rfl halive) ⟨rfl, rfl, rfl, rfl, rfl, rfl⟩
        (Function.update_self ..)
      exact hsettled.congr (fun _ _ => rfl) (fun _ _ => rfl) (fun _ _ => rfl) (fun _ _ => rfl)
        fun _ _ => rfl

/-! ## Wait -/

theorem searchKids_eq {first : Option Nat} {xs : List Nat} {fuel : Nat}
    (hwalk : Follows k.optr first xs) (hfuel : xs.length < fuel) :
    searchKids k fuel first =
      some (!xs.isEmpty, xs.find? fun p => k.state p = .zombie) := by
  induction xs generalizing first fuel with
  | nil =>
      obtain ⟨n, rfl⟩ : ∃ n, fuel = n + 1 := ⟨fuel - 1, by simp at hfuel; omega⟩
      obtain rfl : first = none := hwalk
      rfl
  | cons x xs ih =>
      obtain ⟨n, rfl⟩ : ∃ n, fuel = n + 1 := ⟨fuel - 1, by simp at hfuel; omega⟩
      obtain ⟨rfl, hrest⟩ := hwalk
      have hih := ih hrest (by simpa using hfuel)
      by_cases hx : k.state x = .zombie
      · simp [searchKids, hx]
      · simp [searchKids, hx, hih]

/-- `do_wait` finds a zombie among the children it waits for if there is one, and sees
whether there is such a child at all. -/
theorem searchZombie_spec (hinv : Inv T none k) (hlive : T.Live cur) :
    Ends never (searchZombie cur pid) k fun r k' => k' = k ∧
      (∀ p, r.2 = some p → p ∈ T.procs ∧ k.parent p = some cur ∧ k.state p = .zombie) ∧
      (r.2 = none → ∀ q ∈ T.procs, k.parent q = some cur → (pid = 0 ∨ k.pid q = pid) →
        k.state q ≠ .zombie) ∧
      (r.1 = false → ∀ q ∈ T.procs, k.parent q = some cur → ¬ (pid = 0 ∨ k.pid q = pid)) := by
  unfold searchZombie
  by_cases hpid : pid = 0
  · have hlen : (T.kids cur).length < listBound := by
      have hsub := (hinv.family.nodup cur hlive).subperm (hinv.family.kids_subset hlive)
      have hle := hsub.length_le
      have := hinv.listed.length_le
      unfold listBound
      omega
    have hkids := searchKids_eq (hinv.family.follows hlive) hlen
    simp only [hpid, ne_eq, not_true_eq_false, if_false, ends_bind, ends_get, hkids, ends_pure,
      true_and, true_or]
    refine ⟨fun p hp => ?_, fun hnone q hq hpar _ hz => ?_, fun hempty q hq hpar => ?_⟩
    · obtain ⟨hmem, hpar⟩ := (hinv.family.child cur hlive p).mp (List.mem_of_find?_eq_some hp)
      exact ⟨hmem, hpar, by simpa using List.find?_some hp⟩
    · have hmem := (hinv.family.child cur hlive q).mpr ⟨hq, hpar⟩
      simpa [hz] using List.find?_eq_none.mp hnone q hmem
    · have hmem := (hinv.family.child cur hlive q).mpr ⟨hq, hpar⟩
      have hnil : T.kids cur = [] := by simpa using hempty
      rw [hnil] at hmem
      cases hmem
  · simp only [hpid, ne_eq, not_false_eq_true, if_true, ends_bind, false_or]
    apply (findProc_spec hinv.listed).imp
    rintro r k₁ ⟨hk, hr⟩
    subst k₁
    cases r with
    | none =>
        rw [ends_pure]
        have hnone : ∀ q ∈ T.procs, k.pid q ≠ pid := fun q hq heq => by cases (hr q).mpr ⟨hq, heq⟩
        exact ⟨rfl, fun _ hno => (by cases hno), fun _ q hq _ heq => absurd heq (hnone q hq),
          fun _ q hq _ => hnone q hq⟩
    | some proc =>
        obtain ⟨hproc, hprocPid⟩ := (hr proc).mp rfl
        have hunique : ∀ q ∈ T.procs, k.pid q = pid → q = proc := fun q hq heq =>
          (Option.some.inj ((hr q).mpr ⟨hq, heq⟩)).symm
        simp only [ends_bind, ends_get]
        split
        next hparent =>
          rw [ends_pure]
          refine ⟨rfl, fun p hp => ?_, fun hnone q hq _ heq hz => ?_, fun hno => by cases hno⟩
          · dsimp only at hp
            split at hp
            next hz =>
              obtain rfl := Option.some.inj hp
              exact ⟨hproc, hparent, hz⟩
            next => cases hp
          · obtain rfl := hunique q hq heq
            dsimp only at hnone
            rw [if_pos hz] at hnone
            cases hnone
        next hparent =>
          rw [ends_pure]
          refine ⟨rfl, fun _ hno => (by cases hno), fun _ q hq hpar heq => ?_,
            fun _ q hq hpar heq => ?_⟩
          · exact absurd (hunique q hq heq ▸ hpar) hparent
          · exact absurd (hunique q hq heq ▸ hpar) hparent

/-- A zombie is removed. -/
theorem reap_spec {store : CodeStore} (hinv : Inv T none k) (hroot : Rooted T init users k)
    (hrun : Running T cur k) (hcur : cur ∈ T.procs) (hproc : proc ∈ T.procs)
    (hparent : k.parent proc = some cur) (hzombie : k.state proc = .zombie) :
    Ends never (reap proc store) k fun r k' => r.1 = 0 ∧ ∃ T', T'.idle = T.idle ∧
      T'.procs ⊆ T.procs ∧ Inv T' none k' ∧ Rooted T' init (users.erase proc) k' ∧
      Running T' cur k' ∧ Frame T cur k k' ∧ k'.context cur = k.context cur := by
  have hidle : proc ≠ T.idle := fun heq => hinv.family.idle (heq ▸ hproc)
  have hinit : proc ≠ init := by
    rintro rfl
    rw [hroot.parent] at hparent
    exact hinv.family.idle (Option.some.inj hparent ▸ hcur)
  have hne : cur ≠ proc := by
    rintro rfl
    rw [hrun.state] at hzombie
    cases hzombie
  have hchildless := hinv.settled.childless proc (Or.inr hproc) hzombie (by simp)
  have hempty : T.kids proc = [] := by
    apply List.eq_nil_iff_forall_not_mem.mpr
    intro q hq
    obtain ⟨hmem, hpar⟩ := (hinv.family.child proc (Or.inr hproc) q).mp hq
    exact hchildless q hmem hpar
  have hself : k.optr proc ≠ some proc := by
    intro heq
    have hkid := (hinv.family.child cur hrun.live proc).mpr ⟨hproc, hparent⟩
    obtain ⟨xs, ys, hsplit⟩ := List.append_of_mem hkid
    have hchain := hinv.family.chain cur hrun.live (by simp)
    have hnodup := hinv.family.nodup cur hrun.live
    rw [hsplit] at hchain hnodup
    rw [hchain.neighbours.2] at heq
    exact (List.nodup_cons.mp (List.nodup_append.mp hnodup).2.1).1 (List.mem_of_head? heq)
  have hnodup := hinv.listed.nodup
  unfold reap
  simp only [ends_bind, ends_get]
  rw [if_neg (by rw [hinv.idleproc, hroot.initproc]; simp [hidle, hinit])]
  simp only [ends_bind, unhashProc, ends_modify, kfree, ends_pure]
  refine (removeLinks_spec (k := { k with hash := k.hash.listDel (.hashLink proc) })
    hparent hself).imp ?_
  rintro _ _ rfl
  refine ⟨trivial, T.remove proc cur (pidHashfn (k.pid proc)), rfl, List.erase_subset,
    ⟨hinv.listed.remove hproc cur, hinv.family.remove hnodup hproc hrun.live hparent hempty _, ?_,
      ?_,
      hinv.idleproc⟩, ?_, ⟨hrun.current, ?_, hrun.state⟩, ⟨rfl, rfl, fun _ _ _ => rfl, fun _ _ =>
        rfl, fun _ _ => rfl⟩,
      rfl⟩
  · exact (hinv.settled.remove cur _).congr (fun _ _ => rfl) (fun _ _ => rfl) (fun _ _ => rfl)
      (fun _ _ => rfl) fun _ _ => rfl
  · intro p
    show p ∈ k.heap.erase proc ↔ p = T.idle ∨ p ∈ T.procs.erase proc
    rw [Finset.mem_erase, hinv.heap p, hnodup.mem_erase_iff, Tree.Live]
    constructor
    · rintro ⟨hpp, rfl | hp⟩
      · exact Or.inl rfl
      · exact Or.inr ⟨hpp, hp⟩
    · rintro (rfl | ⟨hpp, hp⟩)
      · exact ⟨Ne.symm hidle, Or.inl rfl⟩
      · exact ⟨hpp, Or.inr hp⟩
  · exact hroot.remove hproc hinit hchildless cur _ rfl rfl rfl
  · exact Or.inr (hnodup.mem_erase_iff.mpr ⟨hne, hcur⟩)

/-- A round of `do_wait` removes a zombie, or there is none and the process goes to
sleep, or there is no child to wait for. -/
theorem waitRepeat_spec {store : CodeStore} (hinv : Inv T none k) (hroot : Rooted T init users k)
    (hrun : Running T cur k) (hcur : cur ∈ T.procs) (hin : context.inWait)
    (hawaits : ∀ child, context.awaits child → pid = 0 ∨ child = pid) :
    Ends never (waitRepeat pid store context) k fun r k' => ∃ T' users' next, T'.idle = T.idle ∧
      T'.procs ⊆ T.procs ∧ Inv T' none k' ∧ Rooted T' init users' k' ∧ Running T' next k' ∧
      Frame T cur k k' ∧ (r = none → k'.context cur = context) ∧
      ∀ value, r = some value → next = cur ∧ k'.context cur = k.context cur ∧
        (value.1 ≠ 0 → k' = k ∧
          ∀ q ∈ T.procs, k.parent q = some cur → ¬ (pid = 0 ∨ k.pid q = pid)) := by
  unfold waitRepeat
  simp only [ends_bind, ends_get, ends_deref hrun.current]
  apply (searchZombie_spec hinv hrun.live).imp
  rintro ⟨haskid, found⟩ k₁ ⟨hk, hfound, hnone, hkids⟩
  subst k₁
  dsimp only at hfound hnone hkids ⊢
  cases found with
  | some proc =>
      obtain ⟨hproc, hparent, hzombie⟩ := hfound proc rfl
      rw [ends_map]
      apply (reap_spec hinv hroot hrun hcur hproc hparent hzombie).imp
      rintro value k₁ ⟨hzero, T', hidle, hprocs, hinv', hroot', hrun', hframe, hcontext⟩
      refine ⟨T', _, cur, hidle, hprocs, hinv', hroot', hrun', hframe, fun hno =>
        (by cases hno), ?_⟩
      intro _ heq
      obtain rfl := Option.some.inj heq
      exact ⟨rfl, hcontext, fun hvalue => absurd hzero hvalue⟩
  | none =>
      cases haskid with
      | false =>
          simp only [Bool.false_eq_true, if_false, ends_pure]
          refine ⟨T, users, cur, rfl, List.Subset.refl _, hinv, hroot, hrun,
            ⟨rfl, rfl, fun _ _ _ => rfl, fun _ _ => rfl, fun _ _ => rfl⟩, fun hno =>
              (by cases hno), ?_⟩
          exact fun value _ => ⟨rfl, trivial, fun _ => ⟨trivial, hkids rfl⟩⟩
      | true =>
          simp only [if_true, ends_bind, ends_modify, ends_pure]
          have hidle : cur ≠ T.idle := fun heq => hinv.family.idle (heq ▸ hcur)
          have hsettled := hinv.settled.sleep hidle hrun.state hin fun q hq hpar haw =>
            hnone rfl q hq hpar (hawaits _ haw)
          have hidleRun : Function.update k.state cur .sleeping T.idle = .runnable := by
            rw [Function.update_of_ne (Ne.symm hidle), hinv.settled.idle]
          refine (schedule_spec (k := { k with
            state := Function.update k.state cur .sleeping
            waitState := Function.update k.waitState cur WT_CHILD }) hinv.listed hrun.current
            hrun.live hinv.idleproc hidleRun).imp ?_
          rintro _ _ ⟨next, hnext, hrunnable, rfl⟩
          refine ⟨T, users, next, rfl, List.Subset.refl _, ⟨hinv.listed, hinv.family, ?_, hinv.heap,
            hinv.idleproc⟩, ?_, ⟨rfl, hnext, hrunnable⟩,
              ⟨rfl, rfl, fun p _ hp => ?_, fun _ _ => rfl, fun _ _ => rfl⟩,
            fun _ => Function.update_self .., fun _ hno => by cases hno⟩
          · exact hsettled.congr (fun _ _ => rfl) (fun _ _ => rfl) (fun _ _ => rfl)
              (fun _ _ => rfl) fun _ _ => rfl
          · refine hroot.congr rfl rfl rfl (fun _ _ => Or.inl rfl) rfl ?_
            show Function.update k.state cur .sleeping init ≠ .zombie
            by_cases hinit : init = cur
            · rw [hinit, Function.update_self]
              decide
            · rw [Function.update_of_ne hinit]
              exact hroot.alive
          · exact Function.update_of_ne hp _ _

/-! ## Kill -/

/-- `do_kill` marks a process and wakes it up if it waits. -/
theorem doKill_spec (hinv : Inv T none k) (hroot : Rooted T init users k) (hrun : Running T cur k) :
    Ends never (doKill pid) k fun _ k' => Inv T none k' ∧ Rooted T init users k' ∧
      Running T cur k' ∧ k'.context = k.context ∧ k'.pid = k.pid ∧
      ∀ p ∈ T.procs, k.pid p ≠ pid → k'.flags p = k.flags p := by
  unfold doKill
  rw [ends_bind]
  apply (findProc_spec hinv.listed).imp
  rintro r k₁ ⟨hk, hr⟩
  subst k₁
  cases r with
  | none =>
      rw [ends_pure]
      exact ⟨hinv, hroot, hrun, rfl, rfl, fun _ _ _ => rfl⟩
  | some proc =>
      obtain ⟨hproc, hpid⟩ := (hr proc).mp rfl
      have hflags : ∀ p ∈ T.procs, k.pid p ≠ pid →
          Function.update k.flags proc (k.flags proc ||| PF_EXITING) p = k.flags p := by
        intro p _ hp
        apply Function.update_of_ne
        rintro rfl
        exact hp hpid
      simp only [ends_bind, ends_get]
      split
      next =>
        simp only [ends_bind, ends_modify, ends_get]
        split
        next hwait =>
          rw [ends_bind]
          have hasleep : k.state proc = .sleeping := by
            apply hinv.settled.sleeping_of_wait (Or.inr hproc)
            intro hzero
            rw [hzero] at hwait
            exact hwait (by decide)
          have hcur : cur ≠ proc := by
            rintro rfl
            rw [hrun.state] at hasleep
            cases hasleep
          refine (wakeupProc_spec ?_ ?_).imp ?_
          · show k.state proc ≠ .zombie
            rw [hasleep]
            decide
          · show k.state proc ≠ .runnable
            rw [hasleep]
            decide
          · rintro _ _ rfl
            refine ⟨⟨hinv.listed, hinv.family, ?_, hinv.heap, hinv.idleproc⟩, ?_,
              ⟨hrun.current, hrun.live, (Function.update_of_ne hcur _ _).trans hrun.state⟩,
                rfl, rfl, hflags⟩
            · exact (hinv.settled.wake (p := proc)).congr (fun _ _ => rfl) (fun _ _ => rfl)
                (fun _ _ => rfl) (fun _ _ => rfl) fun _ _ => rfl
            · refine hroot.congr rfl rfl rfl (fun _ _ => Or.inl rfl) rfl ?_
              show Function.update k.state proc .runnable init ≠ .zombie
              by_cases hinit : init = proc
              · rw [hinit, Function.update_self]
                decide
              · rw [Function.update_of_ne hinit]
                exact hroot.alive
        next =>
          rw [ends_pure]
          refine ⟨⟨hinv.listed, hinv.family, ?_, hinv.heap, hinv.idleproc⟩,
            hroot.congr rfl rfl rfl (fun _ _ => Or.inl rfl) rfl hroot.alive,
            ⟨hrun.current, hrun.live, hrun.state⟩, rfl, rfl, hflags⟩
          exact hinv.settled.congr (fun _ _ => rfl) (fun _ _ => rfl) (fun _ _ => rfl)
            (fun _ _ => rfl) fun _ _ => rfl
      next =>
        rw [ends_pure]
        exact ⟨hinv, hroot, hrun, rfl, rfl, fun _ _ _ => rfl⟩

end Ucore.Process
