import Ucore.Foundation.RoundRobin
import Ucore.Process.Lifecycle

/-!
# The fairness of `schedule`

`schedule` looks for the next process on `proc_list` behind the current one. Between its
calls, processes are put at the front of the list and taken out of it, go to sleep, wake up
and end. A process that could run at every call is chosen before the current one is chosen
again.
-/

namespace Ucore.Process

open Machine

variable {k k' : Kernel} {idle cur next p q : Nat} {procs : List Nat} {context : Context}

/-! ## The calls -/

/-- What happens on `proc_list` and to the states of processes. -/
inductive SchedOp
  | schedule (context : Context)
  | fork (context : Context) (memory : ForkMemory)
  /-- `do_exit` up to the new state. -/
  | exit (errorCode : Int)
  /-- `do_wait` up to its `schedule`. -/
  | sleep (waitState : BitVec 32)
  | wakeup (proc : Nat)
  /-- `do_wait` at `found`. -/
  | reap (proc : Nat) (store : CodeStore)

def SchedOp.run : SchedOp → KernM Unit
  | .schedule context => Process.schedule context
  | .fork context memory => do
      let _ ← doFork context memory
  | .exit errorCode => do
      let k ← get
      if k.current = k.idleproc then throw .idleExit
      if k.current = k.initproc then throw .initExit
      let cur ← deref k.current
      modify fun k => { k with
        state := Function.update k.state cur .zombie
        exitCode := Function.update k.exitCode cur errorCode }
  | .sleep waitState => do
      let cur ← deref (← get).current
      modify fun k => { k with
        state := Function.update k.state cur .sleeping
        waitState := Function.update k.waitState cur waitState }
  | .wakeup proc => wakeupProc proc
  | .reap proc store => do
      let _ ← Process.reap proc store

def SchedOp.step (k : Kernel) (op : SchedOp) : Option Kernel := exec op.run k

/-- The current process runs: it has not ended, nor gone to sleep. -/
def Kernel.Awake (k : Kernel) : Prop := ∃ cur, k.current = some cur ∧ k.state cur = .runnable

/-- Memory that `kmalloc` returns is not in use, and a process that runs takes out a zombie. -/
def SchedOp.Permitted (k : Kernel) : SchedOp → Prop
  | .fork _ memory => ∀ p ∈ memory.proc, p ∉ k.heap
  | .reap proc _ => k.Awake ∧ proc ∈ k.heap ∧ k.state proc = .zombie
  | _ => True

instance decidableAwake (k : Kernel) : Decidable k.Awake :=
  decidable_of_iff (∃ cur ∈ k.current, k.state cur = .runnable) <| by
    simp [Kernel.Awake]

instance decidableSchedPermitted (k : Kernel) (op : SchedOp) : Decidable (op.Permitted k) := by
  cases op <;> unfold SchedOp.Permitted <;> infer_instance

/-- The process is on `proc_list` and can run. -/
def Kernel.Ready (k : Kernel) (p : Nat) : Prop :=
  (∃ procs : List Nat, k.links.Ring .procList (procs.map .listLink) ∧ p ∈ procs) ∧
    k.state p = .runnable

/-! ## The list and its cursor -/

/-- `proc_list` has all processes but `idleproc`, and the current process is one of them. -/
structure Rotation (idle : Nat) (procs : List Nat) (cur : Nat) (k : Kernel) : Prop where
  links : k.links.Ring .procList (procs.map .listLink)
  idleproc : k.idleproc = some idle
  idleOut : idle ∉ procs
  current : k.current = some cur
  listed : cur = idle ∨ cur ∈ procs
  heap : ∀ p, p ∈ k.heap ↔ p = idle ∨ p ∈ procs
  count : k.nrProcess = procs.length + 1
  room : procs.length < MAX_PROCESS

theorem nodup_of_ring {l : Links ListEntry} (h : l.Ring .procList (procs.map .listLink)) :
    procs.Nodup :=
  List.Nodup.of_map _ (List.nodup_cons.mp h.nodup).2

theorem Rotation.nodup (h : Rotation idle procs cur k) : procs.Nodup := nodup_of_ring h.links

theorem Rotation.ready_iff (h : Rotation idle procs cur k) :
    k.Ready p ↔ p ∈ procs ∧ k.state p = .runnable := by
  refine and_congr_left fun _ => ⟨?_, fun hp => ⟨procs, h.links, hp⟩⟩
  rintro ⟨procs', hring, hp⟩
  have hsame := hring.visits_next.unique h.links.visits_next
  exact List.map_injective_iff.mpr (fun _ _ => ListEntry.listLink.inj) hsame ▸ hp

/-! ## The choice -/

def ListEntry.proc? : ListEntry → Option Nat
  | .procList => none
  | .listLink proc => some proc

theorem filterMap_listLink (ps : List Nat) :
    (ps.map ListEntry.listLink).filterMap ListEntry.proc? = ps := by
  rw [List.filterMap_map]
  exact List.filterMap_some

/-- A process that can run. -/
def canRun (k : Kernel) (p : Nat) : Bool := decide (k.state p = .runnable)

/-- The loop of `schedule` ends with the first process that can run, or at `last`. -/
theorem pickNext_first {last le : ListEntry} {es : List ListEntry} {fuel : Nat} {next : Option Nat}
    (hwalk : Links.Visits k.links.next last le es) (hfuel : es.length < fuel)
    (hnext : next.filter (canRun k) = none) :
    ∃ r, pickNext k.toLists k.state last fuel le next = some r ∧
      r.filter (canRun k) = ((es ++ [last]).filterMap ListEntry.proc?).find? (canRun k) := by
  induction es generalizing le fuel next with
  | nil =>
      obtain ⟨n, rfl⟩ : ∃ n, fuel = n + 1 := ⟨fuel - 1, by simp at hfuel; omega⟩
      have hend : k.links.next le = last := hwalk
      cases last with
      | procList => exact ⟨next, by simp [pickNext, hend], hnext⟩
      | listLink p =>
          exact ⟨some p, by simp [pickNext, hend], by simp [ListEntry.proc?, Option.filter]⟩
  | cons e es ih =>
      obtain ⟨n, rfl⟩ : ∃ n, fuel = n + 1 := ⟨fuel - 1, by simp at hfuel; omega⟩
      obtain ⟨hstep, hne, hrest⟩ := hwalk
      have hlen : es.length < n := by simpa using hfuel
      cases e with
      | procList =>
          obtain ⟨r, hr, hfind⟩ := ih hrest hlen hnext
          exact ⟨r, by simp [pickNext, hstep, hne, hr], hfind⟩
      | listLink p =>
          by_cases hrun : k.state p = .runnable
          · refine ⟨some p, by simp [pickNext, hstep, hrun], ?_⟩
            simp [ListEntry.proc?, canRun, hrun, Option.filter]
          · obtain ⟨r, hr, hfind⟩ :=
              @ih (.listLink p) n (some p) hrest hlen (by simp [canRun, hrun])
            refine ⟨r, by simp [pickNext, hstep, hne, hrun, hr], ?_⟩
            rw [hfind]
            simp [ListEntry.proc?, canRun, hrun]

/-- `schedule` ends, and chooses the first process behind the current one that can run, or
`idleproc`. -/
theorem schedule_turn (h : Rotation idle procs cur k) : Ends never (schedule context) k fun _ k' =>
    ∃ next, Rotation idle procs next k' ∧ k'.state = k.state ∧
      next = ((turns procs cur).find? (canRun k)).getD idle := by
  -- the rest of the ring behind the entry of the current process
  obtain ⟨last, es, hlast, hwalk, hlength, hturns⟩ : ∃ last es,
      (if k.current = k.idleproc then ListEntry.procList else .listLink cur) = last ∧
      Links.Visits k.links.next last last es ∧ es.length < listBound ∧
      (es ++ [last]).filterMap ListEntry.proc? = turns procs cur := by
    have hroom := h.room
    rw [h.current, h.idleproc]
    by_cases hidle : cur = idle
    · rw [if_pos (congrArg some hidle), turns_of_not_mem (hidle ▸ h.idleOut)]
      refine ⟨_, procs.map .listLink, rfl, h.links.visits_next, ?_, ?_⟩
      · rw [List.length_map, listBound]
        omega
      · rw [List.filterMap_append, filterMap_listLink]
        exact List.append_nil procs
    · rw [if_neg fun heq => hidle (Option.some.inj heq)]
      obtain ⟨us, vs, rfl, hus⟩ := List.eq_append_cons_of_mem (h.listed.resolve_left hidle)
      have hring := h.links
      rw [List.map_append, List.map_cons] at hring
      refine ⟨_, vs.map .listLink ++ .procList :: us.map .listLink, rfl, hring.rotate.visits_next,
        ?_, ?_⟩
      · simp only [List.length_append, List.length_cons, List.length_map] at hroom ⊢
        rw [listBound]
        omega
      · rw [turns_split hus, List.filterMap_append, List.filterMap_append, filterMap_listLink,
          List.filterMap_cons_none rfl, filterMap_listLink]
        rfl
  obtain ⟨r, hr, hfind⟩ := @pickNext_first _ _ _ _ _ none hwalk hlength rfl
  rw [hturns] at hfind
  unfold schedule
  simp only [ends_bind, ends_get, ends_deref h.current, ends_modify]
  rw [hlast, hr]
  -- what is chosen is `idleproc` or on the list
  have hchosen : ∀ chosen : Nat, chosen = (r.filter (canRun k)).getD idle →
      Rotation idle procs chosen { k with
        needResched := Function.update k.needResched cur false
        context := Function.update k.context cur context
        current := some chosen } ∧ chosen = ((turns procs cur).find? (canRun k)).getD idle := by
    intro chosen hchosen
    rw [hfind] at hchosen
    refine ⟨⟨h.links, h.idleproc, h.idleOut, rfl, ?_, h.heap, h.count, h.room⟩, hchosen⟩
    cases hfirst : (turns procs cur).find? (canRun k) with
    | none => exact Or.inl (by rw [hchosen, hfirst]; rfl)
    | some p =>
        right
        rw [hchosen, hfirst]
        exact (turns_perm procs cur).mem_iff.mp (List.mem_of_find?_eq_some hfirst)
  cases r with
  | none =>
      simp only [ends_bind, ends_deref h.idleproc, ends_modify]
      obtain ⟨hrotation, hfirst⟩ := hchosen idle rfl
      exact ⟨idle, hrotation, trivial, hfirst⟩
  | some p =>
      by_cases hrun : k.state p = .runnable
      · simp only [hrun, if_true, ends_bind, ends_pure, ends_modify]
        obtain ⟨hrotation, hfirst⟩ := hchosen p (by simp [Option.filter, canRun, hrun])
        exact ⟨p, hrotation, trivial, hfirst⟩
      · simp only [hrun, if_false, ends_bind, ends_deref h.idleproc, ends_modify]
        obtain ⟨hrotation, hfirst⟩ := hchosen idle (by simp [Option.filter, canRun, hrun])
        exact ⟨idle, hrotation, trivial, hfirst⟩

/-! ## The other calls -/

/-- What the calls but `schedule` do to `proc_list`: nothing, or a new process is put at the
front, or a zombie that is not the current process is taken out. -/
inductive Change (k : Kernel) (cur : Nat) (op : SchedOp) : List Nat → List Nat → Prop
  | same (procs : List Nat) : Change k cur op procs procs
  | push (n : Nat) (hnew : n ∉ k.heap) (procs : List Nat) : Change k cur op procs (n :: procs)
  | drop (us vs : List Nat) (proc : Nat) (store : CodeStore) (hop : op = .reap proc store)
      (hzombie : k.state proc = .zombie) (hcur : proc ≠ cur) : Change k cur op (us ++ proc :: vs)
      (us ++ vs)

/-- A call but `schedule` has been made. -/
structure Called (idle : Nat) (procs : List Nat) (cur : Nat) (k : Kernel) (op : SchedOp)
    (procs' : List Nat) (k' : Kernel) : Prop where
  rotation : Rotation idle procs' cur k'
  change : Change k cur op procs procs'
  /-- Only the current process ends or goes to sleep. -/
  runnable : ∀ p ∈ procs, p ≠ cur → k.state p = .runnable → k'.state p = .runnable

/-- What matters for `proc_list`. -/
structure View where
  links : Links ListEntry
  nrProcess : Int
  state : Nat → ProcState
  heap : Finset Nat
  idleproc : Option Nat
  current : Option Nat

def Kernel.view (k : Kernel) : View :=
    ⟨k.links, k.nrProcess, k.state, k.heap, k.idleproc, k.current⟩

theorem allocPid_view : Keeps Kernel.view allocPid := by
  unfold allocPid
  refine keeps_get.bind fun k => ?_
  split
  · exact keeps_throw _
  split
  · exact keeps_throw _
  · refine Keeps.bind (keeps_modify fun _ => ?_) fun _ => keeps_pure _
    rfl

theorem deref_view (o : Option Nat) : Keeps Kernel.view (deref o) := by
  cases o with
  | none => exact keeps_throw _
  | some p => exact keeps_pure p

/-- A new process is put at the front of the list. -/
theorem setLinks_view (proc : Nat) : Ends (fun _ => True) (setLinks proc) k fun _ k' => k'.view =
    { k.view with
      links := k.links.listAdd .procList (.listLink proc)
      nrProcess := k.nrProcess + 1 } := by
  unfold setLinks
  simp only [ends_bind, ends_modify, ends_get]
  apply (deref_view _ _).imp
  intro parent k₁ hview
  obtain ⟨hlinks, hcount, hstate, hheap, hidle, hcurrent⟩ := View.mk.inj hview
  rw [Kernel.view, View.mk.injEq]
  exact ⟨hlinks, congrArg (· + 1) hcount, hstate, hheap, hidle, hcurrent⟩

theorem removeLinks_view (proc : Nat) :
    Ends (fun _ => True) (removeLinks proc) k fun _ k' => k'.view =
    { k.view with links := k.links.listDel (.listLink proc), nrProcess := k.nrProcess - 1 } := by
  unfold removeLinks
  simp only [ends_bind, ends_modify, ends_get]
  split
  · exact rfl
  · rw [ends_bind, ends_get, ends_bind]
    apply (deref_view _ _).imp
    intro parent k₁ hview
    obtain ⟨hlinks, hcount, hstate, hheap, hidle, hcurrent⟩ := View.mk.inj hview
    rw [ends_bind, ends_modify, ends_modify, Kernel.view, View.mk.injEq]
    exact ⟨hlinks, congrArg (· - 1) hcount, hstate, hheap, hidle, hcurrent⟩

/-- A new process `n` is on the list. -/
theorem Rotation.push (h : Rotation idle procs cur k) {n : Nat} (hnew : n ∉ k.heap)
    (hroom : k.nrProcess < MAX_PROCESS) {links : Links ListEntry} (hlinks : links = k.links)
    (hview : k'.view = { k.view with
      links := links.listAdd .procList (.listLink n)
      nrProcess := k.nrProcess + 1
      state := Function.update k.state n .runnable
      heap := insert n k.heap }) : Rotation idle (n :: procs) cur k' := by
  obtain ⟨hlinks', hcount, _, hheap, hidle, hcurrent⟩ := View.mk.inj hview
  have hout : n ≠ idle ∧ n ∉ procs := by
    rw [h.heap, not_or] at hnew
    exact hnew
  have hlen : procs.length + 1 < MAX_PROCESS := by
    have hcount := h.count
    omega
  refine ⟨?_, hidle.trans h.idleproc, ?_, hcurrent.trans h.current,
    h.listed.imp_right (List.mem_cons_of_mem n), fun p => ?_, ?_, hlen⟩
  · rw [hlinks', hlinks]
    have hring : k.links.Ring .procList ([] ++ procs.map .listLink) := h.links
    exact hring.listAdd (e := .listLink n) (by simpa using hout.2)
  · simpa using ⟨Ne.symm hout.1, h.idleOut⟩
  · rw [hheap, Finset.mem_insert, h.heap p, List.mem_cons]
    tauto
  · rw [hcount, h.count, List.length_cons]
    omega

theorem fork_called (h : Rotation idle procs cur k) {memory : ForkMemory}
    (hmemory : ∀ p ∈ memory.proc, p ∉ k.heap) : Ends (fun _ => True)
    (doFork context memory) k fun _ k' =>
      ∃ procs', Called idle procs cur k (.fork context memory) procs' k' := by
  have hrefl : ∃ procs', Called idle procs cur k (.fork context memory) procs' k :=
    ⟨procs, h, .same procs, fun _ _ _ hrun => hrun⟩
  rw [doFork, ends_bind, ends_get]
  split
  · exact hrefl
  next hroom =>
  split
  · exact hrefl
  next n hn =>
  have hnew : n ∉ k.heap := hmemory n hn
  have hsame : ∀ p ∈ procs, Function.update k.state n .uninit p = k.state p := by
    intro p hp
    apply Function.update_of_ne
    rintro rfl
    exact hnew ((h.heap p).mpr (Or.inr hp))
  rw [ends_bind, allocProc, ends_modify, ends_bind, ends_modify]
  split
  · trivial
  split
  · -- the new process is freed
    rw [ends_bind, kfree, ends_modify]
    refine ⟨procs, ⟨h.links, h.idleproc, h.idleOut, h.current, h.listed, fun p => ?_,
      h.count, h.room⟩, .same procs, fun p hp _ hrun => (hsame p hp).trans hrun⟩
    rw [← h.heap]
    simp only [Finset.erase_insert hnew]
  · rw [ends_bind, ends_modify, enterProc, ends_bind]
    apply (allocPid_view _).imp
    intro pid k₁ hview
    obtain ⟨hlinks, hcount, hstate, hheap, hidle, hcurrent⟩ := View.mk.inj hview
    rw [ends_bind, ends_modify, ends_bind, hashProc, ends_modify, ends_bind]
    apply (setLinks_view n).imp
    intro _ k₂ hview₂
    obtain ⟨hlinks₂, hcount₂, hstate₂, hheap₂, hidle₂, hcurrent₂⟩ := View.mk.inj hview₂
    have hstate₂ : k₂.state = Function.update k.state n .uninit := hstate₂.trans hstate
    rw [ends_bind, wakeupProc, ends_bind, ends_get, if_neg (by rw [hstate₂]; simp),
      if_pos (by rw [hstate₂]; simp)]
    refine ⟨n :: procs, ?_, .push n hnew procs, ?_⟩
    · apply h.push hnew (not_le.mp hroom) hlinks
      rw [Kernel.view, View.mk.injEq]
      refine ⟨hlinks₂, hcount₂.trans (congrArg (· + 1) hcount), ?_, hheap₂.trans hheap,
        hidle₂.trans hidle, hcurrent₂.trans hcurrent⟩
      exact (congrArg (Function.update · n ProcState.runnable) hstate₂).trans
        (Function.update_idem ..)
    · intro p hp _ hrun
      change Function.update k₂.state n .runnable p = .runnable
      rw [hstate₂, Function.update_idem]
      by_cases hpn : p = n
      · rw [hpn, Function.update_self]
      · rw [Function.update_of_ne hpn, hrun]

theorem reap_called (h : Rotation idle procs cur k) {proc : Nat} {store : CodeStore}
    (hawake : k.Awake) (hheap : proc ∈ k.heap) (hzombie : k.state proc = .zombie) :
    Ends (fun _ => True) (reap proc store) k fun _ k' =>
      ∃ procs', Called idle procs cur k (.reap proc store) procs' k' := by
  have hcur : proc ≠ cur := by
    obtain ⟨cur', hcurrent, hrun⟩ := hawake
    obtain rfl := Option.some.inj (h.current.symm.trans hcurrent)
    rintro rfl
    rw [hzombie] at hrun
    cases hrun
  rw [reap, ends_bind, ends_get]
  by_cases hidle : some proc = k.idleproc ∨ some proc = k.initproc
  · rw [if_pos hidle]
    split
    · trivial
    · trivial
  have hne : proc ≠ idle := by
    rintro rfl
    exact hidle (Or.inl h.idleproc.symm)
  obtain ⟨us, vs, rfl, hus⟩ :=
    List.eq_append_cons_of_mem (((h.heap proc).mp hheap).resolve_left hne)
  rw [if_neg hidle]
  simp only [ends_bind, unhashProc, ends_modify]
  apply (removeLinks_view proc).imp
  intro _ k₁ hview
  obtain ⟨hlinks, hcount, hstate, hheap₁, hidle₁, hcurrent⟩ := View.mk.inj hview
  rw [kfree, ends_modify]
  have hnodup := h.nodup
  rw [List.nodup_middle, List.nodup_cons] at hnodup
  have hroom := h.room
  refine ⟨us ++ vs, ⟨?_, hidle₁.trans h.idleproc, ?_, hcurrent.trans h.current, ?_,
    fun p => ?_, ?_, ?_⟩,
    .drop us vs proc store rfl hzombie hcur, fun p _ _ hrun => (congrFun hstate p).trans hrun⟩
  · have hring := h.links
    rw [List.map_append, List.map_cons] at hring
    rw [List.map_append]
    exact hlinks ▸ hring.listDel
  · have hout := h.idleOut
    simp only [List.mem_append, List.mem_cons, not_or] at hout ⊢
    exact ⟨hout.1, hout.2.2⟩
  · have hlisted := h.listed
    simp only [List.mem_append, List.mem_cons] at hlisted ⊢
    have := Ne.symm hcur
    tauto
  · have hall := h.heap p
    have hout := hnodup.1
    change p ∈ k₁.heap.erase proc ↔ _
    rw [hheap₁]
    change p ∈ k.heap.erase proc ↔ _
    rw [Finset.mem_erase, hall]
    simp only [List.mem_append, List.mem_cons]
    by_cases hp : p = proc
    · subst hp
      rw [List.mem_append] at hout
      tauto
    · tauto
  · have hold := h.count
    rw [List.length_append, List.length_cons] at hold
    change k₁.nrProcess = _
    rw [hcount, List.length_append]
    change k.nrProcess - 1 = _
    omega
  · rw [List.length_append, List.length_cons] at hroom
    rw [List.length_append]
    omega

theorem called_spec (h : Rotation idle procs cur k) {op : SchedOp} (hok : op.Permitted k)
    (hother : ∀ context, op ≠ .schedule context) : Ends (fun _ => True) op.run k fun _ k' =>
      ∃ procs', Called idle procs cur k op procs' k' := by
  -- the state of the current process changes
  have hstate : ∀ {k' : Kernel} {state : ProcState},
      k'.view = { k.view with state := Function.update k.state cur state } →
      ∃ procs', Called idle procs cur k op procs' k' := by
    intro k' state hview
    obtain ⟨hlinks, hcount, hstate, hheap, hidle, hcurrent⟩ := View.mk.inj hview
    refine ⟨procs, ⟨hlinks ▸ h.links, hidle.trans h.idleproc, h.idleOut, hcurrent.trans h.current,
      h.listed, hheap ▸ h.heap, hcount.trans h.count, h.room⟩, .same procs, fun p _ hp hrun => ?_⟩
    rw [hstate, Function.update_of_ne hp, hrun]
  cases op with
  | schedule context => exact absurd rfl (hother context)
  | fork context memory =>
      rw [SchedOp.run, ends_bind]
      exact (fork_called h hok).imp fun _ _ hcalled => hcalled
  | exit errorCode =>
      rw [SchedOp.run, ends_bind, ends_get]
      by_cases hidle : k.current = k.idleproc
      · rw [if_pos hidle]
        trivial
      rw [if_neg hidle]
      by_cases hinit : k.current = k.initproc
      · rw [if_pos hinit]
        trivial
      rw [if_neg hinit, ends_bind, ends_deref h.current, ends_modify]
      exact hstate rfl
  | sleep waitState =>
      rw [SchedOp.run, ends_bind, ends_get, ends_bind, ends_deref h.current, ends_modify]
      exact hstate rfl
  | wakeup proc =>
      rw [SchedOp.run, wakeupProc, ends_bind, ends_get]
      by_cases hzombie : k.state proc = .zombie
      · rw [if_pos hzombie]
        trivial
      rw [if_neg hzombie]
      split
      · refine ⟨procs, ⟨h.links, h.idleproc, h.idleOut, h.current, h.listed, h.heap, h.count,
          h.room⟩, .same procs, fun p _ _ hrun => ?_⟩
        change Function.update k.state proc .runnable p = .runnable
        by_cases hp : p = proc
        · rw [hp, Function.update_self]
        · rw [Function.update_of_ne hp, hrun]
      · exact ⟨procs, h, .same procs, fun _ _ _ hrun => hrun⟩
  | reap proc store =>
      rw [SchedOp.run, ends_bind]
      obtain ⟨hawake, hheap, hzombie⟩ := hok
      exact (reap_called h hawake hheap hzombie).imp fun _ _ hcalled => hcalled

/-! ## Runs -/

def SchedOp.IsSchedule : SchedOp → Prop
  | .schedule _ => True
  | _ => False

/-- A run of `n` calls from a kernel that has been started; `ks` are the states before and after
them. -/
structure SchedRun (n : Nat) (ks : Nat → Kernel) (ops : Nat → SchedOp) : Prop where
  start : (ks 0).Started
  step : ∀ i < n, (ops i).Permitted (ks i) ∧ (ops i).step (ks i) = some (ks (i + 1))

/-- The call `i` is one of `schedule`, and chooses `p`. -/
def Chooses (ks : Nat → Kernel) (ops : Nat → SchedOp) (i p : Nat) : Prop :=
  (ops i).IsSchedule ∧ (ks (i + 1)).current = some p

/-- What a round robin over `proc_list` gives each process, and that `schedule` returns wherever it
is called. -/
structure Fair (n : Nat) (ks : Nat → Kernel) (ops : Nat → SchedOp) : Prop where
  /-- A process that can run at all calls is chosen before another one, which is not taken out of
  the list meanwhile, is chosen twice. -/
  between : ∀ i j q p, i < j → j < n → Chooses ks ops i q → Chooses ks ops j q →
    (∀ l, i < l → l < j → ∀ store, ops l ≠ .reap q store) →
    (∀ l, i ≤ l → l ≤ j → (ops l).IsSchedule → (ks l).Ready p) → ∃ l, i ≤ l ∧ l ≤ j ∧
    Chooses ks ops l p
  idle : ∀ i < n, ∀ q, Chooses ks ops i q → (ks i).idleproc = some q → ∀ p, ¬ (ks i).Ready p
  ends : ∀ i ≤ n, ∀ context, ∃ k', exec (schedule context) (ks i) = some k'

/-- The cursor of `proc_list` has not come past `p`, which can run, since `q` was chosen. -/
structure Behind (idle : Nat) (procs : List Nat) (cur : Nat) (k : Kernel) (p q : Nat) : Prop where
  rotation : Rotation idle procs cur k
  mem : p ∈ procs
  memCursor : q ∈ procs
  runnable : k.state p = .runnable
  ne : cur ≠ p
  sooner : Sooner (turns procs cur) p q

variable {n : Nat} {ks : Nat → Kernel} {ops : Nat → SchedOp}

variable (cur) in
theorem find_of_ready (hp : p ∈ procs) (hrun : k.state p = .runnable) :
    ∃ d, (turns procs cur).find? (canRun k) = some d := by
  apply Option.isSome_iff_exists.mp
  rw [List.find?_isSome]
  exact ⟨p, (turns_perm procs cur).mem_iff.mpr hp, decide_eq_true hrun⟩

/-- A call but `schedule` leaves the cursor where it is. -/
theorem Behind.called {op : SchedOp} {procs' : List Nat} (h : Behind idle procs cur k p q)
    (hcalled : Called idle procs cur k op procs' k') (hop : ∀ store, op ≠ .reap q store) :
    Behind idle procs' cur k' p q := by
  have hrun := hcalled.runnable p h.mem (Ne.symm h.ne) h.runnable
  have hrotation := hcalled.rotation
  have hheap : ∀ x ∈ procs, x ∈ k.heap := fun x hx => (h.rotation.heap x).mpr (Or.inr hx)
  cases hcalled.change with
  | same => exact ⟨hrotation, h.mem, h.memCursor, hrun, h.ne, h.sooner⟩
  | push n hnew =>
      have hcur : cur ≠ n := by
        rintro rfl
        exact hnew ((h.rotation.heap _).mpr h.rotation.listed)
      exact ⟨hrotation, List.mem_cons_of_mem n h.mem, List.mem_cons_of_mem n h.memCursor, hrun,
        h.ne,
        h.sooner.cons (fun hin => hnew (hheap n hin)) hcur fun heq =>
        hnew (heq ▸ hheap q h.memCursor)⟩
  | drop us vs proc store hreap hzombie hcur =>
      have hp : proc ≠ p := by
        rintro rfl
        rw [h.runnable] at hzombie
        cases hzombie
      have hq : proc ≠ q := fun heq => hop store (heq ▸ hreap)
      have hkeep : ∀ x, x ≠ proc → x ∈ us ++ proc :: vs → x ∈ us ++ vs := by
        intro x hx hin
        simp only [List.mem_append, List.mem_cons] at hin ⊢
        tauto
      exact ⟨hrotation, hkeep p (Ne.symm hp) h.mem, hkeep q (Ne.symm hq) h.memCursor, hrun, h.ne,
        h.sooner.remove h.rotation.nodup hp hcur⟩

/-- `schedule` chooses `p`, or the cursor does not come past it, nor to `q`. -/
theorem Behind.scheduled (h : Behind idle procs cur k p q) (hrotation : Rotation idle procs next k')
    (hstate : k'.state = k.state) (hnext : next = ((turns procs cur).find? (canRun k)).getD idle)
    (hne : next ≠ p) : next ≠ q ∧ Behind idle procs next k' p q := by
  obtain ⟨d, hfind⟩ := find_of_ready cur h.mem h.runnable
  rw [hfind, Option.getD_some] at hnext
  subst hnext
  obtain ⟨hq, hsooner⟩ := h.sooner.next h.rotation.nodup (decide_eq_true h.runnable) hfind hne
  exact ⟨hq, hrotation, h.mem, h.memCursor, hstate ▸ h.runnable, hne, hsooner⟩

/-- `proc_list` is in order after every call. -/
theorem SchedRun.rotation (hrun : SchedRun n ks ops) {i : Nat} (hi : i ≤ n) :
    ∃ idle procs cur, Rotation idle procs cur (ks i) := by
  induction i with
  | zero =>
      obtain ⟨k₀, idle, memory, hboot, hmemory, hexec⟩ := hrun.start
      obtain ⟨_, T, init, rfl, hinv, hroot, hcurrent, _⟩ :=
        (procInit_spec hboot hmemory).of_exec hexec
      have hprocs : T.procs = [init] := hroot.procs
      refine ⟨T.idle, T.procs, T.idle, hinv.listed.links, hinv.idleproc, hinv.family.idle,
        hcurrent.current, Or.inl rfl, hinv.heap, hinv.listed.count, ?_⟩
      rw [hprocs, List.length_singleton]
      decide
  | succ i ih =>
      obtain ⟨idle, procs, cur, hrotation⟩ := ih (Nat.le_of_succ_le hi)
      obtain ⟨hok, hstep⟩ := hrun.step i hi
      by_cases hop : ∃ context, ops i = .schedule context
      · obtain ⟨context, hop⟩ := hop
        rw [hop] at hstep
        obtain ⟨_, next, hrotation', _⟩ := (schedule_turn hrotation).of_exec hstep
        exact ⟨idle, procs, next, hrotation'⟩
      · obtain ⟨_, procs', hcalled⟩ := (called_spec hrotation hok (not_exists.mp hop)).of_exec hstep
        exact ⟨idle, procs', cur, hcalled.rotation⟩

/-- What a call of `schedule` in a run does. -/
theorem SchedRun.chosen (hrun : SchedRun n ks ops) {i : Nat} (hi : i < n)
    (hcall : (ops i).IsSchedule)
    (h : Rotation idle procs cur (ks i)) : ∃ next, Rotation idle procs next (ks (i + 1)) ∧
      (ks (i + 1)).state = (ks i).state ∧
        next = ((turns procs cur).find? (canRun (ks i))).getD idle := by
  obtain ⟨_, hstep⟩ := hrun.step i hi
  cases hop : ops i with
  | schedule context =>
      rw [hop] at hstep
      obtain ⟨_, hnext⟩ := (schedule_turn h).of_exec hstep
      exact hnext
  | _ =>
      rw [hop] at hcall
      exact hcall.elim

/-- `idleproc` is chosen where no other process can run. -/
theorem Rotation.not_ready (h : Rotation idle procs cur k)
    (hidle : ((turns procs cur).find? (canRun k)).getD idle = idle) : ¬ k.Ready p := by
  intro hready
  obtain ⟨hp, hrun⟩ := h.ready_iff.mp hready
  obtain ⟨d, hfind⟩ := find_of_ready cur hp hrun
  rw [hfind, Option.getD_some] at hidle
  exact h.idleOut (hidle ▸ (turns_perm procs cur).mem_iff.mp (List.mem_of_find?_eq_some hfind))

/-- While `p` is not chosen, the cursor stays behind it. -/
theorem SchedRun.behind (hrun : SchedRun n ks ops) {i j : Nat} (hj : j < n)
    (hready : ∀ l, i ≤ l → l ≤ j → (ops l).IsSchedule → (ks l).Ready p)
    (hfirst : Chooses ks ops i q) (hkeep : ∀ l, i < l → l < j → ∀ store, ops l ≠ .reap q store)
    (hnot : ∀ l, i ≤ l → l ≤ j → ¬ Chooses ks ops l p) {l : Nat} (hl : i + 1 ≤ l) (hlj : l ≤ j) :
    ∃ idle procs cur, Behind idle procs cur (ks l) p q := by
  induction l, hl using Nat.le_induction with
  | base =>
      have hij : i ≤ j := Nat.le_of_succ_le hlj
      obtain ⟨idle, procs, cur, hrotation⟩ := hrun.rotation (i := i) (by omega)
      obtain ⟨next, hrotation', hstate, hnext⟩ := hrun.chosen (by omega) hfirst.1 hrotation
      obtain ⟨hp, hrunnable⟩ := hrotation.ready_iff.mp (hready i (le_refl i) hij hfirst.1)
      obtain rfl : next = q := Option.some.inj (hrotation'.current.symm.trans hfirst.2)
      have hne : next ≠ p := fun heq => hnot i (le_refl i) hij (heq ▸ hfirst)
      obtain ⟨d, hfind⟩ := find_of_ready cur hp hrunnable
      rw [hfind, Option.getD_some] at hnext
      have hcursor : next ∈ procs :=
        hnext ▸ (turns_perm procs cur).mem_iff.mp (List.mem_of_find?_eq_some hfind)
      exact ⟨idle, procs, next, hrotation', hp, hcursor, hstate ▸ hrunnable, hne,
        sooner_cursor hrotation.nodup hp (Ne.symm hne)⟩
  | succ l hl ih =>
      obtain ⟨idle, procs, cur, hbehind⟩ := ih (Nat.le_of_succ_le hlj)
      obtain ⟨hok, hstep⟩ := hrun.step l (by omega)
      by_cases hcall : (ops l).IsSchedule
      · obtain ⟨next, hrotation, hstate, hnext⟩ := hrun.chosen (by omega) hcall hbehind.rotation
        have hne : next ≠ p := by
          rintro rfl
          exact hnot l (by omega) (by omega) ⟨hcall, hrotation.current⟩
        exact ⟨idle, procs, next, (hbehind.scheduled hrotation hstate hnext hne).2⟩
      · have hother : ∀ context, ops l ≠ .schedule context :=
          fun context heq => hcall (heq ▸ trivial)
        obtain ⟨_, procs', hcalled⟩ := (called_spec hbehind.rotation hok hother).of_exec hstep
        exact ⟨idle, procs', cur, hbehind.called hcalled (hkeep l (by omega) (by omega))⟩

/-- `schedule` is fair in every run. -/
theorem schedule_fair (hrun : SchedRun n ks ops) : Fair n ks ops where
  between i j q p hij hj hfirst hsecond hkeep hready := by
    by_contra hnone
    have hnot : ∀ l, i ≤ l → l ≤ j → ¬ Chooses ks ops l p :=
      fun l hil hlj hchosen => hnone ⟨l, hil, hlj, hchosen⟩
    obtain ⟨idle, procs, cur, hbehind⟩ := hrun.behind hj hready hfirst hkeep hnot hij (le_refl j)
    obtain ⟨next, hrotation, hstate, hnext⟩ := hrun.chosen hj hsecond.1 hbehind.rotation
    have hne : next ≠ p := by
      rintro rfl
      exact hnot j (Nat.le_of_lt hij) (le_refl j) ⟨hsecond.1, hrotation.current⟩
    -- the second choice is not of `q`
    have hother := (hbehind.scheduled hrotation hstate hnext hne).1
    exact hother (Option.some.inj (hrotation.current.symm.trans hsecond.2))
  idle i hi q hchosen hq p := by
    obtain ⟨idle, procs, cur, hrotation⟩ := hrun.rotation (Nat.le_of_lt hi)
    obtain ⟨next, hrotation', _, hnext⟩ := hrun.chosen hi hchosen.1 hrotation
    obtain rfl : next = q := Option.some.inj (hrotation'.current.symm.trans hchosen.2)
    obtain rfl : idle = next := Option.some.inj (hrotation.idleproc.symm.trans hq)
    exact hrotation.not_ready hnext.symm
  ends i hi context := by
    obtain ⟨idle, procs, cur, hrotation⟩ := hrun.rotation hi
    exact (schedule_turn hrotation).exec_some

/-- The kernel after the first calls, as far as they return. -/
def Kernel.after (k : Kernel) (ops : Nat → SchedOp) : Nat → Kernel
  | 0 => k
  | i + 1 => ((ops i).step (k.after ops i)).getD (k.after ops i)

theorem schedRun_after (hstart : k.Started)
    (hok : ∀ i < n, (ops i).Permitted (k.after ops i) ∧
      ((ops i).step (k.after ops i)).isSome = true) :
    SchedRun n (k.after ops) ops where
  start := hstart
  step i hi := by
    obtain ⟨hpermitted, hsome⟩ := hok i hi
    obtain ⟨k', hstep⟩ := Option.isSome_iff_exists.mp hsome
    refine ⟨hpermitted, ?_⟩
    rw [Kernel.after, hstep]
    rfl

/-- `initproc` forks, and the two processes take turns. -/
def takingTurns : Nat → SchedOp
  | 1 => .fork .user ⟨some 102, true, true⟩
  | _ => .schedule .user

theorem schedule_fair_turns : ∃ k : Kernel, SchedRun 5 (k.after takingTurns) takingTurns ∧
    Chooses (k.after takingTurns) takingTurns 2 102 ∧
      Chooses (k.after takingTurns) takingTurns 4 102 ∧
    Fair 5 (k.after takingTurns) takingTurns := by
  have hruns : ((exec (procInit 100 ⟨some 101, true, true⟩) .zero).map fun k : Kernel =>
      (decide (∀ i ∈ List.range 5, (takingTurns i).Permitted (k.after takingTurns i) ∧
        ((takingTurns i).step (k.after takingTurns i)).isSome = true),
        (k.after takingTurns 3).current, (k.after takingTurns 5).current)) =
      some (true, some 102, some 102) := by
    decide +kernel
  obtain ⟨k, hstart, hvalues⟩ := Option.map_eq_some_iff.mp hruns
  obtain ⟨hok, hthird, hfifth⟩ := by simpa only [Prod.mk.injEq] using hvalues
  have hrun := schedRun_after ⟨_, 100, _, Kernel.boot_zero, by decide, hstart⟩
    fun i hi => of_decide_eq_true hok i (List.mem_range.mpr hi)
  exact ⟨k, hrun, ⟨trivial, hthird⟩, ⟨trivial, hfifth⟩, schedule_fair hrun⟩

end Ucore.Process
