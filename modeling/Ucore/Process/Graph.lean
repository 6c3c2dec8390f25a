import Ucore.Process.Proc

/-!
# What the pointers between processes stand for

A `Tree` says which processes there are and in which order they are on the lists and
in the chains of children. `Listed` and `Family` connect it to the pointers. The rules
say what entering a process, removing one and moving a child do to them.
-/

namespace Ucore.Process

open Machine

/-- The processes in the order of `proc_list`, the children of each process, the
youngest first, and the lists of the hash table. -/
structure Tree where
  idle : Nat
  procs : List Nat
  kids : Nat → List Nat
  chains : Fin HASH_LIST_SIZE → List Nat

namespace Tree

def Live (T : Tree) (p : Nat) : Prop := p = T.idle ∨ p ∈ T.procs

/-- `proc` is new, a child of `parent` and on the list `i`. -/
def push (T : Tree) (proc parent : Nat) (i : Fin HASH_LIST_SIZE) : Tree := { T with
  procs := proc :: T.procs
  kids := Function.update (Function.update T.kids proc []) parent (proc :: T.kids parent)
  chains := Function.update T.chains i (proc :: T.chains i) }

/-- `proc`, a child of `parent` on the list `i`, is gone. -/
def remove (T : Tree) (proc parent : Nat) (i : Fin HASH_LIST_SIZE) : Tree := { T with
  procs := T.procs.erase proc
  kids := Function.update T.kids parent ((T.kids parent).erase proc)
  chains := Function.update T.chains i ((T.chains i).erase proc) }

/-- The first child of `cur` has become one of `init`. -/
def adopt (T : Tree) (cur proc init : Nat) : Tree := { T with
  kids := Function.update (Function.update T.kids cur (T.kids cur).tail) init
    (proc :: T.kids init) }

end Tree

/-! ## The lists -/

/-- The two lists, the count and the process ids are those of the processes of the tree. -/
structure Listed (T : Tree) (l : Lists) : Prop where
  links : l.links.Ring .procList (T.procs.map .listLink)
  hash : ∀ i, l.hash.Ring (.hashList i) ((T.chains i).map .hashLink)
  chains : ∀ i p, p ∈ T.chains i ↔ p ∈ T.procs ∧ pidHashfn (l.pid p) = i
  count : l.nrProcess = T.procs.length + 1
  pids : PidState.Inv ⟨T.procs.map l.pid, l.lastPid, l.nextSafe⟩

theorem erase_middle {α : Type*} [DecidableEq α] {xs ys : List α} {x : α} (hx : x ∉ xs) :
    (xs ++ x :: ys).erase x = xs ++ ys := by
  rw [List.erase_append_right _ hx, List.erase_cons_head]

namespace Listed

variable {T : Tree} {l : Lists} {proc : Nat}

theorem nodup (h : Listed T l) : T.procs.Nodup := by
  have hlist := (List.nodup_cons.mp h.links.nodup).2
  exact List.Nodup.of_map _ hlist

theorem length_le (h : Listed T l) : T.procs.length ≤ MAX_PROCESS := by
  simpa using h.pids.length

/-- `proc_list` and the lists of the hash table have no process twice. -/
theorem chain_nodup (h : Listed T l) (i : Fin HASH_LIST_SIZE) : (T.chains i).Nodup := by
  have hlist := (List.nodup_cons.mp (h.hash i).nodup).2
  exact List.Nodup.of_map _ hlist

theorem chain_length_le (h : Listed T l) (i : Fin HASH_LIST_SIZE) :
    (T.chains i).length ≤ MAX_PROCESS := by
  have hsub : T.chains i ⊆ T.procs := fun p hp => ((h.chains i p).mp hp).1
  exact Nat.le_trans ((h.chain_nodup i).subperm hsub).length_le h.length_le

/-- Processes on the list have different ids. -/
theorem pid_inj (h : Listed T l) {p q : Nat} (hp : p ∈ T.procs) (hq : q ∈ T.procs)
    (heq : l.pid p = l.pid q) : p = q :=
  List.inj_on_of_nodup_map h.pids.distinct hp hq heq

/-- The id of a process that is not on the lists does not matter. -/
theorem congr_pid (h : Listed T l) {pid : Nat → Int} (hsame : ∀ p ∈ T.procs, pid p = l.pid p) :
    Listed T { l with pid := pid } := by
  have hmap : T.procs.map pid = T.procs.map l.pid := List.map_congr_left hsame
  refine ⟨h.links, h.hash, fun i p => ?_, h.count, hmap ▸ h.pids⟩
  rw [h.chains i p]
  exact and_congr_right fun hp => by simp only [hsame p hp]

/-- The lists do not change when a child moves. -/
theorem adopt (h : Listed T l) (cur init : Nat) : Listed (T.adopt cur proc init) l :=
  ⟨h.links, h.hash, h.chains, h.count, h.pids⟩

/-! ### Walks -/

theorem listProcs_visits {next : ListEntry} {xs : List Nat} {fuel : Nat}
    (hwalk : Links.Visits l.links.next .procList next (xs.map .listLink))
    (hfuel : xs.length < fuel) :
    listProcs l fuel next = some xs := by
  induction xs generalizing next fuel with
  | nil =>
      obtain ⟨n, rfl⟩ : ∃ n, fuel = n + 1 := ⟨fuel - 1, by simp at hfuel; omega⟩
      have hend : l.links.next next = .procList := hwalk
      simp [listProcs, hend]
  | cons x xs ih =>
      obtain ⟨n, rfl⟩ : ∃ n, fuel = n + 1 := ⟨fuel - 1, by simp at hfuel; omega⟩
      obtain ⟨hstep, _, hrest⟩ := hwalk
      have hih := ih hrest (by simpa using hfuel)
      simp [listProcs, hstep, hih]

/-- The loop over `proc_list` sees every process on it. -/
theorem listProcs_eq (h : Listed T l) : listProcs l listBound .procList = some T.procs := by
  apply listProcs_visits h.links.visits_next
  have := h.length_le
  unfold listBound
  omega

theorem findFrom_visits (pid : Int) {i : Fin HASH_LIST_SIZE} {next : HashEntry} {xs : List Nat}
    {fuel : Nat} (hwalk : Links.Visits l.hash.next (.hashList i) next (xs.map .hashLink))
    (hfuel : xs.length < fuel) :
    findFrom l pid i fuel next = some (xs.find? fun p => l.pid p = pid) := by
  induction xs generalizing next fuel with
  | nil =>
      obtain ⟨n, rfl⟩ : ∃ n, fuel = n + 1 := ⟨fuel - 1, by simp at hfuel; omega⟩
      have hend : l.hash.next next = .hashList i := hwalk
      simp [findFrom, hend]
  | cons x xs ih =>
      obtain ⟨n, rfl⟩ : ∃ n, fuel = n + 1 := ⟨fuel - 1, by simp at hfuel; omega⟩
      obtain ⟨hstep, _, hrest⟩ := hwalk
      have hih := ih hrest (by simpa using hfuel)
      by_cases hx : l.pid x = pid
      · simp [findFrom, hstep, hx]
      · simp [findFrom, hstep, hx, hih]

/-- The loop over a list of the hash table finds the process with an id. -/
theorem findFrom_eq (h : Listed T l) (pid : Int) (r : Option Nat)
    (hfound : findFrom l pid (pidHashfn pid) listBound (.hashList (pidHashfn pid)) = some r) :
    ∀ p, r = some p ↔ p ∈ T.procs ∧ l.pid p = pid := by
  have hlen := h.chain_length_le (pidHashfn pid)
  rw [findFrom_visits pid (h.hash (pidHashfn pid)).visits_next (by unfold listBound; omega)]
    at hfound
  obtain rfl := Option.some.inj hfound
  intro p
  constructor
  · intro hp
    have hmem := List.mem_of_find?_eq_some hp
    exact ⟨((h.chains _ p).mp hmem).1, by simpa using List.find?_some hp⟩
  · rintro ⟨hp, rfl⟩
    have hmem : p ∈ T.chains (pidHashfn (l.pid p)) := (h.chains _ p).mpr ⟨hp, rfl⟩
    cases hfind : (T.chains (pidHashfn (l.pid p))).find? fun q => l.pid q = l.pid p with
    | none => simpa using List.find?_eq_none.mp hfind p hmem
    | some q =>
        have hq := ((h.chains _ q).mp (List.mem_of_find?_eq_some hfind)).1
        rw [h.pid_inj hq hp (by simpa using List.find?_some hfind)]

/-! ### Entering and removing a process -/

/-- `hash_proc` and `list_add` with a new process, which has got its id. -/
theorem push (h : Listed T l) (hnew : proc ∉ T.procs) {parent : Nat} {pid safe : Int}
    (hroom : T.procs.length < MAX_PROCESS) (hpid : 1 ≤ pid ∧ pid < MAX_PID)
    (hfresh : pid ∉ T.procs.map l.pid) (hsafe : safe ≤ MAX_PID)
    (hgap : Gap (pid :: T.procs.map l.pid) (pid + 1) safe) :
    Listed (T.push proc parent (pidHashfn pid)) {
      links := l.links.listAdd .procList (.listLink proc)
      hash := l.hash.listAdd (.hashList (pidHashfn pid)) (.hashLink proc)
      pid := Function.update l.pid proc pid
      nrProcess := l.nrProcess + 1
      lastPid := pid
      nextSafe := safe } := by
  have hne : ∀ p ∈ T.procs, p ≠ proc := fun p hp heq => hnew (heq ▸ hp)
  have hchain : ∀ i, proc ∉ T.chains i := fun i hp => hnew ((h.chains i proc).mp hp).1
  have hmap : (proc :: T.procs).map (Function.update l.pid proc pid) =
      pid :: T.procs.map l.pid := by
    rw [List.map_cons, Function.update_self]
    congr 1
    exact List.map_congr_left fun p hp => Function.update_of_ne (hne p hp) _ _
  constructor
  · have hring : l.links.Ring .procList ([] ++ T.procs.map .listLink) := h.links
    exact hring.listAdd (by simpa using hnew)
  · -- the chain of the hash of the new id grows, the others have other entries
    intro i
    by_cases hi : i = pidHashfn pid
    · subst hi
      have hring : l.hash.Ring (.hashList (pidHashfn pid))
          ([] ++ (T.chains (pidHashfn pid)).map .hashLink) := h.hash _
      have hadd := hring.listAdd (e := .hashLink proc) (by simpa using hchain _)
      simpa [Tree.push] using hadd
    · have hother : (Tree.push T proc parent (pidHashfn pid)).chains i = T.chains i :=
        Function.update_of_ne hi _ _
      rw [hother]
      have hnext := ((h.hash (pidHashfn pid)).neighbours_mem List.mem_cons_self).1
      apply (h.hash i).listAdd_other
      · simp [Ne.symm hi]
      · simpa using hchain i
      · intro hmem
        rcases List.mem_cons.mp hnext with hnext | hnext
        · rw [hnext] at hmem
          simp [Ne.symm hi] at hmem
        · obtain ⟨p, hp, hlink⟩ := List.mem_map.mp hnext
          rw [← hlink] at hmem
          have hpi : p ∈ T.chains i := by simpa using hmem
          exact hi (((h.chains i p).mp hpi).2.symm.trans ((h.chains _ p).mp hp).2)
  · intro i p
    by_cases hp : p = proc
    · subst hp
      by_cases hi : i = pidHashfn pid
      · subst hi
        simp [Tree.push]
      · simp [Tree.push, hi, hchain i, Ne.symm hi]
    · have hold := h.chains i p
      by_cases hi : i = pidHashfn pid
      · subst hi
        simp [Tree.push, hp, hold]
      · simp [Tree.push, hi, hp, hold]
  · simp [Tree.push, h.count]
  · show PidState.Inv ⟨(proc :: T.procs).map (Function.update l.pid proc pid), pid, safe⟩
    rw [hmap]
    refine ⟨by simpa using hroom, List.nodup_cons.mpr ⟨hfresh, h.pids.distinct⟩, ?_, hpid.1, hsafe,
      hgap⟩
    intro q hq
    rcases List.mem_cons.mp hq with rfl | hq
    · exact hpid
    · exact h.pids.range q hq

/-- `unhash_proc` and `list_del` with a process. -/
theorem remove (h : Listed T l) (hproc : proc ∈ T.procs) (parent : Nat) :
    Listed (T.remove proc parent (pidHashfn (l.pid proc))) { l with
      links := l.links.listDel (.listLink proc)
      hash := l.hash.listDel (.hashLink proc)
      nrProcess := l.nrProcess - 1 } := by
  have hnodup := h.nodup
  obtain ⟨xs, ys, hsplit⟩ := List.append_of_mem hproc
  have hchain : proc ∈ T.chains (pidHashfn (l.pid proc)) := (h.chains _ proc).mpr ⟨hproc, rfl⟩
  obtain ⟨us, vs, hsplit'⟩ := List.append_of_mem hchain
  have hxs : proc ∉ xs := by
    rw [hsplit, List.nodup_append] at hnodup
    exact fun hmem => hnodup.2.2 _ hmem _ List.mem_cons_self rfl
  have hus : proc ∉ us := by
    have hnodup' := h.chain_nodup (pidHashfn (l.pid proc))
    rw [hsplit', List.nodup_append] at hnodup'
    exact fun hmem => hnodup'.2.2 _ hmem _ List.mem_cons_self rfl
  have hsub : T.procs.erase proc ⊆ T.procs := List.erase_subset
  have hmap : (T.procs.erase proc).map l.pid = (T.procs.map l.pid).erase (l.pid proc) := by
    have hpid : l.pid proc ∉ xs.map l.pid := by
      intro hmem
      obtain ⟨p, hp, heq⟩ := List.mem_map.mp hmem
      have hpp := h.pid_inj (hsplit ▸ List.mem_append_left _ hp) hproc heq
      exact hxs (hpp ▸ hp)
    rw [hsplit, erase_middle hxs, List.map_append, List.map_append, List.map_cons,
      erase_middle hpid]
  constructor
  · show (l.links.listDel (.listLink proc)).Ring .procList ((T.procs.erase proc).map .listLink)
    have hring := h.links
    rw [hsplit, List.map_append, List.map_cons] at hring
    rw [hsplit, erase_middle hxs, List.map_append]
    exact hring.listDel
  · -- the chain with the process shrinks; none of its links is in another chain
    intro i
    by_cases hi : i = pidHashfn (l.pid proc)
    · subst hi
      have hring := h.hash (pidHashfn (l.pid proc))
      rw [hsplit', List.map_append, List.map_cons] at hring
      have hdel := hring.listDel
      rw [← List.map_append] at hdel
      simpa [Tree.remove, hsplit', erase_middle hus] using hdel
    · have hother : (T.remove proc parent (pidHashfn (l.pid proc))).chains i = T.chains i :=
        Function.update_of_ne hi _ _
      have hout : ∀ e ∈ (.hashList (pidHashfn (l.pid proc)) ::
          (T.chains (pidHashfn (l.pid proc))).map HashEntry.hashLink),
          e ∉ .hashList i :: (T.chains i).map HashEntry.hashLink := by
        intro e he hmem
        rcases List.mem_cons.mp he with rfl | he
        · simp [Ne.symm hi] at hmem
        · obtain ⟨p, hp, rfl⟩ := List.mem_map.mp he
          have hpi : p ∈ T.chains i := by simpa using hmem
          exact hi (((h.chains i p).mp hpi).2.symm.trans ((h.chains _ p).mp hp).2)
      have hneighbours := (h.hash (pidHashfn (l.pid proc))).neighbours_mem
        (List.mem_cons_of_mem _ (List.mem_map_of_mem hchain))
      rw [hother]
      exact (h.hash i).listDel_other (hout _ hneighbours.1) (hout _ hneighbours.2)
  · intro i p
    have herase : p ∈ T.procs.erase proc ↔ p ≠ proc ∧ p ∈ T.procs := hnodup.mem_erase_iff
    have hold := h.chains i p
    show p ∈ (T.remove proc parent _).chains i ↔ p ∈ T.procs.erase proc ∧ pidHashfn (l.pid p) = i
    rw [herase]
    by_cases hi : i = pidHashfn (l.pid proc)
    · subst hi
      have hchains : p ∈ (T.chains (pidHashfn (l.pid proc))).erase proc ↔
          p ≠ proc ∧ p ∈ T.chains (pidHashfn (l.pid proc)) := (h.chain_nodup _).mem_erase_iff
      simp [Tree.remove, hchains, hold, and_assoc]
    · have hne : p ∈ T.procs ∧ pidHashfn (l.pid p) = i → p ≠ proc := by
        rintro ⟨_, hp⟩ rfl
        exact hi hp.symm
      have hother : (T.remove proc parent (pidHashfn (l.pid proc))).chains i = T.chains i :=
        Function.update_of_ne hi _ _
      rw [hother, hold]
      tauto
  · show l.nrProcess - 1 = (T.procs.erase proc).length + 1
    have hlen := List.length_erase_add_one hproc
    have hcount := h.count
    omega
  · show PidState.Inv ⟨(T.procs.erase proc).map l.pid, l.lastPid, l.nextSafe⟩
    rw [hmap]
    have hsub' : (T.procs.map l.pid).erase (l.pid proc) ⊆ T.procs.map l.pid := List.erase_subset
    exact ⟨Nat.le_trans List.length_erase_le h.pids.length, h.pids.distinct.erase _,
      fun q hq => h.pids.range q (hsub' hq), h.pids.last, h.pids.safe,
      fun q hq => h.pids.gap q (hsub' hq)⟩

end Listed

/-! ## The family -/

/-- The pointers between parents and children. The chain of the process `loose` is only
good to walk along `optr`; its first process may have a stale `yptr`. -/
structure Family (T : Tree) (loose : Option Nat) (r : Relations) : Prop where
  idle : T.idle ∉ T.procs
  chain : ∀ q, T.Live q → loose ≠ some q → DList r.optr r.yptr none (r.cptr q) (T.kids q)
  walk : ∀ q, loose = some q → Follows r.optr (r.cptr q) (T.kids q)
  nodup : ∀ q, T.Live q → (T.kids q).Nodup
  child : ∀ q, T.Live q → ∀ p, p ∈ T.kids q ↔ p ∈ T.procs ∧ r.parent p = some q
  parent : ∀ p ∈ T.procs, ∃ q, T.Live q ∧ r.parent p = some q
  alone : r.optr T.idle = none ∧ r.yptr T.idle = none ∧ r.parent T.idle = none

namespace Family

variable {T : Tree} {r : Relations} {loose : Option Nat} {proc parent cur init p q : Nat}

theorem follows (h : Family T loose r) (hq : T.Live q) :
    Follows r.optr (r.cptr q) (T.kids q) := by
  by_cases hloose : loose = some q
  · exact h.walk q hloose
  · exact (h.chain q hq hloose).follows

/-- A process is a child of one process only. -/
theorem kids_disjoint (h : Family T loose r) {q' : Nat} (hq : T.Live q) (hq' : T.Live q')
    (hp : p ∈ T.kids q) (hp' : p ∈ T.kids q') : q = q' := by
  have hparent := ((h.child q hq p).mp hp).2
  rw [((h.child q' hq' p).mp hp').2] at hparent
  exact (Option.some.inj hparent).symm

theorem kids_subset (h : Family T loose r) (hq : T.Live q) : T.kids q ⊆ T.procs :=
  fun p hp => ((h.child q hq p).mp hp).1

/-- The first child of one process is no child of another one. -/
theorem cptr_notMem (h : Family T loose r) {q' : Nat} (hq : T.Live q)
    (hq' : T.Live q') (hne : q' ≠ q) (hp : p ∈ T.kids q') : r.cptr q ≠ some p := by
  intro hfirst
  rw [(h.follows hq).head] at hfirst
  exact hne (h.kids_disjoint hq' hq hp (List.mem_of_head? hfirst))

/-- The pointers of other processes do not matter. -/
theorem congr (h : Family T none r) {r' : Relations}
    (hparent : ∀ p, T.Live p → r'.parent p = r.parent p)
    (hcptr : ∀ p, T.Live p → r'.cptr p = r.cptr p)
    (hyptr : ∀ p, T.Live p → r'.yptr p = r.yptr p)
    (hoptr : ∀ p, T.Live p → r'.optr p = r.optr p) : Family T none r' := by
  refine ⟨h.idle, fun q hq _ => ?_, by simp, h.nodup, fun q hq p => ?_, fun p hp => ?_, ?_⟩
  · rw [hcptr q hq]
    apply (h.chain q hq (by simp)).congr
    · exact fun p hp => hoptr p (Or.inr (h.kids_subset hq hp))
    · exact fun p hp => hyptr p (Or.inr (h.kids_subset hq hp))
  · rw [h.child q hq p]
    exact and_congr_right fun hp => by rw [hparent p (Or.inr hp)]
  · rw [hparent p (Or.inr hp)]
    exact h.parent p hp
  · rw [hoptr _ (Or.inl rfl), hyptr _ (Or.inl rfl), hparent _ (Or.inl rfl)]
    exact h.alone

theorem loosen (h : Family T none r) (hcur : T.Live cur) : Family T (some cur) r := by
  refine ⟨h.idle, fun q hq _ => h.chain q hq (by simp), fun q hq => ?_, h.nodup, h.child, h.parent,
    h.alone⟩
  obtain rfl := Option.some.inj hq
  exact h.follows hcur

/-- A chain without processes is not loose. -/
theorem settle (h : Family T (some cur) r) (hempty : T.kids cur = []) : Family T none r := by
  refine ⟨h.idle, fun q hq _ => ?_, by simp, h.nodup, h.child, h.parent, h.alone⟩
  by_cases hcur : cur = q
  · subst hcur
    have hwalk := h.walk cur rfl
    rw [hempty] at hwalk ⊢
    exact hwalk
  · exact h.chain q hq fun heq => hcur (Option.some.inj heq)

/-- The pointers that `set_links` writes. -/
theorem push (h : Family T none r) (hnew : ¬ T.Live proc) (hparent : T.Live parent)
    (hcptr : r.cptr proc = none) (hproc : r.parent proc = some parent) (i : Fin HASH_LIST_SIZE) :
    Family (T.push proc parent i) none { r with
      cptr := Function.update r.cptr parent (some proc)
      yptr := relink (Function.update r.yptr proc none) (r.cptr parent) (some proc)
      optr := Function.update r.optr proc (r.cptr parent) } := by
  have hprocs : proc ∉ T.procs := fun hp => hnew (Or.inr hp)
  have hidle : T.idle ≠ proc := fun heq => hnew (Or.inl heq.symm)
  have hne : parent ≠ proc := fun heq => hnew (heq ▸ hparent)
  have hkid : ∀ q, T.Live q → proc ∉ T.kids q := fun q hq hp => hprocs (h.kids_subset hq hp)
  have hkids : ∀ q, T.Live q → q ≠ parent → (T.push proc parent i).kids q = T.kids q := by
    intro q hq hqp
    have hqn : q ≠ proc := fun heq => hnew (heq ▸ hq)
    simp [Tree.push, hqp, hqn]
  have hparentKids : (T.push proc parent i).kids parent = proc :: T.kids parent := by
    simp [Tree.push]
  have hprocKids : (T.push proc parent i).kids proc = [] := by
    simp [Tree.push, Ne.symm hne]
  have hlive : ∀ q, (T.push proc parent i).Live q → q = proc ∨ T.Live q := by
    intro q hq
    rcases hq with hq | hq
    · exact Or.inr (Or.inl hq)
    · rcases List.mem_cons.mp hq with hq | hq
      · exact Or.inl hq
      · exact Or.inr (Or.inr hq)
  constructor
  · intro hmem
    rcases List.mem_cons.mp hmem with hmem | hmem
    · exact hidle hmem
    · exact h.idle hmem
  · -- the new process is in front of the children of its parent, and has none
    intro q hlive' _
    rcases hlive q hlive' with rfl | hq
    · rw [hprocKids]
      show Function.update r.cptr parent (some q) q = none
      rw [Function.update_of_ne (Ne.symm hne), hcptr]
    · by_cases hqp : q = parent
      · subst hqp
        have hpush := (h.chain q hq (by simp)).push (List.nodup_cons.mpr ⟨hkid q hq, h.nodup q hq⟩)
        rw [hparentKids]
        show DList _ _ none (Function.update r.cptr q (some proc) q) _
        rwa [Function.update_self]
      · rw [hkids q hq hqp]
        show DList _ _ none (Function.update r.cptr parent (some proc) q) _
        rw [Function.update_of_ne hqp]
        apply (h.chain q hq (by simp)).congr
        · intro p hp
          exact Function.update_of_ne (ne_of_mem_of_not_mem hp (hkid q hq)) _ _
        · intro p hp
          exact (relink_of_ne (h.cptr_notMem hparent hq hqp hp)).trans
            (Function.update_of_ne (ne_of_mem_of_not_mem hp (hkid q hq)) _ _)
  · simp
  · intro q hlive'
    rcases hlive q hlive' with rfl | hq
    · rw [hprocKids]
      exact List.nodup_nil
    · by_cases hqp : q = parent
      · subst hqp
        rw [hparentKids]
        exact List.nodup_cons.mpr ⟨hkid q hq, h.nodup q hq⟩
      · rw [hkids q hq hqp]
        exact h.nodup q hq
  · intro q hlive' p
    show p ∈ (T.push proc parent i).kids q ↔ p ∈ proc :: T.procs ∧ r.parent p = some q
    rw [List.mem_cons]
    rcases hlive q hlive' with rfl | hq
    · rw [hprocKids]
      constructor
      · simp
      · rintro ⟨rfl | hp, hpar⟩
        · rw [hproc] at hpar
          exact absurd (Option.some.inj hpar) hne
        · obtain ⟨q', hq', hpar'⟩ := h.parent p hp
          rw [hpar] at hpar'
          exact absurd (Option.some.inj hpar' ▸ hq') hnew
    · by_cases hqp : q = parent
      · subst hqp
        rw [hparentKids, List.mem_cons, h.child q hq p]
        constructor
        · rintro (rfl | hp)
          · exact ⟨Or.inl rfl, hproc⟩
          · exact ⟨Or.inr hp.1, hp.2⟩
        · rintro ⟨rfl | hp, hpar⟩
          · exact Or.inl rfl
          · exact Or.inr ⟨hp, hpar⟩
      · rw [hkids q hq hqp, h.child q hq p]
        constructor
        · rintro ⟨hp, hpar⟩
          exact ⟨Or.inr hp, hpar⟩
        · rintro ⟨rfl | hp, hpar⟩
          · rw [hproc] at hpar
            exact absurd (Option.some.inj hpar).symm hqp
          · exact ⟨hp, hpar⟩
  · intro p hp
    rcases List.mem_cons.mp hp with rfl | hp
    · exact ⟨parent, hparent.imp id (List.mem_cons_of_mem _), hproc⟩
    · obtain ⟨q, hq, hpar⟩ := h.parent p hp
      exact ⟨q, hq.imp id (List.mem_cons_of_mem _), hpar⟩
  · obtain ⟨hoptr, hyptr, hnone⟩ := h.alone
    have hfirst : r.cptr parent ≠ some T.idle := by
      rw [(h.follows hparent).head]
      exact fun hhead => h.idle (h.kids_subset hparent (List.mem_of_head? hhead))
    refine ⟨?_, ?_, hnone⟩
    · show Function.update r.optr proc _ T.idle = none
      rw [Function.update_of_ne hidle, hoptr]
    · show relink _ _ _ T.idle = none
      rw [relink_of_ne hfirst, Function.update_of_ne hidle, hyptr]

/-- The neighbours of a child in the chain of its parent are children as well. -/
theorem neighbours (h : Family T none r) (hparent : T.Live parent) (hproc : proc ∈ T.kids parent) :
    (∀ p, r.optr proc = some p → p ∈ T.kids parent) ∧
    ∀ p, r.yptr proc = some p → p ∈ T.kids parent := by
  obtain ⟨xs, ys, hsplit⟩ := List.append_of_mem hproc
  have hchain := h.chain parent hparent (by simp)
  rw [hsplit] at hchain ⊢
  obtain ⟨hyptr, hoptr⟩ := hchain.neighbours
  rw [hyptr, hoptr]
  constructor
  · intro p hp
    exact List.mem_append_right _ (List.mem_cons_of_mem _ (List.mem_of_head? hp))
  · intro p hp
    rw [Option.or_none] at hp
    exact List.mem_append_left _ (List.mem_of_getLast? hp)

/-- The pointers that `remove_links` writes. -/
theorem remove (h : Family T none r) (hnodup : T.procs.Nodup) (hproc : proc ∈ T.procs)
    (hparent : T.Live parent) (hpar : r.parent proc = some parent) (hempty : T.kids proc = [])
    (i : Fin HASH_LIST_SIZE) :
    Family (T.remove proc parent i) none { r with
      cptr := if r.yptr proc = none then Function.update r.cptr parent (r.optr proc) else r.cptr
      yptr := relink r.yptr (r.optr proc) (r.yptr proc)
      optr := relink r.optr (r.yptr proc) (r.optr proc) } := by
  have hkid : proc ∈ T.kids parent := (h.child parent hparent proc).mpr ⟨hproc, hpar⟩
  obtain ⟨holder, hyounger⟩ := h.neighbours hparent hkid
  have herase : ∀ p, p ∈ T.procs.erase proc ↔ p ≠ proc ∧ p ∈ T.procs :=
    fun _ => hnodup.mem_erase_iff
  have hkids : ∀ q, q ≠ parent → (T.remove proc parent i).kids q = T.kids q :=
    fun q hq => Function.update_of_ne hq _ _
  have hparentKids : (T.remove proc parent i).kids parent = (T.kids parent).erase proc :=
    Function.update_self ..
  have hlive : ∀ q, (T.remove proc parent i).Live q → T.Live q ∧ q ≠ proc := by
    intro q hq
    rcases hq with hq | hq
    · exact ⟨Or.inl hq, fun heq => h.idle (hq ▸ heq ▸ hproc)⟩
    · obtain ⟨hne, hq⟩ := (herase q).mp hq
      exact ⟨Or.inr hq, hne⟩
  constructor
  · exact fun hmem => h.idle (List.mem_of_mem_erase hmem)
  · -- the brothers of the process are joined past it
    intro q hlive' _
    obtain ⟨hq, _⟩ := hlive q hlive'
    have hold := h.chain q hq (by simp)
    by_cases hqp : q = parent
    · subst hqp
      obtain ⟨xs, ys, hsplit⟩ := List.append_of_mem hkid
      have hkidsNodup := h.nodup q hq
      rw [hsplit] at hold hkidsNodup
      have hxs : proc ∉ xs := by
        rw [List.nodup_append] at hkidsNodup
        exact fun hmem => hkidsNodup.2.2 _ hmem _ List.mem_cons_self rfl
      have hremove := hold.remove hkidsNodup (by simp)
      have hfirst : r.yptr proc = none ↔ xs = [] := by
        rw [hold.neighbours.1, Option.or_none, List.getLast?_eq_none_iff]
      rw [hparentKids, hsplit, erase_middle hxs]
      convert hremove using 1
      show (if r.yptr proc = none then Function.update r.cptr q (r.optr proc) else r.cptr) q = _
      by_cases hx : xs = []
      · rw [if_pos (hfirst.mpr hx), if_pos hx, Function.update_self]
      · rw [if_neg fun hy => hx (hfirst.mp hy), if_neg hx]
    · rw [hkids q hqp]
      have hcptr : (if r.yptr proc = none then Function.update r.cptr parent (r.optr proc)
          else r.cptr) q = r.cptr q := by
        split
        · exact Function.update_of_ne hqp _ _
        · rfl
      show DList _ _ none ((if r.yptr proc = none then Function.update r.cptr parent (r.optr proc)
          else r.cptr) q) _
      rw [hcptr]
      apply hold.congr
      · exact fun p hp => relink_of_ne fun hy => hqp (h.kids_disjoint hq hparent hp (hyounger p hy))
      · exact fun p hp => relink_of_ne fun ho => hqp (h.kids_disjoint hq hparent hp (holder p ho))
  · simp
  · intro q hlive'
    obtain ⟨hq, _⟩ := hlive q hlive'
    by_cases hqp : q = parent
    · subst hqp
      rw [hparentKids]
      exact (h.nodup q hq).erase proc
    · rw [hkids q hqp]
      exact h.nodup q hq
  · intro q hlive' p
    obtain ⟨hq, _⟩ := hlive q hlive'
    show p ∈ (T.remove proc parent i).kids q ↔ p ∈ T.procs.erase proc ∧ r.parent p = some q
    rw [herase p]
    by_cases hqp : q = parent
    · subst hqp
      rw [hparentKids, (h.nodup q hq).mem_erase_iff, h.child q hq p, and_assoc]
    · rw [hkids q hqp, h.child q hq p]
      constructor
      · rintro ⟨hp, hpq⟩
        refine ⟨⟨?_, hp⟩, hpq⟩
        rintro rfl
        rw [hpar] at hpq
        exact hqp (Option.some.inj hpq).symm
      · rintro ⟨⟨_, hp⟩, hpq⟩
        exact ⟨hp, hpq⟩
  · intro p hmem
    obtain ⟨_, hp⟩ := (herase p).mp hmem
    obtain ⟨q, hq, hpq⟩ := h.parent p hp
    refine ⟨q, ?_, hpq⟩
    rcases hq with hq | hq
    · exact Or.inl hq
    · right
      refine (herase q).mpr ⟨?_, hq⟩
      rintro rfl
      have hmem := (h.child q (Or.inr hq) p).mpr ⟨hp, hpq⟩
      rw [hempty] at hmem
      cases hmem
  · obtain ⟨hoptr, hyptr, hnone⟩ := h.alone
    have hout : T.idle ∉ T.kids parent := fun hmem => h.idle (h.kids_subset hparent hmem)
    exact ⟨(relink_of_ne fun hy => hout (hyounger _ hy)).trans hoptr,
      (relink_of_ne fun ho => hout (holder _ ho)).trans hyptr, hnone⟩

/-- The pointers that one round of the loop in `do_exit` writes. -/
theorem adopt (h : Family T (some cur) r) (hcur : T.Live cur) (hinit : T.Live init)
    (hne : init ≠ cur) (hfirst : r.cptr cur = some proc) :
    Family (T.adopt cur proc init) (some cur) { r with
      parent := Function.update r.parent proc (some init)
      cptr := Function.update (Function.update r.cptr cur (r.optr proc)) init (some proc)
      yptr := relink (Function.update r.yptr proc none) (r.cptr init) (some proc)
      optr := Function.update r.optr proc (r.cptr init) } := by
  obtain ⟨rest, hkids⟩ : ∃ rest, T.kids cur = proc :: rest := by
    have hwalk := h.walk cur rfl
    rw [hfirst] at hwalk
    cases hk : T.kids cur with
    | nil =>
        rw [hk] at hwalk
        cases hwalk
    | cons p rest =>
        rw [hk] at hwalk
        obtain rfl := Option.some.inj hwalk.1
        exact ⟨rest, rfl⟩
  -- `proc` is the youngest child of `cur`; it becomes the youngest of `init`
  have hkid : proc ∈ T.kids cur := hkids ▸ List.mem_cons_self
  have hwalk := h.walk cur rfl
  have hnodup := h.nodup cur hcur
  rw [hkids] at hwalk hnodup
  have hproc := ((h.child cur hcur proc).mp hkid).1
  have hout : ∀ q, T.Live q → q ≠ cur → proc ∉ T.kids q :=
    fun q hq hqc hp => hqc (h.kids_disjoint hq hcur hp hkid)
  have hother : ∀ q, q ≠ init → q ≠ cur → (T.adopt cur proc init).kids q = T.kids q := by
    intro q hqi hqc
    simp [Tree.adopt, hqi, hqc]
  have hcurKids : (T.adopt cur proc init).kids cur = rest := by
    simp [Tree.adopt, Ne.symm hne, hkids]
  have hinitKids : (T.adopt cur proc init).kids init = proc :: T.kids init := by
    simp [Tree.adopt]
  have hloose : ∀ q, q ≠ cur → some cur ≠ some q := fun q hqc heq => hqc (Option.some.inj heq).symm
  constructor
  · exact h.idle
  · -- the lists of children but that of `cur`: that of `init` grows at its head
    intro q hq hqc
    have hqc : q ≠ cur := fun heq => hqc (congrArg some heq.symm)
    have hold := h.chain q hq (hloose q hqc)
    by_cases hqi : q = init
    · subst hqi
      rw [hinitKids]
      show DList _ _ none (Function.update (Function.update r.cptr cur _) q (some proc) q) _
      rw [Function.update_self]
      exact hold.push (List.nodup_cons.mpr ⟨hout q hq hqc, h.nodup q hq⟩)
    · rw [hother q hqi hqc]
      show DList _ _ none (Function.update (Function.update r.cptr cur _) init (some proc) q) _
      rw [Function.update_of_ne hqi, Function.update_of_ne hqc]
      apply hold.congr
      · intro p hp
        exact Function.update_of_ne (ne_of_mem_of_not_mem hp (hout q hq hqc)) _ _
      · intro p hp
        exact (relink_of_ne (h.cptr_notMem hinit hq hqi hp)).trans
          (Function.update_of_ne (ne_of_mem_of_not_mem hp (hout q hq hqc)) _ _)
  · -- the list of `cur` is only followed: its first entry still points back to `proc`
    intro q hq
    obtain rfl := Option.some.inj hq
    rw [hcurKids]
    show Follows _ (Function.update (Function.update r.cptr cur _) init (some proc) cur) _
    rw [Function.update_of_ne (Ne.symm hne), Function.update_self]
    apply hwalk.2.congr
    intro p hp
    exact Function.update_of_ne (ne_of_mem_of_not_mem hp (List.nodup_cons.mp hnodup).1) _ _
  · intro q hq
    by_cases hqi : q = init
    · subst hqi
      rw [hinitKids]
      exact List.nodup_cons.mpr ⟨hout q hq hne, h.nodup q hq⟩
    · by_cases hqc : q = cur
      · subst hqc
        rw [hcurKids]
        exact (List.nodup_cons.mp hnodup).2
      · rw [hother q hqi hqc]
        exact h.nodup q hq
  · intro q hq p
    show p ∈ (T.adopt cur proc init).kids q ↔
      p ∈ T.procs ∧ Function.update r.parent proc (some init) p = some q
    by_cases hp : p = proc
    · subst hp
      rw [Function.update_self, Option.some.injEq]
      by_cases hqi : q = init
      · subst hqi
        simp [hinitKids, hproc]
      · by_cases hqc : q = cur
        · subst hqc
          have hrest := (List.nodup_cons.mp hnodup).1
          simp [hcurKids, hrest, hne]
        · have hmem := hout q hq hqc
          simp [hother q hqi hqc, hmem, Ne.symm hqi]
    · rw [Function.update_of_ne hp, ← h.child q hq p]
      by_cases hqi : q = init
      · subst hqi
        simp [hinitKids, hp]
      · by_cases hqc : q = cur
        · subst hqc
          simp [hcurKids, hkids, hp]
        · rw [hother q hqi hqc]
  · intro p hp
    by_cases hpp : p = proc
    · subst hpp
      exact ⟨init, hinit, Function.update_self ..⟩
    · obtain ⟨q, hq, hpar⟩ := h.parent p hp
      exact ⟨q, hq, (Function.update_of_ne hpp _ _).trans hpar⟩
  · obtain ⟨hoptr, hyptr, hnone⟩ := h.alone
    have hidle : T.idle ≠ proc := fun heq => h.idle (heq ▸ hproc)
    have hhead : r.cptr init ≠ some T.idle := by
      rw [(h.follows hinit).head]
      exact fun hhead => h.idle (h.kids_subset hinit (List.mem_of_head? hhead))
    refine ⟨(Function.update_of_ne hidle _ _).trans hoptr, ?_,
      (Function.update_of_ne hidle _ _).trans hnone⟩
    show relink _ _ _ T.idle = none
    rw [relink_of_ne hhead, Function.update_of_ne hidle, hyptr]

end Family

end Ucore.Process
