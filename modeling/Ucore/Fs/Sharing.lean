import Ucore.Foundation.Runs
import Ucore.Fs.FileSpec

/-!
# Threads that share a table of open files

The table stays in order over every run of the threads that share it, in whatever
order their calls sleep and go on.
-/

namespace Ucore.Fs

open Machine

/-! ## New tables -/

section Dup

variable {T : Files} {s : Slot} {source : Files}

/-- A free slot becomes a duplicate of an open one. -/
theorem dupSlot_spec {file : File} {node : Node} (hfree : Use (T.fdArray s) (T.calls s) 0)
    (hnone : (T.fdArray s).status = .fdNone) (hopened : file.status = .fdOpened)
    (hnode : file.node = some node) :
    Ends never (fdArrayDup s file) (T.setFile s { T.fdArray s with status := .fdInit }) fun _ T' =>
      Files.Only s T T' ∧ Use (T'.fdArray s) (T'.calls s) 0 := by
  obtain ⟨hcount, _, hcalls⟩ := hfree.of_fdNone hnone
  have hinit : ((T.setFile s { T.fdArray s with status := .fdInit }).fdArray s).status =
      .fdInit := by
    rw [Files.setFile_fdArray]
  simp only [fdArrayDup, ends_bind, ends_load, ends_check (And.intro hinit hopened),
    ends_useNode hnode, ends_log, ends_store, Files.setFile_fdArray]
  rw [ends_fdArrayOpen (E := never) (by rw [Files.setFile_fdArray])
    (by rw [Files.setFile_fdArray])]
  constructor
  · apply (Files.only_setFile ?_).trans
      (Files.only_log.trans ((Files.only_setFile ?_).trans (Files.only_setFile ?_)))
    · rfl
    · rw [Files.log_fdArray, Files.setFile_fdArray]
    · rw [Files.setFile_fdArray]
  · rw [Files.setFile_fdArray, Files.setFile_fdArray]
    exact .opened node (T.calls s) 0 rfl rfl (congrArg (· + 1) hcount) rfl Files.log_calls hcalls

theorem dupFilesFrom_spec (hsource : ∀ s, (source.fdArray s).status = .fdOpened →
      ∃ node, (source.fdArray s).node = some node)
    (slots : List Slot) (hnodup : slots.Nodup) (huse : ∀ s, Use (T.fdArray s) (T.calls s) 0)
    (hfd : ∀ s, (T.fdArray s).fd = s.val) (hfree : ∀ s ∈ slots, (T.fdArray s).status = .fdNone) :
    Ends never (dupFilesFrom source slots) T fun _ T' =>
      ∀ s, Use (T'.fdArray s) (T'.calls s) 0 ∧ (T'.fdArray s).fd = s.val := by
  induction slots generalizing T with
  | nil => exact fun s => ⟨huse s, hfd s⟩
  | cons s rest ih =>
      obtain ⟨hs, hrest⟩ := List.nodup_cons.mp hnodup
      simp only [dupFilesFrom]
      split
      next hopened =>
        obtain ⟨node, hnode⟩ := hsource s hopened
        simp only [ends_bind, ends_load, ends_store]
        apply (dupSlot_spec (huse s) (hfree s List.mem_cons_self) hopened hnode).imp
        rintro _ T' ⟨honly, hdup⟩
        apply ih hrest
        · intro r
          by_cases hr : r = s
          · rw [hr]
            exact hdup
          · rw [honly.fdArray r hr, honly.calls r hr]
            exact huse r
        · intro r
          by_cases hr : r = s
          · rw [hr, honly.fd, hfd]
          · rw [honly.fdArray r hr, hfd]
        · intro r hr
          rw [honly.fdArray r (ne_of_mem_of_not_mem hr hs)]
          exact hfree r (List.mem_cons_of_mem s hr)
      next => exact ih hrest huse hfd fun r hr => hfree r (List.mem_cons_of_mem s hr)

/-- A table that nobody has used yet. -/
theorem filesCreate_use (memory : Slot → File) (s : Slot) :
    Use ((filesCreate memory).fdArray s) ((filesCreate memory).calls s) 0 :=
  .free rfl rfl rfl .nil

theorem copyFiles_spec {D : Duties} (h : Uses source D) (memory : Slot → File) :
    Ends never (copyFiles source) (filesCreate memory) fun _ T' => Uses T' fun _ => 0 := by
  have hcounts : (filesCreate memory).filesCount = 0 ∧ source.filesCount > 0 := ⟨rfl, h.count⟩
  simp only [copyFiles, dupFiles, ends_bind, ends_get, ends_check hcounts]
  have hsource : ∀ s, (source.fdArray s).status = .fdOpened →
      ∃ node, (source.fdArray s).node = some node := by
    intro s hopened
    obtain ⟨node, _, _, hnode, _⟩ := (h.use s).of_fdOpened hopened
    exact ⟨node, hnode⟩
  apply (dupFilesFrom_spec hsource _ (List.nodup_finRange _) (filesCreate_use memory)
    (fun _ => rfl) fun _ _ => rfl).imp
  intro _ T' hdup
  simp only [filesCountInc, ends_modify]
  exact ⟨fun s => (hdup s).1, fun s => (hdup s).2, Nat.succ_pos _⟩

end Dup

/-! ## Runs -/

variable {Thread : Type} [Fintype Thread] [DecidableEq Thread] {sys sys' sys₀ : Shared Thread}
  {s : Slot} {t : Thread}

/-- What the threads do with each slot. -/
def Shared.duties (sys : Shared Thread) : Duties := fun s => census (Task.duty s) sys.task

/-- What the threads but `t` do with each slot. -/
def Shared.duties' (sys : Shared Thread) (t : Thread) : Duties :=
  fun s => others (Task.duty s) sys.task t

theorem Task.join_apply (task : Task) (D : Duties) (s : Slot) :
    task.join D s = ((task.duty s).toList : Multiset Duty) + D s := by
  have hjoin : ∀ r d, D.join r d s = ((if r = s then some d else none).toList : Multiset Duty) +
      D s := by
    intro r d
    split
    next heq =>
      rw [heq, Duties.join_same]
      rfl
    next hne =>
      rw [Duties.join_of_ne (Ne.symm hne), Option.toList_none, Multiset.coe_nil, zero_add]
  cases task with
  | done ret stored => exact (zero_add (D s)).symm
  | opening r flags => exact hjoin r _
  | appending r node flags => exact hjoin r _
  | abandoning r ret => exact hjoin r _
  | operating r node op => exact hjoin r _
  | freeing r after => exact hjoin r _

theorem Shared.duties_eq (sys : Shared Thread) (t : Thread) :
    sys.duties = (sys.task t).join (sys.duties' t) := by
  funext s
  rw [Task.join_apply]
  exact census_eq _ _ t

/-- The duties after `t` has moved to `task`. -/
theorem duties_update (files : Files) (task : Task) :
    (⟨files, Function.update sys.task t task⟩ : Shared Thread).duties =
      task.join (sys.duties' t) := by
  funext s
  rw [Task.join_apply]
  exact census_update task

/-- The code of an action keeps the table in order. -/
theorem Action.code_spec (h : Uses sys.files sys.duties) (a : Action Thread)
    (hok : Permitted sys a) :
    Keeps (a.code sys) sys.files (sys.duties' a.thread) := by
  rw [sys.duties_eq a.thread] at h
  cases a with
  | call t c =>
      obtain ⟨ret, stored, hdone⟩ := hok
      have hidle : Uses sys.files (sys.duties' t) := by
        change Uses sys.files ((sys.task t).join (sys.duties' t)) at h
        rw [hdone] at h
        exact h
      exact Call.start_spec hidle c
  | resume t reply => exact Task.resume_spec (sys.task t) h

theorem step_spec (h : Uses sys.files sys.duties) (a : Action Thread) (hok : Permitted sys a) :
    ∃ sys', step sys a = some sys' ∧ Uses sys'.files sys'.duties := by
  obtain ⟨task, T', hcode, huses⟩ := (Action.code_spec h a hok).ok
  refine ⟨⟨T', Function.update sys.task a.thread task⟩, ?_, ?_⟩
  · rw [step, hcode]
  · rw [duties_update]
    exact huses

/-- The tables that processes start with: a new one, or a copy of the one of another
process. -/
inductive Started : Shared Thread → Prop
  | created (memory : Slot → File) :
      Started (Shared.start { filesCreate memory with filesCount := 1 })
  | copied (memory : Slot → File) {sys₀ sys : Shared Thread} {files : Files} (hstart : Started sys₀)
      (hrun : RunsTo step Permitted sys₀ sys)
      (hcopy : exec (copyFiles sys.files) (filesCreate memory) = some files) :
      Started (Shared.start files)

theorem run_spec (h : Uses sys₀.files sys₀.duties) (hrun : RunsTo step Permitted sys₀ sys) :
    Uses sys.files sys.duties := by
  apply hrun.invariant h
  intro sys a sys' huses hok hstep
  obtain ⟨next, hnext, huses'⟩ := step_spec huses a hok
  obtain rfl : next = sys' := Option.some.inj (hnext.symm.trans hstep)
  exact huses'

omit [DecidableEq Thread] in
theorem start_duties (files : Files) :
    (Shared.start files : Shared Thread).duties = fun _ => 0 := by
  funext s
  apply Multiset.eq_zero_of_forall_notMem
  intro d hd
  obtain ⟨t, ht⟩ := mem_census.mp hd
  cases ht

theorem Started.uses (h : Started sys₀) : Uses sys₀.files sys₀.duties := by
  induction h with
  | created memory =>
      rw [start_duties]
      exact ⟨filesCreate_use memory, fun _ => rfl, Nat.one_pos⟩
  | copied memory hstart hrun hcopy ih =>
      rw [start_duties]
      obtain ⟨_, huses⟩ := (copyFiles_spec (run_spec ih hrun) memory).of_exec hcopy
      exact huses

/-! ## The protocol of a slot -/

/-- The thread is in an operation on the slot, from `fd_array_acquire` to
`fd_array_release`. -/
def Task.InFlight (s : Slot) (task : Task) : Prop := ∃ node op, task = .operating s node op

/-- The thread is in the `vfs_close` of `fd_array_free` for the slot. -/
def Task.Freeing (s : Slot) (task : Task) : Prop := ∃ after, task = .freeing s after

instance (s : Slot) (task : Task) : Decidable (task.InFlight s) :=
  match task with
  | .operating r node op =>
      if h : r = s then isTrue ⟨node, op, by rw [h]⟩
      else isFalse fun ⟨_, _, heq⟩ => h (Task.operating.inj heq).1
  | .done .. | .opening .. | .appending .. | .abandoning .. | .freeing .. => isFalse nofun

/-- The number of operations in flight on a slot. -/
def Shared.inFlight (sys : Shared Thread) (s : Slot) : Nat :=
  (Finset.univ.filter fun t => (sys.task t).InFlight s).card

/-- The state of a slot between two steps. `open_count` is one for the opening and one for each
thread at work on the file, and `vfs_close` answers each opening once. -/
structure Protocol (sys : Shared Thread) (s : Slot) : Prop where
  unused : (sys.files.fdArray s).status = .fdNone ∨ (sys.files.fdArray s).status = .fdInit →
    (sys.files.fdArray s).openCount = 0 ∧ sys.inFlight s = 0
  opened : (sys.files.fdArray s).status = .fdOpened →
    (sys.files.fdArray s).openCount = 1 + sys.inFlight s
  closed : (sys.files.fdArray s).status = .fdClosed →
    (sys.files.fdArray s).openCount = sys.inFlight s ∧
      (0 < sys.inFlight s ∨ ∃! t, (sys.task t).Freeing s)
  /-- An operation works on the inode that the slot had when it began. -/
  kept : ∀ t node op, sys.task t = .operating s node op →
    (sys.files.fdArray s).node = some node ∧
      ((sys.files.fdArray s).status = .fdOpened ∨ (sys.files.fdArray s).status = .fdClosed)
  /-- `vfs_close` has been called for each earlier opening, and not for this one. -/
  pending : (sys.files.fdArray s).status = .fdOpened ∨ 0 < sys.inFlight s →
    ∃ node past, (sys.files.fdArray s).node = some node ∧
      sys.files.calls s = .opened node :: past ∧ Paired past
  /-- `vfs_close` has been called for each opening. -/
  settled : (sys.files.fdArray s).status = .fdNone ∨
      (sys.files.fdArray s).status = .fdClosed ∧ sys.inFlight s = 0 →
    Paired (sys.files.calls s)
  /-- The file that a slot is claimed for may have been opened. -/
  claimed : (sys.files.fdArray s).status = .fdInit →
    Paired (sys.files.calls s) ∨
      ∃ node past, sys.files.calls s = .opened node :: past ∧ Paired past

def Duty.InFlight : Duty → Prop
  | .operating _ => True
  | _ => False

instance : DecidablePred Duty.InFlight
  | .operating _ => isTrue trivial
  | .claiming | .holding _ | .freeing => isFalse id

theorem Task.inFlight_iff (task : Task) :
    task.InFlight s ↔ ∃ d, task.duty s = some d ∧ d.InFlight := by
  constructor
  · rintro ⟨node, op, rfl⟩
    exact ⟨.operating node, if_pos rfl, trivial⟩
  · rintro ⟨d, hd, hin⟩
    cases d with
    | operating node =>
        cases task with
        | operating r node' op =>
            obtain ⟨rfl, _⟩ := Option.ite_some_none_eq_some.mp hd
            exact ⟨node', op, rfl⟩
        | done ret stored => cases hd
        | opening r flags => exact nomatch (Option.ite_some_none_eq_some.mp hd).2
        | appending r m flags => exact nomatch (Option.ite_some_none_eq_some.mp hd).2
        | abandoning r ret => exact nomatch (Option.ite_some_none_eq_some.mp hd).2
        | freeing r after => exact nomatch (Option.ite_some_none_eq_some.mp hd).2
    | claiming => exact hin.elim
    | holding node => exact hin.elim
    | freeing => exact hin.elim

theorem Task.freeing_iff (task : Task) : task.Freeing s ↔ task.duty s = some .freeing := by
  constructor
  · rintro ⟨after, rfl⟩
    exact if_pos rfl
  · intro hd
    cases task with
    | freeing r after =>
        obtain ⟨rfl, _⟩ := Option.ite_some_none_eq_some.mp hd
        exact ⟨after, rfl⟩
    | done ret stored => cases hd
    | opening r flags => exact nomatch (Option.ite_some_none_eq_some.mp hd).2
    | appending r m flags => exact nomatch (Option.ite_some_none_eq_some.mp hd).2
    | abandoning r ret => exact nomatch (Option.ite_some_none_eq_some.mp hd).2
    | operating r m op => exact nomatch (Option.ite_some_none_eq_some.mp hd).2

omit [DecidableEq Thread] in
theorem Shared.inFlight_eq (sys : Shared Thread) (s : Slot) :
    sys.inFlight s = (sys.duties s).countP Duty.InFlight :=
  card_filter_census _ _ fun task => task.inFlight_iff

theorem countP_operating (k : Nat) (node : Node) :
    (Multiset.replicate k (Duty.operating node)).countP Duty.InFlight = k := by
  induction k with
  | zero => rfl
  | succ k ih => rw [Multiset.replicate_succ, Multiset.countP_cons_of_pos _ trivial, ih]

omit [DecidableEq Thread] in
/-- An operation that a thread is in is one of the duties at its slot. -/
theorem Shared.operating_mem {node : Node} {op : Op} (htask : sys.task t = .operating s node op) :
    .operating node ∈ sys.duties s := by
  apply mem_census.mpr
  refine ⟨t, ?_⟩
  rw [htask]
  exact if_pos rfl

omit [DecidableEq Thread] in
/-- What a slot is in use for gives its protocol. -/
theorem Uses.protocol (h : Uses sys.files sys.duties) (s : Slot) : Protocol sys s := by
  have hcount := sys.inFlight_eq s
  have hkept : ∀ t node op, sys.task t = .operating s node op →
      (sys.files.fdArray s).node = some node ∧
        ((sys.files.fdArray s).status = .fdOpened ∨ (sys.files.fdArray s).status = .fdClosed) := by
    intro t node op htask
    have huse := h.use s
    rw [← Multiset.cons_erase (Shared.operating_mem htask)] at huse
    obtain ⟨hnode, _, _, _, _, _, hstatus⟩ := huse.of_operating
    exact ⟨hnode, hstatus.imp And.left And.left⟩
  cases h.use s with
  | free hstatus hopen hduties hcalls =>
      have hzero : sys.inFlight s = 0 := by rw [hcount, hduties]; rfl
      exact ⟨fun _ => ⟨hopen, hzero⟩, by simp [hstatus], by simp [hstatus], hkept,
        by simp [hstatus, hzero], fun _ => hcalls, by simp [hstatus]⟩
  | claimed hstatus hopen hduties hcalls =>
      have hzero : sys.inFlight s = 0 := by rw [hcount, hduties]; rfl
      exact ⟨fun _ => ⟨hopen, hzero⟩, by simp [hstatus], by simp [hstatus], hkept,
        by simp [hstatus, hzero], fun _ => hcalls, fun _ => Or.inl hcalls⟩
  | held node past hstatus hopen hduties hcalls hpast =>
      have hzero : sys.inFlight s = 0 := by rw [hcount, hduties]; rfl
      exact ⟨fun _ => ⟨hopen, hzero⟩, by simp [hstatus], by simp [hstatus], hkept,
        by simp [hstatus, hzero], by simp [hstatus], fun _ => Or.inr ⟨node, past, hcalls, hpast⟩⟩
  | opened node past k hstatus hnode hopen hduties hcalls hpast =>
      have hk : sys.inFlight s = k := by rw [hcount, hduties, countP_operating]
      exact ⟨by simp [hstatus], fun _ => by rw [hopen, hk, Nat.add_comm], by simp [hstatus], hkept,
        fun _ => ⟨node, past, hnode, hcalls, hpast⟩, by simp [hstatus], by simp [hstatus]⟩
  | closing node past k hstatus hnode hopen hduties hcalls hpast =>
      have hk : sys.inFlight s = k + 1 := by rw [hcount, hduties, countP_operating]
      exact ⟨by simp [hstatus], by simp [hstatus],
        fun _ => ⟨by rw [hopen, hk], Or.inl (hk ▸ Nat.succ_pos k)⟩, hkept,
        fun _ => ⟨node, past, hnode, hcalls, hpast⟩, by simp [hstatus, hk], by simp [hstatus]⟩
  | freeing hstatus hopen hduties hcalls =>
      have hzero : sys.inFlight s = 0 := by rw [hcount, hduties]; rfl
      refine ⟨by simp [hstatus], by simp [hstatus], fun _ => ⟨by rw [hopen, hzero], Or.inr ?_⟩,
        hkept, by simp [hstatus, hzero], fun _ => hcalls, by simp [hstatus]⟩
      simpa only [Task.freeing_iff] using existsUnique_of_census_eq hduties

/-- The file descriptors of threads that share them: every slot counts the operations in
flight on it, keeps its inode for them, and gives each inode that was opened for it back
once, after it was closed and the last operation ended. No assertion fails. A closed slot
without operations is in the `vfs_close` of the thread that frees it. -/
theorem fileDescriptors_protocol (hstart : Started sys₀) (hrun : RunsTo step Permitted sys₀ sys) :
    (∀ s, Protocol sys s) ∧ ∀ a, Permitted sys a → ∃ sys', step sys a = some sys' := by
  have huses := run_spec hstart.uses hrun
  constructor
  · exact huses.protocol
  · intro a hok
    obtain ⟨sys', hstep, _⟩ := step_spec huses a hok
    exact ⟨sys', hstep⟩

instance (sys : Shared Thread) : DecidablePred (Permitted sys)
  | .call t _ =>
      match h : sys.task t with
      | .done ret stored => isTrue ⟨ret, stored, h⟩
      | .opening .. | .appending .. | .abandoning .. | .operating .. | .freeing .. =>
          isFalse fun ⟨_, _, heq⟩ => by rw [h] at heq; cases heq
  | .resume t _ =>
      match h : sys.task t with
      | .done ret stored => isFalse fun hne => hne ret stored h
      | .opening .. | .appending .. | .abandoning .. | .operating .. | .freeing .. =>
          isTrue fun _ _ heq => by rw [h] at heq; cases heq

/-- A new table, for two threads. -/
def newTable : Shared Bool :=
  Shared.start
    { filesCreate (fun _ => ⟨.fdNone, false, false, 0, 0, none, 0⟩) with filesCount := 1 }

/-- A thread closes a file that another one is reading. -/
def closeWhileReading : List (Action Bool) :=
  [.call true (.fileOpen O_RDONLY), .resume true ⟨0, 7, 0⟩, .call false (.fileRead 0),
    .call true (.fileClose 0)]

theorem fileDescriptors_protocol_reading : ∃ sys : Shared Bool,
    (sys.files.fdArray ⟨0, by decide⟩).status = .fdClosed ∧ sys.inFlight ⟨0, by decide⟩ = 1 ∧
      Protocol sys ⟨0, by decide⟩ := by
  have hfold : (closeWhileReading.foldlM (fun sys a => if Permitted sys a then step sys a else none)
      newTable).map (fun sys => ((sys.files.fdArray ⟨0, by decide⟩).status,
        sys.inFlight ⟨0, by decide⟩)) = some (.fdClosed, 1) := by
    decide
  obtain ⟨sys, hrun, hvalues⟩ := Option.map_eq_some_iff.mp hfold
  simp only [Prod.mk.injEq] at hvalues
  exact ⟨sys, hvalues.1, hvalues.2,
    (fileDescriptors_protocol (.created _) (RunsTo.of_foldlM hrun)).1 _⟩

/-- A thread closes a file that nobody uses. -/
def closeIdle : List (Action Bool) :=
  [.call true (.fileOpen O_RDONLY), .resume true ⟨0, 7, 0⟩, .call true (.fileClose 0)]

/-- During `vfs_close` the slot is closed, and its count is zero. -/
theorem closed_count_zero : ¬ ∀ sys₀ sys : Shared Bool, Started sys₀ →
    RunsTo step Permitted sys₀ sys → ∀ s, (sys.files.fdArray s).status = .fdClosed →
      0 < (sys.files.fdArray s).openCount := by
  intro hclaim
  have hfold : (closeIdle.foldlM (fun sys a => if Permitted sys a then step sys a else none)
      newTable).map (fun sys => ((sys.files.fdArray ⟨0, by decide⟩).status,
        (sys.files.fdArray ⟨0, by decide⟩).openCount)) = some (.fdClosed, 0) := by
    decide
  obtain ⟨sys, hrun, hvalues⟩ := Option.map_eq_some_iff.mp hfold
  simp only [Prod.mk.injEq] at hvalues
  have hpos := hclaim newTable sys (.created _) (RunsTo.of_foldlM hrun) _ hvalues.1
  rw [hvalues.2] at hpos
  exact Nat.lt_irrefl 0 hpos

end Ucore.Fs
