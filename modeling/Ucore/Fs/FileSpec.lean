import Ucore.Fs.Slots

/-!
# What the functions of `file.c` do

One specification for each function. No assertion fails where the slots are in use
for the duties there are.
-/

namespace Ucore.Fs

open Machine

variable {T : Files} {D : Duties} {s : Slot} {node : Node} {past : List NodeCall}
  {k : Nat} {fd : Int}
  {openFlags : BitVec 32} {E : Failed → Prop}

/-! ## Slots -/

theorem ends_getFdArray (h : Uses T D) {Q : PUnit → Files → Prop} :
    Ends E getFdArray T Q ↔ Q ⟨⟩ T := by
  simp only [getFdArray, ends_bind, ends_get, ends_check h.count]

theorem fdArrayFound_spec (h : Uses T D) (hstatus : (T.fdArray s).status = .fdNone) :
    Ends never (fdArrayFound s) T fun _ T' => Files.Only s T T' ∧ Uses T' (D.join s .claiming) := by
  obtain ⟨hcount, hduties, hcalls⟩ := (h.use s).of_fdNone hstatus
  simp only [fdArrayFound, ends_bind, ends_load, ends_check hcount, ends_store]
  have honly : Files.Only s T (T.setFile s { T.fdArray s with status := .fdInit, node := none }) :=
    Files.only_setFile rfl
  refine ⟨honly, h.enter honly ?_⟩
  rw [Files.setFile_fdArray, hduties]
  exact .claimed rfl hcount rfl hcalls

/-- A slot that is allocated was free. -/
def Allocated (D : Duties) (T : Files) : Except Int Slot → Files → Prop
  | .error _, T' => T' = T
  | .ok s, T' => (T.fdArray s).status = .fdNone ∧ Files.Only s T T' ∧ Uses T' (D.join s .claiming)

theorem fdArrayAlloc_spec (h : Uses T D) : Ends never (fdArrayAlloc fd) T (Allocated D T) := by
  simp only [fdArrayAlloc, ends_bind, ends_getFdArray h, ends_get]
  split
  · split
    next s hfind =>
      have hstatus := List.find?_some hfind
      simp only [decide_eq_true_eq] at hstatus
      simp only [ends_bind, ends_pure]
      exact (fdArrayFound_spec h hstatus).imp fun _ _ hfound => ⟨hstatus, hfound⟩
    next => exact rfl
  · split
    next htest =>
      split
      next hstatus =>
        simp only [ends_bind, ends_pure]
        exact (fdArrayFound_spec h hstatus).imp fun _ _ hfound => ⟨hstatus, hfound⟩
      next => exact rfl
    next => exact rfl

/-- A slot that was claimed becomes free. -/
theorem fdArrayFree_claimed (h : Uses T (D.join s .claiming)) :
    Ends never (fdArrayFree s) T fun inClose T' => inClose = false ∧ Uses T' D := by
  obtain ⟨hstatus, hcount, hduties, hcalls⟩ := h.at_join.of_claiming
  have hclosed : (T.fdArray s).status ≠ .fdClosed := by simp [hstatus]
  simp only [fdArrayFree, ends_bind, ends_load, ends_check (Or.inl hstatus), ends_check hcount,
    if_neg hclosed, ends_store, ends_pure, true_and]
  apply h.leave (Files.only_setFile ?_)
  · rw [Files.setFile_fdArray, hduties]
    exact .free rfl hcount rfl hcalls
  · rfl

/-- A closed slot that nothing uses any more gives its inode back. -/
theorem ends_fdArrayFree (hstatus : (T.fdArray s).status = .fdClosed)
    (hcount : (T.fdArray s).openCount = 0) (hnode : (T.fdArray s).node = some node)
    {Q : Bool → Files → Prop} :
    Ends E (fdArrayFree s) T Q ↔ Q true (T.log s (.vfsClose node)) := by
  simp only [fdArrayFree, ends_bind, ends_load, ends_check (Or.inr hstatus), ends_check hcount,
    if_pos hstatus, ends_useNode hnode, ends_log, ends_pure]

theorem fdArrayFreed_spec (h : Uses T (D.join s .freeing)) :
    Ends never (fdArrayFreed s) T fun _ T' => Uses T' D := by
  obtain ⟨hduties, hcount, hcalls⟩ := h.at_join.of_freeing
  simp only [fdArrayFreed, ends_bind, ends_load, ends_store]
  apply h.leave (Files.only_setFile ?_)
  · rw [Files.setFile_fdArray, hduties]
    exact .free rfl hcount rfl hcalls
  · rfl

/-- A slot loses a duty, and may have to be freed. -/
def Duties.freeing (D : Duties) (s : Slot) (inClose : Bool) : Duties :=
  if inClose then D.join s .freeing else D

/-- The end of `fd_array_release` and of `fd_array_close`, with the slot in the state
`file` and `k` operations in flight. -/
theorem drop_spec {D₀ : Duties} {file : File} (h : Uses T D₀) (hD : ∀ r, r ≠ s → D r = D₀ r)
    (hfd : file.fd = (T.fdArray s).fd) (hnode : file.node = some node)
    (hcount : file.openCount = k) (hstatus : file.status = .fdClosed)
    (hduties : D s = Multiset.replicate k (.operating node))
    (hcalls : T.calls s = .opened node :: past) (hpast : Paired past) :
    Ends never (if k = 0 then fdArrayFree s else pure false) (T.setFile s file) fun inClose T' =>
      Uses T' (D.freeing s inClose) := by
  have honly : Files.Only s T (T.setFile s file) := Files.only_setFile hfd
  split
  next hzero =>
    rw [ends_fdArrayFree (E := never) ?_ ?_ ?_]
    · apply h.change (honly.trans Files.only_log)
      · intro r hr
        rw [← hD r hr]
        exact Duties.join_of_ne hr
      · have hjoin : D.freeing s true s = .freeing ::ₘ D s := Duties.join_same
        rw [Files.log_fdArray, Files.setFile_fdArray, Files.log_calls, Files.setFile_calls, hcalls,
          hjoin, hduties, hzero]
        exact .freeing hstatus (hcount.trans hzero) rfl (.closed node hpast)
    · rw [Files.setFile_fdArray, hstatus]
    · rw [Files.setFile_fdArray, hcount, hzero]
    · rw [Files.setFile_fdArray, hnode]
  next hpos =>
    obtain ⟨j, rfl⟩ := Nat.exists_eq_succ_of_ne_zero hpos
    apply h.change honly hD
    rw [Files.setFile_fdArray]
    exact .closing node past j hstatus hnode hcount hduties hcalls hpast

theorem fdArrayAcquire_spec (h : Uses T D) (hstatus : (T.fdArray s).status = .fdOpened) :
    ∃ node, (T.fdArray s).node = some node ∧
      Ends never (fdArrayAcquire s) T fun _ T' => Uses T' (D.join s (.operating node)) ∧
        (T'.fdArray s).node = some node ∧ (T'.fdArray s).pos = (T.fdArray s).pos := by
  obtain ⟨node, past, k, hnode, hcount, hduties, hcalls, hpast⟩ := (h.use s).of_fdOpened hstatus
  refine ⟨node, hnode, ?_⟩
  simp only [fdArrayAcquire, ends_bind, ends_load, ends_check hstatus, ends_store,
    Files.setFile_fdArray, and_true]
  refine ⟨?_, hnode⟩
  apply h.enter (Files.only_setFile ?_)
  · rw [Files.setFile_fdArray, hduties, ← Multiset.replicate_succ]
    exact .opened node past (k + 1) hstatus hnode (congrArg (· + 1) hcount) rfl hcalls hpast
  · rfl

theorem fdArrayRelease_spec (h : Uses T (D.join s (.operating node))) :
    Ends never (fdArrayRelease s) T fun inClose T' => Uses T' (D.freeing s inClose) := by
  obtain ⟨hnode, past, k, hduties, hcalls, hpast, hstatus⟩ := h.at_join.of_operating
  have hD : ∀ r, r ≠ s → D r = D.join s (.operating node) r :=
    fun r hr => (Duties.join_of_ne hr).symm
  rcases hstatus with ⟨hopened, hcount⟩ | ⟨hclosed, hcount⟩
  · -- the table still refers to the file
    have hpos : (T.fdArray s).openCount > 0 := by omega
    have hmore : (T.fdArray s).openCount - 1 ≠ 0 := by omega
    have hdrop : (T.fdArray s).openCount - 1 = k + 1 := by omega
    simp only [fdArrayRelease, ends_bind, ends_load, ends_check (Or.inl hopened), ends_check hpos,
      ends_store, if_neg hmore, ends_pure]
    apply h.change (Files.only_setFile ?_) hD
    · rw [Files.setFile_fdArray]
      exact .opened node past k hopened hnode hdrop hduties hcalls hpast
    · rfl
  · have hpos : (T.fdArray s).openCount > 0 := by omega
    have hdrop : (T.fdArray s).openCount - 1 = k := by omega
    simp only [fdArrayRelease, ends_bind, ends_load, ends_check (Or.inr hclosed), ends_check hpos,
      ends_store, hdrop]
    exact drop_spec h hD rfl hnode rfl hclosed hduties hcalls hpast

theorem fdArrayClose_spec (h : Uses T D) (hstatus : (T.fdArray s).status = .fdOpened) :
    Ends never (fdArrayClose s) T fun inClose T' => Uses T' (D.freeing s inClose) := by
  obtain ⟨node, past, k, hnode, hcount, hduties, hcalls, hpast⟩ := (h.use s).of_fdOpened hstatus
  have hpos : (T.fdArray s).openCount > 0 := by omega
  have hdrop : (T.fdArray s).openCount - 1 = k := by omega
  simp only [fdArrayClose, ends_bind, ends_load, ends_check hstatus, ends_check hpos, ends_store,
    hdrop]
  exact drop_spec h (fun _ _ => rfl) rfl hnode rfl rfl hduties hcalls hpast

/-- The slot of an opened inode becomes open. -/
theorem ends_fdArrayOpen (hstatus : (T.fdArray s).status = .fdInit)
    (hnode : (T.fdArray s).node = some node) {Q : PUnit → Files → Prop} :
    Ends E (fdArrayOpen s) T Q ↔ Q ⟨⟩ (T.setFile s
      { T.fdArray s with status := .fdOpened, openCount := (T.fdArray s).openCount + 1 }) := by
  have hset : (T.fdArray s).node ≠ none := by simp [hnode]
  simp only [fdArrayOpen, ends_bind, ends_load, ends_check (And.intro hstatus hset), ends_store]

/-- A slot whose file has been opened is filled in and opened. -/
theorem fdArrayOpen_spec {file : File} (h : Uses T (D.join s (.holding node)))
    (hfd : file.fd = (T.fdArray s).fd) (hstatus : file.status = .fdInit)
    (hcount : file.openCount = 0) (hnode : file.node = some node) :
    Ends never (fdArrayOpen s) (T.setFile s file) fun _ T' => Uses T' D := by
  obtain ⟨_, _, hduties, past, hcalls, hpast⟩ := h.at_join.of_holding
  rw [ends_fdArrayOpen (E := never) (by rw [Files.setFile_fdArray, hstatus])
    (by rw [Files.setFile_fdArray, hnode])]
  apply h.leave ((Files.only_setFile hfd).trans (Files.only_setFile ?_))
  · rw [Files.setFile_fdArray, Files.setFile_fdArray, hduties, Files.setFile_calls]
    exact .opened node past 0 rfl hnode (congrArg (· + 1) hcount) rfl hcalls hpast
  · rfl

theorem fdArrayDup_spec {source : File} (h : Uses T (D.join s .claiming))
    (hstatus : source.status = .fdOpened) (hnode : source.node = some node) :
    Ends never (fdArrayDup s source) T fun _ T' => Uses T' D := by
  obtain ⟨hinit, hcount, hduties, hcalls⟩ := h.at_join.of_claiming
  simp only [fdArrayDup, ends_bind, ends_load, ends_check (And.intro hinit hstatus),
    ends_useNode hnode, ends_log, ends_store]
  have hheld : Uses (T.log s (.opened node)) (D.join s (.holding node)) := by
    apply h.turn Files.only_log
    rw [Files.log_fdArray, Files.log_calls, hduties]
    exact .held node (T.calls s) hinit hcount rfl rfl hcalls
  exact fdArrayOpen_spec hheld rfl hinit hcount rfl

/-- The descriptor names an open slot, and nothing changes. -/
theorem fd2file_spec (h : Uses T D) :
    Ends never (fd2file fd) T fun r T' =>
      T' = T ∧ ∀ s, r = .ok s → (T.fdArray s).status = .fdOpened := by
  unfold fd2file
  split
  next htest =>
    simp only [ends_bind, ends_getFdArray h, ends_load]
    split
    next hopened =>
      refine ⟨rfl, ?_⟩
      rintro s hs
      cases hs
      exact hopened.1
    next => exact ⟨rfl, nofun⟩
  next => exact ⟨rfl, nofun⟩

/-! ## Calls and their parts -/

/-- Code of a thread that leaves the slots in use for the duties `D` of the others and
for what the thread itself does next. -/
def Keeps (code : FilesM Task) (T : Files) (D : Duties) : Prop :=
  Ends never code T fun task T' => Uses T' (task.join D)

variable {after : After} {inClose : Bool} {reply : Reply} {ret stored : Int} {op : Op}

theorem filesCloseallFrom_spec (slots : List Slot) (h : Uses T D) :
    Keeps (filesCloseallFrom slots) T D := by
  induction slots generalizing T with
  | nil => exact h
  | cons s rest ih =>
      simp only [Keeps, filesCloseallFrom, ends_bind, ends_load]
      split
      next hopened =>
        simp only [ends_bind]
        apply (fdArrayClose_spec h hopened).imp
        intro inClose T' hclose
        cases inClose with
        | true => exact hclose
        | false => exact ih hclose
      next => exact ih h

theorem filesCloseall_spec (h : Uses T D) : Keeps filesCloseall T D := by
  simp only [Keeps, filesCloseall, ends_bind, ends_get, ends_check h.count]
  exact filesCloseallFrom_spec _ h

theorem freed_spec (h : Uses T (D.freeing s inClose)) : Keeps (freed s after inClose) T D := by
  cases inClose with
  | true => exact h
  | false =>
      cases after with
      | done ret stored => exact h
      | closeall rest => exact filesCloseallFrom_spec rest h

theorem fileRelease_spec (h : Uses T (D.join s (.operating node))) :
    Keeps (fileRelease s ret stored) T D := by
  simp only [Keeps, fileRelease, ends_bind]
  exact (fdArrayRelease_spec h).imp fun _ _ hrelease => freed_spec hrelease

theorem fileAcquire_spec (h : Uses T D) (hopened : (T.fdArray s).status = .fdOpened) :
    Keeps (fileAcquire s op) T D := by
  obtain ⟨node, _, hacquire⟩ := fdArrayAcquire_spec h hopened
  simp only [Keeps, fileAcquire, ends_bind]
  apply hacquire.imp
  rintro _ T' ⟨huses, hnode, _⟩
  simp only [ends_load, ends_useNode hnode, ends_pure]
  exact huses

/-- A call on a descriptor fails, or goes on with an open slot. -/
theorem withFile_spec (h : Uses T D) {onFile : Slot → FilesM Task}
    (hfile : ∀ s, (T.fdArray s).status = .fdOpened → Keeps (onFile s) T D) :
    Keeps (do
      match ← fd2file fd with
      | .error ret => return .done ret 0
      | .ok s => onFile s) T D := by
  simp only [Keeps, ends_bind]
  apply (fd2file_spec h).imp
  rintro r T' ⟨hsame, hopened⟩
  subst hsame
  cases r with
  | error ret => exact h
  | ok s => exact hfile s (hopened s rfl)

theorem fileClose_spec (h : Uses T D) : Keeps (fileClose fd) T D := by
  apply withFile_spec h
  intro s hopened
  simp only [Keeps, ends_bind]
  exact (fdArrayClose_spec h hopened).imp fun _ _ hclose => freed_spec hclose

theorem fileRead_spec (h : Uses T D) : Keeps (fileRead fd) T D := by
  apply withFile_spec h
  intro s hopened
  simp only [Keeps, ends_bind, ends_load]
  split
  · exact h
  · exact fileAcquire_spec h hopened

theorem fileWrite_spec (h : Uses T D) : Keeps (fileWrite fd) T D := by
  apply withFile_spec h
  intro s hopened
  simp only [Keeps, ends_bind, ends_load]
  split
  · exact h
  · exact fileAcquire_spec h hopened

theorem fileSeek_spec (h : Uses T D) {pos whence : Int} : Keeps (fileSeek fd pos whence) T D := by
  apply withFile_spec h
  intro s hopened
  obtain ⟨node, _, hacquire⟩ := fdArrayAcquire_spec h hopened
  simp only [Keeps, ends_bind]
  apply hacquire.imp
  rintro _ T' ⟨huses, hnode, _⟩
  simp only [ends_load]
  split
  · simp only [ends_bind, ends_useNode hnode]
    exact huses
  · split
    · simp only [ends_bind, ends_useNode hnode]
      exact huses
    · split
      · simp only [ends_bind, ends_useNode hnode]
        exact huses
      · exact fileRelease_spec huses

theorem fileDup_spec (h : Uses T D) {fd1 fd2 : Int} : Keeps (fileDup fd1 fd2) T D := by
  apply withFile_spec h
  intro s1 hopened
  simp only [Keeps, ends_bind]
  apply (fdArrayAlloc_spec h).imp
  intro r T' halloc
  cases r with
  | error ret =>
      obtain rfl := halloc
      exact h
  | ok s2 =>
      obtain ⟨hnone, honly, huses⟩ := halloc
      -- the slot allocated is not the one to duplicate
      have hne : s1 ≠ s2 := by
        rintro rfl
        rw [hopened] at hnone
        cases hnone
      obtain ⟨node, _, _, hnode, _⟩ := (h.use s1).of_fdOpened hopened
      rw [← honly.fdArray s1 hne] at hopened hnode
      simp only [ends_bind, ends_load]
      exact (fdArrayDup_spec huses hopened hnode).imp fun _ _ hdup => hdup

theorem fileOpen_spec (h : Uses T D) : Keeps (fileOpen openFlags) T D := by
  unfold Keeps fileOpen
  split
  · exact h
  · simp only [ends_bind]
    apply (fdArrayAlloc_spec h).imp
    intro r T' halloc
    cases r with
    | error ret =>
        obtain rfl := halloc
        exact h
    | ok s => exact halloc.2.2

theorem fileOpenEnd_spec (h : Uses T (D.join s (.holding node))) :
    Keeps (fileOpenEnd s node openFlags) T D := by
  obtain ⟨hstatus, hcount, _⟩ := h.at_join.of_holding
  simp only [Keeps, fileOpenEnd, ends_bind, ends_load, ends_store]
  exact fdArrayOpen_spec h rfl hstatus hcount rfl

/-- A slot claimed for nothing is freed. -/
theorem fdArrayFree_freed (h : Uses T (D.join s .claiming)) :
    Ends never (fdArrayFree s) T fun inClose T' => Keeps (freed s after inClose) T' D := by
  apply (fdArrayFree_claimed h).imp
  intro inClose T' ⟨hin, huses⟩
  subst hin
  exact freed_spec huses

theorem fileOpened_spec (h : Uses T (D.join s .claiming)) :
    Keeps (fileOpened s openFlags reply) T D := by
  unfold Keeps fileOpened
  split
  · simp only [ends_bind]
    exact fdArrayFree_freed h
  · obtain ⟨hstatus, hcount, hduties, hcalls⟩ := h.at_join.of_claiming
    have hheld : Uses (T.log s (.opened reply.node)) (D.join s (.holding reply.node)) := by
      apply h.turn Files.only_log
      rw [Files.log_fdArray, Files.log_calls, hduties]
      exact .held reply.node (T.calls s) hstatus hcount rfl rfl hcalls
    have hset := hheld.setPos s 0
    simp only [ends_bind, ends_log, ends_load, ends_store]
    split
    · exact hset
    · exact fileOpenEnd_spec hset

theorem fileAppending_spec (h : Uses T (D.join s (.holding node))) :
    Keeps (fileAppending s node openFlags reply) T D := by
  unfold Keeps fileAppending
  split
  · obtain ⟨hstatus, hcount, hduties, past, hcalls, hpast⟩ := h.at_join.of_holding
    simp only [ends_bind, ends_log, ends_pure]
    apply h.turn Files.only_log
    rw [Files.log_fdArray, Files.log_calls, hduties, hcalls]
    exact .claimed hstatus hcount rfl (.closed node hpast)
  · simp only [ends_bind, ends_load, ends_store]
    have hset := h.setPos s reply.amount
    exact fileOpenEnd_spec hset

theorem fileAbandoned_spec (h : Uses T (D.join s .claiming)) : Keeps (fileAbandoned s ret) T D := by
  simp only [Keeps, fileAbandoned, ends_bind]
  exact fdArrayFree_freed h

theorem fileMoved_spec (h : Uses T (D.join s (.operating node))) :
    Keeps (fileMoved s reply) T D := by
  simp only [Keeps, fileMoved, ends_bind, ends_load]
  split
  · simp only [ends_bind, ends_store]
    have hset := h.setPos s ((T.fdArray s).pos + reply.amount)
    exact fileRelease_spec hset
  · exact fileRelease_spec h

theorem fileOperated_spec (h : Uses T (D.join s (.operating node))) :
    Keeps (fileOperated s op reply) T D := by
  cases op with
  | read => exact fileMoved_spec h
  | write => exact fileMoved_spec h
  | seekEnd pos =>
      simp only [fileOperated, Keeps]
      split
      · have hnode := h.at_join.of_operating.1
        simp only [ends_bind, ends_load, ends_useNode hnode]
        exact h
      · exact fileRelease_spec h
  | seek pos =>
      simp only [fileOperated, Keeps, ends_bind, ends_load]
      split
      · simp only [ends_bind, ends_store]
        have hset := h.setPos s pos
        exact fileRelease_spec hset
      · exact fileRelease_spec h
  | fstat => exact fileRelease_spec h
  | fsync => exact fileRelease_spec h
  | getdirentry => exact fileRelease_spec h

/-- A call, up to where it sleeps or returns. -/
theorem Call.start_spec (h : Uses T D) (c : Call) : Keeps c.start T D := by
  cases c with
  | fileOpen openFlags => exact fileOpen_spec h
  | fileClose fd => exact fileClose_spec h
  | fileRead fd => exact fileRead_spec h
  | fileWrite fd => exact fileWrite_spec h
  | fileSeek fd pos whence => exact fileSeek_spec h
  | fileFstat fd => exact withFile_spec h fun _ => fileAcquire_spec h
  | fileFsync fd => exact withFile_spec h fun _ => fileAcquire_spec h
  | fileGetdirentry fd => exact withFile_spec h fun _ => fileAcquire_spec h
  | fileDup fd1 fd2 => exact fileDup_spec h
  | filesCloseall => exact filesCloseall_spec h

/-- The code after a call into the file system. -/
theorem Task.resume_spec (task : Task) (h : Uses T (task.join D)) :
    Keeps (task.resume reply) T D := by
  cases task with
  | done ret stored => exact h
  | opening s openFlags => exact fileOpened_spec h
  | appending s node openFlags => exact fileAppending_spec h
  | abandoning s ret => exact fileAbandoned_spec h
  | operating s node op => exact fileOperated_spec h
  | freeing s after =>
      simp only [Keeps, Task.resume, ends_bind]
      apply (fdArrayFreed_spec h).imp
      intro _ T' hfreed
      have hfree : Uses T' (D.freeing s false) := hfreed
      exact freed_spec hfree

end Ucore.Fs
