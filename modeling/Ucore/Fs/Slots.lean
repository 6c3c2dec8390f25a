import Mathlib.Data.Multiset.ZeroCons
import Ucore.Foundation.Census
import Ucore.Fs.File

/-!
# Slots and the threads that use them

`Use` relates the fields of a slot to what threads are doing with it. Each function of
`file.c` is specified by how it changes these duties.
-/

namespace Ucore.Fs

open Machine

/-- What a thread in a call does with a slot. -/
inductive Duty
  /-- It has claimed the slot for a file that is not open yet, or could not be opened. -/
  | claiming
  /-- It has opened the file that the slot is to hold. -/
  | holding (node : Node)
  | operating (node : Node)
  /-- It is in the `vfs_close` of `fd_array_free`. -/
  | freeing
  deriving DecidableEq

def Task.duty (s : Slot) : Task → Option Duty
  | .done _ _ => none
  | .opening r _ => if r = s then some .claiming else none
  | .appending r node _ => if r = s then some (.holding node) else none
  | .abandoning r _ => if r = s then some .claiming else none
  | .operating r node _ => if r = s then some (.operating node) else none
  | .freeing r _ => if r = s then some .freeing else none

/-- The duties at each slot. -/
abbrev Duties := Slot → Multiset Duty

def Duties.join (D : Duties) (s : Slot) (duty : Duty) : Duties :=
  Function.update D s (duty ::ₘ D s)

/-- The duties with those of one more thread. -/
def Task.join (D : Duties) : Task → Duties
  | .done _ _ => D
  | .opening s _ => D.join s .claiming
  | .appending s node _ => D.join s (.holding node)
  | .abandoning s _ => D.join s .claiming
  | .operating s node _ => D.join s (.operating node)
  | .freeing s _ => D.join s .freeing

/-- Each opened inode has been closed, once. -/
inductive Paired : List NodeCall → Prop
  | nil : Paired []
  | closed {past : List NodeCall} (node : Node) (h : Paired past) :
      Paired (.vfsClose node :: .opened node :: past)

/-- A slot in use for `duties`, with the calls that were made for it. -/
inductive Use (file : File) (calls : List NodeCall) (duties : Multiset Duty) : Prop
  | free (hstatus : file.status = .fdNone) (hcount : file.openCount = 0) (hduties : duties = 0)
      (hcalls : Paired calls)
  | claimed (hstatus : file.status = .fdInit) (hcount : file.openCount = 0)
      (hduties : duties = {.claiming}) (hcalls : Paired calls)
  | held (node : Node) (past : List NodeCall) (hstatus : file.status = .fdInit)
      (hcount : file.openCount = 0) (hduties : duties = {.holding node})
      (hcalls : calls = .opened node :: past) (hpast : Paired past)
  | opened (node : Node) (past : List NodeCall) (inFlight : Nat)
      (hstatus : file.status = .fdOpened) (hnode : file.node = some node)
      (hcount : file.openCount = inFlight + 1)
      (hduties : duties = Multiset.replicate inFlight (.operating node))
      (hcalls : calls = .opened node :: past) (hpast : Paired past)
  | closing (node : Node) (past : List NodeCall) (inFlight : Nat)
      (hstatus : file.status = .fdClosed) (hnode : file.node = some node)
      (hcount : file.openCount = inFlight + 1)
      (hduties : duties = Multiset.replicate (inFlight + 1) (.operating node))
      (hcalls : calls = .opened node :: past) (hpast : Paired past)
  | freeing (hstatus : file.status = .fdClosed) (hcount : file.openCount = 0)
      (hduties : duties = {.freeing}) (hcalls : Paired calls)

/-- Every slot is in use for the duties there are. -/
structure Uses (T : Files) (D : Duties) : Prop where
  use : ∀ s, Use (T.fdArray s) (T.calls s) (D s)
  fd : ∀ s, (T.fdArray s).fd = s.val
  count : 0 < T.filesCount

/-- `T'` is `T` but for the slot `s`. -/
structure Files.Only (s : Slot) (T T' : Files) : Prop where
  filesCount : T'.filesCount = T.filesCount
  fdArray : ∀ r, r ≠ s → T'.fdArray r = T.fdArray r
  calls : ∀ r, r ≠ s → T'.calls r = T.calls r
  fd : (T'.fdArray s).fd = (T.fdArray s).fd

variable {T T' T'' : Files} {D D' : Duties} {s r : Slot} {d d' : Duty} {duties : Multiset Duty}
  {file file' : File} {calls past : List NodeCall} {node : Node} {call : NodeCall} {k : Nat}
  {E : Failed → Prop}

/-! ## Single updates -/

@[simp] theorem Duties.join_same : D.join s d s = d ::ₘ D s :=
  Function.update_self s _ D

theorem Duties.join_of_ne (hr : r ≠ s) : D.join s d r = D r :=
  Function.update_of_ne hr _ D

namespace Files

@[simp] theorem setFile_fdArray : (T.setFile s file).fdArray s = file :=
  Function.update_self ..

@[simp] theorem setFile_calls : (T.setFile s file).calls = T.calls := rfl

@[simp] theorem log_fdArray : (T.log s call).fdArray = T.fdArray := rfl

@[simp] theorem log_calls : (T.log s call).calls s = call :: T.calls s :=
  Function.update_self s _ T.calls

theorem only_setFile (hfd : file.fd = (T.fdArray s).fd) : Only s T (T.setFile s file) where
  filesCount := rfl
  fdArray _ hr := Function.update_of_ne hr ..
  calls _ _ := rfl
  fd := by rw [setFile_fdArray, hfd]

theorem only_log : Only s T (T.log s call) where
  filesCount := rfl
  fdArray _ _ := rfl
  calls _ hr := Function.update_of_ne hr _ T.calls
  fd := rfl

theorem Only.trans (h : Only s T T') (h' : Only s T' T'') : Only s T T'' where
  filesCount := h'.filesCount.trans h.filesCount
  fdArray r hr := (h'.fdArray r hr).trans (h.fdArray r hr)
  calls r hr := (h'.calls r hr).trans (h.calls r hr)
  fd := h'.fd.trans h.fd

end Files

theorem ends_load {Q : File → Files → Prop} : Ends E (load s) T Q ↔ Q (T.fdArray s) T := Iff.rfl

theorem ends_store {Q : PUnit → Files → Prop} :
    Ends E (store s file) T Q ↔ Q ⟨⟩ (T.setFile s file) := Iff.rfl

theorem ends_log {Q : PUnit → Files → Prop} : Ends E (log s call) T Q ↔ Q ⟨⟩ (T.log s call) :=
    Iff.rfl

theorem ends_useNode {o : Option Node} (h : o = some node) {Q : Node → Files → Prop} :
    Ends E (useNode o) T Q ↔ Q node T := by
  rw [h]
  exact Iff.rfl

/-! ## What a duty says about its slot -/

theorem cons_eq_singleton (h : d ::ₘ duties = {d'}) : d' = d ∧ duties = 0 := by
  exact (Multiset.singleton_eq_cons_iff duties).mp h.symm

theorem cons_eq_replicate (h : d ::ₘ duties = Multiset.replicate k d') :
    d = d' ∧ ∃ j, k = j + 1 ∧ duties = Multiset.replicate j d' := by
  have hmem : d ∈ Multiset.replicate k d' := h ▸ Multiset.mem_cons_self d duties
  obtain rfl := Multiset.eq_of_mem_replicate hmem
  cases k with
  | zero => exact absurd hmem (Multiset.notMem_zero d)
  | succ j =>
      rw [Multiset.replicate_succ, Multiset.cons_inj_right] at h
      exact ⟨rfl, j, rfl, h⟩

namespace Use

/-- The other fields do not matter. -/
theorem congr (h : Use file calls duties) (hstatus : file'.status = file.status)
    (hnode : file'.node = file.node) (hcount : file'.openCount = file.openCount) :
    Use file' calls duties := by
  cases h with
  | free hs hc hd hp => exact .free (hstatus.trans hs) (hcount.trans hc) hd hp
  | claimed hs hc hd hp => exact .claimed (hstatus.trans hs) (hcount.trans hc) hd hp
  | held node past hs hc hd he hp =>
      exact .held node past (hstatus.trans hs) (hcount.trans hc) hd he hp
  | opened node past k hs hn hc hd he hp =>
      exact .opened node past k (hstatus.trans hs) (hnode.trans hn) (hcount.trans hc) hd he hp
  | closing node past k hs hn hc hd he hp =>
      exact .closing node past k (hstatus.trans hs) (hnode.trans hn) (hcount.trans hc) hd he hp
  | freeing hs hc hd hp => exact .freeing (hstatus.trans hs) (hcount.trans hc) hd hp

theorem of_fdNone (h : Use file calls duties) (hstatus : file.status = .fdNone) :
    file.openCount = 0 ∧ duties = 0 ∧ Paired calls := by
  cases h with
  | free _ hc hd hp => exact ⟨hc, hd, hp⟩
  | claimed hs => simp [hs] at hstatus
  | held _ _ hs => simp [hs] at hstatus
  | opened _ _ _ hs => simp [hs] at hstatus
  | closing _ _ _ hs => simp [hs] at hstatus
  | freeing hs => simp [hs] at hstatus

theorem of_fdOpened (h : Use file calls duties) (hstatus : file.status = .fdOpened) :
    ∃ node past k, file.node = some node ∧ file.openCount = k + 1 ∧
      duties = Multiset.replicate k (.operating node) ∧ calls = .opened node :: past ∧
      Paired past := by
  cases h with
  | free hs => simp [hs] at hstatus
  | claimed hs => simp [hs] at hstatus
  | held _ _ hs => simp [hs] at hstatus
  | opened node past k _ hn hc hd he hp => exact ⟨node, past, k, hn, hc, hd, he, hp⟩
  | closing _ _ _ hs => simp [hs] at hstatus
  | freeing hs => simp [hs] at hstatus

theorem of_claiming (h : Use file calls (.claiming ::ₘ duties)) :
    file.status = .fdInit ∧ file.openCount = 0 ∧ duties = 0 ∧ Paired calls := by
  cases h with
  | free _ _ hd => exact absurd hd Multiset.cons_ne_zero
  | claimed hs hc hd hp => exact ⟨hs, hc, (cons_eq_singleton hd).2, hp⟩
  | held _ _ _ _ hd => exact nomatch (cons_eq_singleton hd).1
  | opened _ _ _ _ _ _ hd => exact nomatch (cons_eq_replicate hd).1
  | closing _ _ _ _ _ _ hd => exact nomatch (cons_eq_replicate hd).1
  | freeing _ _ hd => exact nomatch (cons_eq_singleton hd).1

theorem of_holding (h : Use file calls (.holding node ::ₘ duties)) :
    file.status = .fdInit ∧ file.openCount = 0 ∧ duties = 0 ∧
      ∃ past, calls = .opened node :: past ∧ Paired past := by
  cases h with
  | free _ _ hd => exact absurd hd Multiset.cons_ne_zero
  | claimed _ _ hd => exact nomatch (cons_eq_singleton hd).1
  | held node past hs hc hd he hp =>
      obtain ⟨hnode, hzero⟩ := cons_eq_singleton hd
      obtain rfl := Duty.holding.inj hnode
      exact ⟨hs, hc, hzero, past, he, hp⟩
  | opened _ _ _ _ _ _ hd => exact nomatch (cons_eq_replicate hd).1
  | closing _ _ _ _ _ _ hd => exact nomatch (cons_eq_replicate hd).1
  | freeing _ _ hd => exact nomatch (cons_eq_singleton hd).1

theorem of_freeing (h : Use file calls (.freeing ::ₘ duties)) :
    duties = 0 ∧ file.openCount = 0 ∧ Paired calls := by
  cases h with
  | free _ _ hd => exact absurd hd Multiset.cons_ne_zero
  | claimed _ _ hd => exact nomatch (cons_eq_singleton hd).1
  | held _ _ _ _ hd => exact nomatch (cons_eq_singleton hd).1
  | opened _ _ _ _ _ _ hd => exact nomatch (cons_eq_replicate hd).1
  | closing _ _ _ _ _ _ hd => exact nomatch (cons_eq_replicate hd).1
  | freeing _ hc hd hp => exact ⟨(cons_eq_singleton hd).2, hc, hp⟩

/-- A slot with an operation in flight is open or half closed, and counts the operation. -/
theorem of_operating (h : Use file calls (.operating node ::ₘ duties)) :
    file.node = some node ∧ ∃ past k, duties = Multiset.replicate k (.operating node) ∧
      calls = .opened node :: past ∧ Paired past ∧
      (file.status = .fdOpened ∧ file.openCount = k + 2 ∨
        file.status = .fdClosed ∧ file.openCount = k + 1) := by
  cases h with
  | free _ _ hd => exact absurd hd Multiset.cons_ne_zero
  | claimed _ _ hd => exact nomatch (cons_eq_singleton hd).1
  | held _ _ _ _ hd => exact nomatch (cons_eq_singleton hd).1
  | opened m past k hs hn hc hd he hp =>
      obtain ⟨hm, j, rfl, hrest⟩ := cons_eq_replicate hd
      obtain rfl := Duty.operating.inj hm
      exact ⟨hn, past, j, hrest, he, hp, Or.inl ⟨hs, hc⟩⟩
  | closing m past k hs hn hc hd he hp =>
      obtain ⟨hm, j, hj, hrest⟩ := cons_eq_replicate hd
      obtain rfl := Duty.operating.inj hm
      obtain rfl := Nat.succ.inj hj
      exact ⟨hn, past, k, hrest, he, hp, Or.inr ⟨hs, hc⟩⟩
  | freeing _ _ hd => exact nomatch (cons_eq_singleton hd).1

end Use

namespace Uses

/-- One slot changes, with the duties there. -/
theorem change (h : Uses T D) (honly : Files.Only s T T') (hD : ∀ r, r ≠ s → D' r = D r)
    (huse : Use (T'.fdArray s) (T'.calls s) (D' s)) : Uses T' D' where
  use r := by
    by_cases hr : r = s
    · rw [hr]
      exact huse
    · rw [honly.fdArray r hr, honly.calls r hr, hD r hr]
      exact h.use r
  fd r := by
    by_cases hr : r = s
    · rw [hr, honly.fd, h.fd]
    · rw [honly.fdArray r hr, h.fd]
  count := honly.filesCount ▸ h.count

/-- A thread takes a duty on. -/
theorem enter (h : Uses T D) (honly : Files.Only s T T')
    (huse : Use (T'.fdArray s) (T'.calls s) (d ::ₘ D s)) : Uses T' (D.join s d) := by
  apply h.change honly (fun r hr => Duties.join_of_ne hr)
  rw [Duties.join_same]
  exact huse

/-- A thread ends a duty. -/
theorem leave (h : Uses T (D.join s d)) (honly : Files.Only s T T')
    (huse : Use (T'.fdArray s) (T'.calls s) (D s)) : Uses T' D :=
  h.change honly (fun _ hr => (Duties.join_of_ne hr).symm) huse

/-- A thread goes from one duty to another. -/
theorem turn (h : Uses T (D.join s d)) (honly : Files.Only s T T')
    (huse : Use (T'.fdArray s) (T'.calls s) (d' ::ₘ D s)) : Uses T' (D.join s d') := by
  apply h.change honly
  · intro r hr
    rw [Duties.join_of_ne hr, Duties.join_of_ne hr]
  · rw [Duties.join_same]
    exact huse

theorem at_join (h : Uses T (D.join s d)) : Use (T.fdArray s) (T.calls s) (d ::ₘ D s) := by
  have huse := h.use s
  rwa [Duties.join_same] at huse

theorem setPos (h : Uses T D) (s : Slot) (pos : Int) :
    Uses (T.setFile s { T.fdArray s with pos := pos }) D := by
  apply h.change (Files.only_setFile ?_) fun _ _ => rfl
  · rw [Files.setFile_fdArray]
    exact (h.use s).congr rfl rfl rfl
  · rfl

end Uses

/-! ## What a function does to its slot -/

/-- `fd_array_alloc` takes a free slot. -/
theorem fdArrayAlloc_found (fd : Int) (T : Files) :
    Ends (fun _ => True) (fdArrayAlloc fd) T fun slot T' =>
    match slot with
    | .error _ => T' = T
    | .ok s => (T.fdArray s).status = .fdNone ∧
        T' = T.setFile s { T.fdArray s with status := .fdInit, node := none } := by
  have hfound : ∀ {s}, (T.fdArray s).status = .fdNone →
      Ends (fun _ => True) (do
        fdArrayFound s
        return .ok s : FilesM (Except Int Slot)) T fun slot T' =>
        match slot with
        | .error _ => T' = T
        | .ok s => (T.fdArray s).status = .fdNone ∧
            T' = T.setFile s { T.fdArray s with status := .fdInit, node := none } := by
    intro s hfree
    rw [ends_bind, fdArrayFound, ends_bind, ends_load, ends_bind, ends_check_of trivial]
    exact fun _ => ⟨hfree, rfl⟩
  rw [fdArrayAlloc, ends_bind, getFdArray, ends_bind, ends_get, ends_check_of trivial]
  intro _
  rw [ends_bind, ends_get]
  split
  · split
    · next s hfind =>
      have hfree := List.find?_some hfind
      exact hfound (of_decide_eq_true hfree)
    · exact rfl
  · split
    · split
      · next hfree => exact hfound hfree
      · exact rfl
    · exact rfl

/-- `fd2file` finds an open slot. -/
theorem fd2file_opened (fd : Int) (T : Files) : Ends (fun _ => True) (fd2file fd) T fun slot T' =>
    T' = T ∧ ∀ s, slot = .ok s → (T.fdArray s).status = .fdOpened := by
  unfold fd2file
  split
  · next h =>
    rw [ends_bind, getFdArray, ends_bind, ends_get, ends_check_of trivial]
    intro _
    rw [ends_bind, ends_load]
    split
    · next hopened =>
      refine ⟨rfl, fun s hs => ?_⟩
      obtain rfl := Except.ok.inj hs
      exact hopened.1
    · exact ⟨rfl, nofun⟩
  · exact ⟨rfl, nofun⟩

/-- `fd_array_close` of a slot that is used once. -/
theorem fdArrayClose_last (hcount : (T.fdArray s).openCount = 1)
    (hnode : (T.fdArray s).node = some node) :
    Ends (fun _ => True) (fdArrayClose s) T fun inClose T' => inClose = true ∧ Files.Only s T T' ∧
      T'.fdArray s = { T.fdArray s with status := .fdClosed, openCount := 0 } := by
  rw [fdArrayClose, ends_bind, ends_load, ends_bind, ends_check_of trivial]
  intro _
  rw [ends_bind, ends_check_of trivial]
  intro _
  have hzero : (T.fdArray s).openCount - 1 = 0 := by rw [hcount]
  rw [ends_bind, ends_store, if_pos hzero, hzero, fdArrayFree, ends_bind, ends_load,
    Files.setFile_fdArray, ends_bind, ends_check_of trivial]
  intro _
  rw [ends_bind, ends_check_of trivial]
  intro _
  rw [if_pos rfl, ends_bind, ends_useNode hnode, ends_bind, ends_log]
  refine ⟨rfl, (Files.only_setFile ?_).trans Files.only_log, ?_⟩
  · rfl
  · rw [Files.log_fdArray, Files.setFile_fdArray]

theorem fdArrayFreed_frees : Ends (fun _ => True) (fdArrayFreed s) T fun _ T' => Files.Only s T T' ∧
    T'.fdArray s = { T.fdArray s with status := .fdNone } := by
  rw [fdArrayFreed, ends_bind, ends_load, ends_store, Files.setFile_fdArray]
  refine ⟨Files.only_setFile ?_, rfl⟩
  rfl

/-- A slot that is opened. -/
structure Opens (T : Files) (s : Slot) (node : Node) (T' : Files) : Prop where
  only : Files.Only s T T'
  status : (T'.fdArray s).status = .fdOpened
  node : (T'.fdArray s).node = some node
  openCount : (T'.fdArray s).openCount = (T.fdArray s).openCount + 1

theorem fdArrayOpen_opens (hnode : (T.fdArray s).node = some node) :
    Ends (fun _ => True) (fdArrayOpen s) T fun _ T' => Opens T s node T' := by
  rw [fdArrayOpen, ends_bind, ends_load, ends_bind, ends_check_of trivial]
  intro _
  rw [ends_store]
  refine ⟨Files.only_setFile ?_, ?_, ?_, ?_⟩
  · rfl
  · rw [Files.setFile_fdArray]
  · rw [Files.setFile_fdArray]
    exact hnode
  · rw [Files.setFile_fdArray]

/-- A slot is filled in and opened. -/
theorem store_opens (hfd : file.fd = (T.fdArray s).fd)
    (hcount : file.openCount = (T.fdArray s).openCount)
    (hnode : file.node = some node) : Ends (fun _ => True) (do
      store s file
      fdArrayOpen s) T fun _ T' => Opens T s node T' := by
  rw [ends_bind, ends_store]
  have hsame : ((T.setFile s file).fdArray s).node = some node := by
    rw [Files.setFile_fdArray]
    exact hnode
  apply (fdArrayOpen_opens hsame).imp
  intro _ T' hopens
  refine ⟨(Files.only_setFile hfd).trans hopens.only, hopens.status, hopens.node, ?_⟩
  rw [hopens.openCount, Files.setFile_fdArray, hcount]

theorem fdArrayDup_opens {source : File} (hnode : source.node = some node) :
    Ends (fun _ => True) (fdArrayDup s source) T fun _ T' => Opens T s node T' := by
  rw [fdArrayDup, ends_bind, ends_load, ends_bind, ends_check_of trivial]
  intro _
  rw [ends_bind, ends_useNode hnode, ends_bind, ends_log]
  refine Ends.imp (store_opens ?_ ?_ ?_) fun _ T' hopens =>
    ⟨Files.only_log.trans hopens.only, hopens.status, hopens.node, hopens.openCount⟩
  · rfl
  · rfl
  · rfl

end Ucore.Fs
