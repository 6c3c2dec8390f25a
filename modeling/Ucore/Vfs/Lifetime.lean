import Mathlib.Data.Finset.Lattice.Fold
import Mathlib.Order.Lattice.Nat
import Ucore.Foundation.Runs
import Ucore.Vfs.Tables

/-!
# The lifetime of file tables

`do_exit` gives the file table of a process back only where it gives back its memory. As
long as no process without memory exits, the count of a table is the number of processes
that use it, and a table is destroyed when its last process exits.
-/

namespace Ucore.Vfs

open Machine
open Fs (File FilesM Slot)

variable {sys sys' : Sys} {f : Filesp} {s : Slot} {current proc : Nat} {α : Type}

/-- Any reason to stop. -/
def halted (_ : Halt) : Prop := True

/-- What is known of the processes and the tables that there are. -/
structure Shape where
  filesHeap : Finset Filesp
  created : Filesp → Nat
  destroyed : Filesp → Nat
  procs : Finset Nat
  proc : Nat → Proc
  filesCount : Filesp → Nat

def Sys.shape (sys : Sys) : Shape where
  filesHeap := sys.filesHeap
  created := sys.created
  destroyed := sys.destroyed
  procs := sys.procs
  proc := sys.proc
  filesCount f := (sys.table f).filesCount

/-! ## Code that keeps the shape -/

theorem onInodes_shape (x : VfsM α) : Keeps Sys.shape (onInodes x) := by
  intro sys
  unfold Ends onInodes
  cases x sys.inodes with
  | error e => trivial
  | ok r => rfl

/-- A table changes, but not its count. -/
theorem setTable_shape {T : Table} (hcount : T.filesCount = (sys.table f).filesCount) :
    (sys.setTable f T).shape = sys.shape := by
  unfold Sys.shape Sys.setTable
  congr 1
  funext g
  by_cases hg : g = f
  · subst hg
    simp [hcount]
  · simp [hg]

theorem onFiles_shape {x : FilesM α} (hx : Keeps Fs.Files.filesCount x) :
    Keeps Sys.shape (onFiles f x) := by
  intro sys
  have hkept := hx (sys.table f).toFiles
  unfold Ends at hkept ⊢
  unfold onFiles
  cases hrun : x (sys.table f).toFiles with
  | error e => trivial
  | ok r =>
      rw [hrun] at hkept
      exact setTable_shape hkept

theorem filespOf_shape : Keeps Sys.shape (filespOf current) := by
  refine keeps_get.bind fun sys => ?_
  split
  · exact keeps_pure _
  · exact keeps_throw _

theorem load_count : Keeps Fs.Files.filesCount (Fs.load s) :=
  keeps_get.bind fun _ => keeps_pure _

theorem store_count (file : File) : Keeps Fs.Files.filesCount (Fs.store s file) :=
  keeps_modify fun _ => rfl

theorem log_count (call : Fs.NodeCall) : Keeps Fs.Files.filesCount (Fs.log s call) :=
  keeps_modify fun _ => rfl

theorem useNode_count (node : Option Node) : Keeps Fs.Files.filesCount (Fs.useNode node) := by
  cases node with
  | none => exact keeps_throw _
  | some node => exact keeps_pure _

theorem getFdArray_count : Keeps Fs.Files.filesCount Fs.getFdArray :=
  keeps_get.bind fun _ => keeps_check _ _

theorem fdArrayFound_count : Keeps Fs.Files.filesCount (Fs.fdArrayFound s) :=
  load_count.bind fun _ => (keeps_check _ _).bind fun _ => store_count _

theorem fdArrayAlloc_count (fd : Int) : Keeps Fs.Files.filesCount (Fs.fdArrayAlloc fd) := by
  refine getFdArray_count.bind fun _ => keeps_get.bind fun T => ?_
  split
  · split
    · exact fdArrayFound_count.bind fun _ => keeps_pure _
    · exact keeps_pure _
  · split
    · split
      · exact fdArrayFound_count.bind fun _ => keeps_pure _
      · exact keeps_pure _
    · exact keeps_pure _

theorem fdArrayFree_count : Keeps Fs.Files.filesCount (Fs.fdArrayFree s) := by
  refine load_count.bind fun file => (keeps_check _ _).bind fun _ => (keeps_check _ _).bind fun _ =>
    ?_
  split
  · exact (useNode_count _).bind fun node => (log_count _).bind fun _ => keeps_pure _
  · exact (store_count _).bind fun _ => keeps_pure _

theorem fdArrayOpen_count : Keeps Fs.Files.filesCount (Fs.fdArrayOpen s) :=
  load_count.bind fun _ => (keeps_check _ _).bind fun _ => store_count _

theorem fdArrayClose_count : Keeps Fs.Files.filesCount (Fs.fdArrayClose s) := by
  refine load_count.bind fun file => (keeps_check _ _).bind fun _ => (keeps_check _ _).bind fun _ =>
    (store_count _).bind fun _ => ?_
  split
  · exact fdArrayFree_count
  · exact keeps_pure _

theorem fdArrayDup_count (source : File) : Keeps Fs.Files.filesCount (Fs.fdArrayDup s source) :=
  load_count.bind fun _ => (keeps_check _ _).bind fun _ => (useNode_count _).bind fun _ =>
    (log_count _).bind fun _ => (store_count _).bind fun _ => fdArrayOpen_count

theorem fd2file_count (fd : Int) : Keeps Fs.Files.filesCount (Fs.fd2file fd) := by
  unfold Fs.fd2file
  split
  · refine getFdArray_count.bind fun _ => load_count.bind fun file => ?_
    split
    · exact keeps_pure _
    · exact keeps_pure _
  · exact keeps_pure _

theorem closeNode_shape : Keeps Sys.shape (closeNode f s) :=
  (onFiles_shape load_count).bind fun _ => (onFiles_shape (useNode_count _)).bind fun _ =>
    (onInodes_shape _).bind fun _ => onFiles_shape (load_count.bind fun _ => store_count _)

theorem fdArrayFree_shape : Keeps Sys.shape (fdArrayFree f s) := by
  refine (onFiles_shape fdArrayFree_count).bind fun inClose => ?_
  split
  · exact closeNode_shape
  · exact keeps_pure _

theorem fdArrayClose_shape : Keeps Sys.shape (fdArrayClose f s) := by
  refine (onFiles_shape fdArrayClose_count).bind fun inClose => ?_
  split
  · exact closeNode_shape
  · exact keeps_pure _

theorem fdArrayDup_shape (source : File) : Keeps Sys.shape (fdArrayDup f s source) :=
  (onFiles_shape (useNode_count _)).bind fun _ => (onInodes_shape _).bind fun _ =>
    (onInodes_shape _).bind fun _ => onFiles_shape (fdArrayDup_count source)

theorem fileOpened_shape (node : Node) (access : Bool × Bool) (pos : Int) :
    Keeps Sys.shape (fileOpened f s node access pos) :=
  onFiles_shape (load_count.bind fun _ => (store_count _).bind fun _ =>
    fdArrayOpen_count.bind fun _ =>
    keeps_pure _)

theorem fileOpen_shape (path : Str) (openFlags : BitVec 32) :
    Keeps Sys.shape (fileOpen current path openFlags) := by
  unfold fileOpen
  split
  · exact keeps_pure _
  refine filespOf_shape.bind fun f => (onFiles_shape (fdArrayAlloc_count _)).bind fun slot => ?_
  split
  · exact keeps_pure _
  refine keeps_get.bind fun _ => (onInodes_shape _).bind fun opened => ?_
  split
  · exact fdArrayFree_shape.bind fun _ => keeps_pure _
  split
  · exact (onInodes_shape _).bind fun _ => fileOpened_shape _ _ _
  · exact fileOpened_shape _ _ _

theorem fileClose_shape (fd : Int) : Keeps Sys.shape (fileClose current fd) := by
  refine filespOf_shape.bind fun f => (onFiles_shape (fd2file_count _)).bind fun slot => ?_
  split
  · exact keeps_pure _
  · exact fdArrayClose_shape.bind fun _ => keeps_pure _

theorem fileDup_shape (fd1 fd2 : Int) : Keeps Sys.shape (fileDup current fd1 fd2) := by
  refine filespOf_shape.bind fun f => (onFiles_shape (fd2file_count _)).bind fun slot => ?_
  split
  · exact keeps_pure _
  refine (onFiles_shape (fdArrayAlloc_count _)).bind fun slot => ?_
  split
  · exact keeps_pure _
  · exact (onFiles_shape load_count).bind fun _ => (fdArrayDup_shape _).bind fun _ =>
      (onFiles_shape load_count).bind fun _ => keeps_pure _

theorem chdir_shape (path : Str) : Keeps Sys.shape (chdir current path) := by
  refine filespOf_shape.bind fun f => keeps_get.bind fun _ => (onInodes_shape _).bind fun changed =>
    (keeps_modify ?_).bind fun _ => keeps_pure _
  exact fun sys => setTable_shape rfl

theorem closeFrom_shape (slots : List Slot) : Keeps Sys.shape (closeFrom f slots) := by
  induction slots with
  | nil => exact keeps_pure _
  | cons s rest ih =>
      refine (onFiles_shape load_count).bind fun file => ?_
      split
      · exact fdArrayClose_shape.bind fun _ => ih
      · exact ih

theorem filesCloseall_shape : Keeps Sys.shape (filesCloseall f) :=
  keeps_get.bind fun _ => (keeps_check _ _).bind fun _ => closeFrom_shape _

theorem dupFrom_shape (target source : Filesp) (slots : List Slot) :
    Keeps Sys.shape (dupFrom target source slots) := by
  induction slots with
  | nil => exact keeps_pure _
  | cons s rest ih =>
      refine (onFiles_shape load_count).bind fun file => ?_
      split
      · exact (onFiles_shape load_count).bind fun _ => (onFiles_shape (store_count _)).bind fun _ =>
          (fdArrayDup_shape _).bind fun _ => ih
      · exact ih

theorem dupFiles_shape (target source : Filesp) : Keeps Sys.shape (dupFiles target source) := by
  refine keeps_get.bind fun sys => (keeps_check _ _).bind fun _ => (keeps_modify ?_).bind fun _ =>
    ?_
  · exact fun sys => setTable_shape rfl
  · split
    · exact (onInodes_shape _).bind fun _ => dupFrom_shape _ _ _
    · exact dupFrom_shape _ _ _

/-! ## Users -/

/-- The processes that use a table and have not exited. -/
def users (procs : Finset Nat) (proc : Nat → Proc) (f : Filesp) : Finset Nat :=
  procs.filter fun p => (proc p).zombie = false ∧ (proc p).filesp = some f

theorem mem_users {procs : Finset Nat} {proc : Nat → Proc} {p : Nat} :
    p ∈ users procs proc f ↔ p ∈ procs ∧ (proc p).zombie = false ∧ (proc p).filesp = some f :=
  Finset.mem_filter

/-- A table is there while it has users, and is counted by them; every other one that was
created has been destroyed. -/
structure Accounted (h : Shape) : Prop where
  counted : ∀ f, h.filesCount f = (users h.procs h.proc f).card ∨ f ∉ h.filesHeap
  used : ∀ f, f ∈ h.filesHeap ↔ (users h.procs h.proc f).Nonempty
  created : ∀ f, h.created f = h.destroyed f + if f ∈ h.filesHeap then 1 else 0

namespace Accounted

variable {h h' : Shape}

theorem count_eq (hacc : Accounted h) (hf : f ∈ h.filesHeap) :
    h.filesCount f = (users h.procs h.proc f).card :=
  (hacc.counted f).resolve_right fun hout => hout hf

/-- The processes change, but not the users of the tables. -/
theorem congr (hacc : Accounted h) (hheap : h'.filesHeap = h.filesHeap)
    (hcreated : h'.created = h.created)
    (hdestroyed : h'.destroyed = h.destroyed) (hcount : h'.filesCount = h.filesCount)
    (husers : ∀ f, users h'.procs h'.proc f = users h.procs h.proc f) : Accounted h' := by
  refine ⟨?_, ?_, ?_⟩
  · intro f
    rw [hcount, husers, hheap]
    exact hacc.counted f
  · intro f
    rw [hheap, husers]
    exact hacc.used f
  · intro f
    rw [hcreated, hdestroyed, hheap]
    exact hacc.created f

end Accounted

/-- A process that is not there has no effect on the users. -/
theorem users_update_out {procs : Finset Nat} {proc : Nat → Proc} {p : Nat}
    (hp : p ∉ procs) (q : Proc)
    (f : Filesp) : users procs (Function.update proc p q) f = users procs proc f := by
  apply Finset.filter_congr
  intro r hr
  rw [Function.update_of_ne (ne_of_mem_of_not_mem hr hp)]

/-- A process keeps its table. -/
theorem users_update_same {procs : Finset Nat} {proc : Nat → Proc} {p : Nat} {q : Proc}
    (hfilesp : q.filesp = (proc p).filesp) (hzombie : q.zombie = (proc p).zombie) (f : Filesp) :
    users procs (Function.update proc p q) f = users procs proc f := by
  apply Finset.filter_congr
  intro r _
  by_cases hr : r = p
  · subst hr
    rw [Function.update_self, hfilesp, hzombie]
  · rw [Function.update_of_ne hr]

/-- A new process uses a table. -/
theorem users_insert {procs : Finset Nat} {proc : Nat → Proc} {p : Nat} (hp : p ∉ procs) {q : Proc}
    (hzombie : q.zombie = false) (hfilesp : q.filesp = some f) (g : Filesp) :
    users (insert p procs) (Function.update proc p q) g =
      if g = f then insert p (users procs proc g) else users procs proc g := by
  ext r
  rw [mem_users, Finset.mem_insert]
  by_cases hr : r = p
  · subst hr
    rw [Function.update_self, hzombie, hfilesp]
    split
    · next hg => simp [hg]
    · next hg =>
      have hout : r ∉ users procs proc g := fun hin => hp (mem_users.mp hin).1
      simp [hout, Ne.symm hg]
  · rw [Function.update_of_ne hr]
    split
    · simp [hr, mem_users]
    · simp [hr, mem_users]

/-- A process exits. -/
theorem users_exit {procs : Finset Nat} {proc : Nat → Proc} {p : Nat} {q : Proc}
    (hzombie : q.zombie = true)
    (f : Filesp) : users procs (Function.update proc p q) f = (users procs proc f).erase p := by
  ext r
  rw [mem_users, Finset.mem_erase, mem_users]
  by_cases hr : r = p
  · subst hr
    simp [hzombie]
  · simp [hr]

namespace Shape

/-- A process that uses the table `f` is added. -/
def join (h : Shape) (p : Nat) (q : Proc) (f : Filesp) : Shape :=
  { h with
    procs := insert p h.procs
    proc := Function.update h.proc p q
    filesCount := Function.update h.filesCount f (h.filesCount f + 1) }

/-- `files_create` returns `f`. -/
def create (h : Shape) (f : Filesp) : Shape :=
  { h with
    filesHeap := insert f h.filesHeap
    created := Function.update h.created f (h.created f + 1)
    filesCount := Function.update h.filesCount f 0 }

/-- `put_files` of a process with the table `f`. -/
def put (h : Shape) (f : Filesp) : Shape :=
  if h.filesCount f = 1 then
    { h with
      filesHeap := h.filesHeap.erase f
      destroyed := Function.update h.destroyed f (h.destroyed f + 1)
      filesCount := Function.update h.filesCount f 0 }
  else { h with filesCount := Function.update h.filesCount f (h.filesCount f - 1) }

end Shape

namespace Accounted

variable {h : Shape} {p : Nat} {q : Proc}

/-- A process joins the users of a table. -/
theorem join (hacc : Accounted h) (hp : p ∉ h.procs) (hzombie : q.zombie = false)
    (hfilesp : q.filesp = some f) (hf : f ∈ h.filesHeap) : Accounted (h.join p q f) := by
  have husers : ∀ g, users (insert p h.procs) (Function.update h.proc p q) g =
      if g = f then insert p (users h.procs h.proc g) else users h.procs h.proc g :=
    users_insert hp hzombie hfilesp
  refine ⟨?_, ?_, hacc.created⟩
  · intro g
    by_cases hg : g = f
    · subst hg
      left
      have hout : p ∉ users h.procs h.proc g := fun hin => hp (mem_users.mp hin).1
      change Function.update h.filesCount g _ g = (users (insert p h.procs)
        (Function.update h.proc p q) g).card
      rw [husers, if_pos rfl, Function.update_self, hacc.count_eq hf,
        Finset.card_insert_of_notMem hout]
    · change Function.update h.filesCount f _ g = (users (insert p h.procs)
        (Function.update h.proc p q) g).card ∨ _
      rw [husers, if_neg hg, Function.update_of_ne hg]
      exact hacc.counted g
  · intro g
    change _ ↔ (users (insert p h.procs) (Function.update h.proc p q) g).Nonempty
    rw [husers]
    split
    · next hg =>
      subst hg
      exact iff_of_true hf (Finset.insert_nonempty _ _)
    · exact hacc.used g

/-- A process joins with a table of its own. -/
theorem join_new (hacc : Accounted h) (hp : p ∉ h.procs) (hzombie : q.zombie = false)
    (hfilesp : q.filesp = some f) (hf : f ∉ h.filesHeap) : Accounted ((h.create f).join p q f) := by
  have husers : ∀ g, users (insert p h.procs) (Function.update h.proc p q) g =
      if g = f then insert p (users h.procs h.proc g) else users h.procs h.proc g :=
    users_insert hp hzombie hfilesp
  have hnone : users h.procs h.proc f = ∅ :=
    Finset.not_nonempty_iff_eq_empty.mp fun hsome => hf ((hacc.used f).mpr hsome)
  refine ⟨?_, ?_, ?_⟩
  · intro g
    change Function.update (Function.update h.filesCount f 0) f
      (Function.update h.filesCount f 0 f + 1) g =
      (users (insert p h.procs) (Function.update h.proc p q) g).card ∨ g ∉ insert f h.filesHeap
    rw [husers]
    by_cases hg : g = f
    · subst hg
      left
      rw [if_pos rfl, hnone, Function.update_self, Function.update_self]
      rfl
    · rw [if_neg hg, Function.update_of_ne hg, Function.update_of_ne hg, Finset.mem_insert]
      exact (hacc.counted g).imp_right fun hout hin => hout (hin.resolve_left hg)
  · intro g
    change g ∈ insert f h.filesHeap ↔
      (users (insert p h.procs) (Function.update h.proc p q) g).Nonempty
    rw [husers, Finset.mem_insert]
    by_cases hg : g = f
    · rw [if_pos hg]
      exact iff_of_true (Or.inl hg) (Finset.insert_nonempty _ _)
    · rw [if_neg hg]
      exact (or_iff_right hg).trans (hacc.used g)
  · intro g
    change Function.update h.created f _ g =
      h.destroyed g + if g ∈ insert f h.filesHeap then 1 else 0
    have hcreated := hacc.created g
    by_cases hg : g = f
    · subst hg
      rw [if_neg hf] at hcreated
      rw [Function.update_self, if_pos (Finset.mem_insert_self g _), hcreated]
    · rw [Function.update_of_ne hg, hcreated]
      simp [hg]

/-- A process gives its table back and exits. -/
theorem exit (hacc : Accounted h) (hp : p ∈ users h.procs h.proc f) (hzombie : q.zombie = true) :
    Accounted { h.put f with proc := Function.update h.proc p q } := by
  have husers : ∀ g, users h.procs (Function.update h.proc p q) g =
      (users h.procs h.proc g).erase p :=
    users_exit hzombie
  have hf : f ∈ h.filesHeap := (hacc.used f).mpr ⟨p, hp⟩
  have hcount := hacc.count_eq hf
  have hcard := Finset.card_erase_add_one hp
  -- the other tables keep their users
  have hother : ∀ g, g ≠ f → (users h.procs h.proc g).erase p = users h.procs h.proc g := by
    intro g hg
    apply Finset.erase_eq_of_notMem
    intro hin
    have hsame := (mem_users.mp hin).2.2
    rw [(mem_users.mp hp).2.2] at hsame
    exact hg (Option.some.inj hsame).symm
  unfold Shape.put
  split
  · next hlast =>
    have hempty : (users h.procs h.proc f).erase p = ∅ := Finset.card_eq_zero.mp (by omega)
    refine ⟨?_, ?_, ?_⟩
    · intro g
      change Function.update h.filesCount f 0 g =
        (users h.procs (Function.update h.proc p q) g).card ∨ g ∉ h.filesHeap.erase f
      rw [husers]
      by_cases hg : g = f
      · exact Or.inr (by simp [hg])
      · rw [hother g hg, Function.update_of_ne hg]
        exact (hacc.counted g).imp_right fun hout hin => hout (Finset.mem_of_mem_erase hin)
    · intro g
      change g ∈ h.filesHeap.erase f ↔ (users h.procs (Function.update h.proc p q) g).Nonempty
      rw [husers]
      by_cases hg : g = f
      · subst hg
        rw [hempty]
        simp
      · rw [hother g hg, Finset.mem_erase]
        exact (and_iff_right hg).trans (hacc.used g)
    · intro g
      change h.created g =
        Function.update h.destroyed f _ g + if g ∈ h.filesHeap.erase f then 1 else 0
      have hcreated := hacc.created g
      by_cases hg : g = f
      · subst hg
        rw [if_pos hf] at hcreated
        rw [Function.update_self, if_neg (Finset.notMem_erase g _), hcreated]
      · rw [Function.update_of_ne hg, hcreated]
        simp [hg]
  · next hmore =>
    refine ⟨?_, ?_, hacc.created⟩
    · intro g
      change Function.update h.filesCount f _ g =
        (users h.procs (Function.update h.proc p q) g).card ∨ g ∉ h.filesHeap
      rw [husers]
      by_cases hg : g = f
      · subst hg
        left
        rw [Function.update_self]
        omega
      · rw [hother g hg, Function.update_of_ne hg]
        exact hacc.counted g
    · intro g
      change g ∈ h.filesHeap ↔ (users h.procs (Function.update h.proc p q) g).Nonempty
      rw [husers]
      by_cases hg : g = f
      · subst hg
        have hpos : 0 < ((users h.procs h.proc g).erase p).card := by
          have hne : 0 < (users h.procs h.proc g).card := Finset.card_pos.mpr ⟨p, hp⟩
          omega
        exact iff_of_true hf (Finset.card_pos.mp hpos)
      · rw [hother g hg]
        exact hacc.used g

end Accounted

/-! ## Tables that come and go -/

theorem setTable_count (T : Table) : (sys.setTable f T).shape =
    { sys.shape with filesCount := Function.update sys.shape.filesCount f T.filesCount } := by
  unfold Sys.shape Sys.setTable
  congr 1
  funext g
  by_cases hg : g = f
  · subst hg
    simp
  · simp [hg]

theorem filesCountInc_shape : Ends halted (filesCountInc f) sys fun _ sys' => sys'.shape =
    { sys.shape with
      filesCount := Function.update sys.shape.filesCount f (sys.shape.filesCount f + 1) } :=
  setTable_count _

theorem filesCountDec_shape : Ends halted (filesCountDec f) sys fun count sys' =>
    count = (sys.shape.filesCount f : Int) - 1 ∧ sys'.shape =
      { sys.shape with
        filesCount := Function.update sys.shape.filesCount f (sys.shape.filesCount f - 1) } :=
  ⟨rfl, setTable_count _⟩

theorem filesCreate_shape (memory : Slot → File) :
    Ends halted (filesCreate memory) sys fun created sys' => match created with
      | none => sys'.shape = sys.shape
      | some f => f ∉ sys.shape.filesHeap ∧ sys'.shape = sys.shape.create f := by
  rw [filesCreate, ends_bind]
  apply (onInodes_shape ask sys).imp
  intro answer sys₁ hask
  split
  · exact hask
  · rw [ends_bind, ends_get, ends_bind, ends_modify, ends_pure, ← hask]
    refine ⟨answer.fresh sys₁.filesHeap, ?_⟩
    have hcreate := @setTable_count sys₁ (answer.place sys₁.filesHeap)
      { Fs.filesCreate memory with pwd := none }
    exact congrArg (fun h : Shape => { h with
      filesHeap := insert (answer.place sys₁.filesHeap) sys₁.filesHeap
      created := Function.update sys₁.created (answer.place sys₁.filesHeap)
        (sys₁.created (answer.place sys₁.filesHeap) + 1) }) hcreate

theorem filesDestroy_shape : Ends halted (filesDestroy f) sys fun _ sys' => sys'.shape =
    { sys.shape with
      filesHeap := sys.shape.filesHeap.erase f
      destroyed := Function.update sys.shape.destroyed f (sys.shape.destroyed f + 1) } := by
  have hgone : ∀ {t : Sys}, t.shape = sys.shape → Sys.shape { t with
      filesHeap := t.filesHeap.erase f
      destroyed := Function.update t.destroyed f (t.destroyed f + 1) } = { sys.shape with
      filesHeap := sys.shape.filesHeap.erase f
      destroyed := Function.update sys.shape.destroyed f (sys.shape.destroyed f + 1) } := by
    intro t ht
    rw [← ht]
    rfl
  have hrest : Keeps Sys.shape (closeFrom f (List.finRange Fs.FILES_STRUCT_NENTRY)) :=
    closeFrom_shape _
  have hlast : ∀ {t : Sys}, t.shape = sys.shape → Ends halted (do
      closeFrom f (List.finRange Fs.FILES_STRUCT_NENTRY)
      let sys ← get
      check .filesDestroy (∀ s, ((sys.table f).fdArray s).status = .fdNone)
      modify fun sys => { sys with
        filesHeap := sys.filesHeap.erase f
        destroyed :=
        Function.update sys.destroyed f (sys.destroyed f + 1) }) t fun _ sys' => sys'.shape =
      { sys.shape with
        filesHeap := sys.shape.filesHeap.erase f
        destroyed := Function.update sys.shape.destroyed f (sys.shape.destroyed f + 1) } := by
    intro t ht
    rw [ends_bind]
    apply (hrest t).imp
    intro _ t₁ hclosed
    rw [ends_bind, ends_get, ends_bind]
    apply (keeps_check (f := Sys.shape) Halt.filesDestroy _ t₁).imp
    intro _ t₂ hcheck
    exact hgone (hcheck.trans (hclosed.trans ht))
  rw [filesDestroy, ends_bind, ends_get, ends_bind]
  apply (keeps_check (f := Sys.shape) Halt.filesDestroy _ sys).imp
  intro _ sys₁ hcheck
  split
  · rw [ends_bind]
    apply (onInodes_shape _ sys₁).imp
    intro _ sys₂ hdec
    exact hlast (hdec.trans hcheck)
  · exact hlast hcheck

/-- What `put_files` does to the table of a process. -/
theorem putFiles_shape : Ends halted (putFiles current) sys fun _ sys' =>
    sys'.shape = match (sys.proc current).filesp with
      | none => sys.shape
      | some f => sys.shape.put f := by
  rw [putFiles, ends_bind, ends_get]
  cases (sys.proc current).filesp with
  | none => exact rfl
  | some f =>
      change Ends halted (filesCountDec f >>= _) _ _
      rw [ends_bind]
      apply filesCountDec_shape.imp
      rintro _ sys₁ ⟨rfl, hdec⟩
      have hone : (sys.shape.filesCount f : Int) - 1 = 0 ↔ sys.shape.filesCount f = 1 := by omega
      change Ends halted (if _ then _ else _) _ fun _ sys' => Sys.shape sys' = sys.shape.put f
      rw [Shape.put]
      split
      · next hlast =>
        rw [if_pos (hone.mp hlast)]
        apply filesDestroy_shape.imp
        intro _ sys₂ hdestroy
        rw [hdestroy, hdec, hone.mp hlast]
      · next hmore =>
        rw [if_neg fun hlast => hmore (hone.mpr hlast)]
        exact hdec

/-! ## Processes that come and go -/

section Processes

variable {p : Nat} {q : Proc}

theorem setProc_shape : (sys.setProc p q).shape =
    { sys.shape with proc := Function.update sys.shape.proc p q } := rfl

/-- A process changes, but neither its table nor whether it has exited. -/
theorem Accounted.setProc (hacc : Accounted sys.shape) (hfilesp : q.filesp = (sys.proc p).filesp)
    (hzombie : q.zombie = (sys.proc p).zombie) : Accounted (sys.setProc p q).shape :=
  hacc.congr rfl rfl rfl rfl (users_update_same hfilesp hzombie)

/-- The process `p` has got the table of the current process or a new one. -/
def Given (sys : Sys) (current p : Nat) (t : Shape) : Prop :=
  ∃ f h, ((sys.proc current).filesp = some f ∧ h = sys.shape ∨ f ∉ sys.filesHeap ∧
    h = sys.shape.create f) ∧ t = { h with
      proc := Function.update sys.proc p { sys.proc p with filesp := some f }
      filesCount := Function.update h.filesCount f (h.filesCount f + 1) }

/-- The end of `copy_files`. -/
theorem Given.of_inc {sys₁ : Sys} {h : Shape} (hshape : sys₁.shape = h) (hproc : h.proc = sys.proc)
    (htable : (sys.proc current).filesp = some f ∧ h = sys.shape ∨
      f ∉ sys.filesHeap ∧ h = sys.shape.create f) :
    Ends halted (filesCountInc f) sys₁ fun _ t =>
      Given sys current p (t.setProc p { t.proc p with filesp := some f }).shape := by
  apply filesCountInc_shape.imp
  intro _ t hinc
  rw [hshape] at hinc
  refine ⟨f, h, htable, ?_⟩
  have ht : t.proc = sys.proc := (congrArg Shape.proc hinc).trans hproc
  rw [setProc_shape, hinc, ht]
  change { h with proc := Function.update h.proc p _, filesCount := _ } = _
  rw [hproc]

theorem copyFiles_shape (cloneFs : Bool) (memory : Slot → File) :
    Ends halted (copyFiles current p cloneFs memory) sys fun ret t =>
      if ret = 0 then Given sys current p t.shape else t.shape = sys.shape := by
  rw [copyFiles, ends_bind, ends_get]
  cases hold : (sys.proc current).filesp with
  | none => trivial
  | some old =>
      change Ends halted (if cloneFs = true then _ else _) _ _
      split
      · rw [ends_bind]
        exact Given.of_inc rfl rfl (Or.inl ⟨hold, rfl⟩)
      · rw [ends_bind]
        apply (filesCreate_shape memory).imp
        intro created sys₁ hcreate
        cases created with
        | none => exact hcreate
        | some f =>
            change Ends halted (dupFiles f old >>= _) _ _
            rw [ends_bind]
            apply (dupFiles_shape f old sys₁).imp
            intro _ sys₂ hdup
            rw [ends_bind]
            exact Given.of_inc (hdup.trans hcreate.2) rfl (Or.inr ⟨hcreate.1, rfl⟩)

/-- A new process is counted as a user of its table. -/
theorem createProc_accounted {cloneFs : Bool} {memory : Slot → File} {mm : Option Nat}
    (hacc : Accounted sys.shape) (hcurrent : current ∈ sys.procs)
    (hzombie : (sys.proc current).zombie = false)
    (hp : p ∉ sys.procs) : Ends halted (createProc current p cloneFs memory mm) sys fun _ t =>
      Accounted t.shape := by
  have hne : current ≠ p := ne_of_mem_of_not_mem hcurrent hp
  rw [createProc, ends_bind, ends_modify, ends_bind]
  apply (copyFiles_shape cloneFs memory).imp
  intro ret t hcopy
  split at hcopy
  · next hret =>
    obtain ⟨f, h, htable, ht⟩ := hcopy
    rw [if_pos hret]
    change Accounted { t.shape with procs := insert p t.shape.procs }
    rw [ht]
    have hself : (sys.setProc p ⟨none, mm, false⟩).proc p = ⟨none, mm, false⟩ :=
      Function.update_self p _ sys.proc
    have hother : (sys.setProc p ⟨none, mm, false⟩).proc current = sys.proc current :=
      Function.update_of_ne hne _ sys.proc
    have htwice : Function.update (sys.setProc p ⟨none, mm, false⟩).proc p ⟨some f, mm, false⟩ =
        Function.update sys.proc p ⟨some f, mm, false⟩ := Function.update_idem ..
    rw [hself, htwice]
    rw [hother] at htable
    obtain ⟨hold, rfl⟩ | ⟨hnew, rfl⟩ := htable
    · have hf : f ∈ sys.filesHeap :=
        (hacc.used f).mpr ⟨current, mem_users.mpr ⟨hcurrent, hzombie, hold⟩⟩
      exact hacc.join hp rfl rfl hf
    · exact hacc.join_new hp rfl rfl hnew
  · next hret =>
    rw [if_neg hret]
    change Accounted t.shape
    rw [hcopy]
    exact hacc.congr rfl rfl rfl rfl (users_update_out hp _)

/-- A process with memory exits. -/
theorem doExit_accounted (hacc : Accounted sys.shape) (hp : p ∈ sys.procs)
    (hzombie : (sys.proc p).zombie = false) (hmm : (sys.proc p).mm ≠ none) :
    Ends halted (doExit p) sys fun _ t => Accounted t.shape := by
  rw [doExit, ends_bind, ends_get, ends_bind, ends_check_of trivial]
  intro _
  rw [ends_bind, ends_check_of trivial, if_pos hmm]
  intro _
  rw [ends_bind, ends_modify, ends_bind]
  have hself : (sys.setProc p { sys.proc p with mm := none }).proc p =
      { sys.proc p with mm := none } :=
    Function.update_self p _ sys.proc
  have hacc₁ : Accounted (sys.setProc p { sys.proc p with mm := none }).shape :=
    hacc.setProc rfl rfl
  have hp₁ : p ∈ (sys.setProc p { sys.proc p with mm := none }).procs := hp
  generalize sys.setProc p { sys.proc p with mm := none } = sys₁ at hself hacc₁ hp₁ ⊢
  have hzombie₁ : (sys₁.proc p).zombie = false := by
    rw [hself]
    exact hzombie
  apply putFiles_shape.imp
  intro _ t hput
  rw [ends_modify, setProc_shape]
  cases hfilesp : (sys₁.proc p).filesp with
  | none =>
      rw [hfilesp] at hput
      rw [hput]
      refine hacc₁.congr rfl rfl rfl rfl fun f => ?_
      have hout : p ∉ users sys₁.procs sys₁.proc f := by
        intro hin
        have hsome := (mem_users.mp hin).2.2
        rw [hfilesp] at hsome
        cases hsome
      exact (users_exit rfl f).trans (Finset.erase_eq_of_notMem hout)
  | some f =>
      rw [hfilesp] at hput
      have hput : t.shape = sys₁.shape.put f := hput
      have hproc : t.shape.proc = sys₁.proc := by
        rw [hput, Shape.put]
        split <;> rfl
      rw [hproc, hput]
      exact hacc₁.exit (mem_users.mpr ⟨hp₁, hzombie₁, hfilesp⟩) rfl

/-- `do_execve` without its exit changes the memory of the process at most. -/
theorem execve_shape (args : Exec) : Ends halted (execve p args) sys fun _ t =>
    ∃ mm, t.shape = (sys.setProc p { sys.proc p with mm := mm }).shape := by
  have hsame : ∀ {t : Sys}, t.shape = sys.shape →
      ∃ mm, t.shape = (sys.setProc p { sys.proc p with mm := mm }).shape := by
    intro t ht
    refine ⟨(sys.proc p).mm, ht.trans ?_⟩
    rw [setProc_shape]
    exact congrArg (fun proc => { sys.shape with proc := proc })
      (Function.update_eq_self p sys.proc).symm
  have hmm : ∀ {t : Sys} (mm : Option Nat),
      (∃ mm, t.shape = (sys.setProc p { sys.proc p with mm := mm }).shape) →
      ∃ mm', (t.setProc p { t.proc p with mm := mm }).shape =
      (sys.setProc p { sys.proc p with mm := mm' }).shape := by
    rintro t mm ⟨mm', ht⟩
    refine ⟨mm, ?_⟩
    have hproc : t.proc = Function.update sys.proc p { sys.proc p with mm := mm' } :=
      congrArg Shape.proc ht
    rw [setProc_shape, ht, hproc, Function.update_self, setProc_shape, setProc_shape]
    exact congrArg (fun proc => { sys.shape with proc := proc }) (Function.update_idem ..)
  rw [execve]
  split
  · exact hsame rfl
  split
  · exact hsame rfl
  split
  · exact hsame rfl
  rw [ends_bind]
  apply (filespOf_shape sys).imp
  intro f sys₁ hfiles
  rw [ends_bind]
  apply (filesCloseall_shape sys₁).imp
  intro _ sys₂ hclose
  rw [ends_bind]
  have hopen : Keeps Sys.shape (sysfileOpen p args.path Fs.O_RDONLY) := by
    unfold sysfileOpen
    split
    · exact keeps_pure _
    · exact (fileOpen_shape _ _).bind fun _ => keeps_pure _
  apply (hopen sys₂).imp
  intro ret sys₃ hopen
  have hkept := hsame (hopen.trans (hclose.trans hfiles))
  split
  · exact hkept
  rw [ends_bind, ends_modify]
  cases args.loadIcode with
  | error _ => exact hmm none hkept
  | ok mm => exact hmm (some mm) (hmm none hkept)

/-- `do_execve` without its exit keeps the tables, and the process does not exit. -/
theorem execve_accounted (args : Exec) (hacc : Accounted sys.shape) :
    Ends halted (execve p args) sys fun _ t =>
      Accounted t.shape ∧ t.procs = sys.procs ∧ (t.proc p).zombie = (sys.proc p).zombie := by
  apply (execve_shape args).imp
  rintro _ t ⟨mm, ht⟩
  have hproc : t.proc = Function.update sys.proc p { sys.proc p with mm := mm } :=
    congrArg Shape.proc ht
  refine ⟨?_, congrArg Shape.procs ht, ?_⟩
  · rw [ht]
    exact hacc.setProc rfl rfl
  · rw [hproc, Function.update_self]

end Processes

/-! ## Runs -/

/-- `do_exit` is called, by itself or from `do_execve`, with `current->mm` that is not null. With a
null one `put_files` is not called. -/
def ExitsWithMm (sys : Sys) : Action → Prop
  | .exit current => (sys.proc current).mm ≠ none
  | .execve current args =>
      ∀ t, execve current args sys = .ok (none, t) → (t.proc current).mm ≠ none
  | _ => True

instance (sys : Sys) : DecidablePred (ExitsWithMm sys) := fun a =>
  match a with
  | .exit current => inferInstanceAs (Decidable ((sys.proc current).mm ≠ none))
  | .execve current args =>
      match hrun : execve current args sys with
      | .ok (none, t) => decidable_of_iff ((t.proc current).mm ≠ none)
          ⟨fun hmm u hu => by
            obtain rfl : t = u := congrArg Prod.snd (Except.ok.inj (hrun.symm.trans hu))
            exact hmm, fun h => h t hrun⟩
      | .ok (some _, _) => isTrue fun _ hu => nomatch hrun.symm.trans hu
      | .error _ => isTrue fun _ hu => nomatch hrun.symm.trans hu
  | .create .. | .reap _ | .fileOpen .. | .fileClose .. | .fileDup .. | .chdir .. => isTrue trivial

/-- A step in which a process that exits has memory keeps the tables accounted for. -/
theorem Accounted.of_step {a : Action} (hacc : Accounted sys.shape) (hok : Permitted sys a)
    (hmm : ExitsWithMm sys a) (hstep : step sys a = some sys') : Accounted sys'.shape := by
  have hkept : ∀ {x : SysM Int}, Keeps Sys.shape x → exec x sys = some sys' →
      Accounted sys'.shape := by
    intro x hx hexec
    obtain ⟨_, hshape⟩ := (hx sys).of_exec hexec
    exact hshape ▸ hacc
  cases a with
  | create current p cloneFs memory mm =>
      exact ((createProc_accounted hacc hok.1 hok.2.1 hok.2.2).of_exec hstep).elim fun _ h => h
  | execve current args =>
      have hends : Ends halted (Action.execve current args).code sys fun _ t =>
          Accounted t.shape := by
        change Ends halted (doExecve current args >>= _) _ _
        rw [ends_bind, doExecve, ends_bind]
        have hexecve := execve_accounted (p := current) args hacc
        unfold Ends at hexecve ⊢
        cases hrun : execve current args sys with
        | error e => trivial
        | ok result =>
            obtain ⟨ret, t⟩ := result
            rw [hrun] at hexecve
            obtain ⟨hacc₁, hprocs, hzombie⟩ := hexecve
            change Ends halted (if ret.isNone = true then _ else _) t _
            cases ret with
            | some ret => exact hacc₁
            | none =>
                change Ends halted (doExit current >>= _) t _
                rw [ends_bind]
                exact doExit_accounted hacc₁ (hprocs ▸ hok.1) (hzombie.trans hok.2) (hmm t hrun)
      exact (hends.of_exec hstep).elim fun _ h => h
  | exit current =>
      have hends : Ends halted (Action.exit current).code sys fun _ t => Accounted t.shape := by
        change Ends halted (doExit current >>= _) _ _
        rw [ends_bind]
        exact doExit_accounted hacc hok.1 hok.2 hmm
      exact (hends.of_exec hstep).elim fun _ h => h
  | reap p =>
      obtain rfl := Option.some.inj hstep
      refine hacc.congr rfl rfl rfl rfl fun f => ?_
      have hout : p ∉ users sys.procs sys.proc f := by
        intro hin
        have halive := (mem_users.mp hin).2.1
        rw [hok.2] at halive
        cases halive
      exact (Finset.filter_erase _ _ _).trans (Finset.erase_eq_of_notMem hout)
  | fileOpen current path openFlags =>
      exact hkept ((fileOpen_shape path openFlags).bind fun _ => keeps_pure _) hstep
  | fileClose current fd => exact hkept (fileClose_shape fd) hstep
  | fileDup current fd1 fd2 => exact hkept (fileDup_shape fd1 fd2) hstep
  | chdir current path => exact hkept (chdir_shape path) hstep

/-- Only `idleproc` is there, with the first table, which is the only one that was ever made. -/
def OneProcess (sys : Sys) : Prop :=
  ∃ f, sys.procs = {sys.idleproc} ∧ sys.proc sys.idleproc = ⟨some f, none, false⟩ ∧
    sys.filesHeap = {f} ∧ (sys.table f).filesCount = 1 ∧
    ∀ g, sys.destroyed g = 0 ∧ sys.created g = if g = f then 1 else 0

theorem OneProcess.accounted (h : OneProcess sys) : Accounted sys.shape := by
  obtain ⟨f, hprocs, hidle, hheap, hcount, hcreated⟩ := h
  have husers : ∀ g, users sys.procs sys.proc g = if g = f then {sys.idleproc} else ∅ := by
    intro g
    rw [users, hprocs, Finset.filter_singleton, hidle]
    simp [eq_comm]
  refine ⟨?_, ?_, ?_⟩
  · intro g
    change (sys.table g).filesCount = (users sys.procs sys.proc g).card ∨ g ∉ sys.filesHeap
    rw [husers, hheap]
    by_cases hg : g = f
    · subst hg
      simp [hcount]
    · simp [hg]
  · intro g
    change g ∈ sys.filesHeap ↔ (users sys.procs sys.proc g).Nonempty
    rw [husers, hheap]
    by_cases hg : g = f <;> simp [hg]
  · intro g
    change sys.created g = sys.destroyed g + if g ∈ sys.filesHeap then 1 else 0
    rw [(hcreated g).1, (hcreated g).2, hheap]
    simp

/-- While no process exits without memory: the count of a table that is there is the number of
processes that use it and have not exited, and there is one; `files_destroy` has run once for
every other table that was created, and for no table that is there. -/
theorem files_live_while_used {sys₀ : Sys} (hstart : OneProcess sys₀)
    (hrun : RunsTo step (fun sys a => Permitted sys a ∧ ExitsWithMm sys a) sys₀ sys) (f : Filesp) :
    (f ∈ sys.filesHeap → (sys.table f).filesCount = (users sys.procs sys.proc f).card) ∧
    (f ∈ sys.filesHeap ↔ (users sys.procs sys.proc f).Nonempty) ∧
    sys.created f = sys.destroyed f + if (users sys.procs sys.proc f).Nonempty then 1 else 0 := by
  have hacc : Accounted sys.shape := by
    induction hrun with
    | refl => exact hstart.accounted
    | tail _ hok hstep ih => exact ih.of_step hok.1 hok.2 hstep
  refine ⟨hacc.count_eq, hacc.used f, (hacc.created f).trans ?_⟩
  exact congrArg _ (if_congr (hacc.used f) rfl rfl)

/-! ## Runs of a small system -/

/-- Memory is there, and the disk works. -/
def readyAnswer : Answer where
  error := 0
  place heap := heap.sup id + 1
  fresh _ := fun hin => Nat.not_succ_le_self _ (Finset.le_sup (f := id) hin)
  kept := 0

/-- A device named `d`, which is always ready. -/
def oneDevice : Inodes where
  heap := {0}
  refCount := fun _ => 1
  openCount := fun _ => 0
  info := fun _ => .device ⟨0, 1, fun _ => 0, 0⟩
  inodeList := []
  vdevList := [⟨[100], some 0, false, false⟩]
  bootfsNode := none
  disk := ⟨fun _ => false, fun _ => ⟨0, 0, 0, 0⟩, fun _ _ => 0, fun _ => ⟨0, []⟩⟩
  answers := fun _ => readyAnswer

def blankFile : File := ⟨.fdNone, false, false, 0, 0, none, 0⟩

/-- `idleproc` after `proc_init`. -/
def idleSys : Sys where
  inodes := oneDevice
  filesHeap := {0}
  table := fun _ => ⟨⟨Fs.fdArrayInit fun _ => blankFile, 1, fun _ => []⟩, none⟩
  created := fun g => if g = 0 then 1 else 0
  destroyed := fun _ => 0
  procs := {0}
  proc := fun _ => ⟨some 0, none, false⟩
  idleproc := 0
  initproc := 1

theorem idleSys_oneProcess : OneProcess idleSys := ⟨0, rfl, rfl, rfl, rfl, fun _ => ⟨rfl, rfl⟩⟩

/-- The arguments of an exec of the device `d`. -/
def execDevice (loadIcode : Except Int Nat) : Exec := ⟨true, true, 0, .ok [100, 58], loadIcode⟩

/-- A process with a table of its own, in which `load_icode` fails. -/
def failedExec : List Action :=
  [.create 0 2 false (fun _ => blankFile) (some 1), .execve 2 (execDevice (.error (-4)))]

/-- The table of a process whose `load_icode` failed stays for good. -/
theorem failedExec_leaks : ∃ sys, RunsTo step Permitted idleSys sys ∧ 1 ∈ sys.filesHeap ∧
    (sys.table 1).filesCount = 1 ∧ users sys.procs sys.proc 1 = ∅ := by
  have hfold : (failedExec.foldlM
      (fun sys a => if Permitted sys a then step sys a else none) idleSys).map
      (fun sys => (decide (1 ∈ sys.filesHeap), (sys.table 1).filesCount,
        decide (users sys.procs sys.proc 1 = ∅))) = some (true, 1, true) := by
    decide +kernel
  obtain ⟨sys, hrun, htuple⟩ := Option.map_eq_some_iff.mp hfold
  simp only [Prod.mk.injEq, decide_eq_true_eq] at htuple
  exact ⟨sys, RunsTo.of_foldlM hrun, htuple⟩

/-- Two processes share a table; one of them runs another program and exits. -/
def sharedTable : List Action :=
  [.create 0 2 false (fun _ => blankFile) (some 1), .create 2 3 true (fun _ => blankFile) (some 2),
    .execve 3 (execDevice (.ok 3)), .exit 2, .reap 2]

theorem files_live_while_used_sharedTable : ∃ sys : Sys, users sys.procs sys.proc 1 = {3} ∧
    (1 ∈ sys.filesHeap → (sys.table 1).filesCount = (users sys.procs sys.proc 1).card) ∧
    (1 ∈ sys.filesHeap ↔ (users sys.procs sys.proc 1).Nonempty) ∧
    sys.created 1 = sys.destroyed 1 + if (users sys.procs sys.proc 1).Nonempty then 1 else 0 := by
  have hfold : (sharedTable.foldlM
      (fun sys a => if Permitted sys a ∧ ExitsWithMm sys a then step sys a else none) idleSys).map
      (fun sys => decide (users sys.procs sys.proc 1 = {3})) = some true := by
    decide +kernel
  obtain ⟨sys, hrun, husers⟩ := Option.map_eq_some_iff.mp hfold
  exact ⟨sys, of_decide_eq_true husers,
    files_live_while_used idleSys_oneProcess (RunsTo.of_foldlM hrun) 1⟩

end Ucore.Vfs
