import Ucore.Vfs.Balance
import Ucore.Vfs.FailedOpen

/-!
# The calls of processes balance the counts

Each call on a file table keeps the counts of all inodes balanced, and never meets an inode
with more open files than references.
-/

namespace Ucore.Vfs

open Machine
open Fs (File FilesM Slot Status)
open Fs.Inode (give take)

variable {sys sys' : Sys} {f g : Filesp} {s : Slot} {file : File} {node : Node} {calm : Prop}
  {held : Finset Filesp} {current : Nat} {α : Type}

/-- Any reason to stop but the assertion in `inode_check` about open files. -/
def checked (e : Halt) : Prop := e ≠ .vfs .openCount

theorem checked_files (e : Fs.Failed) : checked (.files e) := nofun

/-- Code on the slots of a table. -/
theorem onFiles_checked {x : FilesM α} {Q : α → Sys → Prop}
    (hx : Ends (fun _ => True) x (sys.table f).toFiles fun a T =>
      Q a (sys.setTable f { T with pwd := (sys.table f).pwd })) :
      Ends checked (onFiles f x) sys Q :=
  (ends_onFiles checked_files).mpr hx

theorem onInodes_checked {x : VfsM α} {Q : α → Sys → Prop}
    (hx : Ends countsChecked x sys.inodes fun a s => Q a { sys with inodes := s }) :
    Ends checked (onInodes x) sys Q := by
  unfold Ends onInodes at *
  cases hrun : x sys.inodes with
  | error e =>
      rw [hrun] at hx
      exact fun heq => hx (Halt.vfs.inj heq)
  | ok r =>
      rw [hrun] at hx
      exact hx

/-- The fields of a slot are read. -/
theorem onFiles_load {Q : File → Sys → Prop} (hQ : Q ((sys.table f).fdArray s) sys) :
    Ends checked (onFiles f (Fs.load s)) sys Q := by
  apply onFiles_checked
  rw [Fs.ends_load]
  have hself : sys.setTable f { (sys.table f).toFiles with pwd := (sys.table f).pwd } = sys :=
    setTable_self
  rw [hself]
  exact hQ

theorem filespOf_checked {Q : Filesp → Sys → Prop} (hfilesp : (sys.proc current).filesp = some f)
    (hQ : Q f sys) :
    Ends checked (filespOf current) sys Q := by
  rw [filespOf, ends_bind, ends_get, hfilesp]
  exact hQ

theorem SlotOk.holds (h : SlotOk file) (hopened : file.status = .fdOpened) :
    ∃ node, file.node = some node ∧ File.holds file = some node ∧ file.openCount = 1 := by
  obtain ⟨node, hnode⟩ := h.node hopened
  refine ⟨node, hnode, ?_, ?_⟩
  · rw [File.holds, if_pos hopened, hnode]
  · rw [h.openCount, if_pos hopened]

theorem holds_none (h : file.status ≠ .fdOpened) : File.holds file = none := if_neg h

/-! ## Closing -/

/-- `fd_array_close` of an open slot. -/
theorem fdArrayClose_balanced (h : Balanced calm held sys) (hf : f ∈ sys.filesHeap)
    (hopened : ((sys.table f).fdArray s).status = .fdOpened) :
    Ends checked (fdArrayClose f s) sys fun _ sys' => Balanced calm held sys' ∧
      sys'.filesHeap = sys.filesHeap := by
  obtain ⟨node, hnode, hholds, hcount⟩ := (h.slot f hf s).holds hopened
  rw [fdArrayClose, ends_bind]
  apply onFiles_checked
  apply (Fs.fdArrayClose_last hcount hnode).imp
  rintro _ T ⟨rfl, honly, hfile⟩
  have hone : OneSlot f s (T.fdArray s) sys (sys.setTable f { T with pwd := (sys.table f).pwd }) :=
    .of_only honly
  have hinodes : (sys.setTable f { T with pwd := (sys.table f).pwd }).inodes = sys.inodes := rfl
  generalize sys.setTable f { T with pwd := (sys.table f).pwd } = sys₁ at hone hinodes ⊢
  rw [hfile] at hone
  rw [if_pos rfl, closeNode, ends_bind]
  apply onFiles_load
  rw [hone.same, ends_bind]
  have huse : Ends checked (onFiles f (Fs.useNode ((sys.table f).fdArray s).node))
      sys₁ fun a sys₂ =>
      a = node ∧ sys₂ = sys₁ := by
    apply onFiles_checked
    rw [Fs.ends_useNode hnode]
    exact ⟨rfl, setTable_self⟩
  apply huse.imp
  rintro _ _ ⟨rfl, rfl⟩
  rw [ends_bind]
  apply onInodes_checked
  rw [hinodes]
  have hopen := h.openers_pos hf hholds
  apply (vfsClose_kept h.sound hopen fun dev hdev => h.device_more hopen hdev).imp
  rintro _ inodes ⟨hkept, hcounts⟩
  apply onFiles_checked
  apply Fs.fdArrayFreed_frees.imp
  rintro _ T' ⟨honly, hfile⟩
  have hlast := (hone.of_inodes inodes).trans (OneSlot.of_only honly)
  rw [hfile] at hlast
  refine ⟨h.lose hlast hf hkept hcounts ⟨nofun, ?_, nofun⟩ hholds (holds_none nofun), hone.heap⟩
  exact congrArg Fs.File.openCount hone.same

theorem closeFrom_balanced (slots : List Slot) (h : Balanced calm held sys)
    (hf : f ∈ sys.filesHeap) :
    Ends checked (closeFrom f slots) sys fun _ sys' => Balanced calm held sys' ∧
      sys'.filesHeap = sys.filesHeap := by
  induction slots generalizing sys with
  | nil => exact ⟨h, rfl⟩
  | cons s rest ih =>
      rw [closeFrom, ends_bind]
      apply onFiles_load
      split
      · next hopened =>
        rw [ends_bind]
        apply (fdArrayClose_balanced h hf hopened).imp
        rintro _ sys₁ ⟨h₁, hheap⟩
        exact (ih h₁ (hheap ▸ hf)).imp fun _ _ hdone => ⟨hdone.1, hdone.2.trans hheap⟩
      · exact ih h hf

theorem filesCloseall_balanced (h : Balanced calm held sys) (hf : f ∈ sys.filesHeap) :
    Ends checked (filesCloseall f) sys fun _ sys' => Balanced calm held sys' ∧
      sys'.filesHeap = sys.filesHeap := by
  rw [filesCloseall, ends_bind, ends_get, ends_bind]
  exact Ends.check_or (Or.inr nofun) fun _ => closeFrom_balanced _ h hf

theorem fileClose_balanced {fd : Int} (h : Balanced calm held sys)
    (hfilesp : (sys.proc current).filesp = some f) (hf : f ∈ sys.filesHeap) :
    Ends checked (fileClose current fd) sys fun _ sys' => Balanced calm held sys' := by
  rw [fileClose, ends_bind]
  apply filespOf_checked hfilesp
  rw [ends_bind]
  apply onFiles_checked
  apply (Fs.fd2file_opened fd _).imp
  rintro slot _ ⟨rfl, hopened⟩
  have hself : sys.setTable f { (sys.table f).toFiles with pwd := (sys.table f).pwd } = sys :=
    setTable_self
  rw [hself]
  cases slot with
  | error ret => exact h
  | ok s =>
      change Ends checked (fdArrayClose f s >>= _) sys _
      rw [ends_bind]
      exact (fdArrayClose_balanced h hf (hopened s rfl)).imp fun _ _ hdone => hdone.1

/-! ## Duplicating -/

/-- `fd_array_dup` of an open slot to one that has been claimed. -/
theorem fdArrayDup_balanced {source : File} (h : Balanced calm held sys) (hf : f ∈ sys.filesHeap)
    (hstatus : ((sys.table f).fdArray s).status = .fdInit) (hnode : source.node = some node)
    (hopen : 0 < sys.inodes.opens node) :
    Ends checked (fdArrayDup f s source) sys fun _ sys' => Balanced calm held sys' ∧
      sys'.filesHeap = sys.filesHeap ∧ ∀ r, r ≠ s →
        (sys'.table f).fdArray r = (sys.table f).fdArray r := by
  have hle := h.sound.opens_le_refs node
  have hclosed : ((sys.table f).fdArray s).status ≠ .fdOpened := by
    rw [hstatus]
    decide
  have hcount : ((sys.table f).fdArray s).openCount = 0 := by
    rw [(h.slot f hf s).openCount, if_neg hclosed]
  have huse : Ends checked (onFiles f (Fs.useNode source.node)) sys fun a sys₁ => a = node ∧
      sys₁ = sys := by
    apply onFiles_checked
    rw [Fs.ends_useNode hnode]
    exact ⟨rfl, setTable_self⟩
  rw [fdArrayDup, ends_bind]
  apply huse.imp
  rintro a sys₁ ⟨ha, hsame⟩
  rw [ha, hsame, ends_bind]
  apply onInodes_checked
  apply (inodeRefInc_kept h.sound (hopen.trans_le hle)).imp
  rintro _ inodes₁ ⟨hkept₁, hcounts₁, _⟩
  obtain ⟨hrefs₁, hopens₁⟩ := Prod.mk.inj hcounts₁
  rw [ends_bind]
  apply onInodes_checked
  have hlt : inodes₁.opens node < inodes₁.refs node := by
    rw [hrefs₁, hopens₁, Fs.Inode.give_same]
    exact Nat.lt_succ_of_le hle
  apply (inodeOpenInc_kept hkept₁.sound hlt).imp
  rintro _ inodes₂ ⟨hkept₂, hcounts₂⟩
  rw [hrefs₁, hopens₁] at hcounts₂
  apply onFiles_checked
  apply (Fs.fdArrayDup_opens hnode).imp
  intro _ T hopens
  have honly : Fs.Files.Only s (sys.table f).toFiles T := hopens.only
  have hone := (OneSlot.of_only honly).of_inodes inodes₂
  refine ⟨h.gain hone hf (hkept₁.trans hkept₂) hcounts₂ ?_ (holds_none hclosed) ?_, rfl, ?_⟩
  · refine ⟨?_, ?_, fun _ => ⟨node, hopens.node⟩⟩
    · rw [hopens.status]
      decide
    · rw [if_pos hopens.status, hopens.openCount]
      exact congrArg (· + 1) hcount
  · rw [File.holds, if_pos hopens.status, hopens.node]
  · exact fun r hr => hone.other f r fun heq => hr (Prod.mk.inj heq).2

/-- The slot `s` of the table `f` is set. -/
def Sys.setFile (sys : Sys) (f : Filesp) (s : Slot) (file : File) : Sys :=
  sys.setTable f { (sys.table f).toFiles.setFile s file with pwd := (sys.table f).pwd }

@[simp] theorem setFile_same : ((sys.setFile f s file).table f).fdArray s = file := by
  simp [Sys.setFile, Sys.setTable]

theorem setFile_other {r : Slot} (hr : r ≠ s) :
    ((sys.setFile f s file).table f).fdArray r = (sys.table f).fdArray r := by
  simp [Sys.setFile, Sys.setTable, Fs.Files.setFile, hr]

/-- A slot that is not open is claimed, or freed again. -/
theorem claim_balanced (h : Balanced calm held sys) (hf : f ∈ sys.filesHeap)
    (hfree : ((sys.table f).fdArray s).status ≠ .fdOpened)
    (hcount : file.openCount = ((sys.table f).fdArray s).openCount)
    (hfd : file.fd = ((sys.table f).fdArray s).fd)
    (hclosed : file.status ≠ .fdClosed) (hopened : file.status ≠ .fdOpened) :
    Balanced calm held (sys.setFile f s file) := by
  refine h.idle (OneSlot.of_only (Fs.Files.only_setFile hfd)) hf rfl ?_ ?_
  · rw [Fs.Files.setFile_fdArray]
    refine ⟨hclosed, ?_, fun hopen => absurd hopen hopened⟩
    rw [hcount, (h.slot f hf s).openCount, if_neg hfree, if_neg hopened]
  · rw [Fs.Files.setFile_fdArray, holds_none hopened, holds_none hfree]

theorem fileDup_balanced {fd1 fd2 : Int} (h : Balanced calm held sys)
    (hfilesp : (sys.proc current).filesp = some f) (hf : f ∈ sys.filesHeap) :
    Ends checked (fileDup current fd1 fd2) sys fun _ sys' => Balanced calm held sys' := by
  rw [fileDup, ends_bind]
  apply filespOf_checked hfilesp
  rw [ends_bind]
  apply onFiles_checked
  apply (Fs.fd2file_opened fd1 _).imp
  rintro slot _ ⟨rfl, hopened⟩
  have hself : sys.setTable f { (sys.table f).toFiles with pwd := (sys.table f).pwd } = sys :=
    setTable_self
  rw [hself]
  cases slot with
  | error ret => exact h
  | ok s1 =>
      have hopened : ((sys.table f).fdArray s1).status = .fdOpened := hopened s1 rfl
      change Ends checked (onFiles f (Fs.fdArrayAlloc fd2) >>= _) sys _
      rw [ends_bind]
      apply onFiles_checked
      apply (Fs.fdArrayAlloc_found fd2 _).imp
      intro slot T halloc
      cases slot with
      | error ret =>
          obtain rfl : T = (sys.table f).toFiles := halloc
          rw [hself]
          exact h
      | ok s2 =>
          obtain ⟨hfree, rfl⟩ := halloc
          have hnotOpen : ((sys.table f).fdArray s2).status ≠ .fdOpened := by
            rw [hfree]
            decide
          have hne : s1 ≠ s2 := fun heq => hnotOpen (heq ▸ hopened)
          have h₁ : Balanced calm held (sys.setFile f s2
              { (sys.table f).fdArray s2 with status := .fdInit, node := none }) :=
            claim_balanced h hf hnotOpen rfl rfl nofun nofun
          have hinit : ((sys.setFile f s2 { (sys.table f).fdArray s2 with
              status := .fdInit, node := none }).table f).fdArray s2 =
                { (sys.table f).fdArray s2 with status := .fdInit, node := none } := setFile_same
          have hsource : ((sys.setFile f s2 { (sys.table f).fdArray s2 with
              status := .fdInit, node := none }).table f).fdArray s1 = (sys.table f).fdArray s1 :=
            setFile_other hne
          have hf₁ : f ∈ (sys.setFile f s2 { (sys.table f).fdArray s2 with
              status := .fdInit, node := none }).filesHeap := hf
          change Ends checked (onFiles f (Fs.load s1) >>= _) (sys.setFile f s2
            { (sys.table f).fdArray s2 with status := .fdInit, node := none }) _
          generalize sys.setFile f s2
            { (sys.table f).fdArray s2 with status := .fdInit, node := none } = sys₁
            at h₁ hinit hsource hf₁ ⊢
          obtain ⟨node, hnode, hholds, _⟩ := (h.slot f hf s1).holds hopened
          have hstatus : ((sys₁.table f).fdArray s2).status = .fdInit :=
            congrArg Fs.File.status hinit
          rw [ends_bind]
          apply onFiles_load
          rw [ends_bind, hsource]
          apply (fdArrayDup_balanced h₁ hf₁ hstatus hnode
            (h₁.openers_pos hf₁ (hsource ▸ hholds))).imp
          rintro _ sys₂ ⟨h₂, _⟩
          rw [ends_bind]
          exact onFiles_load h₂

/-! ## Opening -/

/-- `file_open` from the setting of `file->node` on, of an inode that `vfs_open` has opened. -/
theorem fileOpened_balanced {inodes : Inodes} {access : Bool × Bool} {pos : Int} {sys₀ : Sys}
    (h : Balanced calm held sys₀) (hf : f ∈ sys₀.filesHeap)
    (hkept : Kept (anyInode calm) sys₀.inodes inodes)
    (hcounts : inodes.counts = (give sys₀.inodes.refs node, give sys₀.inodes.opens node))
    (hstatus : ((sys₀.table f).fdArray s).status = .fdInit)
    (hsame : sys = { sys₀ with inodes := inodes }) :
    Ends checked (fileOpened f s node access pos) sys fun opened sys' =>
      (∃ fd, opened = .ok fd) ∧ Balanced calm held sys' := by
  have hclosed : ((sys₀.table f).fdArray s).status ≠ .fdOpened := by
    rw [hstatus]
    decide
  have hcount : ((sys₀.table f).fdArray s).openCount = 0 := by
    rw [(h.slot f hf s).openCount, if_neg hclosed]
  have hopen : Ends (fun _ => True) (do
      Fs.store s { (sys.table f).fdArray s with
        pos := pos, node := some node, readable := access.1, writable := access.2 }
      Fs.fdArrayOpen s) (sys.table f).toFiles fun _ T => Fs.Opens (sys.table f).toFiles s node T :=
    Fs.store_opens rfl rfl rfl
  rw [fileOpened]
  apply onFiles_checked
  rw [ends_bind, Fs.ends_load]
  rw [ends_bind] at hopen ⊢
  apply hopen.imp
  intro _ T hopen
  rw [ends_bind]
  apply hopen.imp
  intro _ T' hopens
  refine ⟨⟨_, rfl⟩, ?_⟩
  subst hsame
  have honly : Fs.Files.Only s (sys₀.table f).toFiles T' := hopens.only
  have hone := (OneSlot.of_only honly).of_inodes inodes
  refine h.gain hone hf hkept hcounts ?_ (holds_none hclosed) ?_
  · refine ⟨?_, ?_, fun _ => ⟨node, hopens.node⟩⟩
    · rw [hopens.status]
      decide
    · rw [if_pos hopens.status, hopens.openCount]
      exact congrArg (· + 1) hcount
  · rw [File.holds, if_pos hopens.status, hopens.node]

/-- `file_open`. Where it fails, `vfs_open` may leave the reference of its lookup. -/
theorem fileOpen_balanced {path : Str} {openFlags : BitVec 32} (h : Balanced calm held sys)
    (hfilesp : (sys.proc current).filesp = some f) (hf : f ∈ sys.filesHeap) (hheld : f ∈ held) :
    Ends checked (fileOpen current path openFlags) sys fun opened sys' =>
      ((∃ fd, opened = .ok fd) ∨ ¬ Exclusive openFlags) → Balanced calm held sys' := by
  unfold fileOpen
  split
  · exact fun _ => h
  rw [ends_bind]
  apply filespOf_checked hfilesp
  rw [ends_bind]
  apply onFiles_checked
  apply (Fs.fdArrayAlloc_found Fs.NO_FD _).imp
  intro slot T halloc
  cases slot with
  | error ret =>
      obtain rfl : T = (sys.table f).toFiles := halloc
      have hself : sys.setTable f { (sys.table f).toFiles with pwd := (sys.table f).pwd } = sys :=
        setTable_self
      rw [hself]
      exact fun _ => h
  | ok s =>
      obtain ⟨hfree, rfl⟩ := halloc
      have hnotOpen : ((sys.table f).fdArray s).status ≠ .fdOpened := by
        rw [hfree]
        decide
      have h₁ : Balanced calm held
          (sys.setFile f s { (sys.table f).fdArray s with status := .fdInit, node := none }) :=
        claim_balanced h hf hnotOpen rfl rfl nofun nofun
      have hinit : ((sys.setFile f s
          { (sys.table f).fdArray s with status := .fdInit, node := none }).table f).fdArray s =
            { (sys.table f).fdArray s with status := .fdInit, node := none } := setFile_same
      have hf₁ : f ∈ (sys.setFile f s
          { (sys.table f).fdArray s with status := .fdInit, node := none }).filesHeap := hf
      change Ends checked (get >>= _) (sys.setFile f s
        { (sys.table f).fdArray s with status := .fdInit, node := none }) _
      generalize sys.setFile f s { (sys.table f).fdArray s with status := .fdInit, node := none } =
        sys₁
        at h₁ hinit hf₁ ⊢
      have hstatus : ((sys₁.table f).fdArray s).status = .fdInit := congrArg Fs.File.status hinit
      rw [ends_bind, ends_get, ends_bind]
      apply onInodes_checked
      apply ((vfsOpen_kept h₁.sound (h₁.rooted hheld)).and vfsOpen_opened).imp
      rintro opened inodes ⟨hkept, hopened⟩
      cases opened with
      | error ret =>
          change Ends checked (fdArrayFree f s >>= _) _ _
          rw [ends_bind]
          have hstatus₂ : ((({ sys₁ with inodes := inodes } : Sys).table f).fdArray s).status =
              .fdInit := hstatus
          apply (fdArrayFree_init checked_files hstatus₂).imp
          rintro _ _ rfl hsuccess
          have hclean : ¬ Exclusive openFlags :=
            hsuccess.resolve_left fun hok => nomatch hok.choose_spec
          obtain ⟨hrefs, hopens⟩ := Prod.mk.inj (hopened hclean)
          -- the inodes, and then the slot
          have h₂ : Balanced calm held { sys₁ with inodes := inodes } := by
            refine h₁.dwell ⟨rfl, fun _ => rfl⟩ hkept hopens (fun n => ?_) fun g hg n hn =>
              Or.inl (h₁.pwd g hg n hn)
            change inodes.refs n + sys₁.dwellers held n = sys₁.inodes.refs n + sys₁.dwellers held n
            rw [hrefs]
          exact claim_balanced h₂ hf₁ (by simp [hstatus]) rfl rfl nofun nofun
      | ok node =>
          have hdone : ∀ {access pos}, Ends checked (fileOpened f s node access pos)
              { sys₁ with inodes := inodes }
              fun opened sys' => ((∃ fd, opened = .ok fd) ∨ ¬ Exclusive openFlags) →
                Balanced calm held sys' :=
            (fileOpened_balanced h₁ hf₁ hkept hopened hstatus rfl).imp fun _ _ hdone _ => hdone.2
          change Ends checked (if _ then _ else _) _ _
          split
          · rw [ends_bind]
            apply onInodes_checked
            have hheldNode : 0 < inodes.refs node := by
              have hrefs : inodes.refs = give sys₁.inodes.refs node := congrArg Prod.fst hopened
              rw [hrefs, Fs.Inode.give_same]
              exact Nat.succ_pos _
            apply (vopFstat_checked hkept.sound hheldNode).imp
            rintro size _ rfl
            exact hdone
          · exact hdone

/-! ## The current directory -/

theorem chdir_balanced {path : Str} (h : Balanced calm held sys)
    (hfilesp : (sys.proc current).filesp = some f) (hheld : f ∈ held) :
    Ends checked (chdir current path) sys fun _ sys' => Balanced calm held sys' := by
  rw [chdir, ends_bind]
  apply filespOf_checked hfilesp
  rw [ends_bind, ends_get, ends_bind]
  apply onInodes_checked
  apply (vfsChdir_kept h.sound (h.rooted hheld) fun n hn => h.open_lt hheld hn).imp
  rintro changed inodes ⟨hkept, hmoved⟩
  rw [ends_bind, ends_modify, ends_pure]
  change Balanced calm held { sys.setPwd f changed.2 with inodes := inodes }
  rcases hmoved with ⟨hstay, hcounts⟩ | ⟨dir, hdir, _, hsin, hcounts⟩
  · obtain ⟨hrefs, hopens⟩ := Prod.mk.inj hcounts
    refine h.setPwd hheld hkept hopens ?_ fun n hn => Or.inl (h.pwd f hheld n (hstay ▸ hn))
    intro n
    rw [hrefs, hstay]
  · obtain ⟨hrefs, hopens⟩ := Prod.mk.inj hcounts
    refine h.setPwd hheld hkept hopens ?_ ?_
    · intro n
      rw [hrefs, hdir]
      exact movedRefs_apply fun old hold => ((h.rooted hheld).pwd old hold).1
    · intro n hn
      obtain rfl := Option.some.inj (hdir.symm.trans hn)
      exact Or.inr hsin

end Ucore.Vfs
