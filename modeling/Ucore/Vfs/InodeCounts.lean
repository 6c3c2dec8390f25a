import Ucore.Vfs.Lookup
import Ucore.Vfs.TableCounts

/-!
# The counts of inodes over whole runs

In every state that processes reach, the counts of every inode are the numbers of those who
hold it. So an inode stays as long as it has a user, and goes with the last one.
-/

namespace Ucore.Vfs

open Machine
open Fs (File FilesM Slot Status)

variable {sys sys₀ sys' : Sys} {f g : Filesp} {node : Node} {calm : Prop}
  {current p : Nat} {q : Proc}

/-! ## Tables in use -/

theorem setProc_same : (sys.setProc p q).proc p = q := by
  simp [Sys.setProc]

theorem setProc_other (hne : current ≠ p) : (sys.setProc p q).proc current = sys.proc current := by
  simp [Sys.setProc, hne]

/-- A table that a process uses is there, and is counted by every process that uses it. A process
without memory that has exited may still be counted. -/
structure Covered (h : Shape) : Prop where
  counted : ∀ f ∈ h.filesHeap, (users h.procs h.proc f).card ≤ h.filesCount f
  used : ∀ f, (users h.procs h.proc f).Nonempty → f ∈ h.filesHeap

theorem Accounted.covered {h : Shape} (hacc : Accounted h) : Covered h where
  counted _ hf := Nat.le_of_eq (hacc.count_eq hf).symm
  used f hused := (hacc.used f).mpr hused

namespace Covered

variable {h h' : Shape}

/-- Users may leave, the tables stay. -/
theorem of_subset (hcov : Covered h) (hheap : h'.filesHeap = h.filesHeap)
    (hcount : h'.filesCount = h.filesCount)
    (husers : ∀ f, users h'.procs h'.proc f ⊆ users h.procs h.proc f) : Covered h' where
  counted f hf := by
    rw [hcount]
    exact (Finset.card_le_card (husers f)).trans (hcov.counted f (hheap ▸ hf))
  used f hused := by
    rw [hheap]
    exact hcov.used f (hused.mono (husers f))

theorem mem_heap (hcov : Covered sys.shape) (hp : p ∈ sys.procs)
    (hzombie : (sys.proc p).zombie = false)
    (hfilesp : (sys.proc p).filesp = some f) : f ∈ sys.filesHeap :=
  hcov.used f ⟨p, mem_users.mpr ⟨hp, hzombie, hfilesp⟩⟩

/-- A process joins the users of a table. -/
theorem join (hcov : Covered h) (hp : p ∉ h.procs) (hzombie : q.zombie = false)
    (hfilesp : q.filesp = some f) (hf : f ∈ h.filesHeap) : Covered (h.join p q f) := by
  have husers : ∀ g, users (insert p h.procs) (Function.update h.proc p q) g =
      if g = f then insert p (users h.procs h.proc g) else users h.procs h.proc g :=
    users_insert hp hzombie hfilesp
  refine ⟨?_, ?_⟩
  · intro g hg
    change (users (insert p h.procs) (Function.update h.proc p q) g).card ≤
      Function.update h.filesCount f _ g
    rw [husers]
    split
    · next hgf =>
      subst hgf
      rw [Function.update_self]
      exact (Finset.card_insert_le _ _).trans (Nat.succ_le_succ (hcov.counted g hg))
    · next hgf =>
      rw [Function.update_of_ne hgf]
      exact hcov.counted g hg
  · intro g hused
    change (users (insert p h.procs) (Function.update h.proc p q) g).Nonempty at hused
    rw [husers] at hused
    split at hused
    · next hgf => exact hgf ▸ hf
    · exact hcov.used g hused

/-- A new table has no users yet. -/
theorem create (hcov : Covered h) (hnew : f ∉ h.filesHeap) : Covered (h.create f) := by
  refine ⟨?_, fun g hused => Finset.mem_insert_of_mem (hcov.used g hused)⟩
  intro g hg
  change (users h.procs h.proc g).card ≤ Function.update h.filesCount f 0 g
  rcases Finset.mem_insert.mp hg with rfl | hg
  · have hempty : users h.procs h.proc g = ∅ := by
      by_contra hne
      exact hnew (hcov.used g (Finset.nonempty_iff_ne_empty.mpr hne))
    rw [hempty]
    exact Nat.zero_le _
  · have hgf : g ≠ f := ne_of_mem_of_not_mem hg hnew
    rw [Function.update_of_ne hgf]
    exact hcov.counted g hg

/-- A process gives its table back and exits. -/
theorem exit (hcov : Covered h) (hp : p ∈ users h.procs h.proc f) (hzombie : q.zombie = true) :
    Covered { h.put f with proc := Function.update h.proc p q } := by
  have husers : ∀ g, users h.procs (Function.update h.proc p q) g =
      (users h.procs h.proc g).erase p :=
    users_exit hzombie
  have hf : f ∈ h.filesHeap := hcov.used f ⟨p, hp⟩
  have hle := hcov.counted f hf
  have hcard := Finset.card_erase_add_one hp
  have hother : ∀ g, (users h.procs (Function.update h.proc p q) g).card ≤
      (users h.procs h.proc g).card := by
    intro g
    rw [husers]
    exact Finset.card_le_card (Finset.erase_subset _ _)
  unfold Shape.put
  split
  · next hlast =>
    have hempty : users h.procs (Function.update h.proc p q) f = ∅ := by
      rw [husers]
      exact Finset.card_eq_zero.mp (by omega)
    refine ⟨?_, ?_⟩
    · intro g hg
      obtain ⟨hgf, hg⟩ := Finset.mem_erase.mp hg
      change _ ≤ Function.update h.filesCount f 0 g
      rw [Function.update_of_ne hgf]
      exact (hother g).trans (hcov.counted g hg)
    · intro g hused
      have hgf : g ≠ f := by
        rintro rfl
        exact Finset.not_nonempty_empty (hempty ▸ hused)
      refine Finset.mem_erase_of_ne_of_mem hgf (hcov.used g ?_)
      exact Finset.card_pos.mp ((Finset.card_pos.mpr hused).trans_le (hother g))
  · refine ⟨?_, ?_⟩
    · intro g hg
      change _ ≤ Function.update h.filesCount f _ g
      by_cases hgf : g = f
      · subst hgf
        change (users h.procs (Function.update h.proc p q) g).card ≤ _
        rw [Function.update_self, husers]
        omega
      · rw [Function.update_of_ne hgf]
        exact (hother g).trans (hcov.counted g hg)
    · intro g hused
      exact hcov.used g (Finset.card_pos.mp ((Finset.card_pos.mpr hused).trans_le (hother g)))

theorem setProc (hcov : Covered sys.shape) (hfilesp : q.filesp = (sys.proc p).filesp)
    (hzombie : q.zombie = (sys.proc p).zombie) : Covered (sys.setProc p q).shape :=
  hcov.of_subset rfl rfl fun f => (users_update_same hfilesp hzombie f).subset

end Covered

theorem createProc_covered {cloneFs : Bool} {memory : Slot → File} {mm : Option Nat}
    (hcov : Covered sys.shape)
    (hcurrent : current ∈ sys.procs) (hzombie : (sys.proc current).zombie = false)
    (hp : p ∉ sys.procs) :
    Ends halted (createProc current p cloneFs memory mm) sys fun _ t => Covered t.shape := by
  have hne : current ≠ p := ne_of_mem_of_not_mem hcurrent hp
  have hself : (sys.setProc p ⟨none, mm, false⟩).proc p = ⟨none, mm, false⟩ := setProc_same
  have hother : (sys.setProc p ⟨none, mm, false⟩).proc current = sys.proc current :=
    setProc_other hne
  have htwice : ∀ f, Function.update (sys.setProc p ⟨none, mm, false⟩).proc p ⟨some f, mm, false⟩ =
      Function.update sys.proc p ⟨some f, mm, false⟩ := fun _ => Function.update_idem ..
  rw [createProc, ends_bind, ends_modify, ends_bind]
  apply (copyFiles_shape cloneFs memory).imp
  intro ret t hcopy
  split at hcopy
  · next hret =>
    obtain ⟨f, h, htable, ht⟩ := hcopy
    rw [if_pos hret]
    change Covered { t.shape with procs := insert p t.shape.procs }
    rw [ht, hself, htwice]
    rw [hother] at htable
    obtain ⟨hold, rfl⟩ | ⟨hnew, rfl⟩ := htable
    · exact hcov.join hp rfl rfl (hcov.mem_heap hcurrent hzombie hold)
    · exact (hcov.create hnew).join hp rfl rfl (Finset.mem_insert_self f _)
  · next hret =>
    rw [if_neg hret]
    change Covered t.shape
    rw [hcopy]
    exact hcov.of_subset rfl rfl fun f => (users_update_out hp _ f).subset

theorem doExit_covered (hcov : Covered sys.shape) (hp : p ∈ sys.procs)
    (hzombie : (sys.proc p).zombie = false) :
    Ends halted (doExit p) sys fun _ t => Covered t.shape := by
  rw [doExit, ends_bind, ends_get, ends_bind, ends_check_of trivial]
  intro _
  rw [ends_bind, ends_check_of trivial]
  intro _
  split
  · rw [ends_bind, ends_modify, ends_bind]
    have hself : (sys.setProc p { sys.proc p with mm := none }).proc p =
        { sys.proc p with mm := none } :=
      setProc_same
    have hcov₁ : Covered (sys.setProc p { sys.proc p with mm := none }).shape :=
      hcov.setProc rfl rfl
    have hp₁ : p ∈ (sys.setProc p { sys.proc p with mm := none }).procs := hp
    generalize sys.setProc p { sys.proc p with mm := none } = sys₁ at hself hcov₁ hp₁ ⊢
    have hzombie₁ : (sys₁.proc p).zombie = false := by
      rw [hself]
      exact hzombie
    apply putFiles_shape.imp
    intro _ t hput
    rw [ends_modify, setProc_shape]
    cases hfilesp : (sys₁.proc p).filesp with
    | none =>
        rw [hfilesp] at hput
        rw [hput]
        refine hcov₁.of_subset rfl rfl fun f => ?_
        exact (users_exit rfl f).subset.trans (Finset.erase_subset _ _)
    | some f =>
        rw [hfilesp] at hput
        have hput : t.shape = sys₁.shape.put f := hput
        have hproc : t.shape.proc = sys₁.proc := by
          rw [hput, Shape.put]
          split <;> rfl
        rw [hproc, hput]
        exact hcov₁.exit (mem_users.mpr ⟨hp₁, hzombie₁, hfilesp⟩) rfl
  · refine hcov.of_subset rfl rfl fun f => ?_
    exact (users_exit rfl f).subset.trans (Finset.erase_subset _ _)

/-- A step keeps the tables covered. -/
theorem Covered.of_step {a : Action} (hcov : Covered sys.shape) (hok : Permitted sys a)
    (hstep : step sys a = some sys') : Covered sys'.shape := by
  have hkept : ∀ {x : SysM Int}, Keeps Sys.shape x → exec x sys = some sys' →
      Covered sys'.shape := by
    intro x hx hexec
    obtain ⟨_, hshape⟩ := (hx sys).of_exec hexec
    exact hshape ▸ hcov
  cases a with
  | create current p cloneFs memory mm =>
      exact ((createProc_covered hcov hok.1 hok.2.1 hok.2.2).of_exec hstep).elim fun _ h => h
  | execve current args =>
      have hends : Ends halted (Action.execve current args).code sys fun _ t =>
          Covered t.shape := by
        change Ends halted (doExecve current args >>= _) _ _
        rw [ends_bind, doExecve, ends_bind]
        apply (execve_shape args).imp
        rintro ret t ⟨mm, ht⟩
        have hcov₁ : Covered t.shape := by
          rw [ht]
          exact hcov.setProc rfl rfl
        have hproc : t.proc = Function.update sys.proc current { sys.proc current with mm := mm } :=
          congrArg Shape.proc ht
        have hprocs : t.procs = sys.procs := congrArg Shape.procs ht
        split
        · rw [ends_bind]
          refine doExit_covered hcov₁ (hprocs ▸ hok.1) ?_
          rw [hproc, Function.update_self]
          exact hok.2
        · exact hcov₁
      exact (hends.of_exec hstep).elim fun _ h => h
  | exit current =>
      have hends : Ends halted (Action.exit current).code sys fun _ t => Covered t.shape := by
        change Ends halted (doExit current >>= _) _ _
        rw [ends_bind]
        exact doExit_covered hcov hok.1 hok.2
      exact (hends.of_exec hstep).elim fun _ h => h
  | reap p =>
      obtain rfl := Option.some.inj hstep
      refine hcov.of_subset rfl rfl fun f => ?_
      exact Finset.filter_subset_filter _ (Finset.erase_subset _ _)
  | fileOpen current path openFlags =>
      exact hkept ((fileOpen_shape path openFlags).bind fun _ => keeps_pure _) hstep
  | fileClose current fd => exact hkept (fileClose_shape fd) hstep
  | fileDup current fd1 fd2 => exact hkept (fileDup_shape fd1 fd2) hstep
  | chdir current path => exact hkept (chdir_shape path) hstep

/-! ## What processes do -/

namespace Balanced

variable {held : Finset Filesp}

theorem setProc (h : Balanced calm held sys) : Balanced calm held (sys.setProc p q) :=
  h.congr ⟨rfl, fun _ => rfl⟩ rfl fun _ _ => rfl

theorem setCount (h : Balanced calm held sys) (k : Nat) :
    Balanced calm held (sys.setTable f { sys.table f with filesCount := k }) := by
  refine h.congr ⟨rfl, fun g => ?_⟩ rfl fun g _ => ?_
  · by_cases hg : g = f
    · subst hg
      simp [Sys.setTable]
    · simp [Sys.setTable, hg]
  · by_cases hg : g = f
    · subst hg
      simp [Sys.setTable]
    · simp [Sys.setTable, hg]

end Balanced

theorem filesCountInc_balanced (h : Balanced calm sys.filesHeap sys) :
    Ends checked (filesCountInc f) sys fun _ sys' => Balanced calm sys'.filesHeap sys' := by
  rw [filesCountInc]
  apply onFiles_checked
  exact h.setCount _

theorem copyFiles_balanced {cloneFs : Bool} {memory : Slot → File}
    (h : Balanced calm sys.filesHeap sys)
    (hold : ∀ f, (sys.proc current).filesp = some f → f ∈ sys.filesHeap) :
    Ends checked (copyFiles current p cloneFs memory) sys fun _ sys' =>
      Balanced calm sys'.filesHeap sys' := by
  rw [copyFiles, ends_bind, ends_get]
  split
  · intro hno
    cases hno
  next old hfilesp =>
  have hin := hold old hfilesp
  split
  · rw [ends_bind]
    apply (filesCountInc_balanced h).imp
    exact fun _ _ h₁ => h₁.setProc
  rw [ends_bind]
  apply (filesCreate_balanced memory h).imp
  rintro created sys₁ ⟨h₁, hcreated⟩
  cases created with
  | none => exact h₁
  | some f =>
      have hnew : NewTable sys f sys₁ := hcreated
      have hclosed : ∀ s, ((sys₁.table f).fdArray s).status ≠ .fdOpened := by
        intro s
        rw [hnew.slot]
        decide
      have htarget : f ∈ sys₁.filesHeap := by
        rw [hnew.heap]
        exact Finset.mem_insert_self f _
      have hsource : old ∈ sys₁.filesHeap := by
        rw [hnew.heap]
        exact Finset.mem_insert_of_mem hin
      change Ends checked (dupFiles f old >>= _) sys₁ _
      rw [ends_bind]
      apply (dupFiles_balanced h₁ htarget hsource hnew.pwd hclosed).imp
      intro _ sys₂ h₂
      rw [ends_bind]
      apply (filesCountInc_balanced h₂).imp
      exact fun _ _ h₃ => h₃.setProc

theorem putFiles_balanced (h : Balanced calm sys.filesHeap sys)
    (hold : ∀ f, (sys.proc current).filesp = some f → f ∈ sys.filesHeap) :
    Ends checked (putFiles current) sys fun _ sys' => Balanced calm sys'.filesHeap sys' := by
  rw [putFiles, ends_bind, ends_get]
  split
  · exact h
  next f hfilesp =>
  have hdec : Ends checked (filesCountDec f) sys fun _ sys₁ => Balanced calm sys₁.filesHeap sys₁ ∧
      sys₁.filesHeap = sys.filesHeap := by
    rw [filesCountDec, ends_bind, ends_get, ends_bind]
    apply onFiles_checked
    exact ⟨h.setCount _, rfl⟩
  rw [ends_bind]
  apply hdec.imp
  rintro count sys₁ ⟨h₁, hheap⟩
  split
  · exact filesDestroy_balanced h₁ (hheap ▸ hold f hfilesp)
  · exact h₁

theorem doExit_balanced (h : Balanced calm sys.filesHeap sys)
    (hold : ∀ f, (sys.proc current).filesp = some f → f ∈ sys.filesHeap) :
    Ends checked (doExit current) sys fun _ sys' => Balanced calm sys'.filesHeap sys' := by
  rw [doExit, ends_bind, ends_get, ends_bind]
  refine Ends.check_or (Or.inr fun hno => by cases hno) fun _ => ?_
  rw [ends_bind]
  refine Ends.check_or (Or.inr fun hno => by cases hno) fun _ => ?_
  split
  · rw [ends_bind, ends_modify, ends_bind]
    have hfilesp : ∀ f,
        ((sys.setProc current { sys.proc current with mm := none }).proc current).filesp = some f →
        f ∈ sys.filesHeap := by
      intro f hf
      rw [setProc_same] at hf
      exact hold f hf
    have h₁ :
        Balanced calm sys.filesHeap (sys.setProc current { sys.proc current with mm := none }) :=
        h.setProc
    exact (putFiles_balanced h₁ hfilesp).imp fun _ _ h₂ => h₂.setProc
  · exact h.setProc

theorem execve_balanced {args : Exec} (h : Balanced calm sys.filesHeap sys)
    (hold : ∀ f, (sys.proc current).filesp = some f → f ∈ sys.filesHeap) :
    Ends checked (execve current args) sys fun _ sys' => Balanced calm sys'.filesHeap sys' := by
  rw [execve]
  split
  · exact h
  split
  · exact h
  split
  · exact h
  rw [ends_bind]
  cases hfilesp : (sys.proc current).filesp with
  | none =>
      rw [filespOf, ends_bind, ends_get, hfilesp]
      intro hno
      cases hno
  | some f =>
      apply filespOf_checked hfilesp
      have hf := hold f hfilesp
      rw [ends_bind]
      apply ((filesCloseall_balanced h hf).and (filesCloseall_shape sys)).imp
      rintro _ sys₁ ⟨⟨h₁, hheap₁⟩, hshape₁⟩
      have hproc₁ : sys₁.proc = sys.proc := congrArg Shape.proc hshape₁
      have hf₁ : f ∈ sys₁.filesHeap := hheap₁ ▸ hf
      have hopen : Ends checked (sysfileOpen current args.path Fs.O_RDONLY) sys₁ fun _ sys' =>
          Balanced calm sys'.filesHeap sys' := by
        unfold sysfileOpen
        split
        · rw [← hheap₁] at h₁
          exact h₁
        · rw [ends_bind]
          apply ((fileOpen_balanced h₁ (hproc₁ ▸ hfilesp) hf₁ hf).and (fileOpen_shape _ _ sys₁)).imp
          rintro opened sys₂ ⟨hopened, hshape₂⟩
          have hheap₂ : sys₂.filesHeap = sys₁.filesHeap := congrArg Shape.filesHeap hshape₂
          have hclean : ¬ Exclusive Fs.O_RDONLY := by decide
          have h₂ := hopened (Or.inr hclean)
          rw [← hheap₁, ← hheap₂] at h₂
          exact h₂
      rw [ends_bind]
      apply hopen.imp
      intro ret sys₂ h₂
      split
      · exact h₂
      rw [ends_bind, ends_modify]
      have h₃ : ∀ {q}, Balanced calm sys₂.filesHeap (sys₂.setProc current q) := h₂.setProc
      cases args.loadIcode with
      | error _ => exact h₃
      | ok mm => exact h₃.setProc

/-! ## Runs -/

/-- A `file_open` succeeds. It may leave a reference behind where it fails, and nothing is said
about that here. -/
def Succeeds (sys : Sys) : Action → Prop
  | .fileOpen current path openFlags =>
      ∃ fd t, fileOpen current path openFlags sys = .ok (.ok fd, t)
  | _ => True

instance (sys : Sys) : DecidablePred (Succeeds sys) := fun a =>
  match a with
  | .fileOpen current path openFlags =>
      match hrun : fileOpen current path openFlags sys with
      | .ok (.ok fd, t) => isTrue ⟨fd, t, hrun⟩
      | .ok (.error _, _) => isFalse fun ⟨_, _, hok⟩ => nomatch hrun.symm.trans hok
      | .error _ => isFalse fun ⟨_, _, hok⟩ => nomatch hrun.symm.trans hok
  | .create .. | .execve .. | .exit _ | .reap _ | .fileClose .. | .fileDup .. | .chdir .. =>
      isTrue trivial

/-- An action keeps the counts balanced, unless it is a `file_open` that fails. -/
theorem action_balanced {a : Action} (h : Balanced calm sys.filesHeap sys)
    (hcov : Covered sys.shape)
    (hok : Permitted sys a) : Ends checked a.code sys fun _ sys' => Succeeds sys a →
      Balanced calm sys'.filesHeap sys' := by
  have hfilesp : ∀ {p}, p ∈ sys.procs ∧ (sys.proc p).zombie = false →
      ∀ f, (sys.proc p).filesp = some f →
      f ∈ sys.filesHeap := fun hp f hf => hcov.mem_heap hp.1 hp.2 hf
  -- calls that need a table stop without one
  have htable : ∀ {p} {x : Filesp → SysM Int} {Q : Int → Sys → Prop}, p ∈ sys.procs ∧
      (sys.proc p).zombie = false →
      (∀ f, (sys.proc p).filesp = some f → f ∈ sys.filesHeap →
        Ends checked (filespOf p >>= x) sys Q) →
      Ends checked (filespOf p >>= x) sys Q := by
    intro p x Q hp hx
    cases hsome : (sys.proc p).filesp with
    | none =>
        rw [ends_bind, filespOf, ends_bind, ends_get, hsome]
        intro hno
        cases hno
    | some f => exact hx f hsome (hfilesp hp f hsome)
  cases a with
  | create current p cloneFs memory mm =>
      have hne : current ≠ p := ne_of_mem_of_not_mem hok.1 hok.2.2
      have hold : ∀ f, ((sys.setProc p ⟨none, mm, false⟩).proc current).filesp = some f →
          f ∈ sys.filesHeap := by
        intro f hf
        rw [setProc_other hne] at hf
        exact hfilesp ⟨hok.1, hok.2.1⟩ f hf
      change Ends checked (createProc current p cloneFs memory mm) _ _
      rw [createProc, ends_bind, ends_modify, ends_bind]
      apply (copyFiles_balanced h.setProc hold).imp
      intro ret sys₁ h₁
      split
      · exact fun _ => h₁.congr ⟨rfl, fun _ => rfl⟩ rfl fun _ _ => rfl
      · exact fun _ => h₁
  | execve current args =>
      change Ends checked (doExecve current args >>= _) _ _
      rw [ends_bind, doExecve, ends_bind]
      apply ((execve_balanced h (hfilesp hok)).and (execve_shape args)).imp
      rintro ret sys₁ ⟨h₁, mm, hshape⟩
      have hproc : sys₁.proc =
          Function.update sys.proc current { sys.proc current with mm := mm } :=
        congrArg Shape.proc hshape
      have hheap : sys₁.filesHeap = sys.filesHeap := congrArg Shape.filesHeap hshape
      split
      · rw [ends_bind]
        refine (doExit_balanced h₁ ?_).imp fun _ _ h₂ _ => h₂
        intro f hf
        rw [hproc, Function.update_self] at hf
        exact hheap ▸ hfilesp hok f hf
      · exact fun _ => h₁
  | exit current =>
      change Ends checked (doExit current >>= _) _ _
      rw [ends_bind]
      exact (doExit_balanced h (hfilesp hok)).imp fun _ _ h₁ _ => h₁
  | reap p => exact fun _ => h.congr ⟨rfl, fun _ => rfl⟩ rfl fun _ _ => rfl
  | fileOpen current path openFlags =>
      change Ends checked (fileOpen current path openFlags >>= _) _ _
      rw [ends_bind]
      cases hsome : (sys.proc current).filesp with
      | none =>
          unfold fileOpen
          split
          · exact fun _ => h
          · rw [ends_bind, filespOf, ends_bind, ends_get, hsome]
            intro hno
            cases hno
      | some f =>
          have hf := hfilesp hok f hsome
          have hopen : Ends checked (fileOpen current path openFlags) sys fun opened sys' =>
              ((∃ fd, opened = .ok fd) ∨ ¬ Exclusive openFlags) →
                Balanced calm sys.filesHeap sys' :=
            fileOpen_balanced h hsome hf hf
          have hends := hopen.and (fileOpen_shape path openFlags sys)
          unfold Ends at hends ⊢
          -- an open that fails may have kept a reference, and is left out
          cases hrun : fileOpen current path openFlags sys with
          | error e =>
              rw [hrun] at hends
              exact hends
          | ok result =>
              obtain ⟨opened, t⟩ := result
              rw [hrun] at hends
              obtain ⟨hopened, hshape⟩ := hends
              rintro ⟨fd, t', hsucc⟩
              obtain ⟨rfl, rfl⟩ := Prod.mk.inj (Except.ok.inj (hrun.symm.trans hsucc))
              have hheap : t.filesHeap = sys.filesHeap := congrArg Shape.filesHeap hshape
              change Balanced calm t.filesHeap t
              rw [hheap]
              exact hopened (Or.inl ⟨fd, rfl⟩)
  | fileClose current fd =>
      change Ends checked (filespOf current >>= _) _ _
      refine htable hok fun f hsome hf => ?_
      refine ((fileClose_balanced h hsome hf).and (fileClose_shape fd sys)).imp ?_
      rintro _ t ⟨h₁, hshape⟩ _
      have hheap : t.filesHeap = sys.filesHeap := congrArg Shape.filesHeap hshape
      exact hheap ▸ h₁
  | fileDup current fd1 fd2 =>
      change Ends checked (filespOf current >>= _) _ _
      refine htable hok fun f hsome hf => ?_
      refine ((fileDup_balanced h hsome hf).and (fileDup_shape fd1 fd2 sys)).imp ?_
      rintro _ t ⟨h₁, hshape⟩ _
      have hheap : t.filesHeap = sys.filesHeap := congrArg Shape.filesHeap hshape
      exact hheap ▸ h₁
  | chdir current path =>
      change Ends checked (filespOf current >>= _) _ _
      refine htable hok fun f hsome hf => ?_
      refine ((chdir_balanced h hsome hf).and (chdir_shape path sys)).imp ?_
      rintro _ t ⟨h₁, hshape⟩ _
      have hheap : t.filesHeap = sys.filesHeap := congrArg Shape.filesHeap hshape
      exact hheap ▸ h₁

/-- The slots of all tables that are open with the inode. -/
def openSlots (sys : Sys) (node : Node) : Finset (Filesp × Slot) :=
  (sys.filesHeap ×ˢ Finset.univ).filter fun slot =>
    ((sys.table slot.1).fdArray slot.2).status = .fdOpened ∧
      ((sys.table slot.1).fdArray slot.2).node = some node

/-- The tables whose current directory is the inode. -/
def pwdTables (sys : Sys) (node : Node) : Finset Filesp :=
  sys.filesHeap.filter fun f => (sys.table f).pwd = some node

/-- An inode has a user: a slot, a table, the list of devices or the boot file system. -/
def HasUser (sys : Sys) (node : Node) : Prop :=
  (openSlots sys node).Nonempty ∨ (pwdTables sys node).Nonempty ∨ 0 < baseRefs sys.inodes node

/-- The tables are freshly initialised, and inodes are in order and used by the base only: by the
devices and by the boot file system. -/
structure FreshTables (sys : Sys) : Prop where
  covered : Covered sys.shape
  slot : ∀ f ∈ sys.filesHeap, ∀ s, ((sys.table f).fdArray s).status = .fdNone ∧
    ((sys.table f).fdArray s).openCount = 0
  pwd : ∀ f ∈ sys.filesHeap, (sys.table f).pwd = none
  sound : Sound (anyInode False) sys.inodes
  based : Based sys.inodes
  openCount : ∀ node ∈ sys.inodes.heap, sys.inodes.openCount node = 0
  refCount : ∀ node, sys.inodes.refs node = baseRefs sys.inodes node
  used : ∀ node ∈ sys.inodes.heap, 0 < sys.inodes.refCount node

/-- Without idle inodes, it may be assumed that nothing fails. -/
theorem Sound.of_used {s : Inodes} (h : Sound (anyInode False) s)
    (hused : ∀ node ∈ s.heap, 0 < s.refCount node) :
    Sound (anyInode s.Calm) s := by
  refine ⟨h.nodup, h.listed, ?_, h.open_le, id⟩
  intro n hn
  cases h.kind n hn with
  | device dev hinfo hout hheld => exact .device dev hinfo hout hheld
  | sfsInode sin hinfo hin hok =>
      refine .sfsInode sin hinfo hin ⟨hok.type, hok.nlinks, hok.reclaimCount,
        hok.dirty, ?_, hok.good⟩
      exact fun hzero => absurd hzero (Nat.ne_of_gt (hused n hn))

theorem FreshTables.balanced (h : FreshTables sys) :
    Balanced sys.inodes.Calm sys.filesHeap sys := by
  have hclosed : ∀ f ∈ sys.filesHeap, ∀ s, ((sys.table f).fdArray s).status ≠ .fdOpened := by
    intro f hf s
    rw [(h.slot f hf s).1]
    decide
  have hopeners : ∀ n, sys.openers n = 0 := by
    intro n
    refine tally_none fun slot hslot => ?_
    exact holds_none (hclosed slot.1 (Finset.mem_product.mp hslot).1 slot.2)
  have hdwellers : ∀ n, sys.dwellers sys.filesHeap n = 0 := fun n => tally_none h.pwd
  refine ⟨h.sound.of_used h.used, h.based, ?_, ?_, ?_, ?_⟩
  · intro f hf s
    refine ⟨?_, ?_, fun hopened => absurd hopened (hclosed f hf s)⟩
    · rw [(h.slot f hf s).1]
      decide
    · rw [(h.slot f hf s).2, if_neg (hclosed f hf s)]
  · intro n
    rw [hopeners, Inodes.opens]
    split
    · next hin => exact h.openCount n hin
    · rfl
  · intro n
    rw [hopeners, hdwellers, h.refCount]
    omega
  · intro f hf n hn
    cases hn.symm.trans (h.pwd f hf)

theorem openers_eq_card (node : Node) : sys.openers node = (openSlots sys node).card := by
  refine congrArg Finset.card (Finset.filter_congr fun slot _ => ?_)
  unfold Sys.opener File.holds
  split
  · next hopened => exact (and_iff_right hopened).symm
  · next hclosed => exact iff_of_false nofun fun hboth => hclosed hboth.1

theorem hasUser_iff : HasUser sys node ↔
    0 < (openSlots sys node).card + (pwdTables sys node).card + baseRefs sys.inodes node := by
  rw [HasUser, ← Finset.card_pos, ← Finset.card_pos]
  omega

/-- In every state reached from fresh tables by calls of processes of which every `file_open`
succeeds: the counts of each inode are the numbers of slots, tables and base references to it; no
call finds more open files than references; an inode with a user is there, and one without has
gone, unless its last write to the disk failed. -/
theorem inode_counts (hfresh : FreshTables sys₀)
    (hrun : RunsTo step (fun sys a => Permitted sys a ∧ Succeeds sys a) sys₀ sys) :
    (∀ node, sys.inodes.opens node = (openSlots sys node).card ∧ sys.inodes.refs node =
      sys.inodes.opens node + (pwdTables sys node).card + baseRefs sys.inodes node) ∧
    (∀ a, Permitted sys a → ∀ e, a.code sys = .error e → e ≠ .vfs .openCount) ∧
    (∀ node, HasUser sys node → node ∈ sys.inodes.heap) ∧
    (∀ node ∈ sys.inodes.heap, ¬ HasUser sys node → ∃ sin, sys.inodes.info node = .sfsInode sin ∧
      sin.dirty = true) ∧
    (sys₀.inodes.Calm → ∀ node, node ∈ sys.inodes.heap ↔ HasUser sys node) := by
  have hinv : Balanced sys₀.inodes.Calm sys.filesHeap sys ∧ Covered sys.shape := by
    induction hrun with
    | refl => exact ⟨hfresh.balanced, hfresh.covered⟩
    | tail _ hok hstep ih =>
        obtain ⟨h, hcov⟩ := ih
        refine ⟨?_, hcov.of_step hok.1 hstep⟩
        obtain ⟨_, hbalanced⟩ := (action_balanced h hcov hok.1).of_exec hstep
        exact hbalanced hok.2
  obtain ⟨h, hcov⟩ := hinv
  have hopens : ∀ node, sys.inodes.opens node = (openSlots sys node).card :=
    fun node => (h.opens node).trans (openers_eq_card node)
  have hrefs : ∀ node, sys.inodes.refs node =
      sys.inodes.opens node + (pwdTables sys node).card + baseRefs sys.inodes node := by
    intro node
    rw [h.opens]
    exact h.refs node
  have huser : ∀ node, HasUser sys node ↔ 0 < sys.inodes.refs node := by
    intro node
    rw [hasUser_iff, hrefs, hopens]
  -- an inode without users is one of the SFS that could not be written
  have hidle : ∀ node ∈ sys.inodes.heap, ¬ HasUser sys node →
      ∃ sin, sys.inodes.info node = .sfsInode sin ∧ SinOk (anyInode sys₀.inodes.Calm) 0 sin := by
    intro node hlive hnone
    rw [huser, refs_of_mem hlive] at hnone
    have hzero : sys.inodes.refCount node = 0 := Nat.eq_zero_of_not_pos hnone
    cases h.sound.kind node hlive with
    | device _ _ _ hheld => exact absurd hheld hnone
    | sfsInode sin hinfo _ hok => exact ⟨sin, hinfo, hzero ▸ hok⟩
  refine ⟨fun node => ⟨hopens node, hrefs node⟩, ?_, ?_, ?_, ?_⟩
  · intro a hok e herror
    exact (action_balanced h hcov hok).of_error herror
  · exact fun node hused => mem_heap_of_refs ((huser node).mp hused)
  · intro node hlive hnone
    obtain ⟨sin, hinfo, hok⟩ := hidle node hlive hnone
    exact ⟨sin, hinfo, hok.dirty rfl⟩
  · intro hcalm node
    refine ⟨fun hlive => ?_, fun hused => mem_heap_of_refs ((huser node).mp hused)⟩
    by_contra hnone
    obtain ⟨_, _, hok⟩ := hidle node hlive hnone
    exact hok.idle rfl hcalm

/-! ## A run in a small SFS -/

/-- The small SFS, whose root is the one of the boot file system. -/
def bootSfs : Inodes := { smallSfs with refCount := fun _ => 1 }

/-- `idleproc` after `fs_init`. -/
def bootSys : Sys := { idleSys with inodes := bootSfs }

theorem bootSfs_sound : Sound (anyInode False) bootSfs where
  nodup := by decide
  listed := by decide
  kind node hlive := by
    rcases Finset.mem_insert.mp hlive with rfl | hone
    · exact .sfsInode _ rfl (by decide) ⟨Or.inl rfl, by decide, rfl, nofun, nofun, trivial⟩
    · obtain rfl := Finset.mem_singleton.mp hone
      exact .device _ rfl (by decide) (by decide)
  open_le _ _ := Nat.zero_le _
  calm := nofun

theorem bootSys_fresh : FreshTables bootSys where
  covered := idleSys_oneProcess.accounted.covered.of_subset rfl rfl fun _ => Finset.Subset.refl _
  slot _ _ _ := ⟨rfl, rfl⟩
  pwd _ _ := rfl
  sound := bootSfs_sound
  based := by
    refine ⟨?_, ?_, ?_⟩
    · intro node hboot
      obtain rfl := Option.some.inj hboot
      exact ⟨_, rfl⟩
    · intro vdev hin node hnode
      obtain rfl := List.mem_singleton.mp hin
      obtain rfl := Option.some.inj hnode
      exact ⟨_, rfl⟩
    · intro node hlive dev hdev
      rcases Finset.mem_insert.mp hlive with rfl | hone
      · cases hdev
      · obtain rfl := Finset.mem_singleton.mp hone
        decide
  openCount _ _ := rfl
  refCount node := by
    by_cases hzero : node = 0
    · subst hzero
      decide
    by_cases hone : node = 1
    · subst hone
      decide
    · have hout : node ∉ bootSys.inodes.heap := by
        intro hin
        rcases Finset.mem_insert.mp hin with heq | heq
        · exact hzero heq
        · exact hone (Finset.mem_singleton.mp heq)
      rw [Inodes.refs, if_neg hout]
      simp [baseRefs, bootSys, bootSfs, smallSfs, Ne.symm hzero, Ne.symm hone]
  used _ _ := Nat.one_pos

/-- A process goes to the root, opens the file there, forks and exits. -/
def forkAndExit : List Action :=
  [.create 0 2 false (fun _ => blankFile) (some 1), .chdir 2 [47], .fileOpen 2 [97] Fs.O_RDWR,
    .create 2 3 false (fun _ => blankFile) (some 2), .exit 2]

theorem inode_counts_forkAndExit : ∃ sys : Sys,
    (openSlots sys 2).card = 1 ∧ (pwdTables sys 0).card = 1 ∧
    (∀ node, sys.inodes.opens node = (openSlots sys node).card ∧ sys.inodes.refs node =
      sys.inodes.opens node + (pwdTables sys node).card + baseRefs sys.inodes node) ∧
    (∀ a, Permitted sys a → ∀ e, a.code sys = .error e → e ≠ .vfs .openCount) ∧
    (∀ node, HasUser sys node → node ∈ sys.inodes.heap) ∧
    (∀ node ∈ sys.inodes.heap, ¬ HasUser sys node → ∃ sin, sys.inodes.info node = .sfsInode sin ∧
      sin.dirty = true) ∧
    (bootSys.inodes.Calm → ∀ node, node ∈ sys.inodes.heap ↔ HasUser sys node) := by
  have hfold : (forkAndExit.foldlM
      (fun sys a => if Permitted sys a ∧ Succeeds sys a then step sys a else none) bootSys).map
      (fun sys => ((openSlots sys 2).card, (pwdTables sys 0).card)) = some (1, 1) := by
    decide +kernel
  obtain ⟨sys, hrun, hcards⟩ := Option.map_eq_some_iff.mp hfold
  obtain ⟨hopen, hpwd⟩ := Prod.mk.inj hcards
  exact ⟨sys, hopen, hpwd, inode_counts bootSys_fresh (RunsTo.of_foldlM hrun)⟩

end Ucore.Vfs
