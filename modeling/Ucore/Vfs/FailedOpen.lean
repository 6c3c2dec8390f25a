import Ucore.Fs.Slots
import Ucore.Vfs.Counts
import Ucore.Vfs.Lifetime

/-!
# Opens that fail

`vfs_open` gives back what it has taken wherever it fails, except where `O_EXCL` meets an
inode that exists: there the reference of the lookup stays.
-/

namespace Ucore.Vfs

open Machine
open Fs (File FilesM Slot Status)

variable {sys sys' : Sys} {f : Filesp} {s : Slot} {α : Type} {E : Halt → Prop}

/-- Code on a table is what it is on the slots. -/
theorem ends_onFiles {H : Halt → Prop} (hany : ∀ e, H (.files e)) {x : FilesM α}
    {Q : α → Sys → Prop} :
    Ends H (onFiles f x) sys Q ↔ Ends (fun _ => True) x (sys.table f).toFiles fun a T =>
      Q a (sys.setTable f { T with pwd := (sys.table f).pwd }) := by
  unfold Ends onFiles
  cases x (sys.table f).toFiles with
  | error e => exact iff_of_true (hany e) trivial
  | ok r => exact Iff.rfl

theorem ends_onInodes {x : VfsM α} {Q : α → Sys → Prop} :
    Ends halted (onInodes x) sys Q ↔ Ends anyway x sys.inodes fun a s =>
      Q a { sys with inodes := s } := by
  unfold Ends onInodes
  cases x sys.inodes with
  | error e => exact Iff.rfl
  | ok r => exact Iff.rfl

/-- The slots of two tables are the same, but for the `node` of those that are free. -/
def SameSlots (T T' : Table) : Prop :=
  ∀ s, T'.fdArray s = T.fdArray s ∨
    (T.fdArray s).status = .fdNone ∧ T'.fdArray s = { T.fdArray s with node := none }

/-- The counts of all inodes, and the tables of all processes, are as before. -/
structure Unchanged (sys sys' : Sys) : Prop where
  counts : sys'.inodes.counts = sys.inodes.counts
  shape : sys'.shape = sys.shape
  pwd : ∀ f, (sys'.table f).pwd = (sys.table f).pwd
  slots : ∀ f, SameSlots (sys.table f) (sys'.table f)

/-- `fd_array_free` of a slot that was only allocated. -/
theorem fdArrayFree_init {H : Halt → Prop} (hany : ∀ e, H (.files e))
    (hstatus : ((sys.table f).fdArray s).status = .fdInit) :
    Ends H (fdArrayFree f s) sys fun _ sys' => sys' = sys.setTable f { sys.table f with
      toFiles := (sys.table f).toFiles.setFile s
        { (sys.table f).fdArray s with status := .fdNone } } := by
  have hopen : ¬ ((sys.table f).fdArray s).status = .fdClosed := by
    rw [hstatus]
    decide
  rw [fdArrayFree, ends_bind, ends_onFiles hany, Fs.fdArrayFree, ends_bind, Fs.ends_load, ends_bind,
    ends_check_of trivial]
  intro _
  rw [ends_bind, ends_check_of trivial]
  intro _
  rw [if_neg hopen]
  exact rfl

theorem setTable_self : sys.setTable f (sys.table f) = sys := by
  unfold Sys.setTable
  rw [Function.update_eq_self]

/-- A `file_open` that fails, where `vfs_open` does not leave the reference of its lookup. -/
theorem fileOpen_slots {current : Nat} {path : Str} {openFlags : BitVec 32}
    (hfilesp : (sys.proc current).filesp = some f)
    (hnew : ¬ (Exclusive openFlags ∧ Exists sys.inodes (sys.table f).pwd path)) :
    Ends halted (fileOpen current path openFlags) sys fun opened sys' =>
      match opened with
      | .error _ => sys'.inodes.counts = sys.inodes.counts ∧
          ∀ f, (sys'.table f).pwd = (sys.table f).pwd ∧ SameSlots (sys.table f) (sys'.table f)
      | .ok _ => True := by
  have hrefl : sys.inodes.counts = sys.inodes.counts ∧
      ∀ f, (sys.table f).pwd = (sys.table f).pwd ∧ SameSlots (sys.table f) (sys.table f) :=
    ⟨rfl, fun _ => ⟨rfl, fun _ => Or.inl rfl⟩⟩
  have hany : ∀ e, halted (.files e) := fun _ => trivial
  unfold fileOpen
  split
  · exact hrefl
  rw [ends_bind, filespOf, ends_bind, ends_get, hfilesp, ends_pure, ends_bind, ends_onFiles hany]
  apply (Fs.fdArrayAlloc_found Fs.NO_FD _).imp
  intro slot T halloc
  cases slot with
  | error ret =>
      obtain rfl : T = (sys.table f).toFiles := halloc
      change (sys.setTable f (sys.table f)).inodes.counts = _ ∧
        ∀ g, ((sys.setTable f (sys.table f)).table g).pwd = _ ∧
          SameSlots _ ((sys.setTable f (sys.table f)).table g)
      rw [setTable_self]
      exact hrefl
  | ok s =>
      obtain ⟨hfree, rfl⟩ := halloc
      have hself : ∀ {sys : Sys} {T : Table}, (sys.setTable f T).table f = T := by
        simp [Sys.setTable]
      dsimp only
      rw [ends_bind, ends_get, hself, ends_bind, ends_onInodes]
      apply (vfsOpen_counts (s := sys.inodes) (sys.table f).pwd path openFlags hnew).imp
      intro opened inodes hopened
      cases opened with
      | error ret =>
          change Ends halted (fdArrayFree f s >>= _) _ _
          rw [ends_bind]
          refine (fdArrayFree_init hany (by simp [Sys.setTable, Fs.Files.setFile])).imp ?_
          rintro _ _ rfl
          refine ⟨hopened, ?_⟩
          intro g
          by_cases hg : g = f
          · subst hg
            refine ⟨by simp [Sys.setTable], ?_⟩
            intro s'
            by_cases hs : s' = s
            · subst hs
              right
              simp [Sys.setTable, Fs.Files.setFile, hfree]
            · left
              simp [Sys.setTable, Fs.Files.setFile, hs]
          · refine ⟨by simp [Sys.setTable, hg], fun s' => Or.inl ?_⟩
            simp [Sys.setTable, hg]
      | ok node =>
          -- `file_open` does not fail any more
          have hopened : ∀ (sys : Sys) (access : Bool × Bool) (pos : Int),
              Ends halted (fileOpened f s node access pos) sys fun opened _ => ∃ fd,
                opened = .ok fd := by
            intro sys access pos
            rw [fileOpened, ends_onFiles hany, ends_bind, Fs.ends_load, ends_bind,
              Fs.ends_store, ends_bind,
              Fs.fdArrayOpen, ends_bind, Fs.ends_load, ends_bind, ends_check_of trivial]
            exact fun _ => ⟨_, rfl⟩
          have hdone : ∀ {x : SysM (Except Int Int)} {sys₁ : Sys},
              Ends halted x sys₁ (fun opened _ => ∃ fd, opened = .ok fd) →
              Ends halted x sys₁ fun opened sys' =>
                match opened with
                | .error _ => sys'.inodes.counts = sys.inodes.counts ∧
                    ∀ f, (sys'.table f).pwd = (sys.table f).pwd ∧
                      SameSlots (sys.table f) (sys'.table f)
                | .ok _ => True := by
            intro x sys₁ hx
            apply hx.imp
            rintro _ _ ⟨fd, rfl⟩
            trivial
          change Ends halted (if _ then _ else _) _ _
          split
          · rw [ends_bind, ends_onInodes]
            have hstat : Ends anyway (vopFstat node) inodes fun _ s => s.counts = inodes.counts :=
              vopFstat_counts inodes
            exact hstat.imp fun _ _ _ => hdone (hopened ..)
          · exact hdone (hopened ..)

/-- A failed open leaves nothing behind: neither a `vfs_open` in the directory `pwd`, nor a
`file_open` of a process in it. -/
def FailsCleanly (s : Inodes) (pwd : Option Node) (path : Str) (openFlags : BitVec 32) : Prop :=
  (∀ ret t, vfsOpen pwd path openFlags s = .ok (.error ret, t) → t.counts = s.counts) ∧
  ∀ sys current f, sys.inodes = s → (sys.proc current).filesp = some f → (sys.table f).pwd = pwd →
    ∀ ret sys', fileOpen current path openFlags sys = .ok (.error ret, sys') → Unchanged sys sys'

/-- A failed open leaves nothing behind unless it is exclusive and the path names an inode. -/
theorem fails_cleanly_iff (s : Inodes) (pwd : Option Node) (path : Str) (openFlags : BitVec 32) :
    FailsCleanly s pwd path openFlags ↔ ¬ (Exclusive openFlags ∧ Exists s pwd path) := by
  constructor
  · rintro ⟨hclean, _⟩ ⟨hexcl, hexists⟩
    obtain ⟨node, t, hrun, hcounts⟩ := vfsOpen_exclusive hexcl hexists
    have hsame := congrArg (fun c => c.1 node) ((hclean _ t hrun).symm.trans hcounts)
    have hgive : s.refs node = s.refs node + 1 := hsame.trans (Fs.Inode.give_same _)
    omega
  · intro hnew
    refine ⟨?_, ?_⟩
    · intro ret t hrun
      have hcounts := vfsOpen_counts (s := s) pwd path openFlags hnew
      replace hcounts := hcounts.post hrun
      exact hcounts
    · rintro sys current f rfl hfilesp rfl ret sys' hrun
      have hends := (fileOpen_slots hfilesp hnew).and (fileOpen_shape path openFlags sys)
      replace hends := hends.post hrun
      obtain ⟨⟨hcounts, htables⟩, hshape⟩ := hends
      exact ⟨hcounts, hshape, fun f => (htables f).1, fun f => (htables f).2⟩

/-- The device `d` is opened with `O_CREAT` and `O_EXCL`. -/
theorem exclusive_leaks :
    ¬ ∀ (s : Inodes) (pwd : Option Node) (path : Str) (openFlags : BitVec 32) (ret : Int)
      (t : Inodes), vfsOpen pwd path openFlags s = .ok (.error ret, t) → t.counts = s.counts := by
  intro hclean
  have hexists : Exists oneDevice none [100, 58] := by
    have hrun : (result (vfsLookup none [100, 58]) oneDevice).map Except.toOption =
        some (some 0) := by
      decide
    obtain ⟨found, hresult, hfound⟩ := Option.map_eq_some_iff.mp hrun
    obtain ⟨t, ht⟩ := of_result hresult
    cases found with
    | error _ => cases hfound
    | ok node => exact ⟨node, t, ht⟩
  have hexcl : Exclusive 0xC := by decide
  obtain ⟨node, t, hrun, hcounts⟩ := vfsOpen_exclusive hexcl hexists
  have hsame := congrArg (fun c => c.1 node) ((hclean _ _ _ _ _ t hrun).symm.trans hcounts)
  have hgive : oneDevice.refs node = oneDevice.refs node + 1 := hsame.trans (Fs.Inode.give_same _)
  omega

end Ucore.Vfs
