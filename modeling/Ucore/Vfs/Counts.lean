import Ucore.Fs.InodeProtocol
import Ucore.Vfs.Path

/-!
# Counts of inodes

What the operations on inodes and paths do to the two counts of every inode, whenever
they return: a lookup that finds an inode adds one reference to it, and one that fails
adds none.
-/

namespace Ucore.Vfs

open Machine
open Fs.Inode (give take)

variable {s t : Inodes} {node n : Node} {ino : Ino} {sin : SfsInode} {sym : Sym}

/-- The references to an inode; there are none to one that is not allocated. -/
def Inodes.refs (s : Inodes) (node : Node) : Nat := if node ∈ s.heap then s.refCount node else 0

def Inodes.opens (s : Inodes) (node : Node) : Nat := if node ∈ s.heap then s.openCount node else 0

/-- The counts of all inodes: references and open files. -/
def Inodes.counts (s : Inodes) : (Node → Nat) × (Node → Nat) := (s.refs, s.opens)

/-- Any reason to stop: for what holds of a call if it returns. -/
def anyway (_ : Stop) : Prop := True

theorem refs_setRef (hlive : node ∈ s.heap) (k : Nat) :
    (s.setRef node k).refs = Function.update s.refs node k := by
  funext n
  by_cases hn : n = node
  · subst hn
    simp [Inodes.refs, Inodes.setRef, hlive]
  · simp [Inodes.refs, Inodes.setRef, hn]

theorem opens_setOpen (hlive : node ∈ s.heap) (k : Nat) :
    (s.setOpen node k).opens = Function.update s.opens node k := by
  funext n
  by_cases hn : n = node
  · subst hn
    simp [Inodes.opens, Inodes.setOpen, hlive]
  · simp [Inodes.opens, Inodes.setOpen, hn]

theorem refs_of_mem (hlive : node ∈ s.heap) : s.refs node = s.refCount node := if_pos hlive

theorem opens_of_mem (hlive : node ∈ s.heap) : s.opens node = s.openCount node := if_pos hlive

/-! ## Operations that keep the counts -/

section Keep

theorem ask_counts : Keeps Inodes.counts ask := by
  refine keeps_get.bind fun s => (keeps_modify ?_).bind fun _ => keeps_pure _
  exact fun _ => rfl

theorem live_counts : Keeps Inodes.counts (live node) :=
  keeps_get.bind fun _ => keeps_check _ _

theorem inodeCheck_counts : Keeps Inodes.counts (inodeCheck node) :=
  live_counts.bind fun _ => keeps_get.bind fun _ => (keeps_check _ _).bind fun _ => keeps_check _ _

theorem vopOp_counts : Keeps Inodes.counts (vopOp node sym) :=
  live_counts.bind fun _ => keeps_get.bind fun _ => (keeps_check _ _).bind fun _ =>
    inodeCheck_counts

theorem sfsInode_counts : Keeps Inodes.counts (sfsInode node) := by
  refine live_counts.bind fun _ => keeps_get.bind fun s => ?_
  split
  · exact keeps_pure _
  · exact keeps_throw _

theorem setSin_counts : Keeps Inodes.counts (modify fun s => s.setSin node sin : VfsM PUnit) :=
  keeps_modify fun _ => rfl

theorem sfsFsync_counts : Keeps Inodes.counts (sfsFsync node) := by
  refine sfsInode_counts.bind fun sin => ?_
  split
  · exact ask_counts.bind fun _ => setSin_counts.bind fun _ => keeps_pure _
  · exact keeps_pure _

theorem vopFsync_counts : Keeps Inodes.counts (vopFsync node) :=
  vopOp_counts.bind fun _ => sfsFsync_counts

theorem vopTruncate_counts : Keeps Inodes.counts (vopTruncate node) := by
  refine vopOp_counts.bind fun _ => sfsInode_counts.bind fun sin => ?_
  split
  · exact (keeps_check _ _).bind fun _ => keeps_pure _
  split
  · exact setSin_counts.bind fun _ => keeps_pure _
  refine ask_counts.bind fun answer => ?_
  split
  · exact setSin_counts.bind fun _ => keeps_pure _
  · exact setSin_counts.bind fun _ => keeps_pure _

/-- Only an inode without references is freed. -/
theorem inodeKill_counts : Keeps Inodes.counts (inodeKill node) := by
  refine live_counts.bind fun _ => ?_
  intro s
  rw [ends_bind, ends_get, ends_bind, ends_check_of trivial]
  intro href
  rw [ends_bind, ends_check_of trivial]
  intro hopen
  have hzero : ∀ (f : Node → Nat), f node = 0 → ∀ n,
      (if n ∈ s.heap.erase node then f n else 0) = if n ∈ s.heap then f n else 0 := by
    intro f hf n
    by_cases hn : n = node
    · simp [hn, hf]
    · simp [hn]
  exact Prod.ext (funext (hzero _ href)) (funext (hzero _ hopen))

theorem sfsDiscard_counts : Keeps Inodes.counts (sfsDiscard node) := by
  refine (keeps_modify ?_).bind fun _ => inodeKill_counts.bind fun _ => keeps_pure _
  exact fun _ => rfl

theorem sfsFlush_counts : Keeps Inodes.counts (sfsFlush node) := by
  refine sfsInode_counts.bind fun sin => ?_
  split
  · refine vopFsync_counts.bind fun ret => ?_
    split
    · exact keeps_pure _
    · exact sfsDiscard_counts
  · exact sfsDiscard_counts

theorem vopReclaim_counts : Keeps Inodes.counts (vopReclaim node) := by
  refine vopOp_counts.bind fun _ => sfsInode_counts.bind fun sin => (keeps_check _ _).bind fun _ =>
    setSin_counts.bind fun _ => keeps_get.bind fun s => ?_
  split
  · exact keeps_pure _
  split
  · refine vopTruncate_counts.bind fun ret => ?_
    split
    · exact keeps_pure _
    · exact sfsFlush_counts
  · exact sfsFlush_counts

theorem vopClose_counts : Keeps Inodes.counts (vopClose node) := by
  refine vopOp_counts.bind fun _ => keeps_get.bind fun s => ?_
  split
  · exact keeps_pure _
  · exact vopFsync_counts

theorem sfsDirentReadNolock_counts (slot : Nat) :
    Keeps Inodes.counts (sfsDirentReadNolock sin slot) := by
  refine (keeps_check _ _).bind fun _ => ask_counts.bind fun load => ?_
  split
  · exact keeps_pure _
  refine keeps_get.bind fun _ => (keeps_check _ _).bind fun _ => ask_counts.bind fun read => ?_
  split
  · exact keeps_pure _
  · exact keeps_pure _

theorem sfsDirentSearchFrom_counts (name : Str) (slots : List Nat) :
    Keeps Inodes.counts (sfsDirentSearchFrom sin name slots) := by
  induction slots with
  | nil => exact keeps_pure _
  | cons i rest ih =>
      refine (sfsDirentReadNolock_counts i).bind fun read => ?_
      split
      · exact keeps_pure _
      split
      · exact ih
      split
      · exact keeps_pure _
      · exact ih

theorem sfsDirentSearchNolock_counts (name : Str) :
    Keeps Inodes.counts (sfsDirentSearchNolock sin name) := by
  refine (keeps_check _ _).bind fun _ => ask_counts.bind fun entry => ?_
  split
  · exact keeps_pure _
  · exact sfsDirentSearchFrom_counts name _

theorem vopOpen_counts (openFlags : BitVec 32) : Keeps Inodes.counts (vopOpen node openFlags) := by
  refine vopOp_counts.bind fun _ => keeps_get.bind fun s => ?_
  split
  · exact keeps_pure _
  split
  · exact keeps_pure _
  · exact keeps_pure _

theorem vopGettype_counts : Keeps Inodes.counts (vopGettype node) := by
  refine vopOp_counts.bind fun _ => keeps_get.bind fun s => ?_
  split
  · exact keeps_pure _
  · exact (keeps_check _ _).bind fun _ => keeps_pure _

theorem vopFstat_counts : Keeps Inodes.counts (vopFstat node) := by
  refine vopOp_counts.bind fun _ => vopGettype_counts.bind fun _ => keeps_get.bind fun s => ?_
  split
  · exact keeps_pure _
  · exact keeps_pure _

end Keep

/-! ## References -/

/-- An operation on an inode that is used returns where the inode is allocated. -/
theorem ends_live {Q : PUnit → Inodes → Prop} :
    Ends anyway (live node) s Q ↔ (node ∈ s.heap → Q ⟨⟩ s) := by
  rw [live, ends_bind, ends_get, ends_check_of trivial]

theorem inodeRefInc_counts : Ends anyway (inodeRefInc node) s fun n t =>
    t.counts = (give s.refs node, s.opens) ∧ n = s.refs node + 1 := by
  rw [inodeRefInc, ends_bind, ends_live]
  intro hlive
  refine ⟨Prod.ext ?_ rfl, ?_⟩
  · rw [give, refs_of_mem hlive]
    exact refs_setRef hlive _
  · rw [refs_of_mem hlive]
    exact Function.update_self node _ s.refCount

theorem inodeRefDec_counts : Ends anyway (inodeRefDec node) s fun _ t =>
    t.counts = (take s.refs node, s.opens) := by
  rw [inodeRefDec, ends_bind, ends_live]
  intro hlive
  rw [ends_bind, ends_get, ends_bind, ends_check_of trivial]
  intro _
  rw [ends_bind, ends_modify, ends_bind, ends_get]
  have hdec : (s.setRef node (s.refCount node - 1)).counts = (take s.refs node, s.opens) := by
    refine Prod.ext ?_ rfl
    rw [take, refs_of_mem hlive]
    exact refs_setRef hlive _
  split
  · rw [ends_bind]
    exact (vopReclaim_counts _).imp fun _ _ hkept => hkept.trans hdec
  · exact hdec

theorem inodeOpenInc_counts : Ends anyway (inodeOpenInc node) s fun _ t =>
    t.counts = (s.refs, give s.opens node) := by
  rw [inodeOpenInc, ends_bind, ends_live]
  intro hlive
  refine Prod.ext rfl ?_
  rw [give, opens_of_mem hlive]
  exact opens_setOpen hlive _

theorem inodeOpenDec_counts : Ends anyway (inodeOpenDec node) s fun _ t =>
    t.counts = (s.refs, take s.opens node) := by
  rw [inodeOpenDec, ends_bind, ends_live]
  intro hlive
  rw [ends_bind, ends_get, ends_bind, ends_check_of trivial]
  intro _
  rw [ends_bind, ends_modify, ends_bind, ends_get]
  have hdec : (s.setOpen node (s.openCount node - 1)).counts = (s.refs, take s.opens node) := by
    refine Prod.ext rfl ?_
    rw [take, opens_of_mem hlive]
    exact opens_setOpen hlive _
  split
  · rw [ends_bind]
    exact (vopClose_counts _).imp fun _ _ hkept => hkept.trans hdec
  · exact hdec

theorem take_give (f : Node → Nat) : take (give f node) node = f := by
  rw [take, Fs.Inode.give_same, give, Function.update_idem, Nat.add_sub_cancel,
    Function.update_eq_self]

/-- What is given back first was not what was given last. -/
theorem take_give_comm (f : Node → Nat) (hheld : 0 < f node) :
    take (give f n) node = give (take f node) n := by
  funext m
  by_cases hn : n = node
  · subst hn
    rw [take_give]
    by_cases hm : m = n
    · subst hm
      rw [Fs.Inode.give_same, Fs.Inode.take_same]
      omega
    · rw [Fs.Inode.give_of_ne _ hm, Fs.Inode.take_of_ne _ hm]
  · by_cases hm : m = node
    · subst hm
      rw [Fs.Inode.take_same, Fs.Inode.give_of_ne _ (Ne.symm hn),
        Fs.Inode.give_of_ne _ (Ne.symm hn), Fs.Inode.take_same]
    · rw [Fs.Inode.take_of_ne _ hm]
      by_cases hmn : m = n
      · subst hmn
        rw [Fs.Inode.give_same, Fs.Inode.give_same, Fs.Inode.take_of_ne _ hm]
      · rw [Fs.Inode.give_of_ne _ hmn, Fs.Inode.give_of_ne _ hmn, Fs.Inode.take_of_ne _ hm]

/-- A reference is given back while another one is held. -/
theorem take_give_give (f : Node → Nat) : take (give (give f node) n) node = give f n := by
  rw [take_give_comm _ (by rw [Fs.Inode.give_same]; exact Nat.succ_pos _), take_give]

/-! ## Lookups -/

/-- An operation that finds an inode adds a reference to it, and one that fails adds none. -/
def Found (s : Inodes) (found : Except Int Node) (t : Inodes) : Prop :=
  match found with
  | .ok node => t.counts = (give s.refs node, s.opens)
  | .error _ => t.counts = s.counts

theorem Found.congr {found : Except Int Node} {s' : Inodes} (h : Found s found t)
    (hcounts : s.counts = s'.counts) : Found s' found t := by
  obtain ⟨hrefs, hopens⟩ := Prod.mk.inj hcounts
  cases found with
  | error _ => exact h.trans hcounts
  | ok node =>
      have hfound : t.counts = (give s.refs node, s.opens) := h
      exact hfound.trans (by rw [hrefs, hopens])

theorem sfsCreateInode_counts (din : DiskInode) :
    Ends anyway (sfsCreateInode din ino) s fun found t => Found s found t := by
  rw [sfsCreateInode, ends_bind]
  apply (ask_counts s).imp
  intro answer s₁ hask
  split
  · exact hask
  rw [ends_bind, ends_get, ends_bind, ends_check_of trivial]
  intro _
  rw [ends_bind, ends_modify, ends_bind]
  -- the inode is new
  have hfresh := answer.fresh s₁.heap
  generalize answer.place s₁.heap = node at hfresh ⊢
  have hnew : ∀ f : Node → Nat,
      (fun n => if n ∈ insert node s₁.heap then Function.update f node 0 n else 0) =
        fun n => if n ∈ s₁.heap then f n else 0 := by
    intro f
    funext n
    by_cases hn : n = node
    · simp [hn, hfresh]
    · simp [hn]
  apply inodeRefInc_counts.imp
  intro _ t hinc
  have hcreated : Found s₁ (.ok node) t := by
    refine hinc.1.trans (congrArg₂ Prod.mk ?_ (hnew _))
    exact congrArg (give · node) (hnew _)
  exact hcreated.congr hask

theorem lookupSfsNolock_counts : Ends anyway (lookupSfsNolock ino) s fun found t =>
    match found with
    | none => t.counts = s.counts
    | some node => t.counts = (give s.refs node, s.opens) := by
  rw [lookupSfsNolock, ends_bind, ends_get]
  split
  · rfl
  · next node _ =>
    rw [ends_bind]
    apply inodeRefInc_counts.imp
    intro n t hinc
    split
    · rw [ends_bind]
      apply (sfsInode_counts t).imp
      exact fun sin u hkept => hkept.trans hinc.1
    · exact hinc.1

theorem sfsLoadInode_counts : Ends anyway (sfsLoadInode ino) s fun found t => Found s found t := by
  rw [sfsLoadInode, ends_bind]
  apply lookupSfsNolock_counts.imp
  intro cached s₁ hcached
  cases cached with
  | some node => exact hcached
  | none =>
      rw [ends_bind]
      apply (ask_counts s₁).imp
      intro din s₂ hdin
      split
      · exact hdin.trans hcached
      rw [ends_bind, ends_get, ends_bind]
      apply (keeps_check (f := Inodes.counts) Stop.blockInuse _ s₂).imp
      intro _ s₃ hinuse
      rw [ends_bind]
      apply (ask_counts s₃).imp
      intro read s₄ hread
      have hkept : s₄.counts = s.counts := hread.trans (hinuse.trans (hdin.trans hcached))
      split
      · exact hkept
      rw [ends_bind]
      apply (keeps_check (f := Inodes.counts) Stop.noLinks _ s₄).imp
      intro _ s₅ hlinks
      rw [ends_bind]
      apply (sfsCreateInode_counts _).imp
      intro found s₆ hfound
      have hfound := hfound.congr (hlinks.trans hkept)
      cases found with
      | error _ => exact hfound
      | ok node => exact hfound

theorem sfsGetRoot_counts : Ends anyway sfsGetRoot s fun node t =>
    t.counts = (give s.refs node, s.opens) := by
  rw [sfsGetRoot, ends_bind]
  apply sfsLoadInode_counts.imp
  intro found t hfound
  cases found with
  | error _ => trivial
  | ok node => exact hfound

theorem sfsLookupOnce_counts (name : Str) :
    Ends anyway (sfsLookupOnce sin name) s fun found t => Found s found t := by
  rw [sfsLookupOnce, ends_bind]
  apply (sfsDirentSearchNolock_counts name s).imp
  intro searched s₁ hsearch
  cases searched with
  | error _ => exact hsearch
  | ok ino => exact sfsLoadInode_counts.imp fun _ _ hfound => hfound.congr hsearch

/-- The reference to where a lookup starts is given back at its end. -/
theorem Found.release {found : Except Int Node} {s₀ u : Inodes} (h : Found s found t)
    (hstart : s.counts = (give s₀.refs node, s₀.opens))
    (hrelease : u.counts = (take t.refs node, t.opens)) : Found s₀ found u := by
  obtain ⟨hrefs, hopens⟩ := Prod.mk.inj hstart
  cases found with
  | error _ =>
      obtain ⟨ht, ho⟩ := Prod.mk.inj h
      change u.counts = (s₀.refs, s₀.opens)
      rw [hrelease, ht, ho, hrefs, hopens, take_give]
  | ok n =>
      obtain ⟨ht, ho⟩ := Prod.mk.inj h
      change u.counts = (give s₀.refs n, s₀.opens)
      rw [hrelease, ht, ho, hrefs, hopens, take_give_give]

theorem sfsLookup_counts (path : Str) :
    Ends anyway (sfsLookup node path) s fun found t => Found s found t := by
  rw [sfsLookup, ends_bind]
  apply (keeps_check (f := Inodes.counts) Stop.sfsLookup _ s).imp
  intro _ s₁ hcheck
  rw [ends_bind]
  apply inodeRefInc_counts.imp
  intro _ s₂ hinc
  rw [ends_bind]
  apply (sfsInode_counts s₂).imp
  intro sin s₃ hsin
  have hstart : s₃.counts = (give s₁.refs node, s₁.opens) := hsin.trans hinc.1
  have hfrom : ∀ {found u}, Found s₁ found u → Found s found u := fun h => h.congr hcheck
  split
  · rw [ends_bind]
    apply inodeRefDec_counts.imp
    intro _ u hdec
    have hnone : Found s₃ (.error (-E_NOTDIR)) s₃ := rfl
    exact hfrom (hnone.release hstart hdec)
  · rw [ends_bind]
    apply (sfsLookupOnce_counts path).imp
    intro found s₄ hfound
    rw [ends_bind]
    apply inodeRefDec_counts.imp
    intro _ u hdec
    exact hfrom (hfound.release hstart hdec)

theorem vopLookup_counts (path : Str) :
    Ends anyway (vopLookup node path) s fun found t => Found s found t := by
  rw [vopLookup, ends_bind]
  apply (vopOp_counts s).imp
  intro _ s₁ hop
  rw [ends_bind, ends_get]
  split
  · rw [devLookup]
    split
    · exact hop
    · rw [ends_bind]
      apply inodeRefInc_counts.imp
      intro _ t hinc
      have hfound : Found s₁ (.ok node) t := hinc.1
      exact hfound.congr hop
  · exact (sfsLookup_counts path).imp fun _ _ hfound => hfound.congr hop

theorem vfsGetCurdir_counts (pwd : Option Node) :
    Ends anyway (vfsGetCurdir pwd) s fun found t => Found s found t := by
  cases pwd with
  | none => exact rfl
  | some node =>
      rw [vfsGetCurdir, ends_bind]
      exact inodeRefInc_counts.imp fun _ _ hinc => hinc.1

theorem vfsGetBootfs_counts : Ends anyway vfsGetBootfs s fun found t => Found s found t := by
  rw [vfsGetBootfs, ends_bind, ends_get]
  split
  · exact rfl
  · rw [ends_bind]
    exact inodeRefInc_counts.imp fun _ _ hinc => hinc.1

theorem vfsGetRoot_counts (devname : Str) :
    Ends anyway (vfsGetRoot devname) s fun found t => Found s found t := by
  rw [vfsGetRoot, ends_bind, ends_get]
  split
  · exact rfl
  split
  · rw [ends_bind]
    exact sfsGetRoot_counts.imp fun _ _ hroot => hroot
  split
  · exact rfl
  split
  · trivial
  · rw [ends_bind]
    exact inodeRefInc_counts.imp fun _ _ hinc => hinc.1

/-- `get_device` finds the inode where the lookup starts. -/
theorem getDevice_counts (pwd : Option Node) (path : Str) :
    Ends anyway (getDevice pwd path) s fun start t => Found s (start.map Prod.snd) t := by
  rw [getDevice]
  have hmap : ∀ {x : VfsM (Except Int Node)} {subpath : Str},
      Ends anyway x s (fun found t => Found s found t) →
      Ends anyway (x >>= fun found => pure (found.map fun node => (subpath, node))) s
        fun start t => Found s (start.map Prod.snd) t := by
    intro x subpath hx
    rw [ends_bind]
    apply hx.imp
    intro found t hfound
    cases found with
    | error _ => exact hfound
    | ok node => exact hfound
  simp only []
  split
  · exact hmap (vfsGetCurdir_counts pwd)
  split
  · exact hmap (vfsGetRoot_counts _)
  split
  · exact hmap vfsGetBootfs_counts
  rw [ends_bind]
  apply (keeps_check (f := Inodes.counts) Stop.getDevice _ s).imp
  intro _ s₁ hcheck
  rw [ends_bind]
  apply (vfsGetCurdir_counts pwd).imp
  intro cur s₂ hcur
  have hcur := hcur.congr hcheck
  cases cur with
  | error _ => exact hcur
  | ok node =>
      rw [ends_bind, ends_get]
      split
      · trivial
      · rw [ends_bind]
        apply sfsGetRoot_counts.imp
        intro root s₃ hroot
        rw [ends_bind]
        apply inodeRefDec_counts.imp
        intro _ t hdec
        have hfound : Found s₂ (.ok root) s₃ := hroot
        exact hfound.release hcur hdec

theorem vfsLookup_counts (pwd : Option Node) (path : Str) :
    Ends anyway (vfsLookup pwd path) s fun found t => Found s found t := by
  rw [vfsLookup, ends_bind]
  apply (getDevice_counts pwd path).imp
  intro start s₁ hstart
  split
  · exact hstart
  · split
    · rw [ends_bind]
      apply (vopLookup_counts _).imp
      intro found s₂ hfound
      rw [ends_bind]
      apply inodeRefDec_counts.imp
      intro _ t hdec
      exact hfound.release hstart hdec
    · exact hstart

/-! ## Open and close -/

/-- An operation that opens an inode adds a reference and an open file to it, and one that
fails adds none. -/
def Opened (s : Inodes) (opened : Except Int Node) (t : Inodes) : Prop :=
  match opened with
  | .ok node => t.counts = (give s.refs node, give s.opens node)
  | .error _ => t.counts = s.counts

/-- `vfs_open` of an inode that has been found. -/
theorem vfsOpenNode_counts (openFlags : BitVec 32) {s₀ : Inodes} (hfound : Found s₀ (.ok node) s) :
    Ends anyway (vfsOpenNode node openFlags) s fun opened t => Opened s₀ opened t := by
  have hrelease : ∀ {s₁ t : Inodes}, s₁.counts = (give s₀.refs node, s₀.opens) →
      t.counts = (take s₁.refs node, s₁.opens) → t.counts = s₀.counts := by
    intro s₁ t hheld htake
    obtain ⟨hrefs, hopens⟩ := Prod.mk.inj hheld
    rw [htake, hrefs, hopens, take_give]
    rfl
  rw [vfsOpenNode, ends_bind]
  apply (vopOpen_counts openFlags s).imp
  intro ret s₁ hopen
  have hheld : s₁.counts = (give s₀.refs node, s₀.opens) := hopen.trans hfound
  split
  · rw [ends_bind]
    exact inodeRefDec_counts.imp fun _ _ hdec => hrelease hheld hdec
  rw [ends_bind]
  apply inodeOpenInc_counts.imp
  intro _ s₂ hinc
  have hopened : s₂.counts = (give s₀.refs node, give s₀.opens node) := by
    obtain ⟨hrefs, hopens⟩ := Prod.mk.inj hheld
    rw [hinc, hrefs, hopens]
  split
  · rw [ends_bind]
    apply (vopTruncate_counts s₂).imp
    intro ret s₃ htrunc
    split
    · rw [ends_bind]
      apply inodeOpenDec_counts.imp
      intro _ s₄ hclose
      have hagain : s₄.counts = (give s₀.refs node, s₀.opens) := by
        obtain ⟨hrefs, hopens⟩ := Prod.mk.inj (htrunc.trans hopened)
        rw [hclose, hrefs, hopens, take_give]
      rw [ends_bind]
      exact inodeRefDec_counts.imp fun _ _ hdec => hrelease hagain hdec
    · exact htrunc.trans hopened
  · exact hopened

/-- `O_CREAT` and `O_EXCL` are set, with an access mode that `vfs_open` takes. -/
def Exclusive (openFlags : BitVec 32) : Prop :=
  validFlags openFlags = true ∧ openFlags &&& O_EXCL ≠ 0 ∧ openFlags &&& O_CREAT ≠ 0

instance (openFlags : BitVec 32) : Decidable (Exclusive openFlags) :=
    inferInstanceAs (Decidable (_ ∧ _))

/-- The path names an inode: `vfs_lookup` returns one. -/
def Exists (s : Inodes) (pwd : Option Node) (path : Str) : Prop :=
  ∃ node t, vfsLookup pwd path s = .ok (.ok node, t)

theorem vfsOpen_counts (pwd : Option Node) (path : Str) (openFlags : BitVec 32)
    (hnew : ¬ (Exclusive openFlags ∧ Exists s pwd path)) :
    Ends anyway (vfsOpen pwd path openFlags) s fun opened t => Opened s opened t := by
  rw [vfsOpen]
  split
  · exact rfl
  next hvalid =>
  rw [ends_bind]
  have hlookup := vfsLookup_counts (s := s) pwd path
  unfold Ends at hlookup ⊢
  cases hrun : vfsLookup pwd path s with
  | error e => trivial
  | ok result =>
      obtain ⟨found, s₁⟩ := result
      rw [hrun] at hlookup
      change Ends anyway _ s₁ _
      cases found with
      | ok node =>
          have hnot : ¬ (openFlags &&& O_EXCL ≠ 0 ∧ openFlags &&& O_CREAT ≠ 0) :=
            fun hexcl => hnew ⟨⟨Bool.not_eq_false _ ▸ hvalid, hexcl⟩, node, s₁, hrun⟩
          change Ends anyway (if _ then _ else _) s₁ _
          rw [if_neg hnot]
          exact vfsOpenNode_counts openFlags hlookup
      | error ret =>
          change Ends anyway (if _ then _ else _) s₁ _
          split
          · -- the directory is found, and has no `vop_create`
            rw [vfsLookupParent, ends_bind]
            apply (getDevice_counts pwd (cutPath path)).imp
            intro start s₂ hstart
            cases start with
            | error _ => exact hstart.trans hlookup
            | ok start =>
                rw [ends_bind, vopCreate, ends_bind]
                exact (vopOp_counts s₂).imp fun _ _ _ => trivial
          · exact hlookup

/-- An exclusive `vfs_open` of an inode that exists keeps the reference of its lookup. -/
theorem vfsOpen_exclusive {pwd : Option Node} {path : Str} {openFlags : BitVec 32}
    (hexcl : Exclusive openFlags) (hexists : Exists s pwd path) : ∃ node t,
    vfsOpen pwd path openFlags s = .ok (.error (-E_EXISTS), t) ∧
      t.counts = (give s.refs node, s.opens) := by
  obtain ⟨node, t, hrun⟩ := hexists
  have hlookup := vfsLookup_counts (s := s) pwd path
  replace hlookup := hlookup.post hrun
  refine ⟨node, t, ?_, hlookup⟩
  have hvalid : ¬ validFlags openFlags = false := by
    rw [hexcl.1]
    decide
  have hbind : vfsOpen pwd path openFlags s =
      (if openFlags &&& O_EXCL ≠ 0 ∧ openFlags &&& O_CREAT ≠ 0 then pure (.error (-E_EXISTS))
        else vfsOpenNode node openFlags : VfsM (Except Int Node)) t := by
    rw [vfsOpen, if_neg hvalid]
    change (vfsLookup pwd path s).bind _ = _
    rw [hrun]
    rfl
  rw [hbind, if_pos hexcl.2]
  rfl

theorem vfsClose_counts : Ends anyway (vfsClose node) s fun _ t =>
    t.counts = (take s.refs node, take s.opens node) := by
  rw [vfsClose, ends_bind]
  apply inodeOpenDec_counts.imp
  intro _ s₁ hopen
  obtain ⟨hrefs, hopens⟩ := Prod.mk.inj hopen
  exact inodeRefDec_counts.imp fun _ _ hdec => hdec.trans (by rw [hrefs, hopens])

end Ucore.Vfs
