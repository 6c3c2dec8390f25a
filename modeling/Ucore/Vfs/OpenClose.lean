import Ucore.Vfs.Sound

/-!
# Opening, closing and changing the directory

What the calls of a process do to inodes in order: they keep them so, and change the counts
as they should. The calls may stop for any reason but more open files than references.
-/

namespace Ucore.Vfs

open Machine
open Fs.Inode (give take MAX_INODE_COUNT)

variable {s t s₀ : Inodes} {node dir : Node} {sin : SfsInode} {pwd : Option Node}
  {P : Law} {calm : Prop}

/-- The assertion in `inode_check` about open files does not fail. -/
def countsChecked (e : Stop) : Prop := e ≠ .openCount

/-- Any inode is good. -/
def anyInode (calm : Prop) : Law := ⟨fun _ _ _ => True, fun _ _ _ _ => trivial, calm⟩

/-- The inodes where lookups start are referred to, and devices or inodes of the SFS as they
should be. -/
structure Rooted (s : Inodes) (pwd : Option Node) : Prop where
  pwd : ∀ node, pwd = some node → 0 < s.refs node ∧ ∃ sin, s.info node = .sfsInode sin
  bootfs : ∀ node, s.bootfsNode = some node → 0 < s.refs node ∧ ∃ sin, s.info node = .sfsInode sin
  vdev : ∀ vdev ∈ s.vdevList, ∀ node, vdev.devnode = some node → 0 < s.refs node ∧
    ∃ dev, s.info node = .device dev

theorem usable_anyInode {disk : Disk} {ino : Ino} : Usable (anyInode calm) countsChecked disk ino :=
  ⟨Or.inr nofun, Or.inr nofun, Or.inr nofun, trivial⟩

theorem Rooted.grounded (h : Rooted s pwd) : Grounded (anyInode calm) countsChecked s pwd where
  pwd node hnode := by
    obtain ⟨hheld, sin, hsin⟩ := h.pwd node hnode
    exact ⟨hheld, sin, hsin, Or.inr nofun⟩
  bootfs node hnode := by
    obtain ⟨hheld, sin, hsin⟩ := h.bootfs node hnode
    exact ⟨hheld, sin, hsin, Or.inr nofun⟩
  vdev := h.vdev
  devnode _ _ _ _ := Or.inr nofun
  root := Or.inr ⟨usable_anyInode, nofun⟩
  rootDir _ _ _ := Or.inr nofun

theorem resolvable_anyInode (path : Str) : Resolvable (anyInode calm) countsChecked s pwd path where
  room := Or.inr (Or.inr nofun)
  name := Or.inr (Or.inr nofun)
  dir _ _ _ _ _ := ⟨Or.inr nofun, fun _ => usable_anyInode⟩

/-- An inode of the SFS that is still referred to stays one. -/
theorem Steady.sfsInode (h : Steady s t) (hheld : 0 < t.refs node)
    (hinfo : s.info node = .sfsInode sin) :
    ∃ sin, t.info node = .sfsInode sin := by
  cases hinfo' : t.info node with
  | sfsInode sin => exact ⟨sin, rfl⟩
  | device dev =>
      have hdev := (h.device node dev).mp ⟨mem_heap_of_refs hheld, hinfo'⟩
      exact nomatch hdev.2.symm.trans hinfo

theorem Rooted.of_steady (h : Rooted s pwd) (hsteady : Steady s t)
    (hheld : ∀ n, 0 < s.refs n → 0 < t.refs n) : Rooted t pwd where
  pwd node hnode := by
    obtain ⟨hpos, sin, hsin⟩ := h.pwd node hnode
    exact ⟨hheld node hpos, hsteady.sfsInode (hheld node hpos) hsin⟩
  bootfs node hnode := by
    obtain ⟨hpos, sin, hsin⟩ := h.bootfs node (hsteady.bootfsNode ▸ hnode)
    exact ⟨hheld node hpos, hsteady.sfsInode (hheld node hpos) hsin⟩
  vdev vdev hin node hnode := by
    obtain ⟨hpos, dev, hdev⟩ := h.vdev vdev (hsteady.vdevList ▸ hin) node hnode
    exact ⟨hheld node hpos, dev, ((hsteady.device node dev).mpr ⟨mem_heap_of_refs hpos, hdev⟩).2⟩

/-! ## Operations on one inode -/

theorem Sound.opens_le_refs (h : Sound P s) (node : Node) : s.opens node ≤ s.refs node := by
  unfold Inodes.opens Inodes.refs
  split
  · next hin => exact h.open_le node hin
  · exact Nat.le_refl 0

theorem vopOp_checked {sym : Sym} (h : Sound P s) (hheld : 0 < s.refs node) :
    Ends countsChecked (vopOp node sym) s fun _ t => t = s := by
  have hlive := mem_heap_of_refs hheld
  apply (vopOp_spec ⟨hlive, Or.inr nofun, h.open_le node hlive, Or.inr nofun⟩).imp
  exact fun _ _ hsame => hsame.1

theorem vopOpen_checked {openFlags : BitVec 32} (h : Sound P s) (hheld : 0 < s.refs node) :
    Ends countsChecked (vopOpen node openFlags) s fun _ t => t = s := by
  rw [vopOpen, ends_bind]
  apply (vopOp_checked h hheld).imp
  rintro _ _ rfl
  rw [ends_bind, ends_get]
  split
  · exact rfl
  · split
    · exact rfl
    · exact rfl

theorem vopGettype_checked (h : Sound P s) (hheld : 0 < s.refs node) :
    Ends countsChecked (vopGettype node) s fun isDir t => t = s ∧
      (isDir = true → ∃ sin, s.info node = .sfsInode sin) := by
  rw [vopGettype, ends_bind]
  apply (vopOp_checked h hheld).imp
  rintro _ _ rfl
  rw [ends_bind, ends_get]
  split
  · exact ⟨rfl, nofun⟩
  · next sin hsin =>
    rw [ends_bind]
    exact Ends.check_or (Or.inr nofun) fun _ => ⟨rfl, fun _ => ⟨sin, hsin⟩⟩

theorem vopFstat_checked (h : Sound P s) (hheld : 0 < s.refs node) :
    Ends countsChecked (vopFstat node) s fun _ t => t = s := by
  rw [vopFstat, ends_bind]
  apply (vopOp_checked h hheld).imp
  rintro _ _ rfl
  rw [ends_bind]
  apply (vopGettype_checked h hheld).imp
  rintro _ _ ⟨rfl, _⟩
  rw [ends_bind, ends_get]
  split
  · exact rfl
  · exact rfl

/-- The size and the blocks of a file change. -/
theorem Sound.resize {sin' : SfsInode} {u : Inodes} (h : Sound P s) (hheld : 0 < s.refs node)
    (hinfo : s.info node = .sfsInode sin) (hfile : sin.din.type = SFS_TYPE_FILE)
    (hsin : sin'.ino = sin.ino ∧ sin'.reclaimCount = sin.reclaimCount)
    (hdin : sin'.din.type = sin.din.type ∧ sin'.din.nlinks = sin.din.nlinks)
    (hu : u = s ∨ u = s.asked) : Kept P s (u.setSin node sin') := by
  have hlive := mem_heap_of_refs hheld
  have hpos : s.refCount node ≠ 0 := by
    rw [← refs_of_mem hlive]
    exact Nat.ne_of_gt hheld
  cases h.kind node hlive with
  | device _ hd => exact nomatch hd.symm.trans hinfo
  | sfsInode sin₀ hd hin hok =>
      obtain rfl := Info.sfsInode.inj (hinfo.symm.trans hd)
      have hok' : SinOk P (s.refCount node) sin' := by
        refine ⟨hdin.1 ▸ hok.type, hdin.2 ▸ hok.nlinks, hsin.2 ▸ hok.reclaimCount,
          fun hzero => absurd hzero hpos, fun hzero => absurd hzero hpos, ?_⟩
        rw [hdin.1, hsin.1, hfile]
        exact P.resize _ _ _ (hfile ▸ hok.good)
      have hopen := h.open_le node hlive
      rcases hu with rfl | rfl
      · exact h.change onlyAt_setSin rfl rfl hin (Function.update_self node _ _) hok' hopen
      · exact h.change onlyAt_answered rfl rfl hin (Function.update_self node _ _) hok' hopen

/-- A file that has the blocks that its size needs is emptied, or keeps some. -/
theorem sfsTruncfile_spec {E : Stop → Prop} (h : Sound P s) (hheld : 0 < s.refs node)
    (hinfo : s.info node = .sfsInode sin) (hfile : sin.din.type = SFS_TYPE_FILE)
    (hmatch : (sin.din.size = 0 → sin.din.blocks = 0) ∨ E .truncfile) :
    Ends E (sfsTruncfile node) s fun ret t => Kept P s t ∧ ret ≤ 0 := by
  rw [sfsTruncfile, ends_bind, ends_sfsInode (mem_heap_of_refs hheld) hinfo]
  split
  · next hzero =>
    rw [ends_bind]
    apply Ends.check_or (hmatch.imp_left fun hblocks => hblocks hzero)
    exact fun _ => ⟨⟨h, Steady.refl s⟩, le_refl 0⟩
  split
  · exact ⟨h.resize hheld hinfo hfile ⟨rfl, rfl⟩ ⟨rfl, rfl⟩ (Or.inl rfl), le_refl 0⟩
  rw [ends_bind, ends_ask]
  split
  · exact ⟨h.resize hheld hinfo hfile ⟨rfl, rfl⟩ ⟨rfl, rfl⟩ (Or.inr rfl), by omega⟩
  · exact ⟨h.resize hheld hinfo hfile ⟨rfl, rfl⟩ ⟨rfl, rfl⟩ (Or.inr rfl), le_refl 0⟩

/-- What `__vop_op` has checked where it returns. -/
theorem vopOp_passed {sym : Sym} : Ends anyway (vopOp node sym) s fun _ t =>
    t = s ∧ sym ∈ (s.info node).inOps ∧ s.refs node < MAX_INODE_COUNT := by
  rw [vopOp, ends_bind, live, ends_bind, ends_get, ends_check_of trivial]
  intro hlive
  rw [ends_bind, ends_get, ends_bind, ends_check_of trivial]
  intro hop
  rw [inodeCheck, ends_bind, ends_liveOf hlive, ends_bind, ends_get, ends_bind,
    ends_check_of trivial]
  intro _
  rw [ends_check_of trivial]
  exact fun hroom => ⟨rfl, hop, refs_of_mem hlive ▸ hroom.1⟩

/-- Only files have `vop_truncate`. -/
theorem file_of_truncate_op {info : Info} (hop : Sym.truncate ∈ info.inOps) :
    ∃ sin, info = .sfsInode sin ∧ sin.din.type = SFS_TYPE_FILE := by
  cases info with
  | device dev => simp [Info.inOps] at hop
  | sfsInode sin =>
      refine ⟨sin, rfl, ?_⟩
      by_contra hfile
      simp [Info.inOps, hfile] at hop

theorem vopTruncate_checked (h : Sound P s) (hheld : 0 < s.refs node) :
    Ends countsChecked (vopTruncate node) s fun _ t => Kept P s t := by
  rw [vopTruncate, ends_bind]
  apply ((vopOp_checked h hheld).and vopOp_passed).imp
  rintro _ _ ⟨rfl, _, hop, _⟩
  obtain ⟨sin, hinfo, hfile⟩ := file_of_truncate_op hop
  apply (sfsTruncfile_spec h hheld hinfo hfile (Or.inr nofun)).imp
  exact fun _ _ hdone => hdone.1

/-- A reference to an open inode is added, and given back. -/
theorem inodeOpenInc_kept (h : Sound P s) (hlt : s.opens node < s.refs node) :
    Ends countsChecked (inodeOpenInc node) s fun _ t => Kept P s t ∧
      t.counts = (s.refs, give s.opens node) := by
  have hlive := mem_heap_of_refs (Nat.zero_lt_of_lt hlt)
  rw [opens_of_mem hlive, refs_of_mem hlive] at hlt
  exact (inodeOpenInc_spec h hlive hlt).and inodeOpenInc_counts

theorem inodeOpenDec_kept (h : Sound P s) (hopen : 0 < s.opens node) :
    Ends countsChecked (inodeOpenDec node) s fun _ t => Kept P s t ∧
      t.counts = (s.refs, take s.opens node) := by
  have hlive := mem_heap_of_refs (hopen.trans_le (h.opens_le_refs node))
  rw [opens_of_mem hlive] at hopen
  exact (inodeOpenDec_spec h hlive hopen (Or.inr nofun)).and inodeOpenDec_counts

/-- `vfs_close` of an inode that is open, and of a device only while it is referred to besides. -/
theorem vfsClose_kept (h : Sound P s) (hopen : 0 < s.opens node)
    (hdevice : ∀ dev, s.info node = .device dev → 1 < s.refs node) :
    Ends countsChecked (vfsClose node) s fun _ t => Kept P s t ∧
      t.counts = (take s.refs node, take s.opens node) := by
  refine Ends.and ?_ vfsClose_counts
  rw [vfsClose, ends_bind]
  apply (inodeOpenDec_kept h hopen).imp
  rintro _ s₁ ⟨hkept, hcounts⟩
  obtain ⟨hrefs, hopens⟩ := Prod.mk.inj hcounts
  have hle := h.opens_le_refs node
  have hheld : 0 < s₁.refs node := by
    rw [hrefs]
    exact hopen.trans_le hle
  have hlive := mem_heap_of_refs hheld
  apply (inodeRefDec_spec hkept.sound ⟨hlive, ?_, ?_⟩).imp
  · exact fun _ _ hdec => hkept.trans hdec
  · rw [← refs_of_mem hlive, ← opens_of_mem hlive, hrefs, hopens, Fs.Inode.take_same]
    omega
  · intro dev hdev
    rw [← refs_of_mem hlive, hrefs]
    exact hdevice dev ((hkept.steady.device node dev).mp ⟨hlive, hdev⟩).2

/-! ## Open -/

/-- `vfs_open` of an inode that has been found. -/
theorem vfsOpenNode_kept {openFlags : BitVec 32} (h : Sound P s₀) (hkept : Kept P s₀ s)
    (hfound : Found s₀ (.ok node) s) : Ends countsChecked (vfsOpenNode node openFlags) s fun _ t =>
      Kept P s₀ t := by
  obtain ⟨hrefs, hopens⟩ := Prod.mk.inj hfound
  have hle := h.opens_le_refs node
  have hmore : s.refs node = s₀.refs node + 1 := by
    rw [hrefs, Fs.Inode.give_same]
  have hheld : 0 < s.refs node := by omega
  rw [vfsOpenNode, ends_bind]
  apply (vopOpen_checked hkept.sound hheld).imp
  intro ret s₁ hsame
  rw [hsame]
  split
  · rw [ends_bind]
    exact (inodeRefDec_kept h hkept (by omega) (congrFun hopens node)).imp fun _ _ hdec => hdec.1
  rw [ends_bind]
  have hlt : s.opens node < s.refs node := by
    rw [hopens, hmore]
    omega
  apply (inodeOpenInc_kept hkept.sound hlt).imp
  rintro _ s₁ ⟨hkept₁, hcounts₁⟩
  obtain ⟨hrefs₁, hopens₁⟩ := Prod.mk.inj hcounts₁
  have hkept₁ := hkept.trans hkept₁
  split
  · rw [ends_bind]
    apply ((vopTruncate_checked hkept₁.sound (hrefs₁ ▸ hheld)).and (vopTruncate_counts s₁)).imp
    rintro ret s₂ ⟨hkept₂, hcounts₂⟩
    obtain ⟨hrefs₂, hopens₂⟩ := Prod.mk.inj (hcounts₂.trans hcounts₁)
    have hkept₂ := hkept₁.trans hkept₂
    split
    · have hopen : 0 < s₂.opens node := by
        rw [hopens₂, Fs.Inode.give_same]
        exact Nat.succ_pos _
      rw [ends_bind]
      apply (inodeOpenDec_kept hkept₂.sound hopen).imp
      rintro _ s₃ ⟨hkept₃, hcounts₃⟩
      obtain ⟨hrefs₃, hopens₃⟩ := Prod.mk.inj hcounts₃
      rw [ends_bind]
      refine (inodeRefDec_kept h (hkept₂.trans hkept₃) ?_ ?_).imp fun _ _ hdec => hdec.1
      · rw [hrefs₃, hrefs₂, hmore]
        exact Nat.lt_succ_self _
      · rw [hopens₃, hopens₂, take_give, hopens]
    · exact hkept₂
  · exact hkept₁

theorem Found.held {found : Except Int Node} (h : Found s found t) {n : Node}
    (hheld : 0 < s.refs n) :
    0 < t.refs n := hheld.trans_le (h.le_refs n).1

theorem vfsOpen_kept {path : Str} {openFlags : BitVec 32} (h : Sound (anyInode calm) s)
    (hg : Rooted s pwd) :
    Ends countsChecked (vfsOpen pwd path openFlags) s fun _ t => Kept (anyInode calm) s t := by
  rw [vfsOpen]
  split
  · exact ⟨h, Steady.refl s⟩
  rw [ends_bind]
  apply (vfsLookup_spec h hg.grounded (resolvable_anyInode path)).imp
  rintro found s₁ ⟨⟨hkept, _⟩, hfound⟩
  cases found with
  | ok node =>
      change Ends countsChecked (if _ then _ else _) s₁ _
      split
      · exact hkept
      · exact vfsOpenNode_kept h hkept hfound
  | error ret =>
      change Ends countsChecked (if _ then _ else _) s₁ _
      split
      · have hg₁ : Rooted s₁ pwd := hg.of_steady hkept.steady fun _ hheld => hfound.held hheld
        rw [vfsLookupParent, ends_bind]
        apply ((getDevice_spec hkept.sound hg₁.grounded (cutPath path)).and
          (getDevice_counts pwd (cutPath path))).imp
        rintro start s₂ ⟨⟨hkept₂, _⟩, hstart⟩
        cases start with
        | error _ => exact hkept.trans hkept₂
        | ok start =>
            have hheld : 0 < s₂.refs start.2 := by
              have hrefs : s₂.refs = give s₁.refs start.2 := congrArg Prod.fst hstart
              rw [hrefs, Fs.Inode.give_same]
              exact Nat.succ_pos _
            rw [ends_bind, vopCreate, ends_bind]
            exact (vopOp_checked hkept₂.sound hheld).imp fun _ _ _ hno => by cases hno
      · exact hkept

/-- A `vfs_open` that succeeds counts as it should, and so does one that fails, unless it is
exclusive. -/
theorem vfsOpen_opened {path : Str} {openFlags : BitVec 32} :
    Ends anyway (vfsOpen pwd path openFlags) s fun opened t => match opened with
      | .ok node => t.counts = (give s.refs node, give s.opens node)
      | .error _ => ¬ Exclusive openFlags → t.counts = s.counts := by
  by_cases hexcl : Exclusive openFlags ∧ Exists s pwd path
  · obtain ⟨_, t, hrun, _⟩ := vfsOpen_exclusive hexcl.1 hexcl.2
    unfold Ends
    rw [hrun]
    exact fun hnot => absurd hexcl.1 hnot
  · apply (vfsOpen_counts pwd path openFlags hexcl).imp
    intro opened t hopened
    cases opened with
    | ok node => exact hopened
    | error ret => exact fun _ => hopened

/-! ## The current directory -/

theorem take_comm (f : Node → Nat) (m n : Node) : take (take f m) n = take (take f n) m := by
  by_cases hmn : m = n
  · rw [hmn]
  ext k
  by_cases hm : k = m
  · subst hm
    rw [Fs.Inode.take_of_ne _ hmn, Fs.Inode.take_same, Fs.Inode.take_same,
      Fs.Inode.take_of_ne _ hmn]
  · rw [Fs.Inode.take_of_ne (take f n) hm]
    by_cases hn : k = n
    · subst hn
      rw [Fs.Inode.take_same, Fs.Inode.take_same, Fs.Inode.take_of_ne _ hm]
    · rw [Fs.Inode.take_of_ne _ hn, Fs.Inode.take_of_ne _ hn, Fs.Inode.take_of_ne _ hm]

/-- The references after the directory `dir`, referred to once more, has become the current one. -/
def movedRefs (refs : Node → Nat) (pwd : Option Node) (dir : Node) : Node → Nat :=
  match pwd with
  | none => give refs dir
  | some old => take (give refs dir) old

/-- The reference of a current directory moves, if it changes. -/
def Moved (s : Inodes) (pwd pwd' : Option Node) (t : Inodes) : Prop :=
  pwd' = pwd ∧ t.counts = s.counts ∨
    ∃ dir, pwd' = some dir ∧ pwd ≠ some dir ∧ (∃ sin, t.info dir = .sfsInode sin) ∧
      t.counts = (movedRefs s.refs pwd dir, s.opens)

theorem movedRefs_same (refs : Node → Nat) (hother : pwd ≠ some dir) :
    movedRefs refs pwd dir dir = refs dir + 1 := by
  cases pwd with
  | none => exact Fs.Inode.give_same refs
  | some old =>
      have hne : dir ≠ old := fun heq => hother (congrArg some heq.symm)
      rw [movedRefs, Fs.Inode.take_of_ne _ hne, Fs.Inode.give_same]

/-- `vfs_set_curdir` to an inode that has been found. -/
theorem vfsSetCurdir_kept (h : Sound P s) (hkept : Kept P s₀ s) (hfound : Found s₀ (.ok dir) s)
    (hdir : ∀ n, pwd = some n → s₀.opens n < s₀.refs n ∧ ∃ sin, s₀.info n = .sfsInode sin) :
    Ends countsChecked (vfsSetCurdir pwd dir) s fun changed t => Kept P s t ∧
      (changed.2 = pwd ∧ t.counts = s.counts ∨ changed.2 = some dir ∧ pwd ≠ some dir ∧
        (∃ sin, s.info dir = .sfsInode sin) ∧ t.counts = (movedRefs s.refs pwd dir, s.opens)) := by
  obtain ⟨hrefs, hopens⟩ := Prod.mk.inj hfound
  have hheld : 0 < s.refs dir := by
    rw [hrefs, Fs.Inode.give_same]
    exact Nat.succ_pos _
  rw [vfsSetCurdir]
  split
  · exact ⟨⟨h, Steady.refl s⟩, Or.inl ⟨rfl, rfl⟩⟩
  next hother =>
  rw [ends_bind]
  apply (vopGettype_checked h hheld).imp
  rintro isDir s₁ ⟨hsame, hisDir⟩
  rw [hsame]
  split
  · next hisdir =>
    rw [ends_bind]
    apply (inodeRefInc_kept h hheld).imp
    rintro _ s₂ ⟨hkept₂, hcounts₂, _⟩
    obtain ⟨hrefs₂, hopens₂⟩ := Prod.mk.inj hcounts₂
    cases pwd with
    | none => exact ⟨hkept₂, Or.inr ⟨rfl, hother, hisDir hisdir, hcounts₂⟩⟩
    | some old =>
        have hne : old ≠ dir := fun heq => hother (congrArg some heq)
        obtain ⟨hlt, sin, hsin⟩ := hdir old rfl
        have hrefsOld : s₂.refs old = s₀.refs old := by
          rw [hrefs₂, hrefs, Fs.Inode.give_of_ne _ hne, Fs.Inode.give_of_ne _ hne]
        have hlive : old ∈ s₂.heap := mem_heap_of_refs (hrefsOld ▸ Nat.zero_lt_of_lt hlt)
        have hrel : Releasable s₂ old := by
          refine ⟨hlive, ?_, ?_⟩
          · rw [← opens_of_mem hlive, ← refs_of_mem hlive, hrefsOld, hopens₂, hopens]
            exact hlt
          · intro dev hdev
            have hdev₀ := ((hkept.trans hkept₂).steady.device old dev).mp ⟨hlive, hdev⟩
            exact nomatch hdev₀.2.symm.trans hsin
        change Ends countsChecked (inodeRefDec old >>= _) s₂ _
        rw [ends_bind]
        apply ((inodeRefDec_spec hkept₂.sound hrel).and inodeRefDec_counts).imp
        rintro _ t ⟨hkept₃, hcounts₃⟩
        refine ⟨hkept₂.trans hkept₃, Or.inr ⟨rfl, hother, hisDir hisdir, ?_⟩⟩
        rw [hcounts₃, hrefs₂, hopens₂]
        rfl
  · exact ⟨⟨h, Steady.refl s⟩, Or.inl ⟨rfl, rfl⟩⟩

/-- The extra reference of the lookup is given back after the directory has moved. -/
theorem take_movedRefs (refs : Node → Nat) :
    take (movedRefs (give refs dir) pwd dir) dir = movedRefs refs pwd dir := by
  cases pwd with
  | none => exact take_give (give refs dir)
  | some old =>
      change take (take (give (give refs dir) dir) old) dir = take (give refs dir) old
      rw [take_comm, take_give]

theorem vfsChdir_kept {path : Str} (h : Sound (anyInode calm) s) (hg : Rooted s pwd)
    (hopen : ∀ n, pwd = some n → s.opens n < s.refs n) :
    Ends countsChecked (vfsChdir pwd path) s fun changed t =>
      Kept (anyInode calm) s t ∧ Moved s pwd changed.2 t := by
  rw [vfsChdir, ends_bind]
  apply (vfsLookup_spec h hg.grounded (resolvable_anyInode path)).imp
  rintro found s₁ ⟨⟨hkept, _⟩, hfound⟩
  cases found with
  | error ret => exact ⟨hkept, Or.inl ⟨rfl, hfound⟩⟩
  | ok dir =>
      obtain ⟨hrefs, hopens⟩ := Prod.mk.inj hfound
      change Ends countsChecked (vfsSetCurdir pwd dir >>= _) s₁ _
      rw [ends_bind]
      apply (vfsSetCurdir_kept hkept.sound hkept hfound fun n hn =>
        ⟨hopen n hn, (hg.pwd n hn).2⟩).imp
      rintro changed s₂ ⟨hkept₂, hmoved⟩
      -- the reference of the lookup is still there
      have hextra : s.refs dir < s₂.refs dir ∧ s₂.opens = s.opens := by
        rcases hmoved with ⟨_, hcounts⟩ | ⟨_, hother, _, hcounts⟩
        · obtain ⟨hrefs₂, hopens₂⟩ := Prod.mk.inj hcounts
          refine ⟨?_, hopens₂.trans hopens⟩
          rw [hrefs₂, hrefs, Fs.Inode.give_same]
          exact Nat.lt_succ_self _
        · obtain ⟨hrefs₂, hopens₂⟩ := Prod.mk.inj hcounts
          refine ⟨?_, hopens₂.trans hopens⟩
          rw [hrefs₂, hrefs, movedRefs_same _ hother, Fs.Inode.give_same]
          omega
      have hkept₂' := hkept.trans hkept₂
      rw [ends_bind]
      apply ((inodeRefDec_spec hkept₂.sound
        (hkept₂'.releasable h hextra.1 (congrFun hextra.2 dir))).and inodeRefDec_counts).imp
      rintro _ t ⟨hkept₃, hcounts₃⟩
      refine ⟨hkept₂'.trans hkept₃, ?_⟩
      rcases hmoved with ⟨hpwd, hcounts⟩ | ⟨hpwd, hother, ⟨sin, hsin⟩, hcounts⟩
      · obtain ⟨hrefs₂, _⟩ := Prod.mk.inj hcounts
        refine Or.inl ⟨hpwd, ?_⟩
        rw [hcounts₃, hextra.2, hrefs₂, hrefs, take_give]
        rfl
      · obtain ⟨hrefs₂, _⟩ := Prod.mk.inj hcounts
        have hcounts : t.counts = (movedRefs s.refs pwd dir, s.opens) := by
          rw [hcounts₃, hextra.2, hrefs₂, hrefs, take_movedRefs]
        refine Or.inr ⟨dir, hpwd, hother, ?_, hcounts⟩
        refine (hkept₂.trans hkept₃).steady.sfsInode ?_ hsin
        have hrefs₃ : t.refs = movedRefs s.refs pwd dir := congrArg Prod.fst hcounts
        rw [hrefs₃, movedRefs_same _ hother]
        exact Nat.succ_pos _

end Ucore.Vfs
