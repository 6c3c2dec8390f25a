import Ucore.Vfs.Counts

/-!
# Inodes in order

Between operations, an inode of the SFS is on its lists, and is the business of
`sfs_reclaim` exactly when nobody refers to it: then its last write failed. No inode is
open more often than it is referred to. Each operation keeps this, and says what it needs
so that no assertion fails.
-/

namespace Ucore.Vfs

open Machine
open Fs.Inode (give take MAX_INODE_COUNT)

variable {s t : Inodes} {node n : Node} {ino : Ino} {sin : SfsInode} {sym : Sym} {E : Stop → Prop}
  {P : Law}

/-- What holds of the number, the type and the blocks of an inode is up to the disk, but a
file may have any blocks. It may be assumed that the disk and `kmalloc` do not fail. -/
structure Law where
  good : Ino → BitVec 16 → Nat → Prop
  resize : ∀ ino blocks blocks', good ino SFS_TYPE_FILE blocks → good ino SFS_TYPE_FILE blocks'
  calm : Prop

/-- Every answer of the device and of `kmalloc` from here on is that all went well. -/
def Inodes.Calm (s : Inodes) : Prop := ∀ i, (s.answers i).error = 0

/-- The fields of an inode of the SFS with `refs` references. -/
structure SinOk (P : Law) (refs : Nat) (sin : SfsInode) : Prop where
  type : sin.din.type = SFS_TYPE_DIR ∨ sin.din.type = SFS_TYPE_FILE
  nlinks : sin.din.nlinks ≠ 0
  reclaimCount : sin.reclaimCount = if refs = 0 then 0 else 1
  dirty : refs = 0 → sin.dirty = true
  idle : refs = 0 → ¬ P.calm
  good : P.good sin.ino sin.din.type sin.din.blocks

/-- An allocated inode: a device, which is referred to, or an inode on the lists. -/
inductive Kind (P : Law) (s : Inodes) (node : Node) : Prop
  | device (dev : Device) (hinfo : s.info node = .device dev) (hout : node ∉ s.inodeList)
      (hheld : 0 < s.refCount node)
  | sfsInode (sin : SfsInode) (hinfo : s.info node = .sfsInode sin) (hin : node ∈ s.inodeList)
      (hok : SinOk P (s.refCount node) sin)

/-- The inodes in memory are in order: those of the SFS are on its list, with counts that fit
together, and what `P` asks holds of each. -/
structure Sound (P : Law) (s : Inodes) : Prop where
  nodup : s.inodeList.Nodup
  listed : ∀ n ∈ s.inodeList, n ∈ s.heap
  kind : ∀ n ∈ s.heap, Kind P s n
  open_le : ∀ n ∈ s.heap, s.openCount n ≤ s.refCount n
  calm : P.calm → s.Calm

/-- Devices stay, and what is mounted. -/
structure Steady (s t : Inodes) : Prop where
  device : ∀ n dev, (n ∈ t.heap ∧ t.info n = .device dev) ↔ (n ∈ s.heap ∧ s.info n = .device dev)
  vdevList : t.vdevList = s.vdevList
  bootfsNode : t.bootfsNode = s.bootfsNode
  disk : t.disk = s.disk

theorem Steady.refl (s : Inodes) : Steady s s := ⟨fun _ _ => Iff.rfl, rfl, rfl, rfl⟩

theorem Steady.trans {u : Inodes} (h : Steady s t) (h' : Steady t u) : Steady s u where
  device n dev := (h'.device n dev).trans (h.device n dev)
  vdevList := h'.vdevList.trans h.vdevList
  bootfsNode := h'.bootfsNode.trans h.bootfsNode
  disk := h'.disk.trans h.disk

/-- What an operation keeps. -/
structure Kept (P : Law) (s t : Inodes) : Prop where
  sound : Sound P t
  steady : Steady s t

theorem Kept.trans {u : Inodes} (h : Kept P s t) (h' : Kept P t u) : Kept P s u :=
  ⟨h'.sound, h.steady.trans h'.steady⟩

/-- `t` is `s` but for one inode and the answers. -/
structure OnlyAt (node : Node) (s t : Inodes) : Prop where
  info : ∀ n, n ≠ node → t.info n = s.info n
  refCount : ∀ n, n ≠ node → t.refCount n = s.refCount n
  openCount : ∀ n, n ≠ node → t.openCount n = s.openCount n
  vdevList : t.vdevList = s.vdevList
  bootfsNode : t.bootfsNode = s.bootfsNode
  disk : t.disk = s.disk
  calm : s.Calm → t.Calm

theorem OnlyAt.trans {u : Inodes} (h : OnlyAt node s t) (h' : OnlyAt node t u) :
    OnlyAt node s u where
  info n hn := (h'.info n hn).trans (h.info n hn)
  refCount n hn := (h'.refCount n hn).trans (h.refCount n hn)
  openCount n hn := (h'.openCount n hn).trans (h.openCount n hn)
  vdevList := h'.vdevList.trans h.vdevList
  bootfsNode := h'.bootfsNode.trans h.bootfsNode
  disk := h'.disk.trans h.disk
  calm := h'.calm ∘ h.calm

theorem onlyAt_setRef {k : Nat} : OnlyAt node s (s.setRef node k) :=
  ⟨fun _ _ => rfl, fun _ hn => Function.update_of_ne hn .., fun _ _ => rfl, rfl, rfl, rfl, id⟩

theorem onlyAt_setOpen {k : Nat} : OnlyAt node s (s.setOpen node k) :=
  ⟨fun _ _ => rfl, fun _ _ => rfl, fun _ hn => Function.update_of_ne hn .., rfl, rfl, rfl, id⟩

theorem onlyAt_setSin : OnlyAt node s (s.setSin node sin) :=
  ⟨fun _ hn => Function.update_of_ne hn .., fun _ _ => rfl, fun _ _ => rfl, rfl, rfl, rfl, id⟩

namespace Sound

/-- One inode of the SFS changes. -/
theorem change (h : Sound P s) (honly : OnlyAt node s t) (hheap : t.heap = s.heap)
    (hlist : t.inodeList = s.inodeList) (hin : node ∈ s.inodeList)
    (hinfo : t.info node = .sfsInode sin)
    (hok : SinOk P (t.refCount node) sin)
    (hopen : t.openCount node ≤ t.refCount node) : Kept P s t := by
  have hkind : ∀ n ∈ t.heap, Kind P t n := by
    intro n hn
    by_cases hne : n = node
    · subst hne
      exact .sfsInode sin hinfo (hlist ▸ hin) hok
    · cases h.kind n (hheap ▸ hn) with
      | device dev hd hout hheld =>
          exact .device dev ((honly.info n hne).trans hd) (hlist ▸ hout)
            (honly.refCount n hne ▸ hheld)
      | sfsInode sin hd hin hok =>
          exact .sfsInode sin ((honly.info n hne).trans hd) (hlist ▸ hin)
            (honly.refCount n hne ▸ hok)
  refine ⟨⟨hlist ▸ h.nodup, ?_, hkind, ?_, honly.calm ∘ h.calm⟩,
    ⟨?_, honly.vdevList, honly.bootfsNode, honly.disk⟩⟩
  · intro n hn
    rw [hheap]
    exact h.listed n (hlist ▸ hn)
  · intro n hn
    by_cases hne : n = node
    · subst hne
      exact hopen
    · rw [honly.refCount n hne, honly.openCount n hne]
      exact h.open_le n (hheap ▸ hn)
  · intro n dev
    rw [hheap]
    by_cases hne : n = node
    · subst hne
      have hnot : s.info n ≠ .device dev := by
        cases h.kind n (h.listed n hin) with
        | device _ _ hout _ => exact absurd hin hout
        | sfsInode _ hd => simp [hd]
      exact iff_of_false (fun hd => nomatch hinfo.symm.trans hd.2) fun hd => hnot hd.2
    · rw [honly.info n hne]

/-- One device changes in its counts. -/
theorem change_device (h : Sound P s) (honly : OnlyAt node s t) (hheap : t.heap = s.heap)
    (hlist : t.inodeList = s.inodeList) (hinfo : t.info node = s.info node) {dev : Device}
    (hdev : s.info node = .device dev) (hpos : 0 < t.refCount node)
    (hopen : t.openCount node ≤ t.refCount node) : Kept P s t := by
  have hsame : t.info = s.info := by
    funext n
    by_cases hne : n = node
    · rw [hne, hinfo]
    · exact honly.info n hne
  refine ⟨⟨hlist ▸ h.nodup, ?_, ?_, ?_, honly.calm ∘ h.calm⟩,
    ⟨?_, honly.vdevList, honly.bootfsNode, honly.disk⟩⟩
  · intro n hn
    rw [hheap]
    exact h.listed n (hlist ▸ hn)
  · intro n hn
    cases h.kind n (hheap ▸ hn) with
    | device dev hd hout hheld =>
        refine .device dev (hsame ▸ hd) (hlist ▸ hout) ?_
        by_cases hne : n = node
        · exact hne ▸ hpos
        · rw [honly.refCount n hne]
          exact hheld
    | sfsInode sin hd hin hok =>
        have hne : n ≠ node := by
          rintro rfl
          exact nomatch hd.symm.trans hdev
        exact .sfsInode sin (hsame ▸ hd) (hlist ▸ hin) (honly.refCount n hne ▸ hok)
  · intro n hn
    by_cases hne : n = node
    · subst hne
      exact hopen
    · rw [honly.refCount n hne, honly.openCount n hne]
      exact h.open_le n (hheap ▸ hn)
  · intro n dev
    rw [hheap, hsame]

/-- An inode of the SFS is freed. -/
theorem remove (h : Sound P s) (honly : OnlyAt node s t) (hheap : t.heap = s.heap.erase node)
    (hlist : t.inodeList = s.inodeList.erase node) (hin : node ∈ s.inodeList) : Kept P s t := by
  have hmem : ∀ n, n ∈ t.heap ↔ n ≠ node ∧ n ∈ s.heap := by
    intro n
    rw [hheap, Finset.mem_erase]
  have hmemList : ∀ n, n ∈ t.inodeList ↔ n ≠ node ∧ n ∈ s.inodeList := by
    intro n
    rw [hlist, h.nodup.mem_erase_iff]
  refine ⟨⟨hlist ▸ h.nodup.erase node, ?_, ?_, ?_, honly.calm ∘ h.calm⟩,
    ⟨?_, honly.vdevList, honly.bootfsNode, honly.disk⟩⟩
  · intro n hn
    obtain ⟨hne, hn⟩ := (hmemList n).mp hn
    exact (hmem n).mpr ⟨hne, h.listed n hn⟩
  · intro n hn
    obtain ⟨hne, hn⟩ := (hmem n).mp hn
    cases h.kind n hn with
    | device dev hd hout hheld =>
        exact .device dev ((honly.info n hne).trans hd) (fun hin => hout ((hmemList n).mp hin).2)
          (honly.refCount n hne ▸ hheld)
    | sfsInode sin hd hin hok =>
        exact .sfsInode sin ((honly.info n hne).trans hd) ((hmemList n).mpr ⟨hne, hin⟩)
          (honly.refCount n hne ▸ hok)
  · intro n hn
    obtain ⟨hne, hn⟩ := (hmem n).mp hn
    rw [honly.refCount n hne, honly.openCount n hne]
    exact h.open_le n hn
  · intro n dev
    rw [hmem]
    by_cases hne : n = node
    · subst hne
      have hnot : s.info n ≠ .device dev := by
        cases h.kind n (h.listed n hin) with
        | device _ _ hout _ => exact absurd hin hout
        | sfsInode _ hd => simp [hd]
      exact iff_of_false (fun hd => hd.1.1 rfl) fun hd => hnot hd.2
    · rw [honly.info n hne]
      simp [hne]

/-- The answers do not matter. -/
theorem answers (h : Sound P s) (hheap : t.heap = s.heap) (hrefs : t.refCount = s.refCount)
    (hopens : t.openCount = s.openCount) (hinfo : t.info = s.info)
    (hlist : t.inodeList = s.inodeList)
    (hcalm : s.Calm → t.Calm) : Sound P t := by
  refine ⟨hlist ▸ h.nodup, hlist ▸ hheap ▸ h.listed, ?_, ?_, hcalm ∘ h.calm⟩
  · intro n hn
    cases h.kind n (hheap ▸ hn) with
    | device dev hd hout hheld => exact .device dev (hinfo ▸ hd) (hlist ▸ hout) (hrefs ▸ hheld)
    | sfsInode sin hd hin hok => exact .sfsInode sin (hinfo ▸ hd) (hlist ▸ hin) (hrefs ▸ hok)
  · rw [hheap, hrefs, hopens]
    exact h.open_le

end Sound

/-! ## Operations -/

theorem ends_liveOf (hlive : node ∈ s.heap) {Q : PUnit → Inodes → Prop} :
    Ends E (live node) s Q ↔ Q ⟨⟩ s := by
  rw [live, ends_bind, ends_get, ends_check hlive]

theorem ends_sfsInode (hlive : node ∈ s.heap) (hinfo : s.info node = .sfsInode sin)
    {Q : SfsInode → Inodes → Prop} : Ends E (sfsInode node) s Q ↔ Q sin s := by
  rw [sfsInode, ends_bind, ends_liveOf hlive, ends_bind, ends_get, hinfo]
  exact Iff.rfl

/-- What `__vop_op` needs. -/
structure Ready (E : Stop → Prop) (s : Inodes) (node : Node) (sym : Sym) : Prop where
  live : node ∈ s.heap
  op : sym ∈ (s.info node).inOps ∨ E (.noOp sym)
  open_le : s.openCount node ≤ s.refCount node
  room : s.refCount node < MAX_INODE_COUNT ∧ s.openCount node < MAX_INODE_COUNT ∨ E .tooMany

theorem vopOp_spec (h : Ready E s node sym) : Ends E (vopOp node sym) s fun _ t =>
    t = s ∧ (sym ∈ (s.info node).inOps ∨ E (.noOp sym)) := by
  rw [vopOp, ends_bind, ends_liveOf h.live, ends_bind, ends_get, ends_bind]
  refine Ends.check_or h.op fun _ => ?_
  rw [inodeCheck, ends_bind, ends_liveOf h.live, ends_bind, ends_get, ends_bind,
    ends_check h.open_le]
  exact Ends.check_or h.room fun _ => ⟨rfl, h.op⟩

/-- The operations that every inode of the SFS has. -/
theorem SinOk.op {refs : Nat} (h : SinOk P refs sin)
    (hsym : sym ∈ [Sym.open, .close, .fstat, .fsync, .reclaim, .gettype]) :
    sym ∈ (Info.sfsInode sin).inOps := by
  have hne : SFS_TYPE_FILE ≠ SFS_TYPE_DIR := by decide
  simp only [List.mem_cons, List.not_mem_nil, or_false] at hsym
  rcases h.type with htype | htype
  · rcases hsym with rfl | rfl | rfl | rfl | rfl | rfl <;> simp [Info.inOps, htype]
  · rcases hsym with rfl | rfl | rfl | rfl | rfl | rfl <;> simp [Info.inOps, htype, hne]

theorem Sound.exists_sin (h : Sound P s) (hin : node ∈ s.inodeList) :
    ∃ sin, s.info node = .sfsInode sin ∧ SinOk P (s.refCount node) sin := by
  cases h.kind node (h.listed node hin) with
  | device _ _ hout _ => exact absurd hin hout
  | sfsInode sin hinfo _ hok => exact ⟨sin, hinfo, hok⟩

/-- An answer has been given. -/
def Inodes.asked (s : Inodes) : Inodes := { s with answers := fun i => s.answers (i + 1) }

theorem ends_ask {Q : Answer → Inodes → Prop} : Ends E ask s Q ↔ Q (s.answers 0) s.asked := Iff.rfl

theorem Sound.asked (h : Sound P s) : Kept P s s.asked :=
  ⟨h.answers rfl rfl rfl rfl rfl fun hcalm i => hcalm (i + 1), fun _ _ => Iff.rfl, rfl, rfl, rfl⟩

theorem onlyAt_answered : OnlyAt node s (s.asked.setSin node sin) :=
  ⟨fun _ hn => Function.update_of_ne hn .., fun _ _ => rfl, fun _ _ => rfl, rfl, rfl, rfl,
    fun hcalm i => hcalm (i + 1)⟩

/-- `sfs_fsync` of an inode that is dirty. -/
theorem vopFsync_dirty (hlive : node ∈ s.heap) (hinfo : s.info node = .sfsInode sin)
    (hop : Sym.fsync ∈ (Info.sfsInode sin).inOps) (hdirty : sin.dirty = true)
    (hopen : s.openCount node ≤ s.refCount node)
    (hroom : s.refCount node < MAX_INODE_COUNT ∧ s.openCount node < MAX_INODE_COUNT ∨ E .tooMany) :
    Ends E (vopFsync node) s fun ret t => ret = -((s.answers 0).error : Int) ∧
      t = s.asked.setSin node { sin with dirty := decide ((s.answers 0).error ≠ 0) } := by
  rw [vopFsync, ends_bind]
  apply (vopOp_spec ⟨hlive, Or.inl (hinfo ▸ hop), hopen, hroom⟩).imp
  rintro _ _ ⟨rfl, _⟩
  rw [sfsFsync, ends_bind, ends_sfsInode hlive hinfo, if_pos hdirty]
  exact ⟨rfl, rfl⟩

/-- The end of an inode. -/
theorem sfsDiscard_spec {s₀ : Inodes} (h : Sound P s₀) (honly : OnlyAt node s₀ s)
    (hheap : s.heap = s₀.heap)
    (hlist : s.inodeList = s₀.inodeList) (hin : node ∈ s₀.inodeList) (href : s.refCount node = 0)
    (hopen : s.openCount node = 0) : Ends E (sfsDiscard node) s fun ret t => ret = 0 ∧
      Kept P s₀ t := by
  have hlive : node ∈ s.heap := hheap ▸ h.listed node hin
  rw [sfsDiscard, ends_bind, ends_modify, ends_bind, inodeKill, ends_bind,
    ends_liveOf (s := { s with inodeList := s.inodeList.erase node }) hlive, ends_bind, ends_get,
    ends_bind, ends_check href, ends_bind, ends_check hopen]
  refine ⟨rfl, h.remove ⟨honly.info, honly.refCount, honly.openCount, honly.vdevList,
    honly.bootfsNode, honly.disk, honly.calm⟩ ?_ ?_ hin⟩
  · exact congrArg (Finset.erase · node) hheap
  · exact congrArg (List.erase · node) hlist

/-- The last write of an inode without references, and its end. -/
theorem vopReclaim_spec (h : Sound P s) (hin : node ∈ s.inodeList) (href : s.refCount node = 1)
    (hopen : s.openCount node = 0) : Ends E (vopReclaim node)
    (s.setRef node 0) fun _ t => Kept P s t := by
  have hlive := h.listed node hin
  obtain ⟨sin, hinfo, hok⟩ := h.exists_sin hin
  have hcount : sin.reclaimCount = 1 := by
    rw [hok.reclaimCount, href]
    rfl
  have hzero : (s.setRef node 0).refCount node = 0 := Function.update_self node 0 s.refCount
  have hroom : 0 < MAX_INODE_COUNT := by decide
  have hready : Ready E (s.setRef node 0) node .reclaim := by
    refine ⟨hlive, Or.inl ?_, Nat.le_of_eq (hopen.trans hzero.symm),
      Or.inl ⟨hzero.trans_lt hroom, ?_⟩⟩
    · exact hinfo ▸ hok.op (by simp)
    · exact hopen.trans_lt hroom
  rw [vopReclaim, ends_bind]
  apply (vopOp_spec hready).imp
  rintro _ _ ⟨rfl, _⟩
  rw [sfsReclaim, ends_bind, ends_sfsInode (s := s.setRef node 0) hlive hinfo, ends_bind,
    ends_check (by rw [hcount]; decide), ends_bind, ends_modify, ends_bind, ends_get]
  -- the inode after the step of `reclaim_count`
  have hnot : ¬ (sin.reclaimCount - 1 ≠ 0 ∨
      ((s.setRef node 0).setSin node { sin with reclaimCount := sin.reclaimCount - 1 }).refCount
        node ≠ 0) := by
    rintro (hcountdown | hused)
    · exact hcountdown (by rw [hcount])
    · exact hused hzero
  rw [if_neg hnot, if_neg hok.nlinks]
  have honly : OnlyAt node s
      ((s.setRef node 0).setSin node { sin with reclaimCount := sin.reclaimCount - 1 }) :=
    onlyAt_setRef.trans onlyAt_setSin
  generalize hs₁ : (s.setRef node 0).setSin node { sin with reclaimCount := sin.reclaimCount - 1 } =
    s₁ at honly ⊢
  have hinfo₁ : s₁.info node = .sfsInode { sin with reclaimCount := sin.reclaimCount - 1 } := by
    rw [← hs₁]
    exact Function.update_self node _ s.info
  have hheap₁ : s₁.heap = s.heap := by
    rw [← hs₁]
    rfl
  have hlist₁ : s₁.inodeList = s.inodeList := by
    rw [← hs₁]
    rfl
  have href₁ : s₁.refCount node = 0 := by
    rw [← hs₁]
    exact hzero
  have hopen₁ : s₁.openCount node = 0 := by
    rw [← hs₁]
    exact hopen
  have hlive₁ : node ∈ s₁.heap := hheap₁ ▸ hlive
  rw [sfsFlush, ends_bind, ends_sfsInode hlive₁ hinfo₁]
  split
  · next hdirty =>
    rw [ends_bind]
    have hroom₁ : s₁.refCount node < MAX_INODE_COUNT ∧ s₁.openCount node < MAX_INODE_COUNT := by
      rw [href₁, hopen₁]
      exact ⟨hroom, hroom⟩
    apply (vopFsync_dirty hlive₁ hinfo₁ (hok.op (by simp)) hdirty
      (Nat.le_of_eq (hopen₁.trans href₁.symm)) (Or.inl hroom₁)).imp
    rintro ret _ ⟨rfl, rfl⟩
    split
    · next hfailed =>
      -- the inode stays, and is dirty
      have hfailed : (s₁.answers 0).error ≠ 0 := by simpa using hfailed
      refine h.change (honly.trans onlyAt_answered) hheap₁ hlist₁ hin
        (Function.update_self node _ s₁.info) ?_ ?_
      · have hidle : ¬ P.calm := fun hcalm => hfailed (honly.calm (h.calm hcalm) 0)
        refine ⟨hok.type, hok.nlinks, ?_, fun _ => decide_eq_true hfailed, fun _ => hidle, hok.good⟩
        change sin.reclaimCount - 1 = if s₁.refCount node = 0 then 0 else 1
        rw [hcount, href₁]
        rfl
      · exact Nat.le_of_eq (hopen₁.trans href₁.symm)
    · have honly₂ : OnlyAt node s₁ (s₁.asked.setSin node
          { sin with
            reclaimCount := sin.reclaimCount - 1
            dirty := decide ((s₁.answers 0).error ≠ 0) }) :=
        onlyAt_answered
      exact (sfsDiscard_spec h (honly.trans honly₂) hheap₁ hlist₁ hin href₁ hopen₁).imp
        fun _ _ hdone => hdone.2
  · exact (sfsDiscard_spec h honly hheap₁ hlist₁ hin href₁ hopen₁).imp fun _ _ hdone => hdone.2

theorem SinOk.of_pos {refs refs' : Nat} (h : SinOk P refs sin) (hpos : 0 < refs)
    (hpos' : 0 < refs') :
    SinOk P refs' sin := by
  have hne : refs' ≠ 0 := Nat.ne_of_gt hpos'
  refine ⟨h.type, h.nlinks, ?_, fun hzero => absurd hzero hne, fun hzero =>
    absurd hzero hne, h.good⟩
  rw [h.reclaimCount, if_neg (Nat.ne_of_gt hpos), if_neg (Nat.ne_of_gt hpos')]

/-- The counts of an inode that is referred to change. -/
theorem Sound.change_counts (h : Sound P s) (hlive : node ∈ s.heap) (honly : OnlyAt node s t)
    (hheap : t.heap = s.heap) (hlist : t.inodeList = s.inodeList) (hinfo : t.info = s.info)
    (hpos : 0 < s.refCount node) (hpos' : 0 < t.refCount node)
    (hopen : t.openCount node ≤ t.refCount node) :
    Kept P s t := by
  cases h.kind node hlive with
  | device dev hd _ _ =>
      exact h.change_device honly hheap hlist (congrFun hinfo node) hd hpos' hopen
  | sfsInode sin hd hin hok =>
      exact h.change honly hheap hlist hin ((congrFun hinfo node).trans hd)
        (hok.of_pos hpos hpos') hopen

theorem inodeRefInc_spec (h : Sound P s) (hlive : node ∈ s.heap) (hpos : 0 < s.refCount node) :
    Ends E (inodeRefInc node) s fun _ t => Kept P s t := by
  rw [inodeRefInc, ends_bind, ends_liveOf hlive]
  have hinc : (s.setRef node (s.refCount node + 1)).refCount node = s.refCount node + 1 :=
    Function.update_self node _ s.refCount
  refine h.change_counts hlive onlyAt_setRef rfl rfl rfl hpos ?_ ?_
  · rw [hinc]
    exact Nat.succ_pos _
  · rw [hinc]
    exact Nat.le_succ_of_le (h.open_le node hlive)

/-- A reference can be given back: the inode is not open with it, and it is not the last one to
a device. -/
structure Releasable (s : Inodes) (node : Node) : Prop where
  live : node ∈ s.heap
  open_lt : s.openCount node < s.refCount node
  device : ∀ dev, s.info node = .device dev → 1 < s.refCount node

theorem inodeRefDec_spec (h : Sound P s) (hrel : Releasable s node) :
    Ends E (inodeRefDec node) s fun _ t => Kept P s t := by
  have hpos : 0 < s.refCount node := Nat.zero_lt_of_lt hrel.open_lt
  have hdec : (s.setRef node (s.refCount node - 1)).refCount node = s.refCount node - 1 :=
    Function.update_self node _ s.refCount
  rw [inodeRefDec, ends_bind, ends_liveOf hrel.live, ends_bind, ends_get,
    ends_bind, ends_check hpos, ends_bind, ends_modify, ends_bind, ends_get]
  split
  · next hzero =>
    rw [hdec] at hzero
    have hone : s.refCount node = 1 := by omega
    have hopen := hrel.open_lt
    have hin : node ∈ s.inodeList := by
      cases h.kind node hrel.live with
      | device dev hd _ _ => exact absurd (hrel.device dev hd) (by omega)
      | sfsInode _ _ hin _ => exact hin
    rw [ends_bind, hzero]
    exact (vopReclaim_spec h hin hone (by omega)).imp fun _ _ hkept => hkept
  · next hmore =>
    rw [hdec] at hmore
    refine h.change_counts hrel.live onlyAt_setRef rfl rfl rfl hpos ?_ ?_
    · rw [hdec]
      exact Nat.pos_of_ne_zero hmore
    · rw [hdec]
      exact Nat.le_sub_one_of_lt hrel.open_lt

theorem inodeOpenInc_spec (h : Sound P s) (hlive : node ∈ s.heap)
    (hlt : s.openCount node < s.refCount node) :
    Ends E (inodeOpenInc node) s fun _ t => Kept P s t := by
  have hpos : 0 < s.refCount node := Nat.zero_lt_of_lt hlt
  have hinc : (s.setOpen node (s.openCount node + 1)).openCount node = s.openCount node + 1 :=
    Function.update_self node _ s.openCount
  rw [inodeOpenInc, ends_bind, ends_liveOf hlive]
  refine h.change_counts hlive onlyAt_setOpen rfl rfl rfl hpos hpos ?_
  rw [hinc]
  exact hlt

/-- With room for one more reference, there is room for one more opening. -/
theorem Sound.room (h : Sound P s) (hlive : node ∈ s.heap)
    (hmany : s.refCount node < MAX_INODE_COUNT ∨ E .tooMany) :
    s.refCount node < MAX_INODE_COUNT ∧ s.openCount node < MAX_INODE_COUNT ∨ E .tooMany :=
  hmany.imp_left fun hlt => ⟨hlt, (h.open_le node hlive).trans_lt hlt⟩

/-- `vop_fsync` of an inode that is referred to. -/
theorem vopFsync_spec (h : Sound P s) (hin : node ∈ s.inodeList) (hpos : 0 < s.refCount node)
    (hmany : s.refCount node < MAX_INODE_COUNT ∨ E .tooMany) :
    Ends E (vopFsync node) s fun _ t => Kept P s t := by
  have hlive := h.listed node hin
  have hroom := h.room hlive hmany
  obtain ⟨sin, hinfo, hok⟩ := h.exists_sin hin
  by_cases hdirty : sin.dirty = true
  · apply (vopFsync_dirty hlive hinfo (hok.op (by simp)) hdirty (h.open_le node hlive) hroom).imp
    rintro _ _ ⟨_, rfl⟩
    refine h.change onlyAt_answered rfl rfl hin (Function.update_self node _ s.info) ?_
      (h.open_le node hlive)
    have hne : s.refCount node ≠ 0 := Nat.ne_of_gt hpos
    exact ⟨hok.type, hok.nlinks, hok.reclaimCount, fun hzero => absurd hzero hne,
      fun hzero => absurd hzero hne, hok.good⟩
  · rw [vopFsync, ends_bind]
    have hop : Sym.fsync ∈ (s.info node).inOps := hinfo ▸ hok.op (by simp)
    apply (vopOp_spec ⟨hlive, Or.inl hop, h.open_le node hlive, hroom⟩).imp
    rintro _ _ ⟨rfl, _⟩
    rw [sfsFsync, ends_bind, ends_sfsInode hlive hinfo, if_neg hdirty]
    exact ⟨h, Steady.refl _⟩

theorem vopClose_spec (h : Sound P s) (hlive : node ∈ s.heap) (hpos : 0 < s.refCount node)
    (hmany : s.refCount node < MAX_INODE_COUNT ∨ E .tooMany) :
    Ends E (vopClose node) s fun _ t => Kept P s t := by
  have hroom := h.room hlive hmany
  rw [vopClose, ends_bind]
  cases h.kind node hlive with
  | device dev hd _ _ =>
      have hop : Sym.close ∈ (s.info node).inOps := by simp [hd, Info.inOps]
      apply (vopOp_spec ⟨hlive, Or.inl hop, h.open_le node hlive, hroom⟩).imp
      rintro _ _ ⟨rfl, _⟩
      rw [ends_bind, ends_get, hd]
      exact ⟨h, Steady.refl _⟩
  | sfsInode sin hd hin hok =>
      have hop : Sym.close ∈ (s.info node).inOps := hd ▸ hok.op (by simp)
      apply (vopOp_spec ⟨hlive, Or.inl hop, h.open_le node hlive, hroom⟩).imp
      rintro _ _ ⟨rfl, _⟩
      rw [ends_bind, ends_get, hd]
      exact vopFsync_spec h hin hpos hmany

theorem inodeOpenDec_spec (h : Sound P s) (hlive : node ∈ s.heap) (hopen : 0 < s.openCount node)
    (hmany : s.refCount node < MAX_INODE_COUNT ∨ E .tooMany) : Ends E (inodeOpenDec node) s
      fun _ t => Kept P s t := by
  have hle := h.open_le node hlive
  have hpos : 0 < s.refCount node := hopen.trans_le hle
  have hdec : (s.setOpen node (s.openCount node - 1)).openCount node = s.openCount node - 1 :=
    Function.update_self node _ s.openCount
  have hkept : Kept P s (s.setOpen node (s.openCount node - 1)) := by
    refine h.change_counts hlive onlyAt_setOpen rfl rfl rfl hpos hpos ?_
    rw [hdec]
    exact (Nat.sub_le _ 1).trans hle
  rw [inodeOpenDec, ends_bind, ends_liveOf hlive, ends_bind, ends_get, ends_bind, ends_check hopen,
    ends_bind, ends_modify, ends_bind, ends_get]
  split
  · rw [ends_bind]
    exact (vopClose_spec hkept.sound hlive hpos hmany).imp fun _ _ hclose => hkept.trans hclose
  · exact hkept

/-! ## Loading -/

/-- A new inode of the SFS, with one reference and never opened; the rest of memory is as it was. -/
structure Fresh (s : Inodes) (node : Node) (din : DiskInode) (ino : Ino) (t : Inodes) : Prop where
  new : node ∉ s.heap
  heap : t.heap = insert node s.heap
  list : t.inodeList = s.inodeList
  only : OnlyAt node s t
  info : t.info node = .sfsInode ⟨din, ino, false, 1⟩
  refCount : t.refCount node = 1
  openCount : t.openCount node = 0

/-- A new inode is put on the lists. -/
theorem Sound.insert (h : Sound P s) {din : DiskInode} (hfresh : Fresh s node din ino t)
    (htype : din.type = SFS_TYPE_DIR ∨ din.type = SFS_TYPE_FILE) (hlinks : din.nlinks ≠ 0)
    (hgood : P.good ino din.type din.blocks) :
    Kept P s { t with inodeList := node :: t.inodeList } := by
  have hout : node ∉ s.inodeList := fun hin => hfresh.new (h.listed node hin)
  have hne : ∀ n ∈ s.heap, n ≠ node := fun n hn => ne_of_mem_of_not_mem hn hfresh.new
  have hlist : node :: t.inodeList = node :: s.inodeList := congrArg _ hfresh.list
  have hmem : ∀ {n}, n ∈ t.heap → n = node ∨ n ∈ s.heap := by
    intro n hn
    rw [hfresh.heap] at hn
    exact Finset.mem_insert.mp hn
  refine ⟨⟨?_, ?_, ?_, ?_, hfresh.only.calm ∘ h.calm⟩,
    ⟨?_, hfresh.only.vdevList, hfresh.only.bootfsNode, hfresh.only.disk⟩⟩
  · exact hlist ▸ List.nodup_cons.mpr ⟨hout, h.nodup⟩
  · intro n hn
    change n ∈ t.heap
    rw [hfresh.heap]
    rcases List.mem_cons.mp (hlist ▸ hn) with rfl | hn
    · exact Finset.mem_insert_self n s.heap
    · exact Finset.mem_insert_of_mem (h.listed n hn)
  · intro n hn
    rcases hmem hn with rfl | hn
    · refine .sfsInode _ hfresh.info List.mem_cons_self ?_
      have hne : t.refCount n ≠ 0 := hfresh.refCount ▸ one_ne_zero
      exact ⟨htype, hlinks, (if_neg hne).symm, fun hzero => absurd hzero hne, fun hzero =>
        absurd hzero hne, hgood⟩
    · cases h.kind n hn with
      | device dev hd hdout hheld =>
          refine .device dev ((hfresh.only.info n (hne n hn)).trans hd) ?_
            (hfresh.only.refCount n (hne n hn) ▸ hheld)
          change n ∉ node :: t.inodeList
          rw [hlist]
          exact fun hin => (List.mem_cons.mp hin).elim (hne n hn) hdout
      | sfsInode sin hd hin hok =>
          refine .sfsInode sin ((hfresh.only.info n (hne n hn)).trans hd) ?_ ?_
          · exact hlist ▸ List.mem_cons_of_mem node hin
          · exact hfresh.only.refCount n (hne n hn) ▸ hok
  · intro n hn
    change t.openCount n ≤ t.refCount n
    rcases hmem hn with rfl | hn
    · rw [hfresh.openCount]
      exact Nat.zero_le _
    · rw [hfresh.only.refCount n (hne n hn), hfresh.only.openCount n (hne n hn)]
      exact h.open_le n hn
  · intro n dev
    change n ∈ t.heap ∧ t.info n = .device dev ↔ _
    rw [hfresh.heap, Finset.mem_insert]
    by_cases hn : n = node
    · subst hn
      exact iff_of_false (fun hd => nomatch hfresh.info.symm.trans hd.2) fun hd => hfresh.new hd.1
    · rw [hfresh.only.info n hn]
      simp [hn]

/-- What a block must hold for the inode in it to be loaded. -/
structure Usable (P : Law) (E : Stop → Prop) (disk : Disk) (ino : Ino) : Prop where
  inuse : disk.inuse ino = true ∨ E .blockInuse
  nlinks : (disk.inode ino).nlinks ≠ 0 ∨ E .noLinks
  type : ((disk.inode ino).type = SFS_TYPE_DIR ∨ (disk.inode ino).type = SFS_TYPE_FILE) ∨
    E .fileType
  good : P.good ino (disk.inode ino).type (disk.inode ino).blocks

theorem sfsCreateInode_spec {din : DiskInode}
    (htype : (din.type = SFS_TYPE_DIR ∨ din.type = SFS_TYPE_FILE) ∨ E .fileType) :
    Ends E (sfsCreateInode din ino) s fun found t => match found with
      | .error ret => t = s.asked ∧ ret < 0
      | .ok node =>
          (din.type = SFS_TYPE_DIR ∨ din.type = SFS_TYPE_FILE) ∧ Fresh s.asked node din ino t := by
  rw [sfsCreateInode, ends_bind, ends_ask]
  split
  · exact ⟨rfl, by decide⟩
  rw [ends_bind, ends_get, ends_bind]
  refine Ends.check_or htype fun htype => ?_
  have hnew := (s.answers 0).fresh s.asked.heap
  generalize (s.answers 0).place s.asked.heap = node at hnew ⊢
  rw [ends_bind, ends_modify, ends_bind, inodeRefInc, ends_bind]
  have hin : node ∈ insert node s.asked.heap := Finset.mem_insert_self node _
  rw [ends_liveOf (s := { s.asked with
    heap := insert node s.asked.heap
    refCount := Function.update s.asked.refCount node 0
    openCount := Function.update s.asked.openCount node 0 }) hin]
  refine ⟨htype, hnew, rfl, rfl, ⟨?_, ?_, ?_, rfl, rfl, rfl, id⟩, ?_, ?_, ?_⟩
  · exact fun n hn => Function.update_of_ne hn _ s.info
  · intro n hn
    exact (Function.update_of_ne hn _ _).trans (Function.update_of_ne hn _ s.refCount)
  · exact fun n hn => Function.update_of_ne hn _ s.openCount
  · exact Function.update_self node _ s.info
  · refine (Function.update_self node _ _).trans ?_
    exact congrArg (· + 1) (Function.update_self node 0 s.refCount)
  · exact Function.update_self node 0 s.openCount

theorem cached_eq_some (hcached : s.cached ino = some node) :
    node ∈ s.inodeList ∧ ∃ sin, s.info node = .sfsInode sin ∧ sin.ino = ino := by
  refine ⟨List.mem_of_find?_eq_some hcached, ?_⟩
  have hfound := List.find?_some hcached
  split at hfound
  · next sin hinfo => exact ⟨sin, hinfo, of_decide_eq_true hfound⟩
  · cases hfound

theorem lookupSfsNolock_spec (h : Sound P s) : Ends E (lookupSfsNolock ino) s fun found t =>
    match found with
    | none => t = s ∧ s.cached ino = none
    | some node => Kept P s t ∧ s.cached ino = some node ∧
        ∃ sin, t.info node = .sfsInode sin ∧ sin.ino = ino := by
  rw [lookupSfsNolock, ends_bind, ends_get]
  cases hcached : s.cached ino with
  | none => exact ⟨rfl, rfl⟩
  | some node =>
      obtain ⟨hin, sin, hinfo, hino⟩ := cached_eq_some hcached
      have hlive := h.listed node hin
      have hok : SinOk P (s.refCount node) sin := by
        obtain ⟨sin', hinfo', hok⟩ := h.exists_sin hin
        obtain rfl := Info.sfsInode.inj (hinfo.symm.trans hinfo')
        exact hok
      have hinc : (s.setRef node (s.refCount node + 1)).refCount node = s.refCount node + 1 :=
        Function.update_self node _ s.refCount
      have hpos : 0 < (s.setRef node (s.refCount node + 1)).refCount node := by
        rw [hinc]
        exact Nat.succ_pos _
      have hopen : s.openCount node ≤ (s.setRef node (s.refCount node + 1)).refCount node := by
        rw [hinc]
        exact Nat.le_succ_of_le (h.open_le node hlive)
      change Ends E (inodeRefInc node >>= _) s _
      rw [ends_bind, inodeRefInc, ends_bind, ends_liveOf hlive, ends_bind, ends_modify,
        ends_bind, ends_get, ends_pure, hinc]
      split
      · next hone =>
        -- nobody referred to the inode
        have hzero : s.refCount node = 0 := by omega
        rw [ends_bind, ends_sfsInode (s := s.setRef node (s.refCount node + 1)) hlive hinfo]
        refine ⟨h.change (onlyAt_setRef.trans onlyAt_setSin) rfl rfl hin
          (Function.update_self node _ s.info) ?_
          hopen, rfl, _, Function.update_self node _ s.info, hino⟩
        have hne : (s.setRef node (s.refCount node + 1)).refCount node ≠ 0 := Nat.ne_of_gt hpos
        refine ⟨hok.type, hok.nlinks, ?_, fun h => absurd h hne, fun h => absurd h hne, hok.good⟩
        change sin.reclaimCount + 1 =
          if (s.setRef node (s.refCount node + 1)).refCount node = 0 then 0 else 1
        rw [if_neg (Nat.ne_of_gt hpos), hok.reclaimCount, if_pos hzero]
      · next hmore =>
        have hsome : 0 < s.refCount node := by omega
        exact ⟨h.change_counts hlive onlyAt_setRef rfl rfl rfl hsome hpos hopen, rfl,
          sin, hinfo, hino⟩

theorem sfsLoadInode_spec (h : Sound P s) (huse : Usable P E s.disk ino ∨ (s.cached ino).isSome) :
    Ends E (sfsLoadInode ino) s fun found t => Kept P s t ∧ match found with
      | .error ret => ret < 0 ∧ s.cached ino = none
      | .ok node => (s.cached ino = some node ∨ s.cached ino = none ∧ node ∉ s.heap) ∧
          ∃ sin, t.info node = .sfsInode sin ∧ sin.ino = ino := by
  rw [sfsLoadInode, ends_bind]
  apply (lookupSfsNolock_spec h).imp
  intro cached s₁ hlookup
  cases cached with
  | some node => exact ⟨hlookup.1, Or.inl hlookup.2.1, hlookup.2.2⟩
  | none =>
      obtain ⟨rfl, hnone⟩ := hlookup
      have huse : Usable P E s₁.disk ino := huse.resolve_right (by simp [hnone])
      rw [ends_bind, ends_ask]
      split
      · refine ⟨h.asked, ?_, hnone⟩
        decide
      rw [ends_bind, ends_get, ends_bind]
      refine Ends.check_or huse.inuse fun _ => ?_
      rw [ends_bind, ends_ask]
      split
      · next herror =>
        refine ⟨h.asked.trans h.asked.sound.asked, ?_, hnone⟩
        omega
      rw [ends_bind]
      refine Ends.check_or huse.nlinks fun hlinks => ?_
      rw [ends_bind]
      apply (sfsCreateInode_spec huse.type).imp
      intro found t hfound
      have hkept : Kept P s₁ s₁.asked.asked.asked :=
        (h.asked.trans h.asked.sound.asked).trans (h.asked.trans h.asked.sound.asked).sound.asked
      cases found with
      | error ret =>
          obtain ⟨rfl, hret⟩ := hfound
          exact ⟨hkept, hret, hnone⟩
      | ok node =>
          obtain ⟨htype, hfresh⟩ := hfound
          exact ⟨hkept.trans (hkept.sound.insert hfresh htype hlinks huse.good),
            Or.inr ⟨hnone, hfresh.new⟩, _, hfresh.info, rfl⟩

/-! ## Lookups -/

theorem mem_heap_of_refs (hpos : 0 < s.refs node) : node ∈ s.heap := by
  by_contra hout
  rw [Inodes.refs, if_neg hout] at hpos
  exact Nat.lt_irrefl 0 hpos

/-- A reference that has been added can be given back. -/
theorem Kept.releasable (h : Sound P s) (hkept : Kept P s t) (hrefs : s.refs node < t.refs node)
    (hopens : t.opens node = s.opens node) : Releasable t node := by
  have hlive : node ∈ t.heap := mem_heap_of_refs (Nat.zero_lt_of_lt hrefs)
  have hle : s.opens node ≤ s.refs node := by
    unfold Inodes.opens Inodes.refs
    split
    · next hin => exact h.open_le node hin
    · exact Nat.le_refl 0
  refine ⟨hlive, ?_, ?_⟩
  · rw [← refs_of_mem hlive, ← opens_of_mem hlive, hopens]
    exact hle.trans_lt hrefs
  · intro dev hdev
    obtain ⟨hin, hinfo⟩ := (hkept.steady.device node dev).mp ⟨hlive, hdev⟩
    have hheld : 0 < s.refs node := by
      rw [refs_of_mem hin]
      cases h.kind node hin with
      | device _ _ _ hheld => exact hheld
      | sfsInode _ hd => exact nomatch hd.symm.trans hinfo
    rw [← refs_of_mem hlive]
    omega

/-- What a directory must hold for lookups in it. -/
def DirOk (P : Law) (E : Stop → Prop) (disk : Disk) (ino : Ino) (blocks : Nat) : Prop :=
  ∀ slot < blocks, (disk.inuse (disk.bmap ino slot) = true ∨ E .blockInuse) ∧
    ((disk.entry (disk.bmap ino slot)).ino ≠ 0 →
      Usable P E disk (disk.entry (disk.bmap ino slot)).ino)

/-- Only answers have been asked for. -/
def Asked (s t : Inodes) : Prop := ∃ k, t = { s with answers := fun i => s.answers (i + k) }

theorem Asked.trans {u : Inodes} (h : Asked s t) (h' : Asked t u) : Asked s u := by
  obtain ⟨k, rfl⟩ := h
  obtain ⟨k', rfl⟩ := h'
  refine ⟨k' + k, ?_⟩
  simp only [Nat.add_assoc]

theorem asked_asked : Asked s s.asked := ⟨1, rfl⟩

theorem Asked.kept (h : Sound P s) (hasked : Asked s t) : Kept P s t := by
  obtain ⟨k, rfl⟩ := hasked
  exact ⟨h.answers rfl rfl rfl rfl rfl fun hcalm i => hcalm (i + k), fun _ _ =>
    Iff.rfl, rfl, rfl, rfl⟩

theorem sfsDirentReadNolock_spec {slot : Nat} (htype : sin.din.type = SFS_TYPE_DIR)
    (hslot : slot < sin.din.blocks) (hdir : DirOk P E s.disk sin.ino sin.din.blocks) :
    Ends E (sfsDirentReadNolock sin slot) s fun entry t => Asked s t ∧ match entry with
      | .error ret => ret < 0
      | .ok entry => entry = s.disk.entry (s.disk.bmap sin.ino slot) := by
  rw [sfsDirentReadNolock, ends_bind, ends_check ⟨htype, hslot⟩, ends_bind, ends_ask]
  split
  · next herror => exact ⟨asked_asked, by change -((s.answers 0).error : Int) < 0; omega⟩
  rw [ends_bind, ends_get, ends_bind]
  refine Ends.check_or (hdir slot hslot).1 fun _ => ?_
  rw [ends_bind, ends_ask]
  split
  · next herror =>
    refine ⟨asked_asked.trans asked_asked, ?_⟩
    change -((s.asked.answers 0).error : Int) < 0
    omega
  · exact ⟨asked_asked.trans asked_asked, rfl⟩

/-- The loop over the slots finds an inode that can be loaded. -/
theorem sfsDirentSearchFrom_spec {name : Str} {slots : List Nat}
    (htype : sin.din.type = SFS_TYPE_DIR)
    (hslots : ∀ i ∈ slots, i < sin.din.blocks) (hdir : DirOk P E s.disk sin.ino sin.din.blocks) :
    Ends E (sfsDirentSearchFrom sin name slots) s fun found t => Asked s t ∧ match found with
      | .error ret => ret < 0
      | .ok ino => Usable P E s.disk ino := by
  induction slots generalizing s with
  | nil =>
      refine ⟨⟨0, rfl⟩, ?_⟩
      change -E_NOENT < 0
      decide
  | cons i rest ih =>
      have hi := hslots i List.mem_cons_self
      have hrest : ∀ j ∈ rest, j < sin.din.blocks :=
        fun j hj => hslots j (List.mem_cons_of_mem i hj)
      rw [sfsDirentSearchFrom, ends_bind]
      apply (sfsDirentReadNolock_spec htype hi hdir).imp
      rintro entry t ⟨hasked, hentry⟩
      cases entry with
      | error ret => exact ⟨hasked, hentry⟩
      | ok entry =>
          obtain ⟨k, rfl⟩ := hasked
          have hnext :=
            (ih (s := { s with answers := fun i => s.answers (i + k) }) hrest hdir).imp
            fun _ _ hdone =>
            And.intro (Asked.trans ⟨k, rfl⟩ hdone.1) hdone.2
          change Ends E (if _ then _ else _) _ _
          split
          · exact hnext
          next hino =>
          split
          · exact ⟨⟨k, rfl⟩, hentry ▸ (hdir i hi).2 (hentry ▸ hino)⟩
          · exact hnext

theorem sfsDirentSearchNolock_spec {name : Str} (htype : sin.din.type = SFS_TYPE_DIR)
    (hname : name.length ≤ SFS_MAX_FNAME_LEN ∨ E .direntSearch)
    (hdir : DirOk P E s.disk sin.ino sin.din.blocks) :
    Ends E (sfsDirentSearchNolock sin name) s fun found t => Asked s t ∧ match found with
      | .error ret => ret < 0
      | .ok ino => Usable P E s.disk ino := by
  rw [sfsDirentSearchNolock, ends_bind]
  refine Ends.check_or hname fun _ => ?_
  rw [ends_bind, ends_ask]
  split
  · refine ⟨asked_asked, ?_⟩
    change -Fs.Inode.E_NO_MEM < 0
    decide
  · have hslots : ∀ i ∈ List.range sin.din.blocks, i < sin.din.blocks :=
      fun i hi => List.mem_range.mp hi
    apply (sfsDirentSearchFrom_spec (s := s.asked) htype hslots hdir).imp
    exact fun _ _ hfound => ⟨asked_asked.trans hfound.1, hfound.2⟩

/-- An error is negative. -/
def Negative {α : Type} (found : Except Int α) : Prop := ∀ ret, found = .error ret → ret < 0

theorem negative_error {α : Type} {ret : Int} (h : ret < 0) :
    Negative (.error ret : Except Int α) := by
  intro r hr
  obtain rfl := Except.error.inj hr
  exact h

theorem negative_ok {α : Type} {a : α} : Negative (.ok a) := nofun

theorem sfsLookupOnce_spec {name : Str} (h : Sound P s) (htype : sin.din.type = SFS_TYPE_DIR)
    (hname : name.length ≤ SFS_MAX_FNAME_LEN ∨ E .direntSearch)
    (hdir : DirOk P E s.disk sin.ino sin.din.blocks) :
    Ends E (sfsLookupOnce sin name) s fun found t => Kept P s t ∧ Negative found := by
  rw [sfsLookupOnce, ends_bind]
  apply (sfsDirentSearchNolock_spec htype hname hdir).imp
  rintro found t ⟨hasked, hfound⟩
  have hkept : Kept P s t := Asked.kept h hasked
  cases found with
  | error ret => exact ⟨hkept, negative_error hfound⟩
  | ok ino =>
      have huse : Usable P E t.disk ino := by
        obtain ⟨k, rfl⟩ := hasked
        exact hfound
      apply (sfsLoadInode_spec hkept.sound (Or.inl huse)).imp
      rintro loaded u ⟨hkept', hload⟩
      refine ⟨hkept.trans hkept', ?_⟩
      cases loaded with
      | error _ => exact negative_error hload.1
      | ok _ => exact negative_ok

/-- What a lookup in the inode `node` needs. -/
structure Searchable (P : Law) (E : Stop → Prop) (s : Inodes) (node : Node) (path : Str) :
    Prop where
  held : 0 < s.refs node
  op : Sym.lookup ∈ (s.info node).inOps ∨ E (.noOp .lookup)
  room : s.refCount node < MAX_INODE_COUNT ∧ s.openCount node < MAX_INODE_COUNT ∨ E .tooMany
  start : path ≠ [] ∧ path.head? ≠ some slashChar ∨ E .sfsLookup
  name : ∀ sin, s.info node = .sfsInode sin → path.length ≤ SFS_MAX_FNAME_LEN ∨ E .direntSearch
  dir : ∀ ino blocks, P.good ino SFS_TYPE_DIR blocks → DirOk P E s.disk ino blocks

/-- A reference to an inode that is referred to is added. -/
theorem inodeRefInc_kept (h : Sound P s) (hheld : 0 < s.refs node) :
    Ends E (inodeRefInc node) s fun _ t => Kept P s t ∧ t.counts = (give s.refs node, s.opens) ∧
      t.info = s.info ∧ t.disk = s.disk := by
  have hlive := mem_heap_of_refs hheld
  have hpos : 0 < s.refCount node := refs_of_mem hlive ▸ hheld
  have hsame : Ends E (inodeRefInc node) s fun _ t => t.info = s.info ∧ t.disk = s.disk := by
    rw [inodeRefInc, ends_bind, ends_liveOf hlive]
    exact ⟨rfl, rfl⟩
  apply (((inodeRefInc_spec h hlive hpos).and inodeRefInc_counts).and hsame).imp
  exact fun _ _ hall => ⟨hall.1.1, hall.1.2.1, hall.2⟩

/-- A reference that was added is given back. -/
theorem inodeRefDec_kept (h : Sound P s) (hkept : Kept P s t) (hrefs : s.refs node < t.refs node)
    (hopens : t.opens node = s.opens node) : Ends E (inodeRefDec node) t fun _ u => Kept P s u ∧
      u.counts = (take t.refs node, t.opens) := by
  apply ((inodeRefDec_spec hkept.sound (hkept.releasable h hrefs hopens)).and
    inodeRefDec_counts).imp
  exact fun _ _ hboth => ⟨hkept.trans hboth.1, hboth.2⟩

/-- What has been found, or not, leaves a reference that was held before. -/
theorem Found.le_refs {found : Except Int Node} (h : Found s found t) (n : Node) :
    s.refs n ≤ t.refs n ∧ t.opens n = s.opens n := by
  cases found with
  | error _ =>
      obtain ⟨hrefs, hopens⟩ := Prod.mk.inj h
      rw [hrefs, hopens]
      exact ⟨Nat.le_refl _, rfl⟩
  | ok node =>
      obtain ⟨hrefs, hopens⟩ := Prod.mk.inj h
      rw [hrefs, hopens]
      refine ⟨?_, rfl⟩
      by_cases hn : n = node
      · subst hn
        rw [Fs.Inode.give_same]
        exact Nat.le_succ _
      · rw [Fs.Inode.give_of_ne _ hn]

theorem sfsLookup_spec {path : Str} (h : Sound P s) (hsearch : Searchable P E s node path)
    (hin : node ∈ s.inodeList) : Ends E (sfsLookup node path) s fun found t => Kept P s t ∧
      Negative found := by
  have hlive := h.listed node hin
  obtain ⟨sin, hinfo, hok⟩ := h.exists_sin hin
  rw [sfsLookup, ends_bind]
  refine Ends.check_or hsearch.start fun _ => ?_
  rw [ends_bind]
  apply (inodeRefInc_kept h hsearch.held).imp
  rintro _ s₁ ⟨hkept, hcounts, hinfo₁, hdisk⟩
  obtain ⟨hrefs, hopens⟩ := Prod.mk.inj hcounts
  have hmore : s.refs node < s₁.refs node := by
    rw [hrefs, Fs.Inode.give_same]
    exact Nat.lt_succ_self _
  have hlive₁ : node ∈ s₁.heap := mem_heap_of_refs (Nat.zero_lt_of_lt hmore)
  rw [ends_bind, ends_sfsInode hlive₁ (hinfo₁ ▸ hinfo)]
  split
  · rw [ends_bind]
    apply (inodeRefDec_kept h hkept hmore (congrFun hopens node)).imp
    intro _ u hdec
    refine ⟨hdec.1, negative_error ?_⟩
    decide
  · next hdirtype =>
    have htype : sin.din.type = SFS_TYPE_DIR := not_not.mp hdirtype
    have hdir : DirOk P E s₁.disk sin.ino sin.din.blocks := by
      rw [hdisk]
      exact hsearch.dir sin.ino sin.din.blocks (htype ▸ hok.good)
    rw [ends_bind]
    apply ((sfsLookupOnce_spec hkept.sound htype (hsearch.name sin hinfo) hdir).and
      (sfsLookupOnce_counts path)).imp
    rintro found s₂ ⟨⟨hkept₂, hneg⟩, hfound⟩
    obtain ⟨hle, hsame⟩ := hfound.le_refs node
    rw [ends_bind]
    apply (inodeRefDec_kept h (hkept.trans hkept₂) (hmore.trans_le hle)
      (hsame.trans (congrFun hopens node))).imp
    exact fun _ u hdec => ⟨hdec.1, hneg⟩

theorem vopLookup_spec {path : Str} (h : Sound P s) (hsearch : Searchable P E s node path) :
    Ends E (vopLookup node path) s fun found t => Kept P s t ∧ Negative found := by
  have hlive := mem_heap_of_refs hsearch.held
  rw [vopLookup, ends_bind]
  apply (vopOp_spec ⟨hlive, hsearch.op, h.open_le node hlive, hsearch.room⟩).imp
  rintro _ _ ⟨rfl, _⟩
  rw [ends_bind, ends_get]
  cases h.kind node hlive with
  | device dev hd _ _ =>
      rw [hd]
      change Ends E (devLookup node path) _ _
      rw [devLookup]
      split
      · refine ⟨⟨h, Steady.refl _⟩, negative_error ?_⟩
        decide
      · rw [ends_bind]
        exact (inodeRefInc_kept h hsearch.held).imp fun _ _ hinc => ⟨hinc.1, negative_ok⟩
  | sfsInode sin hd hin _ =>
      rw [hd]
      exact sfsLookup_spec h hsearch hin

/-! ## Paths -/

/-- What `get_device` leaves of a path. -/
def subpathOf (path : Str) : Str :=
  if (scanFrom 0 path).2 < 0 ∧ (scanFrom 0 path).1 ≠ 0 then path
  else if (scanFrom 0 path).2 > 0 then skipSlashes (path.drop ((scanFrom 0 path).2.toNat + 1))
  else skipSlashes path.tail

theorem head_skipSlashes (path : Str) : (skipSlashes path).head? ≠ some slashChar := by
  intro hhead
  have hnot := List.head?_dropWhile_not (· = slashChar) path
  rw [skipSlashes] at hhead
  rw [hhead] at hnot
  simp at hnot

/-- The rest of a path does not begin with a slash. -/
theorem head_subpathOf (path : Str) : (subpathOf path).head? ≠ some slashChar := by
  unfold subpathOf
  split
  · next hrelative =>
    intro hhead
    cases path with
    | nil => cases hhead
    | cons c rest =>
        obtain rfl : c = slashChar := Option.some.inj hhead
        have hne : slashChar ≠ colonChar := by decide
        exact hrelative.2 (by rw [scanFrom, if_neg hne, if_pos rfl])
  split
  · exact head_skipSlashes _
  · exact head_skipSlashes _

/-- What the loop of `get_device` finds is where it looks, or further on. -/
theorem scanFrom_le (i : Int) (path : Str) :
    ((scanFrom i path).1 = -1 ∨ i ≤ (scanFrom i path).1) ∧
      ((scanFrom i path).2 = -1 ∨ i ≤ (scanFrom i path).2) := by
  induction path generalizing i with
  | nil => exact ⟨Or.inl rfl, Or.inl rfl⟩
  | cons c rest ih =>
      rw [scanFrom]
      split
      · exact ⟨Or.inl rfl, Or.inr (le_refl i)⟩
      split
      · exact ⟨Or.inr (le_refl i), Or.inl rfl⟩
      · obtain ⟨hslash, hcolon⟩ := ih (i + 1)
        exact ⟨hslash.imp_right fun hle => by omega, hcolon.imp_right fun hle => by omega⟩

/-- A path that starts neither with a name nor with a slash starts with a colon. -/
theorem head_of_scan {path : Str}
    (hrelative : ¬ ((scanFrom 0 path).2 < 0 ∧ (scanFrom 0 path).1 ≠ 0))
    (hcolon : ¬ (scanFrom 0 path).2 > 0) (hslash : path.head? ≠ some slashChar) :
    path.head? = some colonChar := by
  cases path with
  | nil => exact absurd ⟨by decide, by decide⟩ hrelative
  | cons c rest =>
      have hc : c ≠ slashChar := fun heq => hslash (by rw [heq]; rfl)
      rw [scanFrom] at hrelative hcolon
      by_cases hcol : c = colonChar
      · rw [hcol]
        rfl
      · rw [if_neg hcol, if_neg hc] at hrelative hcolon
        obtain ⟨hfirst, hsecond⟩ := scanFrom_le (0 + 1) rest
        omega

/-- The inode that `vfs_get_root` finds, where it is on the lists already. -/
def rootOf (s : Inodes) (devname : Str) : Option Node :=
  match s.vdevList.find? fun vdev => devname = vdev.devname with
  | none => none
  | some vdev =>
      if vdev.fs then s.cached SFS_BLKN_ROOT
      else if vdev.mountable then none
      else vdev.devnode

/-- The inode where the lookup of the path starts. -/
def startNode (s : Inodes) (pwd : Option Node) (path : Str) : Option Node :=
  if (scanFrom 0 path).2 < 0 ∧ (scanFrom 0 path).1 ≠ 0 then pwd
  else if (scanFrom 0 path).2 > 0 then rootOf s (path.take (scanFrom 0 path).2.toNat)
  else if path.head? = some slashChar then s.bootfsNode
  else pwd.bind fun _ => s.cached SFS_BLKN_ROOT

/-- The inodes where lookups start are held, and of the type that is expected. -/
structure Grounded (P : Law) (E : Stop → Prop) (s : Inodes) (pwd : Option Node) : Prop where
  pwd : ∀ node, pwd = some node → 0 < s.refs node ∧ ∃ sin, s.info node = .sfsInode sin ∧
    (sin.din.type = SFS_TYPE_DIR ∨ E (.noOp .lookup))
  bootfs : ∀ node, s.bootfsNode = some node → 0 < s.refs node ∧ ∃ sin, s.info node = .sfsInode sin ∧
    (sin.din.type = SFS_TYPE_DIR ∨ E (.noOp .lookup))
  vdev : ∀ vdev ∈ s.vdevList, ∀ node, vdev.devnode = some node → 0 < s.refs node ∧
    ∃ dev, s.info node = .device dev
  devnode : ∀ vdev ∈ s.vdevList, vdev.fs = false → vdev.mountable = false →
    vdev.devnode ≠ none ∨ E .dangling
  root : (s.cached SFS_BLKN_ROOT).isSome ∨ Usable P E s.disk SFS_BLKN_ROOT ∧ E .getRoot
  rootDir : ∀ type blocks, P.good SFS_BLKN_ROOT type blocks → type = SFS_TYPE_DIR ∨
    E (.noOp .lookup)

variable {pwd start : Option Node}

/-- `node` is `start`, or the root that has been loaded anew. -/
def StartsAt (s : Inodes) (start : Option Node) (node : Node) : Prop :=
  start = some node ∨ s.cached SFS_BLKN_ROOT = none ∧ node ∉ s.heap

/-- What is found for a lookup to start in. -/
def Startable (E : Stop → Prop) (s : Inodes) (start : Option Node) (found : Except Int Node)
    (t : Inodes) : Prop :=
  match found with
  | .error ret => ret < 0 ∧ start = none
  | .ok node => (Sym.lookup ∈ (t.info node).inOps ∨ E (.noOp .lookup)) ∧ StartsAt s start node

theorem startable_sfs (hinfo : t.info node = .sfsInode sin)
    (htype : sin.din.type = SFS_TYPE_DIR ∨ E (.noOp .lookup)) (hstart : StartsAt s start node) :
    Startable E s start (.ok node) t := by
  refine ⟨htype.imp_left fun htype => ?_, hstart⟩
  rw [hinfo]
  simp [Info.inOps, htype]

theorem sfsGetRoot_spec (h : Sound P s)
    (hroot : (s.cached SFS_BLKN_ROOT).isSome ∨ Usable P E s.disk SFS_BLKN_ROOT ∧ E .getRoot)
    (hdir : ∀ type blocks, P.good SFS_BLKN_ROOT type blocks → type = SFS_TYPE_DIR ∨
      E (.noOp .lookup)) :
    Ends E sfsGetRoot s fun node t => (Kept P s t ∧ StartsAt s (s.cached SFS_BLKN_ROOT) node) ∧
      ∃ sin, t.info node = .sfsInode sin ∧ (sin.din.type = SFS_TYPE_DIR ∨ E (.noOp .lookup)) := by
  rw [sfsGetRoot, ends_bind]
  apply ((sfsLoadInode_spec h (hroot.symm.imp_left And.left)).and (sfsLoadInode_counts)).imp
  rintro found t ⟨⟨hkept, hload⟩, hfound⟩
  cases found with
  | error ret =>
      refine (hroot.resolve_left ?_).2
      rw [hload.2]
      simp
  | ok node =>
      obtain ⟨hstart, sin, hinfo, hino⟩ := hload
      have hlive : node ∈ t.heap := by
        apply mem_heap_of_refs
        have hrefs : t.refs = give s.refs node := congrArg Prod.fst hfound
        rw [hrefs, Fs.Inode.give_same]
        exact Nat.succ_pos _
      refine ⟨⟨hkept, hstart⟩, sin, hinfo, ?_⟩
      cases hkept.sound.kind node hlive with
      | device _ hd => cases hinfo.symm.trans hd
      | sfsInode sin' hd _ hok =>
          obtain rfl := Info.sfsInode.inj (hd.symm.trans hinfo)
          exact hdir _ _ (hino ▸ hok.good)

/-- What adding a reference leaves as it is. -/
structure SameInodes (s t : Inodes) : Prop where
  heap : t.heap = s.heap
  info : t.info = s.info
  inodeList : t.inodeList = s.inodeList
  disk : t.disk = s.disk

theorem vfsGetCurdir_spec (h : Sound P s) (hg : Grounded P E s pwd) :
    Ends E (vfsGetCurdir pwd) s fun found t => (Kept P s t ∧ Startable E s pwd found t) ∧
      SameInodes s t ∧ ∀ node, found = .ok node → pwd = some node := by
  cases pwd with
  | none =>
      refine ⟨⟨⟨h, Steady.refl s⟩, ?_, rfl⟩, ⟨rfl, rfl, rfl, rfl⟩, nofun⟩
      decide
  | some node =>
      obtain ⟨hheld, sin, hsin, htype⟩ := hg.pwd node rfl
      have hsame : Ends E (inodeRefInc node) s fun _ t => SameInodes s t := by
        rw [inodeRefInc, ends_bind, ends_liveOf (mem_heap_of_refs hheld)]
        exact ⟨rfl, rfl, rfl, rfl⟩
      rw [vfsGetCurdir, ends_bind]
      apply ((inodeRefInc_kept h hheld).and hsame).imp
      rintro _ t ⟨⟨hkept, _, hinfo, _⟩, hsame⟩
      refine ⟨⟨hkept, startable_sfs (hinfo ▸ hsin) htype (Or.inl rfl)⟩, hsame, ?_⟩
      exact fun n hn => congrArg some (Except.ok.inj hn)

theorem vfsGetBootfs_spec (h : Sound P s) (hg : Grounded P E s pwd) :
    Ends E vfsGetBootfs s fun found t => Kept P s t ∧ Startable E s s.bootfsNode found t := by
  rw [vfsGetBootfs, ends_bind, ends_get]
  split
  · next hnone =>
    refine ⟨⟨h, Steady.refl s⟩, ?_, hnone⟩
    decide
  · next node hboot =>
    obtain ⟨hheld, sin, hsin, htype⟩ := hg.bootfs node hboot
    rw [ends_bind]
    apply (inodeRefInc_kept h hheld).imp
    intro _ t hinc
    exact ⟨hinc.1, startable_sfs (hinc.2.2.1 ▸ hsin) htype (Or.inl hboot)⟩

theorem vfsGetRoot_spec (h : Sound P s) (hg : Grounded P E s pwd) (devname : Str) :
    Ends E (vfsGetRoot devname) s fun found t => Kept P s t ∧
      Startable E s (rootOf s devname) found t := by
  rw [vfsGetRoot, ends_bind, ends_get]
  split
  · next hnone =>
    refine ⟨⟨h, Steady.refl s⟩, ?_, ?_⟩
    · decide
    · rw [rootOf, hnone]
  · next vdev hfind =>
    have hin := List.mem_of_find?_eq_some hfind
    rw [rootOf, hfind]
    simp only []
    split
    · rw [ends_bind]
      apply (sfsGetRoot_spec h hg.root hg.rootDir).imp
      rintro node t ⟨⟨hkept, hstart⟩, sin, hsin, htype⟩
      exact ⟨hkept, startable_sfs hsin htype hstart⟩
    · next hfs =>
      split
      · refine ⟨⟨h, Steady.refl s⟩, ?_, rfl⟩
        decide
      · next hmountable =>
        split
        · next hnone =>
          have hdevnode := hg.devnode vdev hin (Bool.eq_false_iff.mpr hfs)
            (Bool.eq_false_iff.mpr hmountable)
          exact hdevnode.resolve_left fun hsome => hsome hnone
        · next node hsome =>
          obtain ⟨hheld, dev, hdev⟩ := hg.vdev vdev hin node hsome
          rw [ends_bind]
          apply (inodeRefInc_kept h hheld).imp
          rintro _ t ⟨hkept, _, hinfo, _⟩
          refine ⟨hkept, Or.inl ?_, Or.inl hsome⟩
          rw [hinfo, hdev]
          simp [Info.inOps]

/-- A reference is given back that is not the last one. -/
theorem inodeRefDec_more (hlive : node ∈ s.heap) (hmore : 1 < s.refCount node) :
    Ends E (inodeRefDec node) s fun _ t => t = s.setRef node (s.refCount node - 1) := by
  have hdec : (s.setRef node (s.refCount node - 1)).refCount node = s.refCount node - 1 :=
    Function.update_self node _ s.refCount
  rw [inodeRefDec, ends_bind, ends_liveOf hlive, ends_bind, ends_get, ends_bind,
    ends_check (Nat.zero_lt_of_lt hmore), ends_bind, ends_modify, ends_bind, ends_get,
    if_neg (by rw [hdec]; omega)]
  exact rfl

/-- `get_device` finds where the lookup of the rest of the path may start. -/
theorem getDevice_spec (h : Sound P s) (hg : Grounded P E s pwd) (path : Str) :
    Ends E (getDevice pwd path) s fun start t => Kept P s t ∧
      Startable E s (startNode s pwd path) (start.map Prod.snd) t ∧
      ∀ subpath node, start = .ok (subpath, node) → subpath = subpathOf path := by
  have hmap : ∀ {x : VfsM (Except Int Node)} {subpath : Str} {start : Option Node},
      subpath = subpathOf path → startNode s pwd path = start →
      Ends E x s (fun found t => Kept P s t ∧ Startable E s start found t) →
      Ends E (x >>= fun found => pure (found.map fun node => (subpath, node))) s fun start t =>
        Kept P s t ∧ Startable E s (startNode s pwd path) (start.map Prod.snd) t ∧
          ∀ subpath node, start = .ok (subpath, node) → subpath = subpathOf path := by
    intro x subpath start hsub hnode hx
    rw [ends_bind, hnode]
    apply hx.imp
    rintro found t ⟨hkept, hstart⟩
    cases found with
    | error ret => exact ⟨hkept, hstart, fun _ _ hno => by cases hno⟩
    | ok node =>
        refine ⟨hkept, hstart, ?_⟩
        intro subpath' node' heq
        exact (Prod.mk.inj (Except.ok.inj heq)).1 ▸ hsub
  rw [getDevice]
  simp only []
  -- a relative path, a device name before a colon, a leading slash, or a leading colon
  split
  · next hrelative =>
    refine hmap ?_ ?_ ((vfsGetCurdir_spec h hg).imp fun _ _ hcur => hcur.1)
    · rw [subpathOf, if_pos hrelative]
    · rw [startNode, if_pos hrelative]
  next hrelative =>
  split
  · next hcolon =>
    refine hmap ?_ ?_ (vfsGetRoot_spec h hg _)
    · rw [subpathOf, if_neg hrelative, if_pos hcolon]
    · rw [startNode, if_neg hrelative, if_pos hcolon]
  next hcolon =>
  have hsub : skipSlashes path.tail = subpathOf path := by
    rw [subpathOf, if_neg hrelative, if_neg hcolon]
  split
  · next hslash =>
    refine hmap hsub ?_ (vfsGetBootfs_spec h hg)
    rw [startNode, if_neg hrelative, if_neg hcolon, if_pos hslash]
  next hslash =>
  have hnode : startNode s pwd path = pwd.bind fun _ => s.cached SFS_BLKN_ROOT := by
    rw [startNode, if_neg hrelative, if_neg hcolon, if_neg hslash]
  rw [ends_bind, ends_check (head_of_scan hrelative hcolon hslash), ends_bind, hnode]
  apply ((vfsGetCurdir_spec h hg).and (vfsGetCurdir_counts pwd)).imp
  rintro cur s₁ ⟨⟨⟨hkept₁, hcur⟩, hsame, hpwd⟩, hfound₁⟩
  cases cur with
  | error ret =>
      refine ⟨hkept₁, ⟨hcur.1, ?_⟩, fun _ _ hno => by cases hno⟩
      rw [hcur.2]
      rfl
  | ok node =>
      obtain rfl := hpwd node rfl
      obtain ⟨hheld, sin, hsin, _⟩ := hg.pwd node rfl
      have hrefs₁ : s₁.refs = give s.refs node := congrArg Prod.fst hfound₁
      have hopens₁ : s₁.opens = s.opens := congrArg Prod.snd hfound₁
      have hcached : s₁.cached = s.cached := by
        unfold Inodes.cached
        rw [hsame.info, hsame.inodeList]
      change Ends E (get >>= _) s₁ _
      rw [ends_bind, ends_get]
      split
      · next dev hdev => cases (hsame.info ▸ hdev).symm.trans hsin
      · rw [ends_bind]
        have hroot : (s₁.cached SFS_BLKN_ROOT).isSome ∨ Usable P E s₁.disk SFS_BLKN_ROOT ∧
            E .getRoot := by
          rw [hcached, hsame.disk]
          exact hg.root
        apply ((sfsGetRoot_spec hkept₁.sound hroot hg.rootDir).and sfsGetRoot_counts).imp
        rintro root s₂ ⟨⟨⟨hkept₂, hstart₂⟩, sin₂, hsin₂, htype₂⟩, hcounts₂⟩
        have hfound₂ : Found s₁ (.ok root) s₂ := hcounts₂
        obtain ⟨hle, _⟩ := hfound₂.le_refs node
        rw [hrefs₁, Fs.Inode.give_same] at hle
        have hmore : 1 < s₂.refs node := by omega
        have hlive := mem_heap_of_refs (Nat.zero_lt_of_lt hmore)
        have hdec : Ends E (inodeRefDec node) s₂ fun _ t => Kept P s t := by
          apply (inodeRefDec_kept h (hkept₁.trans hkept₂) (by omega) ?_).imp fun _ _ hdec => hdec.1
          rw [(hfound₂.le_refs node).2, hopens₁]
        rw [ends_bind]
        apply (hdec.and (inodeRefDec_more (E := E) hlive (refs_of_mem hlive ▸ hmore))).imp
        rintro _ t ⟨hkept, rfl⟩
        rw [StartsAt, hcached, hsame.heap] at hstart₂
        refine ⟨hkept, startable_sfs hsin₂ htype₂ hstart₂, ?_⟩
        intro subpath' node' heq
        exact (Prod.mk.inj (Except.ok.inj heq)).1 ▸ hsub

/-- What a lookup of a path needs besides. -/
structure Resolvable (P : Law) (E : Stop → Prop) (s : Inodes) (pwd : Option Node) (path : Str) :
    Prop where
  room : subpathOf path = [] ∨ (∀ node, StartsAt s (startNode s pwd path) node →
    s.refs node + 1 < MAX_INODE_COUNT) ∨ E .tooMany
  name : subpathOf path = [] ∨ (∀ node, StartsAt s (startNode s pwd path) node →
    (∃ dev, node ∈ s.heap ∧ s.info node = .device dev) ∨
      (subpathOf path).length ≤ SFS_MAX_FNAME_LEN) ∨ E .direntSearch
  dir : ∀ ino blocks, P.good ino SFS_TYPE_DIR blocks → DirOk P E s.disk ino blocks

/-- The inode where a lookup has started. -/
theorem Resolvable.searchable {path : Str} (hr : Resolvable P E s pwd path) (hkept : Kept P s t)
    (hfound : Found s (.ok node) t) (hstart : Startable E s (startNode s pwd path) (.ok node) t)
    (hne : subpathOf path ≠ []) : Searchable P E t node (subpathOf path) := by
  obtain ⟨hrefs, hopens⟩ := Prod.mk.inj hfound
  have hnode : t.refs node = s.refs node + 1 := by
    rw [hrefs, Fs.Inode.give_same]
  have hlive : node ∈ t.heap := mem_heap_of_refs (by omega)
  refine ⟨by omega, hstart.1, ?_, Or.inl ⟨hne, head_subpathOf path⟩, ?_, ?_⟩
  · refine (hr.room.resolve_left hne).imp_left fun hroom => ?_
    have hlt : t.refCount node < MAX_INODE_COUNT := by
      rw [← refs_of_mem hlive, hnode]
      exact hroom node hstart.2
    exact ⟨hlt, (hkept.sound.open_le node hlive).trans_lt hlt⟩
  · intro sin hsin
    refine (hr.name.resolve_left hne).imp_left fun hname => (hname node hstart.2).resolve_left ?_
    rintro ⟨dev, hin, hdev⟩
    exact nomatch hsin.symm.trans ((hkept.steady.device node dev).mpr ⟨hin, hdev⟩).2
  · rw [hkept.steady.disk]
    exact hr.dir

theorem vfsLookup_spec {path : Str} (h : Sound P s) (hg : Grounded P E s pwd)
    (hr : Resolvable P E s pwd path) :
    Ends E (vfsLookup pwd path) s fun found t => (Kept P s t ∧ Negative found) ∧
      Found s found t := by
  refine Ends.and ?_ (vfsLookup_counts pwd path)
  rw [vfsLookup, ends_bind]
  apply ((getDevice_spec h hg path).and (getDevice_counts pwd path)).imp
  rintro start s₁ ⟨⟨hkept, hstart, hsub⟩, hfound⟩
  cases start with
  | error ret => exact ⟨hkept, negative_error hstart.1⟩
  | ok start =>
      obtain ⟨subpath, node⟩ := start
      obtain rfl := hsub subpath node rfl
      have hfound₁ : Found s (.ok node) s₁ := hfound
      change Ends E (if _ then _ else _) s₁ _
      split
      · next hne =>
        have hsearch := hr.searchable hkept hfound₁ hstart hne
        rw [ends_bind]
        apply ((vopLookup_spec hkept.sound hsearch).and (vopLookup_counts _)).imp
        rintro found s₂ ⟨⟨hkept₂, hneg₂⟩, hfound₂⟩
        obtain ⟨hrefs, hopens⟩ := Prod.mk.inj hfound₁
        obtain ⟨hle, hsame⟩ := hfound₂.le_refs node
        rw [hrefs, Fs.Inode.give_same] at hle
        rw [ends_bind]
        apply (inodeRefDec_kept h (hkept.trans hkept₂) (by omega) ?_).imp
        · exact fun _ _ hdec => ⟨hdec.1, hneg₂⟩
        · rw [hsame, hopens]
      · exact ⟨hkept, negative_ok⟩

end Ucore.Vfs
