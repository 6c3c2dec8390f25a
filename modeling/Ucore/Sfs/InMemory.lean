import Ucore.Sfs.Listing
import Ucore.Sfs.Sync

/-!
# The inodes in memory and their references

A mounted volume with the counts of its inodes: `sfs_load_inode` and `sfs_lookup_once` of
`kern/fs/sfs/sfs_inode.c` and the counting of `kern/fs/vfs/inode.c` in lab 8. An inode is
known by its number; the last reference to it goes through `sfs_reclaim`.
-/

namespace Ucore.Sfs

open Machine

/-- A mounted volume with the fields `ref_count` and `open_count` of its inodes, and how
often `kmalloc` was called. -/
structure Store where
  volume : Volume
  refCount : BitVec 32 → Int
  openCount : BitVec 32 → Int
  requests : Nat

/-- Where the code stops. -/
inductive Stopped
  | sfs (failed : Failed)
  | sfsLoadInode
  | sfsGetOps
  | inodeCheck
  | inodeRefDec
  | inodeOpenDec
  | inodeKill
  | sfsNamefile
  | iobufSkip
  | runaway
  | vfs
  deriving DecidableEq, Repr

abbrev StoreM := Machine Stopped Store

namespace Store

def setRef (s : Store) (node : BitVec 32) (count : Int) : Store :=
  { s with refCount := Function.update s.refCount node count }

def setOpen (s : Store) (node : BitVec 32) (count : Int) : Store :=
  { s with openCount := Function.update s.openCount node count }

/-- `sin->reclaim_count ++`. -/
def reclaimInc (s : Store) (node : BitVec 32) : Store :=
  let sin := s.volume.sin node
  { s with volume := s.volume.setSin node { sin with reclaimCount := sin.reclaimCount + 1 } }

/-- `sfs_create_inode` and `sfs_set_links`. -/
def create (s : Store) (node : BitVec 32) (din : DiskInode) : Store where
  volume := { s.volume with
    sin := Function.update s.volume.sin node ⟨din, false, 1⟩
    inodeList := node :: s.volume.inodeList }
  refCount := Function.update s.refCount node 1
  openCount := Function.update s.openCount node 0
  requests := s.requests

def request (s : Store) : Store := { s with requests := s.requests + 1 }

end Store

/-- A function of the file system that counts nothing. -/
def onVolume {α : Type} (x : SfsM α) : StoreM α := fun s =>
  match x s.volume with
  | .ok (a, v) => .ok (a, { s with volume := v })
  | .error e => .error (.sfs e)

section Model

variable (heap : Nat → Bool) (io : Nat → Int)

/-- Whether `kmalloc` returns an object. -/
def kmallocOk : StoreM Bool := do
  let s ← get
  set s.request
  return heap s.requests

def MAX_INODE_COUNT : Int := 0x10000

/-- `inode_check`, as far as it looks at counts. -/
def inodeCheck (node : BitVec 32) : StoreM PUnit := do
  let s ← get
  check .inodeCheck (s.openCount node ≤ s.refCount node ∧ 0 ≤ s.openCount node)
  check .inodeCheck (s.refCount node < MAX_INODE_COUNT ∧ s.openCount node < MAX_INODE_COUNT)

def inodeRefInc (node : BitVec 32) : StoreM Int := do
  let s ← get
  set (s.setRef node (s.refCount node + 1))
  return s.refCount node + 1

def inodeKill (node : BitVec 32) : StoreM PUnit := do
  let s ← get
  check .inodeKill (s.refCount node = 0 ∧ s.openCount node = 0)

/-- `vop_reclaim`. -/
def vopReclaim (node : BitVec 32) : StoreM Int := do
  inodeCheck node
  let refs := ((← get).refCount node).toNat
  let ret ← onVolume (sfsReclaim io node refs)
  if ret = 0 then
    inodeKill node
    return 0
  else return ret

/-- What `vop_reclaim` returns is printed. -/
def inodeRefDec (node : BitVec 32) : StoreM Int := do
  let s ← get
  check .inodeRefDec (0 < s.refCount node)
  set (s.setRef node (s.refCount node - 1))
  if s.refCount node - 1 = 0 then
    let _ ← vopReclaim io node
    return 0
  else return s.refCount node - 1

/-- `lookup_sfs_nolock` of an inode that is in memory. -/
def lookupSfsNolock (ino : BitVec 32) : StoreM PUnit := do
  let count ← inodeRefInc ino
  if count = 1 then modify fun s => s.reclaimInc ino else pure ⟨⟩

/-- Whether an inode is in memory. -/
instance Volume.decidableCached (v : Volume) (ino : BitVec 32) : Decidable (ino ∈ v.inodeList) :=
  decidable_of_iff (v.inodeList.contains ino = true) List.contains_iff_mem

def sfsLoadInode (ino : BitVec 32) : StoreM (Except Int PUnit) := do
  if ino ∈ (← get).volume.inodeList then
    lookupSfsNolock ino
    return .ok ⟨⟩
  else if (← kmallocOk heap) = false then return .error (-E_NO_MEM)
  else
    check .sfsLoadInode ((← onVolume (sfsBlockInuse ino)) = true)
    match ← onVolume (sfsRbuf io sizeofDiskInode ino 0) with
    | .error ret => return .error ret
    | .ok buf =>
        let din := DiskInode.ofBytes buf
        check .sfsLoadInode (din.nlinks ≠ 0)
        if (← kmallocOk heap) = false then return .error (-E_NO_MEM)
        else
          check .sfsGetOps (din.type = SFS_TYPE_DIR ∨ din.type = SFS_TYPE_FILE)
          modify fun s => s.create ino din
          return .ok ⟨⟩

/-- The inode that an entry of a directory names. -/
def sfsLookupOnce (node : BitVec 32) (name : List Byte) : StoreM (Except Int (BitVec 32)) := do
  let full := !(← kmallocOk heap)
  match ← onVolume (sfsDirentSearchNolock io full node name) with
  | (.error ret, _) => return .error ret
  | (.ok (ino, _), _) =>
      match ← sfsLoadInode heap io ino with
      | .error ret => return .error ret
      | .ok _ => return .ok ino

end Model

variable {E : Stopped → Prop} {heap : Nat → Bool} {io : Nat → Int} {own : Nat → Owner}
  {s t u : Store} {v w x : Volume} {node n : BitVec 32}

theorem ends_onVolume {α : Type} {x : SfsM α} {Q : α → Store → Prop} :
    Ends E (onVolume x) s Q ↔
      Ends (fun e => E (.sfs e)) x s.volume fun a v => Q a { s with volume := v } := by
  unfold Ends onVolume
  cases x s.volume <;> rfl

theorem ends_kmallocOk {Q : Bool → Store → Prop} :
    Ends E (kmallocOk heap) s Q ↔ Q (heap s.requests) s.request := Iff.rfl

/-! ## What is not changed -/

/-- The files are the same. Inodes may have been written back, loaded and forgotten. -/
structure Same (own : Nat → Owner) (v w : Volume) : Prop where
  super : w.super = v.super
  freemap : w.freemap = v.freemap
  superDirty : w.superDirty = v.superDirty
  disk : ∀ b, own b ≠ .inode → w.disk b = v.disk b
  din : ∀ n, own n.toNat = .inode → w.din n = v.din n

namespace Same

theorem refl (own : Nat → Owner) (v : Volume) : Same own v v :=
  ⟨rfl, rfl, rfl, fun _ _ => rfl, fun _ _ => rfl⟩

theorem trans (h : Same own v w) (h' : Same own w x) : Same own v x :=
  ⟨h'.super.trans h.super, h'.freemap.trans h.freemap, h'.superDirty.trans h.superDirty,
    fun b hb => (h'.disk b hb).trans (h.disk b hb), fun n hn => (h'.din n hn).trans (h.din n hn)⟩

theorem slot (h : Same own v w) (hv : Sound own v) (hn : own n.toNat = .inode) (i : Nat) :
    w.slot n i = v.slot n i := by
  rw [Volume.slot, Volume.slot, h.din n hn, DiskInode.slot, DiskInode.slot]
  split
  next => rfl
  next =>
    split
    next hin =>
      have hindex := hv.index_of hn hin.1
      rw [h.disk _ (by simp [hindex])]
    next => rfl

theorem sound (h : Same own v w) (hv : Sound own v) : Sound own w :=
  hv.congr h.super h.freemap (fun n hn => by rw [h.din n hn]) fun _ i hn => h.slot hv hn i

theorem mapped (h : Same own v w) (hv : Mapped own v) : Mapped own w := by
  refine ⟨h.sound hv.sound, fun n hn => ?_⟩
  have hsized := hv.sized n hn
  refine ⟨by rw [h.din n hn]; exact hsized.le, fun i => ?_⟩
  rw [h.din n hn, h.slot hv.sound hn i]
  exact hsized.slot i

/-- The contents of the blocks of a file. -/
theorem contents (h : Same own v w) (hv : Sound own v) (hn : own n.toNat = .inode) {i : Nat}
    (hslot : v.slot n i ≠ 0) : w.disk (w.slot n i).toNat = v.disk (v.slot n i).toNat := by
  have hdata := hv.data_of hn hslot
  rw [h.slot hv hn i, h.disk _ (by simp [hdata])]

theorem seated (h : Same own v w) (hv : Seated own v)
    (hlist : ∀ n ∈ w.inodeList, own n.toNat = .inode) : Seated own w where
  mapped := h.mapped hv.mapped
  list := hlist
  super := hv.super
  freemap i hi := hv.freemap i (by rwa [← sfsFreemapBlocks_congr (by rw [h.super])])

/-- Only the flags of the inodes have to be looked at. -/
theorem flags (h : Same own v w) (hv : Seated own v) (hflags : Flags v)
    (hinode : ∀ n ∈ w.inodeList, (w.sin n).dirty = false → InodeOnDisk w n) : Flags w := by
  refine ⟨hinode, fun hclean => ?_⟩
  have hhead := hflags.super (by rw [← h.superDirty, hclean])
  refine ⟨?_, fun i hi => ?_⟩
  · rw [h.disk _ (by simp [hv.super]), h.super]
    exact hhead.super
  · have hcount : sfsFreemapBlocks w.super = sfsFreemapBlocks v.super := by rw [h.super]
    rw [hcount] at hi
    rw [h.disk _ (by simp [hv.freemap i hi]), h.freemap]
    exact hhead.freemap i hi

theorem tick (own : Nat → Owner) (v : Volume) (k : Nat) : Same own v (v.tick k) :=
  ⟨rfl, rfl, rfl, fun _ _ => rfl, fun _ _ => rfl⟩

theorem setSin (own : Nat → Owner) (hcached : node ∈ v.inodeList) (sin : SfsInode)
    (hdin : sin.din = (v.sin node).din) : Same own v (v.setSin node sin) := by
  refine ⟨rfl, rfl, rfl, fun _ _ => rfl, fun n _ => ?_⟩
  rw [din_setSin hcached]
  split
  next heq => rw [heq, hdin, din_cached hcached]
  next => rfl

theorem flush (hv : Seated own v) (hcached : node ∈ v.inodeList) (k : Nat) :
    Same own v ((v.flush node).tick k) := by
  have hnode := hv.list _ hcached
  refine ⟨rfl, rfl, rfl, fun b hb => Function.update_of_ne ?_ _ _,
    (hv.mapped.sound.flush hnode hcached k).din⟩
  rintro rfl
  exact hb hnode

/-- A clean inode may be forgotten. -/
theorem evict (own : Nat → Owner) (hnodup : v.inodeList.Nodup) (hcached : node ∈ v.inodeList)
    (hdisk : InodeOnDisk v node) : Same own v (v.evict node) := by
  refine ⟨rfl, rfl, rfl, fun _ _ => rfl, fun n _ => ?_⟩
  by_cases hn : n = node
  · subst hn
    have hgone : n ∉ (v.evict n).inodeList := fun hmem => (hnodup.mem_erase_iff.mp hmem).1 rfl
    rw [Volume.din, if_neg hgone, din_cached hcached]
    exact hdisk
  · exact din_evict hn

end Same

/-- The end of `sfs_reclaim`, of an inode that is linked. -/
theorem forget_linked (hv : Seated own v) (hflags : Flags v) (hnodup : v.inodeList.Nodup)
    (hcached : node ∈ v.inodeList) (hlinks : (v.din node).nlinks ≠ 0)
    (hclean : (v.sin node).dirty = false) :
    Ends never (do
      modify fun v => { v with inodeList := v.inodeList.erase node }
      let din := ((← get).sin node).din
      if din.nlinks = 0 then
        sfsBlockFree node
        if din.indirect ≠ 0 then sfsBlockFree din.indirect
        return 0
      else return 0) v fun ret w => Same own v w ∧ Flags w ∧ w.sin = v.sin ∧ ret = (0 : Int) ∧
        w.inodeList = v.inodeList.erase node := by
  rw [din_cached hcached] at hlinks
  rw [ends_bind, ends_modify, ends_bind, ends_get]
  simp only
  rw [if_neg hlinks]
  have hevict : Same own v (v.evict node) :=
    .evict own hnodup hcached (hflags.inode node hcached hclean)
  refine ⟨hevict, hevict.flags hv hflags fun n hn hclean => ?_, rfl, rfl, rfl⟩
  exact hflags.inode n (List.mem_of_mem_erase hn) hclean

/-- `sfs_reclaim` of an inode that is linked, without references: it is written back and
forgotten, if it can be written. -/
theorem sfsReclaim_linked (hv : Seated own v) (hflags : Flags v) (hnodup : v.inodeList.Nodup)
    (hcached : node ∈ v.inodeList) (hlinks : (v.din node).nlinks ≠ 0)
    (hclaim : 0 < (v.sin node).reclaimCount) :
    Ends never (sfsReclaim io node 0) v fun ret w => Same own v w ∧ Flags w ∧
      (∀ n, n ≠ node → w.sin n = v.sin n) ∧ 0 ≤ (w.sin node).reclaimCount ∧
      (ret ≠ 0 ∧ w.inodeList = v.inodeList ∨ ret = 0 ∧ w.inodeList = v.inodeList.erase node) := by
  have hnode := hv.list _ hcached
  rw [sfsReclaim, ends_bind, ends_get]
  simp only
  rw [ends_bind, ends_check hclaim, ends_bind, ends_modify]
  obtain ⟨sin, hsin⟩ : ∃ sin, sin = { v.sin node with
    reclaimCount := (v.sin node).reclaimCount - 1 } := ⟨_, rfl⟩
  obtain ⟨w, hw⟩ : ∃ w, w = v.setSin node sin := ⟨_, rfl⟩
  rw [← hsin, ← hw]
  have hsame : Same own v w := hw ▸ .setSin own hcached sin (by rw [hsin])
  have hself : w.sin node = sin := hw ▸ Function.update_self _ _ _
  have hothers : ∀ n, n ≠ node → w.sin n = v.sin n := fun n hn => hw ▸ Function.update_of_ne hn _ _
  have hlist : w.inodeList = v.inodeList := by rw [hw]; rfl
  have hdisk : w.disk = v.disk := by rw [hw]; rfl
  have hcached' : node ∈ w.inodeList := hlist ▸ hcached
  have hseated : Seated own w := hsame.seated hv fun n hn => hv.list n (hlist ▸ hn)
  have hlinks' : (w.din node).nlinks ≠ 0 := by rwa [hsame.din _ hnode]
  have hcount : 0 ≤ (w.sin node).reclaimCount := by
    rw [hself, hsin]
    show 0 ≤ (v.sin node).reclaimCount - 1
    omega
  have hkept : Flags w := by
    refine hsame.flags hv hflags fun n hn hclean => ?_
    rw [hlist] at hn
    rw [InodeOnDisk, hdisk]
    by_cases heq : n = node
    · rw [heq, hself, hsin] at hclean ⊢
      exact hflags.inode node hcached hclean
    · rw [hothers n heq] at hclean ⊢
      exact hflags.inode n hn hclean
  split
  next => exact ⟨hsame, hkept, hothers, hcount, .inl ⟨by decide, hlist⟩⟩
  next =>
    have hlinked : ¬(w.sin node).din.nlinks = 0 := by rwa [← din_cached hcached']
    rw [ends_bind, prepareReclaim, ends_bind, ends_get]
    simp only
    rw [if_neg hlinked, ends_bind, ends_pure, if_neg (not_not.mpr rfl), ends_bind, ends_get]
    split
    next hdirty =>
      apply (sfsFsync_spec hseated.mapped.sound hnode).imp
      rintro ret x (⟨hclean, _⟩ | ⟨_, rfl, _, _, rfl⟩ | ⟨_, herror, hfail, k, rfl⟩)
      · rw [hdirty] at hclean
        cases hclean
      · obtain ⟨hseated', hflags', hflag⟩ := hseated.flush hkept hcached' 2
        have hflush : Same own w ((w.flush node).tick 2) := .flush hseated hcached' 2
        have hsin' : ∀ n, ((w.flush node).tick 2).sin n =
            if n = node then { w.sin node with dirty := false } else w.sin n := fun n =>
          Function.update_apply _ _ _ _
        rw [if_neg (not_not.mpr rfl)]
        apply (forget_linked hseated' hflags' (by rw [← hlist] at hnodup; exact hnodup) hcached'
          (by rwa [hflush.din _ hnode]) (by rw [hflag, if_pos rfl])).imp
        rintro ret y ⟨hforget, hflags'', hsins, rfl, hgone⟩
        refine ⟨(hsame.trans hflush).trans hforget, hflags'', fun n hn => ?_, ?_, .inr ⟨rfl, ?_⟩⟩
        · rw [hsins, hsin', if_neg hn, hothers n hn]
        · rw [hsins, hsin', if_pos rfl]
          exact hcount
        · rw [hgone, ← hlist]
          rfl
      · have hne : ret ≠ 0 := by
          rcases herror with rfl | ⟨_, _, hne⟩
          · decide
          · exact hne
        rw [if_pos hne]
        exact ⟨hsame.trans (.tick own w k), hkept.tick k, hothers, hcount, .inl ⟨hne, hlist⟩⟩
    next hclean =>
      rw [ends_pure, if_neg (not_not.mpr rfl)]
      apply (forget_linked hseated hkept (by rwa [hlist]) hcached' hlinks'
        (Bool.eq_false_iff.mpr hclean)).imp
      rintro ret y ⟨hforget, hflags', hsins, rfl, hgone⟩
      refine ⟨hsame.trans hforget, hflags', fun n hn => ?_, ?_, .inr ⟨rfl, by rw [hgone, hlist]⟩⟩
      · rw [hsins, hothers n hn]
      · rw [hsins]
        exact hcount

/-! ## The invariant -/

/-- The volume is sound and its inodes are linked and of a known type; an inode that is not
in memory has no references, and the others have what `sfs_reclaim` asserts. -/
structure Store.Ok (own : Nat → Owner) (s : Store) : Prop where
  seated : Seated own s.volume
  flags : Flags s.volume
  linked : ∀ n, own n.toNat = .inode → (s.volume.din n).nlinks ≠ 0 ∧
    ((s.volume.din n).type = SFS_TYPE_DIR ∨ (s.volume.din n).type = SFS_TYPE_FILE)
  nodup : s.volume.inodeList.Nodup
  out : ∀ n, n ∉ s.volume.inodeList → s.refCount n = 0
  opens : ∀ n, 0 ≤ s.openCount n ∧ s.openCount n ≤ s.refCount n
  claims : ∀ n ∈ s.volume.inodeList, 0 ≤ (s.volume.sin n).reclaimCount ∧
    (0 < s.refCount n → 0 < (s.volume.sin n).reclaimCount)

/-- What the functions here keep: the files of the volume, and how often each inode is open. The
requests for memory are counted on. -/
structure Undisturbed (own : Nat → Owner) (s t : Store) : Prop where
  ok : t.Ok own
  same : Same own s.volume t.volume
  opens : t.openCount = s.openCount
  requests : s.requests ≤ t.requests

theorem Undisturbed.refl (h : s.Ok own) : Undisturbed own s s :=
    ⟨h, .refl own _, rfl, Nat.le_refl _⟩

theorem Undisturbed.trans (h : Undisturbed own s t) (h' : Undisturbed own t u) :
    Undisturbed own s u :=
  ⟨h'.ok, h.same.trans h'.same, h'.opens.trans h.opens, Nat.le_trans h.requests h'.requests⟩

theorem Store.reclaimInc_sin (s : Store) (node n : BitVec 32) : (s.reclaimInc node).volume.sin n =
    if n = node then
      { s.volume.sin node with reclaimCount := (s.volume.sin node).reclaimCount + 1 }
    else s.volume.sin n :=
  Function.update_apply _ _ _ _

namespace Store.Ok

/-- An inode with references is in memory. -/
theorem cached (h : s.Ok own) (hpos : 0 < s.refCount node) : node ∈ s.volume.inodeList := by
  by_contra hnot
  have hzero := h.out node hnot
  omega

theorem request (h : s.Ok own) : s.request.Ok own :=
  ⟨h.seated, h.flags, h.linked, h.nodup, h.out, h.opens, h.claims⟩

theorem tick (h : s.Ok own) (k : Nat) : ({ s with volume := s.volume.tick k } : Store).Ok own :=
  ⟨h.seated.tick k, h.flags.tick k, h.linked, h.nodup, h.out, h.opens, h.claims⟩

/-- A count changes, and the inode is in memory. -/
theorem setRef (h : s.Ok own) (hcached : node ∈ s.volume.inodeList) {count : Int}
    (hopen : s.openCount node ≤ count) (hclaim : 0 < count → 0 < (s.volume.sin node).reclaimCount) :
    (s.setRef node count).Ok own := by
  have href : ∀ n, (s.setRef node count).refCount n = if n = node then count else s.refCount n :=
    fun n => Function.update_apply _ _ _ _
  refine ⟨h.seated, h.flags, h.linked, h.nodup, fun n hn => ?_, fun n => ⟨(h.opens n).1, ?_⟩,
    fun n hn => ⟨(h.claims n hn).1, ?_⟩⟩
  · have hne : n ≠ node := by
      rintro rfl
      exact hn hcached
    rw [href, if_neg hne]
    exact h.out n hn
  · rw [href]
    split
    next heq => exact heq ▸ hopen
    next => exact (h.opens n).2
  · rw [href]
    split
    next heq => exact heq ▸ hclaim
    next => exact (h.claims n hn).2

/-- The flags, the list and `reclaim_count` in a volume that has the same files. -/
theorem same (h : s.Ok own) (hsame : Same own s.volume v) (hflags : Flags v)
    (hsub : ∀ n ∈ v.inodeList, n ∈ s.volume.inodeList) (hnodup : v.inodeList.Nodup)
    (hout : ∀ n, n ∉ v.inodeList → s.refCount n = 0)
    (hclaims : ∀ n ∈ v.inodeList, 0 ≤ (v.sin n).reclaimCount ∧
      (0 < s.refCount n → 0 < (v.sin n).reclaimCount)) :
      ({ s with volume := v } : Store).Ok own := by
  refine ⟨hsame.seated h.seated fun n hn => h.seated.list n (hsub n hn), hflags,
    fun n hn => ?_, hnodup, hout, h.opens, hclaims⟩
  show (v.din n).nlinks ≠ 0 ∧ _
  rw [hsame.din n hn]
  exact h.linked n hn

/-- One more claim on an inode. -/
theorem reclaimInc (h : s.Ok own) (hcached : node ∈ s.volume.inodeList) :
    (s.reclaimInc node).Ok own ∧ Same own s.volume (s.reclaimInc node).volume := by
  have hsin := s.reclaimInc_sin node
  have hsame : Same own s.volume (s.reclaimInc node).volume := .setSin own hcached _ rfl
  refine ⟨h.same hsame (hsame.flags h.seated h.flags fun n hn hclean => ?_) (fun _ hn => hn) h.nodup
    h.out fun n hn => ?_, hsame⟩
  · have hdirty : (s.volume.sin n).dirty = false := by
      rw [hsin] at hclean
      split at hclean
      next heq => rw [heq, hclean]
      next => exact hclean
    have hold : InodeOnDisk s.volume n := h.flags.inode n hn hdirty
    rw [InodeOnDisk, hsin]
    split
    next heq =>
      rw [heq] at hold
      rw [heq]
      exact hold
    next => exact hold
  · change 0 ≤ ((s.reclaimInc node).volume.sin n).reclaimCount ∧
      (_ → 0 < ((s.reclaimInc node).volume.sin n).reclaimCount)
    rw [hsin]
    split
    next heq =>
      have hclaim := (h.claims n hn).1
      rw [heq] at hclaim
      show 0 ≤ (s.volume.sin node).reclaimCount + 1 ∧ (_ → 0 < (s.volume.sin node).reclaimCount + 1)
      omega
    next => exact h.claims n hn

end Store.Ok

/-! ## Giving a reference back -/

/-- `vop_reclaim` without references. -/
theorem vopReclaim_spec (h : s.Ok own) (hcached : node ∈ s.volume.inodeList)
    (href : s.refCount node = 0) (hclaim : 0 < (s.volume.sin node).reclaimCount) :
    Ends never (vopReclaim io node) s fun _ t =>
      Undisturbed own s t ∧ t.refCount = s.refCount ∧ t.requests = s.requests := by
  have hopens := h.opens node
  have hsmall : s.refCount node < MAX_INODE_COUNT ∧ s.openCount node < MAX_INODE_COUNT := by
    unfold MAX_INODE_COUNT
    omega
  rw [vopReclaim, ends_bind, inodeCheck, ends_bind, ends_get, ends_bind,
    ends_check ⟨hopens.2, hopens.1⟩, ends_check hsmall, ends_bind, ends_get]
  simp only
  rw [href, Int.toNat_zero, ends_bind, ends_onVolume]
  apply (sfsReclaim_linked h.seated h.flags h.nodup hcached
    (h.linked node (h.seated.list _ hcached)).1 hclaim).lift
  rintro ret w ⟨hsame, hflags, hothers, hcount, hend⟩
  have hclaims : ∀ n ∈ s.volume.inodeList, 0 ≤ (w.sin n).reclaimCount ∧
      (0 < s.refCount n → 0 < (w.sin n).reclaimCount) := by
    intro n hn
    by_cases heq : n = node
    · rw [heq, href]
      exact ⟨hcount, fun hno => absurd hno (Int.lt_irrefl 0)⟩
    · rw [hothers n heq]
      exact h.claims n hn
  rcases hend with ⟨hne, hlist⟩ | ⟨rfl, hlist⟩
  · rw [if_neg hne]
    refine ⟨⟨h.same hsame hflags (fun n hn => hlist ▸ hn) (hlist ▸ h.nodup)
      (fun n hn => h.out n (hlist ▸ hn)) (fun n hn => hclaims n (hlist ▸ hn)), hsame, rfl,
      Nat.le_refl _⟩, rfl, rfl⟩
  · have hkill : s.refCount node = 0 ∧ s.openCount node = 0 := ⟨href, by omega⟩
    have hmem : ∀ n, n ∈ w.inodeList ↔ n ≠ node ∧ n ∈ s.volume.inodeList := by
      intro n
      rw [hlist, h.nodup.mem_erase_iff]
    rw [if_pos rfl, ends_bind, inodeKill, ends_bind, ends_get, ends_check hkill]
    refine ⟨⟨h.same hsame hflags (fun n hn => ((hmem n).mp hn).2) (hlist ▸ h.nodup.erase node)
      (fun n hn => ?_) (fun n hn => hclaims n ((hmem n).mp hn).2), hsame, rfl,
        Nat.le_refl _⟩, rfl, rfl⟩
    by_cases heq : n = node
    · rw [heq, href]
    · exact h.out n fun hin => hn ((hmem n).mpr ⟨heq, hin⟩)

/-- A reference that does not belong to an open file is given back. -/
theorem inodeRefDec_spec (h : s.Ok own) (hopen : s.openCount node < s.refCount node) :
    Ends never (inodeRefDec io node) s fun _ t => Undisturbed own s t ∧
      t.refCount = Function.update s.refCount node (s.refCount node - 1) ∧
        t.requests = s.requests := by
  have hopens := h.opens node
  have hpos : 0 < s.refCount node := by omega
  have hcached := h.cached hpos
  have hclaim := (h.claims node hcached).2 hpos
  have hok : (s.setRef node (s.refCount node - 1)).Ok own :=
    h.setRef hcached (by omega) fun _ => hclaim
  rw [inodeRefDec, ends_bind, ends_get, ends_bind, ends_check hpos, ends_bind, ends_set]
  split
  next hzero =>
    rw [ends_bind]
    have href : (s.setRef node (s.refCount node - 1)).refCount node = 0 := by
      rw [hzero]
      exact Function.update_self _ _ _
    apply (vopReclaim_spec hok hcached href hclaim).imp
    rintro _ t ⟨hundisturbed, hrefs, hrequests⟩
    exact ⟨⟨hundisturbed.ok, hundisturbed.same, hundisturbed.opens, hundisturbed.requests⟩, hrefs,
      hrequests⟩
  next => exact ⟨⟨hok, .refl own _, rfl, Nat.le_refl _⟩, rfl, rfl⟩

/-! ## Taking a reference -/

/-- The calls of `kmalloc` between two states have all been met; `heap` says which of them are. -/
def Granted (heap : Nat → Bool) (s t : Store) : Prop :=
  ∀ k, s.requests ≤ k → k < t.requests → heap k = true

/-- One of them has not. -/
def Denied (heap : Nat → Bool) (s t : Store) : Prop :=
  ∃ k, s.requests ≤ k ∧ k < t.requests ∧ heap k = false

theorem Granted.trans (h : Granted heap s t) (h' : Granted heap t u) : Granted heap s u := by
  intro k hle hlt
  by_cases hk : k < t.requests
  · exact h k hle hk
  · exact h' k (Nat.le_of_not_lt hk) hlt

theorem Denied.before (h : Denied heap t u) (hle : s.requests ≤ t.requests) : Denied heap s u := by
  obtain ⟨k, hk, hlt, hfalse⟩ := h
  exact ⟨k, Nat.le_trans hle hk, hlt, hfalse⟩

theorem Denied.after (h : Denied heap s t) (hle : t.requests ≤ u.requests) : Denied heap s u := by
  obtain ⟨k, hk, hlt, hfalse⟩ := h
  exact ⟨k, hk, Nat.lt_of_lt_of_le hlt hle, hfalse⟩

theorem Denied.not_granted (h : Denied heap s t) : ¬Granted heap s t := by
  obtain ⟨k, hk, hlt, hfalse⟩ := h
  intro hgranted
  rw [hgranted k hk hlt] at hfalse
  cases hfalse

/-- What a call that hands out a reference to `node`, or fails, does to the counts. -/
structure Taken (heap : Nat → Bool) (s t : Store) (node : BitVec 32) : Prop where
  refs : t.refCount = Function.update s.refCount node (s.refCount node + 1)
  granted : Granted heap s t

/-- An inode that is in memory gets one more reference. -/
theorem lookupSfsNolock_spec (h : s.Ok own) (hcached : node ∈ s.volume.inodeList) :
    Ends never (lookupSfsNolock node) s fun _ t =>
      Undisturbed own s t ∧ t.refCount = Function.update s.refCount node (s.refCount node + 1) ∧
      t.requests = s.requests := by
  have hopens := h.opens node
  have hclaims := h.claims node hcached
  rw [lookupSfsNolock, ends_bind, inodeRefInc, ends_bind, ends_get, ends_bind, ends_set, ends_pure]
  split
  next hone =>
    obtain ⟨hok, hsame⟩ := h.reclaimInc hcached
    have hcount : 0 < ((s.reclaimInc node).volume.sin node).reclaimCount := by
      have hsin : ((s.reclaimInc node).volume.sin node).reclaimCount =
          (s.volume.sin node).reclaimCount + 1 := by
        rw [Store.reclaimInc_sin, if_pos rfl]
      omega
    have hok' : ((s.reclaimInc node).setRef node (s.refCount node + 1)).Ok own :=
      hok.setRef hcached (Int.le_trans hopens.2 (by omega)) fun _ => hcount
    rw [ends_modify]
    exact ⟨⟨hok', hsame, rfl, Nat.le_refl _⟩, rfl, rfl⟩
  next hmore =>
    have hok : (s.setRef node (s.refCount node + 1)).Ok own :=
      h.setRef hcached (by omega) fun _ => hclaims.2 (by omega)
    exact ⟨⟨hok, .refl own _, rfl, Nat.le_refl _⟩, rfl, rfl⟩

/-- An inode comes into memory. -/
theorem Store.Ok.create (h : s.Ok own) (hnode : own node.toNat = .inode)
    (hnot : node ∉ s.volume.inodeList) :
    let t := s.create node (DiskInode.ofBytes (s.volume.disk node.toNat))
    t.Ok own ∧ Same own s.volume t.volume ∧ t.openCount = s.openCount ∧
      t.refCount = Function.update s.refCount node (s.refCount node + 1) := by
  intro t
  have hzero := h.out node hnot
  have hopens := h.opens node
  have hopen : t.openCount = s.openCount := by
    show Function.update s.openCount node 0 = _
    rw [show (0 : Int) = s.openCount node by omega, Function.update_eq_self]
  have href : t.refCount = Function.update s.refCount node (s.refCount node + 1) := by
    rw [hzero]
    rfl
  have hload : t.volume = s.volume.load node := rfl
  have hsame : Same own s.volume t.volume :=
    ⟨rfl, rfl, rfl, fun _ _ => rfl, fun n _ => hload ▸ din_load hnot n⟩
  have hsin : ∀ n, t.volume.sin n = if n = node then
      ⟨DiskInode.ofBytes (s.volume.disk node.toNat), false, 1⟩ else s.volume.sin n :=
    fun n => Function.update_apply _ _ _ _
  have hlist : t.volume.inodeList = node :: s.volume.inodeList := rfl
  have hold : ∀ n ∈ t.volume.inodeList, n ≠ node → n ∈ s.volume.inodeList := by
    intro n hn hne
    rw [hlist, List.mem_cons] at hn
    exact hn.resolve_left hne
  refine ⟨⟨hsame.seated h.seated fun n hn => ?_, hsame.flags h.seated h.flags fun n hn hclean => ?_,
    fun n hn => ?_, List.nodup_cons.mpr ⟨hnot, h.nodup⟩, fun n hn => ?_, fun n =>
      ?_, fun n hn => ?_⟩,
    hsame, hopen, href⟩
  · by_cases heq : n = node
    · rw [heq, hnode]
    · exact h.seated.list n (hold n hn heq)
  · rw [hsin] at hclean
    rw [InodeOnDisk, hsin]
    split
    next heq => rw [heq]; rfl
    next hne =>
      rw [if_neg hne] at hclean
      exact h.flags.inode n (hold n hn hne) hclean
  · rw [hsame.din n hn]
    exact h.linked n hn
  · rw [hlist, List.mem_cons, not_or] at hn
    rw [href, Function.update_of_ne hn.1]
    exact h.out n hn.2
  · rw [hopen, href, Function.update_apply]
    split
    next heq =>
      rw [heq]
      omega
    next => exact h.opens n
  · rw [hsin, href, Function.update_apply]
    split
    next => exact ⟨Int.zero_le_ofNat 1, fun _ => Int.zero_lt_one⟩
    next hne => exact h.claims n (hold n hn hne)

/-- `sfs_load_inode`. -/
theorem sfsLoadInode_spec (h : s.Ok own) (hnode : own node.toNat = .inode) :
    Ends never (sfsLoadInode heap io node) s fun r t => Undisturbed own s t ∧
      match r with
      | .ok _ => Taken heap s t node
      | .error ret => t.refCount = s.refCount ∧
          (ret = -E_NO_MEM ∧ Denied heap s t ∨ DeviceError io ret) := by
  rw [sfsLoadInode, ends_bind, ends_get]
  split
  next hcached =>
    rw [ends_bind]
    apply (lookupSfsNolock_spec h hcached).imp
    rintro _ t ⟨hundisturbed, hrefs, hrequests⟩
    exact ⟨hundisturbed, hrefs, fun k hle hlt => by omega⟩
  next hnot =>
    rw [ends_bind, ends_kmallocOk]
    split
    next hfull =>
      exact ⟨⟨h.request, .refl own _, rfl, Nat.le_succ _⟩, rfl,
        .inl ⟨rfl, s.requests, Nat.le_refl _, Nat.lt_succ_self _, hfull⟩⟩
    next hgot =>
      rw [Bool.not_eq_false] at hgot
      have hsound := h.seated.mapped.sound
      rw [ends_bind, ends_onVolume]
      apply (sfsBlockInuse_of hsound (by simp [hnode]) (by simp [hnode])).lift
      rintro _ v ⟨rfl, rfl⟩
      rw [ends_bind, ends_check rfl, ends_bind, ends_onVolume]
      have hstart : 0 < SFS_BLKSIZE := by decide
      have hfits : 0 + sizeofDiskInode ≤ SFS_BLKSIZE := by decide
      apply (sfsRbuf_spec (hsound.valid (by simp [hnode])) hstart hfits).lift
      rintro r v ⟨rfl, hread⟩
      obtain ⟨w, hw⟩ : ∃ w : Store, w = { s.request with volume := s.volume.tick 1 } := ⟨_, rfl⟩
      have hwok : w.Ok own := hw ▸ h.request.tick 1
      have hwsame : Same own s.volume w.volume := hw ▸ .tick own s.volume 1
      have hwopen : w.openCount = s.openCount := by rw [hw]; rfl
      have hwref : w.refCount = s.refCount := by rw [hw]; rfl
      have hwreq : w.requests = s.requests + 1 := by rw [hw]; rfl
      have hwlist : w.volume.inodeList = s.volume.inodeList := by rw [hw]; rfl
      have hwdisk : w.volume.disk = s.volume.disk := by rw [hw]; rfl
      have hwundisturbed : Undisturbed own s w := ⟨hwok, hwsame, hwopen, by omega⟩
      show Ends never _ ({ s.request with volume := s.volume.tick 1 } : Store) _
      rw [← hw]
      cases r with
      | error ret => exact ⟨hwundisturbed, hwref, .inr ⟨_, hread⟩⟩
      | ok buf =>
          obtain ⟨_, hbuf⟩ := hread
          have hdin : DiskInode.ofBytes buf = DiskInode.ofBytes (w.volume.disk node.toNat) := by
            rw [hbuf, hwdisk]
            simp only [Nat.zero_add]
          have hcopy : w.volume.din node = DiskInode.ofBytes buf := by
            rw [hdin, Volume.din, if_neg (by rw [hwlist]; exact hnot)]
          have hlinked := hwok.linked node hnode
          rw [hcopy] at hlinked
          simp only
          rw [ends_bind, ends_check hlinked.1, ends_bind, ends_kmallocOk]
          split
          next hfull =>
            refine ⟨⟨hwok.request, hwsame, hwopen, ?_⟩, hwref,
              .inl ⟨rfl, w.requests, ?_, ?_, hfull⟩⟩
            · exact Nat.le_succ_of_le hwundisturbed.requests
            · exact hwundisturbed.requests
            · exact Nat.lt_succ_self _
          next hgot' =>
            rw [Bool.not_eq_false] at hgot'
            rw [ends_bind, ends_check hlinked.2, ends_bind, ends_modify, ends_pure, hdin]
            obtain ⟨hok', hsame', hopen', href'⟩ := hwok.request.create hnode
              (show node ∉ w.request.volume.inodeList from hwlist ▸ hnot)
            refine ⟨⟨hok', hwsame.trans hsame', hopen'.trans hwopen, ?_⟩, ?_, fun k hle hlt => ?_⟩
            · show s.requests ≤ w.requests + 1
              omega
            · refine href'.trans ?_
              show Function.update w.refCount node (w.refCount node + 1) = _
              rw [hwref]
            · have hlt' : k < w.requests + 1 := hlt
              rcases Nat.lt_or_eq_of_le hle with hk | rfl
              · rw [show k = w.requests by omega]
                exact hgot'
              · exact hgot

end Ucore.Sfs
