import Ucore.Sfs.Reclaim

/-!
# What is on the disk after a sync

The dirty flags of the inodes and of the volume are set by hand. They cover what differs
from the disk as long as no block is added behind the indirect block of a clean inode by a
call that does not set the flag in another way; `sfs_sync` does not look at what `vop_fsync`
returns, so that its zero says something only where the inodes can be written.
-/

namespace Ucore.Sfs

open Machine

variable {io : Nat → Int} {own own' : Nat → Owner} {v t u : Volume} {node n b : BitVec 32} {j : Nat}

/-! ## The flags -/

/-- The inode on the disk is the one in memory. -/
def InodeOnDisk (v : Volume) (n : BitVec 32) : Prop :=
  DiskInode.ofBytes (v.disk n.toNat) = (v.sin n).din

/-- So are the superblock and the freemap. -/
structure HeadOnDisk (v : Volume) : Prop where
  super : Super.ofBytes (v.disk SFS_BLKN_SUPER) = v.super
  freemap : ∀ i < sfsFreemapBlocks v.super, v.disk (SFS_BLKN_FREEMAP + i) = freemapBlock v.freemap i

/-- What is not dirty is on the disk: `sfs_sync` writes nothing else, so whatever changes an inode
or the superblock has to mark it. -/
structure Flags (v : Volume) : Prop where
  inode : ∀ n ∈ v.inodeList, (v.sin n).dirty = false → InodeOnDisk v n
  super : v.superDirty = false → HeadOnDisk v

structure Durable (v : Volume) : Prop where
  inode : ∀ n ∈ v.inodeList, InodeOnDisk v n
  head : HeadOnDisk v

/-- The superblock, the freemap and the inodes have their own blocks, which no file has among its
data. -/
structure Seated (own : Nat → Owner) (v : Volume) : Prop where
  mapped : Mapped own v
  list : ∀ n ∈ v.inodeList, own n.toNat = .inode
  super : own SFS_BLKN_SUPER = .fixed
  freemap : ∀ i < sfsFreemapBlocks v.super, own (SFS_BLKN_FREEMAP + i) = .fixed

theorem sfsFreemapBlocks_congr (hblocks : t.super.blocks = v.super.blocks) :
    sfsFreemapBlocks t.super = sfsFreemapBlocks v.super := by
  rw [sfsFreemapBlocks, sfsFreemapBlocks, hblocks]

theorem Framed.seated (h : Framed node own own' v t) (hmapped : Mapped own' t) (hv : Seated own v) :
    Seated own' t where
  mapped := hmapped
  list n hn := (h.inode _).mpr (hv.list n (by rwa [← h.list]))
  super := (h.fixed _).mpr hv.super
  freemap i hi := (h.fixed _).mpr (hv.freemap i (by rwa [← sfsFreemapBlocks_congr h.blocks]))

/-- Only the flag of the inode whose block map has changed has to be looked at. -/
theorem Framed.flags (h : Framed node own own' v t) (hv : Seated own v) (hflags : Flags v)
    (hnode : (t.sin node).dirty = false → t.sin node = v.sin node) : Flags t := by
  refine ⟨fun n hn hclean => ?_, fun hclean => ?_⟩
  · rw [h.list] at hn
    have hsin : t.sin n = v.sin n := by
      by_cases heq : n = node
      · rw [heq] at hclean ⊢
        exact hnode hclean
      · exact h.others n heq
    rw [hsin] at hclean
    rw [InodeOnDisk, hsin, h.disk _ (.inl (hv.list n hn))]
    exact hflags.inode n hn hclean
  · obtain ⟨hsuper, hfreemap, hold⟩ := h.clean hclean
    have hhead := hflags.super hold
    refine ⟨?_, fun i hi => ?_⟩
    · rw [h.disk _ (.inr hv.super), hsuper]
      exact hhead.super
    · rw [hsuper] at hi
      rw [h.disk _ (.inr (hv.freemap i hi)), hfreemap]
      exact hhead.freemap i hi

/-- Calls of the device do not matter. -/
theorem Flags.tick (h : Flags v) (k : Nat) : Flags (v.tick k) := ⟨h.inode, fun hclean =>
  ⟨(h.super hclean).super, (h.super hclean).freemap⟩⟩

theorem Seated.tick (h : Seated own v) (k : Nat) : Seated own (v.tick k) := by
  have huntouched := Untouched.tick h.mapped.sound k
  exact (huntouched.framed h.mapped.sound 0).seated (huntouched.mapped h.mapped) h

/-! ## Blocks that leave the inode clean -/

/-- The next block of a clean inode goes into the indirect block, which does not set the flag. -/
structure Silent (io : Nat → Int) (v : Volume) (node : BitVec 32) : Prop where
  clean : (v.sin node).dirty = false
  entry : SFS_NDIRECT ≤ (v.din node).blocks.toNat
  indirect : (v.din node).indirect ≠ 0
  fits : Fits io v node (v.din node).blocks.toNat

/-- An inode that has got blocks, and is not dirty. -/
theorem Grown.silent {m : Nat} (h : Grown io own own' v t node m) (hpos : 0 < m)
    (hclean : (t.sin node).dirty = false) (hfits : Fits io v node (v.din node).blocks.toNat) :
    Silent io v node := by
  have hdirty := h.dirty
  rw [hclean, eq_comm, Bool.or_eq_false_iff, decide_eq_false_iff_not] at hdirty
  obtain ⟨hold, hno⟩ := hdirty
  exact ⟨hold, Nat.le_of_not_lt fun hlt => hno ⟨hpos, .inl hlt⟩, fun hzero =>
    hno ⟨hpos, .inr hzero⟩, hfits⟩

theorem Grown.flags {m : Nat} (h : Grown io own own' v t node m) (hv : Seated own v)
    (hflags : Flags v) (hfits : 0 < m → Fits io v node (v.din node).blocks.toNat)
    (hno : ¬Silent io v node) : Flags t := by
  apply h.framed.flags hv hflags
  intro hclean
  apply h.idle
  by_contra hm
  have hpos := Nat.pos_of_ne_zero hm
  exact hno (h.silent hpos hclean (hfits hpos))

theorem growIos_le {left left' : Nat} (hle : left ≤ left') : growIos j left ≤ growIos j left' := by
  induction left generalizing j left' with
  | zero => exact Nat.zero_le _
  | succ left ih =>
      cases left' with
      | zero => omega
      | succ left' => exact Nat.add_le_add_left (ih (Nat.le_of_succ_le_succ hle)) _

theorem FitsAll.le {left left' : Nat} (h : FitsAll io v node j left') (hle : left ≤ left') :
    FitsAll io v node j left := by
  refine ⟨fun k hk => h.io k (Nat.lt_of_lt_of_le hk (growIos_le hle)), ?_⟩
  have hroom := h.room
  unfold Volume.growRoom at hroom ⊢
  split
  next hin =>
    rw [if_pos ⟨by omega, hin.2⟩] at hroom
    omega
  next => split at hroom <;> omega

/-- A call that is broken off does not leave new blocks of a clean inode. -/
def SizeCall.Marked (io : Nat → Int) (v : Volume) (c : SizeCall) : Prop :=
  c.Resizes v → (v.din c.node).blocks.toNat < blocksFor c.len.toNat →
    ¬FitsAll io v c.node (v.din c.node).blocks.toNat
      (blocksFor c.len.toNat - (v.din c.node).blocks.toNat) → ¬Silent io v c.node

theorem TruncEnd.flags {len ret : Int} (h : TruncEnd io own v node len ret t) (hv : Seated own v)
    (hflags : Flags v) (hmarked : (v.din node).blocks.toNat < blocksFor len.toNat →
      ¬FitsAll io v node (v.din node).blocks.toNat
        (blocksFor len.toNat - (v.din node).blocks.toNat) → ¬Silent io v node) :
    Flags t ∧ ∃ own', Framed node own own' v t ∧ Seated own' t := by
  obtain ⟨own₁, hframed, hmapped, _⟩ := h.framed hv.mapped
  refine ⟨?_, own₁, hframed, hframed.seated hmapped hv⟩
  cases h with
  | refused => exact hflags
  | same => exact hflags
  | done _ own' htruncated =>
      apply htruncated.framed.flags hv hflags
      intro hclean
      rw [htruncated.dirty] at hclean
      cases hclean
  | growing _ _ m _ hret hlt hend =>
      obtain ⟨own', hgrown⟩ := hend.grown
      apply hgrown.flags hv hflags (fun hpos => (hend.first.mp hpos).2)
      exact hmarked hlt fun hall => hret (hend.fits.mpr hall)
  | shrinking _ _ m _ _ _ hend =>
      obtain ⟨own', hshrunk⟩ := hend.shrunk
      apply hshrunk.framed.flags hv hflags
      intro hclean
      have hdirty := hshrunk.dirty
      rw [hclean, eq_comm, Bool.or_eq_false_iff, decide_eq_false_iff_not] at hdirty
      exact hshrunk.idle (Nat.eq_zero_of_not_pos hdirty.2)

/-- What a call keeps. -/
def Steady (v t : Volume) : Prop :=
  Flags t ∧ t.inodeList = v.inodeList ∧ ∃ own', Seated own' t

theorem SizeCall.steady (c : SizeCall) (hv : Seated own v) (hflags : Flags v)
    (hcached : c.node ∈ v.inodeList) (hmarked : c.Marked io v) :
    Ends (fun _ => True) (c.run io) v fun _ t => Steady v t := by
  have hnode := hv.list _ hcached
  have hon : c.On own v := ⟨hnode, hcached⟩
  by_cases hresizes : c.Resizes v
  · have hmark := hmarked hresizes
    rw [c.run_resizes hon hresizes]
    by_cases hlong : maxBlocks < blocksFor c.len.toNat
    · obtain ⟨hlow, hhigh⟩ := hresizes.range
      have hle := (hv.mapped.sized _ hnode).le
      apply (sfsTruncfile_overrun hv.mapped hnode hcached hlow hhigh hlong).mono (fun _ _ =>
        trivial)
      rintro ret t ⟨_, hno, own', m, hgrown, hfits⟩
      have hsilent := hmark (by omega) fun hall => hno (hall.le (by omega))
      exact ⟨hgrown.flags hv hflags hfits hsilent, hgrown.framed.list, own',
        hgrown.framed.seated hgrown.mapped hv⟩
    · apply (sfsTruncfile_spec hv.mapped hnode hcached (Nat.le_of_not_lt hlong)).mono (fun _ _ =>
        trivial)
      intro ret t hend
      obtain ⟨hkept, own', hframed, hseated⟩ := hend.flags hv hflags hmark
      exact ⟨hkept, hframed.list, own', hseated⟩
  · apply (c.run_idle hon hresizes).lift
    rintro ret t ⟨_, rfl⟩
    exact ⟨hflags, rfl, own, hv⟩

/-! ## Loading a block -/

theorem steady_refl (hv : Seated own v) (hflags : Flags v) : Steady v v := ⟨hflags, rfl, own, hv⟩

theorem steady_load (hv : Seated own v) (hflags : Flags v) (hcached : node ∈ v.inodeList)
    (hmarked : j = (v.din node).blocks.toNat → ¬Silent io v node) :
    Ends (fun _ => True) (sfsBmapLoadNolock io node j) v fun _ t => Steady v t := by
  have hnode := hv.list _ hcached
  have hdin := din_cached hcached
  rcases Nat.lt_trichotomy j (v.din node).blocks.toNat with hlt | heq | hgt
  · apply (sfsBmapLoadNolock_read hv.mapped hnode hcached hlt).lift
    rintro r t ⟨⟨k, rfl⟩, _⟩
    exact ⟨hflags.tick k, rfl, own, hv.tick k⟩
  · by_cases hj : j < maxBlocks
    · have hsilent := hmarked heq
      apply (sfsBmapLoadNolock_grow hv.mapped hnode hcached heq hj).lift
      rintro r t ⟨own', hr⟩
      have hgrown : ∃ m, Grown io own own' v t node m ∧ (0 < m → Fits io v node j) := by
        cases r with
        | ok b => exact ⟨1, hr.grown, fun _ => hr.fits⟩
        | error ret => exact ⟨0, hr.2.2, fun hpos => absurd hpos (Nat.lt_irrefl 0)⟩
      obtain ⟨m, hgrown, hfits⟩ := hgrown
      rw [heq] at hfits
      exact ⟨hgrown.flags hv hflags hfits hsilent, hgrown.framed.list, own',
        hgrown.framed.seated hgrown.mapped hv⟩
    · -- past the last slot there is no return
      have hout : ¬j - SFS_NDIRECT < SFS_BLK_NENTRY := by
        unfold maxBlocks at hj
        omega
      have hnot : ¬j < SFS_NDIRECT := by
        unfold maxBlocks at hj
        omega
      rw [sfsBmapLoadNolock, ends_bind, ends_get]
      simp only
      rw [ends_bind]
      apply (ends_check_of trivial).mpr
      intro _
      rw [ends_bind, sfsBmapGetNolock, ends_bind, ends_get]
      change Ends _ (if h : j < SFS_NDIRECT then _ else _) v _
      rw [dif_neg hnot, if_neg hout]
      trivial
  · rw [sfsBmapLoadNolock, ends_bind, ends_get]
    simp only
    rw [ends_bind]
    apply (ends_check_of trivial).mpr
    intro hle
    rw [← hdin] at hle
    omega

/-! ## Writing back -/

theorem Flushed.seated (h : Flushed own v t) (hv : Seated own v)
    (hblocks : t.super.blocks = v.super.blocks) : Seated own t where
  mapped := h.mapped hv.mapped
  list n hn := hv.list n (by rwa [← h.list])
  super := hv.super
  freemap i hi := hv.freemap i (by rwa [← sfsFreemapBlocks_congr hblocks])

/-- An inode that was written back is clean and on the disk; the others are as before. -/
theorem Seated.flush (hv : Seated own v) (hflags : Flags v) (hcached : node ∈ v.inodeList)
    (k : Nat) :
    Seated own ((v.flush node).tick k) ∧ Flags ((v.flush node).tick k) ∧
      ∀ n, (((v.flush node).tick k).sin n).dirty = if n = node then false else (v.sin n).dirty := by
  have hnode := hv.list _ hcached
  have hsin : ∀ n, ((v.flush node).tick k).sin n =
      if n = node then { v.sin node with dirty := false } else v.sin n := fun n =>
    Function.update_apply _ _ _ _
  have hdisk : ∀ x, x ≠ node.toNat → ((v.flush node).tick k).disk x = v.disk x := fun x hx =>
    Function.update_of_ne hx _ _
  have hfixed : ∀ x, own x = .fixed → x ≠ node.toNat := by
    rintro x hx rfl
    rw [hnode] at hx
    cases hx
  refine ⟨(hv.mapped.sound.flush hnode hcached k).seated hv rfl, ⟨fun n hn hclean => ?_,
    fun hclean => ⟨?_, fun i hi => ?_⟩⟩, fun n => ?_⟩
  · by_cases heq : n = node
    · subst heq
      have hself : ((v.flush n).tick k).disk n.toNat =
          splice 0 64 (ofWords (v.sin n).din.words) (v.disk n.toNat) := Function.update_self _ _ _
      rw [InodeOnDisk, hself, hsin, if_pos rfl, DiskInode.ofBytes_splice]
    · have hne : n.toNat ≠ node.toNat := fun hsame => heq (BitVec.eq_of_toNat_eq hsame)
      rw [hsin, if_neg heq] at hclean
      rw [InodeOnDisk, hdisk _ hne, hsin, if_neg heq]
      exact hflags.inode n hn hclean
  · rw [hdisk _ (hfixed _ hv.super)]
    exact (hflags.super hclean).super
  · rw [hdisk _ (hfixed _ (hv.freemap i hi))]
    exact (hflags.super hclean).freemap i hi
  · rw [hsin]
    split <;> rfl

theorem steady_fsync (hv : Seated own v) (hflags : Flags v) (hcached : node ∈ v.inodeList) :
    Ends never (sfsFsync io node) v fun _ t => Steady v t := by
  apply (sfsFsync_spec hv.mapped.sound (hv.list _ hcached)).imp
  rintro ret t (⟨_, _, rfl⟩ | ⟨_, _, _, _, rfl⟩ | ⟨_, _, _, k, rfl⟩)
  · exact steady_refl hv hflags
  · obtain ⟨hseated, hkept, _⟩ := hv.flush hflags hcached 2
    exact ⟨hkept, rfl, own, hseated⟩
  · exact ⟨hflags.tick k, rfl, own, hv.tick k⟩

/-- All the inodes that are dirty can be written. Each takes two device calls: `sfs_wbuf` reads the
block before it writes it. -/
def WritesBack (io : Nat → Int) (v : Volume) : Prop :=
  ∀ k < 2 * v.inodeList.countP fun n => (v.sin n).dirty, io (v.ios + k) = 0

/-- The inodes of `rest` are still to be written back. -/
structure Syncing (io : Nat → Int) (own : Nat → Owner) (v : Volume) (rest : List (BitVec 32))
    (t : Volume) : Prop where
  seated : Seated own t
  flags : Flags t
  list : t.inodeList = v.inodeList
  sub : ∀ n ∈ rest, n ∈ v.inodeList
  done : WritesBack io v → ∀ n ∈ v.inodeList, n ∉ rest → (t.sin n).dirty = false
  served : WritesBack io v → ∀ k < 2 * rest.countP fun n => (t.sin n).dirty, io (t.ios + k) = 0

theorem Syncing.step {rest : List (BitVec 32)} (h : Syncing io own v (node :: rest) t) :
    Ends never (sfsFsync io node) t fun _ u => Syncing io own v rest u := by
  have hcached : node ∈ t.inodeList := by
    rw [h.list]
    exact h.sub node List.mem_cons_self
  have hrest : ∀ n ∈ rest, n ∈ v.inodeList := fun n hn => h.sub n (List.mem_cons_of_mem _ hn)
  have hserved := h.served
  rw [List.countP_cons] at hserved
  apply (sfsFsync_spec h.seated.mapped.sound (h.seated.list _ hcached)).imp
  rintro ret u (⟨hclean, _, rfl⟩ | ⟨hdirty, _, _, _, rfl⟩ | ⟨hdirty, _, hfail, k, rfl⟩)
  · rw [hclean] at hserved
    refine ⟨h.seated, h.flags, h.list, hrest, fun hall n hn hnot => ?_, hserved⟩
    by_cases heq : n = node
    · rw [heq]
      exact hclean
    · exact h.done hall n hn (by simp [heq, hnot])
  · obtain ⟨hseated, hkept, hflag⟩ := h.seated.flush h.flags hcached 2
    rw [hdirty] at hserved
    refine ⟨hseated, hkept, h.list, hrest, fun hall n hn hnot => ?_, fun hall k hk => ?_⟩
    · rw [hflag]
      split
      next => rfl
      next heq => exact h.done hall n hn (by simp [heq, hnot])
    · have hle : rest.countP (fun n => (((t.flush node).tick 2).sin n).dirty) ≤
          rest.countP fun n => (t.sin n).dirty := by
        apply List.countP_mono_left
        intro n _ hn
        rw [hflag] at hn
        split at hn
        next => cases hn
        next => exact hn
      have hcall := hserved hall (2 + k) (by
        rw [if_pos rfl]
        omega)
      rwa [← Nat.add_assoc] at hcall
  · -- a write that fails is excluded
    rw [hdirty, if_pos rfl] at hserved
    have hno : ¬WritesBack io v := fun hall => hfail
      ⟨hserved hall 0 (by omega), hserved hall 1 (by omega)⟩
    exact ⟨h.seated.tick k, h.flags.tick k, h.list, hrest, fun hall => absurd hall hno,
      fun hall => absurd hall hno⟩

theorem writeBlock_any (blkno : BitVec 32) (data : Bytes) (checked : Bool) :
    Ends (fun _ => True) (writeBlock io blkno data checked) v fun ret t =>
      blkno < v.super.blocks ∧ ∃ disk ios, t = { v with disk, ios } ∧
        (∀ x, x ≠ blockAt blkno → disk x = v.disk x) ∧ (ret = 0 → disk (blockAt blkno) = data) := by
  rw [writeBlock, ends_bind, checkBlkno, ends_bind, ends_get]
  apply (ends_check_of trivial).mpr
  rintro ⟨_, hlt⟩
  rw [ends_bind, dopIo, ends_bind, ends_get, ends_bind, ends_set, ends_pure]
  split
  next hne => exact ⟨hlt, v.disk, v.ios + 1, rfl, fun _ _ => rfl, fun hzero => absurd hzero hne⟩
  next =>
    rw [ends_bind, ends_modify, ends_pure]
    exact ⟨hlt, _, _, rfl, fun x hx => Function.update_of_ne hx _ _, fun _ =>
      Function.update_self _ _ _⟩

theorem freemapBlk_toNat (i : Nat) (hi : i < 2 ^ 16) :
    (BitVec.ofNat 32 SFS_BLKN_FREEMAP + BitVec.ofNat 32 i).toNat = SFS_BLKN_FREEMAP + i := by
  have htwo : SFS_BLKN_FREEMAP = 2 := rfl
  rw [BitVec.toNat_add, BitVec.toNat_ofNat, BitVec.toNat_ofNat, htwo]
  omega

/-- The loop over the blocks of the freemap. -/
theorem sfsWblock_spec (data : Nat → Bytes) : ∀ (left i : Nat) (v : Volume), i + left ≤ 2 ^ 16 →
    v.super.blocks.toNat ≤ 2 ^ 20 →
    Ends (fun _ => True)
    (sfsWblock io data (BitVec.ofNat 32 SFS_BLKN_FREEMAP) left i) v fun ret t =>
      ∃ disk ios, t = { v with disk, ios } ∧
        (∀ x, (∀ k < left, x ≠ SFS_BLKN_FREEMAP + (i + k)) → disk x = v.disk x) ∧
        (ret = 0 → ∀ k < left, disk (SFS_BLKN_FREEMAP + (i + k)) = data (i + k)) := by
  intro left
  induction left with
  | zero =>
      intro i v _ _
      exact ⟨v.disk, v.ios, rfl, fun _ _ => rfl, fun _ k hk => absurd hk (Nat.not_lt_zero k)⟩
  | succ left ih =>
      intro i v hi hsmall
      have hnumber := freemapBlk_toNat i (by omega)
      rw [sfsWblock, ends_bind]
      apply (writeBlock_any _ _ _).imp
      rintro ret t ⟨hlt, disk, ios, rfl, hother, hself⟩
      have hlt' : (BitVec.ofNat 32 SFS_BLKN_FREEMAP + BitVec.ofNat 32 i).toNat < 2 ^ 20 :=
        Nat.lt_of_lt_of_le hlt hsmall
      rw [blockAt_eq hlt', hnumber] at hother hself
      split
      next hne =>
        exact ⟨disk, ios, rfl, fun x hx => hother x (hx 0 (Nat.succ_pos left)),
          fun hzero => absurd hzero hne⟩
      next hzero =>
        have hwritten := hself (not_not.mp hzero)
        apply (ih (i + 1) { v with disk, ios } (by omega) hsmall).imp
        rintro ret u ⟨disk', ios', rfl, hother', hself'⟩
        refine ⟨disk', ios', rfl, fun x hx => ?_, fun hret k hk => ?_⟩
        · rw [hother' x fun k hk => by
            have := hx (k + 1) (by omega)
            omega]
          exact hother x (hx 0 (Nat.succ_pos left))
        · cases k with
          | zero =>
              rw [Nat.add_zero, hother' _ fun k _ => by omega]
              exact hwritten
          | succ k =>
              have := hself' hret k (by omega)
              rwa [show i + 1 + k = i + (k + 1) by omega] at this

/-- Writing the superblock and the freemap changes no inode. -/
theorem Seated.redisk (h : Seated own v) {disk : Blocks} {ios : Nat} {superDirty : Bool}
    (hdisk : ∀ x, own x ≠ .fixed → disk x = v.disk x) :
    Seated own { v with disk, ios, superDirty } := by
  obtain ⟨t, ht⟩ : ∃ t, t = ({ v with disk, ios, superDirty } : Volume) := ⟨_, rfl⟩
  have hsin : t.sin = v.sin := by rw [ht]
  have hlist : t.inodeList = v.inodeList := by rw [ht]
  have hsame : ∀ x, own x ≠ .fixed → t.disk x = v.disk x := by
    rw [ht]
    exact hdisk
  have hdin : ∀ n, own n.toNat = .inode → t.din n = v.din n := by
    intro n hn
    unfold Volume.din
    rw [hsin, hlist, hsame n.toNat (by simp [hn])]
  have hslot : ∀ n i, own n.toNat = .inode → t.slot n i = v.slot n i := by
    intro n i hn
    rw [Volume.slot, Volume.slot, hdin n hn, DiskInode.slot, DiskInode.slot]
    split
    next => rfl
    next =>
      split
      next hin =>
        have hindex := h.mapped.sound.index_of hn hin.1
        rw [hsame _ (by simp [hindex])]
      next => rfl
  have hsound : Sound own t := by
    apply h.mapped.sound.congr
    · rw [ht]
    · rw [ht]
    · exact fun n hn => by rw [hdin n hn]
    · exact hslot
  have hflushed : Flushed own v t := ⟨hsound, hlist, hdin, hslot⟩
  rw [← ht]
  exact hflushed.seated h (by rw [ht])

/-- `sfs_sync` returns zero on a volume whose inodes could be written only if all is on the disk. -/
theorem sfsSync_spec (hv : Seated own v) (hflags : Flags v) :
    Ends (fun _ => True) (sfsSync io) v fun ret t =>
      Steady v t ∧ (WritesBack io v → ret = 0 → Durable t) := by
  have hstart : Syncing io own v v.inodeList v :=
    ⟨hv, hflags, rfl, fun _ hn => hn, fun _ n hn hnot => absurd hn hnot, fun hall => hall⟩
  have hloop := ends_forM (E := (fun _ => True : Failed → Prop)) (f := fun node => do
    let _ ← sfsFsync io node) (P := fun rest t => Syncing io own v rest t) (by
      intro node rest t ht
      rw [ends_bind]
      exact ht.step.lift fun _ _ hu => hu) v.inodeList v hstart
  rw [sfsSync, ends_bind, ends_get, ends_bind]
  apply hloop.imp
  intro _ t hend
  have hinodes : WritesBack io v → ∀ n ∈ t.inodeList, InodeOnDisk t n := by
    intro hall n hn
    have hclean := hend.done hall n (by rwa [← hend.list]) List.not_mem_nil
    exact hend.flags.inode n hn hclean
  have hseated := hend.seated
  rw [ends_bind, ends_get]
  split
  next hdirty =>
    -- no inode is in a block that is written from here on
    have hfixed : ∀ disk : Blocks, (∀ x, own x ≠ .fixed → disk x = t.disk x) →
        ∀ n ∈ t.inodeList, disk n.toNat = t.disk n.toNat := by
      intro disk hdisk n hn
      apply hdisk
      rw [hseated.list n hn]
      simp
    have hsteady : ∀ (disk : Blocks) (ios : Nat) (superDirty : Bool),
        (∀ x, own x ≠ .fixed → disk x = t.disk x) →
        (superDirty = false → HeadOnDisk { t with disk, ios, superDirty }) →
        Steady v { t with disk, ios, superDirty } := by
      intro disk ios superDirty hdisk hhead
      refine ⟨⟨fun n hn hclean => ?_, hhead⟩, hend.list, own, ?_⟩
      · rw [InodeOnDisk]
        have hsame := hfixed disk hdisk n hn
        simp only [hsame]
        exact hend.flags.inode n hn hclean
      · exact hseated.redisk hdisk
    have hsmall := hseated.mapped.sound.small
    have hzero : blockAt (BitVec.ofNat 32 SFS_BLKN_SUPER) = SFS_BLKN_SUPER := by decide
    rw [ends_bind, setSuperDirty, ends_modify, ends_bind, sfsSyncSuper, ends_bind, ends_get]
    apply (writeBlock_any _ _ _).imp
    rintro ret u ⟨_, disk, ios, rfl, hother, hself⟩
    rw [hzero] at hother hself
    have hdisk : ∀ x, own x ≠ .fixed → disk x = t.disk x := by
      intro x hx
      apply hother
      rintro rfl
      exact hx hseated.super
    split
    next hne =>
      rw [ends_bind, setSuperDirty, ends_modify, ends_pure]
      exact ⟨hsteady disk ios true hdisk (by simp), fun _ hret => absurd hret hne⟩
    next hret =>
      have hsuper := hself (not_not.mp hret)
      rw [ends_bind, sfsSyncFreemap, ends_bind, ends_get]
      have hblocks : sfsFreemapBlocks t.super ≤ 2 ^ 16 := by
        unfold sfsFreemapBlocks roundupDiv SFS_BLKBITS SFS_BLKSIZE
        omega
      apply (sfsWblock_spec _ _ 0 _ (by simpa using hblocks) (by exact hsmall)).imp
      rintro ret u ⟨disk', ios', rfl, hother', hself'⟩
      have hdisk' : ∀ x, own x ≠ .fixed → disk' x = t.disk x := by
        intro x hx
        rw [hother' x fun k hk => ?_]
        · exact hdisk x hx
        · rintro rfl
          rw [Nat.zero_add] at hx
          exact hx (hseated.freemap k hk)
      split
      next hne =>
        rw [ends_bind, setSuperDirty, ends_modify, ends_pure]
        exact ⟨hsteady disk' ios' true hdisk' (by simp), fun _ hret => absurd hret hne⟩
      next hret' =>
        have hhead : HeadOnDisk { t with disk := disk', ios := ios', superDirty := false } := by
          refine ⟨?_, fun i hi => ?_⟩
          · show Super.ofBytes (disk' SFS_BLKN_SUPER) = t.super
            rw [hother' SFS_BLKN_SUPER fun k _ => by
              unfold SFS_BLKN_SUPER SFS_BLKN_FREEMAP
              omega]
            show Super.ofBytes (disk SFS_BLKN_SUPER) = t.super
            rw [hsuper]
            exact Super.ofBytes_splice _ _
          · have := hself' (not_not.mp hret') i hi
            rwa [Nat.zero_add] at this
        rw [ends_pure]
        refine ⟨hsteady disk' ios' false hdisk' fun _ => hhead, fun hall _ =>
          ⟨fun n hn => ?_, hhead⟩⟩
        rw [InodeOnDisk]
        have hsame := hfixed disk' hdisk' n hn
        simp only [hsame]
        exact hinodes hall n hn
  next hclean =>
    rw [ends_pure]
    exact ⟨⟨hend.flags, hend.list, own, hseated⟩, fun hall _ => ⟨hinodes hall,
      hend.flags.super (Bool.eq_false_iff.mpr hclean)⟩⟩

/-! ## Runs -/

/-- A call on the files and the blocks of a volume. -/
inductive VolumeCall
  | size (c : SizeCall)
  | load (node : BitVec 32) (index : Nat)
  | fsync (node : BitVec 32)
  | sync

namespace VolumeCall

def run (io : Nat → Int) : VolumeCall → SfsM Int
  | size c => c.run io
  | load node index => do
      match ← sfsBmapLoadNolock io node index with
      | .error ret => return ret
      | .ok _ => return 0
  | fsync node => sfsFsync io node
  | sync => sfsSync io

/-- The inode of the call is in memory. -/
def On (v : Volume) : VolumeCall → Prop
  | size c => c.node ∈ v.inodeList
  | load node _ => node ∈ v.inodeList
  | fsync node => node ∈ v.inodeList
  | sync => True

/-- The call leaves no change of an inode without its flag, and a sync can write the inodes. -/
def Marked (io : Nat → Int) (v : Volume) : VolumeCall → Prop
  | size c => c.Marked io v
  | load node index => index = (v.din node).blocks.toNat → ¬Silent io v node
  | fsync _ => True
  | sync => WritesBack io v

theorem steady (call : VolumeCall) (hv : Seated own v) (hflags : Flags v) (hon : call.On v)
    (hmarked : call.Marked io v) : Ends (fun _ => True) (call.run io) v fun ret t =>
      Steady v t ∧ (call = .sync → ret = 0 → Durable t) := by
  cases call with
  | size c =>
      apply (c.steady hv hflags hon hmarked).imp
      exact fun _ _ ht => ⟨ht, fun heq => nomatch heq⟩
  | load node index =>
      rw [run, ends_bind]
      apply (steady_load hv hflags hon hmarked).imp
      intro r t ht
      cases r with
      | error ret => exact ⟨ht, fun heq => nomatch heq⟩
      | ok b => exact ⟨ht, fun heq => nomatch heq⟩
  | fsync node =>
      apply (steady_fsync hv hflags hon).lift
      exact fun _ _ ht => ⟨ht, fun heq => nomatch heq⟩
  | sync =>
      apply (sfsSync_spec hv hflags).imp
      exact fun _ _ ht => ⟨ht.1, fun _ => ht.2 hmarked⟩

end VolumeCall

/-- In all the states of a run, what is not dirty is on the disk; and after a sync that
returned zero, everything is. -/
def StaysDurable (io : Nat → Int) : List VolumeCall → Volume → Prop
  | [], v => Flags v
  | call :: rest, v => Flags v ∧ ∀ ret t, call.run io v = .ok (ret, t) →
      (call = .sync → ret = 0 → Durable t) ∧ StaysDurable io rest t

/-- All the calls of a run mark what they change, so that the next `sfs_sync` knows of it. -/
def AllMarked (io : Nat → Int) : List VolumeCall → Volume → Prop
  | [], _ => True
  | call :: rest, v =>
      call.Marked io v ∧ ∀ ret t, call.run io v = .ok (ret, t) → AllMarked io rest t

/-- Whatever the calls and the failures of the device: as long as no call adds blocks behind the
indirect block of a clean inode without setting its flag, the flags cover what differs from
the disk, and after a sync that could write the inodes and returned zero nothing differs. -/
theorem sync_durable (calls : List VolumeCall) (hv : Seated own v) (hflags : Flags v)
    (hon : ∀ call ∈ calls, call.On v)
    (hmarked : AllMarked io calls v) : StaysDurable io calls v := by
  induction calls generalizing own v with
  | nil => exact hflags
  | cons call rest ih =>
      refine ⟨hflags, fun ret t hrun => ?_⟩
      have hends := call.steady hv hflags (hon call List.mem_cons_self) hmarked.1
      replace hends := hends.post hrun
      obtain ⟨⟨hkept, hlist, own', hseated⟩, hdurable⟩ := hends
      refine ⟨hdurable, ih hseated hkept (fun d hd => ?_) (hmarked.2 ret t hrun)⟩
      have hcached := hon d (List.mem_cons_of_mem _ hd)
      cases d with
      | sync => trivial
      | size c => exact (hlist ▸ hcached : c.node ∈ t.inodeList)
      | load node index => exact (hlist ▸ hcached : node ∈ t.inodeList)
      | fsync node => exact (hlist ▸ hcached : node ∈ t.inodeList)

/-- A new volume of which nothing has been written yet. -/
def unsaved : Volume :=
  { (newVolume 1).setSin 3 { (newVolume 1).sin 3 with dirty := true } with superDirty := true }

theorem unsaved_seated : Seated (newOwner 1) unsaved := by
  have hmapped := @newVolume_mapped 1 (by decide) (by decide)
  have hcached : (3 : BitVec 32) ∈ (newVolume 1).inodeList := List.mem_singleton.mpr rfl
  have hfixed : Seated (newOwner 1) (newVolume 1) := by
    refine ⟨hmapped, fun n hn => ?_, rfl, fun i hi => ?_⟩
    · rw [List.mem_singleton.mp hn]
      rfl
    · have hone : sfsFreemapBlocks (newVolume 1).super = 1 := by
        rw [sfsFreemapBlocks, roundupDiv]
        decide
      rw [hone] at hi
      rw [Nat.lt_one_iff.mp hi]
      rfl
  have hframed : Framed 3 (newOwner 1) (newOwner 1) (newVolume 1)
      ((newVolume 1).setSin 3 { (newVolume 1).sin 3 with dirty := true }) := by
    apply Framed.setSin_same hmapped.sound hcached
    · rfl
    · rfl
  exact (hframed.seated (hmapped.setSin_same hcached _ rfl rfl rfl) hfixed).redisk fun _ _ => rfl

theorem unsaved_flags : Flags unsaved := by
  refine ⟨fun n hn hclean => ?_, fun hclean => by cases hclean⟩
  rw [List.mem_singleton.mp hn] at hclean
  cases hclean

/-- A run of a sync that returns zero and leaves an inode of another type on the disk. -/
theorem not_staysDurable (hsync : yields (sfsSync io) v (fun ret t => decide (ret = 0) &&
      decide (node ∈ t.inodeList) &&
      decide ((DiskInode.ofBytes (t.disk node.toNat)).type ≠ (t.sin node).din.type)) = true) :
    ¬StaysDurable io [.sync] v := by
  intro hstays
  obtain ⟨ret, t, hrun, htest⟩ := (Ends.of_yields hsync).ok
  simp only [Bool.and_eq_true, decide_eq_true_eq] at htest
  obtain ⟨⟨hret, hlisted⟩, htype⟩ := htest
  have hdisk := ((hstays.2 ret t hrun).1 rfl hret).inode node hlisted
  rw [InodeOnDisk] at hdisk
  exact htype (by rw [hdisk])

/-- The inode cannot be written, and the superblock and the freemap can. -/
theorem sync_ignores_failure : ¬ ∀ (io : Nat → Int) (own : Nat → Owner) (v : Volume)
    (calls : List VolumeCall), Seated own v → Flags v → (∀ call ∈ calls, call.On v) →
      StaysDurable io calls v := by
  intro hclaim
  have hrun : yields (sfsSync fun k => if k = 1 then -1 else 0) unsaved (fun ret t =>
      decide (ret = 0) && decide ((3 : BitVec 32) ∈ t.inodeList) &&
      decide ((DiskInode.ofBytes (t.disk (3 : BitVec 32).toNat)).type ≠ (t.sin 3).din.type)) =
        true := by
    with_unfolding_all decide
  apply not_staysDurable hrun
  apply hclaim _ _ _ _ unsaved_seated unsaved_flags
  intro call hcall
  rw [List.mem_singleton.mp hcall]
  trivial

/-- A file that is written back, and a sync. -/
theorem sync_durable_unsaved : StaysDurable (fun _ => 0) [.fsync 3, .sync] unsaved := by
  apply sync_durable _ unsaved_seated unsaved_flags
  · intro call hcall
    rcases List.mem_cons.mp hcall with rfl | hcall
    · exact List.mem_singleton.mpr rfl
    · rw [List.mem_singleton.mp hcall]
      trivial
  · exact ⟨trivial, fun _ _ _ => ⟨fun _ _ => rfl, fun _ _ _ => trivial⟩⟩

end Ucore.Sfs
