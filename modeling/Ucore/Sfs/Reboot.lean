import Mathlib.Logic.Relation
import Ucore.Sfs.Open

/-!
# Switched off after a sync

`sfs_sync` that returned zero, and `sfs_do_mount` of what is then on the device: the files
are the same, however often that happens. What the memory had when the machine was switched
off does not matter.
-/

namespace Ucore.Sfs

open Machine

variable {io : Nat → Int} {heap : Nat → Bool} {own own' : Nat → Owner} {v t u w : Volume}
  {s s' : Store} {node n b : BitVec 32} {files : BitVec 32 → Prop} {dBlocks : Nat}

/-! ## What no call on files changes -/

/-- The words behind those of a bitmap that has no bits to spare in its last one. -/
def Bitmap.spare (bitmap : Bitmap) (ix : Nat) : BitVec 32 :=
  if bitmap.nbits = bitmap.nwords * 32 ∧ bitmap.nwords ≤ ix then bitmap.map ix else 0

/-- The superblock without its count of unused blocks, and the size of the freemap with what
is behind it. -/
def Volume.geometry (v : Volume) : Super × Nat × Nat × (Nat → BitVec 32) :=
  ({ v.super with unusedBlocks := 0 }, v.freemap.nbits, v.freemap.nwords, v.freemap.spare)

/-- Bitmaps of one size, with the same behind them. -/
def Bitmap.SameSize (bitmap bitmap' : Bitmap) : Prop :=
  (bitmap'.nbits, bitmap'.nwords, bitmap'.spare) = (bitmap.nbits, bitmap.nwords, bitmap.spare)

/-- A word of the bitmap has changed. -/
theorem Bitmap.sameSize_update (bitmap : Bitmap) {ix : Nat}
    (hix : bitmap.nbits = bitmap.nwords * 32 → ix < bitmap.nwords) (word : BitVec 32) :
    bitmap.SameSize { bitmap with map := Function.update bitmap.map ix word } := by
  refine congrArg (Prod.mk _) (congrArg (Prod.mk _) (funext fun k => ?_))
  unfold Bitmap.spare
  dsimp only
  split
  next hin =>
    have hlt := hix hin.1
    exact Function.update_of_ne (by omega) _ _
  next => rfl

theorem readBlock_geometry (blkno : BitVec 32) (checked : Bool) :
    Keeps Volume.geometry (readBlock io blkno checked) := by
  have hio : Keeps Volume.geometry (dopIo io) := fun _ => rfl
  refine (keeps_get.bind fun _ => keeps_check _ _).bind fun _ => hio.bind fun ret => ?_
  split
  next => exact keeps_pure _
  next => exact keeps_get.bind fun _ => keeps_pure _

theorem writeBlock_geometry (blkno : BitVec 32) (data : Bytes) (checked : Bool) :
    Keeps Volume.geometry (writeBlock io blkno data checked) := by
  have hio : Keeps Volume.geometry (dopIo io) := fun _ => rfl
  refine (keeps_get.bind fun _ => keeps_check _ _).bind fun _ => hio.bind fun ret => ?_
  split
  next => exact keeps_pure _
  next =>
    refine (keeps_modify ?_).bind fun _ => keeps_pure _
    exact fun _ => rfl

theorem sfsRbuf_geometry (len : Nat) (blkno : BitVec 32) (offset : Nat) :
    Keeps Volume.geometry (sfsRbuf io len blkno offset) := by
  refine (keeps_check _ _).bind fun _ => (readBlock_geometry blkno true).bind fun data => ?_
  cases data with
  | error ret => exact keeps_pure _
  | ok data => exact keeps_pure _

theorem sfsWbuf_geometry (buf : Bytes) (len : Nat) (blkno : BitVec 32) (offset : Nat) :
    Keeps Volume.geometry (sfsWbuf io buf len blkno offset) := by
  refine (keeps_check _ _).bind fun _ => (readBlock_geometry blkno true).bind fun data => ?_
  cases data with
  | error ret => exact keeps_pure _
  | ok data => exact writeBlock_geometry blkno _ true

theorem bitmapTest_geometry (bitmap : Bitmap) (index : Nat) :
    Keeps Volume.geometry (bitmapTest bitmap index) :=
  ((keeps_check _ _).bind fun _ => keeps_pure _).bind fun _ => keeps_pure _

theorem sfsBlockInuse_geometry (ino : BitVec 32) : Keeps Volume.geometry (sfsBlockInuse ino) := by
  refine keeps_get.bind fun v => ?_
  split
  next => exact (bitmapTest_geometry v.freemap ino.toNat).bind fun _ => keeps_pure _
  next => exact keeps_throw _

theorem bitmapAlloc_sameSize (bitmap : Bitmap) :
    Ends (fun _ => True) (bitmapAlloc bitmap) v fun r t =>
    t = v ∧ ∀ i freemap, r = some (i, freemap) → bitmap.SameSize freemap := by
  unfold bitmapAlloc
  split
  next => exact ⟨rfl, fun i freemap h => nomatch h⟩
  next ix hfound =>
    have hix := List.mem_range.mp (List.mem_of_find?_eq_some hfound)
    split
    next => trivial
    next =>
      refine ⟨rfl, fun i freemap h => ?_⟩
      obtain rfl := (Prod.mk.inj (Option.some.inj h)).2
      exact bitmap.sameSize_update (fun _ => hix) _

theorem bitmapFree_sameSize (bitmap : Bitmap) (index : Nat) :
    Ends (fun _ => True) (bitmapFree bitmap index) v fun r t => t = v ∧ bitmap.SameSize r := by
  rw [bitmapFree, bitmapTranslate, ends_bind, ends_bind]
  apply (ends_check_of trivial).mpr
  intro hlt
  rw [ends_pure, ends_bind]
  apply (ends_check_of trivial).mpr
  refine fun _ => ⟨rfl, bitmap.sameSize_update (fun hfull => ?_) _⟩
  show index / WORD_BITS < bitmap.nwords
  unfold WORD_BITS
  omega

theorem sfsBlockAlloc_geometry : Keeps Volume.geometry (sfsBlockAlloc io) := by
  intro v
  rw [sfsBlockAlloc, ends_bind, ends_get, ends_bind]
  apply (bitmapAlloc_sameSize v.freemap).imp
  rintro r t ⟨rfl, hfreemap⟩
  cases r with
  | none => rfl
  | some found =>
      obtain ⟨i, freemap⟩ := found
      have hsame := hfreemap i freemap rfl
      rw [ends_bind, ends_modify, ends_bind, ends_get, ends_bind]
      apply (ends_check_of trivial).mpr
      intro _
      rw [ends_bind, ends_modify]
      have hrest : Keeps Volume.geometry (do
          check .sfsBlockAlloc ((← sfsBlockInuse (BitVec.ofNat 32 i)) = true)
          let ret ← sfsClearBlock io (BitVec.ofNat 32 i)
          if ret ≠ 0 then return Except.error ret
          return Except.ok (BitVec.ofNat 32 i) : SfsM (Except Int (BitVec 32))) := by
        refine (sfsBlockInuse_geometry _).bind fun _ => (keeps_check _ _).bind fun _ =>
          (writeBlock_geometry _ _ true).bind fun ret => ?_
        split
        next => exact keeps_pure _
        next => exact keeps_pure _
      apply (hrest _).imp
      intro _ u hu
      rw [hu]
      exact congrArg (Prod.mk _) hsame

theorem sfsBlockFree_geometry (ino : BitVec 32) : Keeps Volume.geometry (sfsBlockFree ino) := by
  refine (sfsBlockInuse_geometry ino).bind fun _ => (keeps_check _ _).bind fun _ v => ?_
  rw [ends_bind, ends_get, ends_bind]
  apply (bitmapFree_sameSize v.freemap ino.toNat).imp
  rintro freemap t ⟨rfl, hsame⟩
  exact congrArg (Prod.mk _) hsame

theorem allocSub_geometry (entp ent : BitVec 32) (index : Nat) :
    Keeps Volume.geometry (allocSub io entp ent index) := by
  refine sfsBlockAlloc_geometry.bind fun found => ?_
  cases found with
  | error ret =>
      dsimp only
      split
      next => exact (sfsBlockFree_geometry ent).bind fun _ => keeps_pure _
      next => exact keeps_pure _
  | ok ino =>
      refine (sfsWbuf_geometry _ 4 ent _).bind fun ret => ?_
      split
      next =>
        refine (sfsBlockFree_geometry ino).bind fun _ => ?_
        dsimp only
        split
        next => exact (sfsBlockFree_geometry ent).bind fun _ => keeps_pure _
        next => exact keeps_pure _
      next => exact keeps_pure _

theorem sfsBmapGetSubNolock_geometry (entp : BitVec 32) (index : Nat) (create : Bool) :
    Keeps Volume.geometry (sfsBmapGetSubNolock io entp index create) := by
  refine (keeps_check _ _).bind fun _ => ?_
  split
  next =>
    refine (sfsRbuf_geometry 4 entp _).bind fun data => ?_
    cases data with
    | error ret => exact keeps_pure _
    | ok data =>
        change Keeps _ (if _ then _ else _)
        split
        next => exact keeps_pure _
        next => exact allocSub_geometry entp entp index
  next =>
    split
    next => exact keeps_pure _
    next =>
      refine sfsBlockAlloc_geometry.bind fun found => ?_
      cases found with
      | error ret => exact keeps_pure _
      | ok ent => exact allocSub_geometry entp ent index

theorem bmapOut_geometry (ino : BitVec 32) : Keeps Volume.geometry (bmapOut ino) := by
  unfold bmapOut
  split
  next => exact keeps_pure _
  next =>
    exact (sfsBlockInuse_geometry ino).bind fun _ => (keeps_check _ _).bind fun _ => keeps_pure _

/-- An inode is not part of it. -/
theorem setSin_geometry (node : BitVec 32) (sin : SfsInode) :
    Keeps Volume.geometry (modify fun v => v.setSin node sin : SfsM PUnit) := fun _ => rfl

theorem sfsBmapGetNolock_geometry (node : BitVec 32) (index : Nat) (create : Bool) :
    Keeps Volume.geometry (sfsBmapGetNolock io node index create) := by
  refine keeps_get.bind fun v => ?_
  dsimp only
  split
  next =>
    split
    next =>
      refine sfsBlockAlloc_geometry.bind fun found => ?_
      cases found with
      | error ret => exact keeps_pure _
      | ok ino => exact (setSin_geometry node _).bind fun _ => bmapOut_geometry ino
    next => exact bmapOut_geometry _
  next =>
    split
    next =>
      refine (sfsBmapGetSubNolock_geometry _ _ create).bind fun found => ?_
      cases found with
      | error ret => exact keeps_pure _
      | ok found =>
          obtain ⟨ent, ino⟩ := found
          change Keeps _ (if _ then _ else _)
          split
          next =>
            exact (keeps_check _ _).bind fun _ => (setSin_geometry node _).bind fun _ =>
              bmapOut_geometry ino
          next => exact bmapOut_geometry ino
    next => exact keeps_throw _

theorem sfsBmapLoadNolock_geometry (node : BitVec 32) (index : Nat) :
    Keeps Volume.geometry (sfsBmapLoadNolock io node index) := by
  refine keeps_get.bind fun v => (keeps_check _ _).bind fun _ =>
    (sfsBmapGetNolock_geometry node index _).bind fun found => ?_
  cases found with
  | error ret => exact keeps_pure _
  | ok ino =>
      refine (sfsBlockInuse_geometry ino).bind fun _ => (keeps_check _ _).bind fun _ =>
        Keeps.bind ?_ fun _ => keeps_pure _
      unfold growBlocks
      split
      next => exact fun _ => rfl
      next => exact keeps_pure _

theorem sfsBmapFreeSubNolock_geometry (ent : BitVec 32) (index : Nat) :
    Keeps Volume.geometry (sfsBmapFreeSubNolock io ent index) := by
  refine (sfsBlockInuse_geometry ent).bind fun _ => (keeps_check _ _).bind fun _ =>
    (sfsRbuf_geometry 4 ent _).bind fun data => ?_
  cases data with
  | error ret => exact keeps_pure _
  | ok data =>
      change Keeps _ (if _ then _ else _)
      split
      next =>
        refine (sfsWbuf_geometry _ 4 ent _).bind fun ret => ?_
        split
        next => exact keeps_pure _
        next => exact (sfsBlockFree_geometry _).bind fun _ => keeps_pure _
      next => exact keeps_pure _

theorem sfsBmapFreeNolock_geometry (node : BitVec 32) (index : Nat) :
    Keeps Volume.geometry (sfsBmapFreeNolock io node index) := by
  refine keeps_get.bind fun v => ?_
  dsimp only
  split
  next =>
    split
    next =>
      exact (sfsBlockFree_geometry _).bind fun _ => (setSin_geometry node _).bind fun _ =>
        keeps_pure _
    next => exact keeps_pure _
  next =>
    split
    next =>
      split
      next => exact sfsBmapFreeSubNolock_geometry _ _
      next => exact keeps_pure _
    next => exact keeps_pure _

theorem sfsBmapTruncateNolock_geometry (node : BitVec 32) :
    Keeps Volume.geometry (sfsBmapTruncateNolock io node) := by
  have hshrink : Keeps Volume.geometry (shrinkBlocks node) := fun _ => rfl
  refine keeps_get.bind fun v => (keeps_check _ _).bind fun _ =>
    (sfsBmapFreeNolock_geometry node _).bind fun ret => ?_
  split
  next => exact keeps_pure _
  next => exact hshrink.bind fun _ => keeps_pure _

theorem growFile_geometry (node : BitVec 32) (left nblks : Nat) :
    Keeps Volume.geometry (growFile io node left nblks) := by
  induction left generalizing nblks with
  | zero => exact keeps_pure _
  | succ left ih =>
      refine (sfsBmapLoadNolock_geometry node nblks).bind fun found => ?_
      cases found with
      | error ret => exact keeps_pure _
      | ok ino => exact ih (nblks + 1)

theorem shrinkFile_geometry (node : BitVec 32) (left : Nat) :
    Keeps Volume.geometry (shrinkFile io node left) := by
  induction left with
  | zero => exact keeps_pure _
  | succ left ih =>
      refine (sfsBmapTruncateNolock_geometry node).bind fun ret => ?_
      split
      next => exact keeps_pure _
      next => exact ih

theorem sfsTruncfile_geometry (node : BitVec 32) (len : Int) :
    Keeps Volume.geometry (sfsTruncfile io node len) := by
  have hsize : Keeps Volume.geometry (setSize node len) := fun _ => rfl
  unfold sfsTruncfile
  split
  next => exact keeps_pure _
  next =>
    refine keeps_get.bind fun v => ?_
    dsimp only
    split
    next => exact (keeps_check _ _).bind fun _ => keeps_pure _
    next =>
      refine Keeps.bind ?_ fun ret => ?_
      · unfold resizeFile
        split
        next => exact growFile_geometry node _ _
        next =>
          split
          next => exact shrinkFile_geometry node _
          next => exact keeps_pure _
      · split
        next => exact keeps_pure _
        next =>
          exact keeps_get.bind fun _ => (keeps_check _ _).bind fun _ =>
            hsize.bind fun _ => keeps_pure _

theorem SizeCall.run_geometry (c : SizeCall) : Keeps Volume.geometry (c.run io) := by
  cases c with
  | truncfile node len => exact sfsTruncfile_geometry node len
  | tryseek node pos =>
      change Keeps _ (sfsTryseek io node pos)
      unfold sfsTryseek
      split
      next => exact keeps_pure _
      next =>
        refine keeps_get.bind fun v => ?_
        split
        next => exact sfsTruncfile_geometry node pos
        next => exact keeps_pure _

/-! ## Volumes that can be mounted -/

/-- All the words behind a bitmap are as `bitmap_create` sets them. -/
def Bitmap.Spared (bitmap : Bitmap) : Prop := ∀ ix, bitmap.nwords ≤ ix → bitmap.map ix = 0xffffffff

/-- What `sfs_do_mount` found when it made the volume, or would find: a superblock that passes its
checks, and a freemap for as many blocks. -/
structure Mountable (dBlocks : Nat) (v : Volume) : Prop where
  magic : v.super.magic = SFS_MAGIC
  bits : ¬v.super.NoBits
  info : v.super.terminated = v.super
  fits : v.super.blocks.toNat ≤ dBlocks
  nbits : v.freemap.nbits = sfsFreemapBits v.super
  full : v.freemap.nbits = v.freemap.nwords * 32
  spared : v.freemap.Spared

theorem Mountable.congr (h : Mountable dBlocks v) (hsame : t.geometry = v.geometry) :
    Mountable dBlocks t := by
  obtain ⟨hsuper, hfreemap⟩ := Prod.mk.inj hsame
  obtain ⟨hnbits, hfreemap⟩ := Prod.mk.inj hfreemap
  obtain ⟨hnwords, hspare⟩ := Prod.mk.inj hfreemap
  have hfull : t.freemap.nbits = t.freemap.nwords * 32 := by rw [hnbits, hnwords, h.full]
  obtain ⟨hmagic, hblocks, -, hinfo⟩ := Super.mk.inj hsuper
  refine ⟨hmagic.trans h.magic, ?_, ?_, hblocks ▸ h.fits, ?_, hfull, fun ix hix => ?_⟩
  · rw [Super.NoBits, hblocks]
    exact h.bits
  · have hterminated : Function.update v.super.info ⟨SFS_MAX_INFO_LEN, Nat.lt_succ_self _⟩ 0 =
        v.super.info := congrArg Super.info h.info
    rw [Super.terminated, hinfo, hterminated, ← hinfo]
  · rw [hnbits, h.nbits, sfsFreemapBits, sfsFreemapBits, hblocks]
  · have hword := congrFun hspare ix
    unfold Bitmap.spare at hword
    rw [if_pos ⟨hfull, hix⟩, if_pos ⟨h.full, hnwords ▸ hix⟩] at hword
    rw [hword]
    exact h.spared ix (hnwords ▸ hix)

/-! ## A call while the volume is mounted -/

/-- A call on the files and blocks, or one that takes or gives back a reference to an inode. -/
inductive StoreCall
  | volume (call : VolumeCall)
  | load (ino : BitVec 32)
  | release (ino : BitVec 32)

def StoreCall.run (heap : Nat → Bool) (io : Nat → Int) : StoreCall → StoreM PUnit
  | volume call => do
      let _ ← onVolume (call.run io)
      return ⟨⟩
  | load ino => do
      let _ ← sfsLoadInode heap io ino
      return ⟨⟩
  | release ino => do
      let _ ← inodeRefDec io ino
      return ⟨⟩

/-- A call on an inode in memory marks what it changes; `load` is of an inode that there is,
and `release` of a reference that does not belong to an open file. -/
def StoreCall.Allowed (io : Nat → Int) (files : BitVec 32 → Prop) (s : Store) : StoreCall → Prop
  | volume call => call.On s.volume ∧ (call = .sync ∨ call.Marked io s.volume)
  | load ino => files ino
  | release ino => s.openCount ino < s.refCount ino

/-- One inode, and what its blocks needed, have changed. -/
structure Reshaped (node : BitVec 32) (own own' : Nat → Owner) (v t : Volume) : Prop where
  framed : Framed node own own' v t
  seated : Seated own' t
  flags : Flags t
  type : (t.din node).type = (v.din node).type
  nlinks : (t.din node).nlinks = (v.din node).nlinks
  reclaim : (t.sin node).reclaimCount = (v.sin node).reclaimCount

theorem Reshaped.refl (hv : Seated own v) (hflags : Flags v) (node : BitVec 32) :
    Reshaped node own own v v :=
  ⟨(Untouched.refl hv.mapped.sound).framed hv.mapped.sound node, hv, hflags, rfl, rfl, rfl⟩

theorem Grown.reshaped {m : Nat} (h : Grown io own own' v t node m) (hv : Seated own v)
    (hflags : Flags t) : Reshaped node own own' v t :=
  ⟨h.framed, h.framed.seated h.mapped hv, hflags, h.same.type, h.same.nlinks, h.same.reclaim⟩

theorem TruncEnd.reshaped {len ret : Int} (h : TruncEnd io own v node len ret t) (hv : Seated own v)
    (hflags : Flags v) (hkept : Flags t) : ∃ own', Reshaped node own own' v t := by
  cases h with
  | refused => exact ⟨own, .refl hv hflags node⟩
  | same => exact ⟨own, .refl hv hflags node⟩
  | done _ own' htruncated =>
      exact ⟨own', htruncated.framed, htruncated.framed.seated htruncated.mapped hv, hkept,
        htruncated.type, htruncated.nlinks, htruncated.reclaim⟩
  | growing _ _ m _ _ _ hend =>
      obtain ⟨own', hgrown⟩ := hend.grown
      exact ⟨own', hgrown.reshaped hv hkept⟩
  | shrinking _ _ m _ _ _ hend =>
      obtain ⟨own', hshrunk⟩ := hend.shrunk
      exact ⟨own', hshrunk.framed, hshrunk.framed.seated hshrunk.mapped hv, hkept,
        hshrunk.same.type, hshrunk.same.nlinks, hshrunk.same.reclaim⟩

theorem SizeCall.reshapes (c : SizeCall) (hv : Seated own v) (hflags : Flags v)
    (hcached : c.node ∈ v.inodeList) (hmarked : c.Marked io v) :
    Ends (fun _ => True) (c.run io) v fun _ t => ∃ own', Reshaped c.node own own' v t := by
  have hnode := hv.list _ hcached
  have hon : c.On own v := ⟨hnode, hcached⟩
  by_cases hresizes : c.Resizes v
  · have hmark := hmarked hresizes
    rw [c.run_resizes hon hresizes]
    by_cases hlong : maxBlocks < blocksFor c.len.toNat
    · obtain ⟨hlow, hhigh⟩ := hresizes.range
      have hle := (hv.mapped.sized _ hnode).le
      apply (sfsTruncfile_overrun hv.mapped hnode hcached hlow hhigh hlong).mono (fun _ _ =>
        trivial)
      rintro ret t ⟨_, hno, own', m, hgrown, hfits⟩
      have hsilent := hmark (by omega) fun hall => hno (hall.le (by omega))
      exact ⟨own', hgrown.reshaped hv (hgrown.flags hv hflags hfits hsilent)⟩
    · apply (sfsTruncfile_spec hv.mapped hnode hcached (Nat.le_of_not_lt hlong)).mono (fun _ _ =>
        trivial)
      intro ret t hend
      exact hend.reshaped hv hflags (hend.flags hv hflags hmark).1
  · apply (c.run_idle hon hresizes).lift
    rintro ret t ⟨_, rfl⟩
    exact ⟨own, .refl hv hflags c.node⟩

/-- Past the last slot there is no return. -/
theorem sfsBmapLoadNolock_out {j : Nat} (hout : (v.sin node).din.blocks.toNat < j ∨ maxBlocks ≤ j) :
    Ends (fun _ => True) (sfsBmapLoadNolock io node j) v fun _ _ => False := by
  rw [sfsBmapLoadNolock, ends_bind, ends_get]
  simp only
  rw [ends_bind]
  apply (ends_check_of trivial).mpr
  intro hle
  have hmax := hout.resolve_left (Nat.not_lt.mpr hle)
  have hdirect : ¬j < SFS_NDIRECT := by
    unfold maxBlocks at hmax
    omega
  have hindirect : ¬j - SFS_NDIRECT < SFS_BLK_NENTRY := by
    unfold maxBlocks at hmax
    omega
  rw [ends_bind, sfsBmapGetNolock, ends_bind, ends_get]
  change Ends _ (if h : j < SFS_NDIRECT then _ else _) v _
  rw [dif_neg hdirect, if_neg hindirect]
  trivial

theorem sfsBmapLoadNolock_reshapes {j : Nat} (hv : Seated own v) (hflags : Flags v)
    (hcached : node ∈ v.inodeList) (hmarked : j = (v.din node).blocks.toNat → ¬Silent io v node) :
    Ends (fun _ => True) (sfsBmapLoadNolock io node j) v fun _ t =>
      ∃ own', Reshaped node own own' v t := by
  have hnode := hv.list _ hcached
  have hdin := din_cached hcached
  rcases Nat.lt_trichotomy j (v.din node).blocks.toNat with hlt | heq | hgt
  · apply (sfsBmapLoadNolock_read hv.mapped hnode hcached hlt).lift
    rintro r t ⟨⟨k, rfl⟩, _⟩
    have huntouched := Untouched.tick hv.mapped.sound k
    exact ⟨own, huntouched.framed hv.mapped.sound node, hv.tick k, hflags.tick k, rfl, rfl, rfl⟩
  · by_cases hj : j < maxBlocks
    · apply (sfsBmapLoadNolock_grow hv.mapped hnode hcached heq hj).lift
      rintro r t ⟨own', hr⟩
      have hgrown : ∃ m, Grown io own own' v t node m ∧ (0 < m → Fits io v node j) := by
        cases r with
        | ok b => exact ⟨1, hr.grown, fun _ => hr.fits⟩
        | error ret => exact ⟨0, hr.2.2, fun hpos => absurd hpos (Nat.lt_irrefl 0)⟩
      obtain ⟨m, hgrown, hfits⟩ := hgrown
      rw [heq] at hfits
      exact ⟨own', hgrown.reshaped hv (hgrown.flags hv hflags hfits (hmarked heq))⟩
    · exact (sfsBmapLoadNolock_out (.inr (Nat.le_of_not_lt hj))).imp fun _ _ hno => hno.elim
  · rw [hdin] at hgt
    exact (sfsBmapLoadNolock_out (.inl hgt)).imp fun _ _ hno => hno.elim

theorem Store.Ok.reshaped (h : s.Ok own) (hcached : node ∈ s.volume.inodeList)
    (hend : Reshaped node own own' s.volume v) : ({ s with volume := v } : Store).Ok own' := by
  have hframed := hend.framed
  refine ⟨hend.seated, hend.flags, fun n hn => ?_, ?_, fun n hn => ?_, h.opens, fun n hn => ?_⟩
  · rw [hframed.inode] at hn
    change (v.din n).nlinks ≠ 0 ∧ ((v.din n).type = _ ∨ (v.din n).type = _)
    by_cases heq : n = node
    · rw [heq, hend.type, hend.nlinks]
      exact h.linked node (h.seated.list node hcached)
    · rw [hframed.din heq hn]
      exact h.linked n hn
  · change v.inodeList.Nodup
    rw [hframed.list]
    exact h.nodup
  · change n ∉ v.inodeList at hn
    rw [hframed.list] at hn
    exact h.out n hn
  · change n ∈ v.inodeList at hn
    rw [hframed.list] at hn
    have hclaim : (v.sin n).reclaimCount = (s.volume.sin n).reclaimCount := by
      by_cases heq : n = node
      · rw [heq, hend.reclaim]
      · rw [hframed.others n heq]
    show 0 ≤ (v.sin n).reclaimCount ∧ (_ → 0 < (v.sin n).reclaimCount)
    rw [hclaim]
    exact h.claims n hn

/-! ## A sync -/

/-- A sync writes to the blocks of the volume and of the inodes in memory, and changes
nothing in memory but the flags. -/
structure Synced (own : Nat → Owner) (v t : Volume) : Prop where
  seated : Seated own t
  super : t.super = v.super
  freemap : t.freemap = v.freemap
  list : t.inodeList = v.inodeList
  din : ∀ n, (t.sin n).din = (v.sin n).din
  reclaim : ∀ n, (t.sin n).reclaimCount = (v.sin n).reclaimCount
  disk : ∀ b, own b ≠ .fixed → (∀ n ∈ v.inodeList, n.toNat ≠ b) → t.disk b = v.disk b

namespace Synced

theorem refl (hv : Seated own v) : Synced own v v :=
  ⟨hv, rfl, rfl, rfl, fun _ => rfl, fun _ => rfl, fun _ _ _ => rfl⟩

theorem trans (h : Synced own v t) (h' : Synced own t u) : Synced own v u := by
  refine ⟨h'.seated, h'.super.trans h.super, h'.freemap.trans h.freemap, h'.list.trans h.list,
    fun n => (h'.din n).trans (h.din n), fun n => (h'.reclaim n).trans (h.reclaim n),
      fun b hb hn => ?_⟩
  rw [h'.disk b hb (by rwa [h.list])]
  exact h.disk b hb hn

/-- An inode is written back, or stays dirty. -/
theorem fsync (hv : Seated own v) (hflags : Flags v) (hcached : node ∈ v.inodeList) :
    Ends never (sfsFsync io node) v fun _ t => Synced own v t := by
  apply (sfsFsync_spec hv.mapped.sound (hv.list _ hcached)).imp
  rintro ret t (⟨_, _, rfl⟩ | ⟨_, _, _, _, rfl⟩ | ⟨_, _, _, k, rfl⟩)
  · exact refl hv
  · obtain ⟨hseated, _, _⟩ := hv.flush hflags hcached 2
    have hsin : ∀ n, ((v.flush node).tick 2).sin n =
        if n = node then { v.sin node with dirty := false } else v.sin n := fun n =>
      Function.update_apply _ _ _ _
    refine ⟨hseated, rfl, rfl, rfl, fun n => ?_, fun n => ?_, fun b _ hn => ?_⟩
    · rw [hsin]
      split
      next heq => rw [heq]
      next => rfl
    · rw [hsin]
      split
      next heq => rw [heq]
      next => rfl
    · exact Function.update_of_ne (hn node hcached).symm _ _
  · exact ⟨hv.tick k, rfl, rfl, rfl, fun _ => rfl, fun _ => rfl, fun _ _ _ => rfl⟩

/-- Blocks of the volume itself are written. -/
theorem redisk (hv : Seated own v) {disk : Blocks} {ios : Nat} {superDirty : Bool}
    (hdisk : ∀ x, own x ≠ .fixed → disk x = v.disk x) :
    Synced own v { v with disk, ios, superDirty } :=
  ⟨hv.redisk hdisk, rfl, rfl, rfl, fun _ => rfl, fun _ => rfl, fun b hb _ => hdisk b hb⟩

theorem inode_eq (h : Synced own v t) (hn : own n.toNat = .inode) : t.din n = v.din n := by
  unfold Volume.din
  rw [h.list, h.din]
  split
  next => rfl
  next hnot =>
    rw [h.disk n.toNat (by simp [hn]) fun m hm heq => ?_]
    rw [BitVec.eq_of_toNat_eq heq] at hm
    exact hnot hm

theorem slot (h : Synced own v t) (hv : Seated own v) (hn : own n.toNat = .inode) (i : Nat) :
    t.slot n i = v.slot n i := by
  rw [Volume.slot, Volume.slot, h.inode_eq hn, DiskInode.slot, DiskInode.slot]
  split
  next => rfl
  next =>
    split
    next hin =>
      have hindex := hv.mapped.sound.index_of hn hin.1
      rw [h.disk _ (by simp [hindex]) fun m hm heq => ?_]
      have hinode := hv.list m hm
      rw [heq, hindex] at hinode
      cases hinode
    next => rfl

theorem contents (h : Synced own v t) (hv : Seated own v) (hn : own n.toNat = .inode) {i : Nat}
    (hslot : v.slot n i ≠ 0) : t.disk (v.slot n i).toNat = v.disk (v.slot n i).toNat := by
  have hdata := hv.mapped.sound.data_of hn hslot
  apply h.disk _ (by simp [hdata])
  intro m hm heq
  have hinode := hv.list m hm
  rw [heq, hdata] at hinode
  cases hinode

theorem sync (hv : Seated own v) (hflags : Flags v) :
    Ends (fun _ => True) (sfsSync io) v fun ret t => Synced own v t ∧
      (ret = 0 → t.superDirty = false) := by
  have hloop := ends_forM (E := (fun _ => True : Failed → Prop)) (f := fun node => do
    let _ ← sfsFsync io node) (P := fun rest t => (∀ n ∈ rest, n ∈ v.inodeList) ∧
      Synced own v t ∧ Flags t)
    (by
      rintro node rest t ⟨hrest, hsynced, hkept⟩
      have hcached : node ∈ t.inodeList := hsynced.list ▸ hrest node List.mem_cons_self
      rw [ends_bind]
      apply ((fsync hsynced.seated hkept hcached).and
        (steady_fsync hsynced.seated hkept hcached)).lift
      rintro _ u ⟨hnext, hsteady, _⟩
      exact ⟨fun n hn => hrest n (List.mem_cons_of_mem _ hn), hsynced.trans hnext, hsteady⟩)
    v.inodeList v ⟨fun _ hn => hn, refl hv, hflags⟩
  rw [sfsSync, ends_bind, ends_get, ends_bind]
  apply hloop.imp
  rintro _ t ⟨_, hsynced, _⟩
  have hseated := hsynced.seated
  have hsmall := hseated.mapped.sound.small
  have hzero : blockAt (BitVec.ofNat 32 SFS_BLKN_SUPER) = SFS_BLKN_SUPER := by decide
  rw [ends_bind, ends_get]
  split
  next =>
    rw [ends_bind, setSuperDirty, ends_modify, ends_bind, sfsSyncSuper, ends_bind, ends_get]
    apply (writeBlock_any _ _ _).imp
    rintro ret u ⟨_, disk, ios, rfl, hother, _⟩
    rw [hzero] at hother
    have hdisk : ∀ x, own x ≠ .fixed → disk x = t.disk x := by
      intro x hx
      apply hother
      rintro rfl
      exact hx hseated.super
    split
    next hne =>
      rw [ends_bind, setSuperDirty, ends_modify, ends_pure]
      exact ⟨hsynced.trans (redisk hseated hdisk), fun hret => absurd hret hne⟩
    next =>
      rw [ends_bind, sfsSyncFreemap, ends_bind, ends_get]
      have hblocks : sfsFreemapBlocks t.super ≤ 2 ^ 16 := by
        unfold sfsFreemapBlocks roundupDiv SFS_BLKBITS SFS_BLKSIZE
        omega
      apply (sfsWblock_spec _ _ 0 _ (by simpa using hblocks) (by exact hsmall)).imp
      rintro ret u ⟨disk', ios', rfl, hother', _⟩
      have hdisk' : ∀ x, own x ≠ .fixed → disk' x = t.disk x := by
        intro x hx
        rw [hother' x fun k hk => ?_]
        · exact hdisk x hx
        · rintro rfl
          rw [Nat.zero_add] at hx
          exact hx (hseated.freemap k hk)
      split
      next hne =>
        rw [ends_bind, setSuperDirty, ends_modify, ends_pure]
        exact ⟨hsynced.trans (redisk hseated hdisk'), fun hret => absurd hret hne⟩
      next =>
        rw [ends_pure]
        exact ⟨hsynced.trans (redisk hseated hdisk'), fun _ => rfl⟩
  next hclean =>
    rw [ends_pure]
    exact ⟨hsynced, fun _ => Bool.eq_false_iff.mpr hclean⟩

theorem ok (h : Synced own s.volume v) (hok : s.Ok own) (hflags : Flags v) :
    ({ s with volume := v } : Store).Ok own := by
  refine ⟨h.seated, hflags, fun n hn => ?_, ?_, fun n hn => ?_, hok.opens, fun n hn => ?_⟩
  · change (v.din n).nlinks ≠ 0 ∧ ((v.din n).type = _ ∨ (v.din n).type = _)
    rw [h.inode_eq hn]
    exact hok.linked n hn
  · change v.inodeList.Nodup
    rw [h.list]
    exact hok.nodup
  · change n ∉ v.inodeList at hn
    rw [h.list] at hn
    exact hok.out n hn
  · change n ∈ v.inodeList at hn
    rw [h.list] at hn
    show 0 ≤ (v.sin n).reclaimCount ∧ (_ → 0 < (v.sin n).reclaimCount)
    rw [h.reclaim]
    exact hok.claims n hn

end Synced

/-! ## One call -/

theorem VolumeCall.keeps_ok (call : VolumeCall) (hok : s.Ok own)
    (hmount : Mountable dBlocks s.volume)
    (hon : call.On s.volume) (hmarked : call = .sync ∨ call.Marked io s.volume) :
    Ends (fun _ => True) (call.run io) s.volume fun _ v => ∃ own',
      ({ s with volume := v } : Store).Ok own' ∧ Mountable dBlocks v ∧
        ∀ b, own' b = .inode ↔ own b = .inode := by
  have hv := hok.seated
  cases call with
  | size c =>
      have hmark := hmarked.resolve_left (by simp)
      apply ((c.reshapes hv hok.flags hon hmark).and (c.run_geometry s.volume)).imp
      rintro _ v ⟨⟨own', hend⟩, hsame⟩
      exact ⟨own', hok.reshaped hon hend, hmount.congr hsame, hend.framed.inode⟩
  | load node index =>
      have hmark := hmarked.resolve_left (by simp)
      rw [run, ends_bind]
      apply ((sfsBmapLoadNolock_reshapes hv hok.flags hon hmark).and
        (sfsBmapLoadNolock_geometry node index s.volume)).imp
      rintro r v ⟨⟨own', hend⟩, hsame⟩
      have hall : ∃ own', ({ s with volume := v } : Store).Ok own' ∧ Mountable dBlocks v ∧
          ∀ b, own' b = .inode ↔ own b = .inode :=
        ⟨own', hok.reshaped hon hend, hmount.congr hsame, hend.framed.inode⟩
      cases r with
      | error ret => exact hall
      | ok b => exact hall
  | fsync node =>
      apply ((Synced.fsync hv hok.flags hon).and (steady_fsync hv hok.flags hon)).lift
      rintro _ v ⟨hsynced, hflags, _⟩
      have hsame : v.geometry = s.volume.geometry := by
        rw [Volume.geometry, Volume.geometry, hsynced.super, hsynced.freemap]
      exact ⟨own, hsynced.ok hok hflags, hmount.congr hsame, fun _ => Iff.rfl⟩
  | sync =>
      apply ((Synced.sync hv hok.flags).and (sfsSync_spec hv hok.flags)).imp
      rintro _ v ⟨⟨hsynced, _⟩, ⟨hflags, _⟩, _⟩
      have hsame : v.geometry = s.volume.geometry := by
        rw [Volume.geometry, Volume.geometry, hsynced.super, hsynced.freemap]
      exact ⟨own, hsynced.ok hok hflags, hmount.congr hsame, fun _ => Iff.rfl⟩

theorem Same.mountable (h : Same own v w) (hmount : Mountable dBlocks v) : Mountable dBlocks w :=
  hmount.congr (by rw [Volume.geometry, Volume.geometry, h.super, h.freemap])

theorem StoreCall.keeps_ok (call : StoreCall) (hok : s.Ok own) (hmount : Mountable dBlocks s.volume)
    (hallowed : call.Allowed io (fun n => own n.toNat = .inode) s) :
    Ends (fun _ => True) (call.run heap io) s fun _ t => ∃ own', t.Ok own' ∧
      Mountable dBlocks t.volume ∧ ∀ b, own' b = .inode ↔ own b = .inode := by
  cases call with
  | volume call =>
      rw [run, ends_bind, ends_onVolume]
      exact call.keeps_ok hok hmount hallowed.1 hallowed.2
  | load ino =>
      rw [run, ends_bind]
      apply (sfsLoadInode_spec hok hallowed).lift
      rintro _ t ⟨hundisturbed, _⟩
      exact ⟨own, hundisturbed.ok, hundisturbed.same.mountable hmount, fun _ => Iff.rfl⟩
  | release ino =>
      rw [run, ends_bind]
      apply (inodeRefDec_spec hok hallowed).lift
      rintro _ t ⟨hundisturbed, _⟩
      exact ⟨own, hundisturbed.ok, hundisturbed.same.mountable hmount, fun _ => Iff.rfl⟩

/-! ## The words behind the freemap of a mount -/

variable {answers : Answers} {dev : Device} {sfs : SfsFs}

theorem bitmapCreate_spared (nbits : Nat) :
    Returns (fun r => ∀ bitmap, r = some bitmap → bitmap.Spared) (bitmapCreate answers nbits) := by
  refine returns_check_bind fun hne => returns_last fun self => ?_
  cases self with
  | none => exact returns_pure fun bitmap h => nomatch h
  | some self =>
      refine returns_last fun mapAddr => ?_
      cases mapAddr with
      | none => exact returns_last fun _ => returns_pure fun bitmap h => nomatch h
      | some mapAddr =>
          dsimp only
          split
          next hleft =>
            clear hleft
            refine returns_check_bind fun hlast => returns_check_bind fun _ => returns_pure ?_
            intro bitmap h
            obtain rfl := Option.some.inj h
            -- the number of words does not wrap around where the last one was checked
            have hwords : 0 < roundupDiv nbits WORD_BITS := by
              unfold roundupDiv WORD_BITS at *
              omega
            intro ix hix
            change roundupDiv nbits WORD_BITS ≤ ix at hix
            have hne : ix ≠ roundupDiv nbits WORD_BITS - 1 := by omega
            dsimp only
            rw [Function.update_of_ne hne]
          next =>
            refine returns_pure fun bitmap h => ?_
            obtain rfl := Option.some.inj h
            exact fun _ _ => rfl

theorem returns_error {Q : α → Prop} (ret : Int) :
    Returns (fun r : Except Int α => ∀ a, r = .ok a → Q a) (pure (.error ret) : KernelM _) :=
  returns_pure fun _ h => nomatch h

theorem returns_released {Q : α → Prop} (x : KernelM PUnit) (ret : Int) :
    Returns (fun r : Except Int α => ∀ a, r = .ok a → Q a) (x >>= fun _ => pure (.error ret)) :=
  returns_last fun _ => returns_error ret

theorem readFreemap_spared {first : Nat → BitVec 32} (left blkno pos : Nat) (map : Nat → BitVec 32)
    (hmap : ∀ ix, pos ≤ ix → map ix = first ix) :
    Returns (fun r => ∀ map', r = .ok map' → ∀ ix, pos + left * SFS_BLK_NENTRY ≤ ix →
      map' ix = first ix)
      (readFreemap answers dev left blkno pos map) := by
  induction left generalizing blkno pos map with
  | zero =>
      refine returns_pure fun map' h ix hix => ?_
      obtain rfl := Except.ok.inj h
      exact hmap ix (by omega)
  | succ left ih =>
      refine returns_last fun r => ?_
      cases r with
      | error ret => exact returns_error ret
      | ok data =>
          refine (ih (blkno + 1) (pos + SFS_BLK_NENTRY)
            (putBlock map pos data) fun ix hix => ?_).mono ?_
          · rw [putBlock, if_neg (by omega)]
            exact hmap ix (by omega)
          · intro r hr map' h ix hix
            apply hr map' h ix
            rw [Nat.succ_mul] at hix
            omega

theorem loadFreemap_spared (super : Super) (sfsBuffer fs : Addr) :
    Returns (fun r => ∀ sfs, r = .ok sfs → sfs.freemap.Spared)
      (loadFreemap answers dev super sfsBuffer fs) := by
  refine returns_last fun hashList => ?_
  cases hashList with
  | none => exact returns_released _ _
  | some hashList =>
      refine (bitmapCreate_spared _).bind fun freemap hfreemap => ?_
      cases freemap with
      | none => exact returns_released _ _
      | some freemap =>
          have hspared := hfreemap freemap rfl
          refine Returns.bind (R := fun r : Except Int (Nat → BitVec 32) =>
            ∀ map, r = .ok map → ({ freemap with map } : Bitmap).Spared) ?_ fun map hmap => ?_
          · refine returns_check_bind fun hsize => ?_
            have hwords : sfsFreemapBlocks super * SFS_BLK_NENTRY = freemap.nwords := by
              have hlt := super.blocks.isLt
              unfold sfsFreemapBlocks roundupDiv SFS_BLKBITS SFS_BLK_NENTRY SFS_BLKSIZE at *
              omega
            refine (readFreemap_spared _ _ 0 freemap.map fun _ _ => rfl).mono ?_
            intro r hr map h ix hix
            change freemap.nwords ≤ ix at hix
            exact (hr map h ix (by omega)).trans (hspared ix hix)
          · cases map with
            | error ret => exact returns_released _ _
            | ok map =>
                refine returns_last fun _ => returns_check_bind fun _ => returns_pure fun sfs h =>
                  ?_
                obtain rfl := Except.ok.inj h
                exact hmap map rfl

theorem sfsDoMount_spared :
    Returns (fun r => ∀ sfs, r = .ok sfs → sfs.freemap.Spared) (sfsDoMount answers dev) := by
  unfold sfsDoMount
  split
  next => exact returns_error _
  next =>
    refine returns_last fun fs => ?_
    cases fs with
    | none => exact returns_error _
    | some fs =>
        refine returns_last fun sfsBuffer => ?_
        cases sfsBuffer with
        | none => exact returns_released _ _
        | some sfsBuffer =>
            refine returns_last fun data => ?_
            cases data with
            | error ret => exact returns_released _ _
            | ok data =>
                dsimp only
                split
                next => exact returns_released _ _
                next =>
                  split
                  next => exact returns_released _ _
                  next => exact loadFreemap_spared _ _ _

/-! ## The mount after a sync -/

/-- The files of a volume are those of another, with the same inode, the same blocks and the same
contents, and the same blocks are free. -/
structure Recovered (files : BitVec 32 → Prop) (v w : Volume) : Prop where
  super : w.super = v.super
  free : w.freemap.bits = v.freemap.bits
  din : ∀ n, files n → w.din n = v.din n
  slot : ∀ n i, files n → w.slot n i = v.slot n i
  contents : ∀ n i, files n → v.slot n i ≠ 0 → w.disk (w.slot n i).toNat = v.disk (v.slot n i).toNat

theorem Recovered.trans (h : Recovered files v w) (h' : Recovered files w u) :
    Recovered files v u := by
  refine ⟨h'.super.trans h.super, h'.free.trans h.free, fun n hn =>
    (h'.din n hn).trans (h.din n hn),
    fun n i hn => (h'.slot n i hn).trans (h.slot n i hn), fun n i hn hne => ?_⟩
  have hne' : w.slot n i ≠ 0 := by rwa [h.slot n i hn]
  exact (h'.contents n i hn hne').trans (h.contents n i hn hne)

theorem Synced.recovered (h : Synced own v t) (hv : Seated own v) :
    Recovered (fun n => own n.toNat = .inode) v t where
  super := h.super
  free := by rw [h.freemap]
  din _ hn := h.inode_eq hn
  slot _ i hn := h.slot hv hn i
  contents n i hn hne := by
    rw [h.slot hv hn i]
    exact h.contents hv hn hne

/-- A mounted volume in memory; `sin` is what was there for the inodes. -/
def Store.booted (sfs : SfsFs) (disk : Blocks) (sin : BitVec 32 → SfsInode) : Store where
  volume := .mounted sfs disk sin
  refCount := fun _ => 0
  openCount := fun _ => 0
  requests := 0

/-- The freemap on the disk is the one in memory. -/
theorem HeadOnDisk.loaded (h : HeadOnDisk v) :
    Loaded v.disk (sfsFreemapBlocks v.super) v.freemap.map := by
  intro k hk
  have hblock : k / SFS_BLK_NENTRY < sfsFreemapBlocks v.super := by
    unfold SFS_BLK_NENTRY SFS_BLKSIZE at *
    omega
  rw [h.freemap _ hblock, freemapBlock, word_ofWords, Nat.div_add_mod]

theorem HeadOnDisk.diskBits (h : HeadOnDisk v) (hmount : Mountable dBlocks v) :
    diskBits v.disk (sfsFreemapBits v.super) = v.freemap.bits := by
  obtain ⟨hsize, _⟩ := sfsFreemapBits_eq hmount.bits
  exact (@Loaded.bits_eq ⟨0, 0, v.disk⟩ _ _ v.freemap h.loaded hsize hmount.nbits).symm

/-- Two maps of one size that have the same bits have the same words. -/
theorem Bitmap.map_eq {bitmap bitmap' : Bitmap} (hfull : bitmap.nbits = bitmap.nwords * 32)
    (hnwords : bitmap'.nwords = bitmap.nwords) (hnbits : bitmap'.nbits = bitmap.nbits)
    (hspared : bitmap.Spared) (hspared' : bitmap'.Spared) (hbits : bitmap'.bits = bitmap.bits) :
    bitmap'.map = bitmap.map := by
  funext ix
  by_cases hix : bitmap.nwords ≤ ix
  · rw [hspared ix hix, hspared' ix (hnwords ▸ hix)]
  · apply BitVec.eq_of_getLsbD_eq
    intro j hj
    have hmem := Finset.ext_iff.mp hbits (ix * 32 + j)
    rw [Bitmap.mem_bits, Bitmap.mem_bits, hnbits, bitOf, bitOf] at hmem
    have hlt : ix * 32 + j < bitmap.nbits := by omega
    rw [show (ix * 32 + j) / 32 = ix by omega, show (ix * 32 + j) % 32 = j by omega] at hmem
    exact Bool.eq_iff_iff.mpr ((and_congr_right_iff.mp hmem) hlt)

/-- What was in memory and is on the disk is one volume. -/
theorem Mounted.recovered (h : Mounted ⟨dBlocks, SFS_BLKSIZE, v.disk⟩ sfs)
    (hspared : sfs.freemap.Spared) (hmount : Mountable dBlocks v) (hdurable : Durable v)
    (sin : BitVec 32 → SfsInode) :
    Recovered files v (.mounted sfs v.disk sin) ∧ Mountable dBlocks (.mounted sfs v.disk sin) := by
  have hdevice : (Device.mk dBlocks SFS_BLKSIZE v.disk).super = v.super := hdurable.head.super
  have hsuper : sfs.super = v.super := by rw [h.super, hdevice, hmount.info]
  have hnbits : sfs.freemap.nbits = v.freemap.nbits := by rw [h.nbits, hdevice, hmount.nbits]
  have hbits : sfs.freemap.bits = v.freemap.bits := by
    rw [h.bits, hdevice]
    exact hdurable.head.diskBits hmount
  have hdin : ∀ n, (Volume.mounted sfs v.disk sin).din n = v.din n := by
    intro n
    change (if n ∈ [] then _ else DiskInode.ofBytes (v.disk n.toNat)) = _
    rw [if_neg List.not_mem_nil, Volume.din]
    split
    next hcached => exact hdurable.inode n hcached
    next => rfl
  have hslot : ∀ n i, (Volume.mounted sfs v.disk sin).slot n i = v.slot n i := by
    intro n i
    rw [Volume.slot, Volume.slot, hdin]
    rfl
  refine ⟨⟨hsuper, hbits, fun n _ => hdin n, fun n i _ => hslot n i, fun n i _ _ => ?_⟩, ?_⟩
  · rw [hslot]
    rfl
  · refine ⟨?_, ?_, ?_, ?_, ?_, h.full, hspared⟩
    · change sfs.super.magic = SFS_MAGIC
      rw [hsuper]
      exact hmount.magic
    · change ¬sfs.super.NoBits
      rw [hsuper]
      exact hmount.bits
    · change sfs.super.terminated = sfs.super
      rw [hsuper]
      exact hmount.info
    · change sfs.super.blocks.toNat ≤ dBlocks
      rw [hsuper]
      exact hmount.fits
    · change sfs.freemap.nbits = sfsFreemapBits sfs.super
      rw [hnbits, hsuper]
      exact hmount.nbits

/-- All that the calls rely on holds again. -/
theorem Mounted.ok (h : Mounted ⟨dBlocks, SFS_BLKSIZE, v.disk⟩ sfs) (hspared : sfs.freemap.Spared)
    (hok : ({ s with volume := v } : Store).Ok own) (hmount : Mountable dBlocks v)
    (hdurable : Durable v) (sin : BitVec 32 → SfsInode) : (Store.booted sfs v.disk sin).Ok own := by
  have hv : Seated own v := hok.seated
  have hsound := hv.mapped.sound
  have hends : Recovered (fun n => own n.toNat = .inode) v (.mounted sfs v.disk sin) ∧ _ :=
    h.recovered hspared hmount hdurable sin
  obtain ⟨hrecovered, hmountable⟩ := hends
  obtain ⟨m, hm⟩ : ∃ m, m = Volume.mounted sfs v.disk sin := ⟨_, rfl⟩
  rw [← hm] at hrecovered hmountable
  have hlist : m.inodeList = [] := by rw [hm]; rfl
  have hdisk : m.disk = v.disk := by rw [hm]; rfl
  have hnbits : m.freemap.nbits = v.freemap.nbits := by
    rw [hmountable.nbits, hmount.nbits, hrecovered.super]
  have hnwords : m.freemap.nwords = v.freemap.nwords := by
    have hfull := hmountable.full
    have hfull' := hmount.full
    omega
  have hmap : m.freemap.map = v.freemap.map :=
    Bitmap.map_eq hmount.full hnwords hnbits hmount.spared hmountable.spared hrecovered.free
  have hcount : m.super.unusedBlocks.toNat = m.freemap.bits.card := by
    rw [hrecovered.super, hrecovered.free, hsound.unused]
  have hmapped : Mapped own m := by
    refine ⟨⟨hmountable.full, ?_, ?_, hcount, fun b => ?_, ?_, fun b n => ?_, fun b n i => ?_⟩,
      fun n hn => ?_⟩
    · unfold Volume.Covered
      rw [hrecovered.super, hnbits]
      exact hsound.covered
    · rw [hrecovered.super]
      exact hsound.small
    · rw [hrecovered.free]
      exact hsound.free b
    · rw [hrecovered.super]
      exact hsound.range
    · rw [hsound.index]
      exact and_congr_right fun hn => by rw [hrecovered.din n hn]
    · rw [hsound.data]
      exact and_congr_right fun hn => by rw [hrecovered.slot n i hn]
    · have hsized := hv.mapped.sized n hn
      refine ⟨by rw [hrecovered.din n hn]; exact hsized.le, fun i => ?_⟩
      rw [hrecovered.slot n i hn, hrecovered.din n hn]
      exact hsized.slot i
  have hseated : Seated own m := by
    refine ⟨hmapped, fun n hn => ?_, hv.super, fun i hi => ?_⟩
    · rw [hlist] at hn
      cases hn
    · rw [hrecovered.super] at hi
      exact hv.freemap i hi
  have hflags : Flags m := by
    refine ⟨fun n hn => ?_, fun _ => ⟨?_, fun i hi => ?_⟩⟩
    · rw [hlist] at hn
      cases hn
    · rw [hdisk, hrecovered.super]
      exact hdurable.head.super
    · rw [hrecovered.super] at hi
      rw [hdisk, hdurable.head.freemap i hi, freemapBlock, freemapBlock, hmap]
  have hbooted : Store.booted sfs v.disk sin = ⟨m, fun _ => 0, fun _ => 0, 0⟩ := by rw [hm]; rfl
  rw [hbooted]
  refine ⟨hseated, hflags, fun n hn => ?_, ?_, fun _ _ => rfl, fun _ =>
    ⟨Int.le_refl 0, Int.le_refl 0⟩, fun n hn => ?_⟩
  · change (m.din n).nlinks ≠ 0 ∧ ((m.din n).type = _ ∨ (m.din n).type = _)
    rw [hrecovered.din n hn]
    exact hok.linked n hn
  · change m.inodeList.Nodup
    rw [hlist]
    exact List.nodup_nil
  · change n ∈ m.inodeList at hn
    rw [hlist] at hn
    cases hn

/-- What is on the disk after the sync is neither refused nor stops the mount. -/
theorem Durable.mounts (hdurable : Durable v) (hv : Seated own v) (hmount : Mountable dBlocks v)
    (answers : Answers) (memory : Finset Addr) :
    Ends never (sfsDoMount answers ⟨dBlocks, SFS_BLKSIZE, v.disk⟩) ⟨memory, 0, 0⟩ fun r k =>
      match r with
      | .ok sfs => Mounted ⟨dBlocks, SFS_BLKSIZE, v.disk⟩ sfs ∧ sfs.freemap.Spared
      | .error ret => ret < 0 ∧ k.heap = memory ∧
          ((∃ n, answers.full n = true) ∨ ∃ n, answers.io n ≠ 0) := by
  obtain ⟨dev, hdev⟩ : ∃ dev : Device, dev = ⟨dBlocks, SFS_BLKSIZE, v.disk⟩ := ⟨_, rfl⟩
  have hsuper : dev.super = v.super := hdev ▸ hdurable.head.super
  have hcount : (diskBits dev.disk (sfsFreemapBits dev.super)).card =
      dev.super.unusedBlocks.toNat := by
    rw [hsuper, hdev, hdurable.head.diskBits hmount]
    exact hv.mapped.sound.unused.symm
  have hsafe : ¬MountFatal answers dev := by
    intro hfatal
    rcases hfatal.wrong with hbits | hwrong
    · rw [hsuper] at hbits
      exact hmount.bits hbits
    · exact hwrong.count hcount
  rw [← hdev]
  have hspared : Ends (fun _ => True) (sfsDoMount answers dev) ⟨memory, 0, 0⟩ fun r _ =>
      ∀ sfs, r = .ok sfs → sfs.freemap.Spared := sfsDoMount_spared _
  apply ((sfsDoMount_ends answers dev memory).and hspared).mono
  · exact fun _ he => hsafe he
  · rintro r k ⟨⟨_, hends⟩, hspared⟩
    cases r with
    | ok sfs => exact ⟨hends, hspared sfs rfl⟩
    | error ret =>
        obtain ⟨hneg, hheap, hrefused⟩ := hends
        refine ⟨hneg, hheap, ?_⟩
        rcases hrefused with hsize | hmagic | hbig | hfails
        · exact absurd (by rw [hdev]) hsize
        · rw [hsuper] at hmagic
          exact absurd hmount.magic hmagic
        · rw [hsuper, hdev] at hbig
          exact absurd hmount.fits (Nat.not_le.mpr hbig)
        · exact hfails

/-! ## Runs -/

/-- What happens to a volume: a call, or a sync that returned zero and could write the inodes,
after which the machine is switched off and the device mounted again. -/
inductive Lives (files : BitVec 32 → Prop) (dBlocks : Nat) : Store → Store → Prop
  | call (heap : Nat → Bool) (io : Nat → Int) (s t : Store) (call : StoreCall) :
      call.Allowed io files s → call.run heap io s = .ok (⟨⟩, t) → Lives files dBlocks s t
  | reboot (io : Nat → Int) (answers : Answers) (memory : Finset Addr) (s : Store) (v : Volume)
      (sfs : SfsFs) (k : Kernel) (sin : BitVec 32 → SfsInode) :
      WritesBack io s.volume → sfsSync io s.volume = .ok (0, v) →
      sfsDoMount answers ⟨dBlocks, SFS_BLKSIZE, v.disk⟩ ⟨memory, 0, 0⟩ = .ok (.ok sfs, k) →
      Lives files dBlocks s (.booted sfs v.disk sin)

/-- What a sync that returned zero leaves. -/
theorem sync_leaves (hok : s.Ok own) (hmount : Mountable dBlocks s.volume)
    (hwrites : WritesBack io s.volume) :
    Ends (fun _ => True) (sfsSync io) s.volume fun ret v => ret = 0 →
      ({ s with volume := v } : Store).Ok own ∧ Mountable dBlocks v ∧ Durable v ∧
        Recovered (fun n => own n.toNat = .inode) s.volume v := by
  apply ((Synced.sync hok.seated hok.flags).and (sfsSync_spec hok.seated hok.flags)).imp
  rintro ret v ⟨⟨hsynced, _⟩, ⟨hflags, _⟩, hdurable⟩ hret
  have hsame : v.geometry = s.volume.geometry := by
    rw [Volume.geometry, Volume.geometry, hsynced.super, hsynced.freemap]
  exact ⟨hsynced.ok hok hflags, hmount.congr hsame, hdurable hwrites hret,
    hsynced.recovered hok.seated⟩

theorem Lives.keeps_ok (h : Lives (fun n => own n.toNat = .inode) dBlocks s s') (hok : s.Ok own)
    (hmount : Mountable dBlocks s.volume) : ∃ own', s'.Ok own' ∧ Mountable dBlocks s'.volume ∧
      ∀ b, own' b = .inode ↔ own b = .inode := by
  cases h with
  | call heap io _ _ call hallowed hrun => exact (call.keeps_ok hok hmount hallowed).post hrun
  | reboot io answers memory _ v sfs k sin hwrites hsync hrun =>
      obtain ⟨hok', hmount', hdurable, _⟩ := (sync_leaves hok hmount hwrites).post hsync rfl
      have hmounts := (hdurable.mounts hok'.seated hmount' answers memory).post hrun
      obtain ⟨hmounted, hspared⟩ := hmounts
      refine ⟨own, hmounted.ok hspared hok' hmount' hdurable sin, ?_, fun _ => Iff.rfl⟩
      have hends : Recovered (fun _ => True) v (.mounted sfs v.disk sin) ∧ _ :=
        hmounted.recovered hspared hmount' hdurable sin
      exact hends.2

theorem Lives.run_ok (h : Relation.ReflTransGen (Lives (fun n => own n.toNat = .inode) dBlocks) s
    s') (hok : s.Ok own) (hmount : Mountable dBlocks s.volume) : ∃ own', s'.Ok own' ∧
      Mountable dBlocks s'.volume ∧ ∀ b, own' b = .inode ↔ own b = .inode := by
  induction h with
  | refl => exact ⟨own, hok, hmount, fun _ => Iff.rfl⟩
  | tail _ hstep ih =>
      obtain ⟨own', hok', hmount', hinode⟩ := ih
      have hfiles : (fun n : BitVec 32 => own n.toNat = .inode) = fun n => own' n.toNat = .inode :=
        funext fun n => propext (hinode _).symm
      rw [hfiles] at hstep
      obtain ⟨own'', hok'', hmount'', hinode'⟩ := hstep.keeps_ok hok' hmount'
      exact ⟨own'', hok'', hmount'', fun b => (hinode' b).trans (hinode b)⟩

/-- Whatever the calls and the failures, and however often the machine was switched off after
a sync: when another one returns zero, the next mount does not stop, fails only if an
allocation or a read does, and finds the superblock, the free blocks, the inodes and the
contents of all files as they were. -/
theorem reboot_recovers (hok : s.Ok own) (hmount : Mountable dBlocks s.volume)
    (hrun : Relation.ReflTransGen (Lives (fun n => own n.toNat = .inode) dBlocks) s s')
    (hwrites : WritesBack io s'.volume) (answers : Answers) (memory : Finset Addr) :
    Ends (fun _ => True) (sfsSync io) s'.volume fun ret v => ret = 0 →
      Ends never (sfsDoMount answers ⟨dBlocks, SFS_BLKSIZE, v.disk⟩) ⟨memory, 0, 0⟩ fun r k =>
        match r with
        | .ok sfs => ∀ sin,
            Recovered (fun n => own n.toNat = .inode) s'.volume (.mounted sfs v.disk sin)
        | .error ret => ret < 0 ∧ k.heap = memory ∧
            ((∃ n, answers.full n = true) ∨ ∃ n, answers.io n ≠ 0) := by
  obtain ⟨own', hok', hmount', hinode⟩ := Lives.run_ok hrun hok hmount
  have hfiles : (fun n : BitVec 32 => own n.toNat = .inode) = fun n => own' n.toNat = .inode :=
    funext fun n => propext (hinode _).symm
  rw [hfiles]
  apply (sync_leaves hok' hmount' hwrites).imp
  intro ret v hleaves hret
  obtain ⟨hok'', hmount'', hdurable, hkept⟩ := hleaves hret
  apply (hdurable.mounts hok''.seated hmount'' answers memory).imp
  intro r k hends
  cases r with
  | error ret => exact hends
  | ok sfs => exact fun sin => hkept.trans (hends.1.recovered hends.2 hmount'' hdurable sin).1

/-- A volume of 128 MiB with one file, of which nothing has been written yet. -/
def unsavedStore : Store where
  volume :=
    { (newVolume 1024).setSin 3 { (newVolume 1024).sin 3 with dirty := true } with
      superDirty := true }
  refCount := fun n => if n = 3 then 1 else 0
  openCount := fun _ => 0
  requests := 0

theorem unsavedStore_seated : Seated (newOwner 1024) unsavedStore.volume := by
  have hmapped := @newVolume_mapped 1024 (by decide) (by decide)
  have hcached : (3 : BitVec 32) ∈ (newVolume 1024).inodeList := List.mem_singleton.mpr rfl
  have hnew : Seated (newOwner 1024) (newVolume 1024) := by
    refine ⟨hmapped, fun n hn => ?_, rfl, fun i hi => ?_⟩
    · rw [List.mem_singleton.mp hn]
      rfl
    · have hone : sfsFreemapBlocks (newVolume 1024).super = 1 := by
        rw [sfsFreemapBlocks, roundupDiv]
        decide
      rw [hone] at hi
      rw [Nat.lt_one_iff.mp hi]
      rfl
  have hframed : Framed 3 (newOwner 1024) (newOwner 1024) (newVolume 1024)
      ((newVolume 1024).setSin 3 { (newVolume 1024).sin 3 with dirty := true }) := by
    apply Framed.setSin_same hmapped.sound hcached
    · rfl
    · rfl
  exact (hframed.seated (hmapped.setSin_same hcached _ rfl rfl rfl) hnew).redisk fun _ _ => rfl

theorem unsavedStore_ok : unsavedStore.Ok (newOwner 1024) := by
  have hlist : ∀ n, n ∈ unsavedStore.volume.inodeList ↔ n = 3 := fun n => List.mem_singleton
  refine ⟨unsavedStore_seated, ⟨fun n hn hclean => ?_, fun hclean => by cases hclean⟩, fun n hn =>
    ?_, List.nodup_singleton 3, fun n hn => ?_, fun n => ?_, fun n hn => ?_⟩
  · rw [(hlist n).mp hn] at hclean
    cases hclean
  · rw [newOwner_inode hn]
    decide
  · rw [hlist] at hn
    exact if_neg hn
  · show 0 ≤ (0 : Int) ∧ 0 ≤ if n = 3 then (1 : Int) else 0
    grind
  · rw [(hlist n).mp hn]
    decide

theorem unsavedStore_mountable : Mountable 32768 unsavedStore.volume where
  magic := rfl
  bits := by
    rw [Super.NoBits]
    decide
  info := by
    have hinfo : Function.update (fun _ => 0 : Fin (SFS_MAX_INFO_LEN + 1) → Byte)
        ⟨SFS_MAX_INFO_LEN, Nat.lt_succ_self _⟩ 0 = fun _ => 0 := Function.update_eq_self _ _
    exact congrArg (Super.mk SFS_MAGIC 32768 32764) hinfo
  fits := by decide
  nbits := by
    rw [sfsFreemapBits, roundup]
    decide
  full := by decide
  spared ix hix := by
    change 1024 ≤ ix at hix
    show (if ix = 0 then (0xfffffff0 : BitVec 32) else 0xffffffff) = 0xffffffff
    rw [if_neg (by omega)]

/-- Nothing is in memory that has to be written, as after a mount. -/
theorem sfsSync_clean (hlist : v.inodeList = []) (hclean : v.superDirty = false) :
    sfsSync io v = .ok (0, v) := by
  have hends : Ends never (sfsSync io) v fun ret t => ret = 0 ∧ t = v := by
    rw [sfsSync, ends_bind, ends_get, hlist, ends_bind]
    show Ends never (pure PUnit.unit : SfsM PUnit) v _
    rw [ends_pure, ends_bind, ends_get, if_neg (by rw [hclean]; decide), ends_pure]
    exact ⟨rfl, rfl⟩
  obtain ⟨_, _, hrun, rfl, rfl⟩ := hends.ok
  exact hrun

/-- The file gets its first byte. -/
def firstByte : StoreCall := .volume (.size (.truncfile 3 1))

theorem firstByte_grows :
    yields (firstByte.run (fun _ => true) (fun _ => 0)) unsavedStore (fun _ t =>
    decide ((t.volume.sin 3).din.size = 1) && yields (sfsSync fun _ => 0) t.volume fun ret _ =>
      decide (ret = 0)) = true := by
  decide +kernel

/-- The file gets its first byte, the volume is synced, and the machine is switched off. What is
then mounted is found again after another sync and another mount. -/
theorem reboot_recovers_firstByte : ∃ s₁ v sfs k,
    firstByte.run (fun _ => true) (fun _ => 0) unsavedStore = .ok (⟨⟩, s₁) ∧
    (s₁.volume.sin 3).din.size = 1 ∧ sfsSync (fun _ => 0) s₁.volume = .ok (0, v) ∧
    sfsDoMount calmAnswers ⟨32768, SFS_BLKSIZE, v.disk⟩ ⟨∅, 0, 0⟩ = .ok (.ok sfs, k) ∧
    ∀ sin, sfsSync (fun _ => 0) (.mounted sfs v.disk sin) = .ok (0, .mounted sfs v.disk sin) ∧
      ∀ (answers : Answers) (memory : Finset Addr),
        Ends never (sfsDoMount answers ⟨32768, SFS_BLKSIZE, v.disk⟩) ⟨memory, 0, 0⟩ fun r k =>
          match r with
          | .ok sfs' => ∀ sin', Recovered (fun n => newOwner 1024 n.toNat = .inode)
              (.mounted sfs v.disk sin) (.mounted sfs' v.disk sin')
          | .error ret => ret < 0 ∧ k.heap = memory ∧
              ((∃ n, answers.full n = true) ∨ ∃ n, answers.io n ≠ 0) := by
  have hallowed : firstByte.Allowed (fun _ => 0) (fun n => newOwner 1024 n.toNat = .inode)
      unsavedStore :=
    ⟨List.mem_singleton.mpr rfl, .inr fun _ _ _ hsilent => absurd hsilent.clean (by decide)⟩
  have hok := unsavedStore_ok
  have hmountable := unsavedStore_mountable
  have hgrows := firstByte_grows
  -- the store stays a variable here, or the elaborator runs the call
  generalize unsavedStore = s₀ at hallowed hok hmountable hgrows ⊢
  obtain ⟨_, s₁, hcall, hgrown⟩ := (Ends.of_yields hgrows).ok
  obtain ⟨hsize, hsynced⟩ := Bool.and_eq_true_iff.mp hgrown
  obtain ⟨ret, v, hsync, hzero⟩ := (Ends.of_yields hsynced).ok
  obtain rfl : ret = 0 := of_decide_eq_true hzero
  obtain ⟨own', hok₁, hmount₁, _⟩ := (firstByte.keeps_ok hok hmountable hallowed).post hcall
  obtain ⟨hokv, hmountv, hdurable, _⟩ :=
    (sync_leaves hok₁ hmount₁ fun _ _ => rfl).post hsync rfl
  obtain ⟨r, k, hmount, hr⟩ := (hdurable.mounts hokv.seated hmountv calmAnswers ∅).ok
  cases r with
  | error ret =>
      rcases hr.2.2 with ⟨_, hfull⟩ | ⟨_, hio⟩
      · cases hfull
      · exact absurd rfl hio
  | ok sfs =>
      refine ⟨s₁, v, sfs, k, hcall, of_decide_eq_true hsize, hsync, hmount, fun sin => ?_⟩
      have hagain := @sfsSync_clean (fun _ => 0) (.mounted sfs v.disk sin) rfl hr.1.clean
      have hrun : Relation.ReflTransGen (Lives (fun n => newOwner 1024 n.toNat = .inode) 32768)
          s₀ (.booted sfs v.disk sin) := by
        refine .tail (.single (.call _ _ _ _ firstByte hallowed hcall)) ?_
        exact .reboot (fun _ => 0) calmAnswers ∅ s₁ v sfs k sin (fun _ _ => rfl) hsync hmount
      refine ⟨hagain, fun answers memory => ?_⟩
      have hends : Ends _ (sfsSync fun _ => 0) (Store.booted sfs v.disk sin).volume _ :=
        reboot_recovers hok hmountable hrun (fun _ _ => rfl) answers memory
      have hkept := hends.post hagain rfl
      exact hkept

end Ucore.Sfs
