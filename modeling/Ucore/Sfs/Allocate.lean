import Ucore.Sfs.Ledger

/-!
# Allocating blocks

What `sfs_block_alloc` and `sfs_bmap_get_nolock` do to a sound volume, call by call of the
device. A block that was allocated and could not be cleared is lost; all the other
failures are undone.
-/

namespace Ucore.Sfs

open Machine

variable {io : Nat → Int} {own own' own'' : Nat → Owner} {v t u : Volume} {node n b : BitVec 32}
  {i j : Nat}

/-! ## One block -/

theorem Sound.toNat_ofNat (h : Sound own v) {x : Nat} (hx : x ∈ v.freemap.bits) :
    (BitVec.ofNat 32 x).toNat = x := by
  have hlt := (h.range x (by simp [(h.free x).mpr hx])).2
  have hsmall := h.small
  rw [BitVec.toNat_ofNat]
  omega

theorem sfsBlockInuse_of (h : Sound own v) (hfixed : own b.toNat ≠ .fixed)
    (hused : own b.toNat ≠ .free) :
    Ends never (sfsBlockInuse b) v fun r t => t = v ∧ r = true := by
  have huse := h.inUse hfixed hused
  apply (sfsBlockInuse_spec h.covered huse.ne_zero huse.lt).imp
  intro r t ht
  exact ⟨ht.1, ht.2.mpr huse.used⟩

theorem sfsBlockAlloc_spec (h : Sound own v) :
    Ends never (sfsBlockAlloc io) v fun r t =>
      (r = .error (-E_NO_MEM) ∧ v.freemap.bits = ∅ ∧ t = v) ∨
      ∃ b : BitVec 32, b.toNat ∈ v.freemap.bits ∧
        ((r = .error (io v.ios) ∧ io v.ios ≠ 0 ∧ t = (v.take b.toNat).tick 1) ∨
          (r = .ok b ∧ io v.ios = 0 ∧ t = ((v.take b.toNat).write b.toNat fun _ => 0).tick 1)) := by
  rw [sfsBlockAlloc, ends_bind, ends_get, ends_bind]
  apply (bitmapAlloc_spec h.words).imp
  rintro r t ⟨rfl, hr⟩
  cases r with
  | none => exact .inl ⟨rfl, hr, rfl⟩
  | some pair =>
      obtain ⟨x, freemap⟩ := pair
      obtain ⟨hx, rfl⟩ := hr
      obtain ⟨b, rfl⟩ : ∃ b : BitVec 32, b.toNat = x := ⟨_, h.toNat_ofNat hx⟩
      have hpos : t.super.unusedBlocks > 0 := h.unused_pos hx
      have htake := h.take hx
      simp only
      rw [ends_bind, ends_modify, ends_bind, ends_get, ends_bind, ends_check hpos, ends_bind,
        ends_modify, BitVec.ofNat_toNat, BitVec.setWidth_eq]
      change Ends _ _ (t.take b.toNat) _
      rw [ends_bind]
      apply (sfsBlockInuse_of htake (by simp) (by simp)).imp
      rintro r t' ⟨rfl, rfl⟩
      rw [ends_bind, ends_check rfl, ends_bind, sfsClearBlock]
      apply (writeBlock_spec (htake.valid (by simp)) _).imp
      rintro r t' ⟨rfl, rfl⟩
      by_cases hio : io t.ios = 0
      · rw [if_neg (by exact not_not.mpr hio), if_pos (by exact hio)]
        exact .inr ⟨b, hx, .inr ⟨rfl, hio, rfl⟩⟩
      · rw [if_pos (by exact hio), if_neg (by exact hio)]
        exact .inr ⟨b, hx, .inl ⟨rfl, hio, rfl⟩⟩

theorem sfsBlockFree_inUse (hcovered : v.Covered) (huse : v.InUse b) :
    Ends never (sfsBlockFree b) v fun _ t => t = v.give b.toNat := by
  have hbit : b.toNat < v.freemap.nbits := Nat.lt_of_lt_of_le huse.lt hcovered
  rw [sfsBlockFree, ends_bind]
  apply (sfsBlockInuse_spec hcovered huse.ne_zero huse.lt).imp
  rintro r t ⟨rfl, hr⟩
  rw [ends_bind, ends_check (hr.mpr huse.used), ends_bind, ends_get, ends_bind,
    bitmapFree_eq hbit huse.used, ends_pure]
  exact rfl

theorem sfsBlockFree_spec (h : Sound own v) (hfixed : own b.toNat ≠ .fixed)
    (hused : own b.toNat ≠ .free) : Ends never (sfsBlockFree b) v fun _ t => t = v.give b.toNat :=
  sfsBlockFree_inUse h.covered (h.inUse hfixed hused)

/-- A bit that was cleared and is set again. -/
theorem Bitmap.set_flip {bitmap : Bitmap} {x : Nat} (hx : x ∈ bitmap.bits) :
    (bitmap.flip x).set x = bitmap := by
  have hbit := (Bitmap.mem_bits.mp hx).2
  have hmap : ((bitmap.flip x).set x).map = bitmap.map := by
    funext k
    ext p hp
    have hflip := xor_mask bitmap.map x
    have hset := or_mask (bitmap.flip x).map x (32 * k + p)
    have hdiv : (32 * k + p) / 32 = k := by omega
    have hmod : (32 * k + p) % 32 = p := by omega
    rw [bitOf, hdiv, hmod] at hset
    rw [← BitVec.getLsbD_eq_getElem, ← BitVec.getLsbD_eq_getElem]
    have hold : bitOf bitmap.map (32 * k + p) = (bitmap.map k).getLsbD p := by
      rw [bitOf, hdiv, hmod]
    refine hset.trans ?_
    rw [Bitmap.flip, hflip, ← hold]
    by_cases heq : 32 * k + p = x
    · rw [heq, hbit]
      simp
    · simp [heq]
  show { (bitmap.flip x).set x with map := ((bitmap.flip x).set x).map } = bitmap
  rw [hmap]
  rfl

/-! ## What stays -/

/-- No block map has changed. -/
structure Untouched (own own' : Nat → Owner) (v t : Volume) : Prop where
  sound : Sound own' t
  same : ∀ b σ, σ.idle = false → (own' b = σ ↔ own b = σ)
  sin : t.sin = v.sin
  list : t.inodeList = v.inodeList
  disk : ∀ b, (own b).idle = false → t.disk b = v.disk b
  clean : t.superDirty = false → t.super = v.super ∧ t.freemap = v.freemap ∧ v.superDirty = false
  blocks : t.super.blocks = v.super.blocks

/-- Only the block map of one inode may have changed. -/
structure Framed (node : BitVec 32) (own own' : Nat → Owner) (v t : Volume) : Prop where
  sound : Sound own' t
  inode : ∀ b, own' b = .inode ↔ own b = .inode
  fixed : ∀ b, own' b = .fixed ↔ own b = .fixed
  list : t.inodeList = v.inodeList
  others : ∀ n, n ≠ node → t.sin n = v.sin n
  slots : ∀ n i, n ≠ node → own n.toNat = .inode → t.slot n i = v.slot n i
  disk : ∀ b, own b = .inode ∨ own b = .fixed → t.disk b = v.disk b
  clean : t.superDirty = false → t.super = v.super ∧ t.freemap = v.freemap ∧ v.superDirty = false
  blocks : t.super.blocks = v.super.blocks

namespace Untouched

theorem refl (h : Sound own v) : Untouched own own v v :=
  ⟨h, fun _ _ _ => Iff.rfl, rfl, rfl, fun _ _ => rfl, fun hclean => ⟨rfl, rfl, hclean⟩, rfl⟩

theorem trans (h : Untouched own own' v t) (h' : Untouched own' own'' t u) :
    Untouched own own'' v u := by
  refine ⟨h'.sound, fun b σ hσ => (h'.same b σ hσ).trans (h.same b σ hσ), h'.sin.trans h.sin,
    h'.list.trans h.list, fun b hb => ?_, fun hclean => ?_, h'.blocks.trans h.blocks⟩
  · have hb' : (own' b).idle = false := by
      rw [(h.same b (own b) hb).mpr rfl]
      exact hb
    exact (h'.disk b hb').trans (h.disk b hb)
  · obtain ⟨hsuper', hfreemap', hdirty'⟩ := h'.clean hclean
    obtain ⟨hsuper, hfreemap, hdirty⟩ := h.clean hdirty'
    exact ⟨hsuper'.trans hsuper, hfreemap'.trans hfreemap, hdirty⟩

theorem tick (h : Sound own v) (k : Nat) : Untouched own own v (v.tick k) :=
  ⟨h.tick k, fun _ _ _ => Iff.rfl, rfl, rfl, fun _ _ => rfl, fun hclean => ⟨rfl, rfl, hclean⟩, rfl⟩

theorem take (h : Sound own v) {x : Nat} (hx : x ∈ v.freemap.bits) :
    Untouched own (Function.update own x .lost) v (v.take x) :=
  ⟨h.take hx, update_idle (by rw [(h.free x).mpr hx]; rfl) rfl, rfl, rfl, fun _ _ => rfl,
    fun hclean => (by cases hclean), rfl⟩

theorem give (h : Sound own v) {x : Nat} (hx : own x = .lost) :
    Untouched own (Function.update own x .free) v (v.give x) :=
  ⟨h.give hx, update_idle (by rw [hx]; rfl) rfl, rfl, rfl, fun _ _ => rfl,
    fun hclean => (by cases hclean), rfl⟩

theorem write (h : Sound own v) {x : Nat} (hx : own x = .lost) (bytes : Bytes) :
    Untouched own own v (v.write x bytes) := by
  refine ⟨(h.write (by simp [hx]) (by simp [hx]) bytes).2.2, fun _ _ _ => Iff.rfl, rfl, rfl,
    fun b hb => ?_, fun hclean => ⟨rfl, rfl, hclean⟩, rfl⟩
  apply Function.update_of_ne
  rintro rfl
  rw [hx] at hb
  cases hb

/-- The inodes and their slots are as before. -/
theorem din (h : Untouched own own' v t) (hn : own n.toNat = .inode) : t.din n = v.din n := by
  unfold Volume.din
  rw [h.list, h.sin, h.disk n.toNat (by rw [hn]; rfl)]

theorem slot (h : Untouched own own' v t) (hv : Sound own v) (hn : own n.toNat = .inode) (i : Nat) :
    t.slot n i = v.slot n i := by
  rw [Volume.slot, Volume.slot, h.din hn, DiskInode.slot, DiskInode.slot]
  split
  next => rfl
  next =>
    split
    next hin => rw [h.disk _ (by rw [hv.index_of hn hin.1]; rfl)]
    next => rfl

theorem framed (h : Untouched own own' v t) (hv : Sound own v) (node : BitVec 32) :
    Framed node own own' v t :=
  ⟨h.sound, fun b => h.same b .inode rfl, fun b => h.same b .fixed rfl, h.list,
    fun n _ => by rw [h.sin], fun n i _ hn => h.slot hv hn i,
    fun b hb => h.disk b (by rcases hb with hb | hb <;> rw [hb] <;> rfl), h.clean,
    h.blocks⟩

end Untouched

namespace Framed

theorem trans (h : Framed node own own' v t) (h' : Framed node own' own'' t u) :
    Framed node own own'' v u := by
  refine ⟨h'.sound, fun b => (h'.inode b).trans (h.inode b), fun b =>
    (h'.fixed b).trans (h.fixed b),
    h'.list.trans h.list, fun n hn => (h'.others n hn).trans (h.others n hn),
    fun n i hn hinode => ?_, fun b hb => ?_, fun hclean => ?_, h'.blocks.trans h.blocks⟩
  · exact (h'.slots n i hn ((h.inode _).mpr hinode)).trans (h.slots n i hn hinode)
  · have hb' : own' b = .inode ∨ own' b = .fixed := by rwa [h.inode, h.fixed]
    exact (h'.disk b hb').trans (h.disk b hb)
  · obtain ⟨hsuper', hfreemap', hdirty'⟩ := h'.clean hclean
    obtain ⟨hsuper, hfreemap, hdirty⟩ := h.clean hdirty'
    exact ⟨hsuper'.trans hsuper, hfreemap'.trans hfreemap, hdirty⟩

end Framed

/-! ## A block behind an entry -/

/-- The roll-back of `sfs_bmap_get_sub_nolock`. -/
def Volume.undo (v : Volume) (entp ent : BitVec 32) : Volume :=
  if ent ≠ entp then v.give ent.toNat else v

/-- What an error can be. -/
def IsError (io : Nat → Int) (ret : Int) : Prop := ret = -E_NO_MEM ∨ ∃ k, ret = io k ∧ ret ≠ 0

theorem IsError.neg {ret : Int} (hret : IsError io ret) (hio : ∀ k, io k ≤ 0) : ret < 0 := by
  rcases hret with rfl | ⟨k, rfl, hne⟩
  · decide
  · have := hio k
    omega

theorem undo_spec {entp ent : BitVec 32} {ret : Int} (h : Sound own v)
    (hfixed : own ent.toNat ≠ .fixed) (hused : own ent.toNat ≠ .free) :
    Ends never (do
      if ent ≠ entp then sfsBlockFree ent
      return (.error ret : Except Int (BitVec 32 × BitVec 32))) v fun r t =>
        r = .error ret ∧ t = v.undo entp ent := by
  unfold Volume.undo
  split
  next =>
    rw [ends_bind]
    apply (sfsBlockFree_spec h hfixed hused).imp
    rintro _ t rfl
    exact ⟨rfl, rfl⟩
  next => exact ⟨rfl, rfl⟩

/-- The volume with a new block, cleared, and one call of the device more. -/
def Volume.new (v : Volume) (b : BitVec 32) : Volume :=
  ((v.take b.toNat).write b.toNat fun _ => 0).tick 1

theorem Untouched.new (h : Sound own v) (hb : b.toNat ∈ v.freemap.bits) :
    Untouched own (Function.update own b.toNat .lost) v (v.new b) := by
  have htake := Untouched.take h hb
  have hwrite := Untouched.write htake.sound (Function.update_self ..) fun _ => 0
  exact htake.trans (hwrite.trans (.tick hwrite.sound 1))

theorem allocSub_spec {entp ent : BitVec 32} {index : Nat} (h : Sound own v)
    (hfixed : own ent.toNat ≠ .fixed) (hused : own ent.toNat ≠ .free)
    (hindex : index < SFS_BLK_NENTRY) :
    Ends never (allocSub io entp ent index) v fun r t =>
      (r = .error (-E_NO_MEM) ∧ v.freemap.bits = ∅ ∧ t = v.undo entp ent) ∨
      ∃ b : BitVec 32, b.toNat ∈ v.freemap.bits ∧
        ((r = .error (io v.ios) ∧ io v.ios ≠ 0 ∧ t = ((v.take b.toNat).tick 1).undo entp ent) ∨
          (∃ k, r = .error (io (v.ios + 1 + k)) ∧ io v.ios = 0 ∧ k < 2 ∧ io (v.ios + 1 + k) ≠ 0 ∧
            t = (((v.new b).tick (k + 1)).give b.toNat).undo entp ent) ∨
          (r = .ok (ent, b) ∧ io v.ios = 0 ∧ io (v.ios + 1) = 0 ∧ io (v.ios + 2) = 0 ∧
            t = ((v.new b).write ent.toNat (setWord (v.disk ent.toNat) index b)).tick 2)) := by
  have hoffset : 4 * index + 4 ≤ SFS_BLKSIZE := by
    unfold SFS_BLK_NENTRY SFS_BLKSIZE at hindex
    unfold SFS_BLKSIZE
    omega
  rw [allocSub, ends_bind]
  apply (sfsBlockAlloc_spec h).imp
  rintro r t (⟨rfl, hempty, rfl⟩ | ⟨b, hb, hr⟩)
  · apply (undo_spec h hfixed hused).imp
    rintro r u ⟨rfl, rfl⟩
    exact .inl ⟨rfl, hempty, rfl⟩
  · have hfree := (h.free _).mpr hb
    have hne : ent.toNat ≠ b.toNat := by
      intro heq
      rw [heq] at hused
      exact hused hfree
    have hown : Function.update own b.toNat .lost ent.toNat = own ent.toNat :=
      Function.update_of_ne hne _ _
    rcases hr with ⟨rfl, hio, rfl⟩ | ⟨rfl, hio, rfl⟩
    · apply (undo_spec ((h.take hb).tick 1) (by rwa [hown]) (by rwa [hown])).imp
      rintro r u ⟨rfl, rfl⟩
      exact .inr ⟨b, hb, .inl ⟨rfl, hio, rfl⟩⟩
    · change Ends never _ (v.new b) _
      have hnew := Untouched.new h hb
      have hios : (v.new b).ios = v.ios + 1 := rfl
      have hdisk : (v.new b).disk ent.toNat = v.disk ent.toNat := Function.update_of_ne hne _ _
      have hlost : Function.update own b.toNat .lost b.toNat = .lost := Function.update_self ..
      -- both blocks are given back where the entry is not written
      have hundo : ∀ (k : Nat) (ret : Int), k < 2 → ret = io (v.ios + 1 + k) → ret ≠ 0 →
          Ends never (do
            sfsBlockFree b
            if ent ≠ entp then sfsBlockFree ent
            return (.error ret : Except Int (BitVec 32 × BitVec 32))) ((v.new b).tick (k + 1))
            fun r t => ∃ k, r = .error (io (v.ios + 1 + k)) ∧ io v.ios = 0 ∧ k < 2 ∧
              io (v.ios + 1 + k) ≠ 0 ∧
                t = (((v.new b).tick (k + 1)).give b.toNat).undo entp ent := by
        intro k ret hk hret hne'
        subst hret
        have hs := hnew.sound.tick (k + 1)
        rw [ends_bind]
        apply (sfsBlockFree_spec hs (by simp) (by simp)).imp
        rintro _ u rfl
        have hgiven := hs.give hlost
        have hown' : Function.update (Function.update own b.toNat .lost) b.toNat .free ent.toNat =
            own ent.toNat := by
          rw [Function.update_of_ne hne, hown]
        apply (undo_spec hgiven (by rwa [hown']) (by rwa [hown'])).imp
        rintro r u ⟨rfl, rfl⟩
        exact ⟨k, rfl, hio, hk, hne', rfl⟩
      simp only
      rw [ends_bind]
      apply (sfsWbuf_spec (hnew.sound.valid (by rwa [hown])) (by omega) hoffset _).imp
      rintro ret u (⟨rfl, hne', rfl⟩ | ⟨_, rfl, hne', rfl⟩ | ⟨hio', hio'', rfl, rfl⟩)
      · rw [if_pos hne']
        apply (hundo 0 _ (by omega) rfl hne').imp
        exact fun r u hr => .inr ⟨b, hb, .inr (.inl hr)⟩
      · rw [if_pos hne']
        apply (hundo 1 _ (by omega) rfl hne').imp
        exact fun r u hr => .inr ⟨b, hb, .inr (.inl hr)⟩
      · rw [if_neg (not_not.mpr rfl), hdisk, splice_word]
        exact .inr ⟨b, hb, .inr (.inr ⟨rfl, hio, hio', hio'', rfl⟩)⟩

/-! ## A block behind a slot -/

/-- The calls of the device for a new block behind slot `j`. -/
def loadIos (j : Nat) : Nat := if j < SFS_NDIRECT then 1 else 4

/-- The blocks that it takes; the indirect block may be missing. -/
def Volume.loadRoom (v : Volume) (node : BitVec 32) (j : Nat) : Nat :=
  if SFS_NDIRECT ≤ j ∧ (v.din node).indirect = 0 then 2 else 1

/-- There is room for a block behind slot `j`, and the device serves the calls. -/
structure Fits (io : Nat → Int) (v : Volume) (node : BitVec 32) (j : Nat) : Prop where
  io : ∀ k < loadIos j, io (v.ios + k) = 0
  room : v.loadRoom node j ≤ v.freemap.bits.card

/-- A block is allocated for an index that has none, and the device fails to clear it. For an index
in the indirect block there is also that block, to be read or to be made first. -/
structure ClearFails (io : Nat → Int) (v : Volume) (node : BitVec 32) (j : Nat) : Prop where
  range : j < maxBlocks
  empty : v.slot node j = 0
  room : v.freemap.bits ≠ ∅
  fails : if j < SFS_NDIRECT then io v.ios ≠ 0
    else if (v.din node).indirect ≠ 0 then io v.ios = 0 ∧ io (v.ios + 1) ≠ 0
    else io v.ios ≠ 0 ∨ 1 < v.freemap.bits.card ∧ io (v.ios + 1) ≠ 0

/-- No block was put behind slot `j`. Either all is as it was, or a block has been lost. -/
def Missed (io : Nat → Int) (own : Nat → Owner) (v : Volume) (node : BitVec 32) (j : Nat)
    (t : Volume) : Prop :=
  ∃ own', Untouched own own' v t ∧
    ((¬ClearFails io v node j ∧ own' = own ∧ t.freemap = v.freemap ∧ t.super = v.super) ∨
      (ClearFails io v node j ∧ t.freemap.bits.card < v.freemap.bits.card))

/-- The block `b` was put behind slot `j`. -/
structure Filled (io : Nat → Int) (own own' : Nat → Owner) (v t : Volume)
    (node : BitVec 32) (j : Nat) (b : BitVec 32) : Prop where
  framed : Framed node own own' v t
  fits : Fits io v node j
  empty : v.slot node j = 0
  ne_zero : b ≠ 0
  slot : ∀ i, t.slot node i = if i = j then b else v.slot node i
  used : own' b.toNat = .data node j
  lost : ∀ x, own' x = .lost → own x = .lost
  din : ∃ direct indirect, (t.sin node).din = { (v.sin node).din with direct, indirect }
  indirect : if j < SFS_NDIRECT then (t.din node).indirect = (v.din node).indirect
    else (t.din node).indirect ≠ 0
  dirty : if j < SFS_NDIRECT ∨ (v.din node).indirect = 0 then (t.sin node).dirty = true
    else t.sin node = v.sin node
  reclaim : (t.sin node).reclaimCount = (v.sin node).reclaimCount
  superDirty : t.superDirty = true
  room : t.freemap.bits.card + v.loadRoom node j = v.freemap.bits.card
  ios : t.ios = v.ios + loadIos j

theorem Framed.setSin (hcached : node ∈ v.inodeList) {sin : SfsInode}
    (h : Sound own' (v.setSin node sin)) (hinode : ∀ b, own' b = .inode ↔ own b = .inode)
    (hfixed : ∀ b, own' b = .fixed ↔ own b = .fixed) :
    Framed node own own' v (v.setSin node sin) := by
  refine ⟨h, hinode, hfixed, rfl, fun n hn => Function.update_of_ne hn _ _, fun n i hn _ => ?_,
    fun _ _ => rfl, fun hclean => ⟨rfl, rfl, hclean⟩, rfl⟩
  rw [slot_setSin hcached, if_neg hn]

theorem Framed.write (h : Sound own v) (hnode : own node.toNat = .inode)
    (hne : (v.din node).indirect ≠ 0) {bytes : Bytes}
    (h' : Sound own' (v.write (v.din node).indirect.toNat bytes))
    (hinode : ∀ b, own' b = .inode ↔ own b = .inode)
    (hfixed : ∀ b, own' b = .fixed ↔ own b = .fixed) :
    Framed node own own' v (v.write (v.din node).indirect.toNat bytes) := by
  refine ⟨h', hinode, hfixed, rfl, fun n _ => rfl, fun n i hn hown => ?_, fun b hb => ?_,
    fun hclean => ⟨rfl, rfl, hclean⟩, rfl⟩
  · rw [(h.slot_write hnode hne bytes).2 n i hown, if_neg fun hall => hn hall.1]
  · apply Function.update_of_ne
    rintro rfl
    rw [h.index_of hnode hne] at hb
    rcases hb with hb | hb <;> cases hb

theorem card_take (hb : b.toNat ∈ v.freemap.bits) :
    (v.take b.toNat).freemap.bits.card + 1 = v.freemap.bits.card := by
  show (v.freemap.flip b.toNat).bits.card + 1 = _
  rw [Bitmap.bits_flip hb]
  exact Finset.card_erase_add_one hb

/-- A block that is lost becomes one behind a slot. -/
theorem update_data {x y : Nat} (hx : own x = .lost) {σ : Owner} (hlost : σ ≠ .lost)
    (hdata : σ ≠ .data node j) : Function.update own x (.data node j) y = σ ↔ own y = σ := by
  rw [Function.update_apply]
  split
  next heq => simp [heq, hx, hlost.symm, hdata.symm]
  next => rfl

theorem lost_of_new {x : Nat} (hx : Function.update (Function.update own b.toNat .lost) b.toNat
    (.data node j) x = .lost) : own x = .lost := by
  by_cases hxb : x = b.toNat
  · simp [hxb] at hx
  · rwa [Function.update_of_ne hxb, Function.update_of_ne hxb] at hx

/-- A new block behind a direct slot. -/
theorem Sound.fill_direct (h : Sound own v) (hnode : own node.toNat = .inode)
    (hcached : node ∈ v.inodeList) (hj : j < SFS_NDIRECT) (hempty : v.slot node j = 0)
    (hb : b.toNat ∈ v.freemap.bits) (hio : io v.ios = 0) :
    ∃ own', Filled io own own' v
      ((v.new b).setDin node ((v.sin node).din.setDirect ⟨j, hj⟩ b)) node j b := by
  have hnew := Untouched.new h hb
  obtain ⟨own₁, hown₁⟩ : ∃ own₁, own₁ = Function.update own b.toNat .lost := ⟨_, rfl⟩
  have hlost : own₁ b.toNat = .lost := by rw [hown₁, Function.update_self]
  rw [← hown₁] at hnew
  have hnode₁ : own₁ node.toNat = .inode := (hnew.same _ .inode rfl).mpr hnode
  have hcached₁ : node ∈ (v.new b).inodeList := hcached
  have hdin : (v.new b).din node = (v.sin node).din := din_cached hcached₁
  have hempty₁ : (v.new b).slot node j = 0 := by rw [hnew.slot h hnode, hempty]
  have hslot : ∀ n i, ((v.new b).setDin node ((v.sin node).din.setDirect ⟨j, hj⟩ b)).slot n i =
      if n = node ∧ i = j then b else (v.new b).slot n i := by
    intro n i
    rw [slot_setDin hcached₁]
    by_cases hn : n = node
    · rw [if_pos hn, DiskInode.slot_setDirect, hn, Volume.slot, hdin]
      simp
    · rw [if_neg hn, if_neg fun hall => hn hall.1]
  have hfilled : Sound (Function.update own₁ b.toNat (.data node j))
      ((v.new b).setDin node ((v.sin node).din.setDirect ⟨j, hj⟩ b)) := by
    apply Sound.fillSlot (t := (v.new b).setDin node ((v.sin node).din.setDirect ⟨j, hj⟩ b))
      hnew.sound hnode₁ hempty₁ hlost rfl rfl _ fun n i _ => hslot n i
    intro n _
    rw [din_setDin hcached₁]
    split
    next heq => rw [heq, hdin]; rfl
    next => rfl
  have hbits := card_take hb
  have hroom : v.loadRoom node j = 1 := if_neg fun hin => Nat.not_lt_of_le hin.1 hj
  have hios : loadIos j = 1 := if_pos hj
  have hself : ((v.new b).setDin node ((v.sin node).din.setDirect ⟨j, hj⟩ b)).sin node =
      { v.sin node with din := (v.sin node).din.setDirect ⟨j, hj⟩ b, dirty := true } :=
    Function.update_self _ _ _
  refine ⟨_, {
    framed :=
      (hnew.framed h node).trans (.setSin hcached₁ hfilled (fun x => update_data hlost (by simp)
      (by simp)) fun x => update_data hlost (by simp) (by simp))
    fits := ⟨fun k hk => ?_, by rw [hroom]; omega⟩
    empty := hempty
    ne_zero := ?_
    slot := fun i => ?_
    used := Function.update_self _ _ _
    lost := fun x hx => lost_of_new (by rwa [hown₁] at hx)
    din := ⟨_, _, by rw [hself]; rfl⟩
    indirect := ?_
    dirty := by rw [if_pos (.inl hj), hself]
    reclaim := by rw [hself]
    superDirty := rfl
    room := ?_
    ios := by rw [hios]; rfl }⟩
  · rw [hios] at hk
    obtain rfl : k = 0 := by omega
    exact hio
  · exact (h.valid (by simp [(h.free _).mpr hb])).ne_zero
  · rw [hslot, hnew.slot h hnode]
    simp
  · rw [if_pos hj, din_setDin hcached₁, if_pos rfl, din_cached hcached]
    rfl
  · rw [hroom]
    exact hbits

/-- A block goes behind an entry of the indirect block. -/
theorem Sound.enter (h : Sound own v) (hnode : own node.toNat = .inode)
    (hne : (v.din node).indirect ≠ 0) (hlow : SFS_NDIRECT ≤ j) (hhigh : j < maxBlocks)
    (hempty : v.slot node j = 0) (hb : own b.toNat = .lost) :
    Framed node own (Function.update own b.toNat (.data node j)) v
      (v.write (v.din node).indirect.toNat
        (setWord (v.disk (v.din node).indirect.toNat) (j - SFS_NDIRECT) b)) ∧
      (v.write (v.din node).indirect.toNat
        (setWord (v.disk (v.din node).indirect.toNat) (j - SFS_NDIRECT) b)).din node = v.din node ∧
      ∀ i, (v.write (v.din node).indirect.toNat
        (setWord (v.disk (v.din node).indirect.toNat) (j - SFS_NDIRECT) b)).slot node i =
          if i = j then b else v.slot node i := by
  have hslot := h.slot_setWord hnode hne hlow hhigh b
  have hdin := (h.slot_write hnode hne
    (setWord (v.disk (v.din node).indirect.toNat) (j - SFS_NDIRECT) b)).1
  refine ⟨?_, hdin node hnode, fun i => ?_⟩
  · have hsound : Sound (Function.update own b.toNat (.data node j))
        (v.write (v.din node).indirect.toNat
          (setWord (v.disk (v.din node).indirect.toNat) (j - SFS_NDIRECT) b)) := by
      apply Sound.fillSlot (t := v.write (v.din node).indirect.toNat _) h hnode hempty
        hb rfl rfl _ hslot
      exact fun n hn => by rw [hdin n hn]
    exact .write h hnode hne hsound (fun x => update_data hb (by simp) (by simp)) fun x =>
      update_data hb (by simp) (by simp)
  · rw [hslot node i hnode]
    simp

theorem loadIos_indirect (hlow : SFS_NDIRECT ≤ j) : loadIos j = 4 := if_neg (Nat.not_lt_of_le hlow)

/-- A new block behind an entry of the indirect block that is there; the entry has been
read first. -/
theorem Sound.fill_entry (h : Sound own v) (hnode : own node.toNat = .inode)
    (hne : (v.din node).indirect ≠ 0) (hlow : SFS_NDIRECT ≤ j) (hhigh : j < maxBlocks)
    (hempty : v.slot node j = 0) (hb : b.toNat ∈ v.freemap.bits)
    (hio : ∀ k < 4, io (v.ios + k) = 0) :
    ∃ own', Filled io own own' v
      ((((v.tick 1).new b).write (v.din node).indirect.toNat
        (setWord (v.disk (v.din node).indirect.toNat) (j - SFS_NDIRECT) b)).tick 2) node j b := by
  have hnew := (Untouched.tick h 1).trans (.new (h.tick 1) hb)
  obtain ⟨own₁, hown₁⟩ : ∃ own₁, own₁ = Function.update own b.toNat .lost := ⟨_, rfl⟩
  have hlost : own₁ b.toNat = .lost := by rw [hown₁, Function.update_self]
  rw [← hown₁] at hnew
  have hnode₁ : own₁ node.toNat = .inode := (hnew.same _ .inode rfl).mpr hnode
  have hdin := hnew.din hnode
  have hindex := h.index_of hnode hne
  have hdisk := hnew.disk (v.din node).indirect.toNat (by rw [hindex]; rfl)
  have hempty₁ : ((v.tick 1).new b).slot node j = 0 := by rw [hnew.slot h hnode, hempty]
  have hentered := hnew.sound.enter hnode₁ (by rwa [hdin]) hlow hhigh hempty₁ hlost
  rw [hdin, hdisk] at hentered
  obtain ⟨hframed, hdin', hslot⟩ := hentered
  have hroom : v.loadRoom node j = 1 := if_neg fun hin => hne hin.2
  have hbits := card_take hb
  refine ⟨_, {
    framed := ((hnew.framed h node).trans hframed).trans (Untouched.framed (.tick hframed.sound 2)
      hframed.sound node)
    fits := ⟨fun k hk => hio k (by rwa [loadIos_indirect hlow] at hk), by rw [hroom]; omega⟩
    empty := hempty
    ne_zero := (h.valid (by simp [(h.free _).mpr hb])).ne_zero
    slot := fun i => (hslot i).trans (by rw [hnew.slot h hnode])
    used := Function.update_self _ _ _
    lost := fun x hx => lost_of_new (by rwa [hown₁] at hx)
    din := ⟨_, _, rfl⟩
    indirect := ?_
    dirty := by
      rw [if_neg fun hin => hin.elim (Nat.not_lt_of_le hlow) hne]
      rfl
    reclaim := rfl
    superDirty := rfl
    room := by rw [hroom]; exact hbits
    ios := by rw [loadIos_indirect hlow]; rfl }⟩
  rw [if_neg (Nat.not_lt_of_le hlow)]
  show ((((v.tick 1).new b).write _ _).din node).indirect ≠ 0
  rw [hdin']
  exact hne

/-- A new block behind an entry of a new indirect block. -/
theorem Sound.fill_indirect {ent : BitVec 32} (h : Sound own v) (hnode : own node.toNat = .inode)
    (hcached : node ∈ v.inodeList) (hzero : (v.din node).indirect = 0) (hlow : SFS_NDIRECT ≤ j)
    (hhigh : j < maxBlocks) (hent : ent.toNat ∈ v.freemap.bits)
    (hb : b.toNat ∈ (v.new ent).freemap.bits) (hio : ∀ k < 4, io (v.ios + k) = 0) :
    ∃ own', Filled io own own' v
      (((((v.new ent).new b).write ent.toNat
        (setWord ((v.new ent).disk ent.toNat) (j - SFS_NDIRECT) b)).tick 2).setDin node
          ((v.sin node).din.setIndirect ent)) node j b := by
  have hfirst := Untouched.new h hent
  have hnew := hfirst.trans (.new hfirst.sound hb)
  have hne : ent.toNat ≠ b.toNat := by
    intro heq
    rw [← heq, ← hfirst.sound.free, Function.update_self] at hb
    cases hb
  obtain ⟨own₁, hown₁⟩ : ∃ own₁, own₁ =
    Function.update (Function.update own ent.toNat .lost) b.toNat .lost := ⟨_, rfl⟩
  have hlost : own₁ b.toNat = .lost := by rw [hown₁, Function.update_self]
  have hlost' : own₁ ent.toNat = .lost := by
    rw [hown₁, Function.update_of_ne hne, Function.update_self]
  rw [← hown₁] at hnew
  have hnode₁ : own₁ node.toNat = .inode := (hnew.same _ .inode rfl).mpr hnode
  obtain ⟨y, hy⟩ : ∃ y, y = (v.new ent).new b := ⟨_, rfl⟩
  have hclear : y.disk ent.toNat = fun _ => 0 := by
    rw [hy]
    exact (Function.update_of_ne hne _ _).trans (Function.update_self _ _ _)
  rw [← hy] at hnew
  have hcached₁ : node ∈ y.inodeList := by rwa [hnew.list]
  have hdin : y.din node = (v.sin node).din := (hnew.din hnode).trans (din_cached hcached)
  have hzero₁ : (y.din node).indirect = 0 := by rwa [hnew.din hnode]
  -- the indirect block is attached, and then the entry is set
  obtain ⟨z, hz⟩ : ∃ z, z = y.setDin node ((v.sin node).din.setIndirect ent) := ⟨_, rfl⟩
  have hdinz : ∀ n, z.din n = if n = node then (v.sin node).din.setIndirect ent else y.din n := by
    intro n
    rw [hz]
    exact din_setDin hcached₁ _ n
  have hslotz : ∀ n i, z.slot n i = y.slot n i := by
    intro n i
    rw [hz, slot_setDin hcached₁]
    split
    next heq =>
      rw [DiskInode.slot_setIndirect _ _ (by rwa [← hdin]) hclear, heq, Volume.slot, hdin]
    next => rfl
  have hindexed : Sound (Function.update own₁ ent.toNat (.index node)) z := by
    apply hnew.sound.fillIndirect hnode₁ hzero₁ hlost' (by rw [hz]; rfl) (by rw [hz]; rfl) _
      fun n i _ => hslotz n i
    intro n _
    rw [hdinz]
    split
    · rfl
    · rfl
  obtain ⟨own₂, hown₂⟩ : ∃ own₂, own₂ = Function.update own₁ ent.toNat (.index node) := ⟨_, rfl⟩
  rw [← hown₂] at hindexed
  have hsame : ∀ x σ, σ ≠ .lost → σ ≠ .index node → (own₂ x = σ ↔ own₁ x = σ) := by
    intro x σ hσ hσ'
    rw [hown₂, Function.update_apply]
    split
    next heq => simp [heq, hlost', hσ.symm, hσ'.symm]
    next => rfl
  have hframed₁ : Framed node own₁ own₂ y z := by
    rw [hz] at hindexed ⊢
    exact .setSin hcached₁ hindexed (fun x => hsame x _ (by simp) (by simp)) fun x =>
      hsame x _ (by simp) (by simp)
  have hnode₂ : own₂ node.toNat = .inode := (hframed₁.inode _).mpr hnode₁
  have hlost₂ : own₂ b.toNat = .lost := by rw [hown₂, Function.update_of_ne hne.symm, hlost]
  have hent' : (z.din node).indirect = ent := by rw [hdinz, if_pos rfl]; rfl
  have hentne : ent ≠ 0 := (h.valid (by simp [(h.free _).mpr hent])).ne_zero
  have hempty : v.slot node j = 0 := DiskInode.slot_none _ _ hlow hzero
  have hempty₂ : z.slot node j = 0 := by rw [hslotz, hnew.slot h hnode, hempty]
  have hentered := hindexed.enter hnode₂ (by rwa [hent']) hlow hhigh hempty₂ hlost₂
  have hdisk : z.disk ent.toNat = (v.new ent).disk ent.toNat := by
    have hclear' : z.disk ent.toNat = fun _ => 0 := by rw [hz]; exact hclear
    have hcleared : (v.new ent).disk ent.toNat = fun _ => 0 := Function.update_self ent.toNat _ _
    rw [hclear', hcleared]
  rw [hent', hdisk] at hentered
  obtain ⟨hframed, hdin', hslot⟩ := hentered
  have hfinal : ((((v.new ent).new b).write ent.toNat
      (setWord ((v.new ent).disk ent.toNat) (j - SFS_NDIRECT) b)).tick 2).setDin node
        ((v.sin node).din.setIndirect ent) =
      (z.write ent.toNat (setWord ((v.new ent).disk ent.toNat) (j - SFS_NDIRECT) b)).tick 2 := by
    rw [hz, hy]
    rfl
  rw [hfinal]
  have hroom : v.loadRoom node j = 2 := if_pos ⟨hlow, hzero⟩
  have hbits := card_take hent
  have hbits' := card_take hb
  have hcard : (v.new ent).freemap.bits.card + 1 = v.freemap.bits.card := hbits
  have hself : z.sin node =
      { v.sin node with din := (v.sin node).din.setIndirect ent, dirty := true } := by
    rw [hz, hy]
    exact Function.update_self _ _ _
  -- the owners are those after the two steps
  refine ⟨_, {
    framed := (((hnew.framed h node).trans hframed₁).trans hframed).trans
      (Untouched.framed (.tick hframed.sound 2) hframed.sound node)
    fits := ⟨fun k hk => hio k (by rwa [loadIos_indirect hlow] at hk), by rw [hroom]; omega⟩
    empty := hempty
    ne_zero := (hindexed.valid (by simp [hlost₂])).ne_zero
    slot := fun i => (hslot i).trans (by rw [hslotz, hnew.slot h hnode])
    used := Function.update_self _ _ _
    lost := fun x hx => ?_
    din := ⟨_, _, by
      show (z.sin node).din = _
      rw [hself]
      rfl⟩
    indirect := ?_
    dirty := by
      rw [if_pos (.inr hzero)]
      show (z.sin node).dirty = _
      rw [hself]
    reclaim := by
      show (z.sin node).reclaimCount = _
      rw [hself]
    superDirty := by
      show z.superDirty = true
      rw [hz, hy]
      rfl
    room := ?_
    ios := by
      rw [loadIos_indirect hlow]
      show z.ios + 2 = _
      rw [hz, hy]
      rfl }⟩
  · by_cases hxb : x = b.toNat
    · simp [hxb] at hx
    · rw [Function.update_of_ne hxb, hown₂] at hx
      by_cases hxe : x = ent.toNat
      · simp [hxe] at hx
      · rwa [Function.update_of_ne hxe, hown₁, Function.update_of_ne hxb,
          Function.update_of_ne hxe] at hx
  · rw [if_neg (Nat.not_lt_of_le hlow)]
    show ((z.write _ _).din node).indirect ≠ 0
    rw [hdin', hent']
    exact hentne
  · rw [hroom]
    show z.freemap.bits.card + 2 = _
    have hz' : z.freemap = ((v.new ent).take b.toNat).freemap := by
      rw [hz, hy]
      rfl
    rw [hz']
    omega

/-! ## Failures -/

theorem update_back (h : Sound own v) (hb : b.toNat ∈ v.freemap.bits) :
    Function.update (Function.update own b.toNat .lost) b.toNat .free = own := by
  rw [Function.update_idem, ← (h.free _).mpr hb, Function.update_eq_self]

theorem give_take_freemap {w : Volume} (hb : b.toNat ∈ v.freemap.bits)
    (hfreemap : w.freemap = (v.take b.toNat).freemap) : (w.give b.toNat).freemap = v.freemap := by
  show w.freemap.set b.toNat = _
  rw [hfreemap]
  exact Bitmap.set_flip hb

theorem give_take_super {w : Volume} (hsuper : w.super = (v.take b.toNat).super) :
    (w.give b.toNat).super = v.super := by
  show { w.super with unusedBlocks := w.super.unusedBlocks + 1 } = _
  rw [hsuper]
  show { v.super with unusedBlocks := v.super.unusedBlocks - 1 + 1 } = _
  rw [BitVec.sub_add_cancel]

/-- A block that was cleared and is given back. -/
theorem Untouched.back (h : Sound own v) (hb : b.toNat ∈ v.freemap.bits) (k : Nat) :
    Untouched own own v (((v.new b).tick k).give b.toNat) := by
  have hnew := Untouched.new h hb
  have htick := hnew.trans (.tick hnew.sound k)
  have hgive := htick.trans (.give htick.sound (Function.update_self ..))
  rwa [update_back h hb] at hgive

theorem Missed.undone (h : Untouched own own v t) (hfreemap : t.freemap = v.freemap)
    (hsuper : t.super = v.super) (hclear : ¬ClearFails io v node j) : Missed io own v node j t :=
  ⟨own, h, .inl ⟨hclear, rfl, hfreemap, hsuper⟩⟩

theorem Missed.leaked (h : Untouched own own' v t)
    (hcard : t.freemap.bits.card < v.freemap.bits.card)
    (hclear : ClearFails io v node j) : Missed io own v node j t :=
  ⟨own', h, .inr ⟨hclear, hcard⟩⟩

/-- What `sfs_bmap_get_nolock` with `create` does. -/
def Got (io : Nat → Int) (own : Nat → Owner) (v : Volume) (node : BitVec 32) (j : Nat) :
    Except Int (BitVec 32) → Volume → Prop
  | .ok b, t => (b = v.slot node j ∧ v.slot node j ≠ 0 ∧ ∃ k, t = v.tick k) ∨
      ∃ own', Filled io own own' v t node j b
  | .error ret, t =>
      IsError io ret ∧ Missed io own v node j t ∧ (v.slot node j = 0 → ¬Fits io v node j)

theorem Filled.out (h : Filled io own own' v t node j b) :
    Ends never (bmapOut b) t fun r u => Got io own v node j r u := by
  have huse : t.InUse b := h.framed.sound.inUse (by simp [h.used]) (by simp [h.used])
  apply (bmapOut_spec h.framed.sound.covered (.inr huse)).imp
  rintro r u ⟨rfl, rfl⟩
  exact .inr ⟨own', h⟩

/-- A slot that has a block. -/
theorem Sound.out (h : Sound own v) (hnode : own node.toNat = .inode) (hne : v.slot node j ≠ 0)
    (k : Nat) : Ends never (bmapOut (v.slot node j))
    (v.tick k) fun r u => Got io own v node j r u := by
  have hdata := h.data_of hnode hne
  have huse : (v.tick k).InUse (v.slot node j) := (h.tick k).inUse (by simp [hdata])
    (by simp [hdata])
  apply (bmapOut_spec (h.tick k).covered (.inr huse)).imp
  rintro r u ⟨rfl, rfl⟩
  exact .inl ⟨rfl, hne, k, rfl⟩

theorem bmapGet_direct (h : Sound own v) (hnode : own node.toNat = .inode)
    (hcached : node ∈ v.inodeList) (hj : j < SFS_NDIRECT) :
    Ends never (sfsBmapGetNolock io node j true) v fun r t => Got io own v node j r t := by
  have hslot : v.slot node j = (v.sin node).din.direct ⟨j, hj⟩ := by
    rw [Volume.slot, din_cached hcached, DiskInode.slot, dif_pos hj]
  rw [sfsBmapGetNolock, ends_bind, ends_get]
  change Ends _ (if h : j < SFS_NDIRECT then _ else _) v _
  rw [dif_pos hj, ← hslot]
  by_cases hempty : v.slot node j = 0
  · rw [if_pos ⟨hempty, rfl⟩, ends_bind]
    have hroom : v.loadRoom node j = 1 := if_neg fun hin => Nat.not_lt_of_le hin.1 hj
    apply (sfsBlockAlloc_spec h).imp
    rintro r t (⟨rfl, hnone, rfl⟩ | ⟨b, hb, ⟨rfl, hio, rfl⟩ | ⟨rfl, hio, rfl⟩⟩)
    · refine ⟨.inl rfl, .undone (.refl h) rfl rfl fun hclear => hclear.room hnone,
        fun _ hfits => ?_⟩
      have := hfits.room
      rw [hroom, hnone, Finset.card_empty] at this
      omega
    · have htake := Untouched.take h hb
      have hcard := card_take hb
      refine ⟨.inr ⟨_, rfl, hio⟩, .leaked (htake.trans (.tick htake.sound 1))
        (show (v.take b.toNat).freemap.bits.card < _ by omega)
        ⟨hj.trans_le (Nat.le_add_right _ _), hempty, Finset.ne_empty_of_mem hb, by rwa [if_pos hj]⟩,
          fun _ hfits => ?_⟩
      exact hio (hfits.io 0 (by rw [loadIos, if_pos hj]; exact Nat.one_pos))
    · obtain ⟨own', hfilled⟩ := h.fill_direct hnode hcached hj hempty hb hio
      exact hfilled.out
  · rw [if_neg fun hand => hempty hand.1]
    exact h.out hnode hempty 0

/-- The indirect block is there. -/
theorem bmapGet_entry (h : Sound own v) (hnode : own node.toNat = .inode)
    (hcached : node ∈ v.inodeList) (hlow : SFS_NDIRECT ≤ j) (hhigh : j < maxBlocks)
    (hne : (v.din node).indirect ≠ 0) :
    Ends never (sfsBmapGetNolock io node j true) v fun r t => Got io own v node j r t := by
  have hindex : j - SFS_NDIRECT < SFS_BLK_NENTRY := by
    unfold maxBlocks at hhigh
    omega
  have hdin := din_cached hcached
  have hslot : v.slot node j = word (v.disk (v.din node).indirect.toNat) (j - SFS_NDIRECT) :=
    DiskInode.slot_indirect _ _ hlow hhigh hne
  have hent := h.index_of hnode hne
  have hoffset : 4 * (j - SFS_NDIRECT) + 4 ≤ SFS_BLKSIZE := by
    unfold SFS_BLK_NENTRY SFS_BLKSIZE at hindex
    unfold SFS_BLKSIZE
    omega
  have hnot : ¬j < SFS_NDIRECT := Nat.not_lt_of_le hlow
  have hroom : v.loadRoom node j = 1 := if_neg fun hin => hne hin.2
  rw [sfsBmapGetNolock, ends_bind, ends_get]
  change Ends _ (if h : j < SFS_NDIRECT then _ else _) v _
  rw [dif_neg hnot, if_pos hindex, ends_bind, ← hdin, sfsBmapGetSubNolock, ends_bind,
    ends_check hindex, if_pos hne, ends_bind]
  apply (sfsRbuf_spec (h.valid (by simp [hent])) (by omega) hoffset).imp
  rintro r t ⟨rfl, hread⟩
  cases r with
  | error ret =>
      -- the indirect block cannot be read
      obtain ⟨rfl, hio⟩ := hread
      refine ⟨.inr ⟨_, rfl, hio⟩, .undone (.tick h 1) rfl rfl fun hclear => ?_, fun _ hfits => ?_⟩
      · have := hclear.fails
        rw [if_neg hnot, if_pos hne] at this
        exact hio this.1
      · exact hio (hfits.io 0 (by rw [loadIos_indirect hlow]; omega))
  | ok buf =>
      obtain ⟨hio, rfl⟩ := hread
      have hword :
          word (fun k => v.disk (v.din node).indirect.toNat (4 * (j - SFS_NDIRECT) + k)) 0 =
            v.slot node j := by
        rw [hslot]
        rfl
      simp only
      rw [hword]
      -- an index that has no block gets one; the others are only looked up
      by_cases hempty : v.slot node j = 0
      · rw [if_neg (by simp [hempty])]
        have hsub := @allocSub_spec io own (v.tick 1) (v.din node).indirect (v.din node).indirect _
          (h.tick 1) (by simp [hent]) (by simp [hent]) hindex
        apply hsub.imp
        have hundo : ∀ w : Volume, w.undo (v.din node).indirect (v.din node).indirect = w :=
          fun w => if_neg (not_not.mpr rfl)
        simp only [hundo]
        rintro r t (⟨rfl, hnone, rfl⟩ | ⟨b, hb,
          ⟨rfl, hio', rfl⟩ | ⟨k, rfl, hio', hk, hne', rfl⟩ | hok⟩)
        · have hnone : v.freemap.bits = ∅ := hnone
          refine ⟨.inl rfl, .undone (.tick h 1) rfl rfl fun hclear => hclear.room hnone,
            fun _ hfits => ?_⟩
          have := hfits.room
          rw [hroom, hnone, Finset.card_empty] at this
          omega
        · have htick := Untouched.tick h 1
          have htake := htick.trans (.take htick.sound hb)
          have hcard := @card_take v _ hb
          refine ⟨.inr ⟨_, rfl, hio'⟩, .leaked (htake.trans (.tick htake.sound 1))
            (show (v.take b.toNat).freemap.bits.card < _ by omega)
            ⟨hhigh, hempty, Finset.ne_empty_of_mem (s := v.freemap.bits) hb, ?_⟩, fun _ hfits => ?_⟩
          · rw [if_neg hnot, if_pos hne]
            exact ⟨hio, hio'⟩
          · exact hio' (hfits.io 1 (by rw [loadIos_indirect hlow]; omega))
        · refine ⟨.inr ⟨_, rfl, hne'⟩,
            .undone ((Untouched.tick h 1).trans (.back (h.tick 1) hb (k + 1)))
            (give_take_freemap hb rfl) (give_take_super rfl) fun hclear => ?_, fun _ hfits => ?_⟩
          · have := hclear.fails
            rw [if_neg hnot, if_pos hne] at this
            exact this.2 hio'
          · apply hne'
            have hzero := hfits.io (k + 2) (by rw [loadIos_indirect hlow]; omega)
            rw [show v.ios + (k + 2) = v.ios + 1 + 1 + k by omega] at hzero
            exact hzero
        · obtain ⟨rfl, hio₁, hio₂, hio₃, rfl⟩ := hok
          simp only
          rw [if_neg (not_not.mpr rfl)]
          have hall : ∀ k < 4, io (v.ios + k) = 0 := by
            intro k hk
            rcases (by omega : k = 0 ∨ k = 1 ∨ k = 2 ∨ k = 3) with rfl | rfl | rfl | rfl
            · exact hio
            · exact hio₁
            · exact hio₂
            · exact hio₃
          obtain ⟨own', hfilled⟩ := h.fill_entry hnode hne hlow hhigh hempty hb hall
          exact hfilled.out
      · rw [if_pos (.inl hempty), ends_pure]
        simp only
        rw [if_neg (not_not.mpr rfl)]
        exact h.out hnode hempty 1

/-- The indirect block is allocated too. -/
theorem bmapGet_indirect (h : Sound own v) (hnode : own node.toNat = .inode)
    (hcached : node ∈ v.inodeList) (hlow : SFS_NDIRECT ≤ j) (hhigh : j < maxBlocks)
    (hzero : (v.din node).indirect = 0) :
    Ends never (sfsBmapGetNolock io node j true) v fun r t => Got io own v node j r t := by
  have hindex : j - SFS_NDIRECT < SFS_BLK_NENTRY := by
    unfold maxBlocks at hhigh
    omega
  have hdin := din_cached hcached
  have hempty : v.slot node j = 0 := DiskInode.slot_none _ _ hlow hzero
  have hnot : ¬j < SFS_NDIRECT := Nat.not_lt_of_le hlow
  have hroom : v.loadRoom node j = 2 := if_pos ⟨hlow, hzero⟩
  have hzero' : (v.sin node).din.indirect = 0 := by rwa [← hdin]
  rw [sfsBmapGetNolock, ends_bind, ends_get]
  change Ends _ (if h : j < SFS_NDIRECT then _ else _) v _
  rw [dif_neg hnot, if_pos hindex, ends_bind, hzero', sfsBmapGetSubNolock, ends_bind,
    ends_check hindex, if_neg (not_not.mpr rfl), if_neg (by simp), ends_bind]
  apply (sfsBlockAlloc_spec h).imp
  rintro r t (⟨rfl, hnone, rfl⟩ | ⟨ent, hent, ⟨rfl, hio, rfl⟩ | ⟨rfl, hio, rfl⟩⟩)
  · refine ⟨.inl rfl, .undone (.refl h) rfl rfl fun hclear => hclear.room hnone, fun _ hfits => ?_⟩
    have := hfits.room
    rw [hroom, hnone, Finset.card_empty] at this
    omega
  · -- the new indirect block could not be cleared, and is lost
    have htake := Untouched.take h hent
    have hcard := card_take hent
    refine ⟨.inr ⟨_, rfl, hio⟩, .leaked (htake.trans (.tick htake.sound 1))
      (show (v.take ent.toNat).freemap.bits.card < _ by omega)
      ⟨hhigh, hempty, Finset.ne_empty_of_mem hent, ?_⟩, fun _ hfits => ?_⟩
    · rw [if_neg hnot, if_neg (not_not.mpr hzero)]
      exact .inl hio
    · exact hio (hfits.io 0 (by rw [loadIos_indirect hlow]; omega))
  · have hnew := Untouched.new h hent
    have hlost : Function.update own ent.toNat .lost ent.toNat = .lost := Function.update_self ..
    have hentne : ent ≠ 0 := (h.valid (by simp [(h.free _).mpr hent])).ne_zero
    have hfirst := card_take hent
    have hsub := @allocSub_spec io _ (v.new ent) 0 ent _ hnew.sound (by simp) (by simp) hindex
    have hundo : ∀ w : Volume, w.undo 0 ent = w.give ent.toNat := fun w => if_pos hentne
    simp only [hundo] at hsub
    apply hsub.imp
    rintro r t (⟨rfl, hnone, rfl⟩ | ⟨b, hb, hr⟩)
    · -- there is no second block: the first one is given back
      have hone : v.freemap.bits.card = 1 := by
        have : (v.take ent.toNat).freemap.bits.card = 0 := Finset.card_eq_zero.mpr hnone
        omega
      refine ⟨.inl rfl, .undone (.back h hent 0) (give_take_freemap hent rfl) (give_take_super rfl)
        fun hclear => ?_, fun _ hfits => ?_⟩
      · have := hclear.fails
        rw [if_neg hnot, if_neg (not_not.mpr hzero), hone] at this
        rcases this with hfail | hfail
        · exact hfail hio
        · exact absurd hfail.1 (Nat.lt_irrefl 1)
      · have := hfits.room
        rw [hroom] at this
        omega
    · have hne : ent.toNat ≠ b.toNat := by
        intro heq
        rw [← heq, ← hnew.sound.free, hlost] at hb
        cases hb
      have hsecond := card_take hb
      have hcard : (v.new ent).freemap.bits.card + 1 = v.freemap.bits.card := hfirst
      rcases hr with ⟨rfl, hio', rfl⟩ | ⟨k, rfl, hio', hk, hne', rfl⟩ | ⟨rfl, hio₁, hio₂, hio₃, rfl⟩
      · -- the data block is lost, the indirect block is not
        have htake := hnew.trans (.take hnew.sound hb)
        have htick := htake.trans (.tick htake.sound 1)
        have hlost' : Function.update (Function.update own ent.toNat .lost) b.toNat
            .lost ent.toNat =
            .lost := by rw [Function.update_of_ne hne, hlost]
        have hgive := htick.trans (.give htick.sound hlost')
        have hbits : (v.freemap.flip ent.toNat).set ent.toNat = v.freemap := Bitmap.set_flip hent
        refine ⟨.inr ⟨_, rfl, hio'⟩,
          .leaked hgive ?_ ⟨hhigh, hempty, Finset.ne_empty_of_mem hent, ?_⟩, fun _ hfits => ?_⟩
        · have hlt : ent.toNat < ((v.new ent).take b.toNat).freemap.nbits :=
            Nat.lt_of_lt_of_le (hgive.sound.range ent.toNat (by simp)).2 hgive.sound.covered
          show (((v.new ent).take b.toNat).freemap.set ent.toNat).bits.card < _
          rw [Bitmap.bits_set hlt]
          have := Finset.card_insert_le ent.toNat ((v.new ent).take b.toNat).freemap.bits
          omega
        · rw [if_neg hnot, if_neg (not_not.mpr hzero)]
          exact .inr ⟨by omega, hio'⟩
        · exact hio' (hfits.io 1 (by rw [loadIos_indirect hlow]; omega))
      · -- the number could not be written: both blocks are given back
        have hback := hnew.trans (.back hnew.sound hb (k + 1))
        have hgive := hback.trans (.give hback.sound hlost)
        rw [update_back h hent] at hgive
        refine ⟨.inr ⟨_, rfl, hne'⟩,
          .undone hgive (give_take_freemap hent (give_take_freemap hb rfl))
          (give_take_super (give_take_super rfl)) fun hclear => ?_, fun _ hfits => ?_⟩
        · have := hclear.fails
          rw [if_neg hnot, if_neg (not_not.mpr hzero)] at this
          rcases this with hfail | hfail
          · exact hfail hio
          · exact hfail.2 hio'
        · apply hne'
          have hserved := hfits.io (k + 2) (by rw [loadIos_indirect hlow]; omega)
          rw [show v.ios + (k + 2) = v.ios + 1 + 1 + k by omega] at hserved
          exact hserved
      · have hall : ∀ k < 4, io (v.ios + k) = 0 := by
          intro k hk
          rcases (by omega : k = 0 ∨ k = 1 ∨ k = 2 ∨ k = 3) with rfl | rfl | rfl | rfl
          · exact hio
          · exact hio₁
          · exact hio₂
          · exact hio₃
        obtain ⟨own', hfilled⟩ := h.fill_indirect hnode hcached hzero hlow hhigh hent hb hall
        simp only
        rw [if_pos hentne, ends_bind, ends_check rfl, ends_bind, ends_modify]
        exact hfilled.out

theorem sfsBmapGetNolock_create (h : Sound own v) (hnode : own node.toNat = .inode)
    (hcached : node ∈ v.inodeList) (hj : j < maxBlocks) :
    Ends never (sfsBmapGetNolock io node j true) v fun r t => Got io own v node j r t := by
  by_cases hlow : j < SFS_NDIRECT
  · exact bmapGet_direct h hnode hcached hlow
  · have hlow := Nat.le_of_not_lt hlow
    by_cases hzero : (v.din node).indirect = 0
    · exact bmapGet_indirect h hnode hcached hlow hj hzero
    · exact bmapGet_entry h hnode hcached hlow hj hzero

/-! ## Atomicity -/

theorem ClearFails.not_fits (h : ClearFails io v node j) : ¬Fits io v node j := by
  intro hfits
  have hfails := h.fails
  have hio : ∀ k < loadIos j, io (v.ios + k) = 0 := hfits.io
  have hlow : ¬j < SFS_NDIRECT → 1 < loadIos j := fun hnot => by
    rw [loadIos_indirect (Nat.le_of_not_lt hnot)]
    omega
  split at hfails
  next hdirect => exact hfails (hio 0 (by rw [loadIos, if_pos hdirect]; exact Nat.one_pos))
  next hnot =>
    split at hfails
    · exact hfails.2 (hio 1 (hlow hnot))
    · rcases hfails with hfail | hfail
      · exact hfail (hio 0 (Nat.zero_lt_of_lt (hlow hnot)))
      · exact hfail.2 (hio 1 (hlow hnot))

/-- The freemap, the count of free blocks, the inode and the indirect blocks are as before. -/
structure Restored (own : Nat → Owner) (v : Volume) (node : BitVec 32) (t : Volume) : Prop where
  freemap : t.freemap = v.freemap
  unused : t.super.unusedBlocks = v.super.unusedBlocks
  din : (t.sin node).din = (v.sin node).din
  indirect : ∀ b n, own b = .index n → t.disk b = v.disk b

/-- A failed call leaves things as they were: the freemap and the count of free blocks, the inode,
and the indirect blocks of all the inodes. -/
def FailsCleanly (io : Nat → Int) (own : Nat → Owner) (v : Volume) (node : BitVec 32)
    (index : Nat) : Prop :=
  ∀ ret t, sfsBmapGetNolock io node index true v = .ok (.error ret, t) → Restored own v node t

theorem ClearFails.leaks (h : Sound own v) (hnode : own node.toNat = .inode)
    (hcached : node ∈ v.inodeList) (hclear : ClearFails io v node j) :
    ¬FailsCleanly io own v node j := by
  intro hclean
  obtain ⟨r, t, hrun, hgot⟩ := (@sfsBmapGetNolock_create io _ _ _ _ h hnode hcached hclear.range).ok
  cases r with
  | ok b =>
      rcases hgot with ⟨_, hne, _⟩ | ⟨own', hfilled⟩
      · exact hne hclear.empty
      · exact hclear.not_fits hfilled.fits
  | error ret =>
      obtain ⟨_, ⟨own', _, hout⟩, _⟩ := hgot
      rcases hout with ⟨hno, _⟩ | ⟨_, hcard⟩
      · exact hno hclear
      · rw [(hclean ret t hrun).freemap] at hcard
        exact Nat.lt_irrefl _ hcard

/-- Whatever the inode, the index and the failures of the device: a failed allocation is
undone exactly if it is not the clearing of a new block that failed. -/
theorem bmapGet_failsCleanly_iff (h : Sound own v) (hnode : own node.toNat = .inode)
    (hcached : node ∈ v.inodeList) (index : Nat) :
    FailsCleanly io own v node index ↔ ¬ClearFails io v node index := by
  refine ⟨fun hclean hclear => hclear.leaks h hnode hcached hclean, fun hclear ret t hrun => ?_⟩
  by_cases hindex : index < maxBlocks
  · have hgot := @sfsBmapGetNolock_create io _ _ _ _ h hnode hcached hindex
    replace hgot := hgot.post hrun
    obtain ⟨_, ⟨own', huntouched, hout⟩, _⟩ := hgot
    rcases hout with ⟨_, _, hfreemap, hsuper⟩ | ⟨hfail, _⟩
    · exact {
        freemap := hfreemap
        unused := by rw [hsuper]
        din := by rw [huntouched.sin]
        indirect := fun b n hb => huntouched.disk b (by rw [hb]; rfl) }
    · exact absurd hfail hclear
  · -- past the indirect block there is no return
    rw [sfsBmapGetNolock] at hrun
    have hnot : ¬index < SFS_NDIRECT := by
      unfold maxBlocks at hindex
      omega
    have hout : ¬index - SFS_NDIRECT < SFS_BLK_NENTRY := by
      unfold maxBlocks at hindex
      omega
    have hends : Ends (fun _ => True) (sfsBmapGetNolock io node index true) v fun _ _ => False := by
      rw [sfsBmapGetNolock, ends_bind, ends_get]
      change Ends _ (if h : index < SFS_NDIRECT then _ else _) v _
      rw [dif_neg hnot, if_neg hout, ends_throw]
      trivial
    unfold Ends at hends
    rw [sfsBmapGetNolock, hrun] at hends
    exact hends.elim

/-- A disk that refuses a write. -/
theorem bmapGet_loses_block : ¬ ∀ (io : Nat → Int) (own : Nat → Owner) (v : Volume)
    (node : BitVec 32), Sound own v → own node.toNat = .inode → node ∈ v.inodeList → ∀ index,
      FailsCleanly io own v node index := by
  intro hclaim
  have hsound := @newVolume_sound 1 (by decide) (by decide)
  have hclear : ClearFails (fun _ => -1) (newVolume 1) 3 0 := {
    range := by decide
    empty := (newVolume_slot 1 3 0 rfl).1
    room := by
      rw [newVolume_bits]
      decide
    fails := by decide }
  exact hclear.leaks hsound rfl (List.mem_singleton.mpr rfl)
    (hclaim _ _ _ 3 hsound rfl (List.mem_singleton.mpr rfl) 0)

/-- A file gets its indirect block, and the device then refuses to read it. -/
theorem indirect_unread : yields (sfsBmapGetNolock (fun _ => 0) 3 12 true) (newVolume 1) (fun r t =>
    r.toOption.isSome && yields (sfsBmapGetNolock (fun _ => -1) 3 13 true) t fun r _ =>
      !r.toOption.isSome) = true := by
  decide +kernel

/-- A call that cannot read the indirect block leaves things as they were. -/
theorem bmapGet_failsCleanly_unread : ∃ own r t ret u,
    sfsBmapGetNolock (fun _ => 0) 3 12 true (newVolume 1) = .ok (r, t) ∧
    sfsBmapGetNolock (fun _ => -1) 3 13 true t = .ok (.error ret, u) ∧ Restored own t 3 u := by
  have hsound := @newVolume_sound 1 (by decide) (by decide)
  have hlisted : (3 : BitVec 32) ∈ (newVolume 1).inodeList := List.mem_singleton.mpr rfl
  have hcreate : Ends never (sfsBmapGetNolock (fun _ => 0) 3 12 true) (newVolume 1) fun r t =>
      Got (fun _ => 0) (newOwner 1) (newVolume 1) 3 12 r t :=
    sfsBmapGetNolock_create hsound rfl hlisted (by decide)
  obtain ⟨r, t, hrun, hgot, hyields⟩ := hcreate.met indirect_unread
  obtain ⟨hsome, hyields⟩ := Bool.and_eq_true_iff.mp hyields
  cases r with
  | error ret => cases hsome
  | ok b =>
      rcases hgot with ⟨_, hne, _⟩ | ⟨own', hfilled⟩
      · exact absurd (newVolume_slot 1 3 12 rfl).1 hne
      · have hframed := hfilled.framed
        have hclean : FailsCleanly (fun _ => -1) own' t 3 13 := by
          have hnode : own' (3 : BitVec 32).toNat = .inode := (hframed.inode 3).mpr rfl
          refine (bmapGet_failsCleanly_iff hframed.sound hnode (hframed.list ▸ hlisted)
            13).mpr fun hclear => ?_
          have hindirect : (t.din 3).indirect ≠ 0 := hfilled.indirect
          have hfails := hclear.fails
          rw [if_neg (by decide), if_pos hindirect] at hfails
          exact absurd hfails.1 (by decide)
        obtain ⟨r, u, hrun', hnone⟩ := (Ends.of_yields hyields).ok
        cases r with
        | error ret => exact ⟨own', _, t, ret, u, hrun, hrun', hclean ret u hrun'⟩
        | ok b => cases hnone

end Ucore.Sfs
