import Mathlib.Order.Interval.Finset.Nat
import Ucore.Sfs.Truncate

/-!
# What the blocks of a volume are used for

Every block is free, belongs to the volume itself, holds an inode, is the indirect block of
an inode or is behind one slot of one inode; or it is lost: in use, and nothing refers to
it. `Sound` says that the freemap, the superblock and the block maps agree with this, for
the inodes in memory and for those on the disk.
-/

namespace Ucore.Sfs

open Machine

/-- What a block is used for. A lost one is neither free nor part of anything: it was allocated,
and what was to hold its number was not written. -/
inductive Owner
  | free
  | fixed
  | inode
  | lost
  | index (node : BitVec 32)
  | data (node : BitVec 32) (i : Nat)
  deriving DecidableEq, Repr

/-- Neither in the block map of an inode nor needed to find it. -/
def Owner.idle : Owner → Bool
  | .free => true
  | .lost => true
  | _ => false

/-- The number in slot `i` of an inode. -/
def DiskInode.slot (din : DiskInode) (disk : Blocks) (i : Nat) : BitVec 32 :=
  if h : i < SFS_NDIRECT then din.direct ⟨i, h⟩
  else if din.indirect ≠ 0 ∧ i < maxBlocks then word (disk din.indirect.toNat) (i - SFS_NDIRECT)
  else 0

/-- An inode, in memory or on the disk. -/
def Volume.din (v : Volume) (node : BitVec 32) : DiskInode :=
  if node ∈ v.inodeList then (v.sin node).din else .ofBytes (v.disk node.toNat)

def Volume.slot (v : Volume) (node : BitVec 32) (i : Nat) : BitVec 32 := (v.din node).slot v.disk i

/-- Each block of the volume has the owner that the freemap, the inodes and their index blocks say
it has, and the count of unused blocks is right. -/
structure Sound (own : Nat → Owner) (v : Volume) : Prop where
  words : v.freemap.nbits = v.freemap.nwords * 32
  covered : v.Covered
  small : v.super.blocks.toNat ≤ 2 ^ 20
  unused : v.super.unusedBlocks.toNat = v.freemap.bits.card
  free : ∀ b, own b = .free ↔ b ∈ v.freemap.bits
  range : ∀ b, own b ≠ .fixed → 0 < b ∧ b < v.super.blocks.toNat
  index : ∀ b node, own b = .index node ↔
    own node.toNat = .inode ∧ (v.din node).indirect.toNat = b ∧ b ≠ 0
  data : ∀ b node i, own b = .data node i ↔
    own node.toNat = .inode ∧ (v.slot node i).toNat = b ∧ b ≠ 0

variable {own own' : Nat → Owner} {v t : Volume} {node n b : BitVec 32} {i j : Nat}

theorem ne_zero_of_toNat (hne : b.toNat ≠ 0) : b ≠ 0 := fun hzero => hne (by rw [hzero]; rfl)

theorem toNat_ne_zero (hne : b ≠ 0) : b.toNat ≠ 0 := fun hzero => hne (BitVec.eq_of_toNat_eq hzero)

theorem update_idle {ρ : Owner} {x : Nat} (hold : (own x).idle = true) (hnew : ρ.idle = true)
    (y : Nat) (σ : Owner) (hσ : σ.idle = false) :
    Function.update own x ρ y = σ ↔ own y = σ := by
  rw [Function.update_apply]
  split
  case isTrue heq =>
    rw [heq]
    constructor
    · rintro rfl
      rw [hσ] at hnew
      cases hnew
    · rintro rfl
      rw [hσ] at hold
      cases hold
  case isFalse => rfl

namespace Sound

theorem index_of (h : Sound own v) (hnode : own node.toNat = .inode)
    (hne : (v.din node).indirect ≠ 0) : own (v.din node).indirect.toNat = .index node :=
  (h.index _ _).mpr ⟨hnode, rfl, toNat_ne_zero hne⟩

theorem data_of (h : Sound own v) (hnode : own node.toNat = .inode) (hne : v.slot node i ≠ 0) :
    own (v.slot node i).toNat = .data node i :=
  (h.data _ _ _).mpr ⟨hnode, rfl, toNat_ne_zero hne⟩

theorem valid (h : Sound own v) (hb : own b.toNat ≠ .fixed) : v.Valid b := by
  obtain ⟨hpos, hlt⟩ := h.range _ hb
  exact ⟨ne_zero_of_toNat (by omega), hlt, Nat.lt_of_lt_of_le hlt h.small⟩

theorem inUse (h : Sound own v) (hb : own b.toNat ≠ .fixed) (hused : own b.toNat ≠ .free) :
    v.InUse b := by
  obtain ⟨hne, hlt, _⟩ := h.valid hb
  exact ⟨hne, hlt, fun hmem => hused ((h.free _).mpr hmem)⟩

/-- What has no influence on `Sound`. -/
theorem congr (h : Sound own v) (hsuper : t.super = v.super) (hfreemap : t.freemap = v.freemap)
    (hindirect : ∀ n, own n.toNat = .inode → (t.din n).indirect = (v.din n).indirect)
    (hslot : ∀ n i, own n.toNat = .inode → t.slot n i = v.slot n i) : Sound own t where
  words := by rw [hfreemap]; exact h.words
  covered := by
    unfold Volume.Covered
    rw [hsuper, hfreemap]
    exact h.covered
  small := by rw [hsuper]; exact h.small
  unused := by rw [hsuper, hfreemap]; exact h.unused
  free b := by rw [hfreemap]; exact h.free b
  range b := by rw [hsuper]; exact h.range b
  index b node := by
    rw [h.index]
    exact and_congr_right fun hnode => by rw [hindirect node hnode]
  data b node i := by
    rw [h.data]
    exact and_congr_right fun hnode => by rw [hslot node i hnode]

end Sound

/-! ## Taking a block and giving it back -/

/-- A free block is in use. -/
def Volume.take (v : Volume) (b : Nat) : Volume :=
  { v with
    freemap := v.freemap.flip b
    super := { v.super with unusedBlocks := v.super.unusedBlocks - 1 }
    superDirty := true }

def Volume.give (v : Volume) (b : Nat) : Volume :=
  { v with
    freemap := v.freemap.set b
    super := { v.super with unusedBlocks := v.super.unusedBlocks + 1 }
    superDirty := true }

/-- New contents of a block. -/
def Volume.write (v : Volume) (b : Nat) (bytes : Bytes) : Volume :=
  { v with disk := Function.update v.disk b bytes }

def Volume.tick (v : Volume) (n : Nat) : Volume := { v with ios := v.ios + n }

namespace Sound

theorem tick (h : Sound own v) (n : Nat) : Sound own (v.tick n) :=
  h.congr rfl rfl (fun _ _ => rfl) fun _ _ _ => rfl

theorem unused_pos (h : Sound own v) {x : Nat} (hx : x ∈ v.freemap.bits) :
    0 < v.super.unusedBlocks.toNat := by
  rw [h.unused]
  exact Finset.card_pos.mpr ⟨x, hx⟩

theorem take (h : Sound own v) {x : Nat} (hx : x ∈ v.freemap.bits) :
    Sound (Function.update own x .lost) (v.take x) := by
  have hfree := (h.free x).mpr hx
  have hkeep := @update_idle own .lost x (by rw [hfree]; rfl) rfl
  have hpos := h.unused_pos hx
  refine ⟨h.words, h.covered, h.small, ?_, fun y => ?_, fun y hy => ?_, fun y n =>
    ?_, fun y n i => ?_⟩
  · show (v.super.unusedBlocks - 1).toNat = (v.freemap.flip x).bits.card
    have hone : (1 : BitVec 32).toNat = 1 := rfl
    rw [Bitmap.bits_flip hx, Finset.card_erase_of_mem hx, ← h.unused, BitVec.toNat_sub, hone]
    omega
  · show _ ↔ y ∈ (v.freemap.flip x).bits
    rw [Bitmap.bits_flip hx, Finset.mem_erase, ← h.free, Function.update_apply]
    by_cases hyx : y = x
    · simp [hyx]
    · simp [hyx]
  · apply h.range
    by_cases hyx : y = x
    · simp [hyx, hfree]
    · rwa [Function.update_of_ne hyx] at hy
  · rw [hkeep y (.index n) rfl, hkeep n.toNat .inode rfl]
    exact h.index y n
  · rw [hkeep y (.data n i) rfl, hkeep n.toNat .inode rfl]
    exact h.data y n i

theorem give (h : Sound own v) {x : Nat} (hx : own x = .lost) :
    Sound (Function.update own x .free) (v.give x) := by
  have hkeep := @update_idle own .free x (by rw [hx]; rfl) rfl
  obtain ⟨_, hlt⟩ := h.range x (by simp [hx])
  have hbit : x < v.freemap.nbits := Nat.lt_of_lt_of_le hlt h.covered
  have hnot : x ∉ v.freemap.bits := by
    rw [← h.free, hx]
    simp
  have hcard : (insert x v.freemap.bits).card ≤ 2 ^ 20 := by
    have hsub : insert x v.freemap.bits ⊆ Finset.range v.super.blocks.toNat := by
      intro y hy
      rw [Finset.mem_range]
      rcases Finset.mem_insert.mp hy with rfl | hy
      · exact hlt
      · exact (h.range y (by simp [(h.free y).mpr hy])).2
    have := Finset.card_le_card hsub
    rw [Finset.card_range] at this
    exact this.trans h.small
  refine ⟨h.words, h.covered, h.small, ?_, fun y => ?_, fun y hy => ?_, fun y n =>
    ?_, fun y n i => ?_⟩
  · show (v.super.unusedBlocks + 1).toNat = (v.freemap.set x).bits.card
    rw [Finset.card_insert_of_notMem hnot] at hcard
    rw [Bitmap.bits_set hbit, Finset.card_insert_of_notMem hnot, ← h.unused, BitVec.toNat_add]
    rw [← h.unused] at hcard
    have hone : (1 : BitVec 32).toNat = 1 := rfl
    rw [hone]
    omega
  · show _ ↔ y ∈ (v.freemap.set x).bits
    rw [Bitmap.bits_set hbit, Finset.mem_insert, ← h.free, Function.update_apply]
    by_cases hyx : y = x
    · simp [hyx]
    · simp [hyx]
  · apply h.range
    by_cases hyx : y = x
    · simp [hyx, hx]
    · rwa [Function.update_of_ne hyx] at hy
  · rw [hkeep y (.index n) rfl, hkeep n.toNat .inode rfl]
    exact h.index y n
  · rw [hkeep y (.data n i) rfl, hkeep n.toNat .inode rfl]
    exact h.data y n i

/-- Blocks that are neither an inode nor an indirect block have no influence. -/
theorem write (h : Sound own v) {x : Nat} (hinode : own x ≠ .inode) (hindex : ∀ n, own x ≠ .index n)
    (bytes : Bytes) : (∀ n, own n.toNat = .inode → (v.write x bytes).din n = v.din n) ∧
      (∀ n i, own n.toNat = .inode → (v.write x bytes).slot n i = v.slot n i) ∧
        Sound own (v.write x bytes) := by
  have hdin : ∀ n, own n.toNat = .inode → (v.write x bytes).din n = v.din n := by
    intro n hn
    have hne : n.toNat ≠ x := by
      rintro rfl
      exact hinode hn
    have hdisk : (v.write x bytes).disk n.toNat = v.disk n.toNat := Function.update_of_ne hne _ _
    unfold Volume.din
    rw [hdisk]
    rfl
  have hslot : ∀ n i, own n.toNat = .inode → (v.write x bytes).slot n i = v.slot n i := by
    intro n i hn
    rw [Volume.slot, Volume.slot, hdin n hn, DiskInode.slot, DiskInode.slot]
    split
    · rfl
    · split
      next hin =>
        have hne : (v.din n).indirect.toNat ≠ x := by
          rintro rfl
          exact hindex n (h.index_of hn hin.1)
        have hdisk : (v.write x bytes).disk (v.din n).indirect.toNat =
            v.disk (v.din n).indirect.toNat := Function.update_of_ne hne _ _
        rw [hdisk]
      next => rfl
  exact ⟨hdin, hslot, h.congr rfl rfl (fun n hn => by rw [hdin n hn]) hslot⟩

end Sound

/-! ## Changing the block map -/

namespace Sound

/-- A slot that was empty gets a block. -/
theorem fillSlot (h : Sound own v) (hnode : own node.toNat = .inode) (hempty : v.slot node j = 0)
    (hb : own b.toNat = .lost) (hsuper : t.super = v.super) (hfreemap : t.freemap = v.freemap)
    (hindirect : ∀ n, own n.toNat = .inode → (t.din n).indirect = (v.din n).indirect)
    (hslot : ∀ n i, own n.toNat = .inode →
      t.slot n i = if n = node ∧ i = j then b else v.slot n i) :
    Sound (Function.update own b.toNat (.data node j)) t := by
  have hne : b.toNat ≠ 0 := by
    have := (h.range b.toNat (by simp [hb])).1
    omega
  have hkeep : ∀ x σ, σ ≠ .lost → σ ≠ .data node j →
      (Function.update own b.toNat (.data node j) x = σ ↔ own x = σ) := by
    intro x σ hlost hdata
    rw [Function.update_apply]
    split
    next heq => simp [heq, hb, hlost.symm, hdata.symm]
    next => rfl
  refine ⟨by rw [hfreemap]; exact h.words, ?_, by rw [hsuper]; exact h.small,
    by rw [hsuper, hfreemap]; exact h.unused, fun x => ?_, fun x hx => ?_, fun x n => ?_,
    fun x n i => ?_⟩
  · unfold Volume.Covered
    rw [hsuper, hfreemap]
    exact h.covered
  · rw [hkeep x .free (by simp) (by simp), hfreemap]
    exact h.free x
  · rw [hsuper]
    exact h.range x fun hfixed => hx ((hkeep x .fixed (by simp) (by simp)).mpr hfixed)
  · rw [hkeep x (.index n) (by simp) (by simp), hkeep n.toNat .inode (by simp) (by simp), h.index]
    exact and_congr_right fun hn => by rw [hindirect n hn]
  · rw [hkeep n.toNat .inode (by simp) (by simp), Function.update_apply]
    split
    next heq =>
      subst heq
      constructor
      · rintro hslotted
        obtain ⟨rfl, rfl⟩ := Owner.data.inj hslotted
        exact ⟨hnode, by rw [hslot _ _ hnode, if_pos ⟨rfl, rfl⟩], hne⟩
      · rintro ⟨hn, hnumber, _⟩
        rw [hslot n i hn] at hnumber
        split at hnumber
        next hsame => rw [hsame.1, hsame.2]
        next =>
          -- no slot refers to a block that is lost
          have hdata := (h.data b.toNat n i).mpr ⟨hn, hnumber, hne⟩
          rw [hb] at hdata
          cases hdata
    next hx =>
      rw [h.data]
      refine and_congr_right fun hn => ?_
      rw [hslot n i hn]
      split
      next hsame =>
        rw [hsame.1, hsame.2, hempty]
        exact iff_of_false (fun hzero => hzero.2 hzero.1.symm) fun heq => hx heq.1.symm
      next => rfl

/-- A slot is cleared; its block is not referred to any more. -/
theorem clearSlot (h : Sound own v) (hnode : own node.toNat = .inode) (hfull : v.slot node j ≠ 0)
    (hsuper : t.super = v.super) (hfreemap : t.freemap = v.freemap)
    (hindirect : ∀ n, own n.toNat = .inode → (t.din n).indirect = (v.din n).indirect)
    (hslot : ∀ n i, own n.toNat = .inode →
      t.slot n i = if n = node ∧ i = j then 0 else v.slot n i) :
    Sound (Function.update own (v.slot node j).toNat .lost) t := by
  have hb := h.data_of hnode hfull
  have hkeep : ∀ x σ, σ ≠ .lost → σ ≠ .data node j →
      (Function.update own (v.slot node j).toNat .lost x = σ ↔ own x = σ) := by
    intro x σ hlost hdata
    rw [Function.update_apply]
    split
    next heq => simp [heq, hb, hlost.symm, hdata.symm]
    next => rfl
  refine ⟨by rw [hfreemap]; exact h.words, ?_, by rw [hsuper]; exact h.small,
    by rw [hsuper, hfreemap]; exact h.unused, fun x => ?_, fun x hx => ?_, fun x n => ?_,
    fun x n i => ?_⟩
  · unfold Volume.Covered
    rw [hsuper, hfreemap]
    exact h.covered
  · rw [hkeep x .free (by simp) (by simp), hfreemap]
    exact h.free x
  · rw [hsuper]
    exact h.range x fun hfixed => hx ((hkeep x .fixed (by simp) (by simp)).mpr hfixed)
  · rw [hkeep x (.index n) (by simp) (by simp), hkeep n.toNat .inode (by simp) (by simp), h.index]
    exact and_congr_right fun hn => by rw [hindirect n hn]
  · rw [hkeep n.toNat .inode (by simp) (by simp), Function.update_apply]
    split
    next heq =>
      refine iff_of_false (by simp) ?_
      rintro ⟨hn, hnumber, hx⟩
      rw [hslot n i hn] at hnumber
      split at hnumber
      next => exact hx hnumber.symm
      next hother =>
        -- only one slot has the block
        have hdata := (h.data x n i).mpr ⟨hn, hnumber, hx⟩
        rw [heq, hb] at hdata
        obtain ⟨rfl, rfl⟩ := Owner.data.inj hdata
        exact hother ⟨rfl, rfl⟩
    next hx =>
      rw [h.data]
      refine and_congr_right fun hn => ?_
      rw [hslot n i hn]
      split
      next hsame =>
        rw [hsame.1, hsame.2]
        exact iff_of_false (fun heq => hx heq.1.symm) fun hzero => hzero.2 hzero.1.symm
      next => rfl

/-- An inode gets an indirect block, with no entries. -/
theorem fillIndirect (h : Sound own v) (hnode : own node.toNat = .inode)
    (hempty : (v.din node).indirect = 0) (hb : own b.toNat = .lost)
    (hsuper : t.super = v.super) (hfreemap : t.freemap = v.freemap)
    (hindirect : ∀ n, own n.toNat = .inode →
      (t.din n).indirect = if n = node then b else (v.din n).indirect)
    (hslot : ∀ n i, own n.toNat = .inode → t.slot n i = v.slot n i) :
    Sound (Function.update own b.toNat (.index node)) t := by
  have hne : b.toNat ≠ 0 := by
    have := (h.range b.toNat (by simp [hb])).1
    omega
  have hkeep : ∀ x σ, σ ≠ .lost → σ ≠ .index node →
      (Function.update own b.toNat (.index node) x = σ ↔ own x = σ) := by
    intro x σ hlost hindex
    rw [Function.update_apply]
    split
    next heq => simp [heq, hb, hlost.symm, hindex.symm]
    next => rfl
  refine ⟨by rw [hfreemap]; exact h.words, ?_, by rw [hsuper]; exact h.small,
    by rw [hsuper, hfreemap]; exact h.unused, fun x => ?_, fun x hx => ?_, fun x n => ?_,
    fun x n i => ?_⟩
  · unfold Volume.Covered
    rw [hsuper, hfreemap]
    exact h.covered
  · rw [hkeep x .free (by simp) (by simp), hfreemap]
    exact h.free x
  · rw [hsuper]
    exact h.range x fun hfixed => hx ((hkeep x .fixed (by simp) (by simp)).mpr hfixed)
  · rw [hkeep n.toNat .inode (by simp) (by simp), Function.update_apply]
    split
    next heq =>
      subst heq
      constructor
      · rintro hindexed
        obtain rfl := Owner.index.inj hindexed
        exact ⟨hnode, by rw [hindirect _ hnode, if_pos rfl], hne⟩
      · rintro ⟨hn, hnumber, _⟩
        rw [hindirect n hn] at hnumber
        split at hnumber
        next hsame => rw [hsame]
        next =>
          have hindex := (h.index b.toNat n).mpr ⟨hn, hnumber, hne⟩
          rw [hb] at hindex
          cases hindex
    next hx =>
      rw [h.index]
      refine and_congr_right fun hn => ?_
      rw [hindirect n hn]
      split
      next hsame =>
        rw [hsame, hempty]
        exact iff_of_false (fun hzero => hzero.2 hzero.1.symm) fun heq => hx heq.1.symm
      next => rfl
  · rw [hkeep x (.data n i) (by simp) (by simp), hkeep n.toNat .inode (by simp) (by simp), h.data]
    exact and_congr_right fun hn => by rw [hslot n i hn]

end Sound

/-! ## The places of the block map -/

/-- An inode in memory gets new contents and is dirty. -/
def Volume.setDin (v : Volume) (node : BitVec 32) (din : DiskInode) : Volume :=
  v.setSin node { v.sin node with din, dirty := true }

def DiskInode.setDirect (din : DiskInode) (i : Fin SFS_NDIRECT) (b : BitVec 32) : DiskInode :=
  { din with direct := Function.update din.direct i b }

def DiskInode.setIndirect (din : DiskInode) (b : BitVec 32) : DiskInode :=
    { din with indirect := b }

theorem din_cached (hcached : node ∈ v.inodeList) : v.din node = (v.sin node).din := if_pos hcached

theorem din_setSin (hcached : node ∈ v.inodeList) (sin : SfsInode) (n : BitVec 32) :
    (v.setSin node sin).din n = if n = node then sin.din else v.din n := by
  split
  next heq =>
    have hsin : (v.setSin node sin).sin node = sin := Function.update_self _ _ _
    have hlisted : node ∈ (v.setSin node sin).inodeList := hcached
    rw [heq, din_cached hlisted, hsin]
  next hne =>
    have hsin : (v.setSin node sin).sin n = v.sin n := Function.update_of_ne hne _ _
    unfold Volume.din
    rw [hsin]
    rfl

theorem din_setDin (hcached : node ∈ v.inodeList) (din : DiskInode) (n : BitVec 32) :
    (v.setDin node din).din n = if n = node then din else v.din n :=
  din_setSin hcached _ n

theorem DiskInode.slot_indirect (din : DiskInode) (disk : Blocks) (hlow : SFS_NDIRECT ≤ i)
    (hhigh : i < maxBlocks) (hne : din.indirect ≠ 0) :
    din.slot disk i = word (disk din.indirect.toNat) (i - SFS_NDIRECT) := by
  rw [DiskInode.slot, dif_neg (Nat.not_lt_of_le hlow), if_pos ⟨hne, hhigh⟩]

theorem DiskInode.slot_none (din : DiskInode) (disk : Blocks) (hlow : SFS_NDIRECT ≤ i)
    (hzero : din.indirect = 0) : din.slot disk i = 0 := by
  rw [DiskInode.slot, dif_neg (Nat.not_lt_of_le hlow), if_neg fun hin => hin.1 hzero]

theorem DiskInode.slot_out (din : DiskInode) (disk : Blocks) (hi : maxBlocks ≤ i) :
    din.slot disk i = 0 := by
  have hmax : maxBlocks = 1036 := rfl
  rw [DiskInode.slot, dif_neg (by
    unfold SFS_NDIRECT
    omega), if_neg fun hin => by omega]

theorem DiskInode.slot_setDirect (din : DiskInode) (disk : Blocks) (i : Fin SFS_NDIRECT)
    (b : BitVec 32) (j : Nat) :
    (din.setDirect i b).slot disk j = if j = i then b else din.slot disk j := by
  unfold DiskInode.slot DiskInode.setDirect
  by_cases hj : j < SFS_NDIRECT
  · rw [dif_pos hj, dif_pos hj]
    show Function.update din.direct i b ⟨j, hj⟩ = _
    rw [Function.update_apply]
    simp only [Fin.ext_iff]
  · have hne : j ≠ i := fun heq => hj (heq ▸ i.isLt)
    rw [dif_neg hj, dif_neg hj, if_neg hne]

theorem slot_setSin (hcached : node ∈ v.inodeList) (sin : SfsInode) (n : BitVec 32) (i : Nat) :
    (v.setSin node sin).slot n i = if n = node then sin.din.slot v.disk i else v.slot n i := by
  rw [Volume.slot, din_setSin hcached]
  split
  next => rfl
  next => rfl

theorem slot_setDin (hcached : node ∈ v.inodeList) (din : DiskInode) (n : BitVec 32) (i : Nat) :
    (v.setDin node din).slot n i = if n = node then din.slot v.disk i else v.slot n i :=
  slot_setSin hcached _ n i

/-- A new indirect block, which is all zeros, changes no slot. -/
theorem DiskInode.slot_setIndirect (din : DiskInode) (disk : Blocks) (hempty : din.indirect = 0)
    (hzero : disk b.toNat = fun _ => 0)
    (i : Nat) : (din.setIndirect b).slot disk i = din.slot disk i := by
  unfold DiskInode.slot DiskInode.setIndirect
  split
  next => rfl
  next =>
    simp only
    rw [hzero, word_zero, ite_self, if_neg fun hin => hin.1 hempty]

namespace Sound

/-- Writing an indirect block changes the slots of its inode. -/
theorem slot_write (h : Sound own v) (hnode : own node.toNat = .inode)
    (hne : (v.din node).indirect ≠ 0) (bytes : Bytes) :
    (∀ n, own n.toNat = .inode → (v.write (v.din node).indirect.toNat bytes).din n = v.din n) ∧
      ∀ n i, own n.toNat = .inode → (v.write (v.din node).indirect.toNat bytes).slot n i =
        if n = node ∧ SFS_NDIRECT ≤ i ∧ i < maxBlocks then word bytes (i - SFS_NDIRECT)
        else v.slot n i := by
  have hindex := h.index_of hnode hne
  have hdin : ∀ n, own n.toNat = .inode →
      (v.write (v.din node).indirect.toNat bytes).din n = v.din n := by
    intro n hn
    have hother : n.toNat ≠ (v.din node).indirect.toNat := by
      intro heq
      rw [← heq, hn] at hindex
      cases hindex
    have hdisk : (v.write (v.din node).indirect.toNat bytes).disk n.toNat = v.disk n.toNat :=
      Function.update_of_ne hother _ _
    unfold Volume.din at hdisk ⊢
    rw [hdisk]
    rfl
  refine ⟨hdin, fun n i hn => ?_⟩
  rw [Volume.slot, hdin n hn]
  by_cases hi : SFS_NDIRECT ≤ i ∧ i < maxBlocks
  · by_cases hnn : n = node
    · rw [if_pos ⟨hnn, hi⟩, hnn, DiskInode.slot_indirect _ _ hi.1 hi.2 hne]
      congr 1
      exact Function.update_self _ _ _
    · rw [if_neg fun hall => hnn hall.1]
      by_cases hzero : (v.din n).indirect = 0
      · rw [Volume.slot, DiskInode.slot_none _ _ hi.1 hzero, DiskInode.slot_none _ _ hi.1 hzero]
      · have hother : (v.din n).indirect.toNat ≠ (v.din node).indirect.toNat := by
          intro heq
          have hindexed := h.index_of hn hzero
          rw [heq, hindex] at hindexed
          exact hnn (Owner.index.inj hindexed).symm
        have hdisk : (v.write (v.din node).indirect.toNat bytes).disk (v.din n).indirect.toNat =
            v.disk (v.din n).indirect.toNat := Function.update_of_ne hother _ _
        rw [Volume.slot, DiskInode.slot_indirect _ _ hi.1 hi.2 hzero,
          DiskInode.slot_indirect _ _ hi.1 hi.2 hzero, hdisk]
  · rw [if_neg fun hall => hi hall.2, Volume.slot]
    by_cases hlow : SFS_NDIRECT ≤ i
    · have hout : maxBlocks ≤ i := by omega
      rw [DiskInode.slot_out _ _ hout, DiskInode.slot_out _ _ hout]
    · rw [DiskInode.slot, DiskInode.slot, dif_pos (Nat.lt_of_not_le hlow),
        dif_pos (Nat.lt_of_not_le hlow)]

/-- Setting one word of the indirect block. -/
theorem slot_setWord (h : Sound own v) (hnode : own node.toNat = .inode)
    (hne : (v.din node).indirect ≠ 0) (hlow : SFS_NDIRECT ≤ j) (hhigh : j < maxBlocks)
    (w : BitVec 32) (n : BitVec 32) (i : Nat) (hn : own n.toNat = .inode) :
    (v.write (v.din node).indirect.toNat
        (setWord (v.disk (v.din node).indirect.toNat) (j - SFS_NDIRECT) w)).slot n i =
      if n = node ∧ i = j then w else v.slot n i := by
  rw [(h.slot_write hnode hne _).2 n i hn, word_setWord]
  by_cases hnn : n = node
  · subst hnn
    by_cases hi : SFS_NDIRECT ≤ i ∧ i < maxBlocks
    · have hslot : word (v.disk (v.din n).indirect.toNat) (i - SFS_NDIRECT) = v.slot n i := by
        rw [Volume.slot, DiskInode.slot_indirect _ _ hi.1 hi.2 hne]
      rw [if_pos ⟨rfl, hi⟩, hslot]
      by_cases hij : i = j
      · rw [if_pos (by rw [hij]), if_pos ⟨rfl, hij⟩]
      · rw [if_neg (by omega), if_neg fun hall => hij hall.2]
    · have hij : i ≠ j := by
        rintro rfl
        exact hi ⟨hlow, hhigh⟩
      rw [if_neg fun hall => hi hall.2, if_neg fun hall => hij hall.2]
  · rw [if_neg fun hall => hnn hall.1, if_neg fun hall => hnn hall.1]

end Sound

/-! ## A new volume -/

/-- `32 * n` blocks, all of them free but the first four, and one empty file, in memory;
its inode is block 3. -/
def newVolume (n : Nat) : Volume where
  super := ⟨SFS_MAGIC, BitVec.ofNat 32 (32 * n), BitVec.ofNat 32 (32 * n - 4), fun _ => 0⟩
  freemap := ⟨0, 1, 32 * n, n, fun ix => if ix = 0 then 0xfffffff0 else 0xffffffff⟩
  superDirty := false
  sin := fun _ => ⟨⟨0, SFS_TYPE_FILE, 1, 0, fun _ => 0, 0⟩, false, 1⟩
  inodeList := [3]
  disk := fun _ _ => 0
  ios := 0

def newOwner (n : Nat) (b : Nat) : Owner :=
  if b = 3 then .inode else if 4 ≤ b ∧ b < 32 * n then .free else .fixed

theorem newVolume_bits (k : Nat) : (newVolume k).freemap.bits = Finset.Ico 4 (32 * k) := by
  have hfirst : ∀ j < 32, (0xfffffff0#32).getLsbD j = decide (4 ≤ j) := by decide
  have hother : ∀ j < 32, (0xffffffff#32).getLsbD j = true := by decide
  ext x
  rw [Bitmap.mem_bits, Finset.mem_Ico]
  show x < 32 * k ∧
    (if x / 32 = 0 then 0xfffffff0#32 else 0xffffffff#32).getLsbD (x % 32) = true ↔ _
  split
  next hzero =>
    rw [hfirst _ (Nat.mod_lt _ (by omega)), decide_eq_true_eq]
    omega
  next hne =>
    rw [hother _ (Nat.mod_lt _ (by omega)), eq_self, and_true]
    omega

theorem newVolume_slot (k : Nat) (node : BitVec 32) (i : Nat)
    (hnode : newOwner k node.toNat = .inode) : (newVolume k).slot node i = 0 ∧
      ((newVolume k).din node).indirect = 0 := by
  have hthree : node = 3 := by
    apply BitVec.eq_of_toNat_eq
    by_contra hne
    have hne : node.toNat ≠ 3 := hne
    rw [newOwner, if_neg hne] at hnode
    split at hnode <;> cases hnode
  subst hthree
  have hdin : (newVolume k).din 3 = ⟨0, SFS_TYPE_FILE, 1, 0, fun _ => 0, 0⟩ :=
    if_pos (List.mem_singleton.mpr rfl)
  rw [Volume.slot, hdin]
  refine ⟨?_, rfl⟩
  by_cases hi : i < SFS_NDIRECT
  · rw [DiskInode.slot, dif_pos hi]
  · exact DiskInode.slot_none _ _ (Nat.le_of_not_lt hi) rfl

theorem newVolume_sound {k : Nat} (hpos : 0 < k) (hsmall : k ≤ 2 ^ 15) :
    Sound (newOwner k) (newVolume k) := by
  have hblocks : (newVolume k).super.blocks.toNat = 32 * k := by
    show (BitVec.ofNat 32 (32 * k)).toNat = _
    rw [BitVec.toNat_ofNat]
    omega
  refine ⟨Nat.mul_comm _ _, ?_, ?_, ?_, fun b => ?_, fun b hb => ?_, fun b n => ?_, fun b n i => ?_⟩
  · rw [Volume.Covered, hblocks]
    exact Nat.le_refl _
  · rw [hblocks]
    omega
  · show (BitVec.ofNat 32 (32 * k - 4)).toNat = _
    rw [newVolume_bits, Nat.card_Ico, BitVec.toNat_ofNat]
    omega
  · rw [newVolume_bits, Finset.mem_Ico, newOwner]
    split
    next heq => simp [heq]
    next =>
      split
      next hin => simp [hin]
      next hout => simpa using hout
  · rw [hblocks]
    rw [newOwner] at hb
    split at hb
    next => omega
    next =>
      split at hb
      next => omega
      next => exact absurd rfl hb
  · refine iff_of_false ?_ ?_
    · unfold newOwner
      split
      · simp
      · split <;> simp
    · rintro ⟨hn, hnumber, hne⟩
      rw [(newVolume_slot k n 0 hn).2] at hnumber
      exact hne hnumber.symm
  · refine iff_of_false ?_ ?_
    · unfold newOwner
      split
      · simp
      · split <;> simp
    · rintro ⟨hn, hnumber, hne⟩
      rw [(newVolume_slot k n i hn).1] at hnumber
      exact hne hnumber.symm

end Ucore.Sfs
