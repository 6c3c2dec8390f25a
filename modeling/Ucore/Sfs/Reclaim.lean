import Mathlib.Logic.Relation
import Ucore.Sfs.FileSize

/-!
# Deleting files

`sfs_fsync` and `sfs_reclaim` on a sound volume whose device works, and with them the
account of the blocks over whole runs: every block is free, or of the volume, or an inode,
or has exactly one place in the block maps of the files.
-/

namespace Ucore.Sfs

open Machine

variable {io : Nat → Int} {own own' : Nat → Owner} {v t u : Volume} {node n b : BitVec 32}

/-! ## Writing an inode back -/

/-- The volume after an inode was written back. -/
def Volume.flush (v : Volume) (node : BitVec 32) : Volume :=
  (v.setSin node { v.sin node with dirty := false }).write node.toNat
    (splice 0 sizeofDiskInode (ofWords (v.sin node).din.words) (v.disk node.toNat))

theorem setDirty_back (hdirty : (v.sin node).dirty = true) (k : Nat) :
    (((v.setSin node { v.sin node with dirty := false }).tick k).setSin node
      { ((v.setSin node { v.sin node with dirty := false }).tick k).sin node with dirty := true }) =
        v.tick k := by
  have hself : ((v.setSin node { v.sin node with dirty := false }).tick k).sin node =
      { v.sin node with dirty := false } := Function.update_self _ _ _
  have hsin : ({ v.sin node with dirty := true } : SfsInode) = v.sin node := by rw [← hdirty]
  rw [hself]
  show ({ v with
    sin := Function.update (Function.update v.sin node _) node { v.sin node with dirty := true }
    ios := v.ios + k } : Volume) = v.tick k
  rw [Function.update_idem, hsin, Function.update_eq_self]
  rfl

/-- A clean inode is left alone; a failed write leaves it dirty. -/
theorem sfsFsync_spec (h : Sound own v) (hnode : own node.toNat = .inode) :
    Ends never (sfsFsync io node) v fun ret t =>
      ((v.sin node).dirty = false ∧ ret = 0 ∧ t = v) ∨
      ((v.sin node).dirty = true ∧ ret = 0 ∧ io v.ios = 0 ∧ io (v.ios + 1) = 0 ∧
        t = (v.flush node).tick 2) ∨
      ((v.sin node).dirty = true ∧ IsError io ret ∧ ¬(io v.ios = 0 ∧ io (v.ios + 1) = 0) ∧
        ∃ k, t = v.tick k) := by
  rw [sfsFsync, ends_bind, ends_get]
  simp only
  split
  next hdirty =>
    rw [ends_bind, setDirty, ends_modify, ends_bind]
    obtain ⟨w, hw⟩ : ∃ w, w = v.setSin node { v.sin node with dirty := false } := ⟨_, rfl⟩
    have hvalid := h.valid (by rw [hnode]; simp)
    have hvalid' : w.Valid node := by
      rw [hw]
      exact ⟨hvalid.ne_zero, hvalid.lt, hvalid.small⟩
    have hios : w.ios = v.ios := by rw [hw]; rfl
    rw [← hw]
    have hstart : 0 < SFS_BLKSIZE := by decide
    have hfits : 0 + sizeofDiskInode ≤ SFS_BLKSIZE := by decide
    apply (sfsWbuf_spec hvalid' hstart hfits (ofWords (v.sin node).din.words)).imp
    rintro ret t (⟨rfl, hne, rfl⟩ | ⟨hio, rfl, hne, rfl⟩ | ⟨hio, hio', rfl, rfl⟩)
    · rw [if_pos hne, ends_bind, setDirty, ends_modify, ends_pure]
      rw [hios] at hne
      refine .inr (.inr ⟨hdirty, .inr ⟨w.ios, rfl, by rwa [hios]⟩, fun hall => hne hall.1, 1, ?_⟩)
      rw [hw]
      exact setDirty_back hdirty 1
    · rw [if_pos hne, ends_bind, setDirty, ends_modify, ends_pure]
      rw [hios] at hne
      refine .inr (.inr ⟨hdirty, .inr ⟨w.ios + 1, rfl, by rwa [hios]⟩, fun hall =>
        hne hall.2, 2, ?_⟩)
      rw [hw]
      exact setDirty_back hdirty 2
    · rw [if_neg (not_not.mpr rfl), ends_pure]
      rw [hios] at hio hio'
      refine .inr (.inl ⟨hdirty, rfl, hio, hio', ?_⟩)
      rw [hw]
      rfl
  next hclean => exact .inl ⟨Bool.eq_false_iff.mpr hclean, rfl, rfl⟩

/-- Writing an inode back changes no block map. -/
structure Flushed (own : Nat → Owner) (v t : Volume) : Prop where
  sound : Sound own t
  list : t.inodeList = v.inodeList
  din : ∀ n, own n.toNat = .inode → t.din n = v.din n
  slot : ∀ n i, own n.toNat = .inode → t.slot n i = v.slot n i

theorem Flushed.mapped (h : Flushed own v t) (hv : Mapped own v) : Mapped own t := by
  refine ⟨h.sound, fun n hn => ?_⟩
  have hsized := hv.sized n hn
  refine ⟨by rw [h.din n hn]; exact hsized.le, fun i => ?_⟩
  rw [h.din n hn, h.slot n i hn]
  exact hsized.slot i

theorem Sound.flush (h : Sound own v) (hnode : own node.toNat = .inode)
    (hcached : node ∈ v.inodeList) (k : Nat) : Flushed own v ((v.flush node).tick k) := by
  have hdin : ∀ n, own n.toNat = .inode → ((v.flush node).tick k).din n = v.din n := by
    intro n hn
    by_cases heq : n = node
    · subst heq
      have hlisted : n ∈ ((v.flush n).tick k).inodeList := hcached
      have hself : ((v.flush n).tick k).sin n = { v.sin n with dirty := false } :=
        Function.update_self _ _ _
      rw [din_cached hlisted, din_cached hcached, hself]
    · have hsin : ((v.flush node).tick k).sin n = v.sin n := Function.update_of_ne heq _ _
      have hdisk : ((v.flush node).tick k).disk n.toNat = v.disk n.toNat :=
        Function.update_of_ne (fun hsame => heq (BitVec.eq_of_toNat_eq hsame)) _ _
      unfold Volume.din
      rw [hsin, hdisk]
      rfl
  have hslot : ∀ n i, own n.toNat = .inode → ((v.flush node).tick k).slot n i = v.slot n i := by
    intro n i hn
    rw [Volume.slot, Volume.slot, hdin n hn, DiskInode.slot, DiskInode.slot]
    split
    next => rfl
    next =>
      split
      next hin =>
        -- an inode is not an indirect block
        have hne : (v.din n).indirect.toNat ≠ node.toNat := by
          intro heq
          have hindex := h.index_of hn hin.1
          rw [heq, hnode] at hindex
          cases hindex
        have hdisk : ((v.flush node).tick k).disk (v.din n).indirect.toNat =
            v.disk (v.din n).indirect.toNat := Function.update_of_ne hne _ _
        rw [hdisk]
      next => rfl
  exact ⟨h.congr rfl rfl (fun n hn => by rw [hdin n hn]) hslot, rfl, hdin, hslot⟩

/-! ## Deleting a file -/

/-- The inode is not in memory any more. -/
def Volume.evict (v : Volume) (node : BitVec 32) : Volume :=
  { v with inodeList := v.inodeList.erase node }

theorem din_evict (hne : n ≠ node) : (v.evict node).din n = v.din n := by
  have hmem : n ∈ (v.evict node).inodeList ↔ n ∈ v.inodeList := List.mem_erase_of_ne hne
  unfold Volume.din
  simp only [hmem]
  rfl

theorem slot_evict (hne : n ≠ node) (i : Nat) : (v.evict node).slot n i = v.slot n i := by
  rw [Volume.slot, Volume.slot, din_evict hne]
  rfl

/-- The blocks of an inode without data blocks are lost when it is forgotten. -/
def forgotten (own : Nat → Owner) (node : BitVec 32) (x : Nat) : Owner :=
  if x = node.toNat ∨ own x = .index node then .lost else own x

theorem forgotten_eq {x : Nat} {σ : Owner} (hlost : σ ≠ .lost) :
    forgotten own node x = σ ↔ x ≠ node.toNat ∧ own x ≠ .index node ∧ own x = σ := by
  unfold forgotten
  split
  next hin =>
    refine iff_of_false hlost.symm ?_
    rintro ⟨hne, hindex, _⟩
    exact hin.elim hne hindex
  next hout =>
    rw [not_or] at hout
    exact ⟨fun heq => ⟨hout.1, hout.2, heq⟩, fun hall => hall.2.2⟩

theorem forgotten_inode (own : Nat → Owner) (node n : BitVec 32) :
    forgotten own node n.toNat = .inode ↔ n ≠ node ∧ own n.toNat = .inode := by
  rw [forgotten_eq (by simp)]
  constructor
  · rintro ⟨hne, _, hn⟩
    exact ⟨fun heq => hne (by rw [heq]), hn⟩
  · rintro ⟨hne, hn⟩
    exact ⟨fun heq => hne (BitVec.eq_of_toNat_eq heq), by simp [hn], hn⟩

theorem Sound.evict (h : Sound own v) (hnode : own node.toNat = .inode)
    (hempty : ∀ i, v.slot node i = 0) : Sound (forgotten own node) (v.evict node) := by
  have hother : ∀ x σ, σ ≠ .lost → σ ≠ .inode → σ ≠ .index node →
      (forgotten own node x = σ ↔ own x = σ) := by
    intro x σ hlost hinode hindex
    rw [forgotten_eq hlost]
    refine ⟨fun hall => hall.2.2, fun heq => ⟨?_, ?_, heq⟩⟩
    · rintro rfl
      exact hinode (heq.symm.trans hnode)
    · rw [heq]
      exact hindex
  refine ⟨h.words, h.covered, h.small, h.unused, fun x => ?_, fun x hx => ?_, fun x n => ?_,
    fun x n i => ?_⟩
  · rw [hother x .free (by simp) (by simp) (by simp)]
    exact h.free x
  · exact h.range x fun hfixed => hx ((hother x .fixed (by simp) (by simp) (by simp)).mpr hfixed)
  · rw [forgotten_inode]
    by_cases hn : n = node
    · subst hn
      rw [forgotten_eq (by simp)]
      exact iff_of_false (fun hall => hall.2.1 hall.2.2) fun hall => hall.1.1 rfl
    · rw [hother x (.index n) (by simp) (by simp) fun heq => hn (Owner.index.inj heq), h.index,
        din_evict hn]
      exact ⟨fun hall => ⟨⟨hn, hall.1⟩, hall.2⟩, fun hall => ⟨hall.1.2, hall.2⟩⟩
  · rw [forgotten_inode, hother x (.data n i) (by simp) (by simp) (by simp), h.data]
    by_cases hn : n = node
    · subst hn
      refine iff_of_false ?_ fun hall => hall.1.1 rfl
      rintro ⟨_, hnumber, hx⟩
      rw [hempty i] at hnumber
      exact hx hnumber.symm
    · rw [slot_evict hn]
      exact ⟨fun hall => ⟨⟨hn, hall.1⟩, hall.2⟩, fun hall => ⟨hall.1.2, hall.2⟩⟩

/-- An inode is gone, and its blocks are free. -/
structure Deleted (own own' : Nat → Owner) (v t : Volume) (node : BitVec 32) : Prop where
  mapped : Mapped own' t
  inode : ∀ b, own' b = .inode ↔ b ≠ node.toNat ∧ own b = .inode
  fixed : ∀ b, own' b = .fixed ↔ own b = .fixed
  lost : ∀ b, own' b = .lost → own b = .lost

theorem update_free_eq {x y : Nat} {σ : Owner} (hx : own x = .lost) (hlost : σ ≠ .lost)
    (hfree : σ ≠ .free) : Function.update own x .free y = σ ↔ own y = σ := by
  rw [Function.update_apply]
  split
  next heq => simp [heq, hx, hlost.symm, hfree.symm]
  next => rfl

/-- The end of `sfs_reclaim`. -/
theorem free_inode (h : Mapped own v) (hnode : own node.toNat = .inode)
    (hempty : ∀ i, v.slot node i = 0) (b : BitVec 32) (hb : b = (v.din node).indirect) :
    Ends never (do
      sfsBlockFree node
      if b ≠ 0 then sfsBlockFree b
      return (0 : Int)) (v.evict node) fun ret t => ret = 0 ∧
        ∃ own', Deleted own own' v t node := by
  have hevicted := h.sound.evict hnode hempty
  have hlost : forgotten own node node.toNat = .lost := if_pos (.inl rfl)
  have hgiven := hevicted.give hlost
  have hkeep : ∀ x σ, σ ≠ .lost → σ ≠ .free → σ ≠ .index node →
      (Function.update (forgotten own node) node.toNat .free x = σ ↔
        x ≠ node.toNat ∧ own x = σ) := by
    intro x σ hσ hfree hindex
    rw [update_free_eq hlost hσ hfree, forgotten_eq hσ]
    refine ⟨fun hall => ⟨hall.1, hall.2.2⟩, fun hall => ⟨hall.1, ?_, hall.2⟩⟩
    rw [hall.2]
    exact hindex
  have hsized : ∀ n, n ≠ node → own n.toNat = .inode → ∀ t : Volume, t.din n = v.din n →
      (∀ i, t.slot n i = v.slot n i) → SizedAt t n := by
    intro n hne hn t hdin hslot
    refine ⟨by rw [hdin]; exact (h.sized n hn).le, fun i => ?_⟩
    rw [hdin, hslot]
    exact (h.sized n hn).slot i
  have hfixed : ∀ x, x ≠ node.toNat ∧ own x = .fixed ↔ own x = .fixed := by
    refine fun x => ⟨And.right, fun hx => ⟨?_, hx⟩⟩
    rintro rfl
    rw [hnode] at hx
    cases hx
  rw [ends_bind]
  apply (sfsBlockFree_spec hevicted (by simp [hlost]) (by simp [hlost])).imp
  rintro _ t rfl
  split
  next hne =>
    rw [hb] at hne
    have hindex := h.sound.index_of hnode hne
    have hother : (v.din node).indirect.toNat ≠ node.toNat := by
      intro heq
      rw [heq, hnode] at hindex
      cases hindex
    have hlost' : Function.update (forgotten own node) node.toNat .free b.toNat = .lost := by
      rw [hb, Function.update_of_ne hother]
      exact if_pos (.inr hindex)
    rw [ends_bind]
    apply (sfsBlockFree_spec hgiven (by simp [hlost']) (by simp [hlost'])).imp
    rintro _ t rfl
    refine ⟨rfl, _, ⟨hgiven.give hlost', fun n hn => ?_⟩, fun x => ?_, fun x => ?_, fun x hx => ?_⟩
    · rw [update_free_eq hlost' (by simp) (by simp), hkeep _ .inode (by simp)
        (by simp) (by simp)] at hn
      have hne' : n ≠ node := fun heq => hn.1 (by rw [heq])
      exact hsized n hne' hn.2 _ (din_evict hne') (slot_evict hne')
    · rw [update_free_eq hlost' (by simp) (by simp), hkeep _ .inode (by simp) (by simp) (by simp)]
    · rw [update_free_eq hlost' (by simp) (by simp), hkeep _ .fixed (by simp) (by simp)
        (by simp), hfixed]
    · by_cases hxb : x = b.toNat
      · simp [hxb] at hx
      · rw [Function.update_of_ne hxb] at hx
        by_cases hxn : x = node.toNat
        · simp [hxn] at hx
        · rw [Function.update_of_ne hxn, forgotten] at hx
          split at hx
          next hin =>
            -- the indirect block of the inode is `b`
            have hx' := ((h.sound.index _ _).mp (hin.resolve_left hxn)).2.1
            rw [← hb] at hx'
            exact absurd hx'.symm hxb
          next => exact hx
  next hzero =>
    -- the inode never had an indirect block
    rw [not_not] at hzero
    refine ⟨rfl, _, ⟨hgiven, fun n hn => ?_⟩, fun x => ?_, fun x => ?_, fun x hx => ?_⟩
    · rw [hkeep _ .inode (by simp) (by simp) (by simp)] at hn
      have hne' : n ≠ node := fun heq => hn.1 (by rw [heq])
      exact hsized n hne' hn.2 _ (din_evict hne') (slot_evict hne')
    · rw [hkeep _ .inode (by simp) (by simp) (by simp)]
    · rw [hkeep _ .fixed (by simp) (by simp) (by simp), hfixed]
    · by_cases hxn : x = node.toNat
      · simp [hxn] at hx
      · rw [Function.update_of_ne hxn, forgotten] at hx
        split at hx
        next hin =>
          obtain ⟨_, hnumber, hne⟩ := (h.sound.index _ _).mp (hin.resolve_left hxn)
          rw [← hb, hzero] at hnumber
          exact absurd hnumber.symm hne
        next => exact hx

/-- The blocks of the other inodes and of the volume are what they were. -/
structure Recast (own own' : Nat → Owner) (v t : Volume) : Prop where
  mapped : Mapped own' t
  inode : ∀ b, own' b = .inode ↔ own b = .inode
  fixed : ∀ b, own' b = .fixed ↔ own b = .fixed
  lost : ∀ b, own' b = .lost → own b = .lost
  list : t.inodeList = v.inodeList

theorem TruncEnd.recast {len ret : Int} (h : TruncEnd io own v node len ret t) (hv : Mapped own v)
    (hio : ∀ k, io k = 0) : ∃ own', Recast own own' v t := by
  obtain ⟨own', hframed, hmapped, hlost⟩ := h.framed hv
  exact ⟨own', hmapped, hframed.inode, hframed.fixed, hlost hio, hframed.list⟩

/-- Truncated to nothing, a file has no blocks. -/
theorem TruncEnd.empty {ret : Int} (h : TruncEnd io own v node 0 ret t) (hio : ∀ k, io k = 0) :
    ret = 0 ∧ (t.din node).blocks.toNat = 0 ∧ (t.din node).nlinks = (v.din node).nlinks := by
  have hzero : blocksFor (0 : Int).toNat = 0 := by decide
  cases h with
  | refused hrange =>
      have hmax : (SFS_MAX_FILE_SIZE : Int) = 134217728 := rfl
      omega
  | same hsize hmatch =>
      have hsize' : (v.din node).size.toNat = (0 : Int).toNat := by omega
      rw [Matches, hsize', hzero] at hmatch
      exact ⟨rfl, hmatch, rfl⟩
  | done _ own' htruncated => exact ⟨rfl, by rw [htruncated.blocks, hzero], htruncated.nlinks⟩
  | growing _ _ m _ _ hlt => omega
  | shrinking _ _ m _ hret _ hend => exact absurd (hend.fits.mpr fun k _ => hio _) hret

theorem prepareReclaim_spec (h : Mapped own v) (hnode : own node.toNat = .inode)
    (hcached : node ∈ v.inodeList) (hlinks : (v.din node).nlinks = 0) (hio : ∀ k, io k = 0) :
    Ends (fun _ => True) (prepareReclaim io node) v fun ret t => ret = 0 ∧
      (∀ i, t.slot node i = 0) ∧ (t.din node).nlinks = 0 ∧ ∃ own', Recast own own' v t := by
  have hdin := din_cached hcached
  have hempty : ∀ (own : Nat → Owner) (t : Volume), Mapped own t → own node.toNat = .inode →
      (t.din node).blocks.toNat = 0 → ∀ i, t.slot node i = 0 := by
    intro own t ht hn hblocks i
    by_contra hne
    have := ((ht.sized node hn).slot i).mp hne
    omega
  rw [prepareReclaim, ends_bind, ends_get, ← hdin]
  simp only
  rw [if_pos hlinks, ends_bind, vopTruncate, ends_bind, ends_get, ends_bind]
  apply (ends_check_of trivial).mpr
  intro _
  apply (sfsTruncfile_spec h hnode hcached (by decide)).mono (fun _ _ => trivial)
  intro ret t hend
  obtain ⟨rfl, hblocks, hnlinks⟩ := hend.empty hio
  obtain ⟨own', hrecast⟩ := hend.recast h hio
  have hnode' := (hrecast.inode _).mpr hnode
  rw [hlinks] at hnlinks
  rw [if_neg (not_not.mpr rfl), ends_bind, ends_get]
  split
  next =>
    apply (sfsFsync_spec hrecast.mapped.sound hnode').lift
    rintro ret u (⟨_, rfl, rfl⟩ | ⟨_, rfl, _, _, rfl⟩ | ⟨_, _, hfail, _⟩)
    · exact ⟨rfl, hempty own' _ hrecast.mapped hnode' hblocks, hnlinks, own', hrecast⟩
    · have hcached' : node ∈ t.inodeList := by rwa [hrecast.list]
      have hflushed := hrecast.mapped.sound.flush hnode' hcached' 2
      have hmapped := hflushed.mapped hrecast.mapped
      refine ⟨rfl, hempty own' _ hmapped hnode' (by rw [hflushed.din _ hnode', hblocks]),
        by rw [hflushed.din _ hnode', hnlinks], own', hmapped, hrecast.inode, hrecast.fixed,
        hrecast.lost, hrecast.list⟩
    · exact absurd ⟨hio _, hio _⟩ hfail
  next =>
    exact ⟨rfl, hempty own' _ hrecast.mapped hnode' hblocks, hnlinks, own', hrecast⟩

/-- A file that nothing links to is still in use, or deleted. -/
theorem sfsReclaim_spec (h : Mapped own v) (hnode : own node.toNat = .inode)
    (hcached : node ∈ v.inodeList) (hlinks : (v.din node).nlinks = 0) (hio : ∀ k, io k = 0)
    (refs : Nat) :
    Ends (fun _ => True) (sfsReclaim io node refs) v fun ret t =>
      (ret ≠ 0 ∧ ∃ own', Recast own own' v t) ∨ (ret = 0 ∧ ∃ own', Deleted own own' v t node) := by
  have hdin := din_cached hcached
  rw [sfsReclaim, ends_bind, ends_get]
  simp only
  rw [ends_bind]
  apply (ends_check_of trivial).mpr
  intro _
  rw [ends_bind, ends_modify]
  obtain ⟨sin, hsin⟩ : ∃ sin, sin = { v.sin node with
    reclaimCount := (v.sin node).reclaimCount - 1 } := ⟨_, rfl⟩
  rw [← hsin]
  have hdin' : (v.setSin node sin).din node = v.din node := by
    rw [din_setSin hcached, if_pos rfl, hsin, hdin]
  have hmapped : Mapped own (v.setSin node sin) := by
    apply h.setSin_same hcached
    · rw [hsin]
    · rw [hsin]
    · rw [hsin]
  split
  next =>
    exact .inl ⟨by decide, own, hmapped, fun _ => Iff.rfl, fun _ => Iff.rfl, fun _ hx => hx, rfl⟩
  next =>
    rw [ends_bind]
    apply (prepareReclaim_spec hmapped hnode hcached (by rw [hdin', hlinks]) hio).imp
    rintro ret t ⟨rfl, hempty, hnlinks, own', hrecast⟩
    have hnode' := (hrecast.inode _).mpr hnode
    have hcached' : node ∈ t.inodeList := by
      rw [hrecast.list]
      exact hcached
    have hlinks' : (t.sin node).din.nlinks = 0 := by rw [← din_cached hcached', hnlinks]
    rw [if_neg (not_not.mpr rfl), ends_bind, ends_modify, ends_bind, ends_get]
    simp only
    rw [if_pos hlinks']
    apply (free_inode hrecast.mapped hnode' hempty (t.sin node).din.indirect
      (by rw [din_cached hcached'])).lift
    rintro ret u ⟨rfl, own'', hdeleted⟩
    refine .inr ⟨rfl, own'', hdeleted.mapped, fun b => ?_, fun b => ?_, fun b hb => ?_⟩
    · rw [hdeleted.inode, hrecast.inode]
    · rw [hdeleted.fixed, hrecast.fixed]
    · exact hrecast.lost b (hdeleted.lost b hb)

/-! ## Runs -/

/-- The places of a block number in the block map of an inode. -/
inductive Place
  | slot (node : BitVec 32) (i : Nat)
  | indirect (node : BitVec 32)

def Place.file : Place → BitVec 32
  | .slot node _ => node
  | .indirect node => node

def Volume.numberAt (v : Volume) : Place → BitVec 32
  | .slot node i => v.slot node i
  | .indirect node => (v.din node).indirect

/-- Every block is accounted for. `fixed` are the blocks of the volume itself, and `files`
are the inodes. -/
structure Accounts (fixed : Nat → Prop) (files : BitVec 32 → Prop) (v : Volume) : Prop where
  unused : v.super.unusedBlocks.toNat = v.freemap.bits.card
  referred : ∀ x, x < v.super.blocks.toNat → x ∉ v.freemap.bits → ¬fixed x →
    (∀ n, files n → n.toNat ≠ x) → ∃! p : Place, files p.file ∧ (v.numberAt p).toNat = x
  unshared : ∀ p q : Place, files p.file → files q.file → v.numberAt p ≠ 0 →
    v.numberAt p = v.numberAt q → p = q
  inUse : ∀ p : Place, files p.file → v.numberAt p ≠ 0 → (v.numberAt p).toNat ∉ v.freemap.bits ∧
    ¬fixed (v.numberAt p).toNat ∧ ∀ n, files n → n ≠ v.numberAt p
  beyond : ∀ n, files n → ∀ i, (v.din n).blocks.toNat ≤ i → v.slot n i = 0

/-- A volume whose blocks all have an owner: none is lost, those of `fixed` belong to no
file, and those of `files` hold the inodes. -/
def WellFormed (fixed : Nat → Prop) (files : BitVec 32 → Prop) (v : Volume) : Prop :=
  ∃ own, Mapped own v ∧ (∀ b, own b ≠ .lost) ∧ (∀ b, own b = .fixed ↔ fixed b) ∧
    ∀ n : BitVec 32, own n.toNat = .inode ↔ files n

/-- Loading an inode, a call that sets a size, and `sfs_reclaim` of a file that nothing
links to, with a device that works. -/
inductive FileStep : (BitVec 32 → Prop) × Volume → (BitVec 32 → Prop) × Volume → Prop
  | load (files : BitVec 32 → Prop) (v : Volume) (node : BitVec 32) : files node →
      node ∉ v.inodeList → FileStep (files, v) (files, v.load node)
  | size (files : BitVec 32 → Prop) (v t : Volume) (c : SizeCall) (ret : Int) : files c.node →
      c.node ∈ v.inodeList → blocksFor c.len.toNat ≤ maxBlocks →
      c.run (fun _ => 0) v = .ok (ret, t) → FileStep (files, v) (files, t)
  | busy (files : BitVec 32 → Prop) (v t : Volume) (node : BitVec 32) (refs : Nat) (ret : Int) :
      files node → node ∈ v.inodeList → (v.din node).nlinks = 0 →
      sfsReclaim (fun _ => 0) node refs v = .ok (ret, t) → ret ≠ 0 → FileStep (files, v) (files, t)
  | reclaim (files : BitVec 32 → Prop) (v t : Volume) (node : BitVec 32) (refs : Nat) :
      files node → node ∈ v.inodeList → (v.din node).nlinks = 0 →
      sfsReclaim (fun _ => 0) node refs v = .ok (0, t) →
      FileStep (files, v) (fun n => files n ∧ n ≠ node, t)

theorem of_recast {fixed : Nat → Prop} {files : BitVec 32 → Prop} (h : Recast own own' v t)
    (hlost : ∀ b, own b ≠ .lost) (hfixed : ∀ b, own b = .fixed ↔ fixed b)
    (hfiles : ∀ n : BitVec 32, own n.toNat = .inode ↔ files n) : WellFormed fixed files t :=
  ⟨own', h.mapped, fun b hb => hlost b (h.lost b hb), fun b => (h.fixed b).trans (hfixed b),
    fun n => (h.inode _).trans (hfiles n)⟩

theorem din_load (hnot : node ∉ v.inodeList) (n : BitVec 32) : (v.load node).din n = v.din n := by
  by_cases hn : n = node
  · subst hn
    have hlisted : n ∈ (v.load n).inodeList := List.mem_cons_self
    have hself : (v.load n).sin n = ⟨DiskInode.ofBytes (v.disk n.toNat), false, 1⟩ :=
      Function.update_self _ _ _
    rw [din_cached hlisted, hself, Volume.din, if_neg hnot]
  · have hsin : (v.load node).sin n = v.sin n := Function.update_of_ne hn _ _
    have hmem : n ∈ (v.load node).inodeList ↔ n ∈ v.inodeList :=
      List.mem_cons.trans (or_iff_right hn)
    unfold Volume.din
    simp only [hmem, hsin]
    rfl

theorem Mapped.load (h : Mapped own v) (hnot : node ∉ v.inodeList) : Mapped own (v.load node) := by
  have hdin := din_load hnot
  have hslot : ∀ n i, (v.load node).slot n i = v.slot n i := by
    intro n i
    rw [Volume.slot, hdin]
    rfl
  refine ⟨h.sound.congr rfl rfl (fun n _ => by rw [hdin]) fun n i _ => hslot n i, fun n hn => ?_⟩
  refine ⟨by rw [hdin]; exact (h.sized n hn).le, fun i => ?_⟩
  rw [hdin, hslot]
  exact (h.sized n hn).slot i

theorem SizeCall.recast (c : SizeCall) (h : Mapped own v) (hon : c.On own v)
    (hlen : blocksFor c.len.toNat ≤ maxBlocks) (hio : ∀ k, io k = 0) :
    Ends (fun _ => True) (c.run io) v fun _ t => ∃ own', Recast own own' v t := by
  by_cases hresizes : c.Resizes v
  · rw [c.run_resizes hon hresizes]
    apply (sfsTruncfile_spec h hon.inode hon.cached hlen).mono (fun _ _ => trivial)
    exact fun ret t hend => hend.recast h hio
  · apply (c.run_idle hon hresizes).lift
    rintro ret t ⟨_, rfl⟩
    exact ⟨own, h, fun _ => Iff.rfl, fun _ => Iff.rfl, fun _ hx => hx, rfl⟩

theorem FileStep.wellFormed {fixed : Nat → Prop} {p q : (BitVec 32 → Prop) × Volume}
    (hstep : FileStep p q) (h : WellFormed fixed p.1 p.2) : WellFormed fixed q.1 q.2 := by
  obtain ⟨own, hmapped, hlost, hfixed, hfiles⟩ := h
  cases hstep with
  | load files v node _ hnot => exact ⟨own, hmapped.load hnot, hlost, hfixed, hfiles⟩
  | size files v t c ret hfile hcached hlen hrun =>
      have hends := @SizeCall.recast (fun _ => 0) own v c hmapped ⟨(hfiles _).mpr hfile, hcached⟩
        hlen fun _ => rfl
      replace hends := hends.post hrun
      obtain ⟨own', hrecast⟩ := hends
      exact of_recast hrecast hlost hfixed hfiles
  | busy files v t node refs ret hfile hcached hlinks hrun hret =>
      have hends := @sfsReclaim_spec (fun _ => 0) own v node hmapped ((hfiles _).mpr hfile) hcached
        hlinks (fun _ => rfl) refs
      replace hends := hends.post hrun
      rcases hends with ⟨_, own', hrecast⟩ | ⟨hzero, _⟩
      · exact of_recast hrecast hlost hfixed hfiles
      · exact absurd hzero hret
  | reclaim files v t node refs hfile hcached hlinks hrun =>
      have hends := @sfsReclaim_spec (fun _ => 0) own v node hmapped ((hfiles _).mpr hfile) hcached
        hlinks (fun _ => rfl) refs
      replace hends := hends.post hrun
      rcases hends with ⟨hzero, _⟩ | ⟨_, own', hdeleted⟩
      · exact absurd rfl hzero
      · refine ⟨own', hdeleted.mapped, fun b hb => hlost b (hdeleted.lost b hb),
          fun b => (hdeleted.fixed b).trans (hfixed b), fun n => ?_⟩
        rw [hdeleted.inode, hfiles]
        constructor
        · rintro ⟨hne, hn⟩
          exact ⟨hn, fun heq => hne (by rw [heq])⟩
        · rintro ⟨hn, hne⟩
          exact ⟨fun heq => hne (BitVec.eq_of_toNat_eq heq), hn⟩

theorem WellFormed.accounts {fixed : Nat → Prop} {files : BitVec 32 → Prop}
    (h : WellFormed fixed files v) : Accounts fixed files v := by
  obtain ⟨own, hmapped, hlost, hfixed, hfiles⟩ := h
  have hsound := hmapped.sound
  have hplace : ∀ p : Place, files p.file → v.numberAt p ≠ 0 →
      own (v.numberAt p).toNat = match p with
        | .slot node i => .data node i
        | .indirect node => .index node := by
    intro p hp hne
    cases p with
    | slot node i => exact hsound.data_of ((hfiles _).mpr hp) hne
    | indirect node => exact hsound.index_of ((hfiles _).mpr hp) hne
  have hunshared : ∀ p q : Place, files p.file → files q.file → v.numberAt p ≠ 0 →
      v.numberAt p = v.numberAt q → p = q := by
    intro p q hp hq hne heq
    have hown := hplace p hp hne
    rw [heq, hplace q hq (heq ▸ hne)] at hown
    cases p with
    | slot node i =>
        cases q with
        | slot node' i' =>
            obtain ⟨rfl, rfl⟩ := Owner.data.inj hown
            rfl
        | indirect node' => cases hown
    | indirect node =>
        cases q with
        | slot node' i' => cases hown
        | indirect node' =>
            obtain rfl := Owner.index.inj hown
            rfl
  refine ⟨hsound.unused, fun x hx hused hnot hinode => ?_, hunshared, fun p hp hne => ?_,
    fun n hn i hi => ?_⟩
  · have hexists : ∃ p : Place, files p.file ∧ (v.numberAt p).toNat = x ∧ x ≠ 0 := by
      cases hown : own x with
      | free => exact absurd ((hsound.free x).mp hown) hused
      | fixed => exact absurd ((hfixed x).mp hown) hnot
      | lost => exact absurd hown (hlost x)
      | inode =>
          have hsmall := hsound.small
          have hnumber : (BitVec.ofNat 32 x).toNat = x := by
            rw [BitVec.toNat_ofNat]
            omega
          exact absurd hnumber (hinode _ ((hfiles _).mp (by rw [hnumber, hown])))
      | index node =>
          obtain ⟨hn, hnumber, hne⟩ := (hsound.index x node).mp hown
          exact ⟨.indirect node, (hfiles _).mp hn, hnumber, hne⟩
      | data node i =>
          obtain ⟨hn, hnumber, hne⟩ := (hsound.data x node i).mp hown
          exact ⟨.slot node i, (hfiles _).mp hn, hnumber, hne⟩
    obtain ⟨p, hp, hnumber, hne⟩ := hexists
    have hpne : v.numberAt p ≠ 0 := ne_zero_of_toNat (by rwa [hnumber])
    refine ⟨p, ⟨hp, hnumber⟩, ?_⟩
    rintro q ⟨hq, hnumber'⟩
    exact (hunshared p q hp hq hpne (BitVec.eq_of_toNat_eq (hnumber.trans hnumber'.symm))).symm
  · have hown := hplace p hp hne
    refine ⟨fun hfree => ?_, fun hin => ?_, fun n hn heq => ?_⟩
    · rw [(hsound.free _).mpr hfree] at hown
      cases p <;> cases hown
    · rw [(hfixed _).mpr hin] at hown
      cases p <;> cases hown
    · rw [← heq, (hfiles n).mpr hn] at hown
      cases p <;> cases hown
  · by_contra hne
    have := ((hmapped.sized n ((hfiles n).mpr hn)).slot i).mp hne
    omega

/-- Over every run of loading, resizing and deleting files on a device that works, also where
a growth ends half way because there is no space left, the blocks are accounted for. -/
theorem blocks_accounted {fixed : Nat → Prop} {files files' : BitVec 32 → Prop}
    (h : WellFormed fixed files v) (hrun : Relation.ReflTransGen FileStep (files, v) (files', t)) :
    Accounts fixed files' t := by
  have hwell : ∀ q, Relation.ReflTransGen FileStep (files, v) q → WellFormed fixed q.1 q.2 := by
    intro q hq
    induction hq with
    | refl => exact h
    | tail _ hstep ih => exact hstep.wellFormed ih
  exact (hwell _ hrun).accounts

theorem newVolume_wellFormed {k : Nat} (hpos : 0 < k) (hsmall : k ≤ 2 ^ 15) :
    WellFormed (fun b => b < 3 ∨ 32 * k ≤ b) (fun n => n = 3) (newVolume k) := by
  refine ⟨newOwner k, newVolume_mapped hpos hsmall, fun b hb => ?_, fun b => ?_, fun n => ?_⟩
  · unfold newOwner at hb
    split at hb
    · cases hb
    · split at hb <;> cases hb
  · unfold newOwner
    split
    next heq => exact iff_of_false (by simp) (by omega)
    next =>
      split
      next => exact iff_of_false (by simp) (by omega)
      next => exact iff_of_true rfl (by omega)
  · exact ⟨newOwner_inode, fun heq => by rw [heq]; rfl⟩

/-- A file gets thirteen blocks and then more than there are; after that it is cut to one. -/
theorem growths_run : yields ((SizeCall.truncfile 3 53248).run fun _ => 0)
    (newVolume 1) (fun ret t =>
    decide (ret = 0 ∧ 3 ∈ t.inodeList) &&
      yields ((SizeCall.truncfile 3 409600).run fun _ => 0) t fun ret u =>
        decide (ret = -E_NO_MEM ∧ 3 ∈ u.inodeList ∧ 13 < (u.sin 3).din.blocks.toNat) &&
          yields ((SizeCall.truncfile 3 4096).run fun _ => 0) u fun ret _ =>
            decide (ret = 0)) = true := by
  decide +kernel

/-- The second growth ends half way; the blocks that it got are accounted for, and given back. -/
theorem blocks_accounted_growths : ∃ t u w,
    (SizeCall.truncfile 3 53248).run (fun _ => 0) (newVolume 1) = .ok (0, t) ∧
    (SizeCall.truncfile 3 409600).run (fun _ => 0) t = .ok (-E_NO_MEM, u) ∧
    13 < (u.sin 3).din.blocks.toNat ∧ Accounts (fun b => b < 3 ∨ 32 * 1 ≤ b) (fun n => n = 3) u ∧
    (SizeCall.truncfile 3 4096).run (fun _ => 0) u = .ok (0, w) ∧
    Accounts (fun b => b < 3 ∨ 32 * 1 ≤ b) (fun n => n = 3) w := by
  have hwell := @newVolume_wellFormed 1 (by decide) (by decide)
  have hlisted : (3 : BitVec 32) ∈ (newVolume 1).inodeList := List.mem_singleton.mpr rfl
  have hyields := growths_run
  -- the volume stays a variable here, or the elaborator runs the calls
  generalize newVolume 1 = v at hwell hlisted hyields ⊢
  obtain ⟨_, t, hfirst, hafter⟩ := (Ends.of_yields hyields).ok
  obtain ⟨hret, hrest⟩ := Bool.and_eq_true_iff.mp hafter
  obtain ⟨rfl, hlisted'⟩ := of_decide_eq_true hret
  obtain ⟨_, u, hsecond, hafter'⟩ := (Ends.of_yields hrest).ok
  obtain ⟨hret', hrest'⟩ := Bool.and_eq_true_iff.mp hafter'
  obtain ⟨rfl, hlisted'', hblocks⟩ := of_decide_eq_true hret'
  obtain ⟨_, w, hthird, hret''⟩ := (Ends.of_yields hrest').ok
  obtain rfl := of_decide_eq_true hret''
  have hgrown : Relation.ReflTransGen FileStep (fun n => n = 3, v) (fun n => n = 3, u) :=
    .tail (.single (.size _ _ t (.truncfile 3 53248) 0 rfl hlisted (by decide) hfirst))
      (.size _ _ u (.truncfile 3 409600) _ rfl hlisted' (by decide) hsecond)
  have hcut := hgrown.tail (.size _ _ w (.truncfile 3 4096) 0 rfl hlisted'' (by decide) hthird)
  exact ⟨t, u, w, hfirst, hsecond, hblocks, blocks_accounted hwell hgrown, hthird,
    blocks_accounted hwell hcut⟩

end Ucore.Sfs
