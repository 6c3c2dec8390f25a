import Ucore.Sfs.Allocate

/-!
# Growing and shrinking a file

What the loops of `sfs_truncfile` do to a volume whose inodes have a block behind every
slot up to their number of blocks and none behind the others. A failure in the middle of a
loop leaves the blocks that were added or freed before it.
-/

namespace Ucore.Sfs

open Machine

variable {io : Nat → Int} {own own' own'' : Nat → Owner} {v t u : Volume} {node n b : BitVec 32}
  {i j : Nat}

/-- An inode has blocks behind its first slots. -/
structure SizedAt (v : Volume) (node : BitVec 32) : Prop where
  le : (v.din node).blocks.toNat ≤ maxBlocks
  slot : ∀ i, v.slot node i ≠ 0 ↔ i < (v.din node).blocks.toNat

/-- A sound volume whose inodes have blocks behind their first slots, as many as they say, and
behind no others. -/
structure Mapped (own : Nat → Owner) (v : Volume) : Prop where
  sound : Sound own v
  sized : ∀ n, own n.toNat = .inode → SizedAt v n

theorem Framed.din (h : Framed node own own' v t) (hne : n ≠ node) (hn : own n.toNat = .inode) :
    t.din n = v.din n := by
  unfold Volume.din
  rw [h.list, h.others n hne, h.disk n.toNat (.inl hn)]

theorem Framed.sizedAt (h : Framed node own own' v t) (hne : n ≠ node) (hn : own n.toNat = .inode)
    (hv : SizedAt v n) : SizedAt t n := by
  have hdin := h.din hne hn
  refine ⟨by rw [hdin]; exact hv.le, fun i => ?_⟩
  rw [hdin, h.slots n i hne hn]
  exact hv.slot i

theorem Framed.mapped (h : Framed node own own' v t) (hv : Mapped own v) (hnode : SizedAt t node) :
    Mapped own' t := by
  refine ⟨h.sound, fun n hn => ?_⟩
  rw [h.inode] at hn
  by_cases hne : n = node
  · rw [hne]
    exact hnode
  · exact h.sizedAt hne hn (hv.sized n hn)

theorem Untouched.mapped (h : Untouched own own' v t) (hv : Mapped own v) : Mapped own' t := by
  refine ⟨h.sound, fun n hn => ?_⟩
  rw [h.same n.toNat .inode rfl] at hn
  have hdin := h.din hn
  have hsized := hv.sized n hn
  refine ⟨by rw [hdin]; exact hsized.le, fun i => ?_⟩
  rw [hdin, h.slot hv.sound hn]
  exact hsized.slot i

/-! ## One block more -/

/-- What an inode has besides its size and its blocks. -/
structure SameInode (node : BitVec 32) (v t : Volume) : Prop where
  size : (t.din node).size = (v.din node).size
  type : (t.din node).type = (v.din node).type
  nlinks : (t.din node).nlinks = (v.din node).nlinks
  reclaim : (t.sin node).reclaimCount = (v.sin node).reclaimCount

theorem SameInode.refl : SameInode node v v := ⟨rfl, rfl, rfl, rfl⟩

theorem SameInode.trans (h : SameInode node v t) (h' : SameInode node t u) : SameInode node v u :=
  ⟨h'.size.trans h.size, h'.type.trans h.type, h'.nlinks.trans h.nlinks, h'.reclaim.trans h.reclaim⟩

/-- A file has got `m` more blocks. -/
structure Grown (io : Nat → Int) (own own' : Nat → Owner) (v t : Volume) (node : BitVec 32)
    (m : Nat) : Prop where
  framed : Framed node own own' v t
  mapped : Mapped own' t
  same : SameInode node v t
  blocks : (t.din node).blocks.toNat = (v.din node).blocks.toNat + m
  dirty : (t.sin node).dirty = ((v.sin node).dirty || decide (0 < m ∧
    ((v.din node).blocks.toNat < SFS_NDIRECT ∨ (v.din node).indirect = 0)))
  idle : m = 0 → t.sin node = v.sin node
  lost : (∀ k, io k = 0) → ∀ x, own' x = .lost → own x = .lost

theorem Untouched.grown (h : Untouched own own' v t) (hv : Mapped own v)
    (hnode : own node.toNat = .inode)
    (hlost : (∀ k, io k = 0) → ∀ x, own' x = .lost → own x = .lost) :
    Grown io own own' v t node 0 where
  framed := h.framed hv.sound node
  mapped := h.mapped hv
  same := by
    have hdin := h.din hnode
    exact ⟨by rw [hdin], by rw [hdin], by rw [hdin], by rw [h.sin]⟩
  blocks := by rw [h.din hnode]; rfl
  dirty := by rw [h.sin]; simp
  idle _ := by rw [h.sin]
  lost := hlost

theorem Missed.grown (h : Missed io own v node j t) (hv : Mapped own v)
    (hnode : own node.toNat = .inode) : ∃ own', Grown io own own' v t node 0 := by
  obtain ⟨own', huntouched, hout⟩ := h
  refine ⟨own', huntouched.grown hv hnode fun hio x hx => ?_⟩
  rcases hout with ⟨_, rfl, _⟩ | ⟨hclear, _⟩
  · exact hx
  · -- a device without errors loses no block
    have hfails := hclear.fails
    split at hfails
    · exact absurd (hio _) hfails
    · split at hfails
      · exact absurd (hio _) hfails.2
      · rcases hfails with hfail | hfail
        · exact absurd (hio _) hfail
        · exact absurd (hio _) hfail.2

/-- The volume after `din->blocks ++`. -/
def Volume.bump (v : Volume) (node : BitVec 32) : Volume :=
  v.setSin node { v.sin node with
    din := { (v.sin node).din with blocks := (v.sin node).din.blocks + 1 } }

theorem slot_setSin_same (hcached : node ∈ v.inodeList) (sin : SfsInode)
    (hdirect : sin.din.direct = (v.sin node).din.direct)
    (hindirect : sin.din.indirect = (v.sin node).din.indirect) (n : BitVec 32) (i : Nat) :
    (v.setSin node sin).slot n i = v.slot n i := by
  rw [slot_setSin hcached]
  split
  next heq =>
    rw [heq, Volume.slot, din_cached hcached, DiskInode.slot, DiskInode.slot, hdirect, hindirect]
  next => rfl

/-- An inode gets other numbers and flags, and keeps its block map. -/
theorem Framed.setSin_same (h : Sound own v) (hcached : node ∈ v.inodeList) (sin : SfsInode)
    (hdirect : sin.din.direct = (v.sin node).din.direct)
    (hindirect : sin.din.indirect = (v.sin node).din.indirect) :
    Framed node own own v (v.setSin node sin) := by
  have hsound : Sound own (v.setSin node sin) := by
    apply Sound.congr (t := v.setSin node sin) h rfl rfl
    · intro n _
      rw [din_setSin hcached]
      split
      next heq => rw [heq, din_cached hcached, hindirect]
      next => rfl
    · exact fun n i _ => slot_setSin_same hcached sin hdirect hindirect n i
  exact .setSin hcached hsound (fun _ => Iff.rfl) fun _ => Iff.rfl

theorem Mapped.setSin_same (h : Mapped own v) (hcached : node ∈ v.inodeList) (sin : SfsInode)
    (hdirect : sin.din.direct = (v.sin node).din.direct)
    (hindirect : sin.din.indirect = (v.sin node).din.indirect)
    (hblocks : sin.din.blocks = (v.sin node).din.blocks) : Mapped own (v.setSin node sin) := by
  have hframed := Framed.setSin_same h.sound hcached sin hdirect hindirect
  refine ⟨hframed.sound, fun n hn => ?_⟩
  have hsized := h.sized n hn
  have hdin : ((v.setSin node sin).din n).blocks = (v.din n).blocks := by
    rw [din_setSin hcached]
    split
    next heq => rw [heq, din_cached hcached, hblocks]
    next => rfl
  refine ⟨by rw [hdin]; exact hsized.le, fun i => ?_⟩
  rw [hdin, slot_setSin_same hcached sin hdirect hindirect]
  exact hsized.slot i

/-- One more block, with what it took. -/
structure Appended (io : Nat → Int) (own own' : Nat → Owner) (v t : Volume) (node : BitVec 32)
    (j : Nat) : Prop where
  grown : Grown io own own' v t node 1
  fits : Fits io v node j
  room : t.freemap.bits.card + v.loadRoom node j = v.freemap.bits.card
  ios : t.ios = v.ios + loadIos j
  indirect : if j < SFS_NDIRECT then (t.din node).indirect = (v.din node).indirect
    else (t.din node).indirect ≠ 0

theorem toNat_succ {x : BitVec 32} (hlt : x.toNat < maxBlocks) : (x + 1).toNat = x.toNat + 1 := by
  have hmax : maxBlocks = 1036 := rfl
  have hone : (1 : BitVec 32).toNat = 1 := rfl
  rw [BitVec.toNat_add, hone]
  omega

theorem slot_bump (hcached : node ∈ v.inodeList) (n : BitVec 32) (i : Nat) :
    (v.bump node).slot n i = v.slot n i := by
  unfold Volume.bump
  rw [slot_setSin_same hcached]
  · rfl
  · rfl

theorem Framed.bump (h : Sound own v) (hcached : node ∈ v.inodeList) :
    Framed node own own v (v.bump node) := by
  apply Framed.setSin_same h hcached
  · rfl
  · rfl

/-- `din->blocks ++` after a block was put behind the next slot. -/
theorem Filled.bump (h : Filled io own own' v t node j b) (hv : Mapped own v)
    (hnode : own node.toNat = .inode) (hcached : node ∈ v.inodeList)
    (hj : j = (v.din node).blocks.toNat) (hlt : j < maxBlocks) :
    Appended io own own' v (t.bump node) node j := by
  have hcached' : node ∈ t.inodeList := by rwa [h.framed.list]
  have hdin := din_cached hcached
  have hdin' := din_cached hcached'
  obtain ⟨direct, indirect, hfields⟩ := h.din
  have hbump : (t.bump node).din node = { t.din node with blocks := (t.din node).blocks + 1 } := by
    rw [Volume.bump, din_setSin hcached', if_pos rfl, hdin']
  have hself : (t.bump node).sin node = { t.sin node with
      din := { (t.sin node).din with blocks := (t.sin node).din.blocks + 1 } } :=
    Function.update_self _ _ _
  have hframed := h.framed.trans (.bump h.framed.sound hcached')
  have hold : (t.din node).blocks = (v.din node).blocks := by rw [hdin', hfields, hdin]
  have hblocks : ((t.bump node).din node).blocks.toNat = j + 1 := by
    rw [hbump]
    show ((t.din node).blocks + 1).toNat = j + 1
    rw [hold, toNat_succ (hj ▸ hlt), hj]
  have hsized : SizedAt (t.bump node) node := by
    refine ⟨by rw [hblocks]; exact hlt, fun i => ?_⟩
    rw [hblocks, slot_bump hcached', h.slot]
    have hbelow := (hv.sized node hnode).slot i
    rw [← hj] at hbelow
    split
    next heq => exact iff_of_true h.ne_zero (by omega)
    next hne =>
      rw [hbelow]
      omega
  refine {
    grown := {
      framed := hframed
      mapped := hframed.mapped hv hsized
      same := ⟨?_, ?_, ?_, ?_⟩
      blocks := by rw [hblocks, hj]
      dirty := ?_
      idle := fun hzero => absurd hzero Nat.one_ne_zero
      lost := fun _ x hx => h.lost x hx }
    fits := h.fits
    room := h.room
    ios := h.ios
    indirect := by rw [hbump]; exact h.indirect }
  · rw [hbump]
    show (t.din node).size = _
    rw [hdin', hfields, hdin]
  · rw [hbump]
    show (t.din node).type = _
    rw [hdin', hfields, hdin]
  · rw [hbump]
    show (t.din node).nlinks = _
    rw [hdin', hfields, hdin]
  · rw [hself]
    exact h.reclaim
  · rw [hself, ← hj]
    show (t.sin node).dirty = _
    have hdirty := h.dirty
    split at hdirty
    next hset => rw [hdirty, decide_eq_true ⟨Nat.one_pos, hset⟩, Bool.or_true]
    next hset => rw [hdirty, decide_eq_false fun hin => hset hin.2, Bool.or_false]

theorem sfsBmapLoadNolock_grow (h : Mapped own v) (hnode : own node.toNat = .inode)
    (hcached : node ∈ v.inodeList) (hj : j = (v.din node).blocks.toNat) (hlt : j < maxBlocks) :
    Ends never (sfsBmapLoadNolock io node j) v fun r t => ∃ own',
      match r with
      | .ok _ => Appended io own own' v t node j
      | .error ret => IsError io ret ∧ ¬Fits io v node j ∧ Grown io own own' v t node 0 := by
  have hempty : v.slot node j = 0 := by
    by_contra hne
    have := ((h.sized node hnode).slot j).mp hne
    omega
  have hblocks : j = (v.sin node).din.blocks.toNat := by rwa [← din_cached hcached]
  rw [sfsBmapLoadNolock, ends_bind, ends_get]
  simp only
  rw [ends_bind, ends_check (Nat.le_of_eq hblocks), ends_bind, decide_eq_true hblocks]
  apply (sfsBmapGetNolock_create h.sound hnode hcached hlt).imp
  intro r t hgot
  cases r with
  | error ret =>
      obtain ⟨herror, hmissed, hfits⟩ := hgot
      obtain ⟨own', hgrown⟩ := hmissed.grown h hnode
      exact ⟨own', herror, hfits hempty, hgrown⟩
  | ok b =>
      rcases hgot with ⟨_, hne, _⟩ | ⟨own', hfilled⟩
      · exact absurd hempty hne
      · simp only
        rw [ends_bind]
        apply (sfsBlockInuse_of hfilled.framed.sound (by simp [hfilled.used])
          (by simp [hfilled.used])).imp
        rintro r u ⟨rfl, rfl⟩
        rw [ends_bind, ends_check rfl, ends_bind, growBlocks, if_pos rfl, ends_modify]
        exact ⟨own', hfilled.bump h hnode hcached hj hlt⟩

/-! ## A block that is there -/

/-- The device has returned an error. -/
def DeviceError (io : Nat → Int) (ret : Int) : Prop := ∃ k, ret = io k ∧ ret ≠ 0

/-- Without `create`, the block map is only read. -/
theorem sfsBmapGetNolock_read (h : Sound own v) (hnode : own node.toNat = .inode)
    (hcached : node ∈ v.inodeList) (hj : j < maxBlocks) (hfull : v.slot node j ≠ 0) :
    Ends never (sfsBmapGetNolock io node j false) v fun r t => (∃ k, t = v.tick k) ∧
      (r = .ok (v.slot node j) ∨ ∃ ret, r = .error ret ∧ DeviceError io ret) := by
  have hdin := din_cached hcached
  have hdata := h.data_of hnode hfull
  have huse : v.InUse (v.slot node j) := h.inUse (by simp [hdata]) (by simp [hdata])
  rw [sfsBmapGetNolock, ends_bind, ends_get]
  change Ends _ (if h : j < SFS_NDIRECT then _ else _) v _
  by_cases hdirect : j < SFS_NDIRECT
  · have hslot : v.slot node j = (v.sin node).din.direct ⟨j, hdirect⟩ := by
      rw [Volume.slot, hdin, DiskInode.slot, dif_pos hdirect]
    rw [dif_pos hdirect, if_neg (by simp), ← hslot]
    apply (bmapOut_spec h.covered (.inr huse)).imp
    rintro r t ⟨rfl, rfl⟩
    exact ⟨⟨0, rfl⟩, .inl rfl⟩
  · have hlow := Nat.le_of_not_lt hdirect
    have hindex : j - SFS_NDIRECT < SFS_BLK_NENTRY := by
      unfold maxBlocks at hj
      omega
    have hoffset : 4 * (j - SFS_NDIRECT) + 4 ≤ SFS_BLKSIZE := by
      unfold SFS_BLK_NENTRY SFS_BLKSIZE at hindex
      unfold SFS_BLKSIZE
      omega
    have hne : (v.din node).indirect ≠ 0 := fun hzero => hfull (DiskInode.slot_none _ _ hlow hzero)
    have hent := h.index_of hnode hne
    have hslot : v.slot node j = word (v.disk (v.din node).indirect.toNat) (j - SFS_NDIRECT) :=
      DiskInode.slot_indirect _ _ hlow hj hne
    rw [dif_neg hdirect, if_pos hindex, ends_bind, ← hdin, sfsBmapGetSubNolock, ends_bind,
      ends_check hindex, if_pos hne, ends_bind]
    apply (sfsRbuf_spec (h.valid (by simp [hent])) (by omega) hoffset).imp
    rintro r t ⟨rfl, hread⟩
    cases r with
    | error ret => exact ⟨⟨1, rfl⟩, .inr ⟨ret, rfl, v.ios, hread⟩⟩
    | ok buf =>
        obtain ⟨_, rfl⟩ := hread
        have hword :
            word (fun k => v.disk (v.din node).indirect.toNat (4 * (j - SFS_NDIRECT) + k)) 0 =
              v.slot node j := by
          rw [hslot]
          rfl
        simp only
        rw [hword, if_pos (.inl hfull), ends_pure]
        simp only
        rw [if_neg (not_not.mpr rfl)]
        have hout := bmapOut_spec (v := v.tick 1) h.covered
          (.inr ⟨huse.ne_zero, huse.lt, huse.used⟩ : v.slot node j = 0 ∨
            (v.tick 1).InUse (v.slot node j))
        apply hout.imp
        rintro r t ⟨rfl, rfl⟩
        exact ⟨⟨1, rfl⟩, .inl rfl⟩

theorem sfsBmapLoadNolock_read (h : Mapped own v) (hnode : own node.toNat = .inode)
    (hcached : node ∈ v.inodeList) (hlt : j < (v.din node).blocks.toNat) :
    Ends never (sfsBmapLoadNolock io node j) v fun r t => (∃ k, t = v.tick k) ∧
      (r = .ok (v.slot node j) ∨ ∃ ret, r = .error ret ∧ DeviceError io ret) := by
  have hsized := h.sized node hnode
  have hfull : v.slot node j ≠ 0 := (hsized.slot j).mpr hlt
  have hblocks : j < (v.sin node).din.blocks.toNat := by rwa [← din_cached hcached]
  rw [sfsBmapLoadNolock, ends_bind, ends_get]
  simp only
  rw [ends_bind, ends_check (Nat.le_of_lt hblocks), ends_bind,
    decide_eq_false (Nat.ne_of_lt hblocks)]
  apply (sfsBmapGetNolock_read h.sound hnode hcached (Nat.lt_of_lt_of_le hlt hsized.le) hfull).imp
  rintro r t ⟨⟨k, rfl⟩, hr⟩
  rcases hr with rfl | ⟨ret, rfl, herror⟩
  · have hdata := h.sound.data_of hnode hfull
    simp only
    rw [ends_bind]
    apply (sfsBlockInuse_of (h.sound.tick k) (by simp [hdata]) (by simp [hdata])).imp
    rintro r t ⟨rfl, rfl⟩
    rw [ends_bind, ends_check rfl, ends_bind, growBlocks, if_neg (by simp), ends_pure]
    exact ⟨⟨k, rfl⟩, .inl rfl⟩
  · exact ⟨⟨k, rfl⟩, .inr ⟨ret, rfl, herror⟩⟩

/-! ## The loop that adds blocks -/

/-- The calls of the device for `left` more blocks. -/
def growIos : Nat → Nat → Nat
  | _, 0 => 0
  | j, left + 1 => loadIos j + growIos (j + 1) left

/-- The blocks that `left` more blocks of the file take. -/
def Volume.growRoom (v : Volume) (node : BitVec 32) (j left : Nat) : Nat :=
  if SFS_NDIRECT < j + left ∧ (v.din node).indirect = 0 then left + 1 else left

/-- There is room for `left` more blocks, and the device serves the calls. -/
structure FitsAll (io : Nat → Int) (v : Volume) (node : BitVec 32) (j left : Nat) : Prop where
  io : ∀ k < growIos j left, io (v.ios + k) = 0
  room : v.growRoom node j left ≤ v.freemap.bits.card

theorem Appended.growRoom {left : Nat} (h : Appended io own own' v t node j) :
    v.growRoom node j (left + 1) = v.loadRoom node j + t.growRoom node (j + 1) left := by
  have hindirect := h.indirect
  unfold Volume.growRoom Volume.loadRoom
  by_cases hj : j < SFS_NDIRECT
  · rw [if_pos hj] at hindirect
    rw [hindirect, if_neg fun hin : SFS_NDIRECT ≤ j ∧ _ => Nat.not_lt_of_le hin.1 hj]
    have hsum : j + 1 + left = j + (left + 1) := by omega
    rw [hsum]
    split <;> omega
  · rw [if_neg hj] at hindirect
    have hlow := Nat.le_of_not_lt hj
    rw [if_neg fun hin : SFS_NDIRECT < j + 1 + left ∧ _ => hindirect hin.2]
    by_cases hzero : (v.din node).indirect = 0
    · rw [if_pos ⟨by omega, hzero⟩, if_pos ⟨hlow, hzero⟩]
      omega
    · rw [if_neg fun hin => hzero hin.2, if_neg fun hin => hzero hin.2]
      omega

theorem Appended.fitsAll_iff {left : Nat} (h : Appended io own own' v t node j) :
    FitsAll io v node j (left + 1) ↔ FitsAll io t node (j + 1) left := by
  have hroom := @Appended.growRoom _ _ _ _ _ _ _ left h
  have hcard := h.room
  constructor
  · intro hall
    refine ⟨fun k hk => ?_, ?_⟩
    · have hserved := hall.io (loadIos j + k) (Nat.add_lt_add_left hk _)
      rwa [← Nat.add_assoc, ← h.ios] at hserved
    · have := hall.room
      omega
  · intro hall
    refine ⟨fun k hk => ?_, ?_⟩
    · by_cases hfirst : k < loadIos j
      · exact h.fits.io k hfirst
      · have hk : k < loadIos j + growIos (j + 1) left := hk
        have hserved := hall.io (k - loadIos j) (by omega)
        rw [h.ios] at hserved
        rwa [show v.ios + loadIos j + (k - loadIos j) = v.ios + k by omega] at hserved
    · have := hall.room
      omega

theorem FitsAll.fits {left : Nat} (h : FitsAll io v node j (left + 1)) : Fits io v node j := by
  refine ⟨fun k hk => h.io k (Nat.lt_of_lt_of_le hk (Nat.le_add_right _ _)), ?_⟩
  have hroom := h.room
  unfold Volume.growRoom at hroom
  unfold Volume.loadRoom
  split
  next hin =>
    rw [if_pos ⟨by omega, hin.2⟩] at hroom
    omega
  next =>
    split at hroom <;> omega

theorem Mapped.fitsAll_zero (h : Mapped own v) (hnode : own node.toNat = .inode) :
    FitsAll io v node (v.din node).blocks.toNat 0 := by
  refine ⟨fun k hk => absurd hk (Nat.not_lt_zero k), ?_⟩
  -- an inode with more blocks than direct slots has an indirect block
  have hnone : ¬(SFS_NDIRECT < (v.din node).blocks.toNat + 0 ∧ (v.din node).indirect = 0) := by
    rintro ⟨hlow, hzero⟩
    exact ((h.sized node hnode).slot SFS_NDIRECT).mpr hlow
      (DiskInode.slot_none _ _ (Nat.le_refl _) hzero)
  rw [Volume.growRoom, if_neg hnone]
  exact Nat.zero_le _

/-- One block, and then `m` more. -/
theorem Appended.then {m : Nat} (h : Appended io own own' v t node j)
    (hj : j = (v.din node).blocks.toNat)
    (h' : Grown io own' own'' t u node m) : Grown io own own'' v u node (m + 1) where
  framed := h.grown.framed.trans h'.framed
  mapped := h'.mapped
  same := h.grown.same.trans h'.same
  blocks := by
    rw [h'.blocks, h.grown.blocks]
    omega
  dirty := by
    rw [h'.dirty, h.grown.dirty, ← hj, h.grown.blocks, ← hj, decide_eq_decide.mpr
      (show 0 < 1 ∧ (j < SFS_NDIRECT ∨ (v.din node).indirect = 0) ↔
        0 < m + 1 ∧ (j < SFS_NDIRECT ∨ (v.din node).indirect = 0) by simp)]
    have hindirect := h.indirect
    by_cases hset : j < SFS_NDIRECT ∨ (v.din node).indirect = 0
    · rw [decide_eq_true ⟨Nat.succ_pos m, hset⟩, Bool.or_true, Bool.true_or]
    · have hj' := fun hlow => hset (.inl hlow)
      rw [if_neg hj'] at hindirect
      have hfalse : ¬(0 < m ∧ (j + 1 < SFS_NDIRECT ∨ (t.din node).indirect = 0)) := by
        rintro ⟨_, hlow | hzero⟩
        · omega
        · exact hindirect hzero
      rw [decide_eq_false fun hin => hset hin.2, decide_eq_false hfalse, Bool.or_false]
  idle hzero := absurd hzero (Nat.succ_ne_zero m)
  lost hio x hx := h.grown.lost hio x (h'.lost hio x hx)

/-- What comes of a loop that adds up to `left` blocks. -/
structure GrowEnd (io : Nat → Int) (own : Nat → Owner) (v t : Volume) (node : BitVec 32)
    (left : Nat) (ret : Int) (m : Nat) : Prop where
  grown : ∃ own', Grown io own own' v t node m
  le : m ≤ left
  error : ret = 0 ∨ IsError io ret
  done : ret = 0 ↔ m = left
  fits : ret = 0 ↔ FitsAll io v node (v.din node).blocks.toNat left
  first : 0 < m ↔ 0 < left ∧ Fits io v node (v.din node).blocks.toNat

theorem IsError.ne_zero {ret : Int} (h : IsError io ret) : ret ≠ 0 := by
  rcases h with rfl | ⟨_, _, hne⟩
  · decide
  · exact hne

theorem growFile_spec : ∀ (left j : Nat) (own : Nat → Owner) (v : Volume), Mapped own v →
    own node.toNat = .inode → node ∈ v.inodeList → j = (v.din node).blocks.toNat →
    j + left ≤ maxBlocks → Ends never (growFile io node left j) v fun ret t => ∃ m,
      GrowEnd io own v t node left ret m := by
  intro left
  induction left with
  | zero =>
      intro j own v hv hnode hcached hj _
      exact ⟨0, ⟨own, (Untouched.refl hv.sound).grown hv hnode fun _ _ hx => hx⟩, Nat.le_refl _,
        .inl rfl, by simp, ⟨fun _ => hv.fitsAll_zero hnode, fun _ => rfl⟩, by simp⟩
  | succ left ih =>
      intro j own v hv hnode hcached hj hle
      rw [growFile, ends_bind]
      apply (sfsBmapLoadNolock_grow hv hnode hcached hj (by omega)).imp
      rintro r t ⟨own', hr⟩
      cases r with
      | error ret =>
          obtain ⟨herror, hfits, hgrown⟩ := hr
          have hne := herror.ne_zero
          rw [hj] at hfits
          refine ⟨0, ⟨own', hgrown⟩, Nat.zero_le _, .inr herror, ?_, ?_, ?_⟩
          · exact iff_of_false hne (by omega)
          · exact iff_of_false hne fun hall => hfits hall.fits
          · exact iff_of_false (Nat.lt_irrefl 0) fun hall => hfits hall.2
      | ok b =>
          have hgrown := hr.grown
          have hblocks : j + 1 = (t.din node).blocks.toNat := by rw [hgrown.blocks, ← hj]
          apply (ih (j + 1) own' t hgrown.mapped ((hgrown.framed.inode _).mpr hnode)
            (by rwa [hgrown.framed.list]) hblocks (by omega)).imp
          rintro ret u ⟨m, hend⟩
          obtain ⟨own'', hgrown'⟩ := hend.grown
          have hle' := hend.le
          refine ⟨m + 1, ⟨own'', hr.then hj hgrown'⟩, by omega, hend.error, ?_, ?_, ?_⟩
          · rw [hend.done]
            omega
          · rw [hend.fits, ← hblocks, ← hj]
            exact hr.fitsAll_iff.symm
          · rw [← hj]
            exact iff_of_true (Nat.succ_pos m) ⟨Nat.succ_pos left, hr.fits⟩

/-- Past the last entry of the indirect block the loop panics, if it comes there. -/
theorem growFile_overrun : ∀ (left j : Nat) (own : Nat → Owner) (v : Volume), Mapped own v →
    own node.toNat = .inode → node ∈ v.inodeList → j = (v.din node).blocks.toNat →
    maxBlocks < j + left →
    Ends (fun e => e = .sfsBmapGetNolock ∧ FitsAll io v node j (maxBlocks - j))
      (growFile io node left j) v fun ret t =>
        IsError io ret ∧ ¬FitsAll io v node j (maxBlocks - j) ∧
          ∃ own' m, Grown io own own' v t node m ∧ (0 < m → Fits io v node j) := by
  intro left
  induction left with
  | zero =>
      intro j own v hv hnode _ hj hlt
      have := (hv.sized node hnode).le
      omega
  | succ left ih =>
      intro j own v hv hnode hcached hj hlt
      have hle := (hv.sized node hnode).le
      rw [growFile, ends_bind]
      by_cases hmax : j < maxBlocks
      · have hleft : maxBlocks - j = maxBlocks - (j + 1) + 1 := by omega
        rw [hleft]
        apply (sfsBmapLoadNolock_grow hv hnode hcached hj hmax).lift
        rintro r t ⟨own', hr⟩
        cases r with
        | error ret =>
            exact ⟨hr.1, fun hall => hr.2.1 hall.fits, own', 0, hr.2.2,
              fun hlt => absurd hlt (Nat.lt_irrefl 0)⟩
        | ok b =>
            have hgrown := hr.grown
            have hblocks : j + 1 = (t.din node).blocks.toNat := by rw [hgrown.blocks, ← hj]
            have hiff := @Appended.fitsAll_iff _ _ _ _ _ _ _ (maxBlocks - (j + 1)) hr
            apply (ih (j + 1) own' t hgrown.mapped ((hgrown.framed.inode _).mpr hnode)
              (by rwa [hgrown.framed.list]) hblocks (by omega)).mono
            · exact fun e he => ⟨he.1, hiff.mpr he.2⟩
            · rintro ret u ⟨herror, hno, own'', m, hmore, _⟩
              exact ⟨herror, fun hall => hno (hiff.mp hall), own'', m + 1, hr.then hj hmore,
                fun _ => hr.fits⟩
      · have hsame : j = maxBlocks := by omega
        have hall := @Mapped.fitsAll_zero io _ _ _ hv hnode
        have hblocks : j = (v.sin node).din.blocks.toNat := by rwa [← din_cached hcached]
        rw [sfsBmapLoadNolock, ends_bind, ends_get]
        simp only
        rw [ends_bind, ends_check (Nat.le_of_eq hblocks), ends_bind, sfsBmapGetNolock,
          ends_bind, ends_get]
        change Ends _ (if h : j < SFS_NDIRECT then _ else _) v _
        have hnot : ¬j < SFS_NDIRECT := by
          rw [hsame]
          decide
        have hout : ¬j - SFS_NDIRECT < SFS_BLK_NENTRY := by
          rw [hsame]
          decide
        rw [dif_neg hnot, if_neg hout, ends_throw]
        rw [← hj] at hall
        exact ⟨rfl, by rwa [hsame, Nat.sub_self, ← hsame]⟩

/-! ## One block less -/

/-- A file has `m` blocks less. -/
structure Shrunk (own own' : Nat → Owner) (v t : Volume) (node : BitVec 32) (m : Nat) : Prop where
  framed : Framed node own own' v t
  mapped : Mapped own' t
  same : SameInode node v t
  blocks : (t.din node).blocks.toNat + m = (v.din node).blocks.toNat
  dirty : (t.sin node).dirty = ((v.sin node).dirty || decide (0 < m))
  idle : m = 0 → t.sin node = v.sin node
  lost : ∀ x, own' x = .lost → own x = .lost

/-- The device serves the calls for freeing the block behind slot `j`. -/
def FreeFits (io : Nat → Int) (v : Volume) (j : Nat) : Prop :=
  j < SFS_NDIRECT ∨ ∀ k < 3, io (v.ios + k) = 0

/-- The calls of the device for that. -/
def freeIos (j : Nat) : Nat := if j < SFS_NDIRECT then 0 else 3

/-- The block behind slot `j` is free, and the slot is empty. -/
structure Emptied (own own' : Nat → Owner) (v t : Volume) (node : BitVec 32) (j : Nat) : Prop where
  framed : Framed node own own' v t
  slot : ∀ i, t.slot node i = if i = j then 0 else v.slot node i
  din : ∃ direct, (t.sin node).din = { (v.sin node).din with direct }
  dirty : (v.sin node).dirty = true → (t.sin node).dirty = true
  reclaim : (t.sin node).reclaimCount = (v.sin node).reclaimCount
  lost : ∀ x, own' x = .lost → own x = .lost
  ios : t.ios = v.ios + freeIos j

theorem update_data_lost {x y : Nat} (hx : own x = .data node j) {σ : Owner} (hlost : σ ≠ .lost)
    (hdata : σ ≠ .data node j) : Function.update own x .lost y = σ ↔ own y = σ := by
  rw [Function.update_apply]
  split
  next heq => simp [heq, hx, hlost.symm, hdata.symm]
  next => rfl

theorem lost_of_freed {x y : Nat}
    (hy : Function.update (Function.update own x .lost) x .free y = .lost) : own y = .lost := by
  by_cases hyx : y = x
  · simp [hyx] at hy
  · rwa [Function.update_of_ne hyx, Function.update_of_ne hyx] at hy

theorem Sound.empty_direct (h : Sound own v) (hnode : own node.toNat = .inode)
    (hcached : node ∈ v.inodeList) (hj : j < SFS_NDIRECT) (hfull : v.slot node j ≠ 0) :
    ∃ own', Emptied own own' v ((v.give (v.slot node j).toNat).setDin node
      ((v.sin node).din.setDirect ⟨j, hj⟩ 0)) node j := by
  have hdin := din_cached hcached
  have hb := h.data_of hnode hfull
  obtain ⟨w, hw⟩ : ∃ w, w = v.setDin node ((v.sin node).din.setDirect ⟨j, hj⟩ 0) := ⟨_, rfl⟩
  have hslot : ∀ n i, w.slot n i = if n = node ∧ i = j then 0 else v.slot n i := by
    intro n i
    rw [hw, slot_setDin hcached]
    by_cases hn : n = node
    · rw [if_pos hn, DiskInode.slot_setDirect, hn, Volume.slot, hdin]
      simp
    · rw [if_neg hn, if_neg fun hall => hn hall.1]
  have hcleared : Sound (Function.update own (v.slot node j).toNat .lost) w := by
    apply Sound.clearSlot (t := w) h hnode hfull (by rw [hw]; rfl) (by rw [hw]; rfl) _
      fun n i _ => hslot n i
    intro n _
    rw [hw, din_setDin hcached]
    split
    next heq => rw [heq, hdin]; rfl
    next => rfl
  have hframed : Framed node own (Function.update own (v.slot node j).toNat .lost) v w := by
    rw [hw] at hcleared ⊢
    exact .setSin hcached hcleared (fun x => update_data_lost hb (by simp) (by simp)) fun x =>
      update_data_lost hb (by simp) (by simp)
  have hgive := Untouched.give hcleared (Function.update_self ..)
  have hnode' := (hframed.inode node.toNat).mpr hnode
  have hfinal : (v.give (v.slot node j).toNat).setDin node ((v.sin node).din.setDirect ⟨j, hj⟩ 0) =
      w.give (v.slot node j).toNat := by
    rw [hw]
    rfl
  have hself : w.sin node =
      { v.sin node with din := (v.sin node).din.setDirect ⟨j, hj⟩ 0, dirty := true } := by
    rw [hw]
    exact Function.update_self _ _ _
  rw [hfinal]
  refine ⟨_, {
    framed := hframed.trans (hgive.framed hcleared node)
    slot := fun i => ?_
    din := ⟨_, by
      show (w.sin node).din = _
      rw [hself]
      rfl⟩
    dirty := fun _ => by
      show (w.sin node).dirty = _
      rw [hself]
    reclaim := by
      show (w.sin node).reclaimCount = _
      rw [hself]
    lost := fun x hx => lost_of_freed hx
    ios := ?_ }⟩
  · rw [hgive.slot hcleared hnode', hslot]
    simp
  · rw [freeIos, if_pos hj, hw]
    rfl

theorem Sound.empty_entry (h : Sound own v) (hnode : own node.toNat = .inode)
    (hlow : SFS_NDIRECT ≤ j) (hhigh : j < maxBlocks) (hfull : v.slot node j ≠ 0)
    (hne : (v.din node).indirect ≠ 0) :
    ∃ own', Emptied own own' v
      (((v.write (v.din node).indirect.toNat
        (setWord (v.disk (v.din node).indirect.toNat) (j - SFS_NDIRECT) 0)).tick 3).give
          (v.slot node j).toNat) node j := by
  have hb := h.data_of hnode hfull
  obtain ⟨w, hw⟩ : ∃ w, w = v.write (v.din node).indirect.toNat
    (setWord (v.disk (v.din node).indirect.toNat) (j - SFS_NDIRECT) 0) := ⟨_, rfl⟩
  have hslot := h.slot_setWord hnode hne hlow hhigh 0
  have hdin := (h.slot_write hnode hne
    (setWord (v.disk (v.din node).indirect.toNat) (j - SFS_NDIRECT) 0)).1
  rw [← hw] at hslot hdin ⊢
  have hcleared : Sound (Function.update own (v.slot node j).toNat .lost) w := by
    apply Sound.clearSlot (t := w) h hnode hfull (by rw [hw]; rfl) (by rw [hw]; rfl) _ hslot
    exact fun n hn => by rw [hdin n hn]
  have hframed : Framed node own (Function.update own (v.slot node j).toNat .lost) v w := by
    rw [hw] at hcleared ⊢
    exact .write h hnode hne hcleared (fun x => update_data_lost hb (by simp) (by simp)) fun x =>
      update_data_lost hb (by simp) (by simp)
  have htick := Untouched.tick hcleared 3
  have hgive := htick.trans (.give htick.sound (Function.update_self ..))
  have hnode' := (hframed.inode node.toNat).mpr hnode
  refine ⟨_, {
    framed := hframed.trans (hgive.framed hcleared node)
    slot := fun i => ?_
    din := ⟨(v.sin node).din.direct, by
      show (w.sin node).din = _
      rw [hw]
      rfl⟩
    dirty := fun hdirty => by
      show (w.sin node).dirty = _
      rw [hw]
      exact hdirty
    reclaim := by
      show (w.sin node).reclaimCount = _
      rw [hw]
      rfl
    lost := fun x hx => lost_of_freed hx
    ios := ?_ }⟩
  · rw [hgive.slot hcleared hnode', hslot _ _ hnode]
    simp
  · rw [freeIos, if_neg (Nat.not_lt_of_le hlow), hw]
    rfl

/-- `sfs_bmap_free_nolock` of a slot that has a block. -/
theorem sfsBmapFreeNolock_spec (h : Sound own v) (hnode : own node.toNat = .inode)
    (hcached : node ∈ v.inodeList) (hj : j < maxBlocks) (hfull : v.slot node j ≠ 0) :
    Ends never (sfsBmapFreeNolock io node j) v fun ret t =>
      (ret = 0 ∧ FreeFits io v j ∧ ∃ own', Emptied own own' v t node j) ∨
        (IsError io ret ∧ ¬FreeFits io v j ∧ ∃ k, t = v.tick k) := by
  have hdin := din_cached hcached
  have hb := h.data_of hnode hfull
  rw [sfsBmapFreeNolock, ends_bind, ends_get]
  change Ends _ (if h : j < SFS_NDIRECT then _ else _) v _
  by_cases hdirect : j < SFS_NDIRECT
  · have hslot : v.slot node j = (v.sin node).din.direct ⟨j, hdirect⟩ := by
      rw [Volume.slot, hdin, DiskInode.slot, dif_pos hdirect]
    rw [dif_pos hdirect, ← hslot, if_pos hfull, ends_bind]
    apply (sfsBlockFree_spec h (by simp [hb]) (by simp [hb])).imp
    rintro _ t rfl
    rw [ends_bind, ends_modify, ends_pure]
    exact .inl ⟨rfl, .inl hdirect, h.empty_direct hnode hcached hdirect hfull⟩
  · have hlow := Nat.le_of_not_lt hdirect
    have hindex : j - SFS_NDIRECT < SFS_BLK_NENTRY := by
      unfold maxBlocks at hj
      omega
    have hne : (v.din node).indirect ≠ 0 := by
      intro hzero
      exact hfull (DiskInode.slot_none _ _ hlow hzero)
    have hslot : v.slot node j = word (v.disk (v.din node).indirect.toNat) (j - SFS_NDIRECT) :=
      DiskInode.slot_indirect _ _ hlow hj hne
    have hent := h.index_of hnode hne
    have hoffset : 4 * (j - SFS_NDIRECT) + 4 ≤ SFS_BLKSIZE := by
      unfold SFS_BLK_NENTRY SFS_BLKSIZE at hindex
      unfold SFS_BLKSIZE
      omega
    have hne' : (v.sin node).din.indirect ≠ 0 := by rwa [← hdin]
    rw [dif_neg hdirect, if_pos hindex, if_pos hne', ← hdin, sfsBmapFreeSubNolock, ends_bind]
    apply (sfsBlockInuse_of h (by simp [hent]) (by simp [hent])).imp
    rintro r t ⟨rfl, rfl⟩
    rw [ends_bind, ends_check ⟨rfl, hindex⟩, ends_bind]
    apply (sfsRbuf_spec (h.valid (by simp [hent])) (by omega) hoffset).imp
    rintro r u ⟨rfl, hread⟩
    have hfails : ∀ k < 3, io (t.ios + k) ≠ 0 → ¬FreeFits io t j := by
      rintro k hk hio (hfits | hfits)
      · exact hdirect hfits
      · exact hio (hfits k hk)
    cases r with
    | error ret =>
        obtain ⟨rfl, hio⟩ := hread
        exact .inr ⟨.inr ⟨_, rfl, hio⟩, hfails 0 (by omega) hio, 1, rfl⟩
    | ok buf =>
        obtain ⟨hio, rfl⟩ := hread
        have hword :
            word (fun k => t.disk (t.din node).indirect.toNat (4 * (j - SFS_NDIRECT) + k)) 0 =
              t.slot node j := by
          rw [hslot]
          rfl
        simp only
        rw [hword, if_pos hfull, ends_bind]
        change Ends never _ (t.tick 1) _
        apply (sfsWbuf_spec ((h.tick 1).valid (by simp [hent])) (by omega) hoffset _).imp
        rintro ret w (⟨rfl, hio', rfl⟩ | ⟨_, rfl, hio', rfl⟩ | ⟨hio₁, hio₂, rfl, rfl⟩)
        · rw [if_pos hio', ends_pure]
          exact .inr ⟨.inr ⟨_, rfl, hio'⟩, hfails 1 (by omega) hio', 2, rfl⟩
        · rw [if_pos hio', ends_pure]
          exact .inr ⟨.inr ⟨_, rfl, hio'⟩, hfails 2 (by omega) hio', 3, rfl⟩
        · have hall : ∀ k < 3, io (t.ios + k) = 0 := by
            intro k hk
            rcases (by omega : k = 0 ∨ k = 1 ∨ k = 2) with rfl | rfl | rfl
            · exact hio
            · exact hio₁
            · exact hio₂
          rw [if_neg (not_not.mpr rfl), ends_bind, zero_eq_ofWords, splice_word]
          -- the freemap has not changed
          have huse : t.InUse (t.slot node j) := h.inUse (by simp [hb]) (by simp [hb])
          change Ends never _ ((t.write (t.din node).indirect.toNat
            (setWord (t.disk (t.din node).indirect.toNat) (j - SFS_NDIRECT) 0)).tick 3) _
          apply Ends.imp (sfsBlockFree_inUse (by exact h.covered) (by
            exact ⟨huse.ne_zero, huse.lt, huse.used⟩))
          rintro _ w rfl
          exact .inl ⟨rfl, .inr hall, h.empty_entry hnode hlow hj hfull hne⟩

/-! ## The loop that frees blocks -/

theorem toNat_pred {x : BitVec 32} (hpos : x ≠ 0) : (x - 1).toNat = x.toNat - 1 := by
  have hne := toNat_ne_zero hpos
  have hone : (1 : BitVec 32).toNat = 1 := rfl
  rw [BitVec.toNat_sub, hone]
  omega

/-- The volume after `din->blocks --`. -/
def Volume.drop (v : Volume) (node : BitVec 32) : Volume :=
  v.setSin node { v.sin node with
    din := { (v.sin node).din with blocks := (v.sin node).din.blocks - 1 }, dirty := true }

theorem slot_drop (hcached : node ∈ v.inodeList) (n : BitVec 32) (i : Nat) :
    (v.drop node).slot n i = v.slot n i := by
  unfold Volume.drop
  rw [slot_setSin_same hcached]
  · rfl
  · rfl

theorem Framed.drop (h : Sound own v) (hcached : node ∈ v.inodeList) :
    Framed node own own v (v.drop node) := by
  apply Framed.setSin_same h hcached
  · rfl
  · rfl

theorem Emptied.drop (h : Emptied own own' v t node j) (hv : Mapped own v)
    (hnode : own node.toNat = .inode) (hcached : node ∈ v.inodeList)
    (hj : j + 1 = (v.din node).blocks.toNat) :
    Shrunk own own' v (t.drop node) node 1 := by
  have hcached' : node ∈ t.inodeList := by rwa [h.framed.list]
  have hdin := din_cached hcached
  have hdin' := din_cached hcached'
  obtain ⟨direct, hfields⟩ := h.din
  have hdrop : (t.drop node).din node = { t.din node with blocks := (t.din node).blocks - 1 } := by
    rw [Volume.drop, din_setSin hcached', if_pos rfl, hdin']
  have hself : (t.drop node).sin node = { t.sin node with
      din := { (t.sin node).din with blocks := (t.sin node).din.blocks - 1 }, dirty := true } :=
    Function.update_self _ _ _
  have hframed := h.framed.trans (.drop h.framed.sound hcached')
  have hold : (t.din node).blocks = (v.din node).blocks := by rw [hdin', hfields, hdin]
  have hblocks : ((t.drop node).din node).blocks.toNat = j := by
    rw [hdrop]
    show ((t.din node).blocks - 1).toNat = j
    rw [hold, toNat_pred (ne_zero_of_toNat (by omega)), ← hj, Nat.add_sub_cancel]
  have hsized : SizedAt (t.drop node) node := by
    have hle := (hv.sized node hnode).le
    refine ⟨by rw [hblocks]; omega, fun i => ?_⟩
    rw [hblocks, slot_drop hcached', h.slot]
    have hbelow := (hv.sized node hnode).slot i
    rw [← hj] at hbelow
    split
    next heq => exact iff_of_false (not_not.mpr rfl) (by omega)
    next hne =>
      rw [hbelow]
      omega
  refine {
    framed := hframed
    mapped := hframed.mapped hv hsized
    same := ⟨?_, ?_, ?_, ?_⟩
    blocks := by rw [hblocks, hj]
    dirty := by rw [hself]; simp
    idle := fun hzero => absurd hzero Nat.one_ne_zero
    lost := h.lost }
  · rw [hdrop]
    show (t.din node).size = _
    rw [hdin', hfields, hdin]
  · rw [hdrop]
    show (t.din node).type = _
    rw [hdin', hfields, hdin]
  · rw [hdrop]
    show (t.din node).nlinks = _
    rw [hdin', hfields, hdin]
  · rw [hself]
    exact h.reclaim

theorem Untouched.shrunk (h : Untouched own own v t) (hv : Mapped own v)
    (hnode : own node.toNat = .inode) : Shrunk own own v t node 0 where
  framed := h.framed hv.sound node
  mapped := h.mapped hv
  same := by
    have hdin := h.din hnode
    exact ⟨by rw [hdin], by rw [hdin], by rw [hdin], by rw [h.sin]⟩
  blocks := by rw [h.din hnode]; rfl
  dirty := by rw [h.sin]; simp
  idle _ := by rw [h.sin]
  lost _ hx := hx

/-- `sfs_bmap_truncate_nolock` of a file with `j + 1` blocks. -/
theorem sfsBmapTruncateNolock_spec (h : Mapped own v) (hnode : own node.toNat = .inode)
    (hcached : node ∈ v.inodeList) (hj : j + 1 = (v.din node).blocks.toNat) :
    Ends never (sfsBmapTruncateNolock io node) v fun ret t => ∃ own',
      (ret = 0 ∧ FreeFits io v j ∧ Shrunk own own' v t node 1 ∧ t.ios = v.ios + freeIos j) ∨
        (IsError io ret ∧ ¬FreeFits io v j ∧ Shrunk own own' v t node 0) := by
  have hle := (h.sized node hnode).le
  have hblocks : (v.sin node).din.blocks.toNat = j + 1 := by rw [← din_cached hcached, hj]
  have hfull : v.slot node j ≠ 0 := ((h.sized node hnode).slot j).mpr (by omega)
  rw [sfsBmapTruncateNolock, ends_bind, ends_get]
  simp only
  rw [ends_bind, ends_check (ne_zero_of_toNat (by omega)), ends_bind, hblocks, Nat.add_sub_cancel]
  apply (sfsBmapFreeNolock_spec h.sound hnode hcached (by omega) hfull).imp
  rintro ret t (⟨rfl, hfits, own', hemptied⟩ | ⟨herror, hfits, k, rfl⟩)
  · rw [if_neg (not_not.mpr rfl), ends_bind, shrinkBlocks, ends_modify]
    exact ⟨own', .inl ⟨rfl, hfits, hemptied.drop h hnode hcached hj, hemptied.ios⟩⟩
  · rw [if_pos herror.ne_zero]
    exact ⟨own, .inr ⟨herror, hfits, (Untouched.tick h.sound k).shrunk h hnode⟩⟩

/-- The calls of the device for freeing the last `left` of `n` blocks. -/
def freeAllIos : Nat → Nat → Nat
  | _, 0 => 0
  | n, left + 1 => freeIos (n - 1) + freeAllIos (n - 1) left

theorem freeFits_iff : FreeFits io v j ↔ ∀ k < freeIos j, io (v.ios + k) = 0 := by
  unfold FreeFits freeIos
  split
  next hlow => exact iff_of_true (.inl hlow) fun k hk => absurd hk (Nat.not_lt_zero k)
  next hlow => exact or_iff_right hlow

theorem Shrunk.trans {m k : Nat} (h : Shrunk own own' v t node m)
    (h' : Shrunk own' own'' t u node k) :
    Shrunk own own'' v u node (k + m) where
  framed := h.framed.trans h'.framed
  mapped := h'.mapped
  same := h.same.trans h'.same
  blocks := by rw [← h.blocks, ← h'.blocks, Nat.add_assoc]
  dirty := by
    rw [h'.dirty, h.dirty, Bool.or_assoc, ← Bool.decide_or]
    congr 1
    rw [decide_eq_decide]
    omega
  idle hzero := by rw [h'.idle (by omega), h.idle (by omega)]
  lost x hx := h.lost x (h'.lost x hx)

/-- What comes of a loop that frees up to `left` blocks. -/
structure ShrinkEnd (io : Nat → Int) (own : Nat → Owner) (v t : Volume) (node : BitVec 32)
    (left : Nat) (ret : Int) (m : Nat) : Prop where
  shrunk : ∃ own', Shrunk own own' v t node m
  le : m ≤ left
  error : ret = 0 ∨ IsError io ret
  done : ret = 0 ↔ m = left
  fits : ret = 0 ↔ ∀ k < freeAllIos (v.din node).blocks.toNat left, io (v.ios + k) = 0
  first : 0 < m ↔ 0 < left ∧ FreeFits io v ((v.din node).blocks.toNat - 1)

theorem shrinkFile_spec : ∀ (left : Nat) (own : Nat → Owner) (v : Volume), Mapped own v →
    own node.toNat = .inode → node ∈ v.inodeList → left ≤ (v.din node).blocks.toNat →
    Ends never (shrinkFile io node left) v fun ret t => ∃ m,
    ShrinkEnd io own v t node left ret m := by
  intro left
  induction left with
  | zero =>
      intro own v hv hnode _ _
      exact ⟨0, ⟨own, (Untouched.refl hv.sound).shrunk hv hnode⟩, Nat.le_refl _, .inl rfl, by simp,
        ⟨fun _ k hk => absurd hk (Nat.not_lt_zero k), fun _ => rfl⟩, by simp⟩
  | succ left ih =>
      intro own v hv hnode hcached hle
      obtain ⟨j, hj⟩ : ∃ j, j + 1 = (v.din node).blocks.toNat :=
        ⟨(v.din node).blocks.toNat - 1, by omega⟩
      rw [shrinkFile, ends_bind]
      apply (sfsBmapTruncateNolock_spec hv hnode hcached hj).imp
      rintro r t ⟨own', ⟨rfl, hfits, hshrunk, hios⟩ | ⟨herror, hfits, hshrunk⟩⟩
      · have hblocks : (t.din node).blocks.toNat = j := by
          have := hshrunk.blocks
          omega
        rw [if_neg (not_not.mpr rfl)]
        apply (ih own' t hshrunk.mapped ((hshrunk.framed.inode _).mpr hnode)
          (by rwa [hshrunk.framed.list]) (by omega)).imp
        rintro ret u ⟨m, hend⟩
        obtain ⟨own'', hshrunk'⟩ := hend.shrunk
        have hle' := hend.le
        refine ⟨m + 1, ⟨own'', hshrunk.trans hshrunk'⟩, by omega, hend.error, ?_, ?_, ?_⟩
        · rw [hend.done]
          omega
        · rw [hend.fits, hblocks, ← hj, freeAllIos, Nat.add_sub_cancel, hios]
          rw [freeFits_iff] at hfits
          constructor
          · intro hall k hk
            by_cases hfirst : k < freeIos j
            · exact hfits k hfirst
            · have hserved := hall (k - freeIos j) (by omega)
              rwa [show v.ios + freeIos j + (k - freeIos j) = v.ios + k by omega] at hserved
          · intro hall k hk
            rw [Nat.add_assoc]
            exact hall _ (Nat.add_lt_add_left hk _)
        · rw [← hj, Nat.add_sub_cancel]
          exact iff_of_true (Nat.succ_pos m) ⟨Nat.succ_pos left, hfits⟩
      · have hne := herror.ne_zero
        rw [if_pos hne]
        refine ⟨0, ⟨own', hshrunk⟩, Nat.zero_le _, .inr herror, ?_, ?_, ?_⟩
        · exact iff_of_false hne (by omega)
        · refine iff_of_false hne fun hall => hfits ?_
          rw [← hj, freeAllIos, Nat.add_sub_cancel] at hall
          exact freeFits_iff.mpr fun k hk => hall k (Nat.lt_of_lt_of_le hk (Nat.le_add_right _ _))
        · rw [← hj, Nat.add_sub_cancel]
          exact iff_of_false (Nat.lt_irrefl 0) fun hall => hfits hall.2

end Ucore.Sfs
