import Ucore.Sfs.Dirent
import Ucore.Sfs.FileSize

/-!
# Listing a directory

`sfs_getdirentry` of `kern/fs/sfs/sfs_inode.c`, `file_getdirentry` and `sysfile_getdirentry`
in lab 8. The offset of the user has 64 bits and the slot that comes of it 32, so that
offsets from 2^40 on may give an entry again.
-/

namespace Ucore.Sfs

open Machine

/-- `sfs_dentry_size`, the size of the name in an entry. -/
def sfsDentrySize : Nat := SFS_MAX_FNAME_LEN + 1

/-- A `struct iobuf`; `io_base` is `base + done`. -/
structure Iobuf where
  base : Bytes
  done : Nat
  offset : BitVec 64
  len : Nat
  resid : Nat

def iobufInit (base : Bytes) (len : Nat) (offset : BitVec 64) : Iobuf := ⟨base, 0, offset, len, len⟩

def iobufUsed (iob : Iobuf) : Nat := iob.len - iob.resid

/-- `iobuf_move` to the buffer. -/
def iobufMove (iob : Iobuf) (data : Bytes) (len : Nat) : Int × Iobuf :=
  let alen := min iob.resid len
  (if len - alen = 0 then 0 else -E_NO_MEM,
    { iob with
      base := splice iob.done alen data iob.base
      done := iob.done + alen
      offset := iob.offset + BitVec.ofNat 64 alen
      resid := iob.resid - alen })

/-- A `struct dirent`. -/
structure Dirent where
  offset : BitVec 64
  name : Bytes

section Model

variable (io : Nat → Int)

/-- The loop of `sfs_getdirentry_sub_nolock`, from slot `i` of the directory on. -/
def getdirentrySlots (node : BitVec 32) : Nat → Nat → BitVec 32 → SfsM (Except Int DiskEntry)
  | 0, _, _ => return .error (-E_NOENT)
  | left + 1, i, slot => do
      match ← sfsDirentReadNolock io node i with
      | .error ret => return .error ret
      | .ok entry =>
          if entry.ino ≠ 0 then
            if slot = 0 then return .ok entry
            else getdirentrySlots node left (i + 1) (slot - 1)
          else getdirentrySlots node left (i + 1) slot

/-- `nslots` is an `int`. -/
def sfsGetdirentrySubNolock (node slot : BitVec 32) : SfsM (Except Int DiskEntry) := do
  let nslots := ((← get).sin node).din.blocks.toInt
  getdirentrySlots io node nslots.toNat 0 slot

/-- `full` tells that `kmalloc` returns null. The slot is an `int`, which is compared with a
`uint32_t`. -/
def sfsGetdirentry (full : Bool) (node : BitVec 32) (iob : Iobuf) : SfsM (Int × Iobuf) := do
  if full then return (-E_NO_MEM, iob)
  else
    let offset := iob.offset.toInt
    if offset < 0 ∨ offset % sfsDentrySize ≠ 0 then return (-E_INVAL, iob)
    else
      let slot := BitVec.ofInt 32 (offset / sfsDentrySize)
      if slot > ((← get).sin node).din.blocks then return (-E_NOENT, iob)
      else
        match ← sfsGetdirentrySubNolock io node slot with
        | .error ret => return (ret, iob)
        | .ok entry => return iobufMove iob entry.name sfsDentrySize

/-- `file_getdirentry` of an open file. -/
def fileGetdirentry (full : Bool) (node : BitVec 32) (direntp : Dirent) : SfsM (Int × Dirent) := do
  let iob := iobufInit direntp.name sfsDentrySize direntp.offset
  let (ret, iob) ← sfsGetdirentry io full node iob
  if ret = 0 then
    return (ret, ⟨direntp.offset + BitVec.ofNat 64 (iobufUsed iob), iob.base⟩)
  else return (ret, ⟨direntp.offset, iob.base⟩)

/-- The bytes of a name. -/
def nameBytes (name : Bytes) : List Byte := (List.range sfsDentrySize).map name

end Model

/-! ## The entries -/

variable {io : Nat → Int} {own own' : Nat → Owner} {v t : Volume} {node n d b : BitVec 32}
  {i j : Nat}

/-- The entry in a slot of a directory. -/
def Volume.entryAt (v : Volume) (node : BitVec 32) (i : Nat) : DiskEntry :=
  (DiskEntry.ofBytes (v.disk (v.slot node i).toNat)).terminated

/-- The entries of `count` slots from slot `i` on that are not empty. -/
def Volume.entriesFrom (v : Volume) (node : BitVec 32) (i count : Nat) : List DiskEntry :=
  ((List.range' i count).map (v.entryAt node)).filter fun entry => decide (entry.ino ≠ 0)

def Volume.entries (v : Volume) (node : BitVec 32) : List DiskEntry :=
  v.entriesFrom node 0 (v.din node).blocks.toNat

/-- A directory in memory, on a volume whose blocks all have their owners. -/
structure Directory (own : Nat → Owner) (v : Volume) (node : BitVec 32) : Prop where
  mapped : Mapped own v
  inode : own node.toNat = .inode
  cached : node ∈ v.inodeList
  type : (v.din node).type = SFS_TYPE_DIR

theorem Mapped.tick (h : Mapped own v) (k : Nat) : Mapped own (v.tick k) :=
  (Untouched.tick h.sound k).mapped h

theorem Directory.tick (h : Directory own v node) (k : Nat) : Directory own (v.tick k) node :=
  ⟨h.mapped.tick k, h.inode, h.cached, h.type⟩

theorem sfsDirentReadNolock_spec (h : Directory own v node) (hi : i < (v.din node).blocks.toNat) :
    Ends never (sfsDirentReadNolock io node i) v fun r t => (∃ k, t = v.tick k) ∧
      (r = .ok (v.entryAt node i) ∨ ∃ ret, r = .error ret ∧ DeviceError io ret) := by
  have hdin := din_cached h.cached
  have htype : (v.sin node).din.type = SFS_TYPE_DIR ∧ i < (v.sin node).din.blocks.toNat := by
    rw [← hdin]
    exact ⟨h.type, hi⟩
  have hfull : v.slot node i ≠ 0 := ((h.mapped.sized node h.inode).slot i).mpr hi
  have hdata := h.mapped.sound.data_of h.inode hfull
  rw [sfsDirentReadNolock, ends_bind, ends_get]
  simp only
  rw [ends_bind, ends_check htype, ends_bind]
  apply (sfsBmapLoadNolock_read h.mapped h.inode h.cached hi).imp
  rintro r t ⟨⟨k, rfl⟩, rfl | ⟨ret, rfl, herror⟩⟩
  · have hsound := h.mapped.sound.tick k
    simp only
    rw [ends_bind]
    apply (sfsBlockInuse_of hsound (by simp [hdata]) (by simp [hdata])).imp
    rintro r t ⟨rfl, rfl⟩
    rw [ends_bind, ends_check rfl, ends_bind]
    have hstart : 0 < SFS_BLKSIZE := by decide
    have hfits : 0 + sizeofDiskEntry ≤ SFS_BLKSIZE := by decide
    apply (sfsRbuf_spec (hsound.valid (by simp [hdata])) hstart hfits).imp
    rintro r t ⟨rfl, hread⟩
    cases r with
    | error ret => exact ⟨⟨k + 1, rfl⟩, .inr ⟨ret, rfl, _, hread⟩⟩
    | ok buf =>
        refine ⟨⟨k + 1, rfl⟩, .inl ?_⟩
        rw [hread.2]
        simp only [Nat.zero_add]
        rfl
  · exact ⟨⟨k, rfl⟩, .inr ⟨ret, rfl, herror⟩⟩

theorem tick_tick (v : Volume) (k k' : Nat) : (v.tick k).tick k' = v.tick (k + k') := by
  unfold Volume.tick
  simp only [Nat.add_assoc]

theorem entriesFrom_succ (v : Volume) (node : BitVec 32) (i count : Nat) :
    v.entriesFrom node i (count + 1) =
      if (v.entryAt node i).ino ≠ 0 then v.entryAt node i :: v.entriesFrom node (i + 1) count
      else v.entriesFrom node (i + 1) count := by
  unfold Volume.entriesFrom
  rw [List.range'_succ, List.map_cons, List.filter_cons]
  simp only [decide_eq_true_eq]

theorem length_entriesFrom_le (v : Volume) (node : BitVec 32) (i count : Nat) :
    (v.entriesFrom node i count).length ≤ count := by
  unfold Volume.entriesFrom
  calc _ ≤ ((List.range' i count).map (v.entryAt node)).length := List.length_filter_le _ _
    _ = count := by rw [List.length_map, List.length_range']

/-- What a search for an entry gives. -/
def found : Option DiskEntry → Except Int DiskEntry
  | some entry => .ok entry
  | none => .error (-E_NOENT)

/-- The loop counts the slot down over the entries that are not empty. -/
theorem getdirentrySlots_spec : ∀ (left i : Nat) (slot : BitVec 32) (v : Volume),
    Directory own v node → i + left ≤ (v.din node).blocks.toNat →
    Ends never (getdirentrySlots io node left i slot) v fun r t => (∃ k, t = v.tick k) ∧
      (r = found (v.entriesFrom node i left)[slot.toNat]? ∨
        ∃ ret, r = .error ret ∧ DeviceError io ret) := by
  intro left
  induction left with
  | zero => exact fun i slot v _ _ => ⟨⟨0, rfl⟩, .inl rfl⟩
  | succ left ih =>
      intro i slot v hdir hle
      rw [getdirentrySlots, ends_bind]
      apply (sfsDirentReadNolock_spec hdir (by omega)).imp
      rintro r t ⟨⟨k, rfl⟩, rfl | ⟨ret, rfl, herror⟩⟩
      · have hrest := fun slot => ih (i + 1) slot (v.tick k) (hdir.tick k) (by
          show i + 1 + left ≤ (v.din node).blocks.toNat
          omega)
        rw [entriesFrom_succ]
        simp only
        split
        next hused =>
          split
          next hzero =>
            rw [hzero]
            exact ⟨⟨k, rfl⟩, .inl rfl⟩
          next hne =>
            have hpos : slot.toNat = (slot - 1).toNat + 1 := by
              have := toNat_ne_zero hne
              rw [toNat_pred hne]
              omega
            apply (hrest (slot - 1)).imp
            rintro r t ⟨⟨k', rfl⟩, hr⟩
            rw [hpos, List.getElem?_cons_succ]
            exact ⟨⟨k + k', tick_tick v k k'⟩, hr⟩
        next hempty =>
          apply (hrest slot).imp
          rintro r t ⟨⟨k', rfl⟩, hr⟩
          exact ⟨⟨k + k', tick_tick v k k'⟩, hr⟩
      · exact ⟨⟨k, rfl⟩, .inr ⟨ret, rfl, herror⟩⟩

/-! ## One call -/

/-- The offset is no offset of an entry. -/
def Misplaced (offset : BitVec 64) : Prop := offset.toInt < 0 ∨ offset.toInt % sfsDentrySize ≠ 0

instance (offset : BitVec 64) : Decidable (Misplaced offset) := inferInstanceAs (Decidable (_ ∨ _))

/-- The number of the entry at an offset. -/
def entryNumber (offset : BitVec 64) : Nat := offset.toInt.toNat / sfsDentrySize

/-- The slot that `sfs_getdirentry` makes of an offset. -/
theorem slot_toNat {offset : BitVec 64} (hplaced : ¬Misplaced offset) :
    (BitVec.ofInt 32 (offset.toInt / sfsDentrySize)).toNat = entryNumber offset % 2 ^ 32 := by
  unfold Misplaced at hplaced
  unfold entryNumber
  have hsize : (sfsDentrySize : Nat) = 256 := rfl
  rw [BitVec.toNat_ofInt, hsize] at *
  omega

theorem Directory.blocks_le (h : Directory own v node) : (v.din node).blocks.toNat ≤ maxBlocks :=
  (h.mapped.sized node h.inode).le

/-- What the buffer has after the call. -/
def filledName (iob : Iobuf) (entry : DiskEntry) : Iobuf :=
    (iobufMove iob entry.name sfsDentrySize).2

/-- `sfs_getdirentry` takes the number of the entry modulo 2^32. -/
theorem sfsGetdirentry_spec (h : Directory own v node) (iob : Iobuf)
    (hroom : sfsDentrySize ≤ iob.resid) :
    Ends never (sfsGetdirentry io false node iob) v fun r t => (∃ k, t = v.tick k) ∧
      ((r = if Misplaced iob.offset then (-E_INVAL, iob)
        else match (v.entries node)[entryNumber iob.offset % 2 ^ 32]? with
          | some entry => (0, filledName iob entry)
          | none => (-E_NOENT, iob)) ∨
        ∃ ret, r = (ret, iob) ∧ DeviceError io ret) := by
  have hdin := din_cached h.cached
  have hle := h.blocks_le
  have hmax : maxBlocks = 1036 := rfl
  rw [sfsGetdirentry, if_neg (by simp)]
  change Ends never (if Misplaced iob.offset then _ else _) v _
  by_cases hplaced : Misplaced iob.offset
  · rw [if_pos hplaced, if_pos hplaced]
    exact ⟨⟨0, rfl⟩, .inl rfl⟩
  have hslot := slot_toNat hplaced
  rw [if_neg hplaced, if_neg hplaced]
  obtain ⟨slot, hdef⟩ : ∃ slot, slot = BitVec.ofInt 32 (iob.offset.toInt / sfsDentrySize) :=
    ⟨_, rfl⟩
  rw [← hdef] at hslot ⊢
  rw [← hslot, ends_bind, ends_get, ← hdin]
  by_cases hgt : slot > (v.din node).blocks
  · have hlong : (v.din node).blocks.toNat < slot.toNat := hgt
    have hnone : (v.entries node)[slot.toNat]? = none := by
      apply List.getElem?_eq_none
      have := length_entriesFrom_le v node 0 (v.din node).blocks.toNat
      unfold Volume.entries
      omega
    rw [if_pos hgt, hnone]
    exact ⟨⟨0, rfl⟩, .inl rfl⟩
  · have hnslots : (v.din node).blocks.toInt.toNat = (v.din node).blocks.toNat := by
      rw [BitVec.toInt_eq_toNat_of_lt (by omega), Int.toNat_natCast]
    rw [if_neg hgt, ends_bind, sfsGetdirentrySubNolock, ends_bind, ends_get, ← hdin]
    simp only
    rw [hnslots]
    apply (getdirentrySlots_spec _ 0 slot v h (by omega)).imp
    rintro r t ⟨hk, rfl | ⟨ret, rfl, herror⟩⟩
    · unfold Volume.entries
      cases (v.entriesFrom node 0 (v.din node).blocks.toNat)[slot.toNat]? with
      | none => exact ⟨hk, .inl rfl⟩
      | some entry =>
          have hall : min iob.resid sfsDentrySize = sfsDentrySize := Nat.min_eq_right hroom
          have hmove : iobufMove iob entry.name sfsDentrySize = (0, filledName iob entry) := by
            unfold filledName iobufMove
            simp only [hall, Nat.sub_self, if_true]
          exact ⟨hk, .inl hmove⟩
    · exact ⟨hk, .inr ⟨ret, rfl, herror⟩⟩

/-! ## Listing -/

/-- What a call with an offset should return in a directory with these entries. -/
def RightAnswer (entries : List DiskEntry) (offset : BitVec 64) (r : Int × Iobuf) : Prop :=
  if Misplaced offset then r.1 = -E_INVAL
  else match entries[entryNumber offset]? with
    | some entry => r.1 = 0 ∧ nameBytes r.2.base = nameBytes entry.name
    | none => r.1 = -E_NOENT

/-- A call with this offset returns, and gives the right answer; `base` is what the buffer held
before. -/
def ListsAt (io : Nat → Int) (v : Volume) (node : BitVec 32) (offset : BitVec 64) : Prop :=
  ∀ base, Ends never (sfsGetdirentry io false node (iobufInit base sfsDentrySize offset)) v
    fun r _ => RightAnswer (v.entries node) offset r

/-- The offset is past the entries, and its number modulo 2^32 is that of an entry. -/
structure Wraps (v : Volume) (node : BitVec 32) (offset : BitVec 64) : Prop where
  placed : ¬Misplaced offset
  long : 2 ^ 32 ≤ entryNumber offset
  entry : entryNumber offset % 2 ^ 32 < (v.entries node).length

theorem nameBytes_filledName (base : Bytes) (offset : BitVec 64) (entry : DiskEntry) :
    nameBytes (filledName (iobufInit base sfsDentrySize offset) entry).base =
      nameBytes entry.name := by
  unfold nameBytes
  apply List.map_congr_left
  intro k hk
  rw [List.mem_range] at hk
  show splice 0 (min sfsDentrySize sfsDentrySize) entry.name base k = entry.name k
  rw [Nat.min_self, splice, if_pos ⟨Nat.zero_le k, by omega⟩, Nat.sub_zero]

theorem Directory.length_entries (h : Directory own v node) : (v.entries node).length ≤ maxBlocks :=
  (length_entriesFrom_le v node 0 _).trans h.blocks_le

/-- One call, on a device that works. -/
theorem sfsGetdirentry_served (h : Directory own v node) (hio : ∀ k, io k = 0) (base : Bytes)
    (offset : BitVec 64) : Ends never
      (sfsGetdirentry io false node (iobufInit base sfsDentrySize offset)) v fun r t =>
        (∃ k, t = v.tick k) ∧
          r = if Misplaced offset then (-E_INVAL, iobufInit base sfsDentrySize offset)
          else match (v.entries node)[entryNumber offset % 2 ^ 32]? with
            | some entry => (0, filledName (iobufInit base sfsDentrySize offset) entry)
            | none => (-E_NOENT, iobufInit base sfsDentrySize offset) := by
  apply (sfsGetdirentry_spec h (iobufInit base sfsDentrySize offset) (Nat.le_refl _)).imp
  rintro r t ⟨hk, hr | ⟨ret, _, k, rfl, hne⟩⟩
  · exact ⟨hk, hr⟩
  · exact absurd (hio k) hne

theorem Directory.listsAt_iff (h : Directory own v node) (hio : ∀ k, io k = 0)
    (offset : BitVec 64) :
    ListsAt io v node offset ↔ ¬Wraps v node offset := by
  have hlen := h.length_entries
  have hmax : maxBlocks = 1036 := rfl
  constructor
  · intro hlists hwraps
    have hserved := sfsGetdirentry_served h hio (fun _ => 0) offset
    obtain ⟨r, t, _, hanswer, _, rfl⟩ := ((hlists fun _ => 0).and hserved).ok
    have hpast : (v.entries node)[entryNumber offset]? = none := by
      have := hwraps.long
      exact List.getElem?_eq_none (by omega)
    rw [RightAnswer, if_neg hwraps.placed, if_neg hwraps.placed, hpast,
      List.getElem?_eq_getElem hwraps.entry] at hanswer
    cases hanswer
  · intro hno base
    apply (sfsGetdirentry_served h hio base offset).imp
    rintro r t ⟨_, rfl⟩
    unfold RightAnswer
    by_cases hplaced : Misplaced offset
    · rw [if_pos hplaced, if_pos hplaced]
    · rw [if_neg hplaced, if_neg hplaced]
      have hsame : (v.entries node)[entryNumber offset % 2 ^ 32]? =
          (v.entries node)[entryNumber offset]? := by
        by_cases hlong : 2 ^ 32 ≤ entryNumber offset
        · have hout : ¬entryNumber offset % 2 ^ 32 < (v.entries node).length :=
            fun hlt => hno ⟨hplaced, hlong, hlt⟩
          rw [List.getElem?_eq_none (by omega), List.getElem?_eq_none (by omega)]
        · rw [Nat.mod_eq_of_lt (by omega)]
      rw [hsame]
      cases (v.entries node)[entryNumber offset]? with
      | none => rfl
      | some entry => exact ⟨rfl, nameBytes_filledName base offset entry⟩

/-! ## Repeated calls -/

/-- The block of an entry. -/
def entryBytes (ino : BitVec 32) (name : List Byte) : Bytes :=
  splice 4 name.length (fun k => name.getD k 0) (splice 0 4 (ofWords fun _ => ino) fun _ => 0)

/-- The bytes of an entry read back. -/
theorem ofBytes_entryBytes (ino : BitVec 32) {name : List Byte} (hlen : name.length < sfsDentrySize)
    (hnonzero : ∀ c ∈ name, c ≠ 0) :
    let entry := (DiskEntry.ofBytes (entryBytes ino name)).terminated
    (entry.ino, entry.string) = (ino, name) := by
  have hsize : sfsDentrySize = SFS_MAX_FNAME_LEN + 1 := rfl
  have hname : ∀ k, (DiskEntry.ofBytes (entryBytes ino name)).terminated.name k =
      name.getD k 0 := by
    intro k
    show Function.update _ SFS_MAX_FNAME_LEN 0 k = _
    rw [Function.update_apply]
    split
    next hk => rw [hk, List.getD_eq_default _ _ (by omega)]
    next =>
      show entryBytes ino name (4 + k) = _
      by_cases hk : k < name.length
      · rw [entryBytes, splice_at hk]
      · rw [entryBytes, splice_out (by omega), splice_out (by omega),
          List.getD_eq_default _ _ (by omega)]
  refine Prod.ext ?_ (cString_eq (hsize ▸ hlen) (fun k hk => ?_) hnonzero ?_)
  · show word (entryBytes ino name) 0 = ino
    have hword : word (entryBytes ino name) 0 = word (ofWords fun _ => ino) 0 := by
      apply word_congr
      intro k hk
      rw [entryBytes, splice_out (by omega), splice_front (by omega)]
    rw [hword, word_ofWords]
  · rw [hname, List.getD_eq_getElem _ _ hk]
  · rw [hname, List.getD_eq_default _ _ (Nat.le_refl _)]

/-- The first block of the entries of a directory, and how many it has. -/
def treeBlocks (n : BitVec 32) : BitVec 32 × BitVec 32 :=
  if n = 3 then (6, 4) else if n = 4 then (10, 3) else (13, 2)

/-- What the blocks 6 and on hold: the entries of `/`, `/a` and `/a/bc`. One slot of `/` is
empty. -/
def treeEntries : List (BitVec 32 × List Byte) :=
  [(3, [46]), (3, [46, 46]), (0, []), (4, [97]), (4, [46]), (3, [46, 46]), (5, [98, 99]), (5, [46]),
    (4, [46, 46])]

/-- The directories `/`, `/a` and `/a/bc` are the inodes 3, 4 and 5. -/
def treeVolume : Volume where
  super := ⟨SFS_MAGIC, 32, 17, fun _ => 0⟩
  freemap := ⟨0, 1, 32, 1, fun _ => 0xffff8000⟩
  superDirty := true
  sin := fun n => ⟨⟨0, SFS_TYPE_DIR, 1, (treeBlocks n).2, fun i =>
    if i.val < (treeBlocks n).2.toNat then (treeBlocks n).1 + BitVec.ofNat 32 i.val else 0, 0⟩,
    true, 1⟩
  inodeList := [3, 4, 5]
  disk := fun b =>
    let (ino, name) := treeEntries.getD (b - 6) (0, [])
    entryBytes ino name
  ios := 0

def treeOwner (b : Nat) : Owner :=
  if b < 3 ∨ 32 ≤ b then .fixed else if b < 6 then .inode else if b < 10 then .data 3 (b - 6)
  else if b < 13 then .data 4 (b - 10) else if b < 15 then .data 5 (b - 13) else .free

theorem mem_tree : n ∈ treeVolume.inodeList ↔ n = 3 ∨ n = 4 ∨ n = 5 := by
  simp [treeVolume]

theorem treeOwner_inode : treeOwner n.toNat = .inode ↔ n ∈ treeVolume.inodeList := by
  have hnat : ∀ m : BitVec 32, n = m ↔ n.toNat = m.toNat := fun m => BitVec.toNat_inj.symm
  rw [mem_tree, hnat, hnat, hnat, treeOwner]
  repeat' split
  all_goals simp
  all_goals omega

theorem treeBlocks_bound (n : BitVec 32) : (treeBlocks n).2.toNat ≤ 4 ∧
    6 ≤ (treeBlocks n).1.toNat ∧ (treeBlocks n).1.toNat ≤ 13 := by
  unfold treeBlocks
  repeat' split
  all_goals decide

theorem toNat_treeSlot (hn : n ∈ treeVolume.inodeList) (i : Nat) : (treeVolume.slot n i).toNat =
    if i < (treeBlocks n).2.toNat then (treeBlocks n).1.toNat + i else 0 := by
  have hbound := treeBlocks_bound n
  have hdirect : SFS_NDIRECT = 12 := rfl
  rw [Volume.slot, din_cached hn]
  by_cases hi : i < SFS_NDIRECT
  · rw [DiskInode.slot, dif_pos hi]
    change (if i < (treeBlocks n).2.toNat then (treeBlocks n).1 + BitVec.ofNat 32 i else 0).toNat =
      _
    split
    next =>
      rw [BitVec.toNat_add, BitVec.toNat_ofNat]
      omega
    next => rfl
  · rw [DiskInode.slot_none _ _ (Nat.le_of_not_lt hi) rfl, if_neg (by omega)]
    rfl

/-- The blocks of the entries belong to their directories. -/
theorem treeOwner_data (b : Nat) (n : BitVec 32) (i : Nat) : treeOwner b = .data n i ↔
    n ∈ treeVolume.inodeList ∧ i < (treeBlocks n).2.toNat ∧ b = (treeBlocks n).1.toNat + i := by
  rw [mem_tree]
  constructor
  · intro howner
    unfold treeOwner at howner
    split at howner
    · cases howner
    · repeat' split at howner
      all_goals cases howner
      all_goals simp [treeBlocks]
      all_goals omega
  · rintro ⟨rfl | rfl | rfl, hi, rfl⟩
    · exact (by decide : ∀ i < 4, treeOwner (6 + i) = .data 3 i) i hi
    · exact (by decide : ∀ i < 3, treeOwner (10 + i) = .data 4 i) i hi
    · exact (by decide : ∀ i < 2, treeOwner (13 + i) = .data 5 i) i hi

theorem treeVolume_sound : Sound treeOwner treeVolume := by
  have hbits : ∀ b, b ∈ treeVolume.freemap.bits ↔ 15 ≤ b ∧ b < 32 := by
    intro b
    by_cases hb : b < 32
    · revert b
      decide
    · rw [Bitmap.mem_bits]
      exact iff_of_false (fun h => hb h.1) (fun h => hb h.2)
  have hcovered : treeVolume.Covered := Nat.le_refl 32
  have hblocks : treeVolume.super.blocks.toNat = 32 := rfl
  refine ⟨rfl, hcovered, by decide, by decide, fun b => ?_, fun b hb => ?_, fun b n => ?_,
    fun b n i => ?_⟩
  · rw [hbits, treeOwner]
    repeat' split
    all_goals simp
    all_goals omega
  · rw [hblocks]
    by_contra hout
    exact hb (if_pos (by omega))
  · refine iff_of_false (fun heq => ?_) ?_
    · unfold treeOwner at heq
      repeat' split at heq
      all_goals cases heq
    · rintro ⟨hn, hnumber, hne⟩
      rw [din_cached (treeOwner_inode.mp hn)] at hnumber
      exact hne hnumber.symm
  · rw [treeOwner_data, treeOwner_inode]
    refine and_congr_right fun hn => ?_
    rw [toNat_treeSlot hn]
    have hpos := (treeBlocks_bound n).2.1
    split <;> omega

theorem treeVolume_directory (hn : n ∈ treeVolume.inodeList) :
    Directory treeOwner treeVolume n := by
  refine ⟨⟨treeVolume_sound, fun m hm => ?_⟩, treeOwner_inode.mpr hn,
    hn, by rw [din_cached hn]; rfl⟩
  have hm := treeOwner_inode.mp hm
  have hblocks : (treeVolume.din m).blocks = (treeBlocks m).2 := by
    rw [din_cached hm]
    rfl
  have hbound := treeBlocks_bound m
  refine ⟨by rw [hblocks]; exact Nat.le_trans hbound.1 (by decide), fun i => ?_⟩
  have hzero : treeVolume.slot m i ≠ 0 ↔ (treeVolume.slot m i).toNat ≠ 0 :=
    BitVec.toNat_inj.symm.not
  rw [hblocks, hzero, toNat_treeSlot hm]
  split <;> omega

theorem treeVolume_entryAt (hd : d ∈ treeVolume.inodeList) {i : Nat}
    (hi : i < (treeBlocks d).2.toNat) :
    ((treeVolume.entryAt d i).ino, (treeVolume.entryAt d i).string) =
      treeEntries.getD ((treeBlocks d).1.toNat + i - 6) (0, []) := by
  obtain ⟨entry, hentry⟩ : ∃ entry, entry = treeEntries.getD ((treeBlocks d).1.toNat + i - 6)
      (0, []) :=
    ⟨_, rfl⟩
  have hfits : entry.2.length < sfsDentrySize ∧ ∀ c ∈ entry.2, c ≠ 0 := by
    have hall : ∀ entry ∈ (0, []) :: treeEntries,
        entry.2.length < sfsDentrySize ∧ ∀ c ∈ entry.2, c ≠ 0 := by decide
    apply hall
    rw [hentry, List.getD_eq_getElem?_getD]
    cases hget : treeEntries[(treeBlocks d).1.toNat + i - 6]? with
    | none => exact List.mem_cons_self
    | some _ => exact List.mem_cons_of_mem _ (List.mem_of_getElem? hget)
  have hbytes : treeVolume.disk (treeVolume.slot d i).toNat = entryBytes entry.1 entry.2 := by
    rw [toNat_treeSlot hd, if_pos hi, hentry]
    rfl
  rw [Volume.entryAt, hbytes, ← hentry]
  exact ofBytes_entryBytes entry.1 hfits.1 hfits.2

/-- What the directories list. -/
theorem treeVolume_entries (hd : d ∈ treeVolume.inodeList) :
    (treeVolume.entries d).map (fun entry => (entry.ino, entry.string)) =
      ((List.range (treeBlocks d).2.toNat).map fun i =>
        treeEntries.getD ((treeBlocks d).1.toNat + i - 6)
        (0, [])).filter fun entry => entry.1 ≠ 0 := by
  have hblocks : (treeVolume.din d).blocks = (treeBlocks d).2 := by
    rw [din_cached hd]
    rfl
  have hmade : (List.range (treeBlocks d).2.toNat).map (fun i =>
      treeEntries.getD ((treeBlocks d).1.toNat + i - 6) (0, [])) =
      ((List.range (treeBlocks d).2.toNat).map (treeVolume.entryAt d)).map fun entry =>
        (entry.ino, entry.string) := by
    rw [List.map_map]
    exact List.map_congr_left fun i hi => (treeVolume_entryAt hd (List.mem_range.mp hi)).symm
  rw [Volume.entries, Volume.entriesFrom, hblocks, ← List.range_eq_range', hmade,
    List.filter_map (p := fun entry : BitVec 32 × List Byte => decide (entry.1 ≠ 0))]
  rfl

theorem Wraps.refutes {offset : BitVec 64} (hwraps : Wraps v node offset)
    (h : Directory own v node) :
    ¬ ∀ (io : Nat → Int) (own : Nat → Owner) (v : Volume) (node : BitVec 32), Directory own v node →
      (∀ k, io k = 0) → ∀ offset, ListsAt io v node offset :=
  fun hclaim =>
    have hio : ∀ k, (fun _ => 0 : Nat → Int) k = 0 := fun _ => rfl
    (h.listsAt_iff hio offset).mp (hclaim _ own v node h hio offset) hwraps

end Ucore.Sfs
