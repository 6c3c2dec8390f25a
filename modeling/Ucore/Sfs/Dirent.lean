import Ucore.Sfs.BlockMap

/-!
# Reading the directories of an image

`add_entry` writes `sizeof(entry->name)` bytes of an entry that has four more, so the
last four bytes of the name are not on the image. Names of up to 252 bytes are read back
and found, longer ones are cut.
-/

namespace Ucore.Sfs

open Machine

/-! ## The kernel's reading -/

/-- `struct sfs_disk_entry`. -/
structure DiskEntry where
  ino : BitVec 32
  name : Bytes

/-- `sizeof(struct sfs_disk_entry)`. -/
def sizeofDiskEntry : Nat := 4 + (SFS_MAX_FNAME_LEN + 1)

def DiskEntry.ofBytes (b : Bytes) : DiskEntry := ⟨word b 0, fun k => b (4 + k)⟩

/-- `entry->name[SFS_MAX_FNAME_LEN] = '\0'`. -/
def DiskEntry.terminated (entry : DiskEntry) : DiskEntry :=
  { entry with name := Function.update entry.name SFS_MAX_FNAME_LEN 0 }

/-- The C string in a buffer. -/
def cString (size : Nat) (b : Bytes) : List Byte := ((List.range size).map b).takeWhile (· ≠ 0)

/-- What `strcmp` sees of an entry. -/
def DiskEntry.string (entry : DiskEntry) : List Byte := cString (SFS_MAX_FNAME_LEN + 1) entry.name

section Model

variable (io : Nat → Int)

def sfsDirentReadNolock (node : BitVec 32) (slot : Nat) : SfsM (Except Int DiskEntry) := do
  let din := ((← get).sin node).din
  check .sfsDirentReadNolock (din.type = SFS_TYPE_DIR ∧ slot < din.blocks.toNat)
  match ← sfsBmapLoadNolock io node slot with
  | .error ret => return .error ret
  | .ok ino =>
      check .sfsDirentReadNolock ((← sfsBlockInuse ino) = true)
      match ← sfsRbuf io sizeofDiskEntry ino 0 with
      | .error ret => return .error ret
      | .ok b => return .ok (DiskEntry.ofBytes b).terminated

/-- The loop of `sfs_dirent_search_nolock` from slot `i` on; the last empty slot was
`empty`. The number and the slot of the entry are returned, with the empty slot. -/
def searchSlots (node : BitVec 32) (name : List Byte) :
    Nat → Nat → Nat → SfsM (Except Int (BitVec 32 × Nat) × Option Nat)
  | 0, _, empty => return (.error (-E_NOENT), some empty)
  | left + 1, i, empty => do
      match ← sfsDirentReadNolock io node i with
      | .error ret => return (.error ret, some empty)
      | .ok entry =>
          if entry.ino = 0 then searchSlots node name left (i + 1) i
          else if name = entry.string then return (.ok (entry.ino, i), some empty)
          else searchSlots node name left (i + 1) empty

/-- `full` tells that `kmalloc` returns null. -/
def sfsDirentSearchNolock (full : Bool) (node : BitVec 32) (name : List Byte) :
    SfsM (Except Int (BitVec 32 × Nat) × Option Nat) := do
  check .sfsDirentSearchNolock (name.length ≤ SFS_MAX_FNAME_LEN)
  if full then return (.error (-E_NO_MEM), none)
  else
  let nslots := ((← get).sin node).din.blocks.toNat
  searchSlots io node name nslots 0 nslots

end Model

/-! ## Strings -/

/-- A string that ends in a NUL. -/
theorem cString_eq {size : Nat} {b : Bytes} {l : List Byte} (hlen : l.length < size)
    (hbytes : ∀ k (hk : k < l.length), b k = l[k]) (hnonzero : ∀ c ∈ l, c ≠ 0)
    (hend : b l.length = 0) : cString size b = l := by
  obtain ⟨rest, hrest⟩ : ∃ rest, size = l.length + (rest + 1) := ⟨size - l.length - 1, by omega⟩
  have hfront : (List.range l.length).map b = l := by
    apply List.ext_getElem (by simp)
    intro k hk hk'
    rw [List.getElem_map, List.getElem_range]
    exact hbytes k hk'
  rw [cString, hrest, List.range_add, List.map_append, hfront,
    List.takeWhile_append_of_pos (by simpa using hnonzero), List.range_succ_eq_map]
  simp [hend]

namespace Mksfs

theorem Name.ext_bytes {name name' : Name} (hbytes : name.bytes = name'.bytes) : name = name' := by
  cases name
  cases name'
  congr

/-- The bytes of a name that are written. -/
def writtenLen : Nat := sfsDentrySize - 4

theorem ofBytes_entryBlock (old : Bytes) (ino : BitVec 32) (name : Name) :
    (DiskEntry.ofBytes (entryBlock old ino name)).terminated.ino = ino := by
  show word (entryBlock old ino name) 0 = ino
  rw [entryBlock, word_splice _ _ (by decide)]
  apply (word_congr _).trans (word_ofWords (fun _ => ino) 0)
  intro k hk
  rw [fillEntry, if_pos (by omega), ofWords, Nat.mod_eq_of_lt (by omega)]

/-- The byte of a name that the kernel reads. -/
theorem name_entryBlock (old : Bytes) (ino : BitVec 32) (name : Name) {k : Nat}
    (hk : k < SFS_MAX_FNAME_LEN) :
    (DiskEntry.ofBytes (entryBlock old ino name)).terminated.name k =
      if k < writtenLen then fillEntry old ino name (4 + k) else 0 := by
  have hterminated : (DiskEntry.ofBytes (entryBlock old ino name)).terminated.name k =
      entryBlock old ino name (4 + k) := Function.update_of_ne (Nat.ne_of_lt hk) _ _
  rw [hterminated, entryBlock, splice, Nat.sub_zero, Nat.zero_add]
  have hwritten : writtenLen + 4 = sfsDentrySize := rfl
  by_cases hlt : k < writtenLen
  · rw [if_pos ⟨Nat.zero_le _, by omega⟩, if_pos hlt]
  · rw [if_neg (by omega), if_neg hlt]

/-- A name is read back as far as it was written. -/
theorem string_entryBlock (old : Bytes) (ino : BitVec 32) (name : Name) :
    (DiskEntry.ofBytes (entryBlock old ino name)).terminated.string =
      name.bytes.take writtenLen := by
  have hwritten : writtenLen = 252 := rfl
  have hmax : SFS_MAX_FNAME_LEN = 255 := rfl
  have hlen : (name.bytes.take writtenLen).length = min writtenLen name.bytes.length :=
    List.length_take
  apply cString_eq
  · omega
  · intro k hk
    rw [name_entryBlock old ino name (by omega), if_pos (by omega), fillEntry, if_neg (by omega),
      dif_pos (by omega), List.getElem_take]
    simp
  · exact fun c hc => name.noNul c (List.mem_of_mem_take hc)
  · -- the NUL is the end of the string, or of what was written
    rw [name_entryBlock old ino name (by omega), hlen]
    by_cases hlong : writtenLen ≤ name.bytes.length
    · rw [Nat.min_eq_left hlong, if_neg (Nat.lt_irrefl _)]
    · rw [Nat.min_eq_right (by omega), if_pos (by omega), fillEntry, if_neg (by omega),
        dif_neg (by omega), if_pos (by omega)]

/-- An entry survives exactly if its name was written whole. -/
theorem entry_survives_iff (old : Bytes) (ino : BitVec 32) (name : Name) :
    ((DiskEntry.ofBytes (entryBlock old ino name)).terminated.ino = ino ∧
      (DiskEntry.ofBytes (entryBlock old ino name)).terminated.string = name.bytes) ↔
      name.bytes.length ≤ writtenLen := by
  rw [string_entryBlock, List.take_eq_self_iff]
  exact and_iff_right (ofBytes_entryBlock old ino name)

section Directories

variable {u : Tool} {img : Blocks} {v : Volume} {d ino : BitVec 32} {name : Name} {i : Nat}

/-- The block of an entry was not written again. -/
theorem Closed.entry_eq (hu : Inv u) (himg : Closed u img) (hdir : IsDir u d)
    (hentry : (u.inode d).names[i]? = some (ino, name)) :
    ∃ old, img ((u.inode d).appended.getD i 0).toNat = entryBlock old ino name := by
  have hs := hu.built.accounted
  have hok := hu.entered.dirs d hdir.listed hdir.type
  have hi : i < (u.inode d).appended.length := hok.length ▸ (List.getElem?_eq_some_iff.mp hentry).1
  have hhanded := hs.appended_handed hdir.listed hi
  obtain ⟨old, hold⟩ := hok.written i ino name hentry
  refine ⟨old, (himg.data _ ((hs.mem_handed _).mp hhanded).1 ?_).trans hold⟩
  intro n hn heq
  have heq : n = (u.inode d).appended.getD i 0 := BitVec.eq_of_toNat_eq heq
  rcases hn with hn | hn
  · cases hs.number_inj (.index n) (.data d i) hn ⟨hdir.listed, hi⟩ heq
  · cases hs.number_inj (.inode n) (.data d i) hn ⟨hdir.listed, hi⟩ heq

/-- The kernel finds the number of a block that is there. -/
theorem OfImage.bmapLoad (hv : OfImage u img v) (hu : Built u) (himg : Closed u img)
    (hn : u.Listed d) (hdin : (v.sin d).din = (u.inode d).inode.din)
    (hi : i < (u.inode d).appended.length) (hlow : i < SFS_NDIRECT + SFS_BLK_NENTRY) :
    Ends never (sfsBmapLoadNolock (fun _ => 0) d i) v fun r t => (∃ ios, t = { v with ios }) ∧
      r = .ok ((u.inode d).appended.getD i 0) := by
  have hblocks := hu.filed.blocks_eq hn hdin
  have hfalse : decide (i = (u.inode d).appended.length) = false :=
    decide_eq_false (Nat.ne_of_lt hi)
  have huse := hv.inUse hu.accounted (hu.accounted.appended_handed hn hi)
  rw [sfsBmapLoadNolock, ends_bind, ends_get]
  simp only
  rw [hblocks, hfalse, ends_bind, ends_check (Nat.le_of_lt hi), ends_bind]
  apply (hv.bmap hu himg hn hdin hi hlow).imp
  intro r t ht
  obtain ⟨⟨ios, rfl⟩, rfl⟩ := ht
  simp only
  rw [ends_bind]
  apply (sfsBlockInuse_spec (hv.ios ios).covered huse.ne_zero huse.lt).imp
  intro r t ht
  obtain ⟨rfl, hr⟩ := ht
  rw [ends_bind, ends_check (hr.mpr huse.used)]
  exact ⟨⟨ios, rfl⟩, rfl⟩

/-- The kernel reads an entry, with what there is of its name. -/
theorem OfImage.direntRead (hv : OfImage u img v) (hu : Inv u) (himg : Closed u img)
    (hdir : IsDir u d) (hdin : (v.sin d).din = (u.inode d).inode.din)
    (hentry : (u.inode d).names[i]? = some (ino, name)) (hlow : i < SFS_NDIRECT + SFS_BLK_NENTRY) :
    Ends never (sfsDirentReadNolock (fun _ => 0) d i) v fun r t => (∃ ios, t = { v with ios }) ∧
      ∃ entry, r = .ok entry ∧ entry.ino = ino ∧ entry.string = name.bytes.take writtenLen := by
  have hs := hu.built.accounted
  have hok := hu.entered.dirs d hdir.listed hdir.type
  have hi : i < (u.inode d).appended.length := hok.length ▸ (List.getElem?_eq_some_iff.mp hentry).1
  have hblocks := hu.built.filed.blocks_eq hdir.listed hdin
  have htype : (v.sin d).din.type = SFS_TYPE_DIR := by
    rw [hdin]
    exact hdir.type
  have hhanded := hs.appended_handed hdir.listed hi
  obtain ⟨old, hold⟩ := himg.entry_eq hu hdir hentry
  rw [sfsDirentReadNolock, ends_bind, ends_get]
  simp only
  rw [ends_bind, ends_check ⟨htype, hblocks.symm ▸ hi⟩, ends_bind]
  apply (hv.bmapLoad hu.built himg hdir.listed hdin hi hlow).imp
  intro r t ht
  obtain ⟨⟨ios, rfl⟩, rfl⟩ := ht
  have hv' := hv.ios ios
  have huse := hv'.inUse hs hhanded
  simp only
  rw [ends_bind]
  apply (sfsBlockInuse_spec hv'.covered huse.ne_zero huse.lt).imp
  intro r t ht
  obtain ⟨rfl, hr⟩ := ht
  rw [ends_bind, ends_check (hr.mpr huse.used), ends_bind]
  apply (sfsRbuf_spec (hv'.valid hs hhanded) (by decide) (by decide)).imp
  intro r t ht
  obtain ⟨rfl, hread⟩ := ht
  cases r with
  | error ret => exact absurd hread.1 hread.2
  | ok b =>
      have hb : b = entryBlock old ino name := by
        rw [hread.2]
        funext k
        rw [Nat.zero_add, hv'.disk, hold]
      rw [hb]
      exact ⟨⟨_, rfl⟩, _, rfl, ofBytes_entryBlock old ino name, string_entryBlock old ino name⟩

/-- The search goes past entries with other names and ends at the first with the name. -/
theorem OfImage.searchSlots (hu : Inv u) (himg : Closed u img) (hdir : IsDir u d) {j : Nat}
    (hentry : (u.inode d).names[j]? = some (ino, name)) (hlow : j < SFS_NDIRECT + SFS_BLK_NENTRY)
    (hname : name.bytes.length ≤ writtenLen)
    (hothers : ∀ k ino' name', k < j → (u.inode d).names[k]? = some (ino', name') →
      name'.bytes.take writtenLen ≠ name.bytes) (hino : ∀ e ∈ (u.inode d).names, e.1 ≠ 0) :
    ∀ left i empty v, OfImage u img v → (v.sin d).din = (u.inode d).inode.din →
      i ≤ j → j < i + left →
      Ends never (Sfs.searchSlots (fun _ => 0) d name.bytes left i empty) v fun r _ =>
        r.1 = .ok (ino, j) := by
  intro left
  induction left with
  | zero =>
      intro i empty v _ _ hle hlt
      omega
  | succ left ih =>
      intro i empty v hv hdin hle hlt
      have hj := (List.getElem?_eq_some_iff.mp hentry).1
      obtain ⟨e, he⟩ : ∃ e, (u.inode d).names[i]? = some e :=
        ⟨_, List.getElem?_eq_getElem (by omega)⟩
      rw [Sfs.searchSlots, ends_bind]
      apply (hv.direntRead hu himg hdir hdin he (by omega)).imp
      intro r t ht
      obtain ⟨⟨ios, rfl⟩, entry, rfl, heino, hstring⟩ := ht
      have hnonzero := hino e (List.mem_of_getElem? he)
      simp only
      rw [heino, if_neg hnonzero, hstring]
      split
      case isTrue heq =>
        by_cases hij : i = j
        · rw [hij, hentry] at he
          obtain rfl := Option.some.inj he
          rw [hij]
          rfl
        · exact absurd heq.symm (hothers i e.1 e.2 (by omega) he)
      case isFalse hne =>
        have hij : i ≠ j := by
          intro hij
          rw [hij, hentry] at he
          obtain rfl := Option.some.inj he
          exact hne (List.take_of_length_le hname).symm
        exact ih (i + 1) empty _ (hv.ios ios) hdin (by omega) (by omega)

/-- The entries of a directory are read back, each from its slot, and a search for the name of one
finds its inode and its slot. -/
def EntriesFound (v : Volume) (d : BitVec 32) (names : List (BitVec 32 × Name)) : Prop :=
  ∀ i ino name, names[i]? = some (ino, name) →
    (Ends never (sfsDirentReadNolock (fun _ => 0) d i) v fun r _ =>
      ∃ entry, r = .ok entry ∧ entry.ino = ino ∧ entry.string = name.bytes) ∧
    Ends never (sfsDirentSearchNolock (fun _ => 0) false d name.bytes) v fun r _ =>
      r.1 = .ok (ino, i)

/-- On a slot past the indirect block the kernel panics. -/
theorem direntRead_range {Q : Except Int DiskEntry → Volume → Prop}
    (htype : (v.sin d).din.type = SFS_TYPE_DIR) (hi : i < (v.sin d).din.blocks.toNat)
    (hrange : SFS_NDIRECT + SFS_BLK_NENTRY ≤ i) :
    ¬Ends never (sfsDirentReadNolock (fun _ => 0) d i) v Q := by
  intro hread
  have hfalse : decide (i = (v.sin d).din.blocks.toNat) = false := decide_eq_false (Nat.ne_of_lt hi)
  rw [sfsDirentReadNolock, ends_bind, ends_get] at hread
  simp only at hread
  rw [ends_bind, ends_check ⟨htype, hi⟩, ends_bind, sfsBmapLoadNolock, ends_bind, ends_get] at hread
  simp only at hread
  rw [hfalse, ends_bind, ends_check (Nat.le_of_lt hi), ends_bind] at hread
  exact (sfsBmapGetNolock_range hrange).mp hread

/-- Every entry is found exactly if no name is cut and the kernel has a block map for all
the slots. -/
theorem OfImage.found_iff (hv : OfImage u img v) (hu : Inv u) (himg : Closed u img)
    (hdir : IsDir u d) (hdin : (v.sin d).din = (u.inode d).inode.din)
    (hdistinct : ((u.inode d).names.map Prod.snd).Nodup) :
    EntriesFound v d (u.inode d).names ↔
      (∀ e ∈ (u.inode d).names, e.2.bytes.length ≤ writtenLen) ∧
        (u.inode d).names.length ≤ SFS_NDIRECT + SFS_BLK_NENTRY := by
  have hok := hu.entered.dirs d hdir.listed hdir.type
  have hblocks := hu.built.filed.blocks_eq hdir.listed hdin
  have hino : ∀ e ∈ (u.inode d).names, e.1 ≠ 0 := by
    intro e he
    have hlisted := (hu.entered.names d e.1 e.2 hdir.listed he).1
    by_cases hroot : e.1 = rootIno
    · rw [hroot]
      decide
    · have hs := hu.built.accounted
      exact hs.ne_zero (hs.number_mem (.inode e.1) hlisted fun heq => hroot (Use.inode.inj heq))
  have hdin' : (v.sin d).din.type = SFS_TYPE_DIR := by
    rw [hdin]
    exact hdir.type
  constructor
  · intro hfound
    have hshort : (u.inode d).names.length ≤ SFS_NDIRECT + SFS_BLK_NENTRY := by
      by_contra hlong
      obtain ⟨e, he⟩ : ∃ e, (u.inode d).names[SFS_NDIRECT + SFS_BLK_NENTRY]? = some e :=
        ⟨_, List.getElem?_eq_getElem (by omega)⟩
      have hread := (hfound _ e.1 e.2 he).1
      exact direntRead_range hdin' (by rw [hblocks, ← hok.length]; omega) (Nat.le_refl _) hread
    refine ⟨fun e he => ?_, hshort⟩
    obtain ⟨i, hi, hentry⟩ := List.getElem_of_mem he
    have hentry : (u.inode d).names[i]? = some (e.1, e.2) := by
      rw [List.getElem?_eq_getElem hi, hentry]
    have hread :=
      (hv.direntRead hu himg hdir hdin hentry (by omega)).and (hfound i e.1 e.2 hentry).1
    obtain ⟨r, t, _, ⟨_, entry, rfl, _, hcut⟩, entry', hsame, _, hwhole⟩ := hread.ok
    obtain rfl := Except.ok.inj hsame
    rw [hwhole] at hcut
    exact (List.take_eq_self_iff _).mp hcut.symm
  · intro ⟨hnames, hshort⟩ i ino name hentry
    have hi := (List.getElem?_eq_some_iff.mp hentry).1
    have hname := hnames _ (List.mem_of_getElem? hentry)
    constructor
    · apply (hv.direntRead hu himg hdir hdin hentry (by omega)).imp
      intro r t ht
      obtain ⟨_, entry, hr, hino, hstring⟩ := ht
      exact ⟨entry, hr, hino, hstring.trans (List.take_of_length_le hname)⟩
    · have hlen := (hu.entered.names d ino name hdir.listed (List.mem_of_getElem? hentry)).2
      rw [sfsDirentSearchNolock, ends_bind, ends_check hlen, if_neg Bool.false_ne_true,
        ends_bind, ends_get]
      simp only
      refine OfImage.searchSlots hu himg hdir hentry (by omega) hname ?_ hino _ 0 _ v hv hdin
        (Nat.zero_le _) (by rw [hblocks, ← hok.length]; omega)
      -- another entry of that name, uncut, would have the same name
      intro k ino' name' hk hentry' hsame
      have hname' := hnames _ (List.mem_of_getElem? hentry')
      rw [List.take_of_length_le hname'] at hsame
      have hindex : ∀ (k : Nat) (e : BitVec 32 × Name), (u.inode d).names[k]? = some e →
          ((u.inode d).names.map Prod.snd)[k]? = some e.2 := by
        intro k e he
        rw [List.getElem?_map, he]
        rfl
      have hequal := hindex k _ hentry'
      rw [Name.ext_bytes hsame, ← hindex i _ hentry] at hequal
      have hki : k = i := (List.getElem?_inj (by rw [List.length_map]; omega) hdistinct).mp hequal
      omega

end Directories

/-- Whatever the image size and the host directory: an entry is on the image as it was
added if its name has at most 252 bytes, and in a directory with distinct names the kernel
finds every entry exactly if all have and there are no more than 1036. -/
theorem entries_found (s : Tool) (imgSize : Nat) (info : Fin (SFS_MAX_INFO_LEN + 1) → Byte)
    (home : HostDir) :
    (∀ old ino name, ((DiskEntry.ofBytes (entryBlock old ino name)).terminated.ino = ino ∧
      (DiskEntry.ofBytes (entryBlock old ino name)).terminated.string = name.bytes) ↔
        name.bytes.length ≤ writtenLen) ∧
    Ends Excused (createImg imgSize info home) s fun _ t => ∀ dev sfs sin, dev.disk = t.img →
      Mounted dev sfs → ∀ d, IsDir t d → ((t.inode d).names.map Prod.snd).Nodup →
        (EntriesFound ((Volume.mounted sfs t.img sin).load d) d (t.inode d).names ↔
          (∀ e ∈ (t.inode d).names, e.2.bytes.length ≤ writtenLen) ∧
            (t.inode d).names.length ≤ SFS_NDIRECT + SFS_BLK_NENTRY) := by
  refine ⟨entry_survives_iff, ?_⟩
  apply (createImg_spec s imgSize info home).imp
  intro _ t ht dev sfs sin hdisk hmounted d hdir hdistinct
  obtain ⟨u, hinv, _, hrest, himg⟩ := ht
  have hinode : t.inode = u.inode := by rw [hrest]
  have hdir' : IsDir u d := by
    rw [hrest] at hdir
    exact ⟨hdir.listed, hdir.type⟩
  rw [hinode] at hdistinct ⊢
  exact (himg.ofImage hinv.built.accounted hdisk hmounted).found_iff hinv himg hdir'
    (himg.load_din hdir'.listed) hdistinct

/-! ## A name that is cut -/

/-- The root directory of an image has distinct names, and one that is too long. -/
theorem not_found_of_open {s : Tool} {imgSize : Nat} {info : Fin (SFS_MAX_INFO_LEN + 1) → Byte}
    {home : HostDir} (hopen : yields (openImg imgSize info home) s (fun _ u =>
      decide ((u.inode rootIno).inode.type = SFS_TYPE_DIR ∧
        ((u.inode rootIno).names.map Prod.snd).Nodup ∧
        ∃ e ∈ (u.inode rootIno).names, writtenLen < e.2.bytes.length)) = true) :
    ¬ ∀ (s : Tool) (imgSize : Nat) (info : Fin (SFS_MAX_INFO_LEN + 1) → Byte) (home : HostDir),
      Ends Excused (createImg imgSize info home) s fun _ t => ∀ dev sfs sin, dev.disk = t.img →
        Mounted dev sfs → ∀ d, IsDir t d → ((t.inode d).names.map Prod.snd).Nodup →
          EntriesFound ((Volume.mounted sfs t.img sin).load d) d (t.inode d).names := by
  intro hclaim
  have hboth := (Ends.of_yields hopen).and (openImg_spec s imgSize info home)
  have hclosed : Ends never (createImg imgSize info home) s fun _ t => ∃ u, Inv u ∧
      t = { u with img := t.img } ∧ Closed u t.img ∧ IsDir u rootIno ∧
        ((u.inode rootIno).names.map Prod.snd).Nodup ∧
        ∃ e ∈ (u.inode rootIno).names, writtenLen < e.2.bytes.length := by
    rw [createImg_eq, ends_bind]
    apply hboth.imp
    intro _ u hu
    obtain ⟨hyields, hinv, _⟩ := hu
    obtain ⟨htype, hdistinct, hlong⟩ := of_decide_eq_true hyields
    apply (closeSfs_spec hinv.built.accounted).imp
    intro _ t ht
    exact ⟨u, hinv, ht.1, ht.2, ⟨hinv.built.accounted.root, htype⟩, hdistinct, hlong⟩
  obtain ⟨_, t, _, ⟨u, hinv, hrest, himg, hdir, hdistinct, e, he, hlong⟩, hfound⟩ :=
    (hclosed.and (hclaim s imgSize info home)).ok
  obtain ⟨dev, sfs, hdisk, hmounted⟩ := himg.mounts hinv.built.accounted
  have hinode : t.inode = u.inode := by rw [hrest]
  have hdir' : IsDir t rootIno := by
    rw [hrest]
    exact ⟨hdir.listed, hdir.type⟩
  have hnames := hfound dev sfs (fun _ => ⟨DiskInode.ofBytes fun _ => 0, false, 0⟩) hdisk hmounted
    rootIno hdir' (by rwa [hinode])
  rw [hinode] at hnames
  have hshort := ((himg.ofImage hinv.built.accounted hdisk hmounted).found_iff hinv himg hdir
    (himg.load_din hdir.listed) hdistinct).mp hnames
  exact Nat.not_le_of_lt hlong (hshort.1 e he)

/-- A host directory with an empty file, whose name has 253 bytes. -/
def longName : HostDir :=
  .entry ⟨List.replicate 253 0x61, fun b hb => by rw [List.eq_of_mem_replicate hb]; decide⟩
    (.file 7 []) .done

theorem longName_open : yields (openImg (8 * 4096) (fun _ => 0) longName) blankTool (fun _ u =>
    decide ((u.inode rootIno).inode.type = SFS_TYPE_DIR ∧
      ((u.inode rootIno).names.map Prod.snd).Nodup ∧
      ∃ e ∈ (u.inode rootIno).names, writtenLen < e.2.bytes.length)) = true := by
  decide +kernel

/-- The last byte of the name is lost, and the file is not found. -/
theorem longName_lost : ¬ ∀ (s : Tool) (imgSize : Nat) (info : Fin (SFS_MAX_INFO_LEN + 1) → Byte)
    (home : HostDir), Ends Excused (createImg imgSize info home) s fun _ t => ∀ dev sfs sin,
      dev.disk = t.img → Mounted dev sfs → ∀ d, IsDir t d → ((t.inode d).names.map Prod.snd).Nodup →
        EntriesFound ((Volume.mounted sfs t.img sin).load d) d (t.inode d).names :=
  not_found_of_open longName_open

end Mksfs

end Ucore.Sfs
