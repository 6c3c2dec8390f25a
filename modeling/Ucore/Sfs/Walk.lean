import Ucore.Sfs.FileTable

/-!
# Walking the host directory

Every insertion of a file, a link or a directory keeps what the tool has handed out and
filed, and the entries of every directory are on the image as they were added.
-/

namespace Ucore.Sfs.Mksfs

open Machine

/-- The block of an entry: the first bytes of the buffer, which may have the rest of an
older name after the NUL. -/
def entryBlock (old : Bytes) (ino : BitVec 32) (name : Name) : Bytes :=
  splice 0 sfsDentrySize (fillEntry old ino name) fun _ => 0

/-- The blocks of a directory have its entries. -/
structure EntriesOk (img : Blocks) (ci : CacheInode) : Prop where
  length : ci.names.length = ci.appended.length
  written : ∀ i ino name, ci.names[i]? = some (ino, name) →
    ∃ old, img (ci.appended.getD i 0).toNat = entryBlock old ino name

structure Entered (s : Tool) : Prop where
  dirs : ∀ d, s.Listed d → (s.inode d).inode.type = SFS_TYPE_DIR → EntriesOk s.img (s.inode d)
  names : ∀ d ino name, s.Listed d → (ino, name) ∈ (s.inode d).names →
    s.Listed ino ∧ name.bytes.length ≤ SFS_MAX_FNAME_LEN

structure Inv (s : Tool) : Prop where
  built : Built s
  entered : Entered s

/-- The inodes of one state are those of another, and more. -/
structure Grows (s t : Tool) : Prop where
  ninos : t.ninos = s.ninos
  listed : ∀ n, s.Listed n → t.Listed n
  type : ∀ n, s.Listed n → (t.inode n).inode.type = (s.inode n).inode.type

/-- An inode of a directory. -/
structure IsDir (s : Tool) (n : BitVec 32) : Prop where
  listed : s.Listed n
  type : (s.inode n).inode.type = SFS_TYPE_DIR

/-- The tool may stop, where the image is full or the host fails, but not at these assertions, which
are about its own tables. -/
structure Excused (e : Stop) : Prop where
  updateCache : e ≠ .updateCache
  appendBlock : e ≠ .appendBlock
  addEntry : e ≠ .addEntry

section Steps

variable {s t u : Tool} {n m file current : BitVec 32} {name : Name} {ino : BitVec 32}

theorem Grows.refl (s : Tool) : Grows s s := ⟨rfl, fun _ hn => hn, fun _ _ => rfl⟩

theorem Grows.trans (hst : Grows s t) (htu : Grows t u) : Grows s u where
  ninos := htu.ninos.trans hst.ninos
  listed n hn := htu.listed n (hst.listed n hn)
  type n hn := (htu.type n (hst.listed n hn)).trans (hst.type n hn)

theorem IsDir.grow (hn : IsDir s n) (hst : Grows s t) : IsDir t n :=
  ⟨hst.listed n hn.listed, (hst.type n hn.listed).trans hn.type⟩

theorem excused_space : Excused .outOfSpace := ⟨nofun, nofun, nofun⟩

theorem excused_append {e : Stop} (he : e = .outOfSpace ∨ e = .fileTooBig) : Excused e := by
  rcases he with rfl | rfl
  · exact excused_space
  · exact ⟨nofun, nofun, nofun⟩

theorem EntriesOk.congr {img img' : Blocks} {ci : CacheInode} (hci : EntriesOk img ci)
    (hsame : ∀ i < ci.appended.length,
      img' (ci.appended.getD i 0).toNat = img (ci.appended.getD i 0).toNat) :
      EntriesOk img' ci := by
  refine ⟨hci.length, fun i ino name hname => ?_⟩
  have hi : i < ci.appended.length := by
    rw [← hci.length]
    exact (List.getElem?_eq_some_iff.mp hname).1
  rw [hsame i hi]
  exact hci.written i ino name hname

/-! ## Writing -/

theorem Accounted.handed_lt (hs : Accounted s) (hn : n ∈ s.handed) : n < s.ninos :=
  ((hs.mem_handed n).mp hn).2.trans_le hs.nextIno_le

theorem writeBlock_spec (hn : n < s.ninos) {len : Nat} (hlen : len ≤ SFS_BLKSIZE) (data : Bytes) :
    Ends never (writeBlock data len n) s fun _ t =>
      t = { s with
        img := Function.update s.img n.toNat
          (if len ≠ SFS_BLKSIZE then splice 0 len data fun _ => 0 else data) } := by
  rw [writeBlock, ends_bind, ends_get, ends_bind, ends_check ⟨hlen, hn⟩]
  exact rfl

theorem Built.setImg (hs : Built s) (entry : Bytes) (img : Blocks) :
    Built { s with entry := entry, img := img } :=
  ⟨hs.accounted.congr s.inode s.cache entry img (fun _ => rfl) fun _ => rfl, hs.filed.files,
    hs.filed.cached, hs.filed.apart⟩

theorem Fresh.setImg (hn : Fresh s n) (entry : Bytes) (img : Blocks) :
    Fresh { s with entry := entry, img := img } n := ⟨hn.handed, hn.unused⟩

theorem Inv.hand (hs : Inv s) (hroom : s.nextIno < s.ninos) : Inv s.hand :=
  ⟨hs.built.hand hroom, hs.entered.dirs, hs.entered.names⟩

/-- Writing a block that is not used leaves the entries as they are. -/
theorem Inv.write (hs : Inv s) (hn : Fresh s n) (entry data : Bytes) :
    Inv { s with entry := entry, img := Function.update s.img n.toNat data } := by
  refine ⟨hs.built.setImg _ _, fun d hd htype => ?_, hs.entered.names⟩
  apply (hs.entered.dirs d hd htype).congr
  intro i hi
  apply Function.update_of_ne
  intro heq
  exact hn.unused (.data d i) ⟨hd, hi⟩ (BitVec.eq_of_toNat_eq heq)

theorem Appended.grows (hst : Appended s t file n) : Grows s t := by
  refine ⟨hst.ninos, fun m hm => ?_, fun m _ => ?_⟩
  · unfold Tool.Listed
    rw [hst.inodes]
    exact hm
  · by_cases heq : m = file
    · rw [heq, hst.type]
    · rw [hst.other m heq]

/-- A block of a file or a link. -/
theorem appendData_spec (hs : Inv s) (hfile : s.Listed file)
    (htype : (s.inode file).inode.type ≠ SFS_TYPE_DIR) (hn : Fresh s n) (chunk : Chunk) :
    Ends Excused
      (do
        writeBlock chunk.data chunk.len n
        appendBlock file chunk.len n) s fun _ t => Inv t ∧ Grows s t := by
  rw [ends_bind]
  apply (writeBlock_spec (hs.built.accounted.handed_lt hn.handed) chunk.len_le chunk.data).lift
  intro _ u hu
  have hinv : Inv u := hu ▸ hs.write hn s.entry _
  have hfresh : Fresh u n := hu ▸ hn.setImg s.entry _
  have hlisted : u.Listed file := hu ▸ hfile
  have htype : (u.inode file).inode.type ≠ SFS_TYPE_DIR := hu ▸ htype
  have hgrows : Grows s u := by
    rw [hu]
    exact ⟨rfl, fun _ hn => hn, fun _ _ => rfl⟩
  apply (appendBlock_spec hinv.built hlisted hfresh chunk.len_le).mono
  · exact fun _ he => excused_append he
  · intro _ t ht
    have hlist : ∀ d, t.Listed d → u.Listed d := by
      intro d hd
      unfold Tool.Listed at hd ⊢
      rwa [ht.inodes] at hd
    refine ⟨⟨ht.built, fun d hd hdir => ?_, fun d ino name hd hname => ?_⟩, hgrows.trans ht.grows⟩
    · have hne : d ≠ file := by
        intro heq
        rw [heq, ht.type] at hdir
        exact htype hdir
      rw [ht.img, ht.other d hne]
      rw [ht.other d hne] at hdir
      exact hinv.entered.dirs d (hlist d hd) hdir
    · have hname : (ino, name) ∈ (u.inode d).names := by
        by_cases heq : d = file
        · rw [heq, ht.names] at hname
          rwa [heq]
        · rwa [ht.other d heq] at hname
      obtain ⟨hino, hlen⟩ := hinv.entered.names d ino name (hlist d hd) hname
      exact ⟨ht.grows.listed ino hino, hlen⟩

/-! ## Entries -/

theorem FileOk.retouch {cache : BitVec 32 → Bytes} {ci : CacheInode} (hci : FileOk cache ci)
    (nlinks : BitVec 16) (names : List (BitVec 32 × Name)) :
    FileOk cache { ci with names := names, inode := { ci.inode with nlinks := nlinks } } := by
  have hdouble : SFS_L1_NBLKS < ci.nblks →
      Double cache { ci with names := names, inode := { ci.inode with nlinks := nlinks } } := by
    intro hlong
    have hold := hci.double hlong
    exact ⟨hold.db_ne_zero, hold.db_ne_indirect, hold.l2, hold.l1_ne_zero, hold.l1,
      hold.l1_ne_indirect, hold.l1_ne_db, hold.unfilled⟩
  exact ⟨hci.nblks, hci.nblks_le, hci.blocks, hci.direct, hci.short, hci.indirect_ne_zero,
    hci.indirect, hci.l1, hci.single, hdouble⟩

/-- The number of links and the record of the entries do not matter for the blocks. -/
theorem Built.retouch (hs : Built s) (hfile : s.Listed file) (nlinks : BitVec 16)
    (names : List (BitVec 32 × Name)) :
    Built (s.setInode file { s.inode file with
      names := names
      inode := { (s.inode file).inode with nlinks := nlinks } }) := by
  have hsame : ∀ m, ((s.setInode file { s.inode file with
      names := names
      inode := { (s.inode file).inode with nlinks := nlinks } }).inode m).real = (s.inode m).real ∧
      ((s.setInode file { s.inode file with
        names := names
        inode := { (s.inode file).inode with nlinks := nlinks } }).inode m).appended =
          (s.inode m).appended := by
    intro m
    by_cases heq : m = file
    · subst heq
      rw [setInode_self]
      exact ⟨rfl, rfl⟩
    · have hother : (s.setInode file { s.inode file with
          names := names
          inode := { (s.inode file).inode with nlinks := nlinks } }).inode m = s.inode m :=
        Function.update_of_ne heq _ _
      rw [hother]
      exact ⟨rfl, rfl⟩
  refine ⟨hs.accounted.congr _ s.cache s.entry s.img (fun m => (hsame m).1) fun m => (hsame m).2,
    ?_⟩
  exact hs.filed.setFile hfile ((hs.filed.files file hfile).retouch nlinks names)
    (fun m hm => absurd rfl hm) fun m hm => .inl ⟨hm.ne_zero, hm.pointed⟩

theorem link_inode (s : Tool) (file d : BitVec 32) :
    (((s.setInode file (s.inode file).link).inode d).appended = (s.inode d).appended ∧
      ((s.setInode file (s.inode file).link).inode d).names = (s.inode d).names) ∧
      ((s.setInode file (s.inode file).link).inode d).inode.type = (s.inode d).inode.type := by
  by_cases heq : d = file
  · subst heq
    rw [setInode_self]
    exact ⟨⟨rfl, rfl⟩, rfl⟩
  · have hother : (s.setInode file (s.inode file).link).inode d = s.inode d :=
      Function.update_of_ne heq _ _
    rw [hother]
    exact ⟨⟨rfl, rfl⟩, rfl⟩

/-- The links of a file do not matter. -/
theorem Inv.link (hs : Inv s) (hfile : s.Listed file) :
    Inv (s.setInode file (s.inode file).link) ∧ Grows s (s.setInode file (s.inode file).link) := by
  refine ⟨⟨hs.built.retouch hfile _ _, fun d hd htype => ?_, fun d ino name hd hname => ?_⟩,
    rfl, fun _ hn => hn, fun d _ => (link_inode s file d).2⟩
  · obtain ⟨⟨happended, hnames⟩, hsame⟩ := link_inode s file d
    have hold := hs.entered.dirs d hd (hsame.symm.trans htype)
    refine ⟨by rw [happended, hnames]; exact hold.length, fun i ino name hname => ?_⟩
    rw [happended]
    exact hold.written i ino name (hnames ▸ hname)
  · exact hs.entered.names d ino name hd ((link_inode s file d).1.2 ▸ hname)

/-- The entry that was written and appended is recorded. -/
theorem Inv.record (hs : Inv s) (hcurrent : IsDir s current) (hfile : s.Listed file)
    (hname : name.bytes.length ≤ SFS_MAX_FNAME_LEN) (hst : Appended s t current n) {old : Bytes}
    (himg : s.img n.toNat = entryBlock old file name) :
    Inv (t.setInode current ((t.inode current).record file name)) ∧
      Grows s (t.setInode current ((t.inode current).record file name)) := by
  have hlisted : ∀ d, t.Listed d ↔ s.Listed d := by
    intro d
    unfold Tool.Listed
    rw [hst.inodes]
  have hother : ∀ d, d ≠ current →
      (t.setInode current ((t.inode current).record file name)).inode d = s.inode d :=
    fun d hne => (Function.update_of_ne hne _ _).trans (hst.other d hne)
  have himgs : (t.setInode current ((t.inode current).record file name)).img = s.img := hst.img
  have hnames : ((t.inode current).record file name).names =
      (s.inode current).names ++ [(file, name)] :=
    congrArg (· ++ [(file, name)]) hst.names
  have hentries := hs.entered.dirs current hcurrent.listed hcurrent.type
  refine ⟨⟨hst.built.retouch ((hlisted current).mpr hcurrent.listed) _ _, fun d hd hdir => ?_,
    fun d ino before hd hmem => ?_⟩, hst.ninos, fun d hd => (hlisted d).mpr hd, fun d hd => ?_⟩
  · by_cases heq : d = current
    · rw [himgs, heq, setInode_self]
      refine ⟨?_, fun i ino before hentry => ?_⟩
      · show _ = (t.inode current).appended.length
        rw [hnames, hst.appended, List.length_append, List.length_append, hentries.length]
        rfl
      · show ∃ _, s.img ((t.inode current).appended.getD i 0).toNat = _
        rw [hnames] at hentry
        rw [hst.appended, getD_concat]
        by_cases hlast : i = (s.inode current).appended.length
        · rw [if_pos hlast, himg]
          rw [hlast, ← hentries.length, List.getElem?_concat_length] at hentry
          obtain ⟨rfl, rfl⟩ := Prod.mk.inj (Option.some.inj hentry)
          exact ⟨old, rfl⟩
        · have hlt : i < (s.inode current).names.length := by
            have hbound := (List.getElem?_eq_some_iff.mp hentry).1
            rw [List.length_append, List.length_singleton] at hbound
            have := hentries.length
            omega
          rw [if_neg hlast]
          rw [List.getElem?_append_left hlt] at hentry
          exact hentries.written i ino before hentry
    · rw [himgs, hother d heq]
      rw [hother d heq] at hdir
      exact hs.entered.dirs d ((hlisted d).mp hd) hdir
  · have hcase : (ino, before) = (file, name) ∨ (ino, before) ∈ (s.inode d).names := by
      by_cases heq : d = current
      · rw [heq, setInode_self, hnames, List.mem_append, List.mem_singleton] at hmem
        rw [heq]
        exact hmem.symm
      · rw [hother d heq] at hmem
        exact .inr hmem
    rcases hcase with heq | hmem
    · obtain ⟨rfl, rfl⟩ := Prod.mk.inj heq
      exact ⟨(hlisted ino).mpr hfile, hname⟩
    · obtain ⟨hino, hlen⟩ := hs.entered.names d ino before ((hlisted d).mp hd) hmem
      exact ⟨(hlisted ino).mpr hino, hlen⟩
  · by_cases heq : d = current
    · rw [heq, setInode_self]
      exact hst.type
    · rw [hother d heq]

/-- An entry is written, appended and recorded. -/
theorem addEntry_spec (hs : Inv s) (hcurrent : IsDir s current) (hfile : s.Listed file)
    (hname : name.bytes.length ≤ SFS_MAX_FNAME_LEN) :
    Ends Excused (addEntry current file name) s fun _ t => Inv t ∧ Grows s t := by
  have hsize : sfsDentrySize ≤ SFS_BLKSIZE := by decide
  rw [addEntry, ends_bind, ends_get, ends_bind, ends_check ⟨hcurrent.type, hname⟩, ends_bind,
    ends_modify, ends_bind]
  apply sfsAllocIno_spec.mono
  · exact fun _ he => he ▸ excused_space
  · intro n u hu
    obtain ⟨hroom, hn, hu⟩ := hu
    have hroom : s.nextIno < s.ninos := hroom
    obtain ⟨-, hfresh, -⟩ := hs.built.accounted.hand hroom
    have hfresh : Fresh u n := by
      rw [hu, hn]
      exact hfresh.setImg _ s.img
    have hinv : Inv u := by
      rw [hu]
      exact ⟨(hs.hand hroom).built.setImg _ s.img, hs.entered.dirs, hs.entered.names⟩
    have hgrown : Grows s u := by
      rw [hu]
      exact ⟨rfl, fun _ hn => hn, fun _ _ => rfl⟩
    have hentry : u.entry = fillEntry s.entry file name := by
      rw [hu]
      rfl
    rw [ends_bind, ends_get, ends_bind]
    apply (writeBlock_spec (hinv.built.accounted.handed_lt hfresh.handed) hsize u.entry).lift
    intro _ v hv
    rw [if_pos (by decide)] at hv
    have hvinv : Inv v := hv ▸ hinv.write hfresh u.entry _
    have hvfresh : Fresh v n := hv ▸ hfresh.setImg u.entry _
    have hvgrown : Grows s v := by
      rw [hv]
      exact ⟨hgrown.ninos, hgrown.listed, hgrown.type⟩
    have himg : v.img n.toNat = entryBlock s.entry file name := by
      rw [hv, entryBlock, ← hentry]
      exact Function.update_self _ _ _
    have hvcurrent := hcurrent.grow hvgrown
    have hvfile := hvgrown.listed file hfile
    rw [ends_bind]
    apply (appendBlock_spec hvinv.built hvcurrent.listed hvfresh hsize).mono
    · exact fun _ he => excused_append he
    · intro _ w hw
      obtain ⟨hrecorded, hrgrown⟩ := hvinv.record hvcurrent hvfile hname hw himg
      rw [ends_bind, ends_modify, ends_modify]
      obtain ⟨hlinked, hlgrown⟩ := hrecorded.link (hrgrown.listed file hvfile)
      exact ⟨hlinked, hvgrown.trans (hrgrown.trans hlgrown)⟩

/-! ## Inodes -/

theorem Inv.newInode (hs : Inv s) (hn : Fresh s n) (real : BitVec 64) (type : BitVec 16) :
    Inv (s.newInode real type n) ∧ Grows s (s.newInode real type n) := by
  have hlisted : ∀ d, s.Listed d → (s.newInode real type n).Listed d := fun d hd =>
    (listed_newInode s real type n d).mpr (.inr hd)
  have hold : ∀ d, s.Listed d → (s.newInode real type n).inode d = s.inode d := by
    intro d hd
    rw [newInode_inode, if_neg fun heq : d = n => hn.not_listed (heq ▸ hd)]
  have hcase : ∀ d, (s.newInode real type n).Listed d →
      (s.newInode real type n).inode d = emptyInode real type ∨ s.Listed d := by
    intro d hd
    rcases (listed_newInode s real type n d).mp hd with rfl | hd
    · exact .inl (by rw [newInode_inode, if_pos rfl])
    · exact .inr hd
  refine ⟨⟨hs.built.newInode hn real type, fun d hd hdir => ?_, fun d ino name hd hname => ?_⟩, rfl,
    hlisted, fun d hd => by rw [hold d hd]⟩
  · rcases hcase d hd with hnew | hd
    · rw [hnew]
      exact ⟨rfl, fun i ino name hname => by cases hname⟩
    · rw [hold d hd] at hdir ⊢
      exact hs.entered.dirs d hd hdir
  · rcases hcase d hd with hnew | hd
    · rw [hnew] at hname
      cases hname
    · rw [hold d hd] at hname
      obtain ⟨hino, hlen⟩ := hs.entered.names d ino name hd hname
      exact ⟨hlisted ino hino, hlen⟩

/-- A new inode of a number that is handed out. -/
theorem allocCacheInode_spec (hs : Inv s) (real : BitVec 64) (type : BitVec 16) :
    Ends Excused (allocCacheInode real 0 type) s fun n t =>
      Inv t ∧ Grows s t ∧ t.Listed n ∧ (t.inode n).inode.type = type := by
  rw [allocCacheInode, if_neg (not_not_intro rfl), ends_bind]
  apply sfsAllocIno_spec.mono
  · exact fun _ he => he ▸ excused_space
  · intro n t ht
    obtain ⟨hroom, rfl, rfl⟩ := ht
    obtain ⟨-, hfresh, -⟩ := hs.built.accounted.hand hroom
    obtain ⟨hinv, hgrows⟩ := (hs.hand hroom).newInode hfresh real type
    have hself : (s.hand.newInode real type s.nextIno).inode s.nextIno = emptyInode real type := by
      rw [newInode_inode, if_pos rfl]
    refine ⟨hinv, ⟨hgrows.ninos, hgrows.listed, hgrows.type⟩,
      (listed_newInode _ real type _ _).mpr (.inl rfl), ?_⟩
    show ((s.hand.newInode real type s.nextIno).inode s.nextIno).inode.type = type
    rw [hself]
    rfl

theorem searchCacheInode_spec (real : BitVec 64) :
    Ends never (searchCacheInode real) s fun r t => t = s ∧ ∀ n, r = some n → s.Listed n := by
  rw [searchCacheInode, ends_bind, ends_get]
  exact ⟨rfl, fun n hn => ⟨_, List.mem_of_find?_eq_some hn⟩⟩

/-! ## Files, links and directories -/

/-- A number is handed out, and a block of a file is written there and appended. -/
theorem handData_spec (hs : Inv s) (hfile : s.Listed file)
    (htype : (s.inode file).inode.type ≠ SFS_TYPE_DIR) (hroom : s.nextIno < s.ninos)
    (chunk : Chunk) :
    Ends Excused
      (do
        writeBlock chunk.data chunk.len s.nextIno
        appendBlock file chunk.len s.nextIno) s.hand fun _ t => Inv t ∧ Grows s t := by
  obtain ⟨-, hfresh, -⟩ := hs.built.accounted.hand hroom
  apply (appendData_spec (hs.hand hroom) hfile htype hfresh chunk).imp
  exact fun _ t ht => ⟨ht.1, ht.2.ninos, ht.2.listed, ht.2.type⟩

/-- The blocks of a file, one read after the other. -/
theorem readFile_spec (reads : List (Option Chunk)) {last : Nat} (hs : Inv s)
    (hfile : s.Listed file) (htype : (s.inode file).inode.type ≠ SFS_TYPE_DIR) :
    Ends Excused (readFile file last reads) s fun _ t => Inv t ∧ Grows s t := by
  induction reads generalizing s last with
  | nil => exact ⟨hs, Grows.refl s⟩
  | cons read rest ih =>
      rw [readFile]
      split
      case isTrue => exact ⟨hs, Grows.refl s⟩
      case isFalse =>
        rw [ends_bind, ends_check_of ⟨nofun, nofun, nofun⟩]
        intro _
        rw [ends_bind]
        apply sfsAllocIno_spec.mono
        · exact fun _ he => he ▸ excused_space
        · intro n t ht
          obtain ⟨hroom, rfl, rfl⟩ := ht
          cases read with
          | none => exact ⟨nofun, nofun, nofun⟩
          | some chunk =>
              have hdata := handData_spec hs hfile htype hroom chunk
              rw [ends_bind] at hdata
              change Ends _ (writeBlock chunk.data chunk.len s.nextIno >>= _) _ _
              rw [ends_bind]
              apply hdata.imp
              intro _ u hu
              rw [ends_bind]
              apply hu.imp
              intro _ v hv
              have htype' : (v.inode file).inode.type ≠ SFS_TYPE_DIR := by
                rw [hv.2.type file hfile]
                exact htype
              apply (ih hv.1 (hv.2.listed file hfile) htype').imp
              exact fun _ w hw => ⟨hw.1, hv.2.trans hw.2⟩

theorem openLink_spec (hs : Inv s) (hfile : s.Listed file)
    (htype : (s.inode file).inode.type ≠ SFS_TYPE_DIR) (target : Option Chunk) :
    Ends Excused (openLink file target) s fun _ t => Inv t ∧ Grows s t := by
  rw [openLink, ends_bind]
  apply sfsAllocIno_spec.mono
  · exact fun _ he => he ▸ excused_space
  · intro n t ht
    obtain ⟨hroom, rfl, rfl⟩ := ht
    cases target with
    | none => exact ⟨nofun, nofun, nofun⟩
    | some chunk =>
        change Ends _ (if chunk.len = SFS_BLKSIZE then _ else _) _ _
        split
        case isTrue => exact ⟨nofun, nofun, nofun⟩
        case isFalse => exact handData_spec hs hfile htype hroom chunk

theorem addFile_spec (hs : Inv s) (hcurrent : IsDir s current)
    (hname : name.bytes.length ≤ SFS_MAX_FNAME_LEN) (real : BitVec 64)
    (reads : List (Option Chunk)) :
    Ends Excused (addFile current name real reads) s fun _ t => Inv t ∧ Grows s t := by
  rw [addFile, ends_bind]
  apply (searchCacheInode_spec real).lift
  intro found t ht
  obtain ⟨rfl, hfound⟩ := ht
  cases found with
  | some file => exact addEntry_spec hs hcurrent (hfound file rfl) hname
  | none =>
      change Ends _ (allocCacheInode real 0 SFS_TYPE_FILE >>= _) _ _
      rw [ends_bind]
      apply (allocCacheInode_spec hs real SFS_TYPE_FILE).imp
      intro file u hu
      obtain ⟨hinv, hgrows, hfile, htype⟩ := hu
      rw [ends_bind, openFile]
      apply (readFile_spec reads hinv hfile (by rw [htype]; decide)).imp
      intro _ v hv
      have hgrown := hgrows.trans hv.2
      apply (addEntry_spec hv.1 (hcurrent.grow hgrown) (hv.2.listed file hfile) hname).imp
      exact fun _ w hw => ⟨hw.1, hgrown.trans hw.2⟩

theorem addLink_spec (hs : Inv s) (hcurrent : IsDir s current)
    (hname : name.bytes.length ≤ SFS_MAX_FNAME_LEN) (real : BitVec 64) (target : Option Chunk) :
    Ends Excused (addLink current name real target) s fun _ t => Inv t ∧ Grows s t := by
  rw [addLink, ends_bind]
  apply (allocCacheInode_spec hs real SFS_TYPE_LINK).imp
  intro file u hu
  obtain ⟨hinv, hgrows, hfile, htype⟩ := hu
  rw [ends_bind]
  apply (openLink_spec hinv hfile (by rw [htype]; decide) target).imp
  intro _ v hv
  have hgrown := hgrows.trans hv.2
  apply (addEntry_spec hv.1 (hcurrent.grow hgrown) (hv.2.listed file hfile) hname).imp
  exact fun _ w hw => ⟨hw.1, hgrown.trans hw.2⟩

theorem openDirStart_spec {parent : BitVec 32} (hs : Inv s) (hcurrent : IsDir s current)
    (hparent : s.Listed parent) :
    Ends Excused (openDirStart current parent) s fun _ t => Inv t ∧ Grows s t := by
  rw [openDirStart, ends_bind]
  apply (addEntry_spec hs hcurrent hcurrent.listed (by decide)).imp
  intro _ t ht
  apply (addEntry_spec ht.1 (hcurrent.grow ht.2) (ht.2.listed parent hparent) (by decide)).imp
  exact fun _ u hu => ⟨hu.1, ht.2.trans hu.2⟩

end Steps

mutual

/-- The entries of a directory, one after the other. -/
theorem readDir_spec : ∀ (dir : HostDir) {s : Tool} {current : BitVec 32}, Inv s → IsDir s current →
    Ends Excused (readDir current dir) s fun _ t => Inv t ∧ Grows s t
  | .done, s, _, hs, _ => ⟨hs, Grows.refl s⟩
  | .entry name node rest, s, current, hs, hcurrent => by
      rw [readDir]
      split
      case isTrue => exact readDir_spec rest hs hcurrent
      case isFalse =>
        split
        case isTrue => exact ⟨nofun, nofun, nofun⟩
        case isFalse hlong =>
          rw [ends_bind]
          apply (addNode_spec node hs hcurrent (Nat.le_of_not_lt hlong)).imp
          intro _ t ht
          apply (readDir_spec rest ht.1 (hcurrent.grow ht.2)).imp
          exact fun _ u hu => ⟨hu.1, ht.2.trans hu.2⟩

/-- One entry, with what is below it. -/
theorem addNode_spec : ∀ (node : HostNode) {s : Tool} {current : BitVec 32} {name : Name},
    Inv s → IsDir s current → name.bytes.length ≤ SFS_MAX_FNAME_LEN →
      Ends Excused (addNode current name node) s fun _ t => Inv t ∧ Grows s t
  | .link real target, _, _, _, hs, hcurrent, hname => by
      rw [addNode]
      exact addLink_spec hs hcurrent hname real target
  | .file real reads, _, _, _, hs, hcurrent, hname => by
      rw [addNode]
      exact addFile_spec hs hcurrent hname real reads
  | .unsupported, s, _, _, hs, _, _ => ⟨hs, Grows.refl s⟩
  | .unreadable, _, _, _, _, _, _ => ⟨nofun, nofun, nofun⟩
  | .dir real entries, s, current, name, hs, hcurrent, hname => by
      rw [addNode, ends_bind]
      apply (searchCacheInode_spec real).lift
      intro found t ht
      obtain ⟨rfl, -⟩ := ht
      rw [ends_bind, ends_check_of ⟨nofun, nofun, nofun⟩]
      intro _
      rw [ends_bind]
      apply (allocCacheInode_spec hs real SFS_TYPE_DIR).imp
      intro dir u hu
      obtain ⟨hinv, hgrows, hdir, htype⟩ := hu
      rw [ends_bind]
      apply (openDirStart_spec hinv ⟨hdir, htype⟩ (hgrows.listed current hcurrent.listed)).imp
      intro _ v hv
      have hisDir : IsDir v dir := IsDir.grow ⟨hdir, htype⟩ hv.2
      rw [ends_bind]
      apply (readDir_spec entries hv.1 hisDir).imp
      intro _ w hw
      have hgrown := hgrows.trans (hv.2.trans hw.2)
      apply (addEntry_spec hw.1 (hcurrent.grow hgrown) (hw.2.listed dir hisDir.listed) hname).imp
      exact fun _ x hx => ⟨hx.1, hgrown.trans hx.2⟩

end

end Ucore.Sfs.Mksfs
