import Mathlib.Algebra.GroupWithZero.Nat
import Ucore.Sfs.Image

/-!
# What is in an image

Every file, link and directory of the host is on the image as it was found: the blocks of
a file have what was read of it, and a directory has the entries of the host directory in
their order. What is inserted later leaves what is there alone.
-/

namespace Ucore.Sfs.Mksfs

open Machine

/-! ## What stays -/

/-- The inode is as it was, but for its links. -/
structure SameFile (ci ci' : CacheInode) : Prop where
  type : ci'.inode.type = ci.inode.type
  size : ci'.inode.size = ci.inode.size
  appended : ci'.appended = ci.appended
  names : ci'.names = ci.names

/-- Inodes with `P` may have grown; the others, and all blocks, are as they were. -/
structure Frames (P : BitVec 32 → Prop) (s t : Tool) : Prop where
  listed : ∀ n, s.Listed n → t.Listed n
  real : ∀ n, s.Listed n → (t.inode n).real = (s.inode n).real
  same : ∀ n, s.Listed n → ¬P n → SameFile (s.inode n) (t.inode n)
  grown : ∀ n, s.Listed n → (s.inode n).appended <+: (t.inode n).appended
  img : ∀ n, s.Listed n → ∀ b ∈ (s.inode n).appended, t.img b.toNat = s.img b.toNat

/-- What is written of a chunk. -/
def Chunk.padded (chunk : Chunk) : Bytes :=
  if chunk.len ≠ SFS_BLKSIZE then splice 0 chunk.len chunk.data fun _ => 0 else chunk.data

/-- The blocks of the inode have the chunks. -/
structure HasBlocks (s : Tool) (n : BitVec 32) (chunks : List Chunk) : Prop where
  blocks : List.Forall₂ (fun b chunk => s.img b.toNat = chunk.padded) (s.inode n).appended chunks
  size : (s.inode n).inode.size = BitVec.ofNat 32 (chunks.map Chunk.len).sum

variable {s t u : Tool} {n m file current : BitVec 32} {name : Name} {P Q : BitVec 32 → Prop}
  {E : Stop → Prop}
  {chunks : List Chunk}

theorem SameFile.refl (ci : CacheInode) : SameFile ci ci := ⟨rfl, rfl, rfl, rfl⟩

theorem SameFile.trans {ci ci' ci'' : CacheInode} (h : SameFile ci ci') (h' : SameFile ci' ci'') :
    SameFile ci ci'' :=
  ⟨h'.type.trans h.type, h'.size.trans h.size, h'.appended.trans h.appended, h'.names.trans h.names⟩

namespace Frames

theorem refl (P : BitVec 32 → Prop) (s : Tool) : Frames P s s :=
  ⟨fun _ hn => hn, fun _ _ => rfl, fun _ _ _ => SameFile.refl _, fun _ _ => List.prefix_refl _,
    fun _ _ _ _ => rfl⟩

theorem trans (h : Frames P s t) (h' : Frames P t u) : Frames P s u where
  listed n hn := h'.listed n (h.listed n hn)
  real n hn := (h'.real n (h.listed n hn)).trans (h.real n hn)
  same n hn hP := (h.same n hn hP).trans (h'.same n (h.listed n hn) hP)
  grown n hn := (h.grown n hn).trans (h'.grown n (h.listed n hn))
  img n hn b hb := (h'.img n (h.listed n hn) b ((h.grown n hn).subset hb)).trans (h.img n hn b hb)

/-- Only the inodes that there were count. -/
theorem weaken (h : Frames P s t) (hPQ : ∀ n, s.Listed n → P n → Q n) : Frames Q s t where
  listed := h.listed
  real := h.real
  same n hn hQ := h.same n hn fun hP => hQ (hPQ n hn hP)
  grown := h.grown
  img := h.img

end Frames

theorem HasBlocks.frame (h : HasBlocks s n chunks) (hframes : Frames P s t)
    (hn : s.Listed n) (hP : ¬P n) :
    HasBlocks t n chunks := by
  have hsame := hframes.same n hn hP
  constructor
  · rw [hsame.appended]
    have hkept := (List.forall₂_and_left _ _).mpr ⟨hframes.img n hn, h.blocks⟩
    exact hkept.imp fun b chunk hblock => hblock.1.trans hblock.2
  · rw [hsame.size]
    exact h.size

/-! ## Appending -/

theorem sfsAllocIno_inode : Keeps Tool.inode sfsAllocIno := by
  intro s
  rw [sfsAllocIno, ends_bind, ends_get]
  split
  case isTrue => exact rfl
  case isFalse => trivial

theorem updateCache_inode (cb : Option (BitVec 32)) (ino : BitVec 32) :
    Keeps Tool.inode (updateCache cb ino) := by
  rw [updateCache]
  split
  case isTrue =>
    rw [allocCacheBlock, if_neg (not_not_intro rfl)]
    refine sfsAllocIno_inode.bind fun number => Keeps.bind (keeps_modify ?_) fun _ =>
      keeps_pure number
    exact fun _ => rfl
  case isFalse =>
    split
    case isTrue =>
      refine Keeps.bind (keeps_get.bind fun _ => keeps_pure _) fun found => ?_
      cases found with
      | none => exact keeps_throw _
      | some number => exact (keeps_check _ _).bind fun _ => keeps_pure _
    case isFalse => exact keeps_pure _

/-- The fields of an inode that `append_block` does not touch before its end. -/
def Header (s : Tool) (file : BitVec 32) (ci : CacheInode) : Prop :=
  (s.inode file).real = ci.real ∧ (s.inode file).inode.size = ci.inode.size

theorem storeNumber_header (file : BitVec 32) (nblks : Nat) (ino : BitVec 32) :
    Ends (fun _ => True) (storeNumber file nblks ino) s fun _ t =>
      Header t file (s.inode file) := by
  have hset : ∀ (t : Tool) (ci : CacheInode), ci.real = (s.inode file).real →
      ci.inode.size = (s.inode file).inode.size →
      Header (t.setInode file ci) file (s.inode file) := by
    intro t ci hreal hsize
    rw [Header, setInode_self]
    exact ⟨hreal, hsize⟩
  rw [storeNumber, ends_bind, ends_get]
  split
  case isTrue => exact hset s _ rfl rfl
  case isFalse =>
    split
    case isTrue =>
      rw [ends_bind]
      apply (updateCache_inode _ _ s).imp
      intro l1 t _
      exact hset t _ rfl rfl
    case isFalse =>
      split
      case isTrue =>
        rw [ends_bind]
        apply (updateCache_inode _ _ s).imp
        intro l2 t _
        rw [ends_bind, ends_get, ends_bind]
        apply (updateCache_inode _ _ t).imp
        intro l1 u _
        exact hset u _ rfl rfl
      case isFalse => exact ⟨rfl, rfl⟩

/-- The size of the file grows by that of the block. -/
theorem appendBlock_header (file : BitVec 32) (size : Nat) (ino : BitVec 32) :
    Ends (fun _ => True) (appendBlock file size ino) s fun _ t =>
      (t.inode file).real = (s.inode file).real ∧
      (t.inode file).inode.size = (s.inode file).inode.size + BitVec.ofNat 32 size := by
  rw [appendBlock, ends_bind, ends_check_of trivial]
  intro _
  rw [ends_bind, ends_get]
  change Ends _ (if (s.inode file).nblks ≥ SFS_LN_NBLKS then _ else _) s _
  split
  case isTrue => trivial
  case isFalse =>
    rw [ends_bind]
    apply (storeNumber_header file _ ino).imp
    intro _ t ht
    rw [ends_modify, setInode_self]
    exact ⟨ht.1, congrArg (· + _) ht.2⟩

/-! ## One insertion -/

/-- A number that is not used is none of a block. -/
theorem Fresh.not_mem (hn : Fresh s n) (hm : s.Listed m) : n ∉ (s.inode m).appended := by
  intro hmem
  obtain ⟨i, hi, hget⟩ := List.getElem_of_mem hmem
  refine hn.unused (.data m i) ⟨hm, hi⟩ ?_
  change (s.inode m).appended.getD i 0 = n
  rw [List.getD_eq_getElem _ _ hi, hget]

/-- A block is written where none is used, and appended. -/
theorem Appended.frames {v : Tool} (h : Appended v t file n)
    (hreal : (t.inode file).real = (v.inode file).real)
    (hinode : v.inode = s.inode) (hinodes : v.inodes = s.inodes)
    (himg : ∀ k, k ≠ n.toNat → v.img k = s.img k)
    (hn : ∀ m, s.Listed m → n ∉ (s.inode m).appended) : Frames (· = file) s t := by
  have hother : ∀ m, m ≠ file → t.inode m = s.inode m :=
    fun m hne => (h.other m hne).trans (congrFun hinode m)
  constructor
  · intro m hm
    unfold Tool.Listed
    rw [h.inodes, hinodes]
    exact hm
  · intro m _
    by_cases heq : m = file
    · rw [heq, hreal, hinode]
    · rw [hother m heq]
  · intro m _ hne
    rw [hother m hne]
    exact SameFile.refl _
  · intro m _
    by_cases heq : m = file
    · rw [heq, h.appended, hinode]
      exact List.prefix_append _ _
    · rw [hother m heq]
  · intro m hm b hb
    rw [h.img]
    refine himg _ fun heq => hn m hm ?_
    rwa [← BitVec.eq_of_toNat_eq heq]

theorem handData_stored (hs : Inv s) (hfile : s.Listed file)
    (htype : (s.inode file).inode.type ≠ SFS_TYPE_DIR)
    (hroom : s.nextIno < s.ninos) (chunk : Chunk) (hblocks : HasBlocks s file chunks) :
    Ends Excused
      (do
        writeBlock chunk.data chunk.len s.nextIno
        appendBlock file chunk.len s.nextIno) s.hand fun _ t =>
      (Inv t ∧ Grows s t) ∧ Frames (· = file) s t ∧ HasBlocks t file (chunks ++ [chunk]) ∧
        t.inodes = s.inodes := by
  apply (handData_spec hs hfile htype hroom chunk).and
  obtain ⟨-, hfresh, -⟩ := hs.built.accounted.hand hroom
  have hinv := hs.hand hroom
  rw [ends_bind]
  apply (writeBlock_spec (hinv.built.accounted.handed_lt hfresh.handed)
    chunk.len_le chunk.data).lift
  intro _ v hv
  have hvinv : Inv v := hv ▸ hinv.write hfresh s.hand.entry _
  have hvfresh : Fresh v s.nextIno := hv ▸ hfresh.setImg s.hand.entry _
  have hinode : v.inode = s.inode := by
    rw [hv]
    rfl
  have hinodes : v.inodes = s.inodes := by
    rw [hv]
    rfl
  have hlisted : v.Listed file := by
    unfold Tool.Listed
    rw [hinodes]
    exact hfile
  have hwritten : v.img s.nextIno.toNat = chunk.padded := by
    rw [hv]
    exact Function.update_self _ _ _
  have himg : ∀ k, k ≠ s.nextIno.toNat → v.img k = s.img k := by
    intro k hk
    rw [hv]
    exact Function.update_of_ne hk _ _
  apply ((appendBlock_spec hvinv.built hlisted hvfresh chunk.len_le).and
    (appendBlock_header file chunk.len s.nextIno)).mono
  · exact fun _ he => excused_append he
  · rintro _ t ⟨happended, hreal, hsize⟩
    have hframes :=
      happended.frames hreal hinode hinodes himg fun m hm => hfresh.not_mem (s := s.hand) hm
    refine ⟨hframes, ⟨?_, ?_⟩, happended.inodes.trans hinodes⟩
    · rw [happended.appended, hinode]
      refine List.rel_append ?_ ?_
      · have hkept := (List.forall₂_and_left _ _).mpr ⟨hframes.img file hfile, hblocks.blocks⟩
        exact hkept.imp fun b chunk hblock => hblock.1.trans hblock.2
      · refine List.Forall₂.cons ?_ List.Forall₂.nil
        rw [happended.img]
        exact hwritten
    · rw [hsize, hinode, hblocks.size, List.map_append, List.sum_append, BitVec.ofNat_add]
      rfl

/-- One link more leaves the rest of the inode alone. -/
theorem link_sameFile (s : Tool) (file m : BitVec 32) :
    ((s.setInode file (s.inode file).link).inode m).real = (s.inode m).real ∧
      SameFile (s.inode m) ((s.setInode file (s.inode file).link).inode m) := by
  by_cases heq : m = file
  · subst heq
    rw [setInode_self]
    exact ⟨rfl, rfl, rfl, rfl, rfl⟩
  · have hother : (s.setInode file (s.inode file).link).inode m = s.inode m :=
      Function.update_of_ne heq _ _
    rw [hother]
    exact ⟨rfl, SameFile.refl _⟩

theorem Frames.link (s : Tool) (file : BitVec 32) :
    Frames P s (s.setInode file (s.inode file).link) := by
  have hsame := link_sameFile s file
  refine ⟨fun _ hn => hn, fun m _ => (hsame m).1, fun m _ _ => (hsame m).2, fun m _ => ?_,
    fun _ _ _ _ => rfl⟩
  rw [(hsame m).2.appended]

theorem Frames.record (s : Tool) (current ino : BitVec 32) (name : Name) :
    Frames (· = current) s (s.setInode current ((s.inode current).record ino name)) := by
  have hother : ∀ m, m ≠ current →
      (s.setInode current ((s.inode current).record ino name)).inode m = s.inode m :=
    fun m hne => Function.update_of_ne hne _ _
  refine ⟨fun _ hn => hn, fun m _ => ?_, fun m _ hne => ?_, fun m _ => ?_, fun _ _ _ _ => rfl⟩
  · by_cases heq : m = current
    · rw [heq, setInode_self]
      rfl
    · rw [hother m heq]
  · rw [hother m hne]
    exact SameFile.refl _
  · by_cases heq : m = current
    · rw [heq, setInode_self]
      exact List.prefix_refl _
    · rw [hother m heq]

/-- The size of a directory is that of its entries. -/
def CacheInode.Sized (ci : CacheInode) : Prop :=
  ci.inode.size = BitVec.ofNat 32 (sfsDentrySize * ci.names.length)

theorem addEntry_stored (hs : Inv s) (hcurrent : IsDir s current) (hfile : s.Listed file)
    (hname : name.bytes.length ≤ SFS_MAX_FNAME_LEN) :
    Ends Excused (addEntry current file name) s fun _ t => (Inv t ∧ Grows s t) ∧
      Frames (· = current) s t ∧
      (t.inode current).names = (s.inode current).names ++ [(file, name)] ∧ t.inodes = s.inodes ∧
      ((s.inode current).Sized → (t.inode current).Sized) := by
  apply (addEntry_spec hs hcurrent hfile hname).and
  have hsize : sfsDentrySize ≤ SFS_BLKSIZE := by decide
  rw [addEntry, ends_bind, ends_get, ends_bind, ends_check ⟨hcurrent.type, hname⟩, ends_bind,
    ends_modify, ends_bind]
  apply sfsAllocIno_spec.mono
  · exact fun _ he => he ▸ excused_space
  · rintro n u ⟨hroom, hn, hu⟩
    have hroom : s.nextIno < s.ninos := hroom
    have hn : n = s.nextIno := hn
    obtain ⟨-, hfresh, -⟩ := hs.built.accounted.hand hroom
    have hfresh : Fresh s.hand n := hn ▸ hfresh
    have hinv : Inv u := by
      rw [hu]
      exact ⟨(hs.hand hroom).built.setImg _ s.img, hs.entered.dirs, hs.entered.names⟩
    have hufresh : Fresh u n := by
      rw [hu]
      exact hfresh.setImg _ s.img
    rw [ends_bind, ends_get, ends_bind]
    apply (writeBlock_spec (hinv.built.accounted.handed_lt hufresh.handed) hsize u.entry).lift
    intro _ v hv
    have hvinv : Inv v := hv ▸ hinv.write hufresh u.entry _
    have hvfresh : Fresh v n := hv ▸ hufresh.setImg u.entry _
    have hinode : v.inode = s.inode := by
      rw [hv, hu]
      rfl
    have hinodes : v.inodes = s.inodes := by
      rw [hv, hu]
      rfl
    have hlisted : ∀ m, s.Listed m → v.Listed m := by
      intro m hm
      unfold Tool.Listed
      rw [hinodes]
      exact hm
    have himg : ∀ k, k ≠ n.toNat → v.img k = s.img k := by
      intro k hk
      rw [hv, hu]
      exact Function.update_of_ne hk _ _
    rw [ends_bind]
    apply ((appendBlock_spec hvinv.built (hlisted _ hcurrent.listed) hvfresh hsize).and
      (appendBlock_header current sfsDentrySize n)).mono
    · exact fun _ he => excused_append he
    · rintro _ w ⟨happended, hreal, hgrown⟩
      have hframes := happended.frames hreal hinode hinodes himg fun m hm =>
        hfresh.not_mem (s := s.hand) hm
      rw [ends_bind, ends_modify, ends_modify]
      obtain ⟨-, hlinked⟩ := link_sameFile
        (w.setInode current ((w.inode current).record file name)) file current
      rw [setInode_self] at hlinked
      have hnames := hlinked.names
      change _ = (w.inode current).names ++ [(file, name)] at hnames
      rw [happended.names, hinode] at hnames
      refine ⟨hframes.trans ((Frames.record w current file name).trans (Frames.link _ file)),
        hnames, happended.inodes.trans hinodes, fun hsized => ?_⟩
      have hsize := hlinked.size
      change _ = (w.inode current).inode.size at hsize
      unfold CacheInode.Sized at hsized ⊢
      rw [hsize, hgrown, hinode, hsized, hnames, List.length_append, List.length_singleton,
        Nat.mul_add_one, BitVec.ofNat_add]

/-- A new inode. -/
structure Made (s t : Tool) (n : BitVec 32) (real : BitVec 64) (type : BitVec 16) : Prop where
  inv : Inv t
  frames : Frames (fun _ => False) s t
  fresh : ¬s.Listed n
  listed : ∀ m, t.Listed m ↔ m = n ∨ s.Listed m
  inode : t.inode n = emptyInode real type
  grows : Grows s t

theorem allocCacheInode_stored (hs : Inv s) (real : BitVec 64) (type : BitVec 16) :
    Ends Excused (allocCacheInode real 0 type) s fun n t => Made s t n real type := by
  rw [allocCacheInode, if_neg (not_not_intro rfl), ends_bind]
  apply sfsAllocIno_spec.mono
  · exact fun _ he => he ▸ excused_space
  · rintro n t ⟨hroom, rfl, rfl⟩
    obtain ⟨-, hfresh, -⟩ := hs.built.accounted.hand hroom
    obtain ⟨hinv, hgrows⟩ := (hs.hand hroom).newInode hfresh real type
    have hnew : ¬s.Listed s.nextIno := hfresh.not_listed
    have hold : ∀ m, s.Listed m → (s.hand.newInode real type s.nextIno).inode m = s.inode m := by
      intro m hm
      have hne : m ≠ s.nextIno := fun heq => hnew (heq ▸ hm)
      rw [newInode_inode, if_neg hne]
      rfl
    exact {
      inv := hinv
      frames :=
        ⟨hgrows.listed, fun m hm => by rw [hold m hm], fun m hm _ => hold m hm ▸ SameFile.refl _,
          fun m hm => by rw [hold m hm], fun _ _ _ _ => rfl⟩
      fresh := hnew
      listed := listed_newInode _ real type _
      inode := by rw [newInode_inode, if_pos rfl]
      grows := ⟨hgrows.ninos, hgrows.listed, hgrows.type⟩ }

/-- An inode of the host is on the image. -/
def Tool.Met (s : Tool) (real : BitVec 64) : Prop := ∃ n, s.Listed n ∧ (s.inode n).real = real

/-- The lookup by the number on the host finds what has been met. -/
theorem searchCacheInode_met (hs : Inv s) (real : BitVec 64) :
    Ends never (searchCacheInode real) s fun r t => t = s ∧ (r = none ↔ ¬s.Met real) ∧
      ∀ n, r = some n → s.Listed n ∧ (s.inode n).real = real := by
  rw [searchCacheInode, ends_bind, ends_get]
  refine ⟨rfl, ?_, fun n hn =>
    ⟨⟨_, List.mem_of_find?_eq_some hn⟩, by simpa using List.find?_some hn⟩⟩
  rw [List.find?_eq_none]
  constructor
  · rintro hnone ⟨n, ⟨b, hb⟩, hreal⟩
    rw [hs.built.accounted.inodes_bucket b n hb, hreal] at hb
    exact hnone n hb (decide_eq_true hreal)
  · intro hnot n hn hreal
    exact hnot ⟨n, ⟨_, hn⟩, of_decide_eq_true hreal⟩

/-! ## The host -/

/-- The inode number on the host. -/
def HostNode.real : HostNode → Option (BitVec 64)
  | .link real _ => some real
  | .file real _ => some real
  | .dir real _ => some real
  | .unsupported => none
  | .unreadable => none

mutual

/-- The node with what is under it. -/
def HostNode.nodes : HostNode → List HostNode
  | .dir real entries => .dir real entries :: entries.nodes
  | .link real target => [.link real target]
  | .file real reads => [.file real reads]
  | .unsupported => [.unsupported]
  | .unreadable => [.unreadable]

/-- The nodes that `open_dir` comes to. -/
def HostDir.nodes : HostDir → List HostNode
  | .done => []
  | .entry name node rest => if hidden name then rest.nodes else node.nodes ++ rest.nodes

end

/-- What is read of a file, up to the read that gives nothing. -/
def fileChunks : List (Option Chunk) → List Chunk
  | some chunk :: rest => if chunk.len = 0 then [] else chunk :: fileChunks rest
  | none :: _ => []
  | [] => []

/-! ## The tree on the image -/

mutual

/-- The inode `n` has what the host has, in a directory `parent`; directories that are
still being filled are `Open`. -/
def StoredNode (s : Tool) (Open : BitVec 32 → Prop) (parent n : BitVec 32) : HostNode → Prop
  | .link _ target =>
      ∃ chunk, target = some chunk ∧ (s.inode n).inode.type = SFS_TYPE_LINK ∧ HasBlocks s n [chunk]
  | .file real reads => (s.inode n).real = real ∧ (s.inode n).inode.type = SFS_TYPE_FILE ∧
      HasBlocks s n (fileChunks reads)
  | .dir real entries => (s.inode n).real = real ∧ (s.inode n).inode.type = SFS_TYPE_DIR ∧ ∃ names,
      (s.inode n).names = (n, dot) :: (parent, dotDot) :: names ∧ StoredDir s Open n names entries
  | .unsupported => False
  | .unreadable => False

/-- The names are those of the host directory that are neither hidden nor of a kind that is
left out, and each has what the host has. -/
def StoredDir (s : Tool) (Open : BitVec 32 → Prop) (current : BitVec 32) :
    List (BitVec 32 × Name) → HostDir → Prop
  | names, .done => names = []
  | names, .entry name node rest =>
      if hidden name ∨ node.real = none then StoredDir s Open current names rest
      else ∃ n tail, names = (n, name) :: tail ∧ s.Listed n ∧ ¬Open n ∧
        StoredNode s Open current n node ∧ StoredDir s Open current tail rest

end

mutual

/-- What is stored stays so while open directories grow. -/
theorem StoredNode.frame {Open : BitVec 32 → Prop} (hframes : Frames P s t)
    (hopen : ∀ m, P m → Open m) {parent n : BitVec 32} (hn : s.Listed n) (hclosed : ¬Open n) :
    ∀ node, StoredNode s Open parent n node → StoredNode t Open parent n node
  | .link _ _, h => by
      have hsame := hframes.same n hn fun hP => hclosed (hopen n hP)
      obtain ⟨chunk, htarget, htype, hblocks⟩ := h
      exact ⟨chunk, htarget, hsame.type.trans htype, hblocks.frame hframes hn fun hP =>
        hclosed (hopen n hP)⟩
  | .file _ _, h => by
      have hsame := hframes.same n hn fun hP => hclosed (hopen n hP)
      exact ⟨(hframes.real n hn).trans h.1, hsame.type.trans h.2.1,
        h.2.2.frame hframes hn fun hP => hclosed (hopen n hP)⟩
  | .dir _ entries, h => by
      have hsame := hframes.same n hn fun hP => hclosed (hopen n hP)
      obtain ⟨hreal, htype, names, hnames, hstored⟩ := h
      exact ⟨(hframes.real n hn).trans hreal, hsame.type.trans htype, names,
        hsame.names.trans hnames, StoredDir.frame hframes hopen entries hstored⟩
  | .unsupported, h => h.elim
  | .unreadable, h => h.elim

theorem StoredDir.frame {Open : BitVec 32 → Prop} (hframes : Frames P s t)
    (hopen : ∀ m, P m → Open m)
    {current : BitVec 32} : ∀ (dir : HostDir) {names : List (BitVec 32 × Name)},
      StoredDir s Open current names dir → StoredDir t Open current names dir
  | .done, _, h => h
  | .entry name node rest, names, h => by
      rw [StoredDir] at h ⊢
      split at h
      case isTrue hskip =>
        rw [if_pos hskip]
        exact StoredDir.frame hframes hopen rest h
      case isFalse hkept =>
        rw [if_neg hkept]
        obtain ⟨n, tail, hnames, hn, hclosed, hnode, hrest⟩ := h
        exact ⟨n, tail, hnames, hframes.listed n hn, hclosed,
          StoredNode.frame hframes hopen hn hclosed node hnode,
          StoredDir.frame hframes hopen rest hrest⟩

end

mutual

/-- A directory is closed when it has been filled. -/
theorem StoredNode.close {Open Open' : BitVec 32 → Prop} (hopen : ∀ m, Open' m → Open m)
    {parent n : BitVec 32} :
    ∀ node, StoredNode s Open parent n node → StoredNode s Open' parent n node
  | .link _ _, h => h
  | .file _ _, h => h
  | .dir _ entries, ⟨hreal, htype, names, hnames, hstored⟩ =>
      ⟨hreal, htype, names, hnames, StoredDir.close hopen entries hstored⟩
  | .unsupported, h => h.elim
  | .unreadable, h => h.elim

theorem StoredDir.close {Open Open' : BitVec 32 → Prop} (hopen : ∀ m, Open' m → Open m)
    {current : BitVec 32} :
    ∀ (dir : HostDir) {names : List (BitVec 32 × Name)}, StoredDir s Open current names dir →
      StoredDir s Open' current names dir
  | .done, _, h => h
  | .entry name node rest, names, h => by
      rw [StoredDir] at h ⊢
      split at h
      case isTrue hskip =>
        rw [if_pos hskip]
        exact StoredDir.close hopen rest h
      case isFalse hkept =>
        rw [if_neg hkept]
        obtain ⟨n, tail, hnames, hn, hclosed, hnode, hrest⟩ := h
        exact ⟨n, tail, hnames, hn, fun hn => hclosed (hopen n hn),
          StoredNode.close hopen node hnode, StoredDir.close hopen rest hrest⟩

end

/-! ## The walk -/

/-- An inode that is found by the number of a file has what the file has. Files and
directories are found by one number each, and a directory has the size of its entries. -/
structure Known (all : List HostNode) (s : Tool) : Prop where
  file : ∀ n, s.Listed n → ∀ real reads, HostNode.file real reads ∈ all → (s.inode n).real = real →
    (s.inode n).inode.type = SFS_TYPE_FILE ∧ HasBlocks s n (fileChunks reads)
  unique : ∀ n m, s.Listed n → s.Listed m → (s.inode n).inode.type ≠ SFS_TYPE_LINK →
    (s.inode m).inode.type ≠ SFS_TYPE_LINK → (s.inode n).real = (s.inode m).real → n = m
  sized : ∀ d, IsDir s d → (s.inode d).Sized

/-- The number of an inode on the host says which it is, and none has the number that the
tool gives the root. -/
def Numbers (all : List HostNode) : Prop :=
  ∀ node ∈ all, ∀ real, node.real = some real → real ≠ 0 ∧ ∀ other ∈ all, other.real = some real →
    other = node

/-- A directory is being filled, in others that are. -/
structure Walking (all : List HostNode) (Open : BitVec 32 → Prop) (s : Tool) (current : BitVec 32) :
    Prop where
  inv : Inv s
  isDir : IsDir s current
  here : Open current
  dirs : ∀ n, Open n → IsDir s n
  known : Known all s

/-- What the entries of the host directory leave. -/
structure Filled (all : List HostNode) (Open : BitVec 32 → Prop) (current : BitVec 32)
    (dir : HostDir) (s t : Tool) :
    Prop where
  inv : Inv t
  grows : Grows s t
  frames : Frames (· = current) s t
  known : Known all t
  stored : ∃ names, (t.inode current).names = (s.inode current).names ++ names ∧
    StoredDir t Open current names dir

section Walk

variable {all : List HostNode} {Open : BitVec 32 → Prop} {node : HostNode} {dir : HostDir}
  {real : BitVec 64}

/-- An inode that has been filled or is new has its own number and its size. -/
theorem Known.step (h : Known all s) (hframes : Frames P s t) (hgrows : Grows s t)
    (hP : ∀ n, P n → s.Listed n → IsDir s n)
    (hfile : ∀ n, t.Listed n → s.Listed n ∨ ∀ reads, HostNode.file (t.inode n).real reads ∈ all →
      (t.inode n).inode.type = SFS_TYPE_FILE ∧ HasBlocks t n (fileChunks reads))
    (hunique : ∀ n m, t.Listed n → t.Listed m → (t.inode n).inode.type ≠ SFS_TYPE_LINK →
      (t.inode m).inode.type ≠ SFS_TYPE_LINK → (t.inode n).real = (t.inode m).real →
      n = m ∨ s.Listed n ∧ s.Listed m)
    (hsized : ∀ d, IsDir t d → (t.inode d).Sized ∨ s.Listed d ∧ ¬P d) : Known all t := by
  refine ⟨fun n hn real reads hmem hreal => ?_, fun n m hn hm hntype hmtype hreal => ?_,
    fun d hd => ?_⟩
  · rcases hfile n hn with hold | hnew
    · rw [hframes.real n hold] at hreal
      obtain ⟨htype, hblocks⟩ := h.file n hold real reads hmem hreal
      have hnot : ¬P n := by
        intro hdir
        rw [(hP n hdir hold).type] at htype
        exact absurd htype (by decide)
      exact ⟨(hframes.same n hold hnot).type.trans htype, hblocks.frame hframes hold hnot⟩
    · subst hreal
      exact hnew reads hmem
  · rcases hunique n m hn hm hntype hmtype hreal with heq | ⟨hn, hm⟩
    · exact heq
    · rw [hgrows.type n hn] at hntype
      rw [hgrows.type m hm] at hmtype
      rw [hframes.real n hn, hframes.real m hm] at hreal
      exact h.unique n m hn hm hntype hmtype hreal
  · rcases hsized d hd with hsized | ⟨hold, hnot⟩
    · exact hsized
    · have hsame := hframes.same d hold hnot
      have hsized := h.sized d ⟨hold, hsame.type.symm.trans hd.type⟩
      unfold CacheInode.Sized at hsized ⊢
      rw [hsame.size, hsame.names, hsized]

theorem Known.addEntry (h : Known all s) (hcurrent : IsDir s current) (hgrows : Grows s t)
    (hframes : Frames (· = current) s t) (hinodes : t.inodes = s.inodes)
    (hsized : (s.inode current).Sized → (t.inode current).Sized) : Known all t := by
  have hlisted : ∀ n, t.Listed n → s.Listed n := by
    intro n hn
    unfold Tool.Listed at hn
    rwa [hinodes] at hn
  refine h.step hframes hgrows (fun n heq _ => heq ▸ hcurrent) (fun n hn => .inl (hlisted n hn))
    (fun n m hn hm _ _ _ => .inr ⟨hlisted n hn, hlisted m hm⟩) fun d hd => ?_
  by_cases heq : d = current
  · exact .inl (heq ▸ hsized (h.sized current hcurrent))
  · exact .inr ⟨hlisted d hd.listed, heq⟩

theorem Filled.done (h : Walking all Open s current) : Filled all Open current .done s s :=
  ⟨h.inv, Grows.refl s, Frames.refl _ s, h.known, [], (List.append_nil _).symm, by rw [StoredDir]⟩

/-- An entry that is left out. -/
theorem Filled.skip (hskip : hidden name ∨ node.real = none) (h : Filled all Open current dir s t) :
    Filled all Open current (.entry name node dir) s t := by
  obtain ⟨names, hnames, hstored⟩ := h.stored
  refine { h with stored := ⟨names, hnames, ?_⟩ }
  rw [StoredDir, if_pos hskip]
  exact hstored

/-- One entry, and then the others. -/
theorem Filled.cons (hkept : ¬(hidden name ∨ node.real = none))
    (h : Filled all Open current (.entry name node .done) s t)
    (h' : Filled all Open current dir t u) (hopen : Open current) :
    Filled all Open current (.entry name node dir) s u := by
  obtain ⟨names, hnames, hstored⟩ := h.stored
  obtain ⟨names', hnames', hstored'⟩ := h'.stored
  rw [StoredDir, if_neg hkept] at hstored
  obtain ⟨n, tail, rfl, hn, hclosed, hnode, htail⟩ := hstored
  rw [StoredDir] at htail
  subst htail
  refine ⟨h'.inv, h.grows.trans h'.grows, h.frames.trans h'.frames, h'.known,
    (n, name) :: names', ?_, ?_⟩
  · rw [hnames', hnames, List.append_assoc]
    rfl
  · rw [StoredDir, if_neg hkept]
    exact ⟨n, names', rfl, h'.frames.listed n hn, hclosed,
      hnode.frame h'.frames (fun m hm => hm ▸ hopen) hn hclosed, hstored'⟩

theorem Walking.next (h : Walking all Open s current) (hfilled : Filled all Open current dir s t) :
    Walking all Open t current :=
  ⟨hfilled.inv, h.isDir.grow hfilled.grows, h.here, fun n hn => (h.dirs n hn).grow hfilled.grows,
    hfilled.known⟩

/-- What has been stored is entered. -/
theorem Walking.enter (h : Walking all Open s current) (hinv : Inv t) (hgrows : Grows s t)
    (hframes : Frames (fun _ => False) s t) (hknown : Known all t) (hfile : t.Listed file)
    (hclosed : ¬Open file)
    (hnode : StoredNode t Open current file node) (hkept : ¬hidden name) (hreal : node.real ≠ none)
    (hname : name.bytes.length ≤ SFS_MAX_FNAME_LEN) :
    Ends Excused (addEntry current file name) t fun _ u =>
      Filled all Open current (.entry name node .done) s u := by
  have hcurrent := h.isDir.grow hgrows
  apply (addEntry_stored hinv hcurrent hfile hname).imp
  rintro _ u ⟨⟨hinv', hgrows'⟩, hframes', hnames, hinodes, hsized⟩
  have hframed : Frames (· = current) s t := hframes.weaken fun _ _ hfalse => hfalse.elim
  refine ⟨hinv', hgrows.trans hgrows', hframed.trans hframes',
    hknown.addEntry hcurrent hgrows' hframes' hinodes hsized, [(file, name)], ?_, ?_⟩
  · rw [hnames, (hframes.same current h.isDir.listed not_false).names]
  · rw [StoredDir, if_neg (not_or.mpr ⟨hkept, hreal⟩)]
    exact ⟨file, [], rfl, hframes'.listed file hfile, hclosed,
      hnode.frame hframes' (fun m hm => hm ▸ h.here) hfile hclosed, by rw [StoredDir]⟩

theorem readFile_stored (reads : List (Option Chunk)) {last : Nat} (hs : Inv s)
    (hfile : s.Listed file)
    (htype : (s.inode file).inode.type ≠ SFS_TYPE_DIR) (hblocks : HasBlocks s file chunks) :
    Ends Excused (readFile file last reads) s fun _ t => (Inv t ∧ Grows s t) ∧
      Frames (· = file) s t ∧
      HasBlocks t file (chunks ++ fileChunks reads) ∧ t.inodes = s.inodes := by
  induction reads generalizing s last chunks with
  | nil =>
      rw [fileChunks, List.append_nil]
      exact ⟨⟨hs, Grows.refl s⟩, Frames.refl _ s, hblocks, rfl⟩
  | cons read rest ih =>
      rw [readFile]
      split
      case isTrue hzero =>
        have hnone : fileChunks (read :: rest) = [] := by
          obtain ⟨chunk, rfl, hlen⟩ := Option.map_eq_some_iff.mp hzero
          rw [fileChunks, if_pos hlen]
        rw [hnone, List.append_nil]
        exact ⟨⟨hs, Grows.refl s⟩, Frames.refl _ s, hblocks, rfl⟩
      case isFalse hsome =>
        rw [ends_bind, ends_check_of ⟨by decide, by decide, by decide⟩]
        intro _
        rw [ends_bind]
        apply sfsAllocIno_spec.mono
        · exact fun _ he => he ▸ excused_space
        · rintro n t ⟨hroom, rfl, rfl⟩
          cases read with
          | none => exact ⟨by decide, by decide, by decide⟩
          | some chunk =>
              have hlen : chunk.len ≠ 0 := fun hlen => hsome (congrArg some hlen)
              have hdata := handData_stored hs hfile htype hroom chunk hblocks
              rw [ends_bind] at hdata
              change Ends _ (writeBlock chunk.data chunk.len s.nextIno >>= _) _ _
              rw [ends_bind]
              apply hdata.imp
              intro _ u hu
              rw [ends_bind]
              apply hu.imp
              rintro _ v ⟨⟨hinv, hgrows⟩, hframes, hmore, hinodes⟩
              have htype' : (v.inode file).inode.type ≠ SFS_TYPE_DIR := by
                rw [hgrows.type file hfile]
                exact htype
              apply (ih hinv (hgrows.listed file hfile) htype' hmore).imp
              rintro _ w ⟨⟨hinv', hgrows'⟩, hframes', hall, hinodes'⟩
              rw [fileChunks, if_neg hlen, ← List.singleton_append, ← List.append_assoc]
              exact ⟨⟨hinv', hgrows.trans hgrows'⟩, hframes.trans hframes', hall,
                hinodes'.trans hinodes⟩

theorem Made.hasBlocks {type : BitVec 16} (h : Made s t file real type) : HasBlocks t file [] := by
  constructor
  · rw [h.inode]
    exact List.Forall₂.nil
  · rw [h.inode]
    rfl

/-- A new inode is closed. -/
theorem Made.closed {type : BitVec 16} (h : Made s t file real type)
    (hwalk : Walking all Open s current) : ¬Open file :=
  fun hopen => h.fresh (hwalk.dirs file hopen).listed

/-- The blocks of a new inode have been appended. -/
theorem Made.finish {type : BitVec 16} (h : Made s t file real type) (hknown : Known all s)
    (hgrows : Grows t u) (hframes : Frames (· = file) t u) (hinodes : u.inodes = t.inodes)
    (hlone : type = SFS_TYPE_LINK ∨ ¬s.Met real)
    (hsized : type = SFS_TYPE_DIR → (u.inode file).Sized)
    (hfile : ∀ reads, HostNode.file real reads ∈ all →
      (u.inode file).inode.type = SFS_TYPE_FILE ∧ HasBlocks u file (fileChunks reads)) :
    Frames (fun _ => False) s u ∧ Known all u := by
  have hmade : Frames (· = file) s t := h.frames.weaken fun _ _ hfalse => hfalse.elim
  have hframed : Frames (fun _ => False) s u :=
    (hmade.trans hframes).weaken fun n hn heq => h.fresh (heq ▸ hn)
  have hlisted : ∀ n, u.Listed n → n = file ∨ s.Listed n := by
    intro n hn
    unfold Tool.Listed at hn
    rw [hinodes] at hn
    exact (h.listed n).mp hn
  have hnew : t.Listed file := (h.listed file).mpr (.inl rfl)
  have hnumber : (u.inode file).real = real := by
    rw [hframes.real file hnew, h.inode]
    rfl
  have htype : (u.inode file).inode.type = type := by
    rw [hgrows.type file hnew, h.inode]
    rfl
  -- no file or directory had the number of the new one
  have hother : ∀ n, s.Listed n → (u.inode file).inode.type ≠ SFS_TYPE_LINK →
      (u.inode n).real ≠ (u.inode file).real := by
    intro n hn hkind hreal
    rw [hframed.real n hn, hnumber] at hreal
    rw [htype] at hkind
    exact hlone.elim hkind fun hnot => hnot ⟨n, hn, hreal⟩
  refine ⟨hframed, hknown.step hframed (h.grows.trans hgrows) (fun _ hfalse _ => hfalse.elim)
    (fun n hn => ?_) (fun n m hn hm hntype hmtype hreal => ?_) fun d hd => ?_⟩
  · rcases hlisted n hn with rfl | hold
    · rw [hnumber]
      exact .inr hfile
    · exact .inl hold
  · rcases hlisted n hn with rfl | hn
    · rcases hlisted m hm with rfl | hm
      · exact .inl rfl
      · exact absurd hreal.symm (hother m hm hntype)
    · rcases hlisted m hm with rfl | hm
      · exact absurd hreal (hother n hn hmtype)
      · exact .inr ⟨hn, hm⟩
  · rcases hlisted d hd.listed with rfl | hold
    · exact .inl (hsized (htype.symm.trans hd.type))
    · exact .inr ⟨hold, not_false⟩

/-- A node of another kind has another number. -/
theorem Numbers.not_file (hnum : Numbers all) (hmem : node ∈ all) (hreal : node.real = some real)
    (hkind : ∀ reads, node ≠ .file real reads)
    (reads : List (Option Chunk)) : HostNode.file real reads ∉ all :=
  fun hfile => hkind reads ((hnum node hmem real hreal).2 _ hfile rfl).symm

theorem addFile_stored (hnum : Numbers all) (h : Walking all Open s current)
    (hname : name.bytes.length ≤ SFS_MAX_FNAME_LEN)
    (hkept : ¬hidden name) {reads : List (Option Chunk)} (hmem : HostNode.file real reads ∈ all) :
    Ends Excused (addFile current name real reads) s fun _ t =>
      Filled all Open current (.entry name (.file real reads) .done) s t := by
  have hreal : (HostNode.file real reads).real ≠ none := Option.some_ne_none real
  rw [addFile, ends_bind]
  apply (searchCacheInode_met h.inv real).lift
  rintro found t ⟨rfl, hnone, hfound⟩
  cases found with
  | some file =>
      -- a hard link: the file has been stored under another name
      obtain ⟨hfile, hnumber⟩ := hfound file rfl
      obtain ⟨htype, hblocks⟩ := h.known.file file hfile real reads hmem hnumber
      have hclosed : ¬Open file := by
        intro hopen
        have hdir := (h.dirs file hopen).type
        rw [htype] at hdir
        exact absurd hdir (by decide)
      exact h.enter h.inv (Grows.refl t) (Frames.refl _ t) h.known hfile hclosed
        ⟨hnumber, htype, hblocks⟩ hkept hreal hname
  | none =>
      change Ends _ (allocCacheInode real 0 SFS_TYPE_FILE >>= _) _ _
      rw [ends_bind]
      apply (allocCacheInode_stored h.inv real SFS_TYPE_FILE).imp
      intro file u hmade
      have hfile : u.Listed file := (hmade.listed file).mpr (.inl rfl)
      have htype : (u.inode file).inode.type = SFS_TYPE_FILE := by
        rw [hmade.inode]
        rfl
      rw [ends_bind, openFile]
      apply (readFile_stored reads hmade.inv hfile (by rw [htype]; decide) hmade.hasBlocks).imp
      rintro _ v ⟨⟨hinv, hgrows⟩, hframes, hblocks, hinodes⟩
      rw [List.nil_append] at hblocks
      have htype' : (v.inode file).inode.type = SFS_TYPE_FILE :=
        (hgrows.type file hfile).trans htype
      have hnumber : (v.inode file).real = real := by
        rw [hframes.real file hfile, hmade.inode]
        rfl
      obtain ⟨hframed, hknown⟩ := hmade.finish h.known hgrows hframes hinodes (.inr (hnone.mp rfl))
        (fun hdir => absurd hdir (by decide)) fun reads' hmem' => by
          obtain ⟨_, rfl⟩ := HostNode.file.inj ((hnum _ hmem real rfl).2 _ hmem' rfl)
          exact ⟨htype', hblocks⟩
      exact h.enter hinv (hmade.grows.trans hgrows) hframed hknown (hgrows.listed file hfile)
        (hmade.closed h) ⟨hnumber, htype', hblocks⟩ hkept hreal hname

theorem addLink_stored (hnum : Numbers all) (h : Walking all Open s current)
    (hname : name.bytes.length ≤ SFS_MAX_FNAME_LEN)
    (hkept : ¬hidden name) {target : Option Chunk} (hmem : HostNode.link real target ∈ all) :
    Ends Excused (addLink current name real target) s fun _ t =>
      Filled all Open current (.entry name (.link real target) .done) s t := by
  have hreal : (HostNode.link real target).real ≠ none := Option.some_ne_none real
  rw [addLink, ends_bind]
  apply (allocCacheInode_stored h.inv real SFS_TYPE_LINK).imp
  intro file u hmade
  have hfile : u.Listed file := (hmade.listed file).mpr (.inl rfl)
  have htype : (u.inode file).inode.type = SFS_TYPE_LINK := by
    rw [hmade.inode]
    rfl
  rw [ends_bind, openLink, ends_bind]
  apply sfsAllocIno_spec.mono
  · exact fun _ he => he ▸ excused_space
  · rintro n t ⟨hroom, rfl, rfl⟩
    cases target with
    | none => exact ⟨by decide, by decide, by decide⟩
    | some chunk =>
        change Ends _ (if chunk.len = SFS_BLKSIZE then _ else _) _ _
        split
        case isTrue => exact ⟨by decide, by decide, by decide⟩
        case isFalse =>
          apply (handData_stored hmade.inv hfile (by rw [htype]; decide) hroom chunk
            hmade.hasBlocks).imp
          rintro _ v ⟨⟨hinv, hgrows⟩, hframes, hblocks, hinodes⟩
          have htype' : (v.inode file).inode.type = SFS_TYPE_LINK :=
            (hgrows.type file hfile).trans htype
          obtain ⟨hframed, hknown⟩ := hmade.finish h.known hgrows hframes hinodes (.inl rfl)
            (fun hdir => absurd hdir (by decide)) fun reads hfile' =>
              absurd hfile' (hnum.not_file hmem rfl (fun reads heq => by cases heq) reads)
          exact h.enter hinv (hmade.grows.trans hgrows) hframed hknown (hgrows.listed file hfile)
            (hmade.closed h)
            ⟨chunk, rfl, htype', hblocks⟩ hkept hreal hname

theorem openDirStart_stored {parent : BitVec 32} (hs : Inv s) (hcurrent : IsDir s current)
    (hparent : s.Listed parent) (hnew : (s.inode current).names = []) :
    Ends Excused (openDirStart current parent) s fun _ t => (Inv t ∧ Grows s t) ∧
      Frames (· = current) s t ∧
      (t.inode current).names = [(current, dot), (parent, dotDot)] ∧ t.inodes = s.inodes ∧
      ((s.inode current).Sized → (t.inode current).Sized) := by
  rw [openDirStart, ends_bind]
  apply (addEntry_stored hs hcurrent hcurrent.listed (by decide)).imp
  rintro _ t ⟨⟨hinv, hgrows⟩, hframes, hnames, hinodes, hsized⟩
  apply (addEntry_stored hinv (hcurrent.grow hgrows) (hgrows.listed parent hparent) (by decide)).imp
  rintro _ u ⟨⟨hinv', hgrows'⟩, hframes', hnames', hinodes', hsized'⟩
  refine ⟨⟨hinv', hgrows.trans hgrows'⟩, hframes.trans hframes', ?_, hinodes'.trans hinodes,
    fun h => hsized' (hsized h)⟩
  rw [hnames', hnames, hnew]
  rfl

/-- A directory that has been made is opened in those that are. -/
theorem Walking.descend (h : Walking all Open s current) {d : BitVec 32}
    (hmade : Made s t d real SFS_TYPE_DIR)
    (hlone : ¬s.Met real) (hother : ∀ reads, HostNode.file real reads ∉ all) :
    Ends Excused (openDirStart d current) t fun _ u => Walking all (fun n => Open n ∨ n = d) u d ∧
      Grows s u ∧ Frames (fun _ => False) s u ∧ (u.inode d).real = real ∧
      (u.inode d).names = [(d, dot), (current, dotDot)] := by
  have hd : t.Listed d := (hmade.listed d).mpr (.inl rfl)
  have hdir : IsDir t d := ⟨hd, by rw [hmade.inode]; rfl⟩
  apply (openDirStart_stored hmade.inv hdir (hmade.grows.listed current h.isDir.listed)
    (by rw [hmade.inode]; rfl)).imp
  rintro _ u ⟨⟨hinv, hgrows⟩, hframes, hnames, hinodes, hsized⟩
  have hgrown := hmade.grows.trans hgrows
  have hempty : (t.inode d).Sized := by
    rw [hmade.inode]
    rfl
  obtain ⟨hframed, hknown⟩ := hmade.finish h.known hgrows hframes hinodes (.inr hlone)
    (fun _ => hsized hempty) fun reads hmem => absurd hmem (hother reads)
  have hnumber : (u.inode d).real = real := by
    rw [hframes.real d hd, hmade.inode]
    rfl
  refine ⟨⟨hinv, hdir.grow hgrows, .inr rfl, fun n hn => ?_, hknown⟩, hgrown,
    hframed, hnumber, hnames⟩
  rcases hn with hopen | rfl
  · exact (h.dirs n hopen).grow hgrown
  · exact hdir.grow hgrows

end Walk

variable {all : List HostNode}

theorem HostNode.mem_nodes (node : HostNode) : node ∈ node.nodes := by
  cases node with
  | dir real entries =>
      rw [HostNode.nodes]
      exact List.mem_cons_self
  | link real target => exact List.mem_singleton.mpr rfl
  | file real reads => exact List.mem_singleton.mpr rfl
  | unsupported => exact List.mem_singleton.mpr rfl
  | unreadable => exact List.mem_singleton.mpr rfl

mutual

/-- The entries of a host directory, one after the other. -/
theorem readDir_stored (hnum : Numbers all) : ∀ (dir : HostDir) {Open : BitVec 32 → Prop} {s : Tool}
    {current : BitVec 32}, (∀ node ∈ dir.nodes, node ∈ all) → Walking all Open s current →
      Ends Excused (readDir current dir) s fun _ t => Filled all Open current dir s t
  | .done, _, _, _, _, h => Filled.done h
  | .entry name node rest, Open, s, current, hall, h => by
      rw [HostDir.nodes] at hall
      rw [readDir]
      split
      case isTrue hhidden =>
        rw [if_pos hhidden] at hall
        apply (readDir_stored hnum rest hall h).imp
        exact fun _ t ht => ht.skip (.inl hhidden)
      case isFalse hkept =>
        rw [if_neg hkept] at hall
        split
        case isTrue => exact ⟨by decide, by decide, by decide⟩
        case isFalse hlen =>
          have hnode : ∀ other ∈ node.nodes, other ∈ all :=
            fun other hmem => hall other (List.mem_append_left _ hmem)
          have hrest : ∀ other ∈ rest.nodes, other ∈ all :=
            fun other hmem => hall other (List.mem_append_right _ hmem)
          rw [ends_bind]
          apply (addNode_stored hnum node hnode h (Nat.le_of_not_lt hlen) hkept).imp
          intro _ t hfilled
          apply (readDir_stored hnum rest hrest (h.next hfilled)).imp
          intro _ u hfilled'
          by_cases hreal : node.real = none
          · -- the node is left out
            obtain ⟨names, hnames, hstored⟩ := hfilled.stored
            rw [StoredDir, if_pos (.inr hreal), StoredDir] at hstored
            obtain ⟨names', hnames', hstored'⟩ := hfilled'.stored
            refine ⟨hfilled'.inv, hfilled.grows.trans hfilled'.grows,
              hfilled.frames.trans hfilled'.frames, hfilled'.known, names', ?_, ?_⟩
            · rw [hnames', hnames, hstored, List.append_nil]
            · rw [StoredDir, if_pos (.inr hreal)]
              exact hstored'
          · exact Filled.cons (not_or.mpr ⟨hkept, hreal⟩) hfilled hfilled' h.here

theorem addNode_stored (hnum : Numbers all) : ∀ (node : HostNode) {Open : BitVec 32 → Prop}
    {s : Tool} {current : BitVec 32} {name : Name}, (∀ other ∈ node.nodes, other ∈ all) →
      Walking all Open s current → name.bytes.length ≤ SFS_MAX_FNAME_LEN → ¬hidden name →
      Ends Excused (addNode current name node) s fun _ t =>
      Filled all Open current (.entry name node .done) s t
  | .link real target, _, _, _, _, hall, h, hname, hkept =>
      addLink_stored hnum h hname hkept (hall _ (HostNode.mem_nodes _))
  | .file real reads, _, _, _, _, hall, h, hname, hkept =>
      addFile_stored hnum h hname hkept (hall _ (HostNode.mem_nodes _))
  | .unsupported, _, _, _, _, _, h, _, _ => (Filled.done h).skip (.inr rfl)
  | .unreadable, _, _, _, _, _, _, _, _ => ⟨by decide, by decide, by decide⟩
  | .dir real entries, Open, s, current, name, hall, h, hname, hkept => by
      have hmem := hall _ (HostNode.mem_nodes _)
      have hentries : ∀ other ∈ entries.nodes, other ∈ all := by
        intro other hother
        refine hall other ?_
        rw [HostNode.nodes]
        exact List.mem_cons_of_mem _ hother
      rw [addNode, ends_bind]
      apply (searchCacheInode_met h.inv real).lift
      rintro found s' ⟨rfl, hnone, -⟩
      rw [ends_bind, ends_check_of ⟨by decide, by decide, by decide⟩]
      intro hnew
      rw [ends_bind]
      apply (allocCacheInode_stored h.inv real SFS_TYPE_DIR).imp
      intro d t hmade
      rw [ends_bind]
      apply (h.descend hmade (hnone.mp hnew)
        (hnum.not_file hmem rfl fun reads heq => by cases heq)).imp
      rintro _ u ⟨hwalk, hgrows, hframes, hnumber, hnames⟩
      rw [ends_bind]
      apply (readDir_stored hnum entries hentries hwalk).imp
      intro _ v hfilled
      obtain ⟨names, hnames', hstored⟩ := hfilled.stored
      have hframed : Frames (fun _ => False) s' v :=
        (hframes.weaken (Q := (· = d)) fun _ _ hfalse => hfalse.elim).trans hfilled.frames |>.weaken
          fun n hn heq => hmade.fresh (heq ▸ hn)
      have hnode : StoredNode v Open current d (.dir real entries) := by
        refine ⟨(hfilled.frames.real d hwalk.isDir.listed).trans hnumber,
          (hfilled.grows.type d hwalk.isDir.listed).trans hwalk.isDir.type, names, ?_,
          hstored.close fun n hopen => .inl hopen⟩
        rw [hnames', hnames]
        rfl
      exact h.enter hfilled.inv (hgrows.trans hfilled.grows) hframed hfilled.known
        (hfilled.grows.listed d hwalk.isDir.listed)
        (hmade.closed h) hnode hkept (Option.some_ne_none real) hname

end

end Ucore.Sfs.Mksfs
