import Mathlib.Data.Set.Function
import Ucore.Sfs.Contents
import Ucore.Sfs.Dirent

/-!
# The host directory as the kernel reads it

`mksfs` writes an image of a host directory and the kernel mounts it. What the kernel then
reads, entry by entry and block by block, is the tree of the host.
-/

namespace Ucore.Sfs.Mksfs

open Machine

/-! ## The root -/

/-- Only the root is there at first. -/
theorem createSfs_made {s : Tool} (imgSize : Nat) (info : Fin (SFS_MAX_INFO_LEN + 1) → Byte) :
    Ends Excused (createSfs imgSize info) s fun _ t =>
      t.inode rootIno = emptyInode 0 SFS_TYPE_DIR ∧ ∀ n, t.Listed n → n = rootIno := by
  rw [createSfs]
  split
  case isTrue => exact ⟨by decide, by decide, by decide⟩
  case isFalse =>
    rw [ends_bind, ends_modify, allocCacheInode, if_pos (by decide), ends_bind,
      ends_pure, ends_bind, ends_modify, ends_pure]
    refine ⟨by rw [newInode_inode, if_pos rfl], fun n hn => ?_⟩
    rcases (listed_newInode _ 0 SFS_TYPE_DIR rootIno n).mp hn with rfl | ⟨b, hb⟩
    · rfl
    · exact absurd hb List.not_mem_nil

/-- A block of a file, as the kernel reads one of a directory. -/
def readFileBlock (io : Nat → Int) (node : BitVec 32) (index : Nat) : SfsM (Except Int Bytes) := do
  match ← sfsBmapLoadNolock io node index with
  | .error ret => return .error ret
  | .ok ino => sfsRbuf io SFS_BLKSIZE ino 0

/-- The kernel reads the chunks, those behind the double indirect block apart. -/
structure ServesFile (v : Volume) (n : BitVec 32) (type : BitVec 16) (chunks : List Chunk) :
    Prop where
  type : (v.sin n).din.type = type
  size : (v.sin n).din.size = BitVec.ofNat 32 (chunks.map Chunk.len).sum
  blocks : (v.sin n).din.blocks.toNat = chunks.length
  read : ∀ i chunk, chunks[i]? = some chunk → i < SFS_NDIRECT + SFS_BLK_NENTRY →
    Ends never (readFileBlock (fun _ => 0) n i) v fun r _ => r = .ok chunk.padded

/-- The kernel reads the entry in the slot, and of its name what was written. -/
def ServesEntry (v : Volume) (d : BitVec 32) (slot : Nat) (n : BitVec 32) (name : Name) : Prop :=
  slot < SFS_NDIRECT + SFS_BLK_NENTRY →
    Ends never (sfsDirentReadNolock (fun _ => 0) d slot) v fun r _ =>
    ∃ entry, r = .ok entry ∧ entry.ino = n ∧ entry.string = name.bytes.take writtenLen

/-- The kernel reads a directory that begins with `.` and `..` and has the size of its entries. -/
structure ServesTop (v : Volume) (parent n : BitVec 32) : Prop where
  type : (v.sin n).din.type = SFS_TYPE_DIR
  size : (v.sin n).din.size = BitVec.ofNat 32 (sfsDentrySize * (v.sin n).din.blocks.toNat)
  dot : ServesEntry v n 0 n dot
  dotDot : ServesEntry v n 1 parent dotDot

mutual

/-- What the kernel reads of the inode `n`, when it has loaded it, is the node of the host. The
inode of a file or a directory is the one that `number` gives for its number on the host, so that
all names of one file lead to one inode; a symbolic link has an inode under each name. -/
def ServesNode (number : BitVec 64 → BitVec 32) (load : BitVec 32 → Volume) (parent n : BitVec 32) :
    HostNode → Prop
  | .link _ target => ∃ chunk, target = some chunk ∧ ServesFile (load n) n SFS_TYPE_LINK [chunk]
  | .file real reads => n = number real ∧ ServesFile (load n) n SFS_TYPE_FILE (fileChunks reads)
  | .dir real entries => n = number real ∧ ServesTop (load n) parent n ∧
      ServesDir number load n 2 entries
  | .unsupported => False
  | .unreadable => False

/-- From the slot on, the directory has the entries of the host directory, in their order and
no others; those that are hidden or of a kind that is left out have no slot. -/
def ServesDir (number : BitVec 64 → BitVec 32) (load : BitVec 32 → Volume) (d : BitVec 32) :
    Nat → HostDir → Prop
  | slot, .done => ((load d).sin d).din.blocks.toNat = slot
  | slot, .entry name node rest =>
      if hidden name ∨ node.real = none then ServesDir number load d slot rest
      else ∃ n, ServesEntry (load d) d slot n name ∧ ServesNode number load d n node ∧
        ServesDir number load d (slot + 1) rest

end

/-- The number of a file or a directory on the host. -/
def HostNode.sought : HostNode → Option (BitVec 64)
  | .file real _ => some real
  | .dir real _ => some real
  | .link _ _ => none
  | .unsupported => none
  | .unreadable => none

/-- The numbers of the files and directories under a host directory. -/
def HostDir.numbers (home : HostDir) : Set (BitVec 64) :=
    {real | ∃ node ∈ home.nodes, node.sought = some real}

section Serving

variable {u : Tool} {img : Blocks} {dev : Device} {sfs : SfsFs} {sin : BitVec 32 → SfsInode}
  {n d parent : BitVec 32} {v : Volume} {chunks : List Chunk} {Open : BitVec 32 → Prop}

/-- A block of data was not written again. -/
theorem Closed.block_eq (hu : Accounted u) (himg : Closed u img) (hn : u.Listed n) {i : Nat}
    (hi : i < (u.inode n).appended.length) :
    img ((u.inode n).appended.getD i 0).toNat = u.img ((u.inode n).appended.getD i 0).toNat := by
  have hhanded := hu.appended_handed hn hi
  refine himg.data _ ((hu.mem_handed _).mp hhanded).1 fun m hm heq => ?_
  have heq : m = (u.inode n).appended.getD i 0 := BitVec.eq_of_toNat_eq heq
  rcases hm with hm | hm
  · cases hu.number_inj (.index m) (.data n i) hm ⟨hn, hi⟩ heq
  · cases hu.number_inj (.inode m) (.data n i) hm ⟨hn, hi⟩ heq

theorem OfImage.serves (hv : OfImage u img v) (hu : Built u) (himg : Closed u img) (hn : u.Listed n)
    (hdin : (v.sin n).din = (u.inode n).inode.din) (hblocks : HasBlocks u n chunks) :
    ServesFile v n (u.inode n).inode.type chunks := by
  have hlength := hblocks.blocks.length_eq
  refine ⟨by rw [hdin]; rfl, by rw [hdin]; exact hblocks.size,
    by rw [hu.filed.blocks_eq hn hdin, hlength], ?_⟩
  intro i chunk hchunk hlow
  obtain ⟨hi', hget⟩ := List.getElem?_eq_some_iff.mp hchunk
  have hi : i < (u.inode n).appended.length := hlength ▸ hi'
  have hdata : u.img ((u.inode n).appended.getD i 0).toNat = chunk.padded := by
    rw [List.getD_eq_getElem _ _ hi, ← hget]
    exact hblocks.blocks.get hi hi'
  rw [readFileBlock, ends_bind]
  apply (hv.bmapLoad hu himg hn hdin hi hlow).imp
  rintro r t ⟨⟨ios, rfl⟩, rfl⟩
  have hvalid := (hv.ios ios).valid hu.accounted (hu.accounted.appended_handed hn hi)
  apply (sfsRbuf_spec hvalid (by decide) (by decide)).imp
  rintro r t ⟨rfl, hread⟩
  cases r with
  | error ret => exact absurd hread.1 hread.2
  | ok b =>
      rw [hread.2, hv.disk, ← hdata, ← himg.block_eq hu.accounted hn hi]
      congr 1
      funext k
      rw [Nat.zero_add]

/-- What is stored is served. -/
structure Mounting (u : Tool) (img : Blocks) (number : BitVec 64 → BitVec 32)
    (load : BitVec 32 → Volume) : Prop where
  inv : Inv u
  closed : Closed u img
  image : ∀ n, OfImage u img (load n)
  din : ∀ n, u.Listed n → ((load n).sin n).din = (u.inode n).inode.din
  number : ∀ n, u.Listed n → (u.inode n).inode.type ≠ SFS_TYPE_LINK → number (u.inode n).real = n
  sized : ∀ d, IsDir u d → (u.inode d).Sized

variable {number : BitVec 64 → BitVec 32} {load : BitVec 32 → Volume}

theorem Mounting.entry (h : Mounting u img number load) (hdir : IsDir u d)
    {slot : Nat} {name : Name}
    (hentry : (u.inode d).names[slot]? = some (n, name)) : ServesEntry (load d) d slot n name := by
  intro hlow
  apply ((h.image d).direntRead h.inv h.closed hdir (h.din d hdir.listed) hentry hlow).imp
  exact fun r _ hr => hr.2

theorem Mounting.top (h : Mounting u img number load) {names : List (BitVec 32 × Name)}
    (hdir : IsDir u n) (hnames : (u.inode n).names = (n, dot) :: (parent, dotDot) :: names) :
    ServesTop (load n) parent n := by
  have hdin := h.din n hdir.listed
  refine ⟨by rw [hdin]; exact hdir.type, ?_, h.entry hdir ?_, h.entry hdir ?_⟩
  · rw [h.inv.built.filed.blocks_eq hdir.listed hdin,
      ← (h.inv.entered.dirs n hdir.listed hdir.type).length, hdin]
    exact h.sized n hdir
  · rw [hnames]
    rfl
  · rw [hnames]
    rfl

mutual

theorem Mounting.node (h : Mounting u img number load) : ∀ (node : HostNode) {parent n : BitVec 32},
    u.Listed n → StoredNode u Open parent n node → ServesNode number load parent n node
  | .link _ _, _, n, hn, ⟨chunk, htarget, htype, hblocks⟩ =>
      ⟨chunk, htarget, htype ▸ (h.image n).serves h.inv.built h.closed hn (h.din n hn) hblocks⟩
  | .file _ _, _, n, hn, ⟨hreal, htype, hblocks⟩ => by
      have hserves := (h.image n).serves h.inv.built h.closed hn (h.din n hn) hblocks
      rw [htype] at hserves
      have hnumber := h.number n hn (by rw [htype]; decide)
      rw [hreal] at hnumber
      exact ⟨hnumber.symm, hserves⟩
  | .dir _ entries, parent, n, hn, ⟨hreal, htype, names, hnames, hstored⟩ => by
      have hdir : IsDir u n := ⟨hn, htype⟩
      have hnumber := h.number n hn (by rw [htype]; decide)
      rw [hreal] at hnumber
      exact ⟨hnumber.symm, h.top hdir hnames,
        Mounting.dir h entries [(n, dot), (parent, dotDot)] hdir hnames hstored⟩
  | .unsupported, _, _, _, hnode => hnode.elim
  | .unreadable, _, _, _, hnode => hnode.elim

theorem Mounting.dir (h : Mounting u img number load) :
    ∀ (dir : HostDir) (before : List (BitVec 32 × Name)) {names : List (BitVec 32 × Name)}
      {d : BitVec 32}, IsDir u d → (u.inode d).names = before ++ names →
        StoredDir u Open d names dir →
      ServesDir number load d before.length dir
  | .done, before, names, d, hdir, hnames, hstored => by
      rw [StoredDir] at hstored
      rw [hstored, List.append_nil] at hnames
      rw [ServesDir, h.inv.built.filed.blocks_eq hdir.listed (h.din d hdir.listed),
        ← (h.inv.entered.dirs d hdir.listed hdir.type).length, hnames]
  | .entry name node rest, before, names, d, hdir, hnames, hstored => by
      rw [StoredDir] at hstored
      rw [ServesDir]
      split at hstored
      case isTrue hskip =>
        rw [if_pos hskip]
        exact Mounting.dir h rest before hdir hnames hstored
      case isFalse hkept =>
        rw [if_neg hkept]
        obtain ⟨n, tail, rfl, hn, -, hnode, hrest⟩ := hstored
        refine ⟨n, h.entry hdir ?_, Mounting.node h node hn hnode, ?_⟩
        · rw [hnames, List.getElem?_append_right (Nat.le_refl _), Nat.sub_self]
          rfl
        · have hnames' : (u.inode d).names = (before ++ [(n, name)]) ++ tail := by
            rw [hnames, List.append_assoc]
            rfl
          have hlength : (before ++ [(n, name)]).length = before.length + 1 := List.length_append
          rw [← hlength]
          exact Mounting.dir h rest (before ++ [(n, name)]) hdir hnames' hrest

end

/-! ## The numbers -/

/-- A file or a directory with this number on the host is on the image. -/
def Placed (u : Tool) (real : BitVec 64) : Prop :=
  ∃ n, u.Listed n ∧ (u.inode n).inode.type ≠ SFS_TYPE_LINK ∧ (u.inode n).real = real

mutual

/-- What is stored is on the image, with all that is under it. -/
theorem StoredNode.placed : ∀ (node : HostNode) {parent n : BitVec 32}, u.Listed n →
    StoredNode u Open parent n node → ∀ other ∈ node.nodes, ∀ real, other.sought = some real →
      Placed u real
  | .link _ _, _, _, _, _, other, hother, _, hsought => by
      rw [HostNode.nodes, List.mem_singleton] at hother
      rw [hother] at hsought
      cases hsought
  | .file _ _, _, n, hn, ⟨hreal, htype, _⟩, other, hother, _, hsought => by
      rw [HostNode.nodes, List.mem_singleton] at hother
      rw [hother] at hsought
      cases hsought
      exact ⟨n, hn, by rw [htype]; decide, hreal⟩
  | .dir _ entries, _, n, hn, ⟨hreal, htype, _, _, hstored⟩, other, hother, real, hsought => by
      rw [HostNode.nodes, List.mem_cons] at hother
      rcases hother with rfl | hother
      · cases hsought
        exact ⟨n, hn, by rw [htype]; decide, hreal⟩
      · exact StoredDir.placed entries hstored other hother real hsought
  | .unsupported, _, _, _, hnode, _, _, _, _ => hnode.elim
  | .unreadable, _, _, _, hnode, _, _, _, _ => hnode.elim

theorem StoredDir.placed : ∀ (dir : HostDir) {names : List (BitVec 32 × Name)} {d : BitVec 32},
    StoredDir u Open d names dir → ∀ other ∈ dir.nodes, ∀ real, other.sought = some real →
      Placed u real
  | .done, _, _, _, other, hother, _, _ => absurd hother List.not_mem_nil
  | .entry name node rest, names, d, hstored, other, hother, real, hsought => by
      rw [StoredDir] at hstored
      rw [HostDir.nodes] at hother
      split at hother
      case isTrue hhidden =>
        rw [if_pos (.inl hhidden)] at hstored
        exact StoredDir.placed rest hstored other hother real hsought
      case isFalse hkept =>
        split at hstored
        case isTrue hskip =>
          rcases List.mem_append.mp hother with hother | hother
          · -- a node that is left out has nothing under it
            cases node with
            | unsupported =>
                rw [HostNode.nodes, List.mem_singleton] at hother
                rw [hother] at hsought
                cases hsought
            | unreadable =>
                rw [HostNode.nodes, List.mem_singleton] at hother
                rw [hother] at hsought
                cases hsought
            | _ => exact (hskip.elim hkept (Option.some_ne_none _)).elim
          · exact StoredDir.placed rest hstored other hother real hsought
        case isFalse =>
          obtain ⟨n, tail, rfl, hn, -, hnode, hrest⟩ := hstored
          rcases List.mem_append.mp hother with hother | hother
          · exact StoredNode.placed node hn hnode other hother real hsought
          · exact StoredDir.placed rest hrest other hother real hsought

end

end Serving

end Ucore.Sfs.Mksfs
