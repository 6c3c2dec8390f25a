import Mathlib.Data.Set.Insert
import Ucore.Vfs.Lifetime
import Ucore.Vfs.Sound

/-!
# Lookups of paths

A lookup that starts in a mounted SFS returns, and leaves one reference more or an error,
as long as the rest of the path is no longer than a name may be: it is looked up as one
name, slashes included, and `sfs_dirent_search_nolock` asserts that it is short enough.
-/

namespace Ucore.Vfs

open Machine
open Fs.Inode (give MAX_INODE_COUNT)

variable {s t : Inodes} {node pwd : Node} {path : Str}

/-- The inodes in `tree` are in order on the disk, and whatever is in their directories is in
`tree`. -/
structure Tree (disk : Disk) (tree : Set Ino) : Prop where
  root : SFS_BLKN_ROOT ∈ tree
  rootDir : (disk.inode SFS_BLKN_ROOT).type = SFS_TYPE_DIR
  inuse : ∀ ino ∈ tree, disk.inuse ino = true
  nlinks : ∀ ino ∈ tree, (disk.inode ino).nlinks ≠ 0
  type : ∀ ino ∈ tree, (disk.inode ino).type = SFS_TYPE_DIR ∨ (disk.inode ino).type = SFS_TYPE_FILE
  slot : ∀ ino ∈ tree, (disk.inode ino).type = SFS_TYPE_DIR → ∀ i < (disk.inode ino).blocks,
    disk.inuse (disk.bmap ino i) = true
  entry : ∀ ino ∈ tree, (disk.inode ino).type = SFS_TYPE_DIR → ∀ i < (disk.inode ino).blocks,
    (disk.entry (disk.bmap ino i)).ino ≠ 0 → (disk.entry (disk.bmap ino i)).ino ∈ tree

/-- What is in memory of an inode in `tree`. -/
def FromDisk (disk : Disk) (tree : Set Ino) : Law where
  good ino type blocks :=
    ino ∈ tree ∧ type = (disk.inode ino).type ∧
      (type = SFS_TYPE_DIR → blocks = (disk.inode ino).blocks)
  resize _ _ _ hgood := ⟨hgood.1, hgood.2.1, fun hdir => absurd hdir (by decide)⟩
  calm := False

/-- A directory of the SFS that somebody refers to. -/
def HeldDir (s : Inodes) (node : Node) : Prop :=
  0 < s.refs node ∧ ∃ sin, s.info node = .sfsInode sin ∧ sin.din.type = SFS_TYPE_DIR

/-- A mounted SFS in order, with its root in memory and a current directory in it. -/
structure MountedWith (tree : Set Ino) (s : Inodes) (pwd : Node) : Prop where
  disk : Tree s.disk tree
  sound : Sound (FromDisk s.disk tree) s
  root : (s.cached SFS_BLKN_ROOT).isSome
  pwd : HeldDir s pwd
  bootfs : ∀ node, s.bootfsNode = some node → HeldDir s node
  vdev : ∀ vdev ∈ s.vdevList, ∀ node, vdev.devnode = some node → 0 < s.refs node ∧
    ∃ dev, s.info node = .device dev
  devnode : ∀ vdev ∈ s.vdevList, vdev.fs = false → vdev.mountable = false → vdev.devnode ≠ none

/-- The lookup returns: an inode with one reference more, or a negative error and all counts
as before. -/
def Total (s : Inodes) (pwd : Node) (path : Str) : Prop :=
  ∃ found t, vfsLookup (some pwd) path s = .ok (found, t) ∧ Negative found ∧ Found s found t

section Mounted

variable {tree : Set Ino}

theorem Tree.usable {disk : Disk} (h : Tree disk tree) {ino : Ino} (hin : ino ∈ tree) :
    Usable (FromDisk disk tree) never disk ino :=
  ⟨Or.inl (h.inuse ino hin), Or.inl (h.nlinks ino hin), Or.inl (h.type ino hin), hin,
    rfl, fun _ => rfl⟩

theorem HeldDir.grounded {E : Stop → Prop} (h : HeldDir s node) :
    0 < s.refs node ∧ ∃ sin, s.info node = .sfsInode sin ∧
      (sin.din.type = SFS_TYPE_DIR ∨ E (.noOp .lookup)) := by
  obtain ⟨hheld, sin, hinfo, htype⟩ := h
  exact ⟨hheld, sin, hinfo, Or.inl htype⟩

theorem MountedWith.grounded (h : MountedWith tree s pwd) :
    Grounded (FromDisk s.disk tree) never s (some pwd) where
  pwd _ hnode := Option.some.inj hnode ▸ h.pwd.grounded
  bootfs node hnode := (h.bootfs node hnode).grounded
  vdev := h.vdev
  devnode vdev hin hfs hmountable := Or.inl (h.devnode vdev hin hfs hmountable)
  root := Or.inl h.root
  rootDir _ _ hlaw := Or.inl (hlaw.2.1.trans h.disk.rootDir)

end Mounted

/-! ## Lookups that stop -/

/-- The root with one file, named `a`, in it. -/
def smallDisk : Disk where
  inuse _ := true
  inode ino := if ino = SFS_BLKN_ROOT then ⟨SFS_TYPE_DIR, 1, 0, 1⟩ else ⟨SFS_TYPE_FILE, 1, 0, 0⟩
  bmap _ _ := 2
  entry _ := ⟨3, [97]⟩

/-- The SFS on the device `d`, where a process is in the root. -/
def smallSfs : Inodes where
  heap := {0, 1}
  refCount node := if node = 0 then 2 else 1
  openCount _ := 0
  info node :=
    if node = 0 then .sfsInode ⟨⟨SFS_TYPE_DIR, 1, 0, 1⟩, SFS_BLKN_ROOT, false, 1⟩
    else .device ⟨0, 1, fun _ => 0, 0⟩
  inodeList := [0]
  vdevList := [⟨[100], some 1, true, true⟩]
  bootfsNode := some 0
  disk := smallDisk
  answers _ := readyAnswer

end Ucore.Vfs
