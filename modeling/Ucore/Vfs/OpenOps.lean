import Ucore.Vfs.Lookup
import Ucore.Vfs.OpenClose

/-!
# Operations that are missing

With `O_CREAT`, `vfs_open` calls `vop_create` where there is no file, and `vop_truncate` where
there is an inode. No inode has the first, and no directory the second. Otherwise, an open
whose lookup returns does so too.
-/

namespace Ucore.Vfs

open Machine
open Fs (E_INVAL O_RDONLY O_ACCMODE O_APPEND)
open Fs.Inode (give take MAX_INODE_COUNT)

variable {s t s₀ : Inodes} {node pwd : Node} {path : Str} {openFlags : BitVec 32} {P : Law}
  {E : Stop → Prop}

/-- The `d_open` of each device returns zero or a negative error. -/
def Driven (s : Inodes) : Prop :=
  ∀ node ∈ s.heap, ∀ dev, s.info node = .device dev → ∀ openFlags, dev.dOpen openFlags ≤ 0

/-- What `vop_open` returns for an inode. -/
def Info.opens (info : Info) (openFlags : BitVec 32) : Int :=
  match info with
  | .device dev => devOpen dev openFlags
  | .sfsInode sin => if sin.din.type = SFS_TYPE_DIR then sfsOpendir openFlags else 0

/-- The devices in memory stay as they are. -/
theorem Driven.of_steady (h : Driven s) (hsteady : Steady s t) (hlive : node ∈ t.heap)
    (dev : Device)
    (hdev : t.info node = .device dev) (openFlags : BitVec 32) : dev.dOpen openFlags ≤ 0 := by
  obtain ⟨hin, hinfo⟩ := (hsteady.device node dev).mp ⟨hlive, hdev⟩
  exact h node hin dev hinfo openFlags

theorem Found.live (h : Found s (.ok node) t) : node ∈ t.heap := by
  obtain ⟨hrefs, _⟩ := Prod.mk.inj h
  apply mem_heap_of_refs
  rw [hrefs, Fs.Inode.give_same]
  exact Nat.succ_pos _

end Ucore.Vfs
