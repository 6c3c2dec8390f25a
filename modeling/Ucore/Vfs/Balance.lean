import Mathlib.Data.Finset.Prod
import Ucore.Foundation.Tally
import Ucore.Fs.Slots
import Ucore.Vfs.OpenClose
import Ucore.Vfs.Tables

/-!
# Counts and tables

The counts of every inode against the slots that hold it open, the tables whose current
directory it is, and its place in the list of devices and as the root of the boot file
system. Changes of one slot are paid for by the inodes.
-/

namespace Ucore.Vfs

open Machine
open Fs (File FilesM Slot Status)
open Fs.Inode (give take)

variable {sys sys' sys'' : Sys} {f g : Filesp} {s r : Slot} {file file' : File}
  {node n : Node} {calm : Prop}
  {held : Finset Filesp} {α : Type} {E : Halt → Prop}

/-! ## What holds an inode -/

/-- The inode that a slot holds open. -/
def File.holds (file : File) : Option Node := if file.status = .fdOpened then file.node else none

/-- The slots of all tables. -/
def Sys.slots (sys : Sys) : Finset (Filesp × Slot) := sys.filesHeap ×ˢ Finset.univ

/-- The inode that a slot of a table holds open. -/
def Sys.opener (sys : Sys) (slot : Filesp × Slot) : Option Node :=
  File.holds ((sys.table slot.1).fdArray slot.2)

/-- How often the inode is held open. -/
def Sys.openers (sys : Sys) : Node → Nat := tally sys.slots sys.opener

/-- How many of the tables `held` have the inode as current directory. -/
def Sys.dwellers (sys : Sys) (held : Finset Filesp) : Node → Nat :=
    tally held fun f => (sys.table f).pwd

/-- The references to an inode from the list of devices and as root of the boot file system. -/
def baseRefs (s : Inodes) (node : Node) : Nat :=
  (s.vdevList.countP fun vdev => vdev.devnode = some node) +
    if s.bootfsNode = some node then 1 else 0

/-- A slot between two calls. -/
structure SlotOk (file : File) : Prop where
  notClosed : file.status ≠ .fdClosed
  openCount : file.openCount = if file.status = .fdOpened then 1 else 0
  node : file.status = .fdOpened → ∃ node, file.node = some node

/-- Inodes that are referred to from the list of devices or as root are what they should be. -/
structure Based (s : Inodes) : Prop where
  bootfs : ∀ node, s.bootfsNode = some node → ∃ sin, s.info node = .sfsInode sin
  vdev : ∀ vdev ∈ s.vdevList, ∀ node, vdev.devnode = some node → ∃ dev, s.info node = .device dev
  device : ∀ node ∈ s.heap, ∀ dev, s.info node = .device dev → 0 < baseRefs s node

/-- The counts of all inodes add up, where the tables in `held` hold their current directories. -/
structure Balanced (calm : Prop) (held : Finset Filesp) (sys : Sys) : Prop where
  sound : Sound (anyInode calm) sys.inodes
  based : Based sys.inodes
  slot : ∀ f ∈ sys.filesHeap, ∀ s, SlotOk ((sys.table f).fdArray s)
  opens : ∀ n, sys.inodes.opens n = sys.openers n
  refs : ∀ n, sys.inodes.refs n = sys.openers n + sys.dwellers held n + baseRefs sys.inodes n
  pwd : ∀ f ∈ held, ∀ n, (sys.table f).pwd = some n → ∃ sin, sys.inodes.info n = .sfsInode sin

theorem give_apply (f : Node → Nat) : give f node n = f n + if node = n then 1 else 0 := by
  split
  · next heq =>
    subst heq
    exact Fs.Inode.give_same f
  · next hne => exact Fs.Inode.give_of_ne f (Ne.symm hne)

theorem take_apply (f : Node → Nat) : take f node n = f n - if node = n then 1 else 0 := by
  split
  · next heq =>
    subst heq
    exact Fs.Inode.take_same f
  · next hne => exact Fs.Inode.take_of_ne f (Ne.symm hne)

theorem baseRefs_steady {s t : Inodes} (h : Steady s t) : baseRefs t node = baseRefs s node := by
  rw [baseRefs, baseRefs, h.vdevList, h.bootfsNode]

theorem baseRefs_bootfs {s : Inodes} (h : s.bootfsNode = some node) : 0 < baseRefs s node := by
  rw [baseRefs, if_pos h]
  exact Nat.succ_pos _

theorem baseRefs_vdev {s : Inodes} {vdev : VfsDev} (hin : vdev ∈ s.vdevList)
    (hnode : vdev.devnode = some node) :
    0 < baseRefs s node := by
  have hpos : 0 < s.vdevList.countP fun vdev => vdev.devnode = some node :=
    List.countP_pos_iff.mpr ⟨vdev, hin, decide_eq_true hnode⟩
  exact Nat.add_pos_left hpos _

namespace Balanced

/-- References from the base are there. -/
theorem base_le (h : Balanced calm held sys) : baseRefs sys.inodes node ≤ sys.inodes.refs node := by
  rw [h.refs]
  exact Nat.le_add_left _ _

theorem openers_pos (h : Balanced calm held sys) (hf : f ∈ sys.filesHeap)
    (hholds : File.holds ((sys.table f).fdArray s) = some node) : 0 < sys.inodes.opens node := by
  rw [h.opens]
  exact tally_pos (i := (f, s)) (Finset.mem_product.mpr ⟨hf, Finset.mem_univ s⟩) hholds

theorem dwellers_pos (hf : f ∈ held) (hpwd : (sys.table f).pwd = some node) :
    0 < sys.dwellers held node :=
  tally_pos hf hpwd

/-- An open device is referred to besides. -/
theorem device_more (h : Balanced calm held sys) (hopen : 0 < sys.inodes.opens node) {dev : Device}
    (hdev : sys.inodes.info node = .device dev) : 1 < sys.inodes.refs node := by
  have hlive : node ∈ sys.inodes.heap := by
    by_contra hout
    rw [Inodes.opens, if_neg hout] at hopen
    exact Nat.lt_irrefl 0 hopen
  have hbase := h.based.device node hlive dev hdev
  have hopens := h.opens node
  have hrefs := h.refs node
  omega

/-- Where a process of the table `f` looks paths up. -/
theorem rooted (h : Balanced calm held sys) (hf : f ∈ held) :
    Rooted sys.inodes (sys.table f).pwd where
  pwd node hnode := by
    have hpos : 0 < sys.dwellers held node := dwellers_pos hf hnode
    have hrefs := h.refs node
    exact ⟨by omega, h.pwd f hf node hnode⟩
  bootfs node hnode := ⟨(baseRefs_bootfs hnode).trans_le h.base_le, h.based.bootfs node hnode⟩
  vdev vdev hin node hnode :=
    ⟨(baseRefs_vdev hin hnode).trans_le h.base_le, h.based.vdev vdev hin node hnode⟩

theorem open_lt (h : Balanced calm held sys) (hf : f ∈ held)
    (hnode : (sys.table f).pwd = some node) :
    sys.inodes.opens node < sys.inodes.refs node := by
  have hpos : 0 < sys.dwellers held node := dwellers_pos hf hnode
  have hopens := h.opens node
  have hrefs := h.refs node
  omega

end Balanced

/-- The inodes of the base stay what they are. -/
theorem Based.of_steady {s t : Inodes} (h : Based s) (hsteady : Steady s t)
    (hheld : ∀ n, 0 < baseRefs s n → 0 < s.refs n ∧ 0 < t.refs n) : Based t where
  bootfs node hnode := by
    rw [hsteady.bootfsNode] at hnode
    obtain ⟨sin, hsin⟩ := h.bootfs node hnode
    exact hsteady.sfsInode (hheld node (baseRefs_bootfs hnode)).2 hsin
  vdev vdev hin node hnode := by
    rw [hsteady.vdevList] at hin
    obtain ⟨dev, hdev⟩ := h.vdev vdev hin node hnode
    have hlive := mem_heap_of_refs (hheld node (baseRefs_vdev hin hnode)).1
    exact ⟨dev, ((hsteady.device node dev).mpr ⟨hlive, hdev⟩).2⟩
  device node hlive dev hdev := by
    obtain ⟨hlive', hdev'⟩ := (hsteady.device node dev).mp ⟨hlive, hdev⟩
    rw [baseRefs_steady hsteady]
    exact h.device node hlive' dev hdev'

/-- Inodes and tables change together. -/
theorem Balanced.next {held' : Finset Filesp} (h : Balanced calm held sys)
    (hkept : Kept (anyInode calm) sys.inodes sys'.inodes)
    (hslot : ∀ f ∈ sys'.filesHeap, ∀ s, SlotOk ((sys'.table f).fdArray s))
    (hopens : ∀ n, sys'.inodes.opens n = sys'.openers n)
    (hrefs : ∀ n, sys'.inodes.refs n = sys'.openers n + sys'.dwellers held' n +
      baseRefs sys.inodes n)
    (hpwd : ∀ f ∈ held', ∀ n, (sys'.table f).pwd = some n →
      (∃ sin, sys.inodes.info n = .sfsInode sin) ∨ ∃ sin, sys'.inodes.info n = .sfsInode sin) :
    Balanced calm held' sys' where
  sound := hkept.sound
  based := by
    refine h.based.of_steady hkept.steady fun n hbase => ⟨hbase.trans_le h.base_le, ?_⟩
    rw [hrefs]
    exact Nat.add_pos_right _ hbase
  slot := hslot
  opens := hopens
  refs n := by
    rw [hrefs, baseRefs_steady hkept.steady]
  pwd f hf n hn := by
    rcases hpwd f hf n hn with ⟨sin, hsin⟩ | hsin
    · refine hkept.steady.sfsInode ?_ hsin
      have hpos : 0 < sys'.dwellers held' n := Balanced.dwellers_pos hf hn
      rw [hrefs]
      omega
    · exact hsin

/-! ## Changes of one slot -/

/-- The slot `s` of the table `f` holds `file` now; nothing else is different in any slot or
current directory. -/
structure OneSlot (f : Filesp) (s : Slot) (file : File) (sys sys' : Sys) : Prop where
  heap : sys'.filesHeap = sys.filesHeap
  pwd : ∀ g, (sys'.table g).pwd = (sys.table g).pwd
  same : (sys'.table f).fdArray s = file
  other : ∀ g r, (g, r) ≠ (f, s) → (sys'.table g).fdArray r = (sys.table g).fdArray r

namespace OneSlot

theorem trans (h : OneSlot f s file sys sys') (h' : OneSlot f s file' sys' sys'') :
    OneSlot f s file' sys sys'' where
  heap := h'.heap.trans h.heap
  pwd g := (h'.pwd g).trans (h.pwd g)
  same := h'.same
  other g r hne := (h'.other g r hne).trans (h.other g r hne)

theorem of_inodes (h : OneSlot f s file sys sys') (inodes : Inodes) :
    OneSlot f s file sys { sys' with inodes := inodes } := ⟨h.heap, h.pwd, h.same, h.other⟩

theorem dwellers (h : OneSlot f s file sys sys') : sys'.dwellers held = sys.dwellers held :=
  tally_congr fun g _ => h.pwd g

theorem openers (h : OneSlot f s file sys sys') (hf : f ∈ sys.filesHeap) :
    (sys'.openers n + if File.holds ((sys.table f).fdArray s) = some n then 1 else 0) =
      sys.openers n + if File.holds file = some n then 1 else 0 := by
  have hslots : sys'.slots = sys.slots := by
    rw [Sys.slots, Sys.slots, h.heap]
  have hmem : (f, s) ∈ sys.slots := Finset.mem_product.mpr ⟨hf, Finset.mem_univ s⟩
  have hother : ∀ slot ∈ sys.slots, slot ≠ (f, s) → sys'.opener slot = sys.opener slot :=
    fun slot _ hne => congrArg File.holds (h.other slot.1 slot.2 hne)
  have hchange := tally_change (d := n) hmem hother
  unfold Sys.openers
  rw [hslots, ← h.same]
  exact hchange

theorem slotOk (h : OneSlot f s file sys sys')
    (hall : ∀ g ∈ sys.filesHeap, ∀ r, SlotOk ((sys.table g).fdArray r))
    (hok : SlotOk file) : ∀ g ∈ sys'.filesHeap, ∀ r, SlotOk ((sys'.table g).fdArray r) := by
  intro g hg r
  by_cases hgr : (g, r) = (f, s)
  · obtain ⟨rfl, rfl⟩ := Prod.mk.inj hgr
    rw [h.same]
    exact hok
  · rw [h.other g r hgr]
    exact hall g (h.heap ▸ hg) r

/-- Code on a table that changes one slot. -/
theorem of_only {T' : Fs.Files} (h : Fs.Files.Only s (sys.table f).toFiles T') :
    OneSlot f s (T'.fdArray s) sys (sys.setTable f { T' with pwd := (sys.table f).pwd }) where
  heap := rfl
  pwd g := by
    by_cases hg : g = f
    · subst hg
      simp [Sys.setTable]
    · simp [Sys.setTable, hg]
  same := by simp [Sys.setTable]
  other g r hne := by
    by_cases hg : g = f
    · subst hg
      have hr : r ≠ s := fun heq => hne (by rw [heq])
      simp [Sys.setTable, h.fdArray r hr]
    · simp [Sys.setTable, hg]

end OneSlot

namespace Balanced

/-- A slot that is not open is claimed or freed. -/
theorem idle (h : Balanced calm held sys) (hone : OneSlot f s file sys sys')
    (hf : f ∈ sys.filesHeap) (hinodes : sys'.inodes = sys.inodes) (hok : SlotOk file)
    (hsame : File.holds file = File.holds ((sys.table f).fdArray s)) : Balanced calm held sys' := by
  have hopeners : ∀ n, sys'.openers n = sys.openers n := by
    intro n
    have heq := hone.openers hf (n := n)
    rw [hsame] at heq
    omega
  refine h.next ?_ (hone.slotOk h.slot hok) ?_ ?_ ?_
  · rw [hinodes]
    exact ⟨h.sound, Steady.refl _⟩
  · intro n
    rw [hinodes, hopeners, h.opens]
  · intro n
    rw [hinodes, hopeners, hone.dwellers, h.refs]
  · intro g hg n hn
    exact Or.inl (h.pwd g hg n ((hone.pwd g).symm.trans hn))

/-- A slot opens an inode. -/
theorem gain (h : Balanced calm held sys) (hone : OneSlot f s file sys sys')
    (hf : f ∈ sys.filesHeap) (hkept : Kept (anyInode calm) sys.inodes sys'.inodes)
    (hcounts : sys'.inodes.counts = (give sys.inodes.refs node, give sys.inodes.opens node))
    (hok : SlotOk file)
    (hbefore : File.holds ((sys.table f).fdArray s) = none) (hafter : File.holds file = some node) :
    Balanced calm held sys' := by
  obtain ⟨hrefs, hopens⟩ := Prod.mk.inj hcounts
  have hopeners : ∀ n, sys'.openers n = sys.openers n + if node = n then 1 else 0 := by
    intro n
    have heq := hone.openers hf (n := n)
    rw [hbefore, hafter] at heq
    simpa using heq
  refine h.next hkept (hone.slotOk h.slot hok) ?_ ?_ ?_
  · intro n
    rw [hopens, give_apply, hopeners, h.opens]
  · intro n
    rw [hrefs, give_apply, hopeners, hone.dwellers, h.refs]
    omega
  · intro g hg n hn
    exact Or.inl (h.pwd g hg n ((hone.pwd g).symm.trans hn))

/-- A slot closes its inode. -/
theorem lose (h : Balanced calm held sys) (hone : OneSlot f s file sys sys')
    (hf : f ∈ sys.filesHeap) (hkept : Kept (anyInode calm) sys.inodes sys'.inodes)
    (hcounts : sys'.inodes.counts = (take sys.inodes.refs node, take sys.inodes.opens node))
    (hok : SlotOk file)
    (hbefore : File.holds ((sys.table f).fdArray s) = some node) (hafter : File.holds file = none) :
    Balanced calm held sys' := by
  obtain ⟨hrefs, hopens⟩ := Prod.mk.inj hcounts
  have hopeners : ∀ n, (sys'.openers n + if node = n then 1 else 0) = sys.openers n := by
    intro n
    have heq := hone.openers hf (n := n)
    rw [hbefore, hafter] at heq
    simpa using heq
  refine h.next hkept (hone.slotOk h.slot hok) ?_ ?_ ?_
  · intro n
    rw [hopens, take_apply, h.opens, ← hopeners, Nat.add_sub_cancel]
  · intro n
    have heq := hopeners n
    rw [hrefs, take_apply, hone.dwellers, h.refs]
    omega
  · intro g hg n hn
    exact Or.inl (h.pwd g hg n ((hone.pwd g).symm.trans hn))

end Balanced

/-! ## Changes of current directories -/

/-- The slots of all tables are the same, but not the current directories. -/
structure SameFiles (sys sys' : Sys) : Prop where
  heap : sys'.filesHeap = sys.filesHeap
  fdArray : ∀ g, (sys'.table g).fdArray = (sys.table g).fdArray

theorem SameFiles.openers (h : SameFiles sys sys') : sys'.openers = sys.openers := by
  unfold Sys.openers Sys.slots
  rw [h.heap]
  refine tally_congr fun slot _ => ?_
  unfold Sys.opener
  rw [h.fdArray]

/-- References move with the current directories. -/
theorem Balanced.dwell {held' : Finset Filesp} (h : Balanced calm held sys)
    (hsame : SameFiles sys sys')
    (hkept : Kept (anyInode calm) sys.inodes sys'.inodes)
    (hopens : sys'.inodes.opens = sys.inodes.opens)
    (hrefs : ∀ n, sys'.inodes.refs n + sys.dwellers held n = sys.inodes.refs n +
      sys'.dwellers held' n)
    (hpwd : ∀ f ∈ held', ∀ n, (sys'.table f).pwd = some n →
      (∃ sin, sys.inodes.info n = .sfsInode sin) ∨ ∃ sin, sys'.inodes.info n = .sfsInode sin) :
    Balanced calm held' sys' := by
  refine h.next hkept ?_ ?_ ?_ hpwd
  · intro g hg s
    rw [hsame.fdArray]
    exact h.slot g (hsame.heap ▸ hg) s
  · intro n
    rw [hopens, hsame.openers, h.opens]
  · intro n
    have hmoved := hrefs n
    have hall := h.refs n
    rw [hsame.openers]
    omega

/-- Neither the inodes nor what tables hold changes. -/
theorem Balanced.congr (h : Balanced calm held sys) (hsame : SameFiles sys sys')
    (hinodes : sys'.inodes = sys.inodes)
    (hpwd : ∀ g ∈ held, (sys'.table g).pwd = (sys.table g).pwd) :
    Balanced calm held sys' := by
  refine h.dwell hsame ?_ ?_ ?_ ?_
  · rw [hinodes]
    exact ⟨h.sound, Steady.refl _⟩
  · rw [hinodes]
  · intro n
    rw [hinodes, Sys.dwellers, Sys.dwellers, tally_congr hpwd]
  · intro g hg n hn
    exact Or.inl (h.pwd g hg n ((hpwd g hg).symm.trans hn))

/-- The current directory of the table `f` is set. -/
def Sys.setPwd (sys : Sys) (f : Filesp) (pwd : Option Node) : Sys :=
  sys.setTable f { sys.table f with pwd := pwd }

theorem setPwd_pwd {pwd : Option Node} :
    ((sys.setPwd f pwd).table g).pwd = if g = f then pwd else (sys.table g).pwd := by
  by_cases hg : g = f
  · subst hg
    simp [Sys.setPwd, Sys.setTable]
  · simp [Sys.setPwd, Sys.setTable, hg]

theorem setPwd_files {pwd : Option Node} : SameFiles sys (sys.setPwd f pwd) := by
  refine ⟨rfl, fun g => ?_⟩
  by_cases hg : g = f
  · subst hg
    simp [Sys.setPwd, Sys.setTable]
  · simp [Sys.setPwd, Sys.setTable, hg]

theorem setPwd_dwellers {pwd : Option Node} (hf : f ∈ held) :
    ((sys.setPwd f pwd).dwellers held n + if (sys.table f).pwd = some n then 1 else 0) =
      sys.dwellers held n + if pwd = some n then 1 else 0 := by
  have hother : ∀ g ∈ held, g ≠ f → ((sys.setPwd f pwd).table g).pwd = (sys.table g).pwd :=
    fun g _ hg => by
    rw [setPwd_pwd, if_neg hg]
  have hchange := tally_change (d := n) hf hother
  rw [setPwd_pwd, if_pos rfl] at hchange
  exact hchange

theorem SameFiles.of_inodes (h : SameFiles sys sys') (inodes : Inodes) :
    SameFiles sys { sys' with inodes := inodes } := ⟨h.heap, h.fdArray⟩

/-- A current directory changes, and the inodes with it. -/
theorem Balanced.setPwd {pwd : Option Node} {inodes : Inodes} (h : Balanced calm held sys)
    (hf : f ∈ held)
    (hkept : Kept (anyInode calm) sys.inodes inodes) (hopens : inodes.opens = sys.inodes.opens)
    (hrefs : ∀ n, (inodes.refs n + if (sys.table f).pwd = some n then 1 else 0) =
      sys.inodes.refs n + if pwd = some n then 1 else 0)
    (hpwd : ∀ n, pwd = some n → (∃ sin, sys.inodes.info n = .sfsInode sin) ∨
      ∃ sin, inodes.info n = .sfsInode sin) :
    Balanced calm held { sys.setPwd f pwd with inodes := inodes } := by
  refine h.dwell (setPwd_files.of_inodes inodes) hkept hopens ?_ ?_
  · intro n
    have hmoved := hrefs n
    have hdwellers : ((sys.setPwd f pwd).dwellers held n + if (sys.table f).pwd =
        some n then 1 else 0) =
      sys.dwellers held n + if pwd = some n then 1 else 0 := setPwd_dwellers hf
    change inodes.refs n + _ = _ + (sys.setPwd f pwd).dwellers held n
    omega
  · intro g hg n hn
    have hn : ((sys.setPwd f pwd).table g).pwd = some n := hn
    rw [setPwd_pwd] at hn
    split at hn
    · exact hpwd n hn
    · exact Or.inl (h.pwd g hg n hn)

/-- The references after a current directory has moved. -/
theorem movedRefs_apply {refs : Node → Nat} {pwd : Option Node}
    (hpos : ∀ old, pwd = some old → 0 < refs old) :
    (movedRefs refs pwd node n + if pwd = some n then 1 else 0) =
      refs n + if some node = some n then 1 else 0 := by
  cases pwd with
  | none =>
      rw [movedRefs, give_apply]
      simp
  | some old =>
      have hold := hpos old rfl
      rw [movedRefs, take_apply, give_apply]
      by_cases hn : old = n
      · subst hn
        simp only [if_true, Option.some.injEq]
        omega
      · simp [hn]

end Ucore.Vfs
