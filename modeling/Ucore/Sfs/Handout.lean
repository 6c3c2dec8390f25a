import Mathlib.Data.List.GetD
import Ucore.Sfs.Mksfs

/-!
# The numbers the image builder hands out

Every block number has one use: an inode, an index block, or one block of one file. All
of them, but for the root inode, were handed out by `sfs_alloc_ino`, and what was handed
out are the numbers from the end of the freemap to `next_ino`.
-/

namespace Ucore.Sfs.Mksfs

open Machine

/-- The first number that is handed out. -/
def Tool.start (s : Tool) : Nat := firstIno s.ninos.toNat

/-- The number is that of a cached inode. -/
def Tool.Listed (s : Tool) (n : BitVec 32) : Prop := ∃ b, n ∈ s.inodes b

/-- The number is that of a cached block. -/
def Tool.Cached (s : Tool) (n : BitVec 32) : Prop := ∃ b, n ∈ s.blocks b

/-- What a block is for: an inode, an index block, or block `i` of a file. -/
inductive Use
  | inode (n : BitVec 32)
  | index (n : BitVec 32)
  | data (file : BitVec 32) (i : Nat)

def Tool.Used (s : Tool) : Use → Prop
  | .inode n => s.Listed n
  | .index n => s.Cached n
  | .data file i => s.Listed file ∧ i < (s.inode file).appended.length

def Tool.number (s : Tool) : Use → BitVec 32
  | .inode n => n
  | .index n => n
  | .data file i => (s.inode file).appended.getD i 0

/-- The counters, the chains and the uses of the numbers agree. -/
structure Accounted (s : Tool) : Prop where
  small : s.ninos.toNat ≤ SFS_MAX_NBLKS
  magic : s.super.magic = SFS_MAGIC
  blocks : s.super.blocks = s.ninos
  unused : s.super.unusedBlocks.toNat = s.ninos.toNat - s.nextIno.toNat
  start_le : s.start ≤ s.nextIno.toNat
  nextIno_le : s.nextIno.toNat ≤ s.ninos.toNat
  handed_nodup : s.handed.Nodup
  mem_handed : ∀ n, n ∈ s.handed ↔ s.start ≤ n.toNat ∧ n.toNat < s.nextIno.toNat
  inodes_bucket : ∀ b n, n ∈ s.inodes b → b = hash64 (s.inode n).real
  inodes_nodup : ∀ b, (s.inodes b).Nodup
  blocks_bucket : ∀ b n, n ∈ s.blocks b → b = hash32 0
  blocks_nodup : ∀ b, (s.blocks b).Nodup
  root : s.Listed rootIno
  number_mem : ∀ u, s.Used u → u ≠ .inode rootIno → s.number u ∈ s.handed
  number_inj : ∀ u v, s.Used u → s.Used v → s.number u = s.number v → u = v

/-- The number was handed out by `sfs_alloc_ino`, and nothing in the image uses it yet. -/
structure Fresh (s : Tool) (n : BitVec 32) : Prop where
  handed : n ∈ s.handed
  unused : ∀ u, s.Used u → s.number u ≠ n

theorem hash32_lt (val : BitVec 32) : hash32 val < HASH_LIST_SIZE := by
  have hlt := ((val * 0x9e370001) : BitVec 32).isLt
  unfold hash32 HASH_LIST_SIZE
  rw [BitVec.toNat_ushiftRight, Nat.shiftRight_eq_div_pow]
  omega

theorem firstIno_pos (ninos : Nat) : 2 ≤ firstIno ninos := Nat.le_add_right _ _

theorem getD_concat (numbers : List (BitVec 32)) (n : BitVec 32) (i : Nat) :
    (numbers ++ [n]).getD i 0 = if i = numbers.length then n else numbers.getD i 0 := by
  by_cases hlt : i < numbers.length
  · rw [List.getD_append _ _ _ _ hlt, if_neg (by omega)]
  · rw [List.getD_append_right _ _ _ _ (by omega)]
    split
    case isTrue heq => simp [heq]
    case isFalse hne =>
      have hpast : [n].length ≤ i - numbers.length := by
        rw [List.length_singleton]
        omega
      rw [List.getD_eq_default _ _ hpast, List.getD_eq_default _ _ (by omega)]

section Steps

variable {s t : Tool} {n m file : BitVec 32}

theorem Accounted.pos (hs : Accounted s) (hn : n ∈ s.handed) : 2 ≤ n.toNat :=
  (firstIno_pos _).trans ((hs.mem_handed n).mp hn).1

theorem Accounted.ne_zero (hs : Accounted s) (hn : n ∈ s.handed) : n ≠ 0 := by
  intro hzero
  have hpos := hs.pos hn
  rw [hzero] at hpos
  simp at hpos

/-- Only the counters, the chains and the numbers of the files matter. -/
theorem Accounted.congr (hs : Accounted s) (inode : BitVec 32 → CacheInode)
    (cache : BitVec 32 → Bytes) (entry : Bytes) (img : Blocks)
    (hreal : ∀ n, (inode n).real = (s.inode n).real)
    (happended : ∀ n, (inode n).appended = (s.inode n).appended) :
    Accounted { s with inode, cache, entry, img } := by
  have hused : ∀ u, ({ s with inode, cache, entry, img } : Tool).Used u ↔ s.Used u := by
    intro u
    cases u with
    | inode n => exact Iff.rfl
    | index n => exact Iff.rfl
    | data file i =>
        show s.Listed file ∧ i < (inode file).appended.length ↔ _
        rw [happended file]
        exact Iff.rfl
  have hnumber : ∀ u, ({ s with inode, cache, entry, img } : Tool).number u = s.number u := by
    intro u
    cases u with
    | inode n => rfl
    | index n => rfl
    | data file i =>
        show (inode file).appended.getD i 0 = _
        rw [happended file]
        rfl
  exact { hs with
    inodes_bucket := by
      intro b n hn
      rw [hreal]
      exact hs.inodes_bucket b n hn
    number_mem := by
      intro u hu hne
      rw [hnumber]
      exact hs.number_mem u ((hused u).mp hu) hne
    number_inj := by
      intro u v hu hv heq
      rw [hnumber, hnumber] at heq
      exact hs.number_inj u v ((hused u).mp hu) ((hused v).mp hv) heq }

/-- Handing out the next number. -/
theorem Accounted.hand (hs : Accounted s) (hroom : s.nextIno < s.ninos) :
    Accounted s.hand ∧ Fresh s.hand s.nextIno ∧ s.nextIno ∉ s.handed := by
  have hlt : s.nextIno.toNat < s.ninos.toNat := hroom
  have hsmall := hs.small
  have hnext : (s.nextIno + 1).toNat = s.nextIno.toNat + 1 := by
    unfold SFS_MAX_NBLKS at hsmall
    rw [BitVec.toNat_add]
    exact Nat.mod_eq_of_lt (by simp; omega)
  have hunused : (s.super.unusedBlocks - 1).toNat = s.super.unusedBlocks.toNat - 1 := by
    have hpos := hs.unused
    have hbound := s.super.unusedBlocks.isLt
    have hone : (1 : BitVec 32).toNat = 1 := rfl
    rw [BitVec.toNat_sub, hone]
    omega
  have hnew : s.nextIno ∉ s.handed := by
    rw [hs.mem_handed]
    omega
  refine ⟨?_, ⟨List.mem_cons_self, ?_⟩, hnew⟩
  · exact {
      small := hs.small
      magic := hs.magic
      blocks := hs.blocks
      unused := by
        have hold := hs.unused
        show (s.super.unusedBlocks - 1).toNat = s.ninos.toNat - (s.nextIno + 1).toNat
        omega
      start_le := by
        have hold := hs.start_le
        show s.start ≤ (s.nextIno + 1).toNat
        omega
      nextIno_le := by
        show (s.nextIno + 1).toNat ≤ s.ninos.toNat
        omega
      handed_nodup := List.nodup_cons.mpr ⟨hnew, hs.handed_nodup⟩
      mem_handed := by
        intro n
        have hold := hs.mem_handed n
        have hstart := hs.start_le
        show n ∈ s.nextIno :: s.handed ↔ s.start ≤ n.toNat ∧ n.toNat < (s.nextIno + 1).toNat
        rw [List.mem_cons, hold, hnext, ← BitVec.toNat_inj]
        omega
      inodes_bucket := hs.inodes_bucket
      inodes_nodup := hs.inodes_nodup
      blocks_bucket := hs.blocks_bucket
      blocks_nodup := hs.blocks_nodup
      root := hs.root
      number_mem := fun u hu hne => List.mem_cons_of_mem _ (hs.number_mem u hu hne)
      number_inj := hs.number_inj }
  · intro u hu heq
    by_cases hroot : u = .inode rootIno
    · rw [hroot] at heq
      have heq : rootIno = s.nextIno := heq
      have hpos := firstIno_pos s.ninos.toNat
      have hstart := hs.start_le
      unfold Tool.start at hstart
      rw [← heq] at hstart
      have hone : rootIno.toNat = 1 := by decide
      omega
    · exact hnew (heq ▸ hs.number_mem u hu hroot)

theorem Fresh.hand (hn : Fresh s n) : Fresh s.hand n :=
  ⟨List.mem_cons_of_mem _ hn.handed, hn.unused⟩

theorem Fresh.not_listed (hn : Fresh s n) : ¬s.Listed n :=
    fun hlisted => hn.unused (.inode n) hlisted rfl

theorem Fresh.not_cached (hn : Fresh s n) : ¬s.Cached n :=
    fun hcached => hn.unused (.index n) hcached rfl

/-- A fresh number gets a use: what else is used and its number is as before. -/
theorem Accounted.use {new : Use} (hs : Accounted s) (hn : Fresh s n)
    (hused : ∀ u, t.Used u → s.Used u ∧ t.number u = s.number u ∨ u = new ∧ t.number u = n)
    (hhanded : t.handed = s.handed) :
    (∀ u, t.Used u → u ≠ .inode rootIno → t.number u ∈ t.handed) ∧
      ∀ u v, t.Used u → t.Used v → t.number u = t.number v → u = v := by
  constructor
  · intro u hu hne
    rw [hhanded]
    rcases hused u hu with ⟨hold, hnumber⟩ | ⟨-, hnumber⟩
    · exact hnumber ▸ hs.number_mem u hold hne
    · exact hnumber ▸ hn.handed
  · intro u v hu hv heq
    rcases hused u hu with ⟨hu, hnu⟩ | ⟨hu, hnu⟩
    · rcases hused v hv with ⟨hv, hnv⟩ | ⟨hv, hnv⟩
      · exact hs.number_inj u v hu hv (hnu.symm.trans (heq.trans hnv))
      · exact absurd (hnu.symm.trans (heq.trans hnv)) (hn.unused u hu)
    · rcases hused v hv with ⟨hv, hnv⟩ | ⟨hv, hnv⟩
      · exact absurd (hnv.symm.trans (heq.symm.trans hnu)) (hn.unused v hv)
      · exact hu.trans hv.symm

/-- Putting a number in front of a chain. -/
theorem mem_chains (chains : Nat → List (BitVec 32)) (bucket : Nat) (n m : BitVec 32) :
    (∃ b, m ∈ Function.update chains bucket (n :: chains bucket) b) ↔ m = n ∨
      ∃ b, m ∈ chains b := by
  constructor
  · intro ⟨b, hm⟩
    rw [Function.update_apply] at hm
    split at hm
    case isTrue hb => exact (List.mem_cons.mp hm).imp_right fun hmem => ⟨_, hmem⟩
    case isFalse => exact .inr ⟨b, hm⟩
  · intro hm
    rcases hm with rfl | ⟨b, hm⟩
    · exact ⟨bucket, by simp⟩
    · refine ⟨b, ?_⟩
      rw [Function.update_apply]
      split
      case isTrue hb => exact List.mem_cons_of_mem _ (hb ▸ hm)
      case isFalse => exact hm

theorem nodup_chains {chains : Nat → List (BitVec 32)} (bucket : Nat) {n : BitVec 32}
    (hnodup : ∀ b, (chains b).Nodup) (hn : ¬∃ b, n ∈ chains b) (b : Nat) :
    (Function.update chains bucket (n :: chains bucket) b).Nodup := by
  rw [Function.update_apply]
  split
  case isTrue => exact List.nodup_cons.mpr ⟨fun hmem => hn ⟨_, hmem⟩, hnodup bucket⟩
  case isFalse => exact hnodup b

theorem listed_newInode (s : Tool) (real : BitVec 64) (type : BitVec 16) (n m : BitVec 32) :
    (s.newInode real type n).Listed m ↔ m = n ∨ s.Listed m := mem_chains s.inodes _ n m

theorem cached_newBlock (s : Tool) (bucket : Nat) (n m : BitVec 32) :
    (s.newBlock bucket n).Cached m ↔ m = n ∨ s.Cached m := mem_chains s.blocks _ n m

theorem newInode_inode (s : Tool) (real : BitVec 64) (type : BitVec 16) (n m : BitVec 32) :
    (s.newInode real type n).inode m = if m = n then emptyInode real type else s.inode m :=
  Function.update_apply s.inode n _ m

theorem Accounted.newBlock (hs : Accounted s) (hn : Fresh s n) :
    Accounted (s.newBlock (hash32 0) n) := by
  have hused : ∀ u, (s.newBlock (hash32 0) n).Used u →
      s.Used u ∧ (s.newBlock (hash32 0) n).number u = s.number u ∨
        u = .index n ∧ (s.newBlock (hash32 0) n).number u = n := by
    intro u hu
    cases u with
    | inode m => exact .inl ⟨hu, rfl⟩
    | data file i => exact .inl ⟨hu, rfl⟩
    | index m =>
        rcases (cached_newBlock s _ n m).mp hu with rfl | hold
        · exact .inr ⟨rfl, rfl⟩
        · exact .inl ⟨hold, rfl⟩
  obtain ⟨hmem, hinj⟩ := hs.use hn hused rfl
  exact { hs with
    blocks_bucket := by
      intro b m hm
      change m ∈ Function.update s.blocks (hash32 0) (n :: s.blocks (hash32 0)) b at hm
      rw [Function.update_apply] at hm
      split at hm
      case isTrue hb => exact hb
      case isFalse => exact hs.blocks_bucket b m hm
    blocks_nodup := nodup_chains _ hs.blocks_nodup hn.not_cached
    number_mem := hmem
    number_inj := hinj }

theorem Accounted.newInode (hs : Accounted s) (hn : Fresh s n) (real : BitVec 64)
    (type : BitVec 16) : Accounted (s.newInode real type n) := by
  have hother : ∀ m, s.Listed m → (s.newInode real type n).inode m = s.inode m := by
    intro m hm
    rw [newInode_inode, if_neg fun heq : m = n => hn.not_listed (heq ▸ hm)]
  have hused : ∀ u, (s.newInode real type n).Used u →
      s.Used u ∧ (s.newInode real type n).number u = s.number u ∨
        u = .inode n ∧ (s.newInode real type n).number u = n := by
    intro u hu
    cases u with
    | index m => exact .inl ⟨hu, rfl⟩
    | inode m =>
        rcases (listed_newInode s real type n m).mp hu with rfl | hold
        · exact .inr ⟨rfl, rfl⟩
        · exact .inl ⟨hold, rfl⟩
    | data file i =>
        obtain ⟨hlisted, hi⟩ := hu
        rcases (listed_newInode s real type n file).mp hlisted with rfl | hold
        · rw [newInode_inode, if_pos rfl] at hi
          exact absurd hi (Nat.not_lt_zero i)
        · rw [hother file hold] at hi
          refine .inl ⟨⟨hold, hi⟩, ?_⟩
          show ((s.newInode real type n).inode file).appended.getD i 0 = _
          rw [hother file hold]
          rfl
  obtain ⟨hmem, hinj⟩ := hs.use hn hused rfl
  exact { hs with
    inodes_bucket := by
      intro b m hm
      change m ∈ Function.update s.inodes (hash64 real) (n :: s.inodes (hash64 real)) b at hm
      rw [newInode_inode]
      rw [Function.update_apply] at hm
      split at hm
      case isTrue hb =>
        split
        case isTrue => exact hb
        case isFalse hne =>
          rw [hb]
          exact hs.inodes_bucket _ m ((List.mem_cons.mp hm).resolve_left hne)
      case isFalse =>
        rw [if_neg fun heq : m = n => hn.not_listed ⟨b, heq ▸ hm⟩]
        exact hs.inodes_bucket b m hm
    inodes_nodup := nodup_chains _ hs.inodes_nodup hn.not_listed
    root := (listed_newInode s real type n rootIno).mpr (.inr hs.root)
    number_mem := hmem
    number_inj := hinj }

/-- One more number for a file. -/
theorem Accounted.append (hs : Accounted s) (hn : Fresh s n) {ci : CacheInode}
    (hreal : ci.real = (s.inode file).real)
    (happended : ci.appended = (s.inode file).appended ++ [n]) :
    Accounted (s.setInode file ci) := by
  have hinode : ∀ m, (s.setInode file ci).inode m = if m = file then ci else s.inode m :=
    Function.update_apply s.inode file ci
  have hused : ∀ u, (s.setInode file ci).Used u →
      s.Used u ∧ (s.setInode file ci).number u = s.number u ∨
        u = .data file (s.inode file).appended.length ∧ (s.setInode file ci).number u = n := by
    intro u hu
    cases u with
    | inode m => exact .inl ⟨hu, rfl⟩
    | index m => exact .inl ⟨hu, rfl⟩
    | data f i =>
        obtain ⟨hlisted, hi⟩ := hu
        change s.Listed f at hlisted
        have hnumber : (s.setInode file ci).number (.data f i) =
            ((s.setInode file ci).inode f).appended.getD i 0 := rfl
        rw [hinode] at hi hnumber
        split at hi
        case isFalse hne =>
          rw [if_neg hne] at hnumber
          exact .inl ⟨⟨hlisted, hi⟩, hnumber⟩
        case isTrue heq =>
          subst heq
          rw [if_pos rfl, happended] at hnumber
          rw [happended, List.length_append, List.length_singleton] at hi
          by_cases hlast : i = (s.inode f).appended.length
          · subst hlast
            exact .inr ⟨rfl, by rw [hnumber, getD_concat, if_pos rfl]⟩
          · exact .inl ⟨⟨hlisted, by omega⟩, by rw [hnumber, getD_concat, if_neg hlast]; rfl⟩
  obtain ⟨hmem, hinj⟩ := hs.use hn hused rfl
  exact { hs with
    inodes_bucket := by
      intro b m hm
      rw [hinode]
      split
      case isTrue heq =>
        rw [hreal, ← heq]
        exact hs.inodes_bucket b m hm
      case isFalse => exact hs.inodes_bucket b m hm
    number_mem := hmem
    number_inj := hinj }

theorem sfsAllocIno_spec :
    Ends (· = .outOfSpace) sfsAllocIno s fun n t =>
      s.nextIno < s.ninos ∧ n = s.nextIno ∧ t = s.hand := by
  rw [sfsAllocIno, ends_bind, ends_get]
  split
  case isTrue hroom => exact ⟨hroom, rfl, rfl⟩
  case isFalse => exact rfl

end Steps

end Ucore.Sfs.Mksfs
