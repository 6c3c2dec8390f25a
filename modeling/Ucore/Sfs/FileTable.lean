import Ucore.Sfs.Handout

/-!
# The block map that `append_block` builds

The numbers given to `append_block` are in the direct slots, in the indirect block and in
the blocks of the double indirect one. The cached block that `update_cache` is asked for
is the one the inode has at hand, so it is never searched.
-/

namespace Ucore.Sfs.Mksfs

open Machine

/-- The inode has the number in one of its pointers. -/
structure CacheInode.Points (ci : CacheInode) (n : BitVec 32) : Prop where
  ne_zero : n ≠ 0
  pointed : n = ci.inode.indirect ∨ n = ci.inode.dbIndirect ∨ ci.l1 = some n

/-- The double indirect block: its last word in use is the block at hand. -/
structure Double (cache : BitVec 32 → Bytes) (ci : CacheInode) : Prop where
  db_ne_zero : ci.inode.dbIndirect ≠ 0
  db_ne_indirect : ci.inode.dbIndirect ≠ ci.inode.indirect
  l2 : ci.l2 = some ci.inode.dbIndirect
  l1_ne_zero : word (cache ci.inode.dbIndirect) ((ci.nblks - SFS_L1_NBLKS - 1) / SFS_BLK_NENTRY) ≠ 0
  l1 : ci.l1 =
    some (word (cache ci.inode.dbIndirect) ((ci.nblks - SFS_L1_NBLKS - 1) / SFS_BLK_NENTRY))
  l1_ne_indirect : ci.l1 ≠ some ci.inode.indirect
  l1_ne_db : ci.l1 ≠ some ci.inode.dbIndirect
  unfilled : ∀ j, (ci.nblks - SFS_L1_NBLKS - 1) / SFS_BLK_NENTRY < j →
    word (cache ci.inode.dbIndirect) j = 0

/-- The inode and the cached blocks hold the numbers that were appended. -/
structure FileOk (cache : BitVec 32 → Bytes) (ci : CacheInode) : Prop where
  nblks : ci.nblks = ci.appended.length
  nblks_le : ci.nblks ≤ SFS_LN_NBLKS
  blocks : ci.inode.blocks = BitVec.ofNat 32 ci.nblks
  direct : ∀ i : Fin SFS_NDIRECT, ci.inode.direct i = ci.appended.getD i 0
  short : ci.nblks ≤ SFS_L0_NBLKS → ci.inode.indirect = 0 ∧ ci.l1 = none
  indirect_ne_zero : SFS_L0_NBLKS < ci.nblks → ci.inode.indirect ≠ 0
  indirect : SFS_L0_NBLKS < ci.nblks → ∀ j < SFS_BLK_NENTRY,
    word (cache ci.inode.indirect) j = ci.appended.getD (SFS_L0_NBLKS + j) 0
  l1 : SFS_L0_NBLKS < ci.nblks → ci.nblks ≤ SFS_L1_NBLKS → ci.l1 = some ci.inode.indirect
  single : ci.nblks ≤ SFS_L1_NBLKS → ci.inode.dbIndirect = 0
  double : SFS_L1_NBLKS < ci.nblks → Double cache ci

/-- A file has its own index blocks. -/
structure Filed (s : Tool) : Prop where
  files : ∀ f, s.Listed f → FileOk s.cache (s.inode f)
  cached : ∀ f n, s.Listed f → (s.inode f).Points n → s.Cached n
  apart : ∀ f g n, s.Listed f → s.Listed g → (s.inode f).Points n → (s.inode g).Points n → f = g

/-- An index block that no file has yet. -/
structure Orphan (s : Tool) (n : BitVec 32) : Prop where
  cached : s.Cached n
  apart : ∀ f, s.Listed f → ¬(s.inode f).Points n

section Files

variable {cache cache' : BitVec 32 → Bytes} {ci : CacheInode} {n ino : BitVec 32} {size : Nat}

theorem Double.points_db (hci : Double cache ci) : ci.Points ci.inode.dbIndirect :=
  ⟨hci.db_ne_zero, .inr (.inl rfl)⟩

/-- A file reads only the index blocks it points to. -/
theorem FileOk.congr (hci : FileOk cache ci) (hsame : ∀ n, ci.Points n → cache' n = cache n) :
    FileOk cache' ci := by
  have hdouble : SFS_L1_NBLKS < ci.nblks → Double cache' ci := by
    intro hlong
    have hold := hci.double hlong
    have hdb := hsame _ hold.points_db
    exact { hold with
      l1_ne_zero := hdb ▸ hold.l1_ne_zero
      l1 := hdb ▸ hold.l1
      unfilled := hdb ▸ hold.unfilled }
  exact { hci with
    indirect := by
      intro hlong
      rw [hsame _ ⟨hci.indirect_ne_zero hlong, .inl rfl⟩]
      exact hci.indirect hlong
    double := hdouble }

theorem FileOk.empty (cache : BitVec 32 → Bytes) (real : BitVec 64) (type : BitVec 16) :
    FileOk cache (emptyInode real type) where
  nblks := rfl
  nblks_le := Nat.zero_le _
  blocks := rfl
  direct _ := rfl
  short _ := ⟨rfl, rfl⟩
  indirect_ne_zero h := absurd h (Nat.not_lt_zero _)
  indirect h := absurd h (Nat.not_lt_zero _)
  l1 h := absurd h (Nat.not_lt_zero _)
  single _ := rfl
  double h := absurd h (Nat.not_lt_zero _)

theorem emptyInode_points (real : BitVec 64) (type : BitVec 16) (n : BitVec 32) :
    ¬(emptyInode real type).Points n := by
  intro hpoints
  rcases hpoints.pointed with heq | heq | heq
  · exact hpoints.ne_zero heq
  · exact hpoints.ne_zero heq
  · cases heq

theorem FileOk.grow_nblks (hci : FileOk cache ci) :
    ci.nblks + 1 = (ci.appended ++ [ino]).length := by
  rw [List.length_append, hci.nblks, List.length_singleton]

theorem FileOk.grow_blocks (hci : FileOk cache ci) :
    ci.inode.blocks + 1 = BitVec.ofNat 32 (ci.nblks + 1) := by
  rw [hci.blocks, BitVec.ofNat_add]
  rfl

/-- Past the direct slots they stay as they are. -/
theorem FileOk.grow_direct (hci : FileOk cache ci) (hlow : SFS_L0_NBLKS ≤ ci.nblks)
    (i : Fin SFS_NDIRECT) : ci.inode.direct i = (ci.appended ++ [ino]).getD i 0 := by
  have hi : i.val < SFS_L0_NBLKS := i.isLt
  rw [getD_concat, ← hci.nblks, if_neg (by omega), hci.direct i]

/-- A number in a direct slot. -/
theorem FileOk.growDirect (hci : FileOk cache ci) (hlt : ci.nblks < SFS_L0_NBLKS) :
    FileOk cache (CacheInode.grow
      { ci with inode := { ci.inode with
          direct := Function.update ci.inode.direct ⟨ci.nblks, hlt⟩ ino } } size ino) := by
  have hL1 : SFS_L0_NBLKS ≤ SFS_L1_NBLKS := by decide
  have hLN : SFS_L0_NBLKS ≤ SFS_LN_NBLKS := by decide
  have hshort : ¬SFS_L0_NBLKS < ci.nblks + 1 := by omega
  exact {
    nblks := hci.grow_nblks
    nblks_le := by
      show ci.nblks + 1 ≤ SFS_LN_NBLKS
      omega
    blocks := hci.grow_blocks
    direct := by
      intro i
      show Function.update ci.inode.direct ⟨ci.nblks, hlt⟩ ino i = (ci.appended ++ [ino]).getD i 0
      rw [Function.update_apply, getD_concat, ← hci.nblks, hci.direct i]
      by_cases heq : i.val = ci.nblks
      · rw [if_pos (Fin.ext heq), if_pos heq]
      · rw [if_neg fun h => heq (congrArg Fin.val h), if_neg heq]
    short := fun _ => hci.short hlt.le
    indirect_ne_zero := fun h => absurd h hshort
    indirect := fun h => absurd h hshort
    l1 := fun h => absurd h hshort
    single := fun _ => hci.single (hlt.le.trans hL1)
    double := by
      intro hlong
      change SFS_L1_NBLKS < ci.nblks + 1 at hlong
      omega }

/-- A number in the indirect block, which is new for the first one. -/
theorem FileOk.growIndirect (hci : FileOk cache ci) (hlow : SFS_L0_NBLKS ≤ ci.nblks)
    (hlt : ci.nblks < SFS_L1_NBLKS) (hn : n ≠ 0)
    (hnew : ci.nblks = SFS_L0_NBLKS → ∀ j, word (cache n) j = 0)
    (hold : SFS_L0_NBLKS < ci.nblks → n = ci.inode.indirect) :
    FileOk (Function.update cache n (setWord (cache n) (ci.nblks - SFS_L0_NBLKS) ino))
      (CacheInode.grow
        { ci with l1 := some n, inode := { ci.inode with indirect := n } } size ino) := by
  have hLN : SFS_L1_NBLKS ≤ SFS_LN_NBLKS := by decide
  exact {
    nblks := hci.grow_nblks
    nblks_le := by
      show ci.nblks + 1 ≤ SFS_LN_NBLKS
      omega
    blocks := hci.grow_blocks
    direct := hci.grow_direct hlow
    short := by
      intro hshort
      change ci.nblks + 1 ≤ SFS_L0_NBLKS at hshort
      omega
    indirect_ne_zero := fun _ => hn
    indirect := by
      intro _ j hj
      show word (Function.update cache n _ n) j = (ci.appended ++ [ino]).getD (SFS_L0_NBLKS + j) 0
      rw [Function.update_self n _ cache, word_setWord, getD_concat, ← hci.nblks]
      by_cases heq : j = ci.nblks - SFS_L0_NBLKS
      · rw [if_pos heq, if_pos (by omega)]
      · rw [if_neg heq, if_neg (by omega)]
        rcases Nat.eq_or_lt_of_le hlow with hfirst | hlong
        · rw [hnew hfirst.symm, List.getD_eq_default _ _ (by rw [← hci.nblks]; omega)]
        · rw [hold hlong]
          exact hci.indirect hlong j hj
    l1 := fun _ _ => rfl
    single := fun _ => hci.single hlt.le
    double := by
      intro hlong
      change SFS_L1_NBLKS < ci.nblks + 1 at hlong
      omega }

/-- A number in a block of the double indirect one. -/
theorem FileOk.growDouble {l1 l2 : BitVec 32} (hci : FileOk cache ci)
    (hlow : SFS_L1_NBLKS ≤ ci.nblks) (hlt : ci.nblks < SFS_LN_NBLKS) (hl1 : l1 ≠ 0) (hl2 : l2 ≠ 0)
    (hne : l1 ≠ l2) (hl1' : l1 ≠ ci.inode.indirect) (hl2' : l2 ≠ ci.inode.indirect)
    (hunfilled : ∀ j, (ci.nblks - SFS_L1_NBLKS) / SFS_BLK_NENTRY < j → word (cache l2) j = 0)
    (w : BitVec 32) (k : Nat) :
    FileOk
      (Function.update (Function.update cache l2
        (setWord (cache l2) ((ci.nblks - SFS_L1_NBLKS) / SFS_BLK_NENTRY) l1)) l1
          (setWord (Function.update cache l2
            (setWord (cache l2) ((ci.nblks - SFS_L1_NBLKS) / SFS_BLK_NENTRY) l1) l1) k w))
      (CacheInode.grow
        { ci with l1 := some l1, l2 := some l2, inode := { ci.inode with dbIndirect := l2 } } size
          ino) := by
  have hL1 : SFS_L0_NBLKS ≤ SFS_L1_NBLKS := by decide
  have hL0 : SFS_L0_NBLKS < ci.nblks := by
    have : SFS_L0_NBLKS < SFS_L1_NBLKS := by decide
    omega
  have hprev : ci.nblks + 1 - SFS_L1_NBLKS - 1 = ci.nblks - SFS_L1_NBLKS := by omega
  -- the block of `l2` after the two stores
  have hdata2 : Function.update (Function.update cache l2
      (setWord (cache l2) ((ci.nblks - SFS_L1_NBLKS) / SFS_BLK_NENTRY) l1)) l1
        (setWord (Function.update cache l2
          (setWord (cache l2) ((ci.nblks - SFS_L1_NBLKS) / SFS_BLK_NENTRY) l1) l1) k w) l2 =
      setWord (cache l2) ((ci.nblks - SFS_L1_NBLKS) / SFS_BLK_NENTRY) l1 := by
    rw [Function.update_of_ne hne.symm, Function.update_self l2 _ cache]
  have hlast : word (setWord (cache l2) ((ci.nblks - SFS_L1_NBLKS) / SFS_BLK_NENTRY) l1)
      ((ci.nblks + 1 - SFS_L1_NBLKS - 1) / SFS_BLK_NENTRY) = l1 := by
    rw [hprev, word_setWord_self]
  exact {
    nblks := hci.grow_nblks
    nblks_le := hlt
    blocks := hci.grow_blocks
    direct := hci.grow_direct hL0.le
    short := by
      intro hshort
      change ci.nblks + 1 ≤ SFS_L0_NBLKS at hshort
      omega
    indirect_ne_zero := fun _ => hci.indirect_ne_zero hL0
    indirect := by
      intro _ j hj
      show word (Function.update (Function.update cache l2 _) l1 _ ci.inode.indirect) j =
        (ci.appended ++ [ino]).getD (SFS_L0_NBLKS + j) 0
      have hindex : j < SFS_L1_NBLKS - SFS_L0_NBLKS := hj
      rw [Function.update_of_ne hl1'.symm, Function.update_of_ne hl2'.symm, getD_concat,
        ← hci.nblks, if_neg (by omega)]
      exact hci.indirect hL0 j hj
    l1 := by
      intro _ hshort
      change ci.nblks + 1 ≤ SFS_L1_NBLKS at hshort
      omega
    single := by
      intro hshort
      change ci.nblks + 1 ≤ SFS_L1_NBLKS at hshort
      omega
    double := fun _ => {
      db_ne_zero := hl2
      db_ne_indirect := hl2'
      l2 := rfl
      l1_ne_zero := by
        show word (Function.update (Function.update cache l2 _) l1 _ l2) _ ≠ 0
        rw [hdata2]
        exact fun hzero => hl1 (hlast.symm.trans hzero)
      l1 := by
        show some l1 = some (word (Function.update (Function.update cache l2 _) l1 _ l2) _)
        rw [hdata2]
        exact congrArg some hlast.symm
      l1_ne_indirect := fun heq => hl1' (Option.some.inj heq)
      l1_ne_db := fun heq => hne (Option.some.inj heq)
      unfilled := by
        intro j hj
        show word (Function.update (Function.update cache l2 _) l1 _ l2) j = 0
        change (ci.nblks + 1 - SFS_L1_NBLKS - 1) / SFS_BLK_NENTRY < j at hj
        rw [hprev] at hj
        rw [hdata2, word_setWord_of_ne _ _ (Nat.ne_of_gt hj)]
        exact hunfilled j hj } }

end Files

/-! ## Steps -/

/-- The tool has handed out and filed what it should. -/
structure Built (s : Tool) : Prop where
  accounted : Accounted s
  filed : Filed s

section Steps

variable {s t : Tool} {n m file ino : BitVec 32}

theorem Built.hand (hs : Built s) (hroom : s.nextIno < s.ninos) : Built s.hand :=
  ⟨(hs.accounted.hand hroom).1, hs.filed.files, hs.filed.cached, hs.filed.apart⟩

theorem Built.newInode (hs : Built s) (hn : Fresh s n) (real : BitVec 64) (type : BitVec 16) :
    Built (s.newInode real type n) := by
  have hold : ∀ f, (s.newInode real type n).Listed f →
      f = n ∧ (s.newInode real type n).inode f = emptyInode real type ∨
        s.Listed f ∧ (s.newInode real type n).inode f = s.inode f := by
    intro f hf
    rw [newInode_inode]
    by_cases heq : f = n
    · exact .inl ⟨heq, if_pos heq⟩
    · exact .inr ⟨((listed_newInode s real type n f).mp hf).resolve_left heq, if_neg heq⟩
  refine ⟨hs.accounted.newInode hn real type, ?_, ?_, ?_⟩
  · intro f hf
    rcases hold f hf with ⟨-, hinode⟩ | ⟨hf, hinode⟩
    · rw [hinode]
      exact FileOk.empty _ real type
    · rw [hinode]
      exact hs.filed.files f hf
  · intro f m hf hpoints
    rcases hold f hf with ⟨-, hinode⟩ | ⟨hf, hinode⟩
    · exact absurd (hinode ▸ hpoints) (emptyInode_points real type m)
    · exact hs.filed.cached f m hf (hinode ▸ hpoints)
  · intro f g m hf hg hpf hpg
    rcases hold f hf with ⟨-, hinode⟩ | ⟨hf, hinodef⟩
    · exact absurd (hinode ▸ hpf) (emptyInode_points real type m)
    · rcases hold g hg with ⟨-, hinode⟩ | ⟨hg, hinodeg⟩
      · exact absurd (hinode ▸ hpg) (emptyInode_points real type m)
      · exact hs.filed.apart f g m hf hg (hinodef ▸ hpf) (hinodeg ▸ hpg)

theorem Built.newBlock (hs : Built s) (hn : Fresh s n) :
    Built (s.newBlock (hash32 0) n) ∧ Orphan (s.newBlock (hash32 0) n) n := by
  have hcached : ∀ m, s.Cached m → (s.newBlock (hash32 0) n).Cached m := fun m hm =>
    (cached_newBlock s _ n m).mpr (.inr hm)
  refine ⟨⟨hs.accounted.newBlock hn, ?_, ?_, ?_⟩, ?_, ?_⟩
  · intro f hf
    apply (hs.filed.files f hf).congr
    intro m hpoints
    have hne : m ≠ n := fun heq => hn.not_cached (heq ▸ hs.filed.cached f m hf hpoints)
    exact Function.update_of_ne hne _ s.cache
  · intro f m hf hpoints
    exact hcached m (hs.filed.cached f m hf hpoints)
  · exact hs.filed.apart
  · exact (cached_newBlock s _ n n).mpr (.inl rfl)
  · intro f hf hpoints
    exact hn.not_cached (hs.filed.cached f n hf hpoints)

theorem Fresh.newBlock (hm : Fresh s m) (hne : m ≠ n) : Fresh (s.newBlock (hash32 0) n) m := by
  refine ⟨hm.handed, fun u hu => ?_⟩
  cases u with
  | inode k => exact hm.unused (.inode k) hu
  | data f i => exact hm.unused (.data f i) hu
  | index k =>
      intro heq
      have heq : k = m := heq
      rcases (cached_newBlock s _ n k).mp hu with hnew | hold
      · exact hne (heq.symm.trans hnew)
      · exact hm.unused (.index k) hold heq

/-- A file changes, with the index blocks it points to; a block it did not point to was
nobody's. -/
theorem Filed.setFile (hs : Filed s) (hfile : s.Listed file) {ci : CacheInode}
    {cache : BitVec 32 → Bytes} (hok : FileOk cache ci)
    (hcache : ∀ m, cache m ≠ s.cache m → ci.Points m)
    (hpoints : ∀ m, ci.Points m → (s.inode file).Points m ∨ Orphan s m) :
    Filed { s with inode := Function.update s.inode file ci, cache := cache } := by
  have hcached : ∀ m, ci.Points m → s.Cached m := fun m hm =>
    (hpoints m hm).elim (hs.cached file m hfile) fun horphan => horphan.cached
  have hother : ∀ g m, s.Listed g → g ≠ file → ci.Points m → ¬(s.inode g).Points m := by
    intro g m hg hne hm hgm
    rcases hpoints m hm with hold | horphan
    · exact hne (hs.apart g file m hg hfile hgm hold)
    · exact horphan.apart g hg hgm
  refine ⟨?_, ?_, ?_⟩
  · intro f hf
    show FileOk cache (Function.update s.inode file ci f)
    rw [Function.update_apply]
    split
    case isTrue => exact hok
    case isFalse hne =>
      apply (hs.files f hf).congr
      intro m hm
      by_contra hchanged
      exact hother f m hf hne (hcache m hchanged) hm
  · intro f m hf hm
    change (Function.update s.inode file ci f).Points m at hm
    rw [Function.update_apply] at hm
    split at hm
    case isTrue => exact hcached m hm
    case isFalse => exact hs.cached f m hf hm
  · intro f g m hf hg hfm hgm
    change (Function.update s.inode file ci f).Points m at hfm
    change (Function.update s.inode file ci g).Points m at hgm
    rw [Function.update_apply] at hfm hgm
    split at hfm
    case isTrue heqf =>
      split at hgm
      case isTrue heqg => exact heqf.trans heqg.symm
      case isFalse hneg => exact absurd hgm (hother g m hg hneg hfm)
    case isFalse hnef =>
      split at hgm
      case isTrue heqg => exact absurd hfm (hother f m hf hnef hgm)
      case isFalse => exact hs.apart f g m hf hg hfm hgm

/-! ## `update_cache` -/

/-- The tool after index blocks were allocated. -/
structure Extended (s t : Tool) : Prop where
  built : Built t
  inode : t.inode = s.inode
  inodes : t.inodes = s.inodes
  img : t.img = s.img
  entry : t.entry = s.entry
  ninos : t.ninos = s.ninos
  cached : ∀ m, s.Cached m → t.Cached m ∧ t.cache m = s.cache m
  fresh : ∀ m, Fresh s m → Fresh t m

theorem Extended.refl (hs : Built s) : Extended s s where
  built := hs
  inode := rfl
  inodes := rfl
  img := rfl
  entry := rfl
  ninos := rfl
  cached _ hm := ⟨hm, rfl⟩
  fresh _ hm := hm

theorem Extended.trans {u : Tool} (hst : Extended s t) (htu : Extended t u) : Extended s u where
  built := htu.built
  inode := htu.inode.trans hst.inode
  inodes := htu.inodes.trans hst.inodes
  img := htu.img.trans hst.img
  entry := htu.entry.trans hst.entry
  ninos := htu.ninos.trans hst.ninos
  cached m hm := ⟨(htu.cached m (hst.cached m hm).1).1,
    (htu.cached m (hst.cached m hm).1).2.trans (hst.cached m hm).2⟩
  fresh m hm := htu.fresh m (hst.fresh m hm)

theorem Extended.listed (hst : Extended s t) (f : BitVec 32) : t.Listed f ↔ s.Listed f := by
  unfold Tool.Listed
  rw [hst.inodes]

theorem Extended.orphan (hst : Extended s t) (hn : Orphan s n) : Orphan t n := by
  refine ⟨(hst.cached n hn.cached).1, fun f hf => ?_⟩
  rw [hst.inode]
  exact hn.apart f ((hst.listed f).mp hf)

theorem Built.extend (hs : Built s) (hroom : s.nextIno < s.ninos) :
    Extended s (s.hand.newBlock (hash32 0) s.nextIno) ∧
      Orphan (s.hand.newBlock (hash32 0) s.nextIno) s.nextIno := by
  obtain ⟨-, hfresh, hnew⟩ := hs.accounted.hand hroom
  obtain ⟨hbuilt, horphan⟩ := (hs.hand hroom).newBlock hfresh
  refine ⟨?_, horphan⟩
  exact {
    built := hbuilt
    inode := rfl
    inodes := rfl
    img := rfl
    entry := rfl
    ninos := rfl
    cached := by
      intro m hm
      have hne : m ≠ s.nextIno := fun heq => hfresh.not_cached (heq ▸ hm)
      exact ⟨(cached_newBlock s.hand _ _ m).mpr (.inr hm), Function.update_of_ne hne _ s.cache⟩
    fresh := fun m hm => hm.hand.newBlock fun heq => hnew (heq ▸ hm.handed) }

/-- The block at hand is taken, or a new one, filled with zeros, when there is none. -/
theorem updateCache_spec {cb : Option (BitVec 32)} (hs : Built s) (hcb : ino = 0 ∨ cb = some ino) :
    Ends (· = .outOfSpace) (updateCache cb ino) s fun n t => Extended s t ∧
      (ino ≠ 0 ∧ n = ino ∧ t = s ∨
        ino = 0 ∧ n ≠ 0 ∧ n ∉ s.handed ∧ Orphan t n ∧ ∀ j, word (t.cache n) j = 0) := by
  rw [updateCache]
  split
  case isTrue hzero =>
    rw [allocCacheBlock, if_neg (not_not_intro rfl), ends_bind]
    apply sfsAllocIno_spec.imp
    intro n t ht
    obtain ⟨hroom, rfl, rfl⟩ := ht
    obtain ⟨hextended, horphan⟩ := hs.extend hroom
    obtain ⟨haccounted, hfresh, hnew⟩ := hs.accounted.hand hroom
    refine ⟨hextended, .inr ⟨hzero, haccounted.ne_zero hfresh.handed, hnew, horphan, fun j => ?_⟩⟩
    show word (Function.update s.cache s.nextIno (fun _ => 0) s.nextIno) j = 0
    rw [Function.update_self s.nextIno _ s.cache, word_zero]
  case isFalse hne =>
    have hhave : cb = some ino := hcb.resolve_left hne
    rw [if_neg (not_not_intro hhave)]
    exact ⟨Extended.refl hs, .inl ⟨hne, rfl, rfl⟩⟩

/-! ## `append_block` -/

@[simp] theorem setInode_self (s : Tool) (file : BitVec 32) (ci : CacheInode) :
    (s.setInode file ci).inode file = ci := Function.update_self _ _ _

@[simp] theorem setInode_cache (s : Tool) (file : BitVec 32) (ci : CacheInode) :
    (s.setInode file ci).cache = s.cache := rfl

@[simp] theorem setCache_inode (s : Tool) (n : BitVec 32) (b : Bytes) :
    (s.setCache n b).inode = s.inode := rfl

@[simp] theorem setCache_setInode (s : Tool) (file n : BitVec 32) (ci : CacheInode) (b : Bytes) :
    (s.setInode file ci).setCache n b = (s.setCache n b).setInode file ci := rfl

@[simp] theorem setInode_setInode (s : Tool) (file : BitVec 32) (ci ci' : CacheInode) :
    (s.setInode file ci).setInode file ci' = s.setInode file ci' := by
  unfold Tool.setInode
  rw [Function.update_idem]

/-- One number was appended to a file. -/
structure Appended (s t : Tool) (file n : BitVec 32) : Prop where
  built : Built t
  inodes : t.inodes = s.inodes
  img : t.img = s.img
  entry : t.entry = s.entry
  ninos : t.ninos = s.ninos
  other : ∀ f, f ≠ file → t.inode f = s.inode f
  appended : (t.inode file).appended = (s.inode file).appended ++ [n]
  names : (t.inode file).names = (s.inode file).names
  type : (t.inode file).inode.type = (s.inode file).inode.type

theorem Extended.appended (hst : Extended s t) (hfile : s.Listed file) (hn : Fresh s n)
    {ci : CacheInode} {cache : BitVec 32 → Bytes} (hok : FileOk cache ci)
    (hcache : ∀ m, cache m ≠ t.cache m → ci.Points m)
    (hpoints : ∀ m, ci.Points m → (s.inode file).Points m ∨ Orphan t m)
    (hreal : ci.real = (s.inode file).real)
    (happended : ci.appended = (s.inode file).appended ++ [n])
    (hnames : ci.names = (s.inode file).names)
    (htype : ci.inode.type = (s.inode file).inode.type) :
    Appended s ({ t with cache := cache }.setInode file ci) file n := by
  rw [← hst.inode] at hreal happended hnames htype hpoints
  have hlisted := (hst.listed file).mpr hfile
  have haccounted := hst.built.accounted.append (hst.fresh n hn) hreal happended
  exact {
    built := ⟨haccounted.congr (t.setInode file ci).inode cache t.entry t.img (fun _ => rfl)
      fun _ => rfl, hst.built.filed.setFile hlisted hok hcache hpoints⟩
    inodes := hst.inodes
    img := hst.img
    entry := hst.entry
    ninos := hst.ninos
    other := fun f hf => (Function.update_of_ne hf _ _).trans (congrFun hst.inode f)
    appended := by rw [setInode_self, happended, hst.inode]
    names := by rw [setInode_self, hnames, hst.inode]
    type := by rw [setInode_self, htype, hst.inode] }

theorem Built.cached_handed (hs : Built s) (hn : s.Cached n) : n ∈ s.handed :=
  hs.accounted.number_mem (.index n) hn (fun heq => by cases heq)

/-- The number is stored in its slot, after the index blocks it needs were allocated. -/
theorem storeNumber_spec (hs : Built s) (hfile : s.Listed file) (hn : Fresh s n)
    (hlt : (s.inode file).nblks < SFS_LN_NBLKS) (size : Nat) :
    Ends (· = .outOfSpace) (storeNumber file (s.inode file).nblks n) s fun _ t =>
      Appended s (t.setInode file ((t.inode file).grow size n)) file n := by
  have hok := hs.filed.files file hfile
  rw [storeNumber, ends_bind, ends_get]
  split
  case isTrue hdirect =>
    rw [ends_modify, setInode_self, setInode_setInode]
    exact (Extended.refl hs).appended hfile hn (hok.growDirect hdirect)
      (fun m hm => absurd rfl hm) (fun m hm => .inl ⟨hm.ne_zero, hm.pointed⟩) rfl rfl rfl rfl
  case isFalse hdirect =>
    have hlow : SFS_L0_NBLKS ≤ (s.inode file).nblks := Nat.le_of_not_lt hdirect
    split
    case isTrue hindirect =>
      have hcb : (s.inode file).inode.indirect = 0 ∨
          (s.inode file).l1 = some (s.inode file).inode.indirect := by
        rcases Nat.eq_or_lt_of_le hlow with hfirst | hlong
        · exact .inl (hok.short hfirst.symm.le).1
        · exact .inr (hok.l1 hlong hindirect.le)
      rw [ends_bind]
      -- the indirect block is `l1`, whether it was there or has been made now
      apply (updateCache_spec hs hcb).imp
      intro l1 u hu
      obtain ⟨hsu, hl1⟩ := hu
      rw [ends_bind, ends_modify, ends_modify]
      simp only [setInode_cache, setCache_setInode, setInode_self, setInode_setInode]
      have hpoints : l1 ≠ 0 ∧ ((s.inode file).Points l1 ∨ Orphan u l1) := by
        rcases hl1 with ⟨hne, rfl, -⟩ | ⟨-, hne, -, horphan, -⟩
        · exact ⟨hne, .inl ⟨hne, .inl rfl⟩⟩
        · exact ⟨hne, .inr horphan⟩
      have hsame : ∀ m, (s.inode file).Points m → u.cache m = s.cache m := fun m hm =>
        (hsu.cached m (hs.filed.cached file m hfile hm)).2
      have hnew : (s.inode file).nblks = SFS_L0_NBLKS → ∀ j, word (u.cache l1) j = 0 := by
        intro hfirst
        rcases hl1 with ⟨hne, -, -⟩ | ⟨-, -, -, -, hzero⟩
        · exact absurd (hok.short hfirst.le).1 hne
        · exact hzero
      have hold : SFS_L0_NBLKS < (s.inode file).nblks → l1 = (s.inode file).inode.indirect := by
        intro hlong
        rcases hl1 with ⟨-, heq, -⟩ | ⟨hzero, -⟩
        · exact heq
        · exact absurd hzero (hok.indirect_ne_zero hlong)
      refine hsu.appended hfile hn
        ((hok.congr hsame).growIndirect hlow hindirect hpoints.1 hnew hold) ?_ ?_ rfl rfl rfl rfl
      · intro m hm
        have heq : m = l1 := by
          by_contra hne
          exact hm (Function.update_of_ne hne _ u.cache)
        rw [heq]
        exact ⟨hpoints.1, .inl rfl⟩
      · intro m hm
        rcases hm.pointed with heq | heq | heq
        · have heq : m = l1 := heq
          exact heq ▸ hpoints.2
        · exact .inl ⟨hm.ne_zero, .inr (.inl heq)⟩
        · have heq : m = l1 := (Option.some.inj heq).symm
          exact heq ▸ hpoints.2
    case isFalse hindirect =>
      have hlow : SFS_L1_NBLKS ≤ (s.inode file).nblks := Nat.le_of_not_lt hindirect
      have hL0 : SFS_L0_NBLKS < (s.inode file).nblks := by
        have : SFS_L0_NBLKS < SFS_L1_NBLKS := by decide
        omega
      have hL2 : SFS_LN_NBLKS ≤ SFS_L2_NBLKS := by decide
      rw [if_pos (hlt.trans_le hL2)]
      have hcb2 : (s.inode file).inode.dbIndirect = 0 ∨
          (s.inode file).l2 = some (s.inode file).inode.dbIndirect := by
        rcases Nat.eq_or_lt_of_le hlow with hfirst | hlong
        · exact .inl (hok.single hfirst.symm.le)
        · exact .inr (hok.double hlong).l2
      rw [ends_bind]
      apply (updateCache_spec hs hcb2).imp
      intro l2 u hu
      obtain ⟨hsu, hl2⟩ := hu
      have hdouble : (s.inode file).inode.dbIndirect ≠ 0 → Double s.cache (s.inode file) := by
        intro hne
        apply hok.double
        by_contra hshort
        exact hne (hok.single (Nat.le_of_not_lt hshort))
      have hindirectPoints : (s.inode file).Points (s.inode file).inode.indirect :=
        ⟨hok.indirect_ne_zero hL0, .inl rfl⟩
      have hindirectCached := hs.filed.cached file _ hfile hindirectPoints
      have hl2' : l2 ≠ 0 ∧ l2 ≠ (s.inode file).inode.indirect ∧ u.Cached l2 ∧
          ((s.inode file).Points l2 ∨ Orphan u l2) := by
        rcases hl2 with ⟨hne, rfl, -⟩ | ⟨-, hne, hnew, horphan, -⟩
        · have hpoints : (s.inode file).Points (s.inode file).inode.dbIndirect :=
            ⟨hne, .inr (.inl rfl)⟩
          exact ⟨hne, (hdouble hne).db_ne_indirect,
            (hsu.cached _ (hs.filed.cached file _ hfile hpoints)).1, .inl hpoints⟩
        · exact ⟨hne, fun heq => hnew (heq ▸ hs.cached_handed hindirectCached), horphan.cached,
            .inr horphan⟩
      -- the block of `l2` is empty after the word that is asked for
      have hunfilled : ∀ j, ((s.inode file).nblks - SFS_L1_NBLKS) / SFS_BLK_NENTRY < j →
          word (u.cache l2) j = 0 := by
        intro j hj
        rcases hl2 with ⟨hne, heq, hus⟩ | ⟨-, -, -, -, hzero⟩
        · rw [hus, heq]
          apply (hdouble hne).unfilled
          exact (Nat.div_le_div_right (Nat.sub_le _ _)).trans_lt hj
        · exact hzero j
      have hcb1 : word (u.cache l2) (((s.inode file).nblks - SFS_L1_NBLKS) / SFS_BLK_NENTRY) = 0 ∨
          (s.inode file).l1 =
            some (word (u.cache l2) (((s.inode file).nblks - SFS_L1_NBLKS) / SFS_BLK_NENTRY)) := by
        rcases hl2 with ⟨hne, heq, hus⟩ | ⟨-, -, -, -, hzero⟩
        · rw [hus, heq]
          have hle : ((s.inode file).nblks - SFS_L1_NBLKS - 1) / SFS_BLK_NENTRY ≤
              ((s.inode file).nblks - SFS_L1_NBLKS) / SFS_BLK_NENTRY :=
            Nat.div_le_div_right (Nat.sub_le _ _)
          rcases Nat.eq_or_lt_of_le hle with hsame | hnext
          · exact .inr (hsame ▸ (hdouble hne).l1)
          · exact .inl ((hdouble hne).unfilled _ hnext)
        · exact .inl (hzero _)
      rw [ends_bind, ends_get, ends_bind]
      -- the second block is handed out when the number is the first of its block
      apply (updateCache_spec hsu.built hcb1).imp
      intro l1 v hv
      obtain ⟨huv, hl1⟩ := hv
      have hsv := hsu.trans huv
      have hl1' : l1 ≠ 0 ∧ l1 ≠ (s.inode file).inode.indirect ∧ l1 ≠ l2 ∧
          ((s.inode file).Points l1 ∨ Orphan v l1) := by
        rcases hl1 with ⟨hne, heq, -⟩ | ⟨-, hne, hnew, horphan, -⟩
        · rcases hl2 with ⟨hdb, hl2, -⟩ | ⟨-, -, -, -, hzero⟩
          · have hhave : (s.inode file).l1 = some l1 := heq ▸ hcb1.resolve_left hne
            have hdb := hdouble hdb
            exact ⟨heq ▸ hne, fun h => hdb.l1_ne_indirect (h ▸ hhave),
              fun h => hdb.l1_ne_db ((h.trans hl2) ▸ hhave), .inl ⟨heq ▸ hne, .inr (.inr hhave)⟩⟩
          · exact absurd (hzero _) hne
        · exact ⟨hne, fun h => hnew (h ▸ hsu.built.cached_handed (hsu.cached _ hindirectCached).1),
            fun h => hnew (h ▸ hsu.built.cached_handed hl2'.2.2.1), .inr horphan⟩
      rw [ends_bind, ends_modify, ends_bind, ends_modify, ends_modify]
      simp only [setInode_cache, setCache_setInode, setInode_self, setInode_setInode]
      have hsame : ∀ m, (s.inode file).Points m → v.cache m = s.cache m := fun m hm =>
        (hsv.cached m (hs.filed.cached file m hfile hm)).2
      have hunfilled' : ∀ j, ((s.inode file).nblks - SFS_L1_NBLKS) / SFS_BLK_NENTRY < j →
          word (v.cache l2) j = 0 := by
        rw [(huv.cached l2 hl2'.2.2.1).2]
        exact hunfilled
      refine hsv.appended hfile hn
        ((hok.congr hsame).growDouble hlow hlt hl1'.1 hl2'.1 hl1'.2.2.1 hl1'.2.1 hl2'.2.1
          hunfilled' _ _) ?_ ?_ rfl rfl rfl rfl
      · intro m hm
        have heq : m = l1 ∨ m = l2 := by
          by_contra hne
          rw [not_or] at hne
          exact hm ((Function.update_of_ne hne.1 _ _).trans (Function.update_of_ne hne.2 _ v.cache))
        rcases heq with rfl | rfl
        · exact ⟨hl1'.1, .inr (.inr rfl)⟩
        · exact ⟨hl2'.1, .inr (.inl rfl)⟩
      · intro m hm
        rcases hm.pointed with heq | heq | heq
        · exact .inl ⟨hm.ne_zero, .inl heq⟩
        · have heq : m = l2 := heq
          exact heq ▸ hl2'.2.2.2.imp_right huv.orphan
        · have heq : m = l1 := (Option.some.inj heq).symm
          exact heq ▸ hl1'.2.2.2

theorem appendBlock_spec (hs : Built s) (hfile : s.Listed file) (hn : Fresh s n) {size : Nat}
    (hsize : size ≤ SFS_BLKSIZE) :
    Ends (fun e => e = .outOfSpace ∨ e = .fileTooBig) (appendBlock file size n) s fun _ t =>
      Appended s t file n := by
  rw [appendBlock, ends_bind, ends_check hsize, ends_bind, ends_get]
  change Ends _ (if (s.inode file).nblks ≥ SFS_LN_NBLKS then _ else _) s _
  split
  case isTrue => exact .inr rfl
  case isFalse hlt =>
    rw [ends_bind]
    exact (storeNumber_spec hs hfile hn (Nat.lt_of_not_le hlt) size).mono
      (fun _ he => .inl he) fun _ _ ht => ht

end Steps

end Ucore.Sfs.Mksfs
