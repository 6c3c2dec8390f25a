import Ucore.Foundation.Budget
import Ucore.Sfs.Served

/-!
# When an image is large enough

What the host tree takes on an image can be said before it is built: each file, link and
directory an inode, its blocks and the index blocks for them, and a hard link nothing but
its entry. The tool runs out of space exactly when that is more than the image has after
the freemap.
-/

namespace Ucore.Sfs.Mksfs

open Machine

/-! ## What things take -/

/-- The index blocks of an inode with `k` blocks. -/
def indexBlocks (k : Nat) : Nat :=
  if k ≤ SFS_L0_NBLKS then 0
  else if k ≤ SFS_L1_NBLKS then 1
  else 2 + (k - SFS_L1_NBLKS + (SFS_BLK_NENTRY - 1)) / SFS_BLK_NENTRY

/-- What `n` more blocks take of an inode that has `k`. -/
def growth (k n : Nat) : Nat := n + (indexBlocks (k + n) - indexBlocks k)

/-- The blocks of a file, if it is read to its end; `last` is what the read before gave. -/
def fileLength : Nat → List (Option Chunk) → Option Nat
  | _, [] => some 0
  | _, none :: _ => none
  | last, some chunk :: rest =>
      if chunk.len = 0 then some 0
      else if last = SFS_BLKSIZE then (fileLength chunk.len rest).map (· + 1)
      else none

/-- What a part of the host tree takes: the inode numbers that have been met by then, the
entries in the directory it is in, and the blocks that are not for these entries. -/
structure Plan where
  seen : List (BitVec 64)
  entries : Nat
  blocks : Nat

mutual

/-- What a node takes, if the tool can store it. -/
def HostNode.plan (seen : List (BitVec 64)) : HostNode → Option Plan
  | .link real target => target.bind fun chunk =>
      if chunk.len = SFS_BLKSIZE then none else some ⟨real :: seen, 1, 1 + growth 0 1⟩
  | .file real reads =>
      if real ∈ seen then some ⟨seen, 1, 0⟩
      else (fileLength SFS_BLKSIZE reads).bind fun k =>
        if k ≤ SFS_LN_NBLKS then some ⟨real :: seen, 1, 1 + growth 0 k⟩ else none
  | .dir real entries =>
      if real ∈ seen then none
      else (entries.plan (real :: seen)).bind fun p =>
        if 2 + p.entries ≤ SFS_LN_NBLKS then some ⟨p.seen, 1, 1 + growth 0 (2 + p.entries) +
          p.blocks⟩ else none
  | .unsupported => some ⟨seen, 0, 0⟩
  | .unreadable => none

def HostDir.plan (seen : List (BitVec 64)) : HostDir → Option Plan
  | .done => some ⟨seen, 0, 0⟩
  | .entry name node rest =>
      if hidden name then rest.plan seen
      else if name.bytes.length > SFS_MAX_FNAME_LEN then none
      else (node.plan seen).bind fun p => (rest.plan p.seen).map fun q =>
        ⟨q.seen, p.entries + q.entries, p.blocks + q.blocks⟩

end

/-- Blocks that have not been handed out. -/
def Tool.room (s : Tool) : Nat := s.ninos.toNat - s.nextIno.toNat

/-- The tool hands out exactly `k` blocks. -/
abbrev Takes {α : Type} (x : ToolM α) (s : Tool) (k : Nat) (Q : α → Tool → Prop) : Prop :=
  Spends Tool.room .outOfSpace x s k Q

/-! ## Index blocks -/

theorem indexBlocks_direct {k : Nat} (hk : k ≤ SFS_L0_NBLKS) : indexBlocks k = 0 := if_pos hk

theorem indexBlocks_indirect {k : Nat} (hlow : SFS_L0_NBLKS < k) (hk : k ≤ SFS_L1_NBLKS) :
    indexBlocks k = 1 := by
  rw [indexBlocks, if_neg (Nat.not_le_of_lt hlow), if_pos hk]

theorem indexBlocks_double (k : Nat) :
    indexBlocks (SFS_L1_NBLKS + k + 1) = 3 + k / SFS_BLK_NENTRY := by
  have hlow : ¬SFS_L1_NBLKS + k + 1 ≤ SFS_L0_NBLKS := by
    have hle : SFS_L0_NBLKS ≤ SFS_L1_NBLKS := by decide
    omega
  have hdiv : (SFS_L1_NBLKS + k + 1 - SFS_L1_NBLKS + (SFS_BLK_NENTRY - 1)) / SFS_BLK_NENTRY =
      k / SFS_BLK_NENTRY + 1 := by
    have hpos : 0 < SFS_BLK_NENTRY := by decide
    have hsum : SFS_L1_NBLKS + k + 1 - SFS_L1_NBLKS + (SFS_BLK_NENTRY - 1) = k +
        SFS_BLK_NENTRY := by omega
    rw [hsum, Nat.add_div_right k hpos]
  rw [indexBlocks, if_neg hlow, if_neg (by omega), hdiv]
  omega

theorem indexBlocks_mono {k n : Nat} (hle : k ≤ n) : indexBlocks k ≤ indexBlocks n := by
  unfold indexBlocks
  split
  · exact Nat.zero_le _
  · split
    · rw [if_neg (by omega)]
      split
      · exact Nat.le_refl 1
      · exact Nat.le_add_right_of_le (by decide)
    · rw [if_neg (by omega), if_neg (by omega)]
      have hsub : k - SFS_L1_NBLKS + (SFS_BLK_NENTRY - 1) ≤ n - SFS_L1_NBLKS +
          (SFS_BLK_NENTRY - 1) := by omega
      exact Nat.add_le_add_left (Nat.div_le_div_right hsub) 2

theorem growth_zero (k : Nat) : growth k 0 = 0 := by
  rw [growth, Nat.add_zero, Nat.sub_self]

theorem growth_add (k n m : Nat) : growth k (n + m) = growth k n + growth (k + n) m := by
  have hfirst := indexBlocks_mono (Nat.le_add_right k n)
  have hsecond := indexBlocks_mono (Nat.le_add_right (k + n) m)
  unfold growth
  rw [← Nat.add_assoc k n m]
  omega

section Steps

variable {s t u : Tool} {n file current : BitVec 32} {name : Name} {E : Stop → Prop}

/-! ## Handing out -/

theorem sfsAllocIno_takes : Takes sfsAllocIno s 1 fun n t => s.nextIno < s.ninos ∧
    n = s.nextIno ∧ t = s.hand := by
  rw [sfsAllocIno]
  apply Spends.get_bind
  split
  case isTrue hroom =>
    have hlt : s.nextIno.toNat < s.ninos.toNat := hroom
    have hnext : s.hand.nextIno.toNat = s.nextIno.toNat + 1 := by
      show (s.nextIno + 1).toNat = s.nextIno.toNat + 1
      have hbound := s.ninos.isLt
      have hone : (1 : BitVec 32).toNat = 1 := rfl
      rw [BitVec.toNat_add, hone]
      omega
    refine ⟨?_, hroom, rfl, rfl⟩
    show s.ninos.toNat - s.hand.nextIno.toNat + 1 = s.ninos.toNat - s.nextIno.toNat
    omega
  case isFalse hfull =>
    have hle : s.ninos.toNat ≤ s.nextIno.toNat := Nat.le_of_not_lt hfull
    refine ⟨rfl, ?_⟩
    show s.ninos.toNat - s.nextIno.toNat < 1
    omega

/-- An index block is handed out when there is none. -/
theorem updateCache_takes {cb : Option (BitVec 32)} {ino : BitVec 32}
    (hcb : ino = 0 ∨ cb = some ino) :
    Takes (updateCache cb ino) s (if ino = 0 then 1 else 0) fun _ _ => True := by
  rw [updateCache]
  split
  case isTrue =>
    rw [allocCacheBlock, if_neg (not_not_intro rfl)]
    apply sfsAllocIno_takes.bind_last
    rintro n t -
    exact ⟨rfl, trivial⟩
  case isFalse hne =>
    rw [if_neg (not_not_intro (hcb.resolve_left hne))]
    exact Spends.pure_iff.mpr trivial

/-- A number is stored, after the index blocks that it needs were handed out. -/
theorem storeNumber_takes (hs : Built s) (hfile : s.Listed file)
    (hlt : (s.inode file).nblks < SFS_LN_NBLKS) (n : BitVec 32) :
    Takes (storeNumber file (s.inode file).nblks n) s
      (indexBlocks ((s.inode file).nblks + 1) - indexBlocks (s.inode file).nblks) fun _ _ =>
        True := by
  have hok := hs.filed.files file hfile
  rw [storeNumber]
  apply Spends.get_bind
  split
  case isTrue hdirect =>
    have hnone : indexBlocks ((s.inode file).nblks + 1) - indexBlocks (s.inode file).nblks = 0 := by
      rw [indexBlocks_direct hdirect, Nat.zero_sub]
    rw [hnone]
    exact Spends.modify rfl trivial
  case isFalse hdirect =>
    have hlow : SFS_L0_NBLKS ≤ (s.inode file).nblks := Nat.le_of_not_lt hdirect
    split
    case isTrue hindirect =>
      -- the indirect block is handed out with the first number that goes into it
      have hcb : (s.inode file).inode.indirect = 0 ∨
          (s.inode file).l1 = some (s.inode file).inode.indirect := by
        rcases Nat.eq_or_lt_of_le hlow with hfirst | hlong
        · exact .inl (hok.short hfirst.symm.le).1
        · exact .inr (hok.l1 hlong hindirect.le)
      have hcost : (if (s.inode file).inode.indirect = 0 then 1 else 0) =
          indexBlocks ((s.inode file).nblks + 1) - indexBlocks (s.inode file).nblks := by
        rw [indexBlocks_indirect (Nat.lt_succ_of_le hlow) hindirect]
        rcases Nat.eq_or_lt_of_le hlow with hfirst | hlong
        · rw [if_pos (hok.short hfirst.symm.le).1, indexBlocks_direct hfirst.symm.le]
        · rw [if_neg (hok.indirect_ne_zero hlong), indexBlocks_indirect hlong hindirect.le]
      rw [← hcost]
      apply (updateCache_takes hcb).bind_last
      intro l1 t _
      exact ⟨rfl, trivial⟩
    case isFalse hindirect =>
      have hlow : SFS_L1_NBLKS ≤ (s.inode file).nblks := Nat.le_of_not_lt hindirect
      have hL2 : SFS_LN_NBLKS ≤ SFS_L2_NBLKS := by decide
      rw [if_pos (hlt.trans_le hL2)]
      obtain ⟨j, hj⟩ := Nat.exists_eq_add_of_le hlow
      rcases Nat.eq_zero_or_eq_succ_pred j with hfirst | hmore
      · -- the first number past the indirect block: two blocks are handed out
        have hzero : (s.inode file).inode.dbIndirect = 0 := hok.single (by omega)
        have hcost :
            indexBlocks ((s.inode file).nblks + 1) - indexBlocks (s.inode file).nblks = 1 + 1 := by
          have hone : indexBlocks SFS_L1_NBLKS = 1 := by decide
          have hthree : indexBlocks (SFS_L1_NBLKS + 1) = 3 := by decide
          rw [hfirst, Nat.add_zero] at hj
          rw [hj, hone, hthree]
        rw [hcost]
        have htakes := (@updateCache_takes s (s.inode file).l2 _ (.inl hzero)).and
          (updateCache_spec hs (.inl hzero))
        rw [if_pos hzero] at htakes
        apply htakes.bind
        intro l2 u hall
        obtain ⟨_, hsu, hl2⟩ := hall
        obtain ⟨-, -, -, -, hempty⟩ := hl2.resolve_left fun hold => hold.1 hzero
        apply Spends.get_bind
        have hnext := @updateCache_takes u (s.inode file).l1 _
          (.inl (hempty (((s.inode file).nblks - SFS_L1_NBLKS) / SFS_BLK_NENTRY)))
        rw [if_pos (hempty _)] at hnext
        apply hnext.bind_last
        intro l1 v _
        exact ⟨rfl, trivial⟩
      · -- the double indirect block is there, and the block at hand may be full
        have hdouble := hok.double (by omega)
        have hcb2 : (s.inode file).inode.dbIndirect = 0 ∨
            (s.inode file).l2 = some (s.inode file).inode.dbIndirect :=
          .inr hdouble.l2
        have htakes := (updateCache_takes hcb2).and (updateCache_spec hs hcb2)
        rw [if_neg hdouble.db_ne_zero] at htakes
        obtain ⟨i, rfl⟩ : ∃ i, j = i + 1 := ⟨_, hmore⟩
        have hindex : (s.inode file).nblks - SFS_L1_NBLKS = i + 1 := by omega
        have hlast : (s.inode file).nblks - SFS_L1_NBLKS - 1 = i := by omega
        have hcost : indexBlocks ((s.inode file).nblks + 1) - indexBlocks (s.inode file).nblks =
            0 + ((i + 1) / SFS_BLK_NENTRY - i / SFS_BLK_NENTRY) := by
          rw [hj, indexBlocks_double, ← Nat.add_assoc SFS_L1_NBLKS i 1, indexBlocks_double]
          omega
        rw [hcost]
        apply htakes.bind
        intro l2 u hall
        obtain ⟨_, hsu, hl2⟩ := hall
        obtain ⟨-, rfl, rfl⟩ := hl2.resolve_right fun hnew => hdouble.db_ne_zero hnew.1
        apply Spends.get_bind
        simp only [hindex]
        have hle : i / SFS_BLK_NENTRY ≤ (i + 1) / SFS_BLK_NENTRY :=
          Nat.div_le_div_right (Nat.le_succ i)
        have hword : (word (u.cache (u.inode file).inode.dbIndirect)
            ((i + 1) / SFS_BLK_NENTRY) = 0 ↔ i / SFS_BLK_NENTRY < (i + 1) / SFS_BLK_NENTRY) ∧
            (word (u.cache (u.inode file).inode.dbIndirect) ((i + 1) / SFS_BLK_NENTRY) = 0 ∨
              (u.inode file).l1 = some (word (u.cache (u.inode file).inode.dbIndirect)
                ((i + 1) / SFS_BLK_NENTRY))) := by
          have hne := hdouble.l1_ne_zero
          have hl1 := hdouble.l1
          have hunfilled := hdouble.unfilled ((i + 1) / SFS_BLK_NENTRY)
          rw [hlast] at hne hl1 hunfilled
          rcases Nat.eq_or_lt_of_le hle with hsame | hnext
          · rw [← hsame]
            exact ⟨iff_of_false hne (Nat.lt_irrefl _), .inr hl1⟩
          · exact ⟨iff_of_true (hunfilled hnext) hnext, .inl (hunfilled hnext)⟩
        have hlastCost : (if word (u.cache (u.inode file).inode.dbIndirect)
            ((i + 1) / SFS_BLK_NENTRY) = 0 then 1 else 0) =
            (i + 1) / SFS_BLK_NENTRY - i / SFS_BLK_NENTRY := by
          have hsucc : (i + 1) / SFS_BLK_NENTRY ≤ i / SFS_BLK_NENTRY + 1 := by
            rw [Nat.succ_div]
            split <;> omega
          split
          case isTrue hzero =>
            have hlt := hword.1.mp hzero
            omega
          case isFalse hne =>
            exact (Nat.sub_eq_zero_of_le (Nat.le_of_not_lt fun hlt => hne (hword.1.mpr hlt))).symm
        rw [← hlastCost]
        apply (updateCache_takes hword.2).bind_last
        intro l1 v _
        exact ⟨rfl, trivial⟩

/-- A block is written and appended. -/
theorem writeAppend_takes (hs : Built s) (hn : n < s.ninos) {len : Nat} (hlen : len ≤ SFS_BLKSIZE)
    (data : Bytes)
    (hfile : s.Listed file) (hlt : (s.inode file).nblks < SFS_LN_NBLKS) {size : Nat}
    (hsize : size ≤ SFS_BLKSIZE) :
    Takes (do
      writeBlock data len n
      appendBlock file size n) s (indexBlocks ((s.inode file).nblks + 1) -
        indexBlocks (s.inode file).nblks)
      fun _ _ => True := by
  apply Spends.bind_free (Q := fun _ t => Built t ∧ t.Listed file ∧ t.inode file = s.inode file)
  · apply (writeBlock_spec hn hlen data).imp
    rintro _ t rfl
    exact ⟨rfl, hs.setImg s.entry _, hfile, rfl⟩
  · intro _ t hall
    obtain ⟨ht, hfile', hsame⟩ := hall
    rw [appendBlock]
    apply Spends.check_bind hsize
    apply Spends.get_bind
    have hlt' : ¬(t.inode file).nblks ≥ SFS_LN_NBLKS := by
      rw [hsame]
      exact Nat.not_le_of_lt hlt
    rw [← hsame] at hlt ⊢
    rw [if_neg hlt']
    apply (storeNumber_takes ht hfile' hlt n).bind_last
    intro _ u _
    exact ⟨rfl, trivial⟩

theorem growth_one (k : Nat) : growth k 1 = 1 + (indexBlocks (k + 1) - indexBlocks k) := rfl

theorem addEntry_takes (hs : Inv s) (hcurrent : IsDir s current)
    (hlt : (s.inode current).nblks < SFS_LN_NBLKS) (hname : name.bytes.length ≤ SFS_MAX_FNAME_LEN) :
    Takes (addEntry current file name) s (growth (s.inode current).nblks 1) fun _ _ => True := by
  have hsize : sfsDentrySize ≤ SFS_BLKSIZE := by decide
  rw [addEntry, growth_one]
  apply Spends.get_bind
  apply Spends.check_bind ⟨hcurrent.type, hname⟩
  apply Spends.modify_bind rfl
  apply sfsAllocIno_takes.bind
  rintro n t ⟨hroom, rfl, rfl⟩
  apply Spends.get_bind
  have hroom' : s.nextIno < s.ninos := hroom
  have hbuilt := (hs.built.hand hroom').setImg (fillEntry s.entry file name) s.img
  have hfresh := (hs.built.accounted.hand hroom').2.1
  have hn := (hs.built.accounted.hand hroom').1.handed_lt hfresh.handed
  have htakes :=
    writeAppend_takes hbuilt hn hsize (fillEntry s.entry file name) hcurrent.listed hlt hsize
  rw [← bind_assoc]
  apply htakes.bind_last
  intro _ u _
  rw [ends_bind, ends_modify, ends_modify]
  exact ⟨rfl, trivial⟩

theorem allocCacheInode_takes (real : BitVec 64) (type : BitVec 16) :
    Takes (allocCacheInode real 0 type) s 1 fun _ _ => True := by
  rw [allocCacheInode, if_neg (not_not_intro rfl)]
  apply sfsAllocIno_takes.bind_last
  rintro n t -
  exact ⟨rfl, trivial⟩

/-- A block of a file or a link is handed out, written and appended. -/
theorem handData_takes (hs : Inv s) (hfile : s.Listed file)
    (hlt : (s.inode file).nblks < SFS_LN_NBLKS) (chunk : Chunk) (hroom : s.nextIno < s.ninos) :
    Takes (do
      writeBlock chunk.data chunk.len s.nextIno
      appendBlock file chunk.len s.nextIno) s.hand
      (indexBlocks ((s.inode file).nblks + 1) - indexBlocks (s.inode file).nblks) fun _ _ =>
      True := by
  obtain ⟨haccounted, hfresh, -⟩ := hs.built.accounted.hand hroom
  exact writeAppend_takes (hs.built.hand hroom)
    (haccounted.handed_lt hfresh.handed) chunk.len_le chunk.data hfile hlt
    chunk.len_le

theorem HasBlocks.nblks {chunks : List Chunk} (h : HasBlocks s file chunks) (hs : Inv s)
    (hfile : s.Listed file) : (s.inode file).nblks = chunks.length := by
  rw [(hs.built.filed.files file hfile).nblks]
  exact h.blocks.length_eq

/-- The blocks of a file that is read to its end. -/
theorem readFile_takes (reads : List (Option Chunk)) {last k : Nat}
    {chunks : List Chunk} (hs : Inv s)
    (hfile : s.Listed file) (htype : (s.inode file).inode.type ≠ SFS_TYPE_DIR)
    (hblocks : HasBlocks s file chunks)
    (hlength : fileLength last reads = some k) (hle : chunks.length + k ≤ SFS_LN_NBLKS) :
    Takes (readFile file last reads) s (growth chunks.length k) fun _ _ => True := by
  induction reads generalizing s last k chunks with
  | nil =>
      obtain rfl := Option.some.inj hlength
      rw [growth_zero]
      exact Spends.pure_iff.mpr trivial
  | cons read rest ih =>
      cases read with
      | none => cases hlength
      | some chunk =>
          rw [fileLength] at hlength
          rw [readFile, Option.map_some]
          split at hlength
          case isTrue hend =>
            obtain rfl := Option.some.inj hlength
            rw [if_pos (congrArg some hend), growth_zero]
            exact Spends.pure_iff.mpr trivial
          case isFalse hmore =>
            split at hlength
            case isFalse => cases hlength
            case isTrue hfull =>
              obtain ⟨k, hrest, rfl⟩ := Option.map_eq_some_iff.mp hlength
              have hnblks := hblocks.nblks hs hfile
              rw [if_neg fun heq => hmore (Option.some.inj heq)]
              apply Spends.check_bind hfull
              have hcost : growth chunks.length (k + 1) =
                  1 + (indexBlocks ((s.inode file).nblks + 1) - indexBlocks (s.inode file).nblks +
                    growth (chunks.length + 1) k) := by
                rw [Nat.add_comm k 1, growth_add, growth_one, hnblks, Nat.add_assoc]
              rw [hcost]
              apply sfsAllocIno_takes.bind
              rintro n t ⟨hroom, rfl, rfl⟩
              have hlt : (s.inode file).nblks < SFS_LN_NBLKS := by omega
              have htakes := (handData_takes hs hfile hlt chunk hroom).and
                (handData_stored hs hfile htype hroom chunk hblocks)
              change Takes (writeBlock chunk.data chunk.len s.nextIno >>= fun _ =>
                appendBlock file chunk.len s.nextIno >>=
                  fun _ => readFile file chunk.len rest) s.hand _ _
              rw [← bind_assoc]
              apply htakes.bind
              rintro _ u ⟨-, ⟨hinv, hgrows⟩, hframes, hmoreBlocks, hinodes⟩
              have hmoreLength : (chunks ++ [chunk]).length = chunks.length + 1 := by
                rw [List.length_append, List.length_singleton]
              rw [← hmoreLength]
              apply ih hinv (hgrows.listed file hfile) ?_ hmoreBlocks hrest (by omega)
              rw [hgrows.type file hfile]
              exact htype

/-! ## Walking the host -/

/-- A directory that entries can be added to; `seen` are the inodes of the host on the image. -/
structure Ready (s : Tool) (current : BitVec 32) (seen : List (BitVec 64)) : Prop where
  inv : Inv s
  isDir : IsDir s current
  met : ∀ real, real ∈ seen ↔ s.Met real

/-- The directory has `n` entries more, and no other inode has more blocks. -/
structure Took (current : BitVec 32) (seen : List (BitVec 64)) (n : Nat) (s t : Tool) : Prop where
  inv : Inv t
  grows : Grows s t
  others : ∀ m, s.Listed m → m ≠ current → (t.inode m).nblks = (s.inode m).nblks
  count : (t.inode current).nblks = (s.inode current).nblks + n
  met : ∀ real, real ∈ seen ↔ t.Met real

variable {seen seen' : List (BitVec 64)} {real : BitVec 64} {type : BitVec 16} {k m : Nat}

theorem Took.ready (h : Took current seen k s t) (hs : IsDir s current) : Ready t current seen :=
  ⟨h.inv, hs.grow h.grows, h.met⟩

theorem Took.trans (h : Took current seen k s t) (h' : Took current seen' m t u) :
    Took current seen' (k + m) s u where
  inv := h'.inv
  grows := h.grows.trans h'.grows
  others n hn hne := (h'.others n (h.grows.listed n hn) hne).trans (h.others n hn hne)
  count := by rw [h'.count, h.count, Nat.add_assoc]
  met := h'.met

/-- Inodes that are the same file have as many blocks. -/
theorem SameFile.nblks (h : SameFile (s.inode n) (t.inode n)) (hs : Inv s) (ht : Inv t)
    (hn : s.Listed n) (hgrows : Grows s t) : (t.inode n).nblks = (s.inode n).nblks := by
  rw [(hs.built.filed.files n hn).nblks, (ht.built.filed.files n (hgrows.listed n hn)).nblks,
    h.appended]

/-- A directory has a block for each entry. -/
theorem IsDir.nblks (h : IsDir s n) (hs : Inv s) :
    (s.inode n).nblks = (s.inode n).names.length := by
  rw [(hs.built.filed.files n h.listed).nblks, (hs.entered.dirs n h.listed h.type).length]

theorem met_congr {P : BitVec 32 → Prop} (hframes : Frames P s t) (hinodes : t.inodes = s.inodes)
    (real : BitVec 64) :
    t.Met real ↔ s.Met real := by
  have hlisted : ∀ n, t.Listed n ↔ s.Listed n := by
    intro n
    unfold Tool.Listed
    rw [hinodes]
  refine exists_congr fun n => ?_
  rw [hlisted]
  refine and_congr_right fun hn => ?_
  rw [hframes.real n hn]

theorem Ready.addEntry (h : Ready s current seen) (hfile : s.Listed file)
    (hlt : (s.inode current).nblks < SFS_LN_NBLKS) (hname : name.bytes.length ≤ SFS_MAX_FNAME_LEN) :
    Takes (addEntry current file name) s (growth (s.inode current).nblks 1) fun _ t =>
      Took current seen 1 s t := by
  apply ((addEntry_takes h.inv h.isDir hlt hname).and
    (addEntry_stored h.inv h.isDir hfile hname)).imp
  rintro _ t ⟨-, ⟨hinv, hgrows⟩, hframes, hnames, hinodes, -⟩
  refine ⟨hinv, hgrows, fun m hm hne => (hframes.same m hm hne).nblks h.inv hinv hm hgrows,
    ?_, fun real => ?_⟩
  · rw [(h.isDir.grow hgrows).nblks hinv, h.isDir.nblks h.inv, hnames, List.length_append,
      List.length_singleton]
  · rw [h.met, met_congr hframes hinodes]

/-- A new inode is there, and its blocks have been appended. -/
theorem Ready.made (h : Ready s current seen) (hmade : Made s t file real type) (hinv : Inv u)
    (hgrows : Grows t u) (hframes : Frames (· = file) t u) (hinodes : u.inodes = t.inodes) :
    Took current (real :: seen) 0 s u := by
  have hsame : ∀ m, s.Listed m → (u.inode m).nblks = (s.inode m).nblks := by
    intro m hm
    have hne : m ≠ file := fun heq => hmade.fresh (heq ▸ hm)
    have hm' := hmade.grows.listed m hm
    rw [(hframes.same m hm' hne).nblks hmade.inv hinv hm' hgrows]
    exact (hmade.frames.same m hm not_false).nblks h.inv hmade.inv hm hmade.grows
  refine ⟨hinv, hmade.grows.trans hgrows, fun m hm _ => hsame m hm, hsame current h.isDir.listed,
    fun other => ?_⟩
  rw [List.mem_cons, h.met, met_congr hframes hinodes]
  constructor
  · rintro (rfl | ⟨n, hn, hreal⟩)
    · refine ⟨file, (hmade.listed file).mpr (.inl rfl), ?_⟩
      rw [hmade.inode]
      rfl
    · exact ⟨n, hmade.grows.listed n hn, (hmade.frames.real n hn).trans hreal⟩
  · rintro ⟨n, hn, hreal⟩
    rcases (hmade.listed n).mp hn with rfl | hold
    · rw [hmade.inode] at hreal
      exact .inl hreal.symm
    · exact .inr ⟨n, hold, (hmade.frames.real n hold).symm.trans hreal⟩

/-- What has been stored is entered. -/
theorem Took.enter (h : Took current seen 0 s t) (hs : IsDir s current) (hfile : t.Listed file)
    (hlt : (s.inode current).nblks < SFS_LN_NBLKS) (hname : name.bytes.length ≤ SFS_MAX_FNAME_LEN) :
    Takes (Mksfs.addEntry current file name) t (growth (s.inode current).nblks 1) fun _ u =>
      Took current seen 1 s u := by
  have hcount : (t.inode current).nblks = (s.inode current).nblks := h.count
  have htakes := (h.ready hs).addEntry hfile (hcount ▸ hlt) hname
  rw [hcount] at htakes
  apply htakes.imp
  intro _ u hu
  have hboth := h.trans hu
  rwa [Nat.zero_add] at hboth

/-- A new inode, before anything is appended. -/
theorem Made.empty (h : Made s t file real type) :
    t.Listed file ∧ (t.inode file).inode.type = type ∧ (t.inode file).nblks = 0 := by
  rw [h.inode]
  exact ⟨(h.listed file).mpr (.inl rfl), rfl, rfl⟩

theorem addLink_takes (h : Ready s current seen) (hlt : (s.inode current).nblks < SFS_LN_NBLKS)
    (hname : name.bytes.length ≤ SFS_MAX_FNAME_LEN) (real : BitVec 64) {chunk : Chunk}
    (hshort : chunk.len ≠ SFS_BLKSIZE) :
    Takes (addLink current name real (some chunk)) s (1 + growth 0 1 +
      growth (s.inode current).nblks 1)
      fun _ t => Took current (real :: seen) 1 s t := by
  rw [addLink, Nat.add_assoc]
  apply ((allocCacheInode_takes real SFS_TYPE_LINK).and
    (allocCacheInode_stored h.inv real SFS_TYPE_LINK)).bind
  intro file t hall
  obtain ⟨_, hmade⟩ := hall
  obtain ⟨hfile, htype, hempty⟩ := hmade.empty
  have hlink : Takes (openLink file (some chunk)) t (growth 0 1) fun _ u =>
      Took current (real :: seen) 0 s u ∧ u.Listed file := by
    rw [openLink, growth_one]
    apply sfsAllocIno_takes.bind
    rintro n u ⟨hroom, rfl, rfl⟩
    change Takes (if chunk.len = SFS_BLKSIZE then _ else _) _ _ _
    rw [if_neg hshort]
    have htype' : (t.inode file).inode.type ≠ SFS_TYPE_DIR := by
      rw [htype]
      decide
    have hdata := handData_takes hmade.inv hfile (by rw [hempty]; decide) chunk hroom
    rw [hempty] at hdata
    apply (hdata.and (handData_stored hmade.inv hfile htype' hroom chunk hmade.hasBlocks)).imp
    rintro _ v ⟨-, ⟨hinv, hgrows⟩, hframes, -, hinodes⟩
    exact ⟨h.made hmade hinv hgrows hframes hinodes, hgrows.listed file hfile⟩
  apply hlink.bind
  intro _ u hall
  obtain ⟨htook, hfile'⟩ := hall
  exact htook.enter h.isDir hfile' hlt hname

/-- A file that has not been met. -/
theorem addFile_takes (h : Ready s current seen) (hlt : (s.inode current).nblks < SFS_LN_NBLKS)
    (hname : name.bytes.length ≤ SFS_MAX_FNAME_LEN) (hnew : real ∉ seen)
    {reads : List (Option Chunk)}
    (hlength : fileLength SFS_BLKSIZE reads = some k) (hle : k ≤ SFS_LN_NBLKS) :
    Takes (addFile current name real reads) s (1 + growth 0 k + growth (s.inode current).nblks 1)
      fun _ t => Took current (real :: seen) 1 s t := by
  rw [addFile]
  apply Spends.bind_free (Q := fun r t => r = none ∧ s = t)
  · apply (searchCacheInode_met h.inv real).imp
    rintro r t ⟨rfl, hnone, -⟩
    exact ⟨rfl, hnone.mpr fun hmet => hnew ((h.met real).mpr hmet), rfl⟩
  · rintro _ _ ⟨rfl, rfl⟩
    rw [Nat.add_assoc]
    change Takes (allocCacheInode real 0 SFS_TYPE_FILE >>= _) _ _ _
    apply ((allocCacheInode_takes real SFS_TYPE_FILE).and
      (allocCacheInode_stored h.inv real SFS_TYPE_FILE)).bind
    intro file t hall
    obtain ⟨_, hmade⟩ := hall
    obtain ⟨hfile, htype, -⟩ := hmade.empty
    have htype' : (t.inode file).inode.type ≠ SFS_TYPE_DIR := by
      rw [htype]
      decide
    have hdata :=
      readFile_takes reads hmade.inv hfile htype' hmade.hasBlocks hlength
      (by rwa [List.length_nil, Nat.zero_add])
    apply (hdata.and (readFile_stored reads hmade.inv hfile htype' hmade.hasBlocks)).bind
    rintro _ u ⟨-, ⟨hinv, hgrows⟩, hframes, -, hinodes⟩
    exact (h.made hmade hinv hgrows hframes hinodes).enter h.isDir (hgrows.listed file hfile) hlt
      hname

/-- A hard link takes only its entry. -/
theorem addFile_met (h : Ready s current seen) (hlt : (s.inode current).nblks < SFS_LN_NBLKS)
    (hname : name.bytes.length ≤ SFS_MAX_FNAME_LEN) (hmet : real ∈ seen)
    (reads : List (Option Chunk)) :
    Takes (addFile current name real reads) s (growth (s.inode current).nblks 1) fun _ t =>
      Took current seen 1 s t := by
  rw [addFile]
  apply Spends.bind_free (Q := fun r t => t = s ∧ ∃ file, r = some file ∧ s.Listed file)
  · apply (searchCacheInode_met h.inv real).imp
    rintro r t ⟨rfl, hnone, hlisted⟩
    refine ⟨rfl, rfl, ?_⟩
    cases r with
    | none => exact absurd ((h.met real).mp hmet) (hnone.mp rfl)
    | some file => exact ⟨file, rfl, (hlisted file rfl).1⟩
  · rintro _ _ ⟨rfl, file, rfl, hfile⟩
    exact h.addEntry hfile hlt hname

/-- A directory has been made, with its first two entries. -/
theorem openDirStart_takes {d parent : BitVec 32} (h : Ready s d seen)
    (hempty : (s.inode d).nblks = 0) (hparent : s.Listed parent) :
    Takes (openDirStart d parent) s (growth 0 2) fun _ t => Took d seen 2 s t := by
  have hzero : (s.inode d).nblks < SFS_LN_NBLKS := by
    rw [hempty]
    decide
  have hfirst := h.addEntry h.isDir.listed hzero (by decide : dot.bytes.length ≤ SFS_MAX_FNAME_LEN)
  rw [hempty] at hfirst
  rw [openDirStart, growth_add 0 1 1]
  apply hfirst.bind
  intro _ t htook
  have hcount : (t.inode d).nblks = 0 + 1 := htook.count.trans (by rw [hempty])
  have hone : (t.inode d).nblks < SFS_LN_NBLKS := by
    rw [hcount]
    decide
  have hsecond := (htook.ready h.isDir).addEntry (htook.grows.listed parent hparent) hone
    (by decide : dotDot.bytes.length ≤ SFS_MAX_FNAME_LEN)
  rw [hcount] at hsecond
  apply hsecond.imp
  exact fun _ u hu => htook.trans hu

end Steps

mutual

/-- What the entries of a host directory take. -/
theorem readDir_takes : ∀ (dir : HostDir) {s : Tool} {current : BitVec 32} {seen : List (BitVec 64)}
    {p : Plan}, Ready s current seen → dir.plan seen = some p →
    (s.inode current).nblks + p.entries ≤ SFS_LN_NBLKS →
      Takes (readDir current dir) s (p.blocks + growth (s.inode current).nblks p.entries)
        fun _ t => Took current p.seen p.entries s t
  | .done, s, current, seen, p, h, hplan, _ => by
      rw [HostDir.plan] at hplan
      obtain rfl := Option.some.inj hplan
      rw [growth_zero]
      exact Spends.pure_iff.mpr ⟨h.inv, Grows.refl s, fun _ _ _ => rfl, rfl, h.met⟩
  | .entry name node rest, s, current, seen, p, h, hplan, hle => by
      rw [HostDir.plan] at hplan
      rw [readDir]
      split at hplan
      case isTrue hhidden =>
        rw [if_pos hhidden]
        exact readDir_takes rest h hplan hle
      case isFalse hkept =>
        rw [if_neg hkept]
        split at hplan
        case isTrue => cases hplan
        case isFalse hlen =>
          rw [if_neg hlen]
          obtain ⟨q, hnode, hmap⟩ := Option.bind_eq_some_iff.mp hplan
          obtain ⟨r, hrest, rfl⟩ := Option.map_eq_some_iff.mp hmap
          have hle' : (s.inode current).nblks + (q.entries + r.entries) ≤ SFS_LN_NBLKS := hle
          have hcost : q.blocks + r.blocks +
              growth (s.inode current).nblks (q.entries + r.entries) =
              (q.blocks + growth (s.inode current).nblks q.entries) +
                (r.blocks + growth ((s.inode current).nblks + q.entries) r.entries) := by
            rw [growth_add]
            omega
          change Takes _ _ (q.blocks + r.blocks +
            growth (s.inode current).nblks (q.entries + r.entries)) _
          rw [hcost]
          apply (addNode_takes node h (Nat.le_of_not_lt hlen) hnode (by omega)).bind
          intro _ t htook
          have htakes := readDir_takes rest (htook.ready h.isDir) hrest (by rw [htook.count]; omega)
          rw [htook.count] at htakes
          apply htakes.imp
          exact fun _ u hu => htook.trans hu

/-- What a node takes, with its entry. -/
theorem addNode_takes : ∀ (node : HostNode) {s : Tool} {current : BitVec 32} {name : Name}
    {seen : List (BitVec 64)} {p : Plan}, Ready s current seen →
      name.bytes.length ≤ SFS_MAX_FNAME_LEN → node.plan seen = some p →
      (s.inode current).nblks + p.entries ≤ SFS_LN_NBLKS →
      Takes (addNode current name node) s (p.blocks + growth (s.inode current).nblks p.entries)
        fun _ t => Took current p.seen p.entries s t
  | .link real target, s, current, name, seen, p, h, hname, hplan, hle => by
      rw [HostNode.plan] at hplan
      obtain ⟨chunk, rfl, hchunk⟩ := Option.bind_eq_some_iff.mp hplan
      split at hchunk
      case isTrue => cases hchunk
      case isFalse hshort =>
        obtain rfl := Option.some.inj hchunk
        rw [addNode]
        exact addLink_takes h hle hname real hshort
  | .file real reads, s, current, name, seen, p, h, hname, hplan, hle => by
      rw [HostNode.plan] at hplan
      rw [addNode]
      split at hplan
      case isTrue hmet =>
        obtain rfl := Option.some.inj hplan
        rw [Nat.zero_add]
        exact addFile_met h hle hname hmet reads
      case isFalse hnew =>
        obtain ⟨k, hlength, hplan⟩ := Option.bind_eq_some_iff.mp hplan
        split at hplan
        case isTrue hk =>
          obtain rfl := Option.some.inj hplan
          exact addFile_takes h hle hname hnew hlength hk
        case isFalse => cases hplan
  | .unsupported, s, current, name, seen, p, h, _, hplan, _ => by
      rw [HostNode.plan] at hplan
      obtain rfl := Option.some.inj hplan
      rw [growth_zero, addNode]
      exact Spends.pure_iff.mpr ⟨h.inv, Grows.refl s, fun _ _ _ => rfl, rfl, h.met⟩
  | .unreadable, _, _, _, _, _, _, _, hplan, _ => by
      rw [HostNode.plan] at hplan
      cases hplan
  | .dir real entries, s, current, name, seen, p, h, hname, hplan, hle => by
      rw [HostNode.plan] at hplan
      split at hplan
      case isTrue => cases hplan
      case isFalse hnew =>
        obtain ⟨q, hentries, hplan⟩ := Option.bind_eq_some_iff.mp hplan
        split at hplan
        case isFalse => cases hplan
        case isTrue hmany =>
          obtain rfl := Option.some.inj hplan
          have hlt : (s.inode current).nblks < SFS_LN_NBLKS := hle
          rw [addNode]
          -- the directory is not on the image yet, so that the search finds nothing
          apply Spends.bind_free (Q := fun r t => r = none ∧ s = t)
          · apply (searchCacheInode_met h.inv real).imp
            rintro r t ⟨rfl, hnone, -⟩
            exact ⟨rfl, hnone.mpr fun hmet => hnew ((h.met real).mpr hmet), rfl⟩
          · rintro _ _ ⟨rfl, rfl⟩
            apply Spends.check_bind rfl
            have hcost : 1 + growth 0 (2 + q.entries) + q.blocks +
                growth (s.inode current).nblks 1 =
                1 + (growth 0 2 +
                  (q.blocks + growth 2 q.entries + growth (s.inode current).nblks 1)) := by
              rw [growth_add 0 2 q.entries, Nat.zero_add]
              omega
            change Takes _ _ (1 + growth 0 (2 + q.entries) + q.blocks +
              growth (s.inode current).nblks 1) _
            rw [hcost]
            apply ((allocCacheInode_takes real SFS_TYPE_DIR).and
              (allocCacheInode_stored h.inv real SFS_TYPE_DIR)).bind
            intro d t hall
            obtain ⟨_, hmade⟩ := hall
            obtain ⟨hd, htype, hempty⟩ := hmade.empty
            have htook := h.made hmade hmade.inv (Grows.refl t) (Frames.refl _ t) rfl
            have hstart : Ready t d (real :: seen) := ⟨hmade.inv, ⟨hd, htype⟩, htook.met⟩
            apply (openDirStart_takes hstart hempty
              (hmade.grows.listed current h.isDir.listed)).bind
            intro _ u hopened
            have hcount : (u.inode d).nblks = 2 := by rw [hopened.count, hempty]
            have hfills :=
              readDir_takes entries (hopened.ready hstart.isDir) hentries (by rwa [hcount])
            rw [hcount] at hfills
            apply hfills.bind
            intro _ v hfilled
            -- the directory that the new one is in has not changed
            have hne : current ≠ d := fun heq => hmade.fresh (heq ▸ h.isDir.listed)
            have hwhole := hopened.trans hfilled
            have htook' : Took current q.seen 0 s v := by
              refine ⟨hwhole.inv, htook.grows.trans hwhole.grows, fun m hm _ => ?_, ?_, hwhole.met⟩
              · have hmd : m ≠ d := fun heq => hmade.fresh (heq ▸ hm)
                rw [hwhole.others m (hmade.grows.listed m hm) hmd]
                exact (hmade.frames.same m hm not_false).nblks h.inv hmade.inv hm hmade.grows
              · rw [hwhole.others current (hmade.grows.listed current h.isDir.listed) hne]
                exact htook.count
            exact htook'.enter h.isDir (hwhole.grows.listed d hd) hlt hname

end

/-! ## The image -/

/-- The blocks after the freemap. -/
def capacity (imgSize : Nat) : Nat := numberOfBlocks imgSize - firstIno (numberOfBlocks imgSize)

/-- The blocks that a host directory takes as the root of an image: the root inode has a
block of its own before the freemap. -/
def HostDir.blocks (home : HostDir) : Option Nat := (home.plan [0]).bind fun p =>
  if 2 + p.entries ≤ SFS_LN_NBLKS then some (growth 0 (2 + p.entries) + p.blocks) else none

/-- An empty image has all its capacity. -/
theorem createSfs_room {s : Tool} {imgSize : Nat} (info : Fin (SFS_MAX_INFO_LEN + 1) → Byte)
    (hsize : firstIno (numberOfBlocks imgSize) < numberOfBlocks imgSize) :
    Ends never (createSfs imgSize info) s fun _ t => t.room = capacity imgSize := by
  have hle := numberOfBlocks_le imgSize
  have hsmall : SFS_MAX_NBLKS < 2 ^ 32 := by decide
  rw [createSfs, if_neg (Nat.not_le_of_lt hsize), ends_bind, ends_modify, allocCacheInode,
    if_pos (by decide), ends_bind, ends_pure, ends_bind, ends_modify, ends_pure]
  show (BitVec.ofNat 32 (numberOfBlocks imgSize)).toNat -
    (BitVec.ofNat 32 (firstIno (numberOfBlocks imgSize))).toNat = _
  rw [BitVec.toNat_ofNat, BitVec.toNat_ofNat, Nat.mod_eq_of_lt (by omega),
    Nat.mod_eq_of_lt (by omega)]
  rfl

theorem createSfs_ready {s : Tool} {imgSize : Nat} (info : Fin (SFS_MAX_INFO_LEN + 1) → Byte)
    (hsize : firstIno (numberOfBlocks imgSize) < numberOfBlocks imgSize) :
    Ends never (createSfs imgSize info) s fun root t => t.room = capacity imgSize ∧
      Ready t root [0] ∧ (t.inode root).nblks = 0 := by
  apply ((createSfs_room info hsize).and
    ((createSfs_spec imgSize info).and (createSfs_made imgSize info))).imp
  rintro root t ⟨hroom, ⟨hinv, hroot, rfl, -⟩, hempty, honly⟩
  refine ⟨hroom, ⟨hinv, hroot, fun real => ?_⟩, by rw [hempty]; rfl⟩
  rw [List.mem_singleton]
  constructor
  · rintro rfl
    exact ⟨rootIno, hroot.listed, by rw [hempty]; rfl⟩
  · rintro ⟨n, hn, hreal⟩
    rw [honly n hn, hempty] at hreal
    exact hreal.symm

/-- Whatever the state of the tool and the size of the image: if each part of the host tree can be
stored, the tool reports that it is out of space exactly when the tree takes more blocks
than there are after the freemap, and otherwise finishes an image whose superblock counts the
blocks that are left. -/
theorem image_fits_iff (s : Tool) {imgSize : Nat} (info : Fin (SFS_MAX_INFO_LEN + 1) → Byte)
    {home : HostDir} {k : Nat}
    (hsize : firstIno (numberOfBlocks imgSize) < numberOfBlocks imgSize)
    (hblocks : home.blocks = some k) :
    (capacity imgSize < k ∧ createImg imgSize info home s = .error .outOfSpace) ∨
      (k ≤ capacity imgSize ∧ ∃ t, createImg imgSize info home s = .ok (⟨⟩, t) ∧
        (Super.ofBytes (t.img SFS_BLKN_SUPER)).unusedBlocks.toNat = capacity imgSize - k) := by
  obtain ⟨p, hplan, hmany⟩ := Option.bind_eq_some_iff.mp hblocks
  split at hmany
  case isFalse => cases hmany
  case isTrue hle =>
    obtain rfl := Option.some.inj hmany
    obtain ⟨root, t, hcreate, hroom, hready, hempty⟩ := (createSfs_ready (s := s) info hsize).ok
    have hopen : Takes (openDir root root home) t (growth 0 (2 + p.entries) + p.blocks) fun _ u =>
        Inv u := by
      have hcost : growth 0 (2 + p.entries) + p.blocks = growth 0 2 +
          (p.blocks + growth 2 p.entries) := by
        rw [growth_add 0 2 p.entries, Nat.zero_add]
        omega
      rw [openDir, hcost]
      apply (openDirStart_takes hready hempty hready.isDir.listed).bind
      intro _ u hopened
      have hcount : (u.inode root).nblks = 2 := by rw [hopened.count, hempty]
      have hfills := readDir_takes home (hopened.ready hready.isDir) hplan (by rwa [hcount])
      rw [hcount] at hfills
      exact hfills.imp fun _ v hv => hv.inv
    have hclose : Takes (openDir root root home >>=
        fun _ => closeSfs) t (growth 0 (2 + p.entries) + p.blocks)
        fun _ v => (Super.ofBytes (v.img SFS_BLKN_SUPER)).unusedBlocks.toNat = v.room := by
      apply hopen.bind_last
      intro _ u hinv
      apply (closeSfs_spec hinv.built.accounted).imp
      rintro _ v ⟨hrest, hclosed⟩
      have hsame : v.room = u.room := by rw [hrest]; rfl
      refine ⟨hsame, ?_⟩
      rw [hclosed.super_eq, hsame]
      exact hinv.built.accounted.unused
    have hrun : createImg imgSize info home s = (openDir root root home >>= fun _ => closeSfs) t :=
      bind_ok hcreate
    rw [hrun]
    rcases hclose.run with ⟨hless, herror⟩ | ⟨hfits, _, v, hok, hleft, hsuper⟩
    · exact .inl ⟨hroom ▸ hless, herror⟩
    · exact .inr ⟨hroom ▸ hfits, v, hok, by rw [hsuper, hleft, hroom]⟩

/-- A host directory with a file of two bytes. -/
def smallHome : HostDir :=
  .entry ⟨[0x62], by decide⟩
    (.file 7 [some ⟨fun _ => 0x61, 2, by decide⟩, some ⟨fun _ => 0, 0, Nat.zero_le _⟩]) .done

theorem smallHome_blocks : smallHome.blocks = some 5 := by decide

/-- The directory with a file of two bytes needs an image of eight blocks. -/
theorem image_fits_iff_small :
    createImg (7 * 4096) (fun _ => 0) smallHome blankTool = .error .outOfSpace ∧
    ∃ t, createImg (8 * 4096) (fun _ => 0) smallHome blankTool = .ok (⟨⟩, t) := by
  -- the sizes stay variables here, or the elaborator runs the tool
  obtain ⟨seven, hseven⟩ : ∃ size, size = 7 * 4096 := ⟨_, rfl⟩
  obtain ⟨eight, height⟩ : ∃ size, size = 8 * 4096 := ⟨_, rfl⟩
  rw [← hseven, ← height]
  constructor
  · have hsize : firstIno (numberOfBlocks seven) < numberOfBlocks seven := by
      subst hseven
      decide
    have hless : capacity seven < 5 := by
      subst hseven
      decide
    rcases image_fits_iff blankTool (fun _ => 0) hsize smallHome_blocks
      with ⟨_, herror⟩ | ⟨hfits, _⟩
    · exact herror
    · exact absurd hfits (Nat.not_le_of_lt hless)
  · have hsize : firstIno (numberOfBlocks eight) < numberOfBlocks eight := by
      subst height
      decide
    have hfits : 5 ≤ capacity eight := by
      subst height
      decide
    rcases image_fits_iff blankTool (fun _ => 0) hsize smallHome_blocks
      with ⟨hless, _⟩ | ⟨_, t, hok, _⟩
    · exact absurd hfits (Nat.not_le_of_lt hless)
    · exact ⟨t, hok⟩

end Ucore.Sfs.Mksfs
