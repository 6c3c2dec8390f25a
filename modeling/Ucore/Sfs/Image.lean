import Mathlib.Order.Interval.Finset.Nat
import Ucore.Sfs.Mount
import Ucore.Sfs.Walk

/-!
# Images the kernel can mount

`close_sfs` writes the freemap, the superblock, the index blocks and the inodes. The
freemap has the blocks that were not handed out, as many as the superblock counts.
-/

namespace Ucore.Sfs.Mksfs

open Machine

/-! ## The start -/

theorem numberOfBlocks_le (imgSize : Nat) : numberOfBlocks imgSize ≤ SFS_MAX_NBLKS :=
    min_le_right _ _

/-- A state of which only the counters are set, with the root directory. -/
theorem Inv.created {s : Tool} (hsmall : s.ninos.toNat ≤ SFS_MAX_NBLKS)
    (hmagic : s.super.magic = SFS_MAGIC) (hsuper : s.super.blocks = s.ninos)
    (hunused : s.super.unusedBlocks.toNat = s.ninos.toNat - s.nextIno.toNat)
    (hnext : s.nextIno.toNat = s.start) (hlt : s.start < s.ninos.toNat)
    (hhanded : s.handed = []) (hinodes : s.inodes = fun _ => [])
    (hblocks : s.blocks = fun _ => []) :
    Inv (s.newInode 0 SFS_TYPE_DIR rootIno) := by
  have hlisted : ∀ n, (s.newInode 0 SFS_TYPE_DIR rootIno).Listed n ↔ n = rootIno := by
    intro n
    rw [listed_newInode]
    refine or_iff_left fun hn => ?_
    obtain ⟨b, hb⟩ := hn
    rw [hinodes] at hb
    exact List.not_mem_nil hb
  have hcached : ∀ n, ¬(s.newInode 0 SFS_TYPE_DIR rootIno).Cached n := by
    rintro n ⟨b, hb⟩
    change n ∈ s.blocks b at hb
    rw [hblocks] at hb
    exact List.not_mem_nil hb
  have hroot : (s.newInode 0 SFS_TYPE_DIR rootIno).inode rootIno = emptyInode 0 SFS_TYPE_DIR := by
    rw [newInode_inode, if_pos rfl]
  have hused : ∀ u, (s.newInode 0 SFS_TYPE_DIR rootIno).Used u → u = .inode rootIno := by
    intro u hu
    cases u with
    | inode n => rw [(hlisted n).mp hu]
    | index n => exact absurd hu (hcached n)
    | data file i =>
        obtain ⟨hfile, hi⟩ := hu
        rw [(hlisted file).mp hfile, hroot] at hi
        exact absurd hi (Nat.not_lt_zero i)
  refine ⟨⟨?_, ?_, ?_, ?_⟩, fun d hd _ => ?_, fun d ino name hd hname => ?_⟩
  · exact {
      small := hsmall
      magic := hmagic
      blocks := hsuper
      unused := hunused
      start_le := hnext.ge
      nextIno_le := hnext ▸ hlt.le
      handed_nodup := hhanded ▸ List.nodup_nil
      mem_handed := by
        intro n
        show n ∈ s.handed ↔ s.start ≤ n.toNat ∧ n.toNat < s.nextIno.toNat
        rw [hhanded, hnext]
        exact iff_of_false List.not_mem_nil fun h => absurd h.1 (Nat.not_le_of_lt h.2)
      inodes_bucket := by
        intro b n hn
        obtain rfl := (hlisted n).mp ⟨b, hn⟩
        rw [hroot]
        change rootIno ∈ Function.update s.inodes (hash64 0) _ b at hn
        rw [Function.update_apply, hinodes] at hn
        split at hn
        case isTrue hb => exact hb
        case isFalse => exact absurd hn List.not_mem_nil
      inodes_nodup := nodup_chains _ (fun b => by rw [hinodes]; exact List.nodup_nil)
        fun ⟨b, hb⟩ => by
          rw [hinodes] at hb
          exact List.not_mem_nil hb
      blocks_bucket := fun b n hn => absurd ⟨b, hn⟩ (hcached n)
      blocks_nodup := fun b => by
        show (s.blocks b).Nodup
        rw [hblocks]
        exact List.nodup_nil
      root := (hlisted rootIno).mpr rfl
      number_mem := fun u hu hne => absurd (hused u hu) hne
      number_inj := fun u v hu hv _ => (hused u hu).trans (hused v hv).symm }
  · intro f hf
    rw [(hlisted f).mp hf, hroot]
    exact FileOk.empty _ 0 SFS_TYPE_DIR
  · intro f n hf hpoints
    rw [(hlisted f).mp hf, hroot] at hpoints
    exact absurd hpoints (emptyInode_points _ _ n)
  · exact fun f g n hf hg _ _ => ((hlisted f).mp hf).trans ((hlisted g).mp hg).symm
  · rw [(hlisted d).mp hd, hroot]
    exact ⟨rfl, fun i ino name hname => by cases hname⟩
  · rw [(hlisted d).mp hd, hroot] at hname
    cases hname

/-- An empty image with the root directory. -/
theorem createSfs_spec {s : Tool} (imgSize : Nat) (info : Fin (SFS_MAX_INFO_LEN + 1) → Byte) :
    Ends Excused (createSfs imgSize info) s fun root t =>
      Inv t ∧ IsDir t root ∧ root = rootIno ∧ t.ninos.toNat = numberOfBlocks imgSize := by
  have hle := numberOfBlocks_le imgSize
  have hsmall : SFS_MAX_NBLKS < 2 ^ 32 := by decide
  have htoNat : ∀ n ≤ numberOfBlocks imgSize, (BitVec.ofNat 32 n).toNat = n := by
    intro n hn
    rw [BitVec.toNat_ofNat]
    exact Nat.mod_eq_of_lt (by omega)
  rw [createSfs]
  split
  case isTrue => exact ⟨nofun, nofun, nofun⟩
  case isFalse hlt =>
    have hlt : firstIno (numberOfBlocks imgSize) < numberOfBlocks imgSize := Nat.lt_of_not_le hlt
    have hninos := htoNat _ le_rfl
    have hnext := htoNat _ hlt.le
    rw [ends_bind, ends_modify, allocCacheInode, if_pos (by decide), ends_bind,
      ends_pure, ends_bind, ends_modify, ends_pure]
    have hinv : Inv _ := Inv.created (s := { s with
        super := ⟨SFS_MAGIC, BitVec.ofNat 32 (numberOfBlocks imgSize),
          BitVec.ofNat 32 (numberOfBlocks imgSize - firstIno (numberOfBlocks imgSize)), info⟩
        ninos := BitVec.ofNat 32 (numberOfBlocks imgSize)
        nextIno := BitVec.ofNat 32 (firstIno (numberOfBlocks imgSize))
        inodes := fun _ => []
        blocks := fun _ => []
        handed := [] })
      (hninos.le.trans hle) rfl rfl (by rw [hninos, hnext]; exact htoNat _ (Nat.sub_le _ _))
      (by rw [hnext, Tool.start, hninos]) (by rw [Tool.start, hninos]; exact hlt) rfl rfl rfl
    refine ⟨hinv, ⟨hinv.built.accounted.root, ?_⟩, rfl, hninos⟩
    rw [newInode_inode, if_pos rfl]
    rfl

/-! ## The freemap -/

theorem word_setWord_eq (b : Bytes) (i : Nat) (w : BitVec 32) :
    word (setWord b i w) = Function.update (word b) i w := by
  funext j
  rw [word_setWord, Function.update_apply]

/-- The loop sets the bits it is given. -/
theorem setBits_bit (js : List Nat) (data : Bytes) (k : Nat) :
    bitOf (word (js.foldl
      (fun data j => setWord data (j / 32) (word data (j / 32) ||| 1#32 <<< (j % 32))) data)) k =
      (decide (k ∈ js) || bitOf (word data) k) := by
  induction js generalizing data with
  | nil => simp
  | cons j js ih =>
      rw [List.foldl_cons, ih, word_setWord_eq, or_mask]
      by_cases hk : k = j
      · simp [hk]
      · simp [hk]

/-- A set bit is a block that was not handed out. -/
theorem freemapBlock_bit {i nextIno ninos k : Nat} (hk : k < SFS_BLKBITS) (hle : i ≤ ninos) :
    bitOf (word (freemapBlock i nextIno ninos)) k = decide (nextIno ≤ i + k ∧ i + k < ninos) := by
  have hzero : bitOf (word fun _ => 0) k = false := by
    rw [bitOf, word_zero]
    simp
  rw [freemapBlock]
  split
  case isTrue hfree =>
    rw [setBits_bit, hzero, Bool.or_false, decide_eq_decide, List.mem_range']
    unfold freeStart freeEnd
    constructor
    · rintro ⟨j, hj, heq⟩
      split at hj <;> split at hj <;> split at heq <;> omega
    · intro hin
      refine ⟨k - if i < nextIno then nextIno - i else 0, ?_, ?_⟩
      · split <;> split <;> omega
      · split <;> omega
  case isFalse hused =>
    rw [hzero]
    exact (decide_eq_false (by omega)).symm

/-! ## Closing -/

section Close

variable {s t : Tool} {n : BitVec 32}

/-- Blocks of the freemap. -/
def freemapBlocks (ninos : Nat) : Nat := (ninos + SFS_BLKBITS - 1) / SFS_BLKBITS

/-- The loop writes the blocks that are left, each from its first bit on. -/
theorem writeFreemap_spec {left j : Nat} {ino : BitVec 32} (hino : ino.toNat = SFS_BLKN_FREEMAP + j)
    (hlt : ino.toNat + left ≤ s.ninos.toNat) :
    Ends never (writeFreemap left (j * SFS_BLKBITS) ino) s fun _ t => t = { s with img := t.img } ∧
      ∀ k, t.img k =
        if SFS_BLKN_FREEMAP + j ≤ k ∧ k < SFS_BLKN_FREEMAP + j + left then
          freemapBlock ((k - SFS_BLKN_FREEMAP) * SFS_BLKBITS) s.nextIno.toNat s.ninos.toNat
        else s.img k := by
  induction left generalizing j ino s with
  | zero =>
      refine ⟨rfl, fun k => ?_⟩
      rw [if_neg (by omega)]
  | succ left ih =>
      have hnext : (ino + 1).toNat = SFS_BLKN_FREEMAP + (j + 1) := by
        have hbound := s.ninos.isLt
        have hone : (1 : BitVec 32).toNat = 1 := rfl
        rw [BitVec.toNat_add, hone, Nat.mod_eq_of_lt (by omega)]
        omega
      have hin : ino < s.ninos := by
        show ino.toNat < s.ninos.toNat
        omega
      rw [writeFreemap, ends_bind, ends_get, ends_bind]
      apply (writeBlock_spec hin le_rfl _).imp
      intro _ u hu
      rw [if_neg (not_not_intro rfl)] at hu
      have hih := ih (s := u) hnext (by rw [hu]; show (ino + 1).toNat + left ≤ s.ninos.toNat; omega)
      rw [Nat.succ_mul] at hih
      apply hih.imp
      intro _ t ht
      obtain ⟨hrest, himg⟩ := ht
      refine ⟨by rw [hrest, hu], fun k => ?_⟩
      rw [himg k]
      by_cases hk : k = ino.toNat
      · rw [if_neg (by omega), if_pos (by omega), hu, hk]
        show Function.update s.img ino.toNat _ ino.toNat = _
        rw [Function.update_self ino.toNat _ s.img, hino, Nat.add_sub_cancel_left]
      · have hsame : u.img k = s.img k := by
          rw [hu]
          exact Function.update_of_ne hk _ _
        have hnextIno : u.nextIno = s.nextIno := by rw [hu]
        have hninos : u.ninos = s.ninos := by rw [hu]
        rw [hsame, hnextIno, hninos]
        by_cases hin : SFS_BLKN_FREEMAP + (j + 1) ≤ k ∧ k < SFS_BLKN_FREEMAP + (j + 1) + left
        · rw [if_pos hin, if_pos (by omega)]
        · rw [if_neg hin, if_neg (by omega)]

/-- The block of an inode. -/
def inodeBlock (ci : CacheInode) : Bytes := splice 0 68 (ofWords ci.inode.words) fun _ => 0

/-- The blocks and inodes with the numbers `P` were written. -/
structure Flushing (s : Tool) (P : BitVec 32 → Prop) (t : Tool) : Prop where
  rest : t = { s with img := t.img }
  blocks : ∀ n, s.Cached n → P n → t.img n.toNat = s.cache n
  inodes : ∀ n, s.Listed n → P n → t.img n.toNat = inodeBlock (s.inode n)
  other : ∀ k, (∀ n, s.Cached n ∨ s.Listed n → n.toNat ≠ k) → t.img k = s.img k

theorem Accounted.cached_lt (hs : Accounted s) (hn : s.Cached n) : n < s.ninos :=
  hs.handed_lt (hs.number_mem (.index n) hn fun heq => by cases heq)

theorem Accounted.listed_lt (hs : Accounted s) (hn : s.Listed n) : n < s.ninos := by
  by_cases hroot : n = rootIno
  · have hone : rootIno.toNat = 1 := by decide
    have hstart := hs.start_le
    have hnext := hs.nextIno_le
    have hpos := firstIno_pos s.ninos.toNat
    unfold Tool.start at hstart
    show n.toNat < s.ninos.toNat
    rw [hroot]
    omega
  · exact hs.handed_lt (hs.number_mem (.inode n) hn fun heq => hroot (Use.inode.inj heq))

theorem Accounted.not_both (hs : Accounted s) (hcached : s.Cached n) : ¬s.Listed n := by
  intro hlisted
  cases hs.number_inj (.index n) (.inode n) hcached hlisted rfl

/-- One more block is written, with what belongs there. -/
theorem Flushing.write {P : BitVec 32 → Prop} (hst : Flushing s P t) {data : Bytes}
    (hn : s.Cached n ∨ s.Listed n) (hblock : s.Cached n → data = s.cache n)
    (hinode : s.Listed n → data = inodeBlock (s.inode n)) :
    Flushing s (fun m => P m ∨ m = n) { t with img := Function.update t.img n.toNat data } where
  rest := by
    conv_lhs => rw [hst.rest]
  blocks m hm hP := by
    show Function.update t.img n.toNat data m.toNat = s.cache m
    rw [Function.update_apply]
    split
    case isTrue heq =>
      obtain rfl := BitVec.eq_of_toNat_eq heq
      exact hblock hm
    case isFalse hne => exact hst.blocks m hm (hP.resolve_right fun heq => hne (heq ▸ rfl))
  inodes m hm hP := by
    show Function.update t.img n.toNat data m.toNat = _
    rw [Function.update_apply]
    split
    case isTrue heq =>
      obtain rfl := BitVec.eq_of_toNat_eq heq
      exact hinode hm
    case isFalse hne => exact hst.inodes m hm (hP.resolve_right fun heq => hne (heq ▸ rfl))
  other k hk := by
    show Function.update t.img n.toNat data k = s.img k
    rw [Function.update_of_ne (hk n hn).symm]
    exact hst.other k hk

theorem Flushing.mono {P Q : BitVec 32 → Prop} (hst : Flushing s P t) (himp : ∀ n, Q n → P n) :
    Flushing s Q t :=
  ⟨hst.rest, fun n hn hQ => hst.blocks n hn (himp n hQ), fun n hn hQ => hst.inodes n hn (himp n hQ),
    hst.other⟩

theorem Flushing.cache {P : BitVec 32 → Prop} (hst : Flushing s P t) : t.cache = s.cache := by
  rw [hst.rest]

theorem Flushing.inode {P : BitVec 32 → Prop} (hst : Flushing s P t) : t.inode = s.inode := by
  rw [hst.rest]

theorem Flushing.ninos {P : BitVec 32 → Prop} (hst : Flushing s P t) : t.ninos = s.ninos := by
  rw [hst.rest]

theorem flushCacheBlock_spec {P : BitVec 32 → Prop} (hs : Accounted s) (hst : Flushing s P t)
    (hn : s.Cached n) :
    Ends never (flushCacheBlock n) t fun _ u => Flushing s (fun m => P m ∨ m = n) u := by
  have hlt : n < t.ninos := hst.ninos ▸ hs.cached_lt hn
  rw [flushCacheBlock, ends_bind, ends_get]
  apply (writeBlock_spec hlt le_rfl _).imp
  intro _ u hu
  rw [hu, if_neg (not_not_intro rfl), congrFun hst.cache n]
  exact hst.write (.inl hn) (fun _ => rfl) fun hlisted => absurd hlisted (hs.not_both hn)

theorem flushCacheInode_spec {P : BitVec 32 → Prop} (hs : Accounted s) (hst : Flushing s P t)
    (hn : s.Listed n) :
    Ends never (flushCacheInode n) t fun _ u => Flushing s (fun m => P m ∨ m = n) u := by
  have hlt : n < t.ninos := hst.ninos ▸ hs.listed_lt hn
  rw [flushCacheInode, ends_bind, ends_get]
  apply (writeBlock_spec hlt (by decide) _).imp
  intro _ u hu
  rw [hu, if_pos (by decide), congrFun hst.inode n]
  exact hst.write (.inr hn) (fun hcached => absurd hn (hs.not_both hcached)) fun _ => rfl

/-- A loop that flushes one number after the other. -/
theorem flushAll_spec {flush : BitVec 32 → ToolM PUnit} {numbers : List (BitVec 32)}
    (hflush : ∀ n ∈ numbers, ∀ P t, Flushing s P t →
      Ends never (flush n) t fun _ u => Flushing s (fun m => P m ∨ m = n) u)
    {P : BitVec 32 → Prop} (hst : Flushing s P t) :
    Ends never (numbers.forM flush) t fun _ u => Flushing s (fun m => P m ∨ m ∈ numbers) u := by
  induction numbers generalizing P t with
  | nil => exact hst.mono fun n hn => hn.resolve_right List.not_mem_nil
  | cons n rest ih =>
      have hcons : (n :: rest).forM flush = flush n >>= fun _ => rest.forM flush := rfl
      rw [hcons, ends_bind]
      apply (hflush n List.mem_cons_self P t hst).imp
      intro _ u hu
      apply (ih (fun m hm => hflush m (List.mem_cons_of_mem _ hm)) hu).imp
      intro _ v hv
      apply hv.mono
      intro m hm
      rcases hm with hP | hm
      · exact .inl (.inl hP)
      · exact (List.mem_cons.mp hm).elim (fun heq => .inl (.inr heq)) .inr

theorem flushBucket_spec {P : BitVec 32 → Prop} (hs : Accounted s) (hst : Flushing s P t)
    (b : Nat) :
    Ends never (flushBucket b) t fun _ u =>
      Flushing s (fun m => (P m ∨ m ∈ s.blocks b) ∨ m ∈ s.inodes b) u := by
  have hblocks : t.blocks = s.blocks := by rw [hst.rest]
  rw [flushBucket, ends_bind, ends_get, ends_bind, hblocks]
  apply (flushAll_spec (fun n hn P t hst => flushCacheBlock_spec hs hst ⟨b, hn⟩) hst).imp
  intro _ u hu
  have hinodes : u.inodes = s.inodes := by rw [hu.rest]
  rw [ends_bind, ends_get, hinodes]
  exact flushAll_spec (fun n hn P t hst => flushCacheInode_spec hs hst ⟨b, hn⟩) hu

theorem flushBuckets_spec (hs : Accounted s) (buckets : List Nat) {P : BitVec 32 → Prop}
    (hst : Flushing s P t) :
    Ends never (buckets.forM flushBucket) t fun _ u =>
      Flushing s (fun m => P m ∨ ∃ b ∈ buckets, m ∈ s.blocks b ∨ m ∈ s.inodes b) u := by
  induction buckets generalizing P t with
  | nil => exact hst.mono fun n hn => hn.resolve_right fun ⟨_, hb, _⟩ => List.not_mem_nil hb
  | cons b rest ih =>
      have hcons : (b :: rest).forM flushBucket = flushBucket b >>=
          fun _ => rest.forM flushBucket :=
        rfl
      rw [hcons, ends_bind]
      apply (flushBucket_spec hs hst b).imp
      intro _ u hu
      apply (ih hu).imp
      intro _ v hv
      apply hv.mono
      intro m hm
      rcases hm with hP | ⟨c, hc, hm⟩
      · exact .inl (.inl (.inl hP))
      · rcases List.mem_cons.mp hc with rfl | hc
        · exact .inl (hm.elim (fun h => .inl (.inr h)) .inr)
        · exact .inr ⟨c, hc, hm⟩

/-- What `close_sfs` leaves on the image. -/
structure Closed (s : Tool) (img : Blocks) : Prop where
  super : img SFS_BLKN_SUPER = splice 0 44 s.super.bytes fun _ => 0
  freemap : ∀ j < freemapBlocks s.ninos.toNat,
    img (SFS_BLKN_FREEMAP + j) = freemapBlock (j * SFS_BLKBITS) s.nextIno.toNat s.ninos.toNat
  blocks : ∀ n, s.Cached n → img n.toNat = s.cache n
  inodes : ∀ n, s.Listed n → img n.toNat = inodeBlock (s.inode n)
  data : ∀ k, s.start ≤ k → (∀ n, s.Cached n ∨ s.Listed n → n.toNat ≠ k) → img k = s.img k

theorem closeSfs_spec (hs : Accounted s) :
    Ends never closeSfs s fun _ t => t = { s with img := t.img } ∧ Closed s t.img := by
  have hstart : SFS_BLKN_FREEMAP + freemapBlocks s.ninos.toNat = s.start := rfl
  have hroom : s.start ≤ s.ninos.toNat := hs.start_le.trans hs.nextIno_le
  have htwo : (BitVec.ofNat 32 SFS_BLKN_FREEMAP).toNat = SFS_BLKN_FREEMAP + 0 := by decide
  have hzero : (BitVec.ofNat 32 SFS_BLKN_SUPER).toNat = 0 := by decide
  have hfreemap :=
    writeFreemap_spec (s := s) (j := 0) htwo (by rw [htwo]; exact hstart.le.trans hroom)
  rw [Nat.zero_mul] at hfreemap
  -- the numbers of blocks and inodes are past the freemap, but for the root
  have huse : ∀ n, s.Cached n ∨ s.Listed n → n = rootIno ∨ s.start ≤ n.toNat := by
    intro n hn
    by_cases hroot : n = rootIno
    · exact .inl hroot
    · have hmem : n ∈ s.handed := by
        rcases hn with hn | hn
        · exact hs.number_mem (.index n) hn fun heq => by cases heq
        · exact hs.number_mem (.inode n) hn fun heq => hroot (Use.inode.inj heq)
      exact .inr ((hs.mem_handed n).mp hmem).1
  have hroot : rootIno.toNat = 1 := by decide
  have hpos := firstIno_pos s.ninos.toNat
  rw [closeSfs, ends_bind, ends_get, ends_bind]
  apply hfreemap.imp
  intro _ u hu
  obtain ⟨hrest, himg⟩ := hu
  have hninos : u.ninos = s.ninos := by rw [hrest]
  have hlt : BitVec.ofNat 32 SFS_BLKN_SUPER < u.ninos := by
    rw [hninos]
    show (BitVec.ofNat 32 SFS_BLKN_SUPER).toNat < s.ninos.toNat
    unfold Tool.start at hroom
    omega
  rw [ends_bind]
  apply (writeBlock_spec hlt (by decide) s.super.bytes).imp
  intro _ v hv
  rw [if_pos (by decide), hzero] at hv
  have hvrest : v = { s with img := v.img } := by rw [hv, hrest]
  have hstarted : Flushing v (fun _ => False) v :=
    ⟨rfl, fun _ _ h => h.elim, fun _ _ h => h.elim, fun _ _ => rfl⟩
  have hvs : Accounted v := by
    rw [hvrest]
    exact hs.congr s.inode s.cache s.entry v.img (fun _ => rfl) fun _ => rfl
  generalize hbuckets : List.range HASH_LIST_SIZE = buckets
  have hall : ∀ b < HASH_LIST_SIZE, b ∈ buckets := fun b hb => hbuckets ▸ List.mem_range.mpr hb
  apply (flushBuckets_spec hvs buckets hstarted).imp
  intro _ t ht
  have hcached : ∀ n, v.Cached n ↔ s.Cached n := by
    intro n
    rw [hvrest]
    exact Iff.rfl
  have hlisted : ∀ n, v.Listed n ↔ s.Listed n := by
    intro n
    rw [hvrest]
    exact Iff.rfl
  have hcache : v.cache = s.cache := by rw [hvrest]
  have hinode : v.inode = s.inode := by rw [hvrest]
  -- what is not flushed is as it was written before
  have hother : ∀ k, (∀ n, s.Cached n ∨ s.Listed n → n.toNat ≠ k) → t.img k = v.img k := by
    intro k hk
    apply ht.other
    intro n hn
    exact hk n (hn.imp (hcached n).mp (hlisted n).mp)
  have hvimg : ∀ k, k ≠ 0 → v.img k = u.img k := by
    intro k hk
    rw [hv]
    exact Function.update_of_ne hk _ _
  -- the superblock, the freemap, the inodes, the blocks and the rest are on the image
  refine ⟨by rw [ht.rest, hvrest], ?_, ?_, ?_, ?_, ?_⟩
  · show t.img 0 = _
    rw [hother 0 ?_, hv]
    · exact Function.update_self 0 _ u.img
    · intro n hn heq
      rcases huse n hn with rfl | hge
      · omega
      · unfold Tool.start at hge
        omega
  · intro j hj
    rw [hother _ ?_, hvimg _ (by unfold SFS_BLKN_FREEMAP; omega), himg, if_pos (by omega),
      Nat.add_sub_cancel_left]
    intro n hn heq
    rcases huse n hn with rfl | hge
    · unfold SFS_BLKN_FREEMAP at heq
      omega
    · omega
  · intro n hn
    obtain ⟨b, hb⟩ := hn
    have hbucket : b < HASH_LIST_SIZE := hs.blocks_bucket b n hb ▸ hash32_lt 0
    have hvb : n ∈ v.blocks b := by
      rw [hvrest]
      exact hb
    rw [ht.blocks n ⟨b, hvb⟩ (.inr ⟨b, hall b hbucket, .inl hvb⟩), hcache]
  · intro n hn
    obtain ⟨b, hb⟩ := hn
    have hbucket : b < HASH_LIST_SIZE := hs.inodes_bucket b n hb ▸ hash32_lt _
    have hvb : n ∈ v.inodes b := by
      rw [hvrest]
      exact hb
    rw [ht.inodes n ⟨b, hvb⟩ (.inr ⟨b, hall b hbucket, .inr hvb⟩), hinode]
  · intro k hk hn
    have hne : k ≠ 0 := by
      unfold Tool.start at hk
      omega
    rw [hother k hn, hvimg k hne, himg, if_neg (by omega)]

/-! ## The mount -/

variable {img : Blocks}

theorem Closed.super_eq (himg : Closed s img) : Super.ofBytes (img SFS_BLKN_SUPER) = s.super := by
  rw [himg.super, Super.ofBytes_splice]

theorem Accounted.freemapBlocks_eq (hs : Accounted s) :
    sfsFreemapBlocks s.super = freemapBlocks s.ninos.toNat := by
  have hsmall := hs.small
  rw [sfsFreemapBlocks, hs.blocks]
  unfold roundupDiv freemapBlocks SFS_BLKBITS SFS_BLKSIZE
  unfold SFS_MAX_NBLKS at hsmall
  omega

theorem Accounted.freemapBits_eq (hs : Accounted s) :
    sfsFreemapBits s.super = freemapBlocks s.ninos.toNat * SFS_BLKBITS := by
  have hsmall := hs.small
  rw [sfsFreemapBits, hs.blocks]
  unfold roundup freemapBlocks SFS_BLKBITS SFS_BLKSIZE
  unfold SFS_MAX_NBLKS at hsmall
  omega

/-- The bits of the freemap on the image. -/
theorem Closed.diskBit_eq (himg : Closed s img) {i : Nat}
    (hi : i < freemapBlocks s.ninos.toNat * SFS_BLKBITS) :
    diskBit img i = decide (s.nextIno.toNat ≤ i ∧ i < s.ninos.toNat) := by
  have hB : 0 < SFS_BLKBITS := by decide
  have hj : i / SFS_BLKBITS < freemapBlocks s.ninos.toNat := (Nat.div_lt_iff_lt_mul hB).mpr hi
  have hk : i % SFS_BLKBITS < SFS_BLKBITS := Nat.mod_lt i hB
  have hle : i / SFS_BLKBITS * SFS_BLKBITS ≤ s.ninos.toNat := by
    unfold freemapBlocks at hj
    unfold SFS_BLKBITS SFS_BLKSIZE at hj ⊢
    omega
  have hmod : i % 32 = i % SFS_BLKBITS % 32 := by
    unfold SFS_BLKBITS SFS_BLKSIZE
    omega
  have hbit := @freemapBlock_bit _ s.nextIno.toNat _ _ hk hle
  rw [bitOf, Nat.div_add_mod'] at hbit
  rw [diskBit, himg.freemap _ hj, hmod, hbit]

theorem Closed.diskBits_eq (hs : Accounted s) (himg : Closed s img) :
    diskBits img (sfsFreemapBits s.super) = Finset.Ico s.nextIno.toNat s.ninos.toNat := by
  have hcover : s.ninos.toNat ≤ freemapBlocks s.ninos.toNat * SFS_BLKBITS := by
    unfold freemapBlocks SFS_BLKBITS SFS_BLKSIZE
    omega
  ext i
  rw [diskBits, Finset.mem_filter, Finset.mem_range, Finset.mem_Ico, hs.freemapBits_eq]
  constructor
  · rintro ⟨hi, hbit⟩
    rwa [himg.diskBit_eq hi, decide_eq_true_eq] at hbit
  · intro hi
    have hlt := hi.2.trans_le hcover
    rw [himg.diskBit_eq hlt, decide_eq_true_eq]
    exact ⟨hlt, hi⟩

theorem Closed.count (hs : Accounted s) (himg : Closed s img) :
    (diskBits img (sfsFreemapBits s.super)).card = s.super.unusedBlocks.toNat := by
  rw [himg.diskBits_eq hs, Nat.card_Ico, hs.unused]

/-- No assertion of a mount fails on the image. -/
theorem Closed.not_fatal (hs : Accounted s) (himg : Closed s img) {answers : Answers} {dev : Device}
    (hdisk : dev.disk = img) : ¬MountFatal answers dev := by
  have hsuper : dev.super = s.super := by rw [Device.super, hdisk, himg.super_eq]
  have hsmall := hs.small
  have hstart := hs.start_le.trans hs.nextIno_le
  have hpos := firstIno_pos s.ninos.toNat
  intro hfatal
  rcases hfatal.wrong with hnone | hwrong
  · rw [Super.NoBits.iff, hsuper, hs.freemapBits_eq] at hnone
    unfold freemapBlocks SFS_BLKBITS SFS_BLKSIZE at hnone
    unfold Tool.start at hstart
    omega
  · have hcount := hwrong.count
    rw [hsuper, hdisk] at hcount
    exact hcount (himg.count hs)

end Close

/-- The superblock, the root inode and the freemap. -/
def Reserved (ninos b : Nat) : Prop :=
  b = SFS_BLKN_SUPER ∨ b = SFS_BLKN_ROOT ∨
    SFS_BLKN_FREEMAP ≤ b ∧ b < SFS_BLKN_FREEMAP + freemapBlocks ninos

theorem reserved_iff (ninos b : Nat) : Reserved ninos b ↔ b < firstIno ninos := by
  unfold Reserved freemapBlocks firstIno SFS_BLKN_SUPER SFS_BLKN_ROOT SFS_BLKN_FREEMAP
  generalize (ninos + SFS_BLKBITS - 1) / SFS_BLKBITS = blocks
  omega

/-- The superblock that the kernel reads. -/
def Tool.superOnImage (s : Tool) : Super := Super.ofBytes (s.img SFS_BLKN_SUPER)

/-- The numbers that were handed out have one use each, and the freemap and the superblock
on the image tell the kernel which blocks are left. -/
structure Consistent (imgSize : Nat) (s : Tool) : Prop where
  ninos : s.ninos.toNat = numberOfBlocks imgSize
  handed_distinct : s.handed.Nodup
  outside : ∀ n ∈ s.handed, ¬Reserved s.ninos.toNat n.toNat ∧ n.toNat < s.ninos.toNat
  used_handed : ∀ u, s.Used u → u ≠ .inode rootIno → s.number u ∈ s.handed
  used_distinct : ∀ u v, s.Used u → s.Used v → s.number u = s.number v → u = v
  cached_once : ∀ b, (s.inodes b).Nodup ∧ (s.blocks b).Nodup
  super : s.superOnImage.magic = SFS_MAGIC ∧ s.superOnImage.blocks = s.ninos
  freemap_blocks : sfsFreemapBlocks s.superOnImage = freemapBlocks s.ninos.toNat
  freemap : ∀ b < sfsFreemapBits s.superOnImage, diskBit s.img b = true ↔
    b < s.ninos.toNat ∧ ¬Reserved s.ninos.toNat b ∧ ∀ n ∈ s.handed, n.toNat ≠ b
  count : (diskBits s.img (sfsFreemapBits s.superOnImage)).card = s.superOnImage.unusedBlocks.toNat
  mount_safe : ∀ answers dev heap, dev.disk = s.img → MountSafe answers dev heap
  mounts : ∀ answers dev heap, dev.disk = s.img → dev.dBlocksize = SFS_BLKSIZE →
    s.ninos.toNat ≤ dev.dBlocks → (∀ n, answers.full n = false) → (∀ n, answers.io n = 0) →
    Ends never (sfsDoMount answers dev) ⟨heap, 0, 0⟩ fun r _ => ∃ sfs, r = .ok sfs

theorem Closed.consistent {s : Tool} {img : Blocks} {imgSize : Nat} (hs : Accounted s)
    (himg : Closed s img) (hninos : s.ninos.toNat = numberOfBlocks imgSize) :
    Consistent imgSize { s with img := img } := by
  have hsuper : ({ s with img := img } : Tool).superOnImage = s.super := himg.super_eq
  have hout := hs.congr s.inode s.cache s.entry img (fun _ => rfl) fun _ => rfl
  exact {
    ninos := hninos
    handed_distinct := hs.handed_nodup
    outside := by
      intro n hn
      rw [reserved_iff]
      exact ⟨Nat.not_lt_of_le ((hs.mem_handed n).mp hn).1, hs.handed_lt hn⟩
    used_handed := hout.number_mem
    used_distinct := hout.number_inj
    cached_once := fun b => ⟨hs.inodes_nodup b, hs.blocks_nodup b⟩
    super := by
      rw [hsuper]
      exact ⟨hs.magic, hs.blocks⟩
    freemap_blocks := by
      rw [hsuper]
      exact hs.freemapBlocks_eq
    freemap := by
      intro b hb
      have hbound := s.ninos.isLt
      rw [hsuper, hs.freemapBits_eq] at hb
      show diskBit img b = true ↔ b < s.ninos.toNat ∧ ¬Reserved s.ninos.toNat b ∧
        ∀ n ∈ s.handed, n.toNat ≠ b
      rw [himg.diskBit_eq hb, decide_eq_true_eq, reserved_iff]
      constructor
      · intro ⟨hnext, hlt⟩
        refine ⟨hlt, Nat.not_lt_of_le (hs.start_le.trans hnext), fun n hn heq => ?_⟩
        have := ((hs.mem_handed n).mp hn).2
        omega
      · intro ⟨hlt, hstart, hnot⟩
        refine ⟨?_, hlt⟩
        by_contra hused
        have hb : (BitVec.ofNat 32 b).toNat = b := by
          rw [BitVec.toNat_ofNat]
          exact Nat.mod_eq_of_lt (by omega)
        apply hnot (BitVec.ofNat 32 b) _ hb
        rw [hs.mem_handed, hb]
        exact ⟨Nat.le_of_not_lt hstart, Nat.lt_of_not_le hused⟩
    count := by
      rw [hsuper]
      exact himg.count hs
    mount_safe := by
      intro answers dev heap hdisk
      apply (sfsDoMount_ends answers dev heap).mono
      · exact fun _ hfatal => himg.not_fatal hs hdisk hfatal
      · intro r t ht
        cases r with
        | error ret => exact ⟨ht.2.1, ht.2.2.1⟩
        | ok sfs => exact ht.2.count
    mounts := by
      intro answers dev heap hdisk hblocksize hfits hfull hio
      have hdev : dev.super = s.super := by rw [Device.super, hdisk, himg.super_eq]
      have haccepted : ¬Refused answers dev := by
        intro hrefused
        rcases hrefused with h | h | h | ⟨n, h⟩ | ⟨n, h⟩
        · exact h hblocksize
        · exact h (hdev ▸ hs.magic)
        · rw [hdev, hs.blocks] at h
          exact absurd hfits (Nat.not_le_of_lt h)
        · rw [hfull] at h
          cases h
        · exact h (hio n)
      apply (sfsDoMount_mounts (himg.not_fatal hs hdisk) haccepted).imp
      exact fun r _ ⟨sfs, hr, _⟩ => ⟨sfs, hr⟩ }

/-- The image before it is closed. -/
theorem openImg_spec (s : Tool) (imgSize : Nat) (info : Fin (SFS_MAX_INFO_LEN + 1) → Byte)
    (home : HostDir) :
    Ends Excused
      (do
        let root ← createSfs imgSize info
        openDir root root home) s fun _ t => Inv t ∧ t.ninos.toNat = numberOfBlocks imgSize := by
  rw [ends_bind]
  apply (createSfs_spec imgSize info).imp
  intro root t ht
  obtain ⟨hinv, hroot, -, hninos⟩ := ht
  rw [openDir, ends_bind]
  apply (openDirStart_spec hinv hroot hroot.listed).imp
  intro _ u hu
  apply (readDir_spec home hu.1 (hroot.grow hu.2)).imp
  intro _ v hv
  refine ⟨hv.1, ?_⟩
  rw [hv.2.ninos, hu.2.ninos, hninos]

/-- A finished image is a closed one. -/
theorem createImg_spec (s : Tool) (imgSize : Nat) (info : Fin (SFS_MAX_INFO_LEN + 1) → Byte)
    (home : HostDir) :
    Ends Excused (createImg imgSize info home) s fun _ t => ∃ u, Inv u ∧
      u.ninos.toNat = numberOfBlocks imgSize ∧ t = { u with img := t.img } ∧ Closed u t.img := by
  have hopen := openImg_spec s imgSize info home
  rw [ends_bind] at hopen
  rw [createImg, ends_bind]
  apply hopen.imp
  intro root t ht
  rw [ends_bind]
  apply ht.imp
  intro _ u hu
  exact (closeSfs_spec hu.1.built.accounted).lift fun _ t ht => ⟨u, hu.1, hu.2, ht⟩

/-- Whatever the image size and the host directory: `update_cache` finds the block it is
asked for, and an image that is finished is consistent. -/
theorem image_consistent (s : Tool) (imgSize : Nat) (info : Fin (SFS_MAX_INFO_LEN + 1) → Byte)
    (home : HostDir) :
    Ends Excused (createImg imgSize info home) s fun _ t => Consistent imgSize t := by
  apply (createImg_spec s imgSize info home).imp
  intro _ t ht
  obtain ⟨u, hinv, hninos, hrest, hclosed⟩ := ht
  rw [hrest]
  exact hclosed.consistent hinv.built.accounted hninos

end Ucore.Sfs.Mksfs
