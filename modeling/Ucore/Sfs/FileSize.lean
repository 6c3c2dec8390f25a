import Ucore.Sfs.Resize

/-!
# The size of a file

`sfs_truncfile` and `sfs_tryseek` on a sound volume. A call that fails after some blocks
were added or freed leaves an inode whose blocks do not fit its size, on which the next
call fails an assertion; a size past the indirect block makes the kernel panic.
-/

namespace Ucore.Sfs

open Machine

variable {io : Nat → Int} {own own' own'' : Nat → Owner} {v t u : Volume} {node n b : BitVec 32}
  {len : Int}

/-- The inode has the blocks for its size. -/
def Matches (v : Volume) (node : BitVec 32) : Prop :=
  (v.din node).blocks.toNat = blocksFor (v.din node).size.toNat

/-- What a successful `sfs_truncfile` that had something to do leaves. -/
structure Truncated (io : Nat → Int) (own own' : Nat → Owner) (v t : Volume) (node : BitVec 32)
    (len : Int) : Prop where
  framed : Framed node own own' v t
  mapped : Mapped own' t
  type : (t.din node).type = (v.din node).type
  nlinks : (t.din node).nlinks = (v.din node).nlinks
  reclaim : (t.sin node).reclaimCount = (v.sin node).reclaimCount
  blocks : (t.din node).blocks.toNat = blocksFor len.toNat
  size : (t.din node).size.toNat = len.toNat
  dirty : (t.sin node).dirty = true
  lost : (∀ k, io k = 0) → ∀ x, own' x = .lost → own x = .lost

/-- The volume after `din->size = len`. -/
def Volume.setSize (v : Volume) (node : BitVec 32) (len : Int) : Volume :=
  v.setSin node { v.sin node with
    din := { (v.sin node).din with size := BitVec.ofInt 32 len }, dirty := true }

theorem slot_setSize (hcached : node ∈ v.inodeList) (n : BitVec 32) (i : Nat) :
    (v.setSize node len).slot n i = v.slot n i := by
  unfold Volume.setSize
  rw [slot_setSin_same hcached]
  · rfl
  · rfl

theorem Framed.setSize (h : Sound own v) (hcached : node ∈ v.inodeList) (len : Int) :
    Framed node own own v (v.setSize node len) := by
  apply Framed.setSin_same h hcached
  · rfl
  · rfl

theorem toNat_ofInt (hlow : 0 ≤ len) (hhigh : len ≤ SFS_MAX_FILE_SIZE) :
    (BitVec.ofInt 32 len).toNat = len.toNat := by
  have hmax : (SFS_MAX_FILE_SIZE : Int) = 134217728 := rfl
  rw [BitVec.toNat_ofInt]
  omega

theorem Framed.truncated (h : Framed node own own' v t) (hmapped : Mapped own' t)
    (hsame : SameInode node v t) (hlost : (∀ k, io k = 0) → ∀ x, own' x = .lost → own x = .lost)
    (hnode : own node.toNat = .inode) (hcached : node ∈ v.inodeList)
    (hblocks : (t.din node).blocks.toNat = blocksFor len.toNat) (hlow : 0 ≤ len)
    (hhigh : len ≤ SFS_MAX_FILE_SIZE) : Truncated io own own' v (t.setSize node len) node len := by
  have hcached' : node ∈ t.inodeList := by rwa [h.list]
  have hdin' := din_cached hcached'
  have hsize : (t.setSize node len).din node = { t.din node with size := BitVec.ofInt 32 len } := by
    rw [Volume.setSize, din_setSin hcached', if_pos rfl, hdin']
  have hself : (t.setSize node len).sin node = { t.sin node with
      din := { (t.sin node).din with size := BitVec.ofInt 32 len }, dirty := true } :=
    Function.update_self _ _ _
  have hframed := h.trans (.setSize h.sound hcached' len)
  have hsized : SizedAt (t.setSize node len) node := by
    have hold := hmapped.sized node ((h.inode _).mpr hnode)
    refine ⟨by rw [hsize]; exact hold.le, fun i => ?_⟩
    rw [hsize, slot_setSize hcached']
    exact hold.slot i
  have hmapped' : Mapped own' (t.setSize node len) :=
    (Framed.setSize h.sound hcached' len).mapped hmapped hsized
  exact {
    framed := hframed
    mapped := hmapped'
    type := by rw [hsize]; exact hsame.type
    nlinks := by rw [hsize]; exact hsame.nlinks
    reclaim := by rw [hself]; exact hsame.reclaim
    blocks := by rw [hsize]; exact hblocks
    size := by rw [hsize]; exact toNat_ofInt hlow hhigh
    dirty := by rw [hself]
    lost := hlost }

/-- How `sfs_truncfile` may end. -/
inductive TruncEnd (io : Nat → Int) (own : Nat → Owner) (v : Volume)
    (node : BitVec 32) (len : Int) :
    Int → Volume → Prop
  | refused : len < 0 ∨ SFS_MAX_FILE_SIZE < len → TruncEnd io own v node len (-E_INVAL) v
  | same : ((v.din node).size.toNat : Int) = len → Matches v node → TruncEnd io own v node len 0 v
  | done (t : Volume) (own' : Nat → Owner) : Truncated io own own' v t node len →
      ((v.din node).blocks.toNat < blocksFor len.toNat →
        FitsAll io v node (v.din node).blocks.toNat
          (blocksFor len.toNat - (v.din node).blocks.toNat)) →
      (blocksFor len.toNat < (v.din node).blocks.toNat →
        ∀ k < freeAllIos (v.din node).blocks.toNat
          ((v.din node).blocks.toNat - blocksFor len.toNat), io (v.ios + k) = 0) →
      TruncEnd io own v node len 0 t
  | growing (t : Volume) (ret : Int) (m : Nat) : 0 ≤ len → ret ≠ 0 →
      (v.din node).blocks.toNat < blocksFor len.toNat →
      GrowEnd io own v t node (blocksFor len.toNat - (v.din node).blocks.toNat) ret m →
      TruncEnd io own v node len ret t
  | shrinking (t : Volume) (ret : Int) (m : Nat) : 0 ≤ len → ret ≠ 0 →
      blocksFor len.toNat < (v.din node).blocks.toNat →
      ShrinkEnd io own v t node ((v.din node).blocks.toNat - blocksFor len.toNat) ret m →
      TruncEnd io own v node len ret t

theorem setSize_spec (hends : Truncated io own own' v (t.setSize node len) node len)
    (hblocks : ((t.sin node).din.blocks).toNat = blocksFor len.toNat)
    (hgrow : (v.din node).blocks.toNat < blocksFor len.toNat →
      FitsAll io v node (v.din node).blocks.toNat (blocksFor len.toNat - (v.din node).blocks.toNat))
    (hshrink : blocksFor len.toNat < (v.din node).blocks.toNat →
      ∀ k < freeAllIos (v.din node).blocks.toNat
        ((v.din node).blocks.toNat - blocksFor len.toNat), io (v.ios + k) = 0) {E : Failed → Prop} :
    Ends E (do
      check .sfsTruncfile (((← get).sin node).din.blocks.toNat = blocksFor len.toNat)
      setSize node len
      return 0) t (TruncEnd io own v node len) := by
  rw [ends_bind, ends_get, ends_bind, ends_check hblocks, ends_bind, setSize,
    ends_modify, ends_pure]
  exact .done _ own' hends hgrow hshrink

/-- An assertion fails only on an inode that has the size already and not the blocks for it. -/
theorem sfsTruncfile_spec (h : Mapped own v) (hnode : own node.toNat = .inode)
    (hcached : node ∈ v.inodeList) (hlen : blocksFor len.toNat ≤ maxBlocks) :
    Ends (fun e => e = .sfsTruncfile ∧ ((v.din node).size.toNat : Int) = len ∧ ¬Matches v node)
      (sfsTruncfile io node len) v (TruncEnd io own v node len) := by
  have hdin := din_cached hcached
  rw [sfsTruncfile]
  by_cases hrange : len < 0 ∨ SFS_MAX_FILE_SIZE < len
  · rw [if_pos hrange]
    exact .refused hrange
  rw [if_neg hrange, ends_bind, ends_get, ← hdin]
  simp only
  have hlow : 0 ≤ len := by omega
  have hhigh : len ≤ SFS_MAX_FILE_SIZE := by omega
  by_cases hsize : ((v.din node).size.toNat : Int) = len
  · rw [if_pos hsize, ends_bind]
    have hlen' : len.toNat = (v.din node).size.toNat := by omega
    by_cases hmatch : Matches v node
    · rw [ends_check (by rw [hlen']; exact hmatch.symm)]
      exact .same hsize hmatch
    · apply Ends.check_or (.inr ⟨rfl, hsize, hmatch⟩)
      intro hblocks
      rw [hlen'] at hblocks
      exact absurd hblocks.symm hmatch
  rw [if_neg hsize, ends_bind, resizeFile]
  rcases Nat.lt_trichotomy (v.din node).blocks.toNat (blocksFor len.toNat)
    with hgrow | hsame | hshrink
  · rw [if_pos hgrow]
    apply (growFile_spec _ _ own v h hnode hcached rfl (by omega)).lift
    rintro ret t ⟨m, hend⟩
    by_cases hret : ret = 0
    · rw [if_neg (not_not.mpr hret)]
      obtain ⟨own', hgrown⟩ := hend.grown
      have hm := hend.done.mp hret
      have hblocks : (t.din node).blocks.toNat = blocksFor len.toNat := by
        rw [hgrown.blocks, hm]
        omega
      have hcached' : node ∈ t.inodeList := by rwa [hgrown.framed.list]
      apply setSize_spec (hgrown.framed.truncated hgrown.mapped hgrown.same
        hgrown.lost hnode hcached hblocks hlow hhigh) (by rw [← din_cached hcached', hblocks])
      · exact fun _ => hend.fits.mp hret
      · exact fun hlt => absurd hlt (Nat.lt_asymm hgrow)
    · rw [if_pos hret]
      exact .growing t ret m hlow hret hgrow hend
  · rw [if_neg (by omega), if_neg (by omega), ends_pure, if_neg (not_not.mpr rfl)]
    have hrefl := (Untouched.refl h.sound).framed h.sound node
    apply setSize_spec (hrefl.truncated h .refl (fun _ _ hx => hx) hnode hcached hsame hlow hhigh)
      (by rw [← hdin, hsame])
    · exact fun hlt => absurd hlt (by omega)
    · exact fun hlt => absurd hlt (by omega)
  · rw [if_neg (by omega), if_pos hshrink]
    apply (shrinkFile_spec _ own v h hnode hcached (by omega)).lift
    rintro ret t ⟨m, hend⟩
    by_cases hret : ret = 0
    · rw [if_neg (not_not.mpr hret)]
      obtain ⟨own', hshrunk⟩ := hend.shrunk
      have hm := hend.done.mp hret
      have hblocks : (t.din node).blocks.toNat = blocksFor len.toNat := by
        have := hshrunk.blocks
        omega
      have hcached' : node ∈ t.inodeList := by rwa [hshrunk.framed.list]
      apply setSize_spec (hshrunk.framed.truncated hshrunk.mapped hshrunk.same
        (fun _ => hshrunk.lost) hnode hcached hblocks hlow hhigh)
        (by rw [← din_cached hcached', hblocks])
      · exact fun hlt => absurd hlt (Nat.lt_asymm hshrink)
      · exact fun _ => hend.fits.mp hret
    · rw [if_pos hret]
      exact .shrinking t ret m hlow hret hshrink hend

/-! ## Runs of calls -/

namespace SizeCall

/-- Whether the call goes on to change the size. -/
def Resizes (c : SizeCall) (v : Volume) : Prop :=
  match c with
  | truncfile _ len => 0 ≤ len ∧ len ≤ SFS_MAX_FILE_SIZE
  | tryseek node pos => pos < SFS_MAX_FILE_SIZE ∧ ((v.din node).size.toNat : Int) < pos

/-- The file of the call is in memory, as it is while it is open. -/
structure On (own : Nat → Owner) (v : Volume) (c : SizeCall) : Prop where
  inode : own c.node.toNat = .inode
  cached : c.node ∈ v.inodeList

end SizeCall

/-- Nothing fails, or the first block already. -/
structure Unbroken (io : Nat → Int) (v : Volume) (node : BitVec 32) (len : Int) : Prop where
  grow : (v.din node).blocks.toNat < blocksFor len.toNat →
    FitsAll io v node (v.din node).blocks.toNat
      (blocksFor len.toNat - (v.din node).blocks.toNat) ∨ ¬Fits io v node (v.din node).blocks.toNat
  shrink : blocksFor len.toNat < (v.din node).blocks.toNat →
    (∀ k < freeAllIos (v.din node).blocks.toNat
      ((v.din node).blocks.toNat - blocksFor len.toNat), io (v.ios + k) = 0) ∨
        ¬FreeFits io v ((v.din node).blocks.toNat - 1)

def SizeCall.Unbroken (io : Nat → Int) (v : Volume) (c : SizeCall) : Prop :=
  c.Resizes v → Sfs.Unbroken io v c.node c.len

theorem TruncEnd.framed {ret : Int} (h : TruncEnd io own v node len ret t) (hv : Mapped own v) :
    ∃ own', Framed node own own' v t ∧ Mapped own' t ∧
      ((∀ k, io k = 0) → ∀ x, own' x = .lost → own x = .lost) := by
  cases h with
  | refused | same =>
      exact ⟨own, (Untouched.refl hv.sound).framed hv.sound node, hv, fun _ _ hx => hx⟩
  | done _ own' htruncated => exact ⟨own', htruncated.framed, htruncated.mapped, htruncated.lost⟩
  | growing _ _ m _ _ _ hend =>
      obtain ⟨own', hgrown⟩ := hend.grown
      exact ⟨own', hgrown.framed, hgrown.mapped, hgrown.lost⟩
  | shrinking _ _ m _ _ _ hend =>
      obtain ⟨own', hshrunk⟩ := hend.shrunk
      exact ⟨own', hshrunk.framed, hshrunk.mapped, fun _ => hshrunk.lost⟩

theorem blocksFor_le {x y : Nat} (hle : x ≤ y) : blocksFor x ≤ blocksFor y :=
  Nat.div_le_div_right (by
    unfold SFS_BLKSIZE
    omega)

/-- The blocks fit the size afterwards exactly if the call was not broken off. -/
theorem TruncEnd.matches_iff {ret : Int} (h : TruncEnd io own v node len ret t)
    (hmatch : Matches v node) (hlen : blocksFor len.toNat ≤ maxBlocks) :
    Matches t node ↔ (0 ≤ len ∧ len ≤ SFS_MAX_FILE_SIZE → Unbroken io v node len) := by
  cases h with
  | refused hrange => exact iff_of_true hmatch fun hin => by omega
  | same hsize =>
      have hlen' : len.toNat = (v.din node).size.toNat := by omega
      refine iff_of_true hmatch fun _ => ⟨fun hlt => ?_, fun hlt => ?_⟩
      · rw [hlen', ← hmatch] at hlt
        exact absurd hlt (Nat.lt_irrefl _)
      · rw [hlen', ← hmatch] at hlt
        exact absurd hlt (Nat.lt_irrefl _)
  | done _ own' htruncated hgrow hshrink =>
      refine iff_of_true ?_ fun _ => ⟨fun hlt => .inl (hgrow hlt), fun hlt => .inl (hshrink hlt)⟩
      rw [Matches, htruncated.blocks, htruncated.size]
  | growing _ _ m hlow hret hlt hend =>
      obtain ⟨own', hgrown⟩ := hend.grown
      have hhigh : len ≤ SFS_MAX_FILE_SIZE := by
        have : blocksFor (SFS_MAX_FILE_SIZE + 1) = 32769 := by decide
        have hmax : maxBlocks = 1036 := rfl
        by_contra hlong
        have := @blocksFor_le (SFS_MAX_FILE_SIZE + 1) len.toNat (by omega)
        omega
      have hnone : Matches t node ↔ m = 0 := by
        rw [Matches, hgrown.blocks, hgrown.same.size, hmatch]
        omega
      have hfirst := hend.first
      rw [hnone]
      constructor
      · rintro rfl _
        refine ⟨fun _ => .inr fun hfits => ?_, fun hlt' => absurd hlt' (Nat.lt_asymm hlt)⟩
        exact Nat.lt_irrefl 0 (hfirst.mpr ⟨by omega, hfits⟩)
      · intro hunbroken
        by_contra hm
        have hfits := (hfirst.mp (Nat.pos_of_ne_zero hm)).2
        rcases (hunbroken ⟨hlow, hhigh⟩).grow hlt with hall | hno
        · exact hret (hend.fits.mpr hall)
        · exact hno hfits
  | shrinking _ _ m hlow hret hlt hend =>
      obtain ⟨own', hshrunk⟩ := hend.shrunk
      have hhigh : len ≤ SFS_MAX_FILE_SIZE := by
        have : blocksFor (SFS_MAX_FILE_SIZE + 1) = 32769 := by decide
        have hmax : maxBlocks = 1036 := rfl
        by_contra hlong
        have := @blocksFor_le (SFS_MAX_FILE_SIZE + 1) len.toNat (by omega)
        omega
      have hblocks := hshrunk.blocks
      have hnone : Matches t node ↔ m = 0 := by
        rw [Matches, hshrunk.same.size, ← hmatch]
        omega
      have hfirst := hend.first
      rw [hnone]
      constructor
      · rintro rfl _
        refine ⟨fun hlt' => absurd hlt' (Nat.lt_asymm hlt), fun _ => .inr fun hfits => ?_⟩
        exact Nat.lt_irrefl 0 (hfirst.mpr ⟨by omega, hfits⟩)
      · intro hunbroken
        by_contra hm
        have hfits := (hfirst.mp (Nat.pos_of_ne_zero hm)).2
        rcases (hunbroken ⟨hlow, hhigh⟩).shrink hlt with hall | hno
        · exact hret (hend.fits.mpr hall)
        · exact hno hfits

/-- All the files have the blocks for their sizes, as many as it takes and no more. -/
def AllMatch (own : Nat → Owner) (v : Volume) : Prop := ∀ n, own n.toNat = .inode → Matches v n

/-- A call that does not change the size. -/
theorem SizeCall.run_idle (c : SizeCall) (hon : c.On own v) (hno : ¬c.Resizes v) :
    Ends never (c.run io) v fun ret t => (ret = -E_INVAL ∨ ret = 0) ∧ t = v := by
  cases c with
  | truncfile node len =>
      have hrange : len < 0 ∨ SFS_MAX_FILE_SIZE < len := by
        by_contra hin
        exact hno ⟨by omega, by omega⟩
      rw [run, sfsTruncfile, if_pos hrange]
      exact ⟨.inl rfl, rfl⟩
  | tryseek node pos =>
      have hdin : v.din node = (v.sin node).din := din_cached hon.cached
      rw [run, sfsTryseek]
      by_cases hrange : pos < 0 ∨ SFS_MAX_FILE_SIZE ≤ pos
      · rw [if_pos hrange]
        exact ⟨.inl rfl, rfl⟩
      · rw [if_neg hrange, ends_bind, ends_get, ← hdin]
        change Ends _ (if ((v.din node).size.toNat : Int) < pos then _ else _) v _
        rw [if_neg fun hsize => hno ⟨by omega, hsize⟩]
        exact ⟨.inr rfl, rfl⟩

theorem SizeCall.Resizes.range {c : SizeCall} (h : c.Resizes v) :
    0 ≤ c.len ∧ c.len ≤ SFS_MAX_FILE_SIZE := by
  cases c with
  | truncfile node len => exact h
  | tryseek node pos =>
      obtain ⟨hhigh, hlow⟩ := h
      show 0 ≤ pos ∧ pos ≤ _
      omega

/-- The others are calls of `sfs_truncfile`. -/
theorem SizeCall.run_resizes (c : SizeCall) (hon : c.On own v) (hresizes : c.Resizes v)
    (E : Failed → Prop) (Q : Int → Volume → Prop) :
    Ends E (c.run io) v Q ↔ Ends E (sfsTruncfile io c.node c.len) v Q := by
  cases c with
  | truncfile node len => rfl
  | tryseek node pos =>
      have hdin : v.din node = (v.sin node).din := din_cached hon.cached
      obtain ⟨hhigh, hsize⟩ := hresizes
      rw [run, sfsTryseek, if_neg (by omega), ends_bind, ends_get, ← hdin]
      change Ends _ (if ((v.din node).size.toNat : Int) < pos then _ else _) v _ ↔ _
      rw [if_pos hsize]
      rfl

/-- One call, from files whose blocks fit their sizes. -/
theorem SizeCall.run_spec (c : SizeCall) (h : Mapped own v) (hmatch : AllMatch own v)
    (hon : c.On own v) (hlen : blocksFor c.len.toNat ≤ maxBlocks) :
    Ends never (c.run io) v fun _ t => ∃ own', Framed c.node own own' v t ∧ Mapped own' t ∧
      (AllMatch own' t ↔ c.Unbroken io v) := by
  by_cases hresizes : c.Resizes v
  · rw [c.run_resizes hon hresizes]
    apply (sfsTruncfile_spec h hon.inode hon.cached hlen).mono
    · exact fun e he => he.2.2 (hmatch _ hon.inode)
    intro ret t hend
    obtain ⟨own', hframed, hmapped, _⟩ := hend.framed h
    have hiff := hend.matches_iff (hmatch _ hon.inode) hlen
    have hunbroken : c.Unbroken io v ↔ Matches t c.node := by
      rw [hiff]
      exact ⟨fun hall _ => hall hresizes, fun hall _ => hall hresizes.range⟩
    refine ⟨own', hframed, hmapped, ?_⟩
    rw [hunbroken]
    constructor
    · exact fun hall => hall _ ((hframed.inode _).mpr hon.inode)
    · intro hnode n hn
      by_cases heq : n = c.node
      · rwa [heq]
      · rw [hframed.inode] at hn
        rw [Matches, hframed.din heq hn]
        exact hmatch n hn
  · apply (c.run_idle hon hresizes).imp
    rintro ret t ⟨_, rfl⟩
    exact ⟨own, (Untouched.refl h.sound).framed h.sound c.node, h,
      iff_of_true hmatch fun hin => absurd hin hresizes⟩

/-- Every call of a run returns, and leaves files whose blocks fit their sizes. What a call returns
may be an error. -/
def StaysMatched (io : Nat → Int) (own : Nat → Owner) : List SizeCall → Volume → Prop
  | [], _ => True
  | c :: rest, v => Ends never (c.run io) v fun _ t => AllMatch own t ∧ StaysMatched io own rest t

/-- No call of a run is broken off: each that is to change the blocks of its file gets to the end.
-/
def NeverBroken (io : Nat → Int) : List SizeCall → Volume → Prop
  | [], _ => True
  | c :: rest, v => c.Unbroken io v ∧ ∀ ret t, c.run io v = .ok (ret, t) → NeverBroken io rest t

theorem staysMatched_congr {calls : List SizeCall} (hsame : ∀ b, own' b = .inode ↔ own b = .inode) :
    StaysMatched io own' calls v ↔ StaysMatched io own calls v := by
  induction calls generalizing v with
  | nil => rfl
  | cons c rest ih =>
      have hmatch : ∀ t, AllMatch own' t ↔ AllMatch own t := fun t =>
        forall_congr' fun n => by rw [hsame]
      constructor
      · intro h
        exact Ends.imp h fun _ t ht => ⟨(hmatch t).mp ht.1, ih.mp ht.2⟩
      · intro h
        exact Ends.imp h fun _ t ht => ⟨(hmatch t).mpr ht.1, ih.mpr ht.2⟩

theorem staysMatched_of (calls : List SizeCall) (h : Mapped own v) (hmatch : AllMatch own v)
    (hon : ∀ c ∈ calls, c.On own v) (hlen : ∀ c ∈ calls, blocksFor c.len.toNat ≤ maxBlocks) :
    StaysMatched io own calls v ↔ NeverBroken io calls v := by
  induction calls generalizing own v with
  | nil => rfl
  | cons c rest ih =>
      obtain ⟨ret, t, hrun, own', hframed, hmapped, hiff⟩ := (@SizeCall.run_spec io _ _ c h hmatch
        (hon c List.mem_cons_self) (hlen c List.mem_cons_self)).ok
      have hends : ∀ Q : Int → Volume → Prop, Ends never (c.run io) v Q ↔ Q ret t := by
        intro Q
        unfold Ends
        rw [hrun]
      have hmatch' : AllMatch own' t ↔ AllMatch own t :=
        forall_congr' fun n => by rw [hframed.inode]
      have hon' : ∀ c ∈ rest, c.On own' t := by
        intro d hd
        obtain ⟨hinode, hcached⟩ := hon d (List.mem_cons_of_mem c hd)
        exact ⟨(hframed.inode _).mpr hinode, by rwa [hframed.list]⟩
      have hrest : ∀ d ∈ rest, blocksFor d.len.toNat ≤ maxBlocks :=
        fun d hd => hlen d (List.mem_cons_of_mem c hd)
      have hnext : NeverBroken io (c :: rest) v ↔ c.Unbroken io v ∧ NeverBroken io rest t := by
        refine and_congr_right fun _ =>
          ⟨fun hall => hall ret t hrun, fun hbroken ret' t' hrun' => ?_⟩
        rw [hrun] at hrun'
        obtain ⟨_, rfl⟩ := Prod.mk.inj (Except.ok.inj hrun')
        exact hbroken
      rw [hnext, StaysMatched, hends, ← hmatch', hiff]
      refine and_congr_right fun hunbroken => ?_
      rw [← ih hmapped (hiff.mpr hunbroken) hon' hrest, staysMatched_congr hframed.inode]

/-- Whatever the calls, the free blocks and the failures of the device: the files keep the
blocks for their sizes, and no assertion fails, exactly if no call is broken off after some
of its blocks. -/
theorem resize_staysMatched_iff (calls : List SizeCall) (h : Mapped own v) (hmatch : AllMatch own v)
    (hon : ∀ c ∈ calls, c.On own v) (hlen : ∀ c ∈ calls, blocksFor c.len.toNat ≤ maxBlocks) :
    StaysMatched io own calls v ↔ NeverBroken io calls v :=
  staysMatched_of calls h hmatch hon hlen

theorem newVolume_din (k : Nat) : (newVolume k).din 3 = ⟨0, SFS_TYPE_FILE, 1, 0, fun _ => 0, 0⟩ :=
  if_pos (List.mem_singleton.mpr rfl)

theorem newOwner_inode {k : Nat} (hn : newOwner k n.toNat = .inode) : n = 3 := by
  apply BitVec.eq_of_toNat_eq
  by_contra hne
  have hne : n.toNat ≠ 3 := hne
  rw [newOwner, if_neg hne] at hn
  split at hn <;> cases hn

theorem newVolume_mapped {k : Nat} (hpos : 0 < k) (hsmall : k ≤ 2 ^ 15) :
    Mapped (newOwner k) (newVolume k) := by
  refine ⟨newVolume_sound hpos hsmall, fun n hn => ?_⟩
  have hslot := fun i => (newVolume_slot k n i hn).1
  rw [newOwner_inode hn] at hslot ⊢
  refine ⟨by rw [newVolume_din]; exact Nat.zero_le _, fun i => ?_⟩
  rw [hslot i, newVolume_din]
  exact iff_of_false (not_not.mpr rfl) (Nat.not_lt_zero i)

theorem newVolume_match (k : Nat) : AllMatch (newOwner k) (newVolume k) := by
  intro n hn
  rw [newOwner_inode hn, Matches, newVolume_din]
  rfl

theorem newVolume_on (k : Nat) (c : SizeCall) (hc : c.node = 3) : c.On (newOwner k) (newVolume k) :=
  ⟨by rw [hc]; rfl, by rw [hc]; exact List.mem_singleton.mpr rfl⟩

/-- The second of two blocks is not written. -/
theorem resize_breaks_off : ¬ ∀ (io : Nat → Int) (own : Nat → Owner) (v : Volume)
    (calls : List SizeCall), Mapped own v → AllMatch own v → (∀ c ∈ calls, c.On own v) →
      (∀ c ∈ calls, blocksFor c.len.toNat ≤ maxBlocks) → StaysMatched io own calls v := by
  intro hclaim
  obtain ⟨io, hio⟩ : ∃ io : Nat → Int, io = fun k => if k = 1 then -1 else 0 := ⟨_, rfl⟩
  have hmapped := @newVolume_mapped 1 (by decide) (by decide)
  have hon : ∀ c ∈ [SizeCall.truncfile 3 8192], c.On (newOwner 1) (newVolume 1) := by
    intro c hc
    rw [List.mem_singleton.mp hc]
    exact newVolume_on 1 _ rfl
  have hlen : ∀ c ∈ [SizeCall.truncfile 3 8192], blocksFor c.len.toNat ≤ maxBlocks := by
    intro c hc
    rw [List.mem_singleton.mp hc]
    decide
  have hstays := (staysMatched_of _ hmapped (newVolume_match 1) hon hlen).mp
    (hclaim io _ _ _ hmapped (newVolume_match 1) hon hlen)
  have hunbroken := (hstays.1 ⟨by decide, by decide⟩).grow (by
    rw [show (SizeCall.truncfile 3 8192).node = 3 from rfl, newVolume_din]
    decide)
  rw [show (SizeCall.truncfile 3 8192).node = 3 from rfl, newVolume_din] at hunbroken
  rcases hunbroken with hall | hno
  · have := hall.io 1 (by decide)
    rw [hio] at this
    cases this
  · apply hno
    refine ⟨fun k hk => ?_, ?_⟩
    · obtain rfl : k = 0 := by
        have : k < 1 := hk
        omega
      rw [hio]
      rfl
    · rw [newVolume_bits]
      have : (newVolume 1).loadRoom 3 0 = 1 := if_neg (by decide)
      rw [show ((⟨0, SFS_TYPE_FILE, 1, 0, fun _ => 0, 0⟩ : DiskInode).blocks).toNat = 0 from rfl,
        this]
      decide

/-- Two calls on a small volume. -/
theorem resize_staysMatched_new :
    StaysMatched (fun _ => 0) (newOwner 1) [.truncfile 3 5000, .tryseek 3 9000] (newVolume 1) ↔
      NeverBroken (fun _ => 0) [.truncfile 3 5000, .tryseek 3 9000] (newVolume 1) := by
  apply resize_staysMatched_iff _ (newVolume_mapped (by decide) (by decide)) (newVolume_match 1)
  · intro c hc
    apply newVolume_on
    rcases List.mem_cons.mp hc with rfl | hc
    · rfl
    · rw [List.mem_singleton.mp hc]
      rfl
  · intro c hc
    rcases List.mem_cons.mp hc with rfl | hc
    · decide
    · rw [List.mem_singleton.mp hc]
      decide

/-! ## Sizes past the indirect block -/

/-- The call comes to the first block that an inode has no room for: it is to grow the file beyond
that, and has the blocks and the device calls to get there. -/
structure Overruns (io : Nat → Int) (v : Volume) (c : SizeCall) : Prop where
  resizes : c.Resizes v
  long : maxBlocks < blocksFor c.len.toNat
  fits : FitsAll io v c.node (v.din c.node).blocks.toNat
    (maxBlocks - (v.din c.node).blocks.toNat)

theorem TruncEnd.nonpos {ret : Int} (h : TruncEnd io own v node len ret t) (hio : ∀ k, io k ≤ 0) :
    ret ≤ 0 := by
  cases h with
  | refused => decide
  | same => exact Int.le_refl 0
  | done => exact Int.le_refl 0
  | growing _ _ m _ hret _ hend => exact Int.le_of_lt ((hend.error.resolve_left hret).neg hio)
  | shrinking _ _ m _ hret _ hend => exact Int.le_of_lt ((hend.error.resolve_left hret).neg hio)

/-- A size past the indirect block: the loop panics, or an error comes before that. -/
theorem sfsTruncfile_overrun (h : Mapped own v) (hnode : own node.toNat = .inode)
    (hcached : node ∈ v.inodeList) (hlow : 0 ≤ len) (hhigh : len ≤ SFS_MAX_FILE_SIZE)
    (hlong : maxBlocks < blocksFor len.toNat) :
    Ends (fun e => ((v.din node).size.toNat : Int) = len ∧ ¬Matches v node ∨ e = .sfsBmapGetNolock ∧
        FitsAll io v node (v.din node).blocks.toNat (maxBlocks - (v.din node).blocks.toNat))
      (sfsTruncfile io node len) v fun ret t => IsError io ret ∧
        ¬FitsAll io v node (v.din node).blocks.toNat (maxBlocks - (v.din node).blocks.toNat) ∧
          ∃ own' m, Grown io own own' v t node m ∧
            (0 < m → Fits io v node (v.din node).blocks.toNat) := by
  have hdin := din_cached hcached
  have hle := (h.sized node hnode).le
  rw [sfsTruncfile, if_neg (by omega), ends_bind, ends_get, ← hdin]
  simp only
  by_cases hsize : ((v.din node).size.toNat : Int) = len
  · have hlen : len.toNat = (v.din node).size.toNat := by omega
    have hno : ¬Matches v node := by
      intro hmatch
      rw [hlen, ← hmatch] at hlong
      omega
    rw [if_pos hsize, ends_bind]
    apply Ends.check_or (.inr (.inl ⟨hsize, hno⟩))
    intro hblocks
    omega
  · rw [if_neg hsize, ends_bind, resizeFile, if_pos (by omega)]
    apply (growFile_overrun _ _ own v h hnode hcached rfl (by omega)).mono (fun _ he => .inr he)
    rintro ret t ⟨herror, hend⟩
    rw [if_pos herror.ne_zero]
    exact ⟨herror, hend⟩

/-- The call asks for the size that the file has already, and the file does not have the blocks
for it: a growth or a shrinking that failed has left it so. -/
structure Mismatched (v : Volume) (c : SizeCall) : Prop where
  resizes : c.Resizes v
  same : ((v.din c.node).size.toNat : Int) = c.len
  blocks : ¬Matches v c.node

theorem AllMatch.not_mismatched (hmatch : AllMatch own v) {c : SizeCall} (hon : c.On own v) :
    ¬Mismatched v c := fun h => h.blocks (hmatch _ hon.inode)

/-- Then the assertion before the return fails. -/
theorem Mismatched.sfsTruncfile {c : SizeCall} (h : Mismatched v c) (hcached : c.node ∈ v.inodeList)
    (Q : Int → Volume → Prop) : ¬Ends never (sfsTruncfile io c.node c.len) v Q := by
  have hlen : c.len.toNat = (v.din c.node).size.toNat := by
    rw [← h.same]
    exact Int.toNat_natCast _
  have hbad : ¬blocksFor c.len.toNat = (v.din c.node).blocks.toNat := by
    rw [hlen]
    exact fun heq => h.blocks heq.symm
  obtain ⟨hlow, hhigh⟩ := h.resizes.range
  rw [Sfs.sfsTruncfile, if_neg (by omega), ends_bind, ends_get, ← din_cached hcached]
  simp only
  rw [if_pos h.same, ends_bind, check, if_neg hbad]
  exact id

theorem SizeCall.returns_iff (c : SizeCall) (h : Mapped own v) (hio : ∀ k, io k ≤ 0)
    (hon : c.On own v) :
    Ends never (c.run io) v (fun ret _ => ret ≤ 0) ↔ ¬Overruns io v c ∧ ¬Mismatched v c := by
  by_cases hresizes : c.Resizes v
  · obtain ⟨hlow, hhigh⟩ := hresizes.range
    rw [c.run_resizes hon hresizes]
    by_cases hbad : Mismatched v c
    · exact iff_of_false (hbad.sfsTruncfile hon.cached _) fun hgood => hgood.2 hbad
    rw [and_iff_left hbad]
    by_cases hlong : maxBlocks < blocksFor c.len.toNat
    · have hover := @sfsTruncfile_overrun io _ _ _ _ h hon.inode hon.cached hlow hhigh hlong
      constructor
      · intro hreturns hpanics
        obtain ⟨_, _, _, _, _, hno, _⟩ := (hreturns.and hover).ok
        exact hno hpanics.fits
      · intro hno
        apply hover.mono
        · intro e he
          rcases he with hsame | ⟨_, hall⟩
          · exact hbad ⟨hresizes, hsame.1, hsame.2⟩
          · exact hno ⟨hresizes, hlong, hall⟩
        · exact fun ret t ht => Int.le_of_lt (ht.1.neg hio)
    · refine iff_of_true ?_ fun hover => hlong hover.long
      apply (sfsTruncfile_spec h hon.inode hon.cached (Nat.le_of_not_lt hlong)).mono
      · exact fun e he => hbad ⟨hresizes, he.2.1, he.2.2⟩
      · exact fun ret t ht => ht.nonpos hio
  · refine iff_of_true ?_ ⟨fun hover => hresizes hover.resizes, fun hbad => hresizes hbad.resizes⟩
    apply (c.run_idle hon hresizes).imp
    rintro ret t ⟨rfl | rfl, _⟩
    · decide
    · exact Int.le_refl 0

/-- Whatever the size, the free blocks and the failures of the device: a call returns zero or
a negative error exactly if it does not come to a block past the indirect one and does not
ask for the size of a file that lacks the blocks for it. -/
theorem sizeCall_returns_iff (c : SizeCall) (h : Mapped own v) (hio : ∀ k, io k ≤ 0)
    (hon : c.On own v) :
    Ends never (c.run io) v (fun ret _ => ret ≤ 0) ↔ ¬Overruns io v c ∧ ¬Mismatched v c :=
  SizeCall.returns_iff c h hio hon

/-- A seek to the largest size that there is room for. -/
theorem sizeCall_returns_new : ∃ ret t,
    (SizeCall.tryseek 3 4243456).run (fun _ => 0) (newVolume 64) = .ok (ret, t) ∧ ret ≤ 0 := by
  have hmapped := @newVolume_mapped 64 (by decide) (by decide)
  have hon : (SizeCall.tryseek 3 4243456).On (newOwner 64) (newVolume 64) := newVolume_on 64 _ rfl
  have hshort : ¬maxBlocks < blocksFor 4243456 := by decide
  have hover : ¬Overruns (fun _ => 0) (newVolume 64) (.tryseek 3 4243456) :=
    fun hover => hshort hover.long
  have hmatched := (newVolume_match 64).not_mismatched hon
  -- neither the volume nor the call is to be evaluated
  generalize newVolume 64 = v at hmapped hon hover hmatched ⊢
  generalize SizeCall.tryseek 3 4243456 = c at hon hover hmatched ⊢
  exact ((sizeCall_returns_iff _ hmapped (fun _ => Int.le_refl 0) hon).mpr ⟨hover, hmatched⟩).ok

theorem Overruns.refutes {c : SizeCall} (hover : Overruns io v c) (h : Mapped own v)
    (hmatch : AllMatch own v) (hio : ∀ k, io k ≤ 0) (hon : c.On own v) :
    ¬ ∀ (io : Nat → Int) (own : Nat → Owner) (v : Volume) (c : SizeCall), Mapped own v →
      AllMatch own v → (∀ k, io k ≤ 0) → c.On own v →
        Ends never (c.run io) v fun ret _ => ret ≤ 0 :=
  fun hclaim => ((c.returns_iff h hio hon).mp (hclaim io own v c h hmatch hio hon)).1 hover

/-- A file of 1037 blocks on an empty disk. -/
theorem sizeCall_panics : ¬ ∀ (io : Nat → Int) (own : Nat → Owner) (v : Volume) (c : SizeCall),
    Mapped own v → AllMatch own v → (∀ k, io k ≤ 0) → c.On own v →
      Ends never (c.run io) v fun ret _ => ret ≤ 0 := by
  have hmapped := @newVolume_mapped 64 (by decide) (by decide)
  have hon := newVolume_on 64 (.truncfile 3 4247552) rfl
  have hlong : maxBlocks < blocksFor 4247552 := by decide
  have hroom : (newVolume 64).growRoom 3 0 maxBlocks ≤ (newVolume 64).freemap.bits.card := by
    have hmax : maxBlocks = 1036 := rfl
    rw [newVolume_bits, Nat.card_Ico, Volume.growRoom]
    split <;> omega
  have hover : Overruns (fun _ => 0) (newVolume 64) (.truncfile 3 4247552) := by
    refine ⟨⟨by decide, by decide⟩, hlong, fun _ _ => rfl, ?_⟩
    show (newVolume 64).growRoom 3 ((newVolume 64).din 3).blocks.toNat _ ≤ _
    rw [newVolume_din]
    exact hroom
  exact hover.refutes hmapped (newVolume_match 64) (fun _ => Int.le_refl 0) hon

end Ucore.Sfs
