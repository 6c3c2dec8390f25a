import Mathlib.Data.Finset.Max
import Ucore.Sfs.Bitmap

/-!
# A bitmap as a set

A bitmap behaves as the set of the indices that are free: `bitmap_alloc` takes the least
one, `bitmap_test` asks for one and `bitmap_free` puts one back. The bits of the last word
that are no index stay clear.
-/

namespace Ucore.Sfs

open Machine

inductive BitmapCall
  | alloc
  | test (index : Nat)
  | free (index : Nat)

/-- What a call answers: the index stored for 0, or another return value. -/
inductive BitmapAnswer
  | index (i : Nat)
  | code (ret : Int)
  | bit (free : Bool)
  | done
  deriving DecidableEq

/-- The index that a call changes. -/
def BitmapCall.changes : BitmapCall → BitmapAnswer → Option Nat
  | .alloc, .index i => some i
  | .free i, _ => some i
  | _, _ => none

section Code

variable {σ : Type}

def Bitmap.call (bitmap : Bitmap) : BitmapCall → Machine Failed σ (BitmapAnswer × Bitmap)
  | .alloc => do
      match ← bitmapAlloc bitmap with
      | none => return (.code (-E_NO_MEM), bitmap)
      | some (i, bitmap) => return (.index i, bitmap)
  | .test i => do
      let free ← bitmapTest bitmap i
      return (.bit free, bitmap)
  | .free i => do
      let bitmap ← bitmapFree bitmap i
      return (.done, bitmap)

def Bitmap.calls (bitmap : Bitmap) : List BitmapCall → Machine Failed σ (List BitmapAnswer × Bitmap)
  | [] => return ([], bitmap)
  | call :: rest => do
      let (answer, bitmap) ← bitmap.call call
      let (answers, bitmap) ← bitmap.calls rest
      return (answer :: answers, bitmap)

end Code

/-! ## The set -/

def setCall (free : Finset Nat) : BitmapCall → BitmapAnswer × Finset Nat
  | .alloc =>
      if hfree : free.Nonempty then (.index (free.min' hfree), free.erase (free.min' hfree))
      else (.code (-E_NO_MEM), free)
  | .test i => (.bit (decide (i ∈ free)), free)
  | .free i => (.done, insert i free)

def setCalls (free : Finset Nat) : List BitmapCall → List BitmapAnswer × Finset Nat
  | [] => ([], free)
  | call :: rest =>
      let (answer, free) := setCall free call
      let (answers, free) := setCalls free rest
      (answer :: answers, free)

/-- The calls that are made: only an index that is allocated is given back. -/
def BitmapCall.Allowed (nbits : Nat) (free : Finset Nat) : BitmapCall → Prop
  | .alloc => True
  | .test i => i < nbits
  | .free i => i < nbits ∧ i ∉ free

/-- Calls that are allowed one after the other, on the set that those before have left. -/
def AllowedCalls (nbits : Nat) : Finset Nat → List BitmapCall → Prop
  | _, [] => True
  | free, call :: rest => call.Allowed nbits free ∧ AllowedCalls nbits (setCall free call).2 rest

/-! ## The bitmap refines it -/

/-- The set bits of the words are the free indices. The last word may have more bits than there are
indices; these are clear. -/
structure Refines (nbits : Nat) (bitmap : Bitmap) (free : Finset Nat) : Prop where
  size : bitmap.nbits = nbits
  room : nbits ≤ bitmap.nwords * 32
  bits : bitmap.bits = free
  leftover : ∀ i < bitmap.nwords * 32, bitOf bitmap.map i = true → i < nbits

variable {nbits : Nat} {bitmap : Bitmap} {free : Finset Nat}

theorem Refines.bit_iff (h : Refines nbits bitmap free) {i : Nat} (hi : i < bitmap.nwords * 32) :
    bitOf bitmap.map i = true ↔ i ∈ free := by
  rw [← h.bits, Bitmap.mem_bits, h.size]
  exact ⟨fun hbit => ⟨h.leftover i hi hbit, hbit⟩, fun hin => hin.2⟩

theorem Refines.lt (h : Refines nbits bitmap free) {i : Nat} (hi : i ∈ free) : i < nbits := by
  rw [← h.bits] at hi
  exact h.size ▸ (Bitmap.mem_bits.mp hi).1

theorem Refines.set (h : Refines nbits bitmap free) {i : Nat} (hi : i < nbits) :
    Refines nbits (bitmap.set i) (insert i free) := by
  refine ⟨h.size, h.room, ?_, ?_⟩
  · rw [Bitmap.bits_set (h.size ▸ hi), h.bits]
  · intro j hj hbit
    rw [Bitmap.set, or_mask, Bool.or_eq_true, decide_eq_true_eq] at hbit
    rcases hbit with rfl | hbit
    · exact hi
    · exact h.leftover j hj hbit

theorem Refines.flip (h : Refines nbits bitmap free) {i : Nat} (hi : i ∈ free) :
    Refines nbits (bitmap.flip i) (free.erase i) := by
  have hlt := h.lt hi
  refine ⟨h.size, h.room, ?_, ?_⟩
  · rw [Bitmap.bits_flip (h.bits ▸ hi), h.bits]
  · intro j hj hbit
    rw [Bitmap.flip, xor_mask] at hbit
    by_cases hji : j = i
    · exact hji ▸ hlt
    · rw [decide_eq_false hji, Bool.false_xor] at hbit
      exact h.leftover j hj hbit

/-- The first set bit in the words is the least one. -/
theorem Refines.alloc (h : Refines nbits bitmap free) {σ : Type} {s : σ} :
    Ends never (bitmapAlloc bitmap) s fun r t => t = s ∧
      match r with
      | none => free = ∅
      | some (i, after) => i ∈ free ∧ (∀ j ∈ free, i ≤ j) ∧ after = bitmap.flip i := by
  unfold bitmapAlloc
  cases hword : (List.range bitmap.nwords).find? fun ix => bitmap.map ix != 0 with
  | none =>
      refine ⟨rfl, Finset.eq_empty_of_forall_notMem fun i hi => ?_⟩
      rw [List.find?_eq_none] at hword
      have hroom := h.room
      have hlt := h.lt hi
      have hzero := hword (i / 32) (List.mem_range.mpr (by omega))
      simp only [bne_iff_ne, ne_eq, Decidable.not_not] at hzero
      have hbit := (h.bit_iff (by omega)).mpr hi
      rw [bitOf, hzero] at hbit
      simp at hbit
  | some ix =>
      have hix : ix < bitmap.nwords := List.mem_range.mp (List.mem_of_find?_eq_some hword)
      have hne := List.find?_some hword
      simp only [bne_iff_ne, ne_eq] at hne
      -- the words before are zero
      have hbefore : ∀ j, j / 32 < ix → bitOf bitmap.map j = false := by
        intro j hj
        have hzero : bitmap.map (j / 32) = 0 := by
          have hfirst := (List.find?_range_eq_some.mp hword).2.2 (j / 32) hj
          simpa using hfirst
        rw [bitOf, hzero]
        simp
      dsimp only
      cases hbit : (List.range WORD_BITS).find? fun offset =>
          bitmap.map ix &&& 1#32 <<< offset != 0 with
      | none =>
          rw [List.find?_eq_none] at hbit
          exfalso
          apply hne
          ext k hk
          have hclear := hbit k (List.mem_range.mpr hk)
          rw [and_mask _ hk, Bool.not_eq_true] at hclear
          rw [← BitVec.getLsbD_eq_getElem hk, hclear]
          simp
      | some offset =>
          have hoffset : offset < 32 := List.mem_range.mp (List.mem_of_find?_eq_some hbit)
          have hset := List.find?_some hbit
          rw [and_mask _ hoffset] at hset
          have hdiv : (ix * WORD_BITS + offset) / 32 = ix := by
            unfold WORD_BITS
            omega
          have hmod : (ix * WORD_BITS + offset) % 32 = offset := by
            unfold WORD_BITS
            omega
          have hin : ix * WORD_BITS + offset ∈ free := by
            rw [← h.bit_iff]
            · rw [bitOf, hdiv, hmod, hset]
            · unfold WORD_BITS
              omega
          refine ⟨rfl, hin, fun j hj => ?_, by rw [Bitmap.flip, hdiv, hmod]⟩
          have hjlt := h.lt hj
          have hroom := h.room
          have hjbit := (h.bit_iff (by omega)).mpr hj
          by_contra hless
          unfold WORD_BITS at hless
          by_cases hword' : j / 32 < ix
          · rw [hbefore j hword'] at hjbit
            cases hjbit
          · -- it would be an earlier bit of the same word
            have hsame : j / 32 = ix := by omega
            have hclear := (List.find?_range_eq_some.mp hbit).2.2 (j % 32) (by omega)
            rw [and_mask _ (Nat.mod_lt j (by decide)), ← hsame, ← bitOf, hjbit] at hclear
            cases hclear

/-- What one call does: it answers as the set does, and changes one bit at most. -/
def Simulates (nbits : Nat) (bitmap : Bitmap) (free : Finset Nat) (call : BitmapCall)
    (r : BitmapAnswer × Bitmap) : Prop :=
  r.1 = (setCall free call).1 ∧ Refines nbits r.2 (setCall free call).2 ∧
    ∀ j, call.changes r.1 ≠ some j → bitOf r.2.map j = bitOf bitmap.map j

theorem flip_other (bitmap : Bitmap) {i j : Nat} (hne : i ≠ j) :
    bitOf (bitmap.flip i).map j = bitOf bitmap.map j := by
  rw [Bitmap.flip, xor_mask, decide_eq_false (Ne.symm hne), Bool.false_xor]

theorem set_other (bitmap : Bitmap) {i j : Nat} (hne : i ≠ j) :
    bitOf (bitmap.set i).map j = bitOf bitmap.map j := by
  rw [Bitmap.set, or_mask, decide_eq_false (Ne.symm hne), Bool.false_or]

theorem Refines.call (h : Refines nbits bitmap free) {call : BitmapCall}
    (hallowed : call.Allowed nbits free) {σ : Type} {s : σ} :
    Ends never (bitmap.call call) s fun r t => t = s ∧ Simulates nbits bitmap free call r := by
  cases call with
  | alloc =>
      rw [Bitmap.call, ends_bind]
      apply h.alloc.imp
      intro r t hr
      obtain ⟨rfl, hr⟩ := hr
      cases r with
      | none =>
          have hempty : ¬free.Nonempty := Finset.not_nonempty_iff_eq_empty.mpr hr
          have hset : setCall free .alloc = (.code (-E_NO_MEM), free) := dif_neg hempty
          refine ⟨rfl, ?_, ?_, fun j _ => rfl⟩
          · rw [hset]
          · rw [hset]
            exact h
      | some r =>
          obtain ⟨i, after⟩ := r
          obtain ⟨hi, hleast, rfl⟩ := hr
          have hmin : free.min' ⟨i, hi⟩ = i :=
            le_antisymm (Finset.min'_le free i hi) (Finset.le_min' free ⟨i, hi⟩ i hleast)
          have hset : setCall free .alloc = (.index i, free.erase i) := by
            rw [setCall, dif_pos ⟨i, hi⟩, hmin]
          refine ⟨rfl, ?_, ?_, ?_⟩
          · rw [hset]
          · rw [hset]
            exact h.flip hi
          · exact fun j hj => flip_other bitmap fun heq => hj (congrArg some heq)
  | test i =>
      have hlt : i < bitmap.nbits := h.size.symm ▸ hallowed
      have hroom := h.room
      have hbit : bitOf bitmap.map i = decide (i ∈ free) := by
        rw [Bool.eq_iff_iff, decide_eq_true_eq]
        exact h.bit_iff (Nat.lt_of_lt_of_le hallowed hroom)
      rw [Bitmap.call, bitmapTest_eq hlt, pure_bind]
      refine ⟨rfl, ?_, h, fun j _ => rfl⟩
      rw [hbit]
      rfl
  | free i =>
      have hlt : i < bitmap.nbits := h.size.symm ▸ hallowed.1
      have hclear : i ∉ bitmap.bits := h.bits.symm ▸ hallowed.2
      rw [Bitmap.call, bitmapFree_eq hlt hclear, pure_bind]
      refine ⟨rfl, rfl, h.set hallowed.1, ?_⟩
      exact fun j hj => set_other bitmap fun heq => hj (congrArg some heq)

theorem Refines.calls {calls : List BitmapCall} (h : Refines nbits bitmap free)
    (hallowed : AllowedCalls nbits free calls) {σ : Type} {s : σ} :
    Ends never (bitmap.calls calls) s fun r t => t = s ∧ r.1 = (setCalls free calls).1 ∧
      Refines nbits r.2 (setCalls free calls).2 := by
  induction calls generalizing bitmap free with
  | nil => exact ⟨rfl, rfl, h⟩
  | cons call rest ih =>
      rw [Bitmap.calls, ends_bind]
      apply (h.call hallowed.1).imp
      intro r t hr
      obtain ⟨rfl, hanswer, hrefines, _⟩ := hr
      rw [ends_bind]
      apply (ih hrefines hallowed.2).imp
      intro r' t' hr'
      obtain ⟨rfl, hanswers, hrefines'⟩ := hr'
      refine ⟨rfl, ?_, hrefines'⟩
      rw [hanswer, hanswers]
      rfl

/-! ## A new bitmap -/

/-- The masks of consecutive bits flip those. -/
theorem foldl_masks (w : BitVec 32) (first : Nat) {n k : Nat} (hn : first + n ≤ 32) :
    ((List.range' first n).foldl (fun w k => w ^^^ 1#32 <<< k) w).getLsbD k =
      (w.getLsbD k ^^ decide (first ≤ k ∧ k < first + n)) := by
  induction n generalizing w first with
  | zero =>
      have hnone : ¬(first ≤ k ∧ k < first + 0) := by omega
      rw [decide_eq_false hnone, Bool.xor_false]
      rfl
  | succ n ih =>
      have hmask : 1#32 <<< first = BitVec.twoPow 32 first := rfl
      rw [List.range'_succ, List.foldl_cons, ih _ _ (by omega), BitVec.getLsbD_xor, hmask,
        BitVec.getLsbD_twoPow,
        decide_eq_true (by omega : first < 32), Bool.true_and, Bool.xor_assoc]
      congr 1
      by_cases heq : first = k
      · rw [decide_eq_true heq, decide_eq_false (by omega), decide_eq_true (by omega)]
        rfl
      · rw [decide_eq_false heq, Bool.false_xor, decide_eq_decide]
        omega

theorem markLeftover_bit {overbits k : Nat} (hover : overbits ≤ 32) (hk : k < 32) :
    (markLeftover overbits 0xffffffff).getLsbD k = decide (k < overbits) := by
  have hones : (0xffffffff : BitVec 32).getLsbD k = true := by
    have hall : (0xffffffff : BitVec 32) = BitVec.allOnes 32 := by decide
    rw [hall, BitVec.getLsbD_allOnes, decide_eq_true hk]
  have hwidth : overbits + (WORD_BITS - overbits) = 32 := by
    unfold WORD_BITS
    omega
  rw [markLeftover, foldl_masks _ _ (by omega), hones, hwidth, Bool.true_xor, ← decide_not,
    decide_eq_decide]
  omega

/-- The words of a new bitmap. -/
def newWords (nbits nwords : Nat) : Nat → BitVec 32 :=
  if nbits ≠ nwords * WORD_BITS then
    Function.update (fun _ => 0xffffffff) (nwords - 1)
    (markLeftover (nbits - (nwords - 1) * WORD_BITS) 0xffffffff)
  else fun _ => 0xffffffff

theorem newWords_bit {nwords i : Nat} (hroom : nbits ≤ nwords * 32)
    (hlast : (nwords - 1) * 32 < nbits)
    (hi : i < nwords * 32) : bitOf (newWords nbits nwords) i = decide (i < nbits) := by
  have hones : ∀ k < 32, (0xffffffff : BitVec 32).getLsbD k = true := by
    intro k hk
    have hall : (0xffffffff : BitVec 32) = BitVec.allOnes 32 := by decide
    rw [hall, BitVec.getLsbD_allOnes, decide_eq_true hk]
  have hmod : i % 32 < 32 := Nat.mod_lt i (by decide)
  unfold newWords WORD_BITS
  split
  · rw [bitOf, Function.update_apply]
    split
    · rw [markLeftover_bit (by omega) hmod, decide_eq_decide]
      omega
    · rw [hones _ hmod, decide_eq_true]
      omega
  · rw [bitOf, hones _ hmod, decide_eq_true]
    omega

section Create

variable {answers : Answers} {k : Kernel}

theorem bitmapCreate_words (answers : Answers) (nbits : Nat) (k : Kernel) :
    Ends (fun _ => True) (bitmapCreate answers nbits) k fun r _ =>
      ∀ bitmap, r = some bitmap → bitmap.map = newWords nbits bitmap.nwords := by
  rw [bitmapCreate, ends_bind, ends_check_of trivial]
  intro _
  rw [ends_bind]
  apply (kmalloc_spec.lift fun _ _ _ => trivial : Ends _ (kmalloc answers) k fun _ _ => True).imp
  intro self k₁ _
  cases self with
  | none =>
      intro bitmap hnone
      cases hnone
  | some self =>
      change Ends _ (kmalloc answers >>= _) k₁ _
      rw [ends_bind]
      apply (kmalloc_spec.lift fun _ _ _ => trivial :
        Ends _ (kmalloc answers) k₁ fun _ _ => True).imp
      intro mapAddr k₂ _
      cases mapAddr with
      | none =>
          change Ends _ (kfree self >>= _) k₂ _
          rw [ends_bind, kfree, ends_bind, ends_get, ends_bind, ends_check_of trivial]
          intro _ bitmap hnone
          cases hnone
      | some mapAddr =>
          change Ends _ (if nbits ≠ roundupDiv nbits WORD_BITS * WORD_BITS then _ else _) k₂ _
          split
          case isTrue hleft =>
            rw [ends_bind, ends_check_of trivial]
            intro _
            rw [ends_bind, ends_check_of trivial]
            intro _ bitmap hsome
            rw [← Option.some.inj hsome]
            exact (if_pos hleft).symm
          case isFalse hfull =>
            intro bitmap hsome
            rw [← Option.some.inj hsome]
            exact (if_neg hfull).symm

/-- There is a new bitmap exactly if both allocations succeed. -/
theorem bitmapCreate_isSome (hpos : 0 < nbits) (hlt : nbits < 2 ^ 32) :
    Ends never (bitmapCreate answers nbits) k fun r _ =>
      (r.isSome = true ↔ answers.full k.calls = false ∧ answers.full (k.calls + 1) = false) := by
  apply (bitmapCreate_spec (Nat.ne_of_gt hpos) hlt).imp
  intro r t hr
  cases r with
  | none =>
      obtain ⟨_, hfull, _⟩ := hr
      refine iff_of_false Bool.false_ne_true ?_
      rintro ⟨hfirst, hsecond⟩
      rcases hfull with hfull | hfull
      · exact Bool.false_ne_true (hfirst.symm.trans hfull)
      · exact Bool.false_ne_true (hsecond.symm.trans hfull)
  | some bitmap => exact iff_of_true rfl ⟨hr.2.1, hr.2.2.1⟩

/-- All the indices of a new bitmap are free. -/
theorem bitmapCreate_refines (hpos : 0 < nbits) (hlt : nbits < 2 ^ 32) :
    Ends never (bitmapCreate answers nbits) k fun r _ =>
      ∀ bitmap, r = some bitmap → Refines nbits bitmap (Finset.range nbits) := by
  apply ((bitmapCreate_spec (Nat.ne_of_gt hpos) hlt).and (bitmapCreate_words answers nbits k)).imp
  intro r t hr bitmap hsome
  subst hsome
  obtain ⟨⟨_, _, _, _, _, _, hnbits, hnwords⟩, hwords⟩ := hr
  have hmap := hwords bitmap rfl
  have hbit : ∀ i < bitmap.nwords * 32, bitOf bitmap.map i = decide (i < nbits) := by
    intro i hi
    rw [hmap]
    exact newWords_bit (by omega) (by omega) hi
  refine ⟨hnbits, by omega, ?_, ?_⟩
  · ext i
    rw [Bitmap.mem_bits, Finset.mem_range, hnbits, and_iff_left_iff_imp]
    intro hi
    rw [hbit i (by omega), decide_eq_true hi]
  · intro i hi hset
    rwa [hbit i hi, decide_eq_true_eq] at hset

/-- `bitmap_create` gives a bitmap exactly if its two allocations succeed. The bitmap answers
any calls as the set of the free indices, `0` to `nbits - 1` at first, and each call changes
only the bit of its own index. -/
theorem bitmap_refines (answers : Answers) (k : Kernel) {nbits : Nat} (hpos : 0 < nbits)
    (hwrap : nbits + 32 < 2 ^ 32) :
    Ends never (bitmapCreate answers nbits) k fun r _ =>
      (r.isSome = true ↔ answers.full k.calls = false ∧ answers.full (k.calls + 1) = false) ∧
      ∀ bitmap, r = some bitmap →
        ∀ calls, AllowedCalls nbits (Finset.range nbits) calls → ∀ {σ : Type} (s : σ),
          Ends never (bitmap.calls calls) s fun r t => t = s ∧
            r.1 = (setCalls (Finset.range nbits) calls).1 ∧
            Refines nbits r.2 (setCalls (Finset.range nbits) calls).2 ∧
            ∀ call : BitmapCall, call.Allowed nbits (setCalls (Finset.range nbits) calls).2 →
              Ends never (r.2.call call) s fun r' t => t = s ∧
                Simulates nbits r.2 (setCalls (Finset.range nbits) calls).2 call r' := by
  have hlt : nbits < 2 ^ 32 := by omega
  apply ((bitmapCreate_isSome hpos hlt).and (bitmapCreate_refines hpos hlt)).imp
  rintro r t ⟨hsome, hr⟩
  refine ⟨hsome, fun bitmap hbitmap calls hallowed σ s => ?_⟩
  apply ((hr bitmap hbitmap).calls hallowed).imp
  intro r' t' hr'
  obtain ⟨rfl, hanswers, hrefines⟩ := hr'
  exact ⟨rfl, hanswers, hrefines, fun call hcall => hrefines.call hcall⟩

end Create

/-- There is a bitmap of 33 bits; its last word has one index. -/
theorem bitmap_refines_one_more : Ends never (bitmapCreate calmAnswers 33) ⟨∅, 0, 0⟩ fun r _ =>
    ∃ bitmap, r = some bitmap ∧
      Ends never (bitmap.calls [.alloc, .alloc, .free 0, .test 1, .alloc, .test 32]) () fun r' _ =>
        r'.1 = [.index 0, .index 1, .done, .bit false, .index 0, .bit true] := by
  apply (bitmap_refines calmAnswers ⟨∅, 0, 0⟩ (by decide : 0 < 33) (by decide)).imp
  rintro r _ ⟨hsome, hr⟩
  obtain ⟨bitmap, hbitmap⟩ := Option.isSome_iff_exists.mp (hsome.mpr ⟨rfl, rfl⟩)
  refine ⟨bitmap, hbitmap, ?_⟩
  have hallowed : AllowedCalls 33 (Finset.range 33)
      [.alloc, .alloc, .free 0, .test 1, .alloc, .test 32] :=
    ⟨trivial, trivial, ⟨by decide, by decide +kernel⟩, (by decide : 1 < 33), trivial,
      (by decide : 32 < 33), trivial⟩
  apply (hr bitmap hbitmap _ hallowed ()).imp
  intro r' _ hr'
  rw [hr'.2.1]
  decide +kernel

end Ucore.Sfs
