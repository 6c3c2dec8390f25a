import Mathlib.Data.Finset.Card
import Mathlib.Data.Finset.Lattice.Fold
import Mathlib.Data.Finset.Range
import Mathlib.Order.Lattice.Nat
import Ucore.Foundation.Machine
import Ucore.Sfs.Layout

/-!
# Bitmaps

`kern/fs/sfs/bitmap.c` in lab 8, where a set bit is a free block, with the
`kmalloc` it calls.
-/

namespace Ucore.Sfs

open Machine

/-! ## Memory and the device -/

/-- What `kmalloc` returns that is not null. -/
abbrev Addr := Nat

/-- What `kmalloc` and `d_io` answer, call by call. -/
structure Answers where
  full : Nat → Bool
  place : Nat → Finset Addr → Addr
  fresh : ∀ n heap, place n heap ∉ heap
  io : Nat → Int
  io_nonpos : ∀ n, io n ≤ 0

/-- The objects that are allocated, with the calls made so far. -/
structure Kernel where
  heap : Finset Addr
  calls : Nat
  reads : Nat

abbrev KernelM := Machine Failed Kernel

def kmalloc (answers : Answers) : KernelM (Option Addr) := do
  let k ← get
  set { k with calls := k.calls + 1 }
  if answers.full k.calls then return none
  let a := answers.place k.calls k.heap
  modify fun k => { k with heap := insert a k.heap }
  return some a

def kfree (a : Addr) : KernelM PUnit := do
  check .kfree (a ∈ (← get).heap)
  modify fun k => { k with heap := k.heap.erase a }

/-! ## The bitmap -/

def WORD_BITS : Nat := 32

/-- A `struct bitmap`, with the addresses of it and of its words. -/
structure Bitmap where
  self : Addr
  mapAddr : Addr
  nbits : Nat
  nwords : Nat
  map : Nat → BitVec 32

/-- The loop that marks the leftover bits of the last word. -/
def markLeftover (overbits : Nat) (w : BitVec 32) : BitVec 32 :=
  (List.range' overbits (WORD_BITS - overbits)).foldl (fun w k => w ^^^ 1#32 <<< k) w

def bitmapCreate (answers : Answers) (nbits : Nat) : KernelM (Option Bitmap) := do
  check .bitmapCreate (nbits ≠ 0 ∧ nbits + WORD_BITS > nbits)
  match ← kmalloc answers with
  | none => return none
  | some self =>
      let nwords := roundupDiv nbits WORD_BITS
      match ← kmalloc answers with
      | none =>
          kfree self
          return none
      | some mapAddr =>
          let bitmap : Bitmap := ⟨self, mapAddr, nbits, nwords, fun _ => 0xffffffff⟩
          if nbits ≠ nwords * WORD_BITS then
            let ix := nwords - 1
            let overbits := nbits - ix * WORD_BITS
            check .bitmapCreate (nbits / WORD_BITS = ix)
            check .bitmapCreate (0 < overbits ∧ overbits < WORD_BITS)
            return some { bitmap with
              map := Function.update bitmap.map ix (markLeftover overbits (bitmap.map ix)) }
          return some bitmap

section Pure

variable {σ : Type}

/-- The first bit that is set, with the bitmap after it was cleared. -/
def bitmapAlloc (bitmap : Bitmap) : Machine Failed σ (Option (Nat × Bitmap)) :=
  match (List.range bitmap.nwords).find? fun ix => bitmap.map ix != 0 with
  | none => pure none
  | some ix =>
      match (List.range WORD_BITS).find? fun offset => bitmap.map ix &&& 1#32 <<< offset != 0 with
      | none => throw .bitmapAlloc
      | some offset =>
          pure (some (ix * WORD_BITS + offset,
            { bitmap with
              map := Function.update bitmap.map ix (bitmap.map ix ^^^ 1#32 <<< offset) }))

/-- The word and the mask of a bit. -/
def bitmapTranslate (bitmap : Bitmap) (index : Nat) : Machine Failed σ (Nat × BitVec 32) := do
  check .bitmapTranslate (index < bitmap.nbits)
  return (index / WORD_BITS, 1#32 <<< (index % WORD_BITS))

def bitmapTest (bitmap : Bitmap) (index : Nat) : Machine Failed σ Bool := do
  let at_ ← bitmapTranslate bitmap index
  return bitmap.map at_.1 &&& at_.2 != 0

def bitmapFree (bitmap : Bitmap) (index : Nat) : Machine Failed σ Bitmap := do
  let at_ ← bitmapTranslate bitmap index
  check .bitmapFree (bitmap.map at_.1 &&& at_.2 = 0)
  return { bitmap with map := Function.update bitmap.map at_.1 (bitmap.map at_.1 ||| at_.2) }

end Pure

def bitmapDestroy (bitmap : Bitmap) : KernelM PUnit := do
  kfree bitmap.mapAddr
  kfree bitmap.self

/-! ## Bits -/

/-- Bit `i` of an array of words. -/
def bitOf (map : Nat → BitVec 32) (i : Nat) : Bool := (map (i / 32)).getLsbD (i % 32)

/-- The bits of a bitmap that are set. -/
def Bitmap.bits (bitmap : Bitmap) : Finset Nat :=
    {i ∈ Finset.range bitmap.nbits | bitOf bitmap.map i}

theorem Bitmap.mem_bits {bitmap : Bitmap} {i : Nat} :
    i ∈ bitmap.bits ↔ i < bitmap.nbits ∧ bitOf bitmap.map i = true := by
  rw [Bitmap.bits, Finset.mem_filter, Finset.mem_range]

theorem and_mask (w : BitVec 32) {k : Nat} (hk : k < 32) :
    (w &&& 1#32 <<< k != 0) = w.getLsbD k := by
  have hmask : 1#32 <<< k = BitVec.twoPow 32 k := rfl
  rw [hmask, BitVec.and_twoPow]
  cases hbit : w.getLsbD k with
  | true =>
      have hne : BitVec.twoPow 32 k ≠ 0 := by
        intro hzero
        have := congrArg (fun v => v.getLsbD k) hzero
        simp [hk] at this
      simpa using hne
  | false => simp

theorem or_mask (map : Nat → BitVec 32) (i j : Nat) :
    bitOf (Function.update map (i / 32) (map (i / 32) ||| 1#32 <<< (i % 32))) j =
      (decide (j = i) || bitOf map j) := by
  have hmask : 1#32 <<< (i % 32) = BitVec.twoPow 32 (i % 32) := rfl
  rw [bitOf, bitOf, Function.update_apply]
  by_cases hword : j / 32 = i / 32
  · rw [if_pos hword, BitVec.getLsbD_or, hmask, BitVec.getLsbD_twoPow, hword]
    by_cases hbit : j = i
    · subst hbit
      have := Nat.mod_lt j (show 0 < 32 by omega)
      simp [this]
    · have hne : ¬i % 32 = j % 32 := by omega
      simp [hbit, hne]
  · have hne : j ≠ i := fun heq => hword (heq ▸ rfl)
    rw [if_neg hword]
    simp [hne]

theorem xor_mask (map : Nat → BitVec 32) (i j : Nat) :
    bitOf (Function.update map (i / 32) (map (i / 32) ^^^ 1#32 <<< (i % 32))) j =
      (decide (j = i) ^^ bitOf map j) := by
  have hmask : 1#32 <<< (i % 32) = BitVec.twoPow 32 (i % 32) := rfl
  rw [bitOf, bitOf, Function.update_apply]
  by_cases hword : j / 32 = i / 32
  · rw [if_pos hword, BitVec.getLsbD_xor, hmask, BitVec.getLsbD_twoPow, hword, Bool.xor_comm]
    by_cases hbit : j = i
    · subst hbit
      have := Nat.mod_lt j (show 0 < 32 by omega)
      simp [this]
    · have hne : ¬i % 32 = j % 32 := by omega
      simp [hbit, hne]
  · have hne : j ≠ i := fun heq => hword (heq ▸ rfl)
    rw [if_neg hword]
    simp [hne]

/-! ## What the functions do -/

section Pure

variable {σ : Type} {s : σ} {bitmap : Bitmap} {i : Nat}

theorem bitmapTranslate_eq (hi : i < bitmap.nbits) :
    (bitmapTranslate bitmap i : Machine Failed σ _) = pure (i / 32, 1#32 <<< (i % 32)) := by
  rw [bitmapTranslate, check, if_pos hi, pure_bind]
  rfl

theorem bitmapTest_eq (hi : i < bitmap.nbits) :
    (bitmapTest bitmap i : Machine Failed σ Bool) = pure (bitOf bitmap.map i) := by
  have hmask := and_mask (bitmap.map (i / 32)) (Nat.mod_lt i (show 0 < 32 by omega))
  rw [bitmapTest, bitmapTranslate_eq hi, pure_bind, hmask]
  rfl

/-- The bitmap with one bit set. -/
def Bitmap.set (bitmap : Bitmap) (i : Nat) : Bitmap :=
  { bitmap with
    map := Function.update bitmap.map (i / 32) (bitmap.map (i / 32) ||| 1#32 <<< (i % 32)) }

/-- The bitmap with one bit flipped. -/
def Bitmap.flip (bitmap : Bitmap) (i : Nat) : Bitmap :=
  { bitmap with
    map := Function.update bitmap.map (i / 32) (bitmap.map (i / 32) ^^^ 1#32 <<< (i % 32)) }

@[simp] theorem Bitmap.set_nbits : (bitmap.set i).nbits = bitmap.nbits := rfl

@[simp] theorem Bitmap.set_nwords : (bitmap.set i).nwords = bitmap.nwords := rfl

@[simp] theorem Bitmap.flip_nbits : (bitmap.flip i).nbits = bitmap.nbits := rfl

@[simp] theorem Bitmap.flip_nwords : (bitmap.flip i).nwords = bitmap.nwords := rfl

theorem Bitmap.bits_set (hi : i < bitmap.nbits) : (bitmap.set i).bits = insert i bitmap.bits := by
  ext j
  rw [Finset.mem_insert, Bitmap.mem_bits, Bitmap.mem_bits, Bitmap.set_nbits, Bitmap.set, or_mask,
    Bool.or_eq_true, decide_eq_true_eq]
  by_cases hj : j = i
  · simp [hj, hi]
  · simp [hj]

theorem Bitmap.bits_flip (hi : i ∈ bitmap.bits) : (bitmap.flip i).bits = bitmap.bits.erase i := by
  have hset := (Bitmap.mem_bits.mp hi).2
  ext j
  rw [Finset.mem_erase, Bitmap.mem_bits, Bitmap.mem_bits, Bitmap.flip_nbits, Bitmap.flip, xor_mask]
  by_cases hj : j = i
  · simp [hj, hset]
  · simp [hj]

/-- A bit that is clear is set. -/
theorem bitmapFree_eq (hi : i < bitmap.nbits) (hclear : i ∉ bitmap.bits) :
    (bitmapFree bitmap i : Machine Failed σ Bitmap) = pure (bitmap.set i) := by
  have hbit : bitOf bitmap.map i = false := by
    rw [← Bool.not_eq_true]
    exact fun hset => hclear (Bitmap.mem_bits.mpr ⟨hi, hset⟩)
  have hmask := and_mask (bitmap.map (i / 32)) (Nat.mod_lt i (show 0 < 32 by omega))
  have hzero : bitmap.map (i / 32) &&& 1#32 <<< (i % 32) = 0 := by
    rw [← bitOf, hbit] at hmask
    simpa using hmask
  rw [bitmapFree, bitmapTranslate_eq hi, pure_bind, check, if_pos hzero, pure_bind]
  rfl

/-- The first set bit is taken, if there is one. -/
theorem bitmapAlloc_spec (hfull : bitmap.nbits = bitmap.nwords * 32) :
    Ends never (bitmapAlloc bitmap) s fun r t => t = s ∧
      match r with
      | none => bitmap.bits = ∅
      | some (i, after) => i ∈ bitmap.bits ∧ after = bitmap.flip i := by
  unfold bitmapAlloc
  cases hword : (List.range bitmap.nwords).find? fun ix => bitmap.map ix != 0 with
  | none =>
      refine ⟨rfl, ?_⟩
      rw [List.find?_eq_none] at hword
      apply Finset.eq_empty_of_forall_notMem
      intro i hi
      obtain ⟨hlt, hset⟩ := Bitmap.mem_bits.mp hi
      have hzero := hword (i / 32) (List.mem_range.mpr (by omega))
      simp only [bne_iff_ne, ne_eq, Decidable.not_not] at hzero
      rw [bitOf, hzero] at hset
      simp at hset
  | some ix =>
      have hix : ix < bitmap.nwords := List.mem_range.mp (List.mem_of_find?_eq_some hword)
      have hne := List.find?_some hword
      simp only [bne_iff_ne, ne_eq] at hne
      dsimp only
      cases hbit : (List.range WORD_BITS).find? fun offset =>
          bitmap.map ix &&& 1#32 <<< offset != 0 with
      | none =>
          -- a word that is not zero has a bit
          rw [List.find?_eq_none] at hbit
          exfalso
          apply hne
          ext k hk
          have hclear := hbit k (List.mem_range.mpr hk)
          rw [and_mask _ hk, Bool.not_eq_true] at hclear
          rw [← BitVec.getLsbD_eq_getElem hk, hclear]
          simp
      | some offset =>
          have hoffset : offset < 32 := List.mem_range.mp (List.mem_of_find?_eq_some hbit)
          have hset := List.find?_some hbit
          rw [and_mask _ hoffset] at hset
          have hdiv : (ix * WORD_BITS + offset) / 32 = ix := by
            unfold WORD_BITS
            omega
          have hmod : (ix * WORD_BITS + offset) % 32 = offset := by
            unfold WORD_BITS
            omega
          refine ⟨rfl, Bitmap.mem_bits.mpr ⟨?_, ?_⟩, ?_⟩
          · unfold WORD_BITS
            omega
          · rw [bitOf, hdiv, hmod, hset]
          · rw [Bitmap.flip, hdiv, hmod]

end Pure

section Kernel

variable {answers : Answers} {k : Kernel}

theorem kmalloc_spec :
    Ends never (kmalloc answers) k fun r t => t.reads = k.reads ∧ t.calls = k.calls + 1 ∧
      match r with
      | none => answers.full k.calls = true ∧ t.heap = k.heap
      | some a => answers.full k.calls = false ∧ a ∉ k.heap ∧ t.heap = insert a k.heap := by
  rw [kmalloc, ends_bind, ends_get, ends_bind]
  show Ends never _ _ _
  split
  case isTrue hfull => exact ⟨rfl, rfl, hfull, rfl⟩
  case isFalse hfull =>
    exact ⟨rfl, rfl, Bool.not_eq_true _ ▸ hfull, answers.fresh _ _, rfl⟩

theorem kfree_spec {a : Addr} (ha : a ∈ k.heap) :
    Ends never (kfree a) k fun _ t => t = { k with heap := k.heap.erase a } := by
  rw [kfree, ends_bind, ends_get, ends_bind, ends_check ha]
  exact rfl

/-- A new bitmap takes two objects; when the second one is not there, the first one is
given back. -/
theorem bitmapCreate_spec {nbits : Nat} (hne : nbits ≠ 0) (hlt : nbits < 2 ^ 32) :
    Ends never (bitmapCreate answers nbits) k fun r t => t.reads = k.reads ∧
      match r with
      | none =>
          (answers.full k.calls = true ∨ answers.full (k.calls + 1) = true) ∧ t.heap = k.heap
      | some bitmap =>
          answers.full k.calls = false ∧ answers.full (k.calls + 1) = false ∧
            bitmap.self ∉ k.heap ∧ bitmap.mapAddr ∉ insert bitmap.self k.heap ∧
            t.heap = insert bitmap.mapAddr (insert bitmap.self k.heap) ∧
            bitmap.nbits = nbits ∧ bitmap.nwords = (nbits + 31) / 32 := by
  have hwords : roundupDiv nbits WORD_BITS = (nbits + 31) / 32 := by
    unfold roundupDiv WORD_BITS
    omega
  rw [bitmapCreate, ends_bind, ends_check ⟨hne, by unfold WORD_BITS; omega⟩, ends_bind]
  apply kmalloc_spec.imp
  intro self k₁ hself
  obtain ⟨hreads₁, hcalls₁, hself⟩ := hself
  cases self with
  | none => exact ⟨hreads₁, .inl hself.1, hself.2⟩
  | some self =>
      obtain ⟨hroom₁, hfresh₁, hheap₁⟩ := hself
      change Ends never (kmalloc answers >>= _) k₁ _
      rw [ends_bind]
      apply kmalloc_spec.imp
      intro mapAddr k₂ hmap
      obtain ⟨hreads₂, hcalls₂, hmap⟩ := hmap
      cases mapAddr with
      | none =>
          change Ends never (kfree self >>= _) k₂ _
          rw [ends_bind]
          have hmem : self ∈ k₂.heap := by simp [hmap.2, hheap₁]
          apply (kfree_spec hmem).imp
          intro _ t ht
          refine ⟨by rw [ht]; exact hreads₂.trans hreads₁, .inr (hcalls₁ ▸ hmap.1), ?_⟩
          rw [ht]
          show k₂.heap.erase self = k.heap
          rw [hmap.2, hheap₁, Finset.erase_insert hfresh₁]
      | some mapAddr =>
          obtain ⟨hroom₂, hfresh₂, hheap₂⟩ := hmap
          have hpost : ∀ map, k₂.reads = k.reads ∧
              (answers.full k.calls = false ∧ answers.full (k.calls + 1) = false ∧
                self ∉ k.heap ∧ mapAddr ∉ insert self k.heap ∧
                k₂.heap = insert mapAddr (insert self k.heap) ∧ nbits = nbits ∧
                (⟨self, mapAddr, nbits, roundupDiv nbits WORD_BITS, map⟩ : Bitmap).nwords =
                  (nbits + 31) / 32) := fun _ =>
            ⟨hreads₂.trans hreads₁, hroom₁, hcalls₁ ▸ hroom₂, hfresh₁, hheap₁ ▸ hfresh₂,
              hheap₁ ▸ hheap₂, rfl, hwords⟩
          change Ends never (if nbits ≠ roundupDiv nbits WORD_BITS * WORD_BITS then _ else _) k₂ _
          split
          case isFalse => exact hpost _
          case isTrue hleft =>
            rw [hwords] at hleft
            unfold WORD_BITS at hleft
            have hdiv : nbits / WORD_BITS = roundupDiv nbits WORD_BITS - 1 := by
              rw [hwords]
              unfold WORD_BITS
              omega
            have hover : 0 < nbits - (roundupDiv nbits WORD_BITS - 1) * WORD_BITS ∧
                nbits - (roundupDiv nbits WORD_BITS - 1) * WORD_BITS < WORD_BITS := by
              rw [hwords]
              unfold WORD_BITS
              omega
            rw [ends_bind, ends_check hdiv, ends_bind, ends_check hover]
            exact hpost _

theorem bitmapDestroy_spec {bitmap : Bitmap} {heap : Finset Addr} (hself : bitmap.self ∉ heap)
    (hmap : bitmap.mapAddr ∉ insert bitmap.self heap)
    (hheap : k.heap = insert bitmap.mapAddr (insert bitmap.self heap)) :
    Ends never (bitmapDestroy bitmap) k fun _ t => t.heap = heap := by
  rw [bitmapDestroy, ends_bind]
  have hmem : bitmap.mapAddr ∈ k.heap := by simp [hheap]
  apply (kfree_spec hmem).imp
  intro _ k₁ hk₁
  have hheap₁ : k₁.heap = insert bitmap.self heap := by
    rw [hk₁]
    show k.heap.erase bitmap.mapAddr = _
    rw [hheap, Finset.erase_insert hmap]
  have hmem₁ : bitmap.self ∈ k₁.heap := by simp [hheap₁]
  apply (kfree_spec hmem₁).imp
  intro _ t ht
  rw [ht]
  show k₁.heap.erase bitmap.self = heap
  rw [hheap₁, Finset.erase_insert hself]

end Kernel

/-- No call fails. -/
def calmAnswers : Answers where
  full _ := false
  place _ heap := heap.sup id + 1
  fresh _ heap hmem := absurd (Finset.le_sup hmem : id _ ≤ heap.sup id) (Nat.not_succ_le_self _)
  io _ := 0
  io_nonpos _ := le_rfl

end Ucore.Sfs
