import Mathlib.Logic.Function.Basic

/-!
# Memory as bytes and as words

A block of memory is a function from offsets to bytes. The 32-bit words at
offsets that are multiples of four are read and written little-endian.
-/

namespace Ucore

abbrev Byte := BitVec 8

/-- The bytes at the offsets of a block of memory. -/
abbrev Bytes := Nat → Byte

/-- Byte `k` of a word, the least significant one first. -/
def byteOf (w : BitVec 32) (k : Nat) : Byte := w.extractLsb' (8 * k) 8

/-- The word with index `i`. -/
def word (b : Bytes) (i : Nat) : BitVec 32 :=
  b (4 * i + 3) ++ b (4 * i + 2) ++ b (4 * i + 1) ++ b (4 * i)

def setWord (b : Bytes) (i : Nat) (w : BitVec 32) : Bytes :=
  fun k => if k / 4 = i then byteOf w (k % 4) else b k

/-- The bytes of an array of words. -/
def ofWords (ws : Nat → BitVec 32) : Bytes := fun k => byteOf (ws (k / 4)) (k % 4)

/-- `old` with the first `len` bytes of `new` at the offset `offset`. -/
def splice (offset len : Nat) (new old : Bytes) : Bytes :=
  fun k => if offset ≤ k ∧ k < offset + len then new (k - offset) else old k

theorem append_bytes (w : BitVec 32) :
    byteOf w 3 ++ byteOf w 2 ++ byteOf w 1 ++ byteOf w 0 = w := by
  ext k hk
  have hget : ∀ n, n = k → w.getLsbD n = w[k] := by
    intro n hn
    rw [hn]
    exact BitVec.getLsbD_eq_getElem hk
  simp only [byteOf, BitVec.getElem_append, BitVec.getElem_extractLsb']
  split
  · exact hget _ (by omega)
  · split
    · exact hget _ (by omega)
    · split
      · exact hget _ (by omega)
      · exact hget _ (by omega)

theorem word_congr {b b' : Bytes} {i : Nat} (hsame : ∀ k < 4, b (4 * i + k) = b' (4 * i + k)) :
    word b i = word b' i := by
  have h0 := hsame 0 (by omega)
  have h1 := hsame 1 (by omega)
  have h2 := hsame 2 (by omega)
  have h3 := hsame 3 (by omega)
  simp only [Nat.add_zero] at h0
  rw [word, word, h0, h1, h2, h3]

@[simp] theorem word_ofWords (ws : Nat → BitVec 32) (i : Nat) : word (ofWords ws) i = ws i := by
  have hbyte : ∀ k < 4, ofWords ws (4 * i + k) = byteOf (ws i) k := by
    intro k hk
    rw [ofWords, show (4 * i + k) / 4 = i by omega, show (4 * i + k) % 4 = k by omega]
  have h0 := hbyte 0 (by omega)
  rw [Nat.add_zero] at h0
  rw [word, hbyte 3 (by omega), hbyte 2 (by omega), hbyte 1 (by omega), h0]
  exact append_bytes (ws i)

@[simp] theorem word_setWord_self (b : Bytes) (i : Nat) (w : BitVec 32) :
    word (setWord b i w) i = w := by
  have hsame : word (setWord b i w) i = word (ofWords fun _ => w) i := by
    apply word_congr
    intro k hk
    rw [setWord, if_pos (by omega), ofWords]
  rw [hsame, word_ofWords]

theorem word_setWord_of_ne (b : Bytes) {i j : Nat} (w : BitVec 32) (hne : j ≠ i) :
    word (setWord b i w) j = word b j := by
  apply word_congr
  intro k hk
  rw [setWord, if_neg (by omega)]

theorem word_setWord (b : Bytes) (i j : Nat) (w : BitVec 32) :
    word (setWord b i w) j = if j = i then w else word b j := by
  split
  case isTrue heq => rw [heq, word_setWord_self]
  case isFalse hne => exact word_setWord_of_ne b w hne

/-! ## Copies -/

theorem splice_congr {offset len : Nat} {new new' old : Bytes} (hsame : ∀ i < len, new i = new' i) :
    splice offset len new old = splice offset len new' old := by
  funext k
  unfold splice
  split
  · exact hsame _ (by omega)
  · rfl

theorem splice_front {n i : Nat} {new old : Bytes} (hi : i < n) : splice 0 n new old i = new i := by
  rw [splice, if_pos (by omega), Nat.sub_zero]

@[simp] theorem splice_zero (offset : Nat) (new old : Bytes) : splice offset 0 new old = old := by
  funext k
  rw [splice, if_neg (by omega)]

/-- Two copies in a row are one copy. -/
theorem splice_append (offset n k : Nat) (new old : Bytes) :
    splice (offset + n) k (fun i => new (n + i)) (splice offset n new old) =
      splice offset (n + k) new old := by
  funext x
  unfold splice
  by_cases hlow : x < offset + n
  · rw [if_neg (by omega)]
    exact if_congr (by omega) rfl rfl
  · by_cases hin : x < offset + n + k
    · rw [if_pos (by omega), if_pos (by omega)]
      exact congrArg new (by omega)
    · rw [if_neg (by omega), if_neg (by omega), if_neg (by omega)]

theorem splice_at {offset len i : Nat} {new old : Bytes} (hi : i < len) :
    splice offset len new old (offset + i) = new i := by
  rw [splice, if_pos (by omega), Nat.add_sub_cancel_left]

theorem splice_out {offset len k : Nat} {new old : Bytes} (hk : k < offset ∨ offset + len ≤ k) :
    splice offset len new old k = old k := by
  rw [splice, if_neg (by omega)]

/-- A block whose part at `offset` has been replaced, put back. -/
theorem splice_part {off offset len n : Nat} {new old : Bytes} (hin : offset + len ≤ n) :
    splice off n (splice offset len new fun i => old (off + i)) old =
      splice (off + offset) len new old := by
  funext k
  by_cases hblock : off ≤ k ∧ k < off + n
  · obtain ⟨i, rfl⟩ : ∃ i, k = off + i := ⟨k - off, by omega⟩
    rw [splice_at (by omega)]
    by_cases hpart : offset ≤ i ∧ i < offset + len
    · obtain ⟨j, rfl⟩ : ∃ j, i = offset + j := ⟨i - offset, by omega⟩
      rw [splice_at (by omega), ← Nat.add_assoc, splice_at (by omega)]
    · rw [splice_out (by omega), splice_out (by omega)]
  · rw [splice_out (by omega), splice_out (by omega)]

/-- A word within what was copied to the front. -/
theorem word_splice {len : Nat} (new old : Bytes) {i : Nat} (hlt : 4 * i + 3 < len) :
    word (splice 0 len new old) i = word new i := by
  apply word_congr
  intro k hk
  exact splice_front (by omega)

/-- Copying one word to its place. -/
theorem splice_word (b : Bytes) (i : Nat) (w : BitVec 32) :
    splice (4 * i) 4 (ofWords fun _ => w) b = setWord b i w := by
  funext k
  rw [splice, setWord]
  by_cases hin : k / 4 = i
  · rw [if_pos (by omega), if_pos hin, ofWords, show (k - 4 * i) % 4 = k % 4 by omega]
  · rw [if_neg (by omega), if_neg hin]

theorem zero_eq_ofWords : (fun _ => 0 : Bytes) = ofWords fun _ => 0 := by
  funext k
  simp [ofWords, byteOf]

@[simp] theorem word_zero (i : Nat) : word (fun _ => 0) i = 0 := by
  rw [zero_eq_ofWords, word_ofWords]

end Ucore
