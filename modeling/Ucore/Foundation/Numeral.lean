import Mathlib.Data.Nat.Digits.Lemmas

/-!
# Numerals

The numeral of a number in a base, most significant digit first. It has no superfluous
digit, it is read back as the number, and it is the only one.
-/

namespace Ucore

/-- A numeral of `n` in base `b`. -/
structure Numeral (b n : Nat) (ds : List Nat) : Prop where
  ne_nil : ds ≠ []
  lt : ∀ d ∈ ds, d < b
  value : Nat.ofDigits b ds.reverse = n
  leading : ∀ ds', ds = 0 :: ds' → ds' = []

def numeral (b n : Nat) : List Nat := if n = 0 then [0] else (Nat.digits b n).reverse

variable {b n : Nat}

theorem numeral_of_lt (hn : n < b) : numeral b n = [n] := by
  unfold numeral
  split
  · rename_i hzero
    rw [hzero]
  · rename_i hzero
    rw [Nat.digits_of_lt b n hzero hn]
    rfl

theorem numeral_of_le (hb : 1 < b) (hn : b ≤ n) : numeral b n = numeral b (n / b) ++ [n % b] := by
  have hdiv : n / b ≠ 0 := by
    have hpos := Nat.div_pos hn (by omega)
    omega
  rw [numeral, numeral, if_neg (by omega), if_neg hdiv, Nat.digits_def' hb (by omega),
    List.reverse_cons]

theorem numeral_spec (hb : 1 < b) (n : Nat) : Numeral b n (numeral b n) := by
  unfold numeral
  split
  · rename_i hzero
    rw [hzero]
    refine ⟨by simp, ?_, by simp, ?_⟩
    · intro d hd
      rw [List.mem_singleton] at hd
      omega
    · intro ds' heq
      exact (List.cons.inj heq).2.symm
  · rename_i hzero
    have hne : Nat.digits b n ≠ [] := Nat.digits_ne_nil_iff_ne_zero.mpr hzero
    refine ⟨by simpa using hne, ?_, ?_, ?_⟩
    · intro d hd
      exact Nat.digits_lt_base hb (List.mem_reverse.mp hd)
    · rw [List.reverse_reverse, Nat.ofDigits_digits]
    · intro ds' heq
      have hlast := Nat.getLast_digit_ne_zero b hzero
      have hdigits : Nat.digits b n = ds'.reverse ++ [0] := by
        rw [← List.reverse_reverse (Nat.digits b n), heq, List.reverse_cons]
      simp [hdigits] at hlast

/-- A number has one numeral. -/
theorem Numeral.eq (hb : 1 < b) {ds : List Nat} (hds : Numeral b n ds) : ds = numeral b n := by
  cases ds with
  | nil => exact absurd rfl hds.ne_nil
  | cons d ds =>
      by_cases hd : d = 0
      · have htail := hds.leading ds (by rw [hd])
        have hvalue := hds.value
        rw [hd, htail] at hvalue ⊢
        have hzero : n = 0 := by simpa using hvalue.symm
        rw [numeral, if_pos hzero]
      · have hdigits : Nat.digits b n = (d :: ds).reverse := by
          rw [← hds.value]
          apply Nat.digits_ofDigits b hb
          · intro e he
            exact hds.lt e (List.mem_reverse.mp he)
          · intro _
            simpa using hd
        have hzero : n ≠ 0 := by
          rintro rfl
          simp at hdigits
        rw [numeral, if_neg hzero, hdigits, List.reverse_reverse]

theorem numeral_length_le (hb : 1 < b) {k : Nat} (hk : 0 < k) (hn : n < 2 ^ k) :
    (numeral b n).length ≤ k := by
  unfold numeral
  split
  · exact hk
  · rw [List.length_reverse, Nat.digits_length_le_iff hb]
    exact Nat.lt_of_lt_of_le hn (Nat.pow_le_pow_left hb k)

/-- Digits read from the left, behind digits that were read as `x`. -/
def readDigits (b : Nat) : Int → List Nat → Int
  | x, [] => x
  | x, d :: ds => readDigits b (x * b + d) ds

theorem readDigits_eq (x : Int) (ds : List Nat) :
    readDigits b x ds = x * b ^ ds.length + Nat.ofDigits b ds.reverse := by
  induction ds generalizing x with
  | nil => simp [readDigits]
  | cons d ds ih =>
      rw [readDigits, ih, List.reverse_cons, Nat.ofDigits_append, Nat.ofDigits_singleton,
        List.length_reverse, List.length_cons]
      push_cast
      ring

theorem readDigits_numeral (hb : 1 < b) (n : Nat) : readDigits b 0 (numeral b n) = n := by
  rw [readDigits_eq, (numeral_spec hb n).value, Int.zero_mul, Int.zero_add]

end Ucore
