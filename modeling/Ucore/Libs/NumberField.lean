import Ucore.Foundation.Numeral
import Ucore.Libs.Vsnprintf

/-!
# Number fields

What the conversions `%[-][0]w[l|ll]` with `d`, `u`, `o` or `x` print. The sign is
printed before the padding and not counted in the width, and the `'-'` flag is a padding
character on the left.
-/

namespace Ucore.Printfmt

open Machine

/-! ## What a sink without a bound receives -/

def codes (s : List Byte) : List Int := s.map fun c => (c.toNat : Int)

theorem codes_append (s s' : List Byte) : codes (s ++ s') = codes s ++ codes s' :=
  List.map_append

theorem codes_injective {s s' : List Byte} (heq : codes s = codes s') : s = s' := by
  refine List.map_injective_iff.mpr ?_ heq
  intro c c' hc
  exact BitVec.eq_of_toNat_eq (by simpa using hc)

/-- A program that prints `s`. -/
def Prints (x : PrintM (List Int) PUnit) (s : List Byte) : Prop :=
  ∀ f, x f = .ok (⟨⟩, { f with out := f.out ++ codes s })

theorem Prints.bind {x y : PrintM (List Int) PUnit} {s s' : List Byte} (hx : Prints x s)
    (hy : Prints y s') : Prints (x >>= fun _ => y) (s ++ s') := by
  intro f
  rw [bind_ok (hx f), hy, codes_append, List.append_assoc]

theorem prints_putByte (c : Byte) : Prints (putByte collect c) [c] := fun _ => rfl

theorem prints_pad (c : Byte) (n : Nat) : Prints (pad collect c n) (List.replicate n c) := by
  induction n with
  | zero =>
      intro f
      change Except.ok (PUnit.unit, f) = Except.ok (PUnit.unit, { f with out := f.out ++ [] })
      rw [List.append_nil]
  | succ n ih => exact (prints_putByte c).bind ih

/-- The character of a digit. -/
def digit (d : Nat) : Byte := DIGITS.getD d 0

/-- The number of characters in front of the first of `len` digits. -/
def padding (width : Int) (len : Nat) : Nat := (toInt32 (width - len)).toNat

theorem prints_printnum (num : Nat) (base : Base) (width : Int) (padc : Byte) :
    Prints (printnum collect num base width padc)
      (List.replicate (padding width (numeral base.val num).length) padc ++
        (numeral base.val num).map digit) := by
  induction num using Nat.strongRecOn generalizing width with
  | _ num ih =>
      by_cases hnum : base.val ≤ num
      · have hwidth : padding (toInt32 (width - 1)) (numeral base.val (num / base.val)).length =
            padding width (numeral base.val num).length := by
          rw [numeral_of_le base.one_lt hnum, List.length_append, padding, padding, toInt32,
            toInt32, toInt32, Int.bmod_sub_bmod, Int.sub_sub, Int.add_comm]
          rfl
        have hrest := ih _ (base.div_lt hnum) (toInt32 (width - 1))
        rw [hwidth] at hrest
        rw [printnum_of_le collect hnum, numeral_of_le base.one_lt hnum, List.map_append,
          ← List.append_assoc]
        rw [numeral_of_le base.one_lt hnum] at hrest
        exact hrest.bind (prints_putByte _)
      · rw [printnum_of_lt collect (by omega), numeral_of_lt (by omega)]
        exact (prints_pad _ _).bind (prints_putByte _)

/-! ## The conversions -/

/-- The conversions of numbers. -/
inductive NumberKind
  | d
  | u
  | o
  | x
  deriving DecidableEq

def NumberKind.char : NumberKind → Byte
  | .d => 0x64
  | .u => 0x75
  | .o => 0x6f
  | .x => 0x78

def NumberKind.base : NumberKind → Base
  | .d => base10
  | .u => base10
  | .o => base8
  | .x => base16

/-- `""`, `"l"` or `"ll"`. -/
inductive Length
  | int
  | long
  | longLong
  deriving DecidableEq

def Length.chars : Length → List Byte
  | .int => []
  | .long => [0x6c]
  | .longLong => [0x6c, 0x6c]

/-- The value of an argument of a conversion. -/
def numberValue (kind : NumberKind) (len : Length) (a : Arg) : Int :=
  match kind, len with
  | .d, .int => (a.word.setWidth 32).toInt
  | .d, _ => a.word.toInt
  | _, .int => (a.word.setWidth 32).toNat
  | _, _ => a.word.toNat

def signOf (value : Int) : List Byte := if value < 0 then [MINUS] else []

/-- The variables of the conversion when it is reached. -/
structure Reached (w : Nat) (padc : Byte) (len : Length) (v : Conversion) : Prop where
  pads : ∀ k < 2 ^ 31, padding v.width k = padding w k
  padc : 0 < w → v.padc = padc
  lflag : v.lflag = len.chars.length

theorem padding_eq_zero {width : Int} {len : Nat} (hle : width ≤ len)
    (hlow : -2 ^ 31 ≤ width - len) : padding width len = 0 := by
  rw [padding, toInt32, Int.bmod_eq_of_le (by omega) (by omega)]
  omega

theorem slt_zero_iff (num : BitVec 64) : num.slt 0 = true ↔ num.toInt < 0 := by
  rw [BitVec.slt_iff_toInt_lt]
  rfl

/-- The magnitude, also of the least value. -/
theorem natAbs_toInt (num : BitVec 64) :
    (if num.slt 0 = true then -num else num).toNat = num.toInt.natAbs := by
  have hlt := num.isLt
  have hint := num.toInt_eq_toNat_cond
  split
  · rename_i hneg
    rw [slt_zero_iff] at hneg
    rw [BitVec.toNat_neg]
    omega
  · rename_i hneg
    rw [slt_zero_iff] at hneg
    omega

theorem getint_toInt (len : Length) {v : Conversion} (hlflag : v.lflag = len.chars.length)
    (a : Arg) : (getint a v.lflag).toInt = numberValue .d len a := by
  rw [hlflag]
  cases len with
  | int => exact BitVec.toInt_signExtend_of_le (by decide)
  | long => rfl
  | longLong => rfl

theorem getuint_toNat (len : Length) {v : Conversion} (hlflag : v.lflag = len.chars.length)
    (a : Arg) {kind : NumberKind} (hkind : kind ≠ .d) :
    (getuint a v.lflag).toNat = numberValue kind len a := by
  rw [hlflag]
  cases len with
  | int =>
      have hword : ((a.word.setWidth 32).setWidth 64).toNat = (a.word.setWidth 32).toNat := by
        rw [BitVec.toNat_setWidth, Nat.mod_eq_of_lt]
        have hlt := (a.word.setWidth 32).isLt
        omega
      cases kind with
      | d => exact absurd rfl hkind
      | u => exact congrArg Nat.cast hword
      | o => exact congrArg Nat.cast hword
      | x => exact congrArg Nat.cast hword
  | long =>
      cases kind with
      | d => exact absurd rfl hkind
      | u => rfl
      | o => rfl
      | x => rfl
  | longLong =>
      cases kind with
      | d => exact absurd rfl hkind
      | u => rfl
      | o => rfl
      | x => rfl

/-- A conversion of a number. -/
def printNumber (kind : NumberKind) (v : Conversion) (a : Arg) : PrintM (List Int) PUnit :=
  match kind with
  | .d => printSigned collect v a
  | _ => printUnsigned collect v kind.base a

/-- What a conversion of a number prints. -/
def numberText (w : Nat) (padc : Byte) (base : Nat) (value : Int) : List Byte :=
  signOf value ++ (List.replicate (padding w (numeral base value.natAbs).length) padc ++
    (numeral base value.natAbs).map digit)

theorem numeral_length_small (base : Base) {num : Nat} (hnum : num < 2 ^ 64) :
    (numeral base.val num).length ≤ 64 :=
  numeral_length_le base.one_lt (by decide) hnum

theorem Reached.prints {w : Nat} {padc : Byte} {len : Length} {v : Conversion}
    (hv : Reached w padc len v) (base : Base) {num : Nat} (hnum : num < 2 ^ 64) :
    Prints (printnum collect num base v.width v.padc)
      (List.replicate (padding w (numeral base.val num).length) padc ++
        (numeral base.val num).map digit) := by
  have hlen := numeral_length_small base hnum
  have hprints := prints_printnum num base v.width v.padc
  rw [hv.pads _ (by omega)] at hprints
  by_cases hw : 0 < w
  · rw [hv.padc hw] at hprints ⊢
    exact hprints
  · have hzero : padding w (numeral base.val num).length = 0 :=
      padding_eq_zero (by omega) (by omega)
    rw [hzero] at hprints ⊢
    exact hprints

theorem natAbs_lt (num : BitVec 64) : num.toInt.natAbs < 2 ^ 64 := by
  have hlt := num.isLt
  have hint := num.toInt_eq_toNat_cond
  split at hint <;> omega

theorem printNumber_prints {w : Nat} {padc : Byte} {len : Length} {v : Conversion}
    (hv : Reached w padc len v) (kind : NumberKind) (a : Arg) :
    Prints (printNumber kind v a)
      (numberText w padc kind.base.val (numberValue kind len a)) := by
  by_cases hkind : kind = .d
  · subst hkind
    have habs := natAbs_toInt (getint a v.lflag)
    have hlt := natAbs_lt (getint a v.lflag)
    have hsign := slt_zero_iff (getint a v.lflag)
    rw [getint_toInt len hv.lflag] at habs hlt hsign
    have hnum := hv.prints base10 hlt
    rw [← habs] at hnum
    change Prints (printSigned collect v a) _
    unfold printSigned numberText signOf
    by_cases hneg : (getint a v.lflag).slt 0 = true
    · rw [if_pos hneg] at hnum habs
      rw [if_pos (hsign.mp hneg), ← habs]
      simp only [if_pos hneg]
      exact (prints_putByte MINUS).bind hnum
    · rw [if_neg hneg] at hnum habs
      rw [if_neg fun h => hneg (hsign.mpr h), ← habs]
      simp only [if_neg hneg]
      exact hnum
  · have hvalue := getuint_toNat len hv.lflag a hkind
    have hnum := hv.prints kind.base (getuint a v.lflag).isLt
    have habs : (getuint a v.lflag).toNat = (numberValue kind len a).natAbs := by
      rw [← hvalue]
      rfl
    have hsign : signOf (numberValue kind len a) = [] := by
      rw [signOf, if_neg]
      rw [← hvalue]
      omega
    rw [numberText, hsign, List.nil_append, ← habs]
    cases kind with
    | d => exact absurd rfl hkind
    | u => exact hnum
    | o => exact hnum
    | x => exact hnum

/-! ## Reading the format -/

section Format

variable {fmt : List Byte} {nested : List Byte → (Nat → Arg) → PrintM (List Int) PUnit}
  {args : Nat → Arg} {f : Frame (List Int)}

/-- A flag of one character. -/
def flag (v : Conversion) (ch : Byte) : Conversion :=
  match directive ch with
  | .left => { v with padc := MINUS }
  | .zero => { v with padc := ZERO }
  | .long => { v with lflag := toInt32 (v.lflag + 1) }
  | _ => v

theorem reswitch_flags {fuel : Nat} {before flags rest : List Byte}
    (hfmt : fmt = before ++ (flags ++ rest))
    (hflags : ∀ c ∈ flags, directive c = .left ∨ directive c = .zero ∨ directive c = .long)
    {v : Conversion} {Q : Nat → Frame (List Int) → Prop}
    (hrest : Ends never (reswitch nested collect fmt args fuel (before ++ flags).length
      (flags.foldl flag v)) f Q) :
    Ends never (reswitch nested collect fmt args (fuel + flags.length) before.length v) f Q := by
  induction flags generalizing before v with
  | nil =>
      rw [List.append_nil] at hrest
      exact hrest
  | cons ch flags ih =>
      have htail := @ih (before ++ [ch]) (split_next hfmt)
        (fun c hc => hflags c (List.mem_cons_of_mem ch hc)) (flag v ch)
        (by rwa [List.append_assoc])
      rw [List.length_cons, ← Nat.add_assoc, reswitch, ends_bind, ends_charAt hfmt,
        List.cons_append, List.headD_cons, length_next before ch]
      rw [flag] at htail
      rcases hflags ch List.mem_cons_self with hdir | hdir | hdir
      · rw [hdir] at htail ⊢
        exact htail
      · rw [hdir] at htail ⊢
        exact htail
      · rw [hdir] at htail ⊢
        exact htail

/-- A digit of a number in a format. -/
theorem digit_toNat : ∀ d < 10, (digit d).toNat = ZERO.toNat + d := by decide

theorem digit_range : ∀ d < 10, ¬ (digit d < ZERO ∨ digit d > NINE) := by decide

theorem directive_digit : ∀ d < 10, d ≠ 0 → directive (digit d) = .digit := by decide

theorem toInt32_readDigits (ds : List Nat) {x y : Int} (hxy : toInt32 x = toInt32 y) :
    toInt32 (readDigits 10 x ds) = toInt32 (readDigits 10 y ds) := by
  induction ds generalizing x y with
  | nil => exact hxy
  | cons d ds ih =>
      apply ih
      unfold toInt32 at hxy ⊢
      rw [← Int.bmod_add_bmod, ← Int.bmod_mul_bmod, hxy, Int.bmod_mul_bmod, Int.bmod_add_bmod]

theorem readNumber_reads {fuel : Nat} {before : List Byte} {ds : List Nat} {ch : Byte}
    {rest : List Byte} (hfmt : fmt = before ++ (ds.map digit ++ ch :: rest))
    (hds : ∀ d ∈ ds, d < 10) (hch : ch < ZERO ∨ ch > NINE) (hfuel : ds.length < fuel)
    (precision : Int) {d : Nat} (hd : d < 10) :
    Ends never (readNumber fmt fuel before.length precision (digit d)) f fun r g => g = f ∧
      r.2 = (before ++ ds.map digit).length ∧
      r.1 = toInt32 (readDigits 10 precision (d :: ds)) := by
  have hlast : precision * 10 + (digit d).toNat - ZERO.toNat = precision * 10 + d := by
    rw [digit_toNat d hd]
    omega
  induction ds generalizing before fuel precision d with
  | nil =>
      obtain ⟨fuel, rfl⟩ := Nat.exists_eq_add_of_lt hfuel
      rw [List.length_nil, Nat.zero_add, readNumber, ends_bind, ends_charAt hfmt, hlast]
      simp only [List.map_nil, List.nil_append, List.headD_cons]
      rw [if_pos hch]
      exact ⟨rfl, by simp, rfl⟩
  | cons e ds ih =>
      obtain ⟨fuel, rfl⟩ := Nat.exists_eq_add_of_lt hfuel
      have he := hds e List.mem_cons_self
      rw [readNumber, ends_bind, ends_charAt hfmt, hlast]
      simp only [List.map_cons, List.cons_append, List.headD_cons]
      rw [if_neg (digit_range e he), length_next before (digit e)]
      have hless : ds.length < (e :: ds).length + fuel := by
        rw [List.length_cons]
        omega
      have hread := ih (split_next hfmt) (fun e he => hds e (List.mem_cons_of_mem _ he)) hless
        (toInt32 (precision * 10 + d)) he (by rw [digit_toNat e he]; omega)
      apply hread.imp
      rintro r g ⟨rfl, hp, hr⟩
      refine ⟨rfl, by rw [hp]; simp, ?_⟩
      rw [hr]
      apply toInt32_readDigits (e :: ds)
      unfold toInt32
      rw [Int.bmod_bmod]
      rfl

/-- The number of a field, also where it is a flag. -/
theorem reswitch_width {fuel w : Nat} {before : List Byte} {ch : Byte} {rest : List Byte}
    (hfmt : fmt = before ++ ((numeral 10 w).map digit ++ ch :: rest))
    (hch : ch < ZERO ∨ ch > NINE) (hfuel : (numeral 10 w).length < fuel) {v : Conversion}
    (hwidth : v.width = -1) {Q : Nat → Frame (List Int) → Prop}
    (hrest : ∀ v', (∀ k < 2 ^ 31, padding v'.width k = padding w k) →
      (0 < w → v'.padc = v.padc) → v'.lflag = v.lflag →
      Ends never (reswitch nested collect fmt args fuel
        (before ++ (numeral 10 w).map digit).length v') f Q) :
    Ends never (reswitch nested collect fmt args (fuel + 1) before.length v) f Q := by
  by_cases hw : w = 0
  · subst hw
    have hnumeral : numeral 10 0 = [0] := rfl
    rw [hnumeral] at hfmt hrest
    apply @reswitch_flags fmt nested args f fuel before [ZERO] (ch :: rest) hfmt (by decide)
    apply hrest
    · intro k hk
      change padding v.width k = _
      rw [hwidth, padding_eq_zero (by omega) (by omega), padding_eq_zero (by omega) (by omega)]
    · intro hpos
      exact absurd hpos (Nat.lt_irrefl 0)
    · rfl
  · cases hnumeral : numeral 10 w with
    | nil => exact absurd hnumeral (numeral_spec (by decide) w).ne_nil
    | cons d ds =>
        have hspec := numeral_spec (b := 10) (by decide) w
        have hvalue := readDigits_numeral (b := 10) (by decide) w
        rw [hnumeral] at hspec hvalue hfmt hfuel hrest
        have hd := hspec.lt d List.mem_cons_self
        have hne : d ≠ 0 := by
          rintro rfl
          have htail := hspec.leading ds rfl
          rw [htail] at hvalue
          exact hw (by simpa [readDigits] using hvalue.symm)
        have hread := @readNumber_reads _ f fuel _ ds ch rest (split_next hfmt)
          (fun e he => hspec.lt e (List.mem_cons_of_mem d he)) hch
          (by rw [List.length_cons] at hfuel; omega) 0 d hd
        rw [reswitch, ends_bind, ends_charAt hfmt]
        simp only [List.map_cons, List.cons_append, List.headD_cons]
        rw [directive_digit d hd hne, length_next before (digit d)]
        change Ends never (readNumber fmt fuel _ 0 (digit d) >>= _) f Q
        rw [ends_bind]
        apply hread.imp
        rintro ⟨precision, p⟩ g ⟨rfl, hp, hprecision⟩
        rw [hvalue] at hprecision
        have hat : p = (before ++ (d :: ds).map digit).length := by
          rw [show p = _ from hp]
          simp
        have hprocess : v.processPrecision precision =
            { v with width := precision, precision := -1 } := by
          rw [Conversion.processPrecision, if_pos (by omega)]
        change Ends never
          (reswitch nested collect fmt args fuel p (v.processPrecision precision)) g Q
        rw [hat, hprocess]
        apply hrest
        · intro k _
          rw [show precision = toInt32 w from hprecision, padding, padding, toInt32, toInt32,
            toInt32, Int.bmod_sub_bmod]
        · exact fun _ => rfl
        · rfl

theorem NumberKind.char_range (kind : NumberKind) : kind.char < ZERO ∨ kind.char > NINE := by
  cases kind <;> decide

/-- The conversion itself. -/
theorem reswitch_number {fuel : Nat} {before : List Byte} (kind : NumberKind)
    (hfmt : fmt = before ++ [kind.char]) {v : Conversion} {w : Nat} {padc : Byte} {len : Length}
    (hv : Reached w padc len v) :
    Ends never (reswitch nested collect fmt args (fuel + 1) before.length v) f fun r g =>
      r = fmt.length ∧ g = ⟨f.out ++ codes (numberText w padc kind.base.val
        (numberValue kind len (args f.arg))), f.arg + 1⟩ := by
  have hprints := printNumber_prints hv kind (args f.arg) { f with arg := f.arg + 1 }
  have hlen : before.length + 1 = fmt.length := by simp [hfmt]
  have hconv : Ends never (vaArg args >>= fun a => printNumber kind v a >>= fun _ =>
      pure (before.length + 1)) f fun r g => r = fmt.length ∧
        g = ⟨f.out ++ codes (numberText w padc kind.base.val
          (numberValue kind len (args f.arg))), f.arg + 1⟩ := by
    rw [vaArg, ends_bind, ends_bind, ends_get, ends_bind, ends_modify, ends_pure, ends_bind]
    exact Ends.of_ok hprints ⟨hlen, rfl⟩
  rw [reswitch, ends_bind, ends_charAt hfmt, List.headD_cons]
  cases kind with
  | d => exact hconv
  | u => exact hconv
  | o => exact hconv
  | x => exact hconv

/-- The flags of a field. -/
def flagChars (left zero : Bool) : List Byte :=
  (if left then [MINUS] else []) ++ (if zero then [ZERO] else [])

/-- The character that a field is padded with. -/
def padChar (left zero : Bool) : Byte := if zero then ZERO else if left then MINUS else SPACE

/-- The whole conversion. -/
theorem reswitch_format {fuel : Nat} {left zero : Bool} {w : Nat} {len : Length}
    {kind : NumberKind}
    (hfmt : fmt = [PERCENT] ++ (flagChars left zero ++ ((numeral 10 w).map digit ++
      (len.chars ++ [kind.char]))))
    (hfuel : (numeral 10 w).length < fuel) :
    Ends never (reswitch nested collect fmt args
      (fuel + 1 + len.chars.length + 1 + (flagChars left zero).length) 1 .initial) f fun r g =>
      r = fmt.length ∧ g = ⟨f.out ++ codes (numberText w (padChar left zero) kind.base.val
        (numberValue kind len (args f.arg))), f.arg + 1⟩ := by
  have hflags : ∀ c ∈ flagChars left zero,
      directive c = .left ∨ directive c = .zero ∨ directive c = .long := by
    cases left <;> cases zero <;> decide
  apply @reswitch_flags fmt nested args f _ [PERCENT] (flagChars left zero) _ hfmt hflags
  obtain ⟨v, hv⟩ : ∃ v, v = (flagChars left zero).foldl flag .initial := ⟨_, rfl⟩
  have hstart : v.width = -1 ∧ v.padc = padChar left zero ∧ v.lflag = 0 := by
    rw [hv]
    cases left <;> cases zero <;> exact ⟨rfl, rfl, rfl⟩
  rw [← hv]
  -- the first character behind the number
  obtain ⟨ch, rest, hch, hrest⟩ : ∃ ch rest, (ch < ZERO ∨ ch > NINE) ∧
      len.chars ++ [kind.char] = ch :: rest := by
    cases len with
    | int => exact ⟨kind.char, [], kind.char_range, rfl⟩
    | long => exact ⟨0x6c, _, by decide, rfl⟩
    | longLong => exact ⟨0x6c, _, by decide, rfl⟩
  have hnumber : fmt = ([PERCENT] ++ flagChars left zero) ++
      ((numeral 10 w).map digit ++ ch :: rest) := by
    rw [hfmt, hrest, List.append_assoc]
  refine reswitch_width hnumber hch (by omega) hstart.1 ?_
  intro v' hpads hpadc hlflag
  have hlong : fmt = (([PERCENT] ++ flagChars left zero) ++ (numeral 10 w).map digit) ++
      (len.chars ++ [kind.char]) := by
    rw [hfmt]
    simp only [List.append_assoc]
  have hchars : ∀ c ∈ len.chars,
      directive c = .left ∨ directive c = .zero ∨ directive c = .long := by
    cases len <;> decide
  apply @reswitch_flags fmt nested args f _ _ len.chars _ hlong hchars
  rw [hstart.2.2] at hlflag
  have hreached : Reached w (padChar left zero) len (len.chars.foldl flag v') := by
    cases len with
    | int => exact ⟨hpads, fun hw => (hpadc hw).trans hstart.2.1, hlflag⟩
    | long =>
        refine ⟨hpads, fun hw => (hpadc hw).trans hstart.2.1, ?_⟩
        change toInt32 (v'.lflag + 1) = _
        rw [hlflag]
        rfl
    | longLong =>
        refine ⟨hpads, fun hw => (hpadc hw).trans hstart.2.1, ?_⟩
        change toInt32 (toInt32 (v'.lflag + 1) + 1) = _
        rw [hlflag]
        rfl
  refine reswitch_number kind ?_ hreached
  rw [hlong]
  simp only [List.append_assoc]

end Format

/-- `%[-][0]w[l|ll]` and a conversion. -/
def numberFormat (left zero : Bool) (w : Nat) (len : Length) (kind : NumberKind) : List Byte :=
  [PERCENT] ++ (flagChars left zero ++ ((numeral 10 w).map digit ++ (len.chars ++ [kind.char])))

/-- What the format of a number prints. -/
theorem printed_number {fuel : Nat} (left zero : Bool) (w : Nat) (len : Length)
    (kind : NumberKind) (args : Nat → Arg)
    (hfuel : (numberFormat left zero w len kind).length + 12 ≤ fuel) :
    printed fuel (numberFormat left zero w len kind) args =
      .ok (codes (numberText w (padChar left zero) kind.base.val
        (numberValue kind len (args 0)))) := by
  obtain ⟨fmt, hfmt⟩ : ∃ fmt, fmt = numberFormat left zero w len kind := ⟨_, rfl⟩
  have hlength : fmt.length =
      (flagChars left zero).length + (numeral 10 w).length + len.chars.length + 2 := by
    rw [hfmt, numberFormat]
    simp
    omega
  rw [← hfmt] at hfuel ⊢
  obtain ⟨k, rfl⟩ : ∃ k, fuel = k + 1 + len.chars.length + 1 + (flagChars left zero).length + 2 :=
    ⟨fuel - (len.chars.length + (flagChars left zero).length + 4), by omega⟩
  obtain ⟨n, hn⟩ : ∃ n, n = k + 1 + len.chars.length + 1 + (flagChars left zero).length := ⟨_, rfl⟩
  obtain ⟨m, hm⟩ : ∃ m, n = m + 1 := ⟨n - 1, by omega⟩
  have hends : Ends never (vprintfmt collect (n + 2) fmt args) ⟨[], 0⟩ fun _ g =>
      g.out = codes (numberText w (padChar left zero) kind.base.val
        (numberValue kind len (args 0))) := by
    change Ends never (convertLoop (vprintfmt collect (n + 1)) collect fmt args (n + 1) 0) _ _
    rw [convertLoop, ends_bind, hm, literal, ends_bind]
    have hstart : fmt = [] ++ fmt := rfl
    have hhead : fmt.headD 0 = PERCENT := by
      rw [hfmt]
      rfl
    refine (ends_charAt hstart).mpr ?_
    rw [hhead, if_pos rfl, ends_pure, ← hm, ends_bind, Nat.zero_add]
    rw [hn]
    apply (reswitch_format hfmt (by omega)).imp
    rintro p g ⟨rfl, rfl⟩
    rw [← hn, hm, convertLoop, ends_bind]
    have hend : fmt = fmt ++ [] := (List.append_nil fmt).symm
    obtain ⟨j, rfl⟩ : ∃ j, m = j + 1 := ⟨m - 1, by omega⟩
    rw [literal, ends_bind, ends_charAt hend]
    exact List.nil_append _
  obtain ⟨_, t, hrun, hout⟩ := hends.ok
  rw [← hn, printed, hrun]
  exact congrArg Except.ok hout

/-! ## The right field -/

/-- The field that a conversion stands for: padded on the right with the `'-'` flag, else
on the left, with zeros behind the sign or with spaces. -/
def field (left zero : Bool) (w : Nat) (value : Int) (ds : List Nat) : List Byte :=
  let count := w - (signOf value ++ ds.map digit).length
  if left then signOf value ++ ds.map digit ++ List.replicate count SPACE
  else if zero then signOf value ++ (List.replicate count ZERO ++ ds.map digit)
  else List.replicate count SPACE ++ (signOf value ++ ds.map digit)

/-- The numeral of the value in the base, filled up to the width `w` on the side and with the
character that the flags ask for. -/
def RightField (left zero : Bool) (w base : Nat) (value : Int) (out : List Int) : Prop :=
  ∃ ds, Numeral base value.natAbs ds ∧ out = codes (field left zero w value ds)

theorem field_length (left zero : Bool) (w : Nat) (value : Int) (ds : List Nat) :
    (field left zero w value ds).length = max w ((signOf value).length + ds.length) := by
  unfold field
  simp only
  split
  · simp
    omega
  · split
    · simp
      omega
    · simp
      omega

theorem padding_eq_sub {w len : Nat} (hle : len ≤ w) (hlt : w < len + 2 ^ 31) :
    padding w len = w - len := by
  rw [padding, toInt32, Int.bmod_eq_of_le (by omega) (by omega)]
  omega

theorem padding_lt (w len : Nat) : padding w len < 2 ^ 31 := by
  have hlt := @Int.bmod_lt ((w : Int) - len) (2 ^ 32) (by decide)
  unfold padding toInt32
  omega

theorem padding_wraps {w len : Nat} (hw : w = len + 2 ^ 31) : padding w len = 0 := by
  have hdiff : (w : Int) - len = 2 ^ 31 := by omega
  rw [padding, hdiff]
  decide

theorem digit_ne_space : ∀ d < 16, digit d ≠ SPACE := by decide

/-- When a number is printed in the right field. -/
theorem numberText_eq_field_iff (left zero : Bool) (w : Nat) (base : Base) {value : Int}
    (hvalue : value.natAbs < 2 ^ 64) :
    numberText w (padChar left zero) base.val value =
        field left zero w value (numeral base.val value.natAbs) ↔
      w ≤ (numeral base.val value.natAbs).length ∨
        (0 ≤ value ∧ left = false ∧ w < (numeral base.val value.natAbs).length + 2 ^ 31) := by
  have hlen := numeral_length_small base hvalue
  have hspec := numeral_spec base.one_lt value.natAbs
  obtain ⟨ds, hds⟩ : ∃ ds, ds = numeral base.val value.natAbs := ⟨_, rfl⟩
  rw [numberText, ← hds]
  rw [← hds] at hlen hspec
  constructor
  · intro heq
    by_cases hw : w ≤ ds.length
    · exact .inl hw
    right
    have hlength := congrArg List.length heq
    rw [field_length, List.length_append, List.length_append, List.length_replicate,
      List.length_map] at hlength
    have hpad := padding_lt w ds.length
    have hsmall := @padding_eq_sub w ds.length (by omega)
    have hwrap := @padding_wraps w ds.length
    have hnonneg : 0 ≤ value := by
      by_cases hneg : value < 0
      · rw [signOf, if_pos hneg, List.length_singleton] at hlength
        by_cases hrange : w < ds.length + 2 ^ 31
        · have hcount := hsmall hrange
          omega
        · by_cases hexact : w = ds.length + 2 ^ 31
          · have hcount := hwrap hexact
            omega
          · omega
      · omega
    have hsign : signOf value = [] := if_neg (by omega)
    rw [hsign, List.length_nil] at hlength
    refine ⟨hnonneg, ?_, by omega⟩
    cases left with
    | false => rfl
    | true =>
        -- a digit is printed where a space belongs
        obtain ⟨ds', d, hlast⟩ : ∃ ds' d, ds = ds' ++ [d] :=
          ⟨_, _, (List.dropLast_append_getLast hspec.ne_nil).symm⟩
        obtain ⟨n, hn⟩ : ∃ n, w - ds.length = n + 1 := ⟨w - ds.length - 1, by omega⟩
        have hd : d < 16 := by
          have hmem : d ∈ ds := by simp [hlast]
          exact Nat.lt_of_lt_of_le (hspec.lt d hmem) base.le
        rw [field, if_pos rfl, hsign, List.nil_append, List.nil_append, List.length_map, hn,
          List.replicate_succ', hlast, List.map_append, ← List.append_assoc,
          ← List.append_assoc] at heq
        have hspace := (List.append_inj' heq rfl).2
        exact absurd (List.cons.inj hspace).1 (digit_ne_space d hd)
  · intro hcond
    by_cases hw : w ≤ ds.length
    · have hnone : padding w ds.length = 0 := padding_eq_zero (by omega) (by omega)
      have hcount : w - (signOf value ++ ds.map digit).length = 0 := by
        rw [List.length_append, List.length_map]
        omega
      rw [hnone]
      simp only [field, hcount]
      cases left <;> cases zero <;> simp
    · obtain ⟨hnonneg, rfl, hrange⟩ := hcond.resolve_left hw
      have hsign : signOf value = [] := if_neg (by omega)
      rw [padding_eq_sub (by omega) hrange, field, hsign]
      cases zero with
      | false => simp [padChar]
      | true => simp [padChar]

theorem numberValue_small (kind : NumberKind) (len : Length) (a : Arg) :
    (numberValue kind len a).natAbs < 2 ^ 64 := by
  have hword := a.word.isLt
  have hlow := (a.word.setWidth 32).isLt
  have hint := natAbs_lt a.word
  have hint' := (a.word.setWidth 32).toInt_eq_toNat_cond
  cases kind <;> cases len <;> simp only [numberValue] <;> omega

/-- A number is printed in the right field, as its numeral, if and only if there is
nothing to pad, or no sign and no `'-'` flag. -/
theorem number_field_iff (left zero : Bool) (w : Nat) (len : Length) (kind : NumberKind)
    (args : Nat → Arg) :
    ∃ out, (∀ fuel ≥ (numberFormat left zero w len kind).length + 12,
        printed fuel (numberFormat left zero w len kind) args = .ok out) ∧
      (RightField left zero w kind.base.val (numberValue kind len (args 0)) out ↔
        w ≤ (numeral kind.base.val (numberValue kind len (args 0)).natAbs).length ∨
          (0 ≤ numberValue kind len (args 0) ∧ left = false ∧
            w <
              (numeral kind.base.val (numberValue kind len (args 0)).natAbs).length + 2 ^ 31)) := by
  refine ⟨_, fun fuel hfuel => printed_number left zero w len kind args hfuel, ?_⟩
  rw [← numberText_eq_field_iff left zero w kind.base (numberValue_small kind len (args 0))]
  constructor
  · rintro ⟨ds, hds, heq⟩
    rw [hds.eq kind.base.one_lt] at heq
    exact codes_injective heq
  · intro heq
    exact ⟨_, numeral_spec kind.base.one_lt _, congrArg codes heq⟩

/-- `%-5d` of 42. -/
theorem number_field_left :
    ∃ out, printed 20 (numberFormat true false 5 .int .d) (fun _ => ⟨42, none⟩) = .ok out ∧
      ¬ RightField true false 5 10 42 out := by
  have hprinted := @printed_number 20 true false 5 .int .d (fun _ => ⟨42, none⟩) (by decide)
  refine ⟨_, hprinted, ?_⟩
  rintro ⟨ds, hds, heq⟩
  rw [hds.eq (by decide)] at heq
  have hfield := codes_injective heq
  have hcond := (@numberText_eq_field_iff true false 5 base10 42 (by decide)).mp hfield
  have hlen : (numeral 10 42).length = 2 := by
    rw [numeral_of_le (by decide) (by decide), numeral_of_lt (by decide)]
    rfl
  rcases hcond with hle | hright
  · exact absurd (hlen ▸ hle : 5 ≤ 2) (by decide)
  · exact absurd hright.2.1 (by decide)

end Ucore.Printfmt
