import Mathlib.Algebra.Group.Nat.Defs
import Mathlib.Algebra.Group.Int.Defs
import Ucore.Foundation.Machine
import Ucore.Foundation.Words

/-!
# Formatted printing

`libs/printfmt.c` of lab 8. `putch` is a parameter: it takes a character and the state
it works on. The format is given without its NUL, and a pointer into it by the number
of characters before it; a read behind the NUL or before the first character stops the
program. `int`s wrap around.
-/

namespace Ucore.Printfmt

open Machine

/-- An argument: its eight bytes, and the string that they point to where they are read
as a pointer, without its NUL. `none` is `NULL`. -/
structure Arg where
  word : BitVec 64
  text : Option (List Byte)

/-- What `putch` works on, and the number of arguments that `va_arg` has taken. -/
structure Frame (σ : Type) where
  out : σ
  arg : Nat

inductive PrintStop
  | overread
  | underread
  | endless
  | wildError
  deriving DecidableEq, Repr

abbrev PrintM (σ : Type) := Machine PrintStop (Frame σ)

/-- An `int` after an operation. -/
def toInt32 (x : Int) : Int := x.bmod (2 ^ 32)

/-- An `int` as a `size_t`. -/
def toSize (x : Int) : Nat := (x % 2 ^ 64).toNat

def Arg.toInt (a : Arg) : Int := (a.word.setWidth 32).toInt

def chars (s : List Char) : List Byte := s.map fun c => BitVec.ofNat 8 c.toNat

def MAXERROR : Int := 24

/-- `error_string`. -/
def errorString : List (Option (List Byte)) :=
  [none,
   some (chars "unspecified error".toList),
   some (chars "bad process".toList),
   some (chars "invalid parameter".toList),
   some (chars "out of memory".toList),
   some (chars "out of processes".toList),
   some (chars "segmentation fault".toList),
   none,
   some (chars "invalid elf file".toList),
   some (chars "process is killed".toList),
   some (chars "panic failure".toList),
   none,
   none,
   some (chars "no such device".toList),
   some (chars "device not available".toList),
   some (chars "device/file is busy".toList),
   some (chars "no such file or directory".toList),
   some (chars "is a directory".toList),
   some (chars "not a directory".toList),
   some (chars "cross device link".toList),
   some (chars "unimplemented feature".toList),
   some (chars "illegal seek".toList),
   some (chars "too many files are open".toList),
   some (chars "file or directory already exists".toList),
   some (chars "directory is not empty".toList)]

/-- `"(null)"`. -/
def NULL_TEXT : List Byte := chars ['(', 'n', 'u', 'l', 'l', ')']

/-- `"error %d"`. -/
def ERROR_FORMAT : List Byte := chars ['e', 'r', 'r', 'o', 'r', ' ', '%', 'd']

/-- `"%s"`. -/
def STRING_FORMAT : List Byte := chars ['%', 's']

/-- `"0123456789abcdef"`. -/
def DIGITS : List Byte :=
  chars ['0', '1', '2', '3', '4', '5', '6', '7', '8', '9', 'a', 'b', 'c', 'd', 'e', 'f']

def PERCENT : Byte := 0x25
def SPACE : Byte := 0x20
def MINUS : Byte := 0x2d
def ZERO : Byte := 0x30
def NINE : Byte := 0x39
def QUESTION : Byte := 0x3f
def TILDE : Byte := 0x7e

/-- The cases of the switch of `vprintfmt`. -/
inductive Directive
  | left
  | zero
  | digit
  | star
  | dot
  | alt
  | long
  | char
  | error
  | string
  | signed
  | unsigned
  | octal
  | pointer
  | hex
  | percent
  | unknown
  deriving DecidableEq, Repr

def directive (ch : Byte) : Directive :=
  if ch = MINUS then .left
  else if ch = ZERO then .zero
  else if ZERO < ch ∧ ch ≤ NINE then .digit
  else if ch = 0x2a then .star
  else if ch = 0x2e then .dot
  else if ch = 0x23 then .alt
  else if ch = 0x6c then .long
  else if ch = 0x63 then .char
  else if ch = 0x65 then .error
  else if ch = 0x73 then .string
  else if ch = 0x64 then .signed
  else if ch = 0x75 then .unsigned
  else if ch = 0x6f then .octal
  else if ch = 0x70 then .pointer
  else if ch = 0x78 then .hex
  else if ch = PERCENT then .percent
  else .unknown

/-- The variables of one conversion. -/
structure Conversion where
  padc : Byte
  width : Int
  precision : Int
  lflag : Int
  altflag : Bool

/-- Their values behind a `'%'`. -/
def Conversion.initial : Conversion :=
  { padc := SPACE, width := -1, precision := -1, lflag := 0, altflag := false }

/-- `process_precision`. -/
def Conversion.processPrecision (v : Conversion) (precision : Int) : Conversion :=
  if v.width < 0 then { v with width := precision, precision := -1 }
  else { v with precision := precision }

/-- A base that `printnum` can print in. -/
structure Base where
  val : Nat
  one_lt : 1 < val
  le : val ≤ 16

/-- Each digit makes a number smaller. -/
theorem Base.div_lt (base : Base) {num : Nat} (hnum : base.val ≤ num) : num / base.val < num :=
  Nat.div_lt_self (Nat.lt_of_lt_of_le (Nat.lt_trans Nat.zero_lt_one base.one_lt) hnum) base.one_lt

def base8 : Base := ⟨8, by decide, by decide⟩
def base10 : Base := ⟨10, by decide, by decide⟩
def base16 : Base := ⟨16, by decide, by decide⟩

def getuint (a : Arg) (lflag : Int) : BitVec 64 :=
  if lflag ≥ 2 then a.word
  else if lflag ≠ 0 then a.word
  else (a.word.setWidth 32).setWidth 64

def getint (a : Arg) (lflag : Int) : BitVec 64 :=
  if lflag ≥ 2 then a.word
  else if lflag ≠ 0 then a.word
  else (a.word.setWidth 32).signExtend 64

def strnlen : List Byte → Nat → Nat
  | [], _ => 0
  | _ :: _, 0 => 0
  | c :: s, len + 1 => if c = 0 then 0 else strnlen s len + 1

section Print

variable {σ : Type} (putch : Int → σ → σ)

/-- One call of `putch`. -/
def put (c : Int) : PrintM σ PUnit :=
  modify fun f => { f with out := putch c f.out }

def putByte (c : Byte) : PrintM σ PUnit := put putch c.toNat

/-- The same character `n` times. -/
def pad (c : Byte) : Nat → PrintM σ PUnit
  | 0 => return ⟨⟩
  | n + 1 => do
      putByte putch c
      pad c n

/-- `printnum`. -/
def printnum (num : Nat) (base : Base) (width : Int) (padc : Byte) : PrintM σ PUnit := do
  if num ≥ base.val then
    printnum (num / base.val) base (toInt32 (width - 1)) padc
  else
    -- the number of rounds of `while (-- width > 0)`
    pad putch padc (toInt32 (width - 1)).toNat
  putByte putch (DIGITS.getD (num % base.val) 0)
termination_by num
decreasing_by
  rename_i hnum
  exact base.div_lt hnum

/-- A number of more than one digit. -/
theorem printnum_of_le {num : Nat} {base : Base} (hnum : base.val ≤ num) (width : Int)
    (padc : Byte) :
    printnum putch num base width padc = (do
      printnum putch (num / base.val) base (toInt32 (width - 1)) padc
      putByte putch (DIGITS.getD (num % base.val) 0)) := by
  rw [printnum, if_pos hnum]

/-- A number of one digit. -/
theorem printnum_of_lt {num : Nat} {base : Base} (hnum : num < base.val) (width : Int)
    (padc : Byte) :
    printnum putch num base width padc = (do
      pad putch padc (toInt32 (width - 1)).toNat
      putByte putch (DIGITS.getD num 0)) := by
  rw [printnum, if_neg (Nat.not_le.mpr hnum), Nat.mod_eq_of_lt hnum]

/-- The loop over the characters of a `%s`. It returns the width that is left. -/
def putString (altflag : Bool) : List Byte → Int → Int → PrintM σ Int
  | [], _, width => return width
  | ch :: p, precision, width => do
      let left := if precision < 0 then precision else toInt32 (precision - 1)
      if ch ≠ 0 ∧ (precision < 0 ∨ left ≥ 0) then do
        if altflag = true ∧ (ch < SPACE ∨ ch > TILDE) then putByte putch QUESTION
        else putByte putch ch
        putString altflag p left (toInt32 (width - 1))
      else return width

/-- A `%s`. -/
def printString (v : Conversion) (a : Arg) : PrintM σ PUnit := do
  let p := a.text.getD NULL_TEXT
  let mut width := v.width
  if width > 0 ∧ v.padc ≠ MINUS then
    width := toInt32 (width - strnlen p (toSize v.precision))
    pad putch v.padc width.toNat
    width := min width 0
  width ← putString putch v.altflag p v.precision width
  pad putch SPACE width.toNat

/-- A `%d`. -/
def printSigned (v : Conversion) (a : Arg) : PrintM σ PUnit := do
  let mut num := getint a v.lflag
  if num.slt 0 then
    putByte putch MINUS
    num := -num
  printnum putch num.toNat base10 v.width v.padc

/-- A `%u`, `%o` or `%x`. -/
def printUnsigned (v : Conversion) (base : Base) (a : Arg) : PrintM σ PUnit :=
  printnum putch (getuint a v.lflag).toNat base v.width v.padc

/-- A `%p`. -/
def printPointer (v : Conversion) (a : Arg) : PrintM σ PUnit := do
  putByte putch ZERO
  putByte putch 0x78
  printnum putch a.word.toNat base16 v.width v.padc

end Print

section Format

variable {σ : Type} (nested : List Byte → (Nat → Arg) → PrintM σ PUnit)

/-- `printfmt`, called with one argument. -/
def printfmt (fmt : List Byte) (a : Arg) : PrintM σ PUnit := do
  let f ← get
  modify fun g => { g with arg := 0 }
  nested fmt fun _ => a
  modify fun g => { g with arg := f.arg }

/-- A `%e`. -/
def printError (a : Arg) : PrintM σ PUnit := do
  let err := if a.toInt < 0 then toInt32 (-a.toInt) else a.toInt
  if err > MAXERROR then
    printfmt nested ERROR_FORMAT ⟨BitVec.ofInt 64 err, none⟩
  else do
    check .wildError (0 ≤ err)
    match errorString.getD err.toNat none with
    | none => printfmt nested ERROR_FORMAT ⟨BitVec.ofInt 64 err, none⟩
    | some p => printfmt nested STRING_FORMAT ⟨0, some p⟩

variable (putch : Int → σ → σ) (fmt : List Byte) (args : Nat → Arg)

/-- `va_arg`. -/
def vaArg : PrintM σ Arg := do
  let f ← get
  modify fun g => { g with arg := g.arg + 1 }
  return args f.arg

/-- The character at `p`. -/
def charAt (p : Nat) : PrintM σ Byte := do
  check .overread (p ≤ fmt.length)
  return fmt.getD p 0

/-- The loop that reads a number, for at most `fuel` rounds. It returns the number and
where it ends. -/
def readNumber : Nat → Nat → Int → Byte → PrintM σ (Int × Nat)
  | 0, _, _, _ => throw .endless
  | fuel + 1, p, precision, ch => do
      let precision := toInt32 (precision * 10 + ch.toNat - ZERO.toNat)
      let ch ← charAt fmt p
      if ch < ZERO ∨ ch > NINE then return (precision, p)
      else readNumber fuel (p + 1) precision ch

/-- The loop that goes back behind the last `'%'`. -/
def goBack : Nat → PrintM σ Nat
  | 0 => throw .underread
  | p + 1 => do
      if (← charAt fmt p) ≠ PERCENT then goBack p
      else return p + 1

/-- The switch, until the end of the conversion. It returns where that is. -/
def reswitch : Nat → Nat → Conversion → PrintM σ Nat
  | 0, _, _ => throw .endless
  | fuel + 1, p, v => do
      let ch ← charAt fmt p
      match directive ch with
      | .left => reswitch fuel (p + 1) { v with padc := MINUS }
      | .zero => reswitch fuel (p + 1) { v with padc := ZERO }
      | .digit => do
          let (precision, p) ← readNumber fmt fuel (p + 1) 0 ch
          reswitch fuel p (v.processPrecision precision)
      | .star => do
          let a ← vaArg args
          reswitch fuel (p + 1) (v.processPrecision a.toInt)
      | .dot => reswitch fuel (p + 1) (if v.width < 0 then { v with width := 0 } else v)
      | .alt => reswitch fuel (p + 1) { v with altflag := true }
      | .long => reswitch fuel (p + 1) { v with lflag := toInt32 (v.lflag + 1) }
      | .char => do
          put putch (← vaArg args).toInt
          return p + 1
      | .error => do
          printError nested (← vaArg args)
          return p + 1
      | .string => do
          printString putch v (← vaArg args)
          return p + 1
      | .signed => do
          printSigned putch v (← vaArg args)
          return p + 1
      | .unsigned => do
          printUnsigned putch v base10 (← vaArg args)
          return p + 1
      | .octal => do
          printUnsigned putch v base8 (← vaArg args)
          return p + 1
      | .pointer => do
          printPointer putch v (← vaArg args)
          return p + 1
      | .hex => do
          printUnsigned putch v base16 (← vaArg args)
          return p + 1
      | .percent => do
          putByte putch ch
          return p + 1
      | .unknown => do
          putByte putch PERCENT
          -- `fmt --` takes back the step over the unknown character
          goBack fmt p

/-- The characters before the next `'%'`. It returns where that is passed, or `none` at
the NUL. -/
def literal : Nat → Nat → PrintM σ (Option Nat)
  | 0, _ => throw .endless
  | fuel + 1, p => do
      let ch ← charAt fmt p
      if ch = PERCENT then return some (p + 1)
      else if ch = 0 then return none
      else do
        putByte putch ch
        literal fuel (p + 1)

/-- The outer loop of `vprintfmt`. -/
def convertLoop : Nat → Nat → PrintM σ PUnit
  | 0, _ => throw .endless
  | fuel + 1, p => do
      match ← literal putch fmt fuel p with
      | none => return ⟨⟩
      | some p => do
          let p ← reswitch nested putch fmt args fuel p .initial
          convertLoop fuel p

end Format

/-- `vprintfmt`. The fuel bounds every loop over the format and the depth of the calls. -/
def vprintfmt {σ : Type} (putch : Int → σ → σ) :
    Nat → List Byte → (Nat → Arg) → PrintM σ PUnit
  | 0 => fun _ _ => throw .endless
  | fuel + 1 => fun fmt args => convertLoop (vprintfmt putch fuel) putch fmt args fuel 0

/-- The sink without a bound. -/
def collect (c : Int) (out : List Int) : List Int := out ++ [c]

/-- What `vprintfmt` prints. -/
def printed (fuel : Nat) (fmt : List Byte) (args : Nat → Arg) : Except PrintStop (List Int) :=
  (vprintfmt collect fuel fmt args ⟨[], 0⟩).map fun r => r.2.out

/-! ## Printing into a buffer -/

/-- `sprintbuf`, and the memory that it points into. -/
structure Sprintbuf where
  buf : Nat
  ebuf : Nat
  cnt : Int
  mem : Bytes

def sprintputch (ch : Int) (b : Sprintbuf) : Sprintbuf :=
  let b := { b with cnt := toInt32 (b.cnt + 1) }
  if b.buf < b.ebuf then
    { b with mem := Function.update b.mem b.buf (BitVec.ofInt 8 ch), buf := b.buf + 1 }
  else b

def E_INVAL : Int := 3

/-- `vsnprintf`, with the memory that it leaves. -/
def vsnprintf (fuel str size : Nat) (fmt : List Byte) (args : Nat → Arg) (mem : Bytes) :
    Except PrintStop (Int × Bytes) := do
  let b : Sprintbuf := ⟨str, (str + size + 2 ^ 64 - 1) % 2 ^ 64, 0, mem⟩
  if str = 0 ∨ b.buf > b.ebuf then return (-E_INVAL, mem)
  else
    let (_, f) ← vprintfmt sprintputch fuel fmt args ⟨b, 0⟩
    return (f.out.cnt, Function.update f.out.mem f.out.buf 0)

end Ucore.Printfmt
