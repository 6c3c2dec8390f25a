import Mathlib.Data.List.Induction
import Ucore.Foundation.StateMap
import Ucore.Libs.Printfmt

/-!
# Printing into a buffer

`vsnprintf` does with a buffer what `vprintfmt` does with any other sink: a map between
sinks that commutes with `putch` commutes with every conversion. The format is read no
further than its NUL, and every conversion ends behind its `'%'`.
-/

namespace Ucore.Printfmt

open Machine

/-! ## Two sinks -/

section Sinks

variable {σ τ : Type} {h : σ → τ} {putch : Int → σ → σ} {putch' : Int → τ → τ}

def Frame.map (h : σ → τ) (f : Frame σ) : Frame τ := ⟨h f.out, f.arg⟩

variable (hputch : ∀ c s, h (putch c s) = putch' c (h s))

include hputch

theorem maps_put (c : Int) : Maps (Frame.map h) (put putch c) (put putch' c) := by
  apply maps_modify
  intro f
  rw [Frame.map, hputch]
  rfl

theorem maps_pad (c : Byte) (n : Nat) :
    Maps (Frame.map h) (pad putch c n) (pad putch' c n) := by
  induction n with
  | zero => exact maps_pure PUnit.unit
  | succ n ih => exact (maps_put hputch _).bind fun _ => ih

theorem maps_printnum (num : Nat) (base : Base) (width : Int) (padc : Byte) :
    Maps (Frame.map h) (printnum putch num base width padc)
      (printnum putch' num base width padc) := by
  induction num using Nat.strongRecOn generalizing width with
  | _ num ih =>
      by_cases hnum : base.val ≤ num
      · rw [printnum_of_le putch hnum, printnum_of_le putch' hnum]
        exact (ih _ (base.div_lt hnum) _).bind fun _ => maps_put hputch _
      · rw [printnum_of_lt putch (by omega), printnum_of_lt putch' (by omega)]
        exact (maps_pad hputch _ _).bind fun _ => maps_put hputch _

theorem maps_putString (altflag : Bool) (p : List Byte) (precision width : Int) :
    Maps (Frame.map h) (putString putch altflag p precision width)
      (putString putch' altflag p precision width) := by
  induction p generalizing precision width with
  | nil => exact maps_pure width
  | cons ch p ih =>
      rw [putString, putString]
      apply maps_ite
      · apply maps_ite
        · exact (maps_put hputch _).bind fun _ => ih _ _
        · exact (maps_put hputch _).bind fun _ => ih _ _
      · exact maps_pure width

theorem maps_printString (v : Conversion) (a : Arg) :
    Maps (Frame.map h) (printString putch v a) (printString putch' v a) := by
  have hrest : ∀ width, Maps (Frame.map h)
      (putString putch v.altflag (a.text.getD NULL_TEXT) v.precision width >>= fun width =>
        pad putch SPACE width.toNat)
      (putString putch' v.altflag (a.text.getD NULL_TEXT) v.precision width >>= fun width =>
        pad putch' SPACE width.toNat) := fun width =>
    (maps_putString hputch _ _ _ _).bind fun _ => maps_pad hputch _ _
  apply maps_ite
  · exact (maps_pad hputch _ _).bind fun _ => hrest _
  · exact hrest _

theorem maps_printSigned (v : Conversion) (a : Arg) :
    Maps (Frame.map h) (printSigned putch v a) (printSigned putch' v a) := by
  apply maps_ite
  · exact (maps_put hputch _).bind fun _ => maps_printnum hputch _ _ _ _
  · exact maps_printnum hputch _ _ _ _

theorem maps_printPointer (v : Conversion) (a : Arg) :
    Maps (Frame.map h) (printPointer putch v a) (printPointer putch' v a) :=
  (maps_put hputch _).bind fun _ => (maps_put hputch _).bind fun _ =>
    maps_printnum hputch _ _ _ _

omit hputch

/-- A change of the number of arguments that are taken. -/
theorem maps_arg (g : Nat → Nat) :
    Maps (Frame.map h) (modify fun f => { f with arg := g f.arg } : PrintM σ PUnit)
      (modify fun f => { f with arg := g f.arg } : PrintM τ PUnit) :=
  maps_modify fun _ => rfl

theorem maps_vaArg (args : Nat → Arg) :
    Maps (Frame.map h) (vaArg args) (vaArg args) :=
  maps_get_bind fun f => (maps_arg fun k => k + 1).bind fun _ => maps_pure (args f.arg)

theorem maps_charAt (fmt : List Byte) (p : Nat) :
    Maps (Frame.map h) (charAt fmt p) (charAt fmt p) :=
  (maps_check _ _).bind fun _ => maps_pure _

theorem maps_goBack (fmt : List Byte) (p : Nat) :
    Maps (Frame.map h) (goBack fmt p) (goBack fmt p) := by
  induction p with
  | zero => exact maps_throw _ _
  | succ p ih =>
      apply (maps_charAt fmt p).bind
      exact fun _ => maps_ite ih (maps_pure _)

theorem maps_readNumber (fmt : List Byte) {fuel fuel' : Nat} (hfuel : fuel ≤ fuel') (p : Nat)
    (precision : Int) (ch : Byte) :
    Maps (Frame.map h) (readNumber fmt fuel p precision ch)
      (readNumber fmt fuel' p precision ch) := by
  induction fuel generalizing fuel' p precision ch with
  | zero => exact maps_throw _ _
  | succ fuel ih =>
      obtain ⟨fuel', rfl⟩ := Nat.exists_eq_add_of_lt hfuel
      apply (maps_charAt fmt p).bind
      exact fun _ => maps_ite (maps_pure _) (ih (by omega) _ _ _)

variable {nested : List Byte → (Nat → Arg) → PrintM σ PUnit}
  {nested' : List Byte → (Nat → Arg) → PrintM τ PUnit}
  (hnested : ∀ fmt args, Maps (Frame.map h) (nested fmt args) (nested' fmt args))

include hnested

theorem maps_printfmt (fmt : List Byte) (a : Arg) :
    Maps (Frame.map h) (printfmt nested fmt a) (printfmt nested' fmt a) :=
  maps_get_bind fun f => (maps_arg fun _ => 0).bind fun _ =>
    (hnested _ _).bind fun _ => maps_arg fun _ => f.arg

theorem maps_printError (a : Arg) :
    Maps (Frame.map h) (printError nested a) (printError nested' a) := by
  apply maps_ite
  · exact maps_printfmt hnested _ _
  · apply (maps_check _ _).bind
    intro _
    split
    · exact maps_printfmt hnested _ _
    · exact maps_printfmt hnested _ _

include hputch

theorem maps_reswitch (fmt : List Byte) (args : Nat → Arg) {fuel fuel' : Nat}
    (hfuel : fuel ≤ fuel') (p : Nat) (v : Conversion) :
    Maps (Frame.map h) (reswitch nested putch fmt args fuel p v)
      (reswitch nested' putch' fmt args fuel' p v) := by
  induction fuel generalizing fuel' p v with
  | zero => exact maps_throw _ _
  | succ fuel ih =>
      obtain ⟨fuel', rfl⟩ := Nat.exists_eq_add_of_lt hfuel
      have hle : fuel ≤ fuel + fuel' := by omega
      -- a conversion of one argument
      have hconv : ∀ {x : Arg → PrintM σ PUnit} {y : Arg → PrintM τ PUnit},
          (∀ a, Maps (Frame.map h) (x a) (y a)) →
          Maps (Frame.map h) (vaArg args >>= fun a => x a >>= fun _ => pure (p + 1))
            (vaArg args >>= fun a => y a >>= fun _ => pure (p + 1)) := fun hxy =>
        (maps_vaArg args).bind fun a => (hxy a).bind fun _ => maps_pure _
      apply (maps_charAt fmt p).bind
      intro ch
      cases directive ch with
      | left => exact ih hle _ _
      | zero => exact ih hle _ _
      | digit => exact (maps_readNumber fmt hle _ _ _).bind fun _ => ih hle _ _
      | star => exact (maps_vaArg args).bind fun _ => ih hle _ _
      | dot => exact ih hle _ _
      | alt => exact ih hle _ _
      | long => exact ih hle _ _
      | char => exact hconv fun _ => maps_put hputch _
      | error => exact hconv fun _ => maps_printError hnested _
      | string => exact hconv fun _ => maps_printString hputch _ _
      | signed => exact hconv fun _ => maps_printSigned hputch _ _
      | unsigned => exact hconv fun _ => maps_printnum hputch _ _ _ _
      | octal => exact hconv fun _ => maps_printnum hputch _ _ _ _
      | pointer => exact hconv fun _ => maps_printPointer hputch _ _
      | hex => exact hconv fun _ => maps_printnum hputch _ _ _ _
      | percent => exact (maps_put hputch _).bind fun _ => maps_pure _
      | unknown => exact (maps_put hputch _).bind fun _ => maps_goBack fmt p

omit hnested

theorem maps_literal (fmt : List Byte) {fuel fuel' : Nat} (hfuel : fuel ≤ fuel') (p : Nat) :
    Maps (Frame.map h) (literal putch fmt fuel p) (literal putch' fmt fuel' p) := by
  induction fuel generalizing fuel' p with
  | zero => exact maps_throw _ _
  | succ fuel ih =>
      obtain ⟨fuel', rfl⟩ := Nat.exists_eq_add_of_lt hfuel
      apply (maps_charAt fmt p).bind
      intro ch
      apply maps_ite (maps_pure _)
      apply maps_ite (maps_pure _)
      exact (maps_put hputch _).bind fun _ => ih (by omega) _

include hnested

theorem maps_convertLoop (fmt : List Byte) (args : Nat → Arg) {fuel fuel' : Nat}
    (hfuel : fuel ≤ fuel') (p : Nat) :
    Maps (Frame.map h) (convertLoop nested putch fmt args fuel p)
      (convertLoop nested' putch' fmt args fuel' p) := by
  induction fuel generalizing fuel' p with
  | zero => exact maps_throw _ _
  | succ fuel ih =>
      obtain ⟨fuel', rfl⟩ := Nat.exists_eq_add_of_lt hfuel
      have hle : fuel ≤ fuel + fuel' := by omega
      apply (maps_literal hputch fmt hle p).bind
      intro next
      cases next with
      | none => exact maps_pure PUnit.unit
      | some p =>
          apply (maps_reswitch hputch hnested fmt args hle p .initial).bind
          exact fun _ => ih hle _

omit hnested

/-- More fuel and another sink. -/
theorem maps_vprintfmt {fuel fuel' : Nat} (hfuel : fuel ≤ fuel') (fmt : List Byte)
    (args : Nat → Arg) :
    Maps (Frame.map h) (vprintfmt putch fuel fmt args) (vprintfmt putch' fuel' fmt args) := by
  induction fuel generalizing fuel' fmt args with
  | zero => exact maps_throw _ _
  | succ fuel ih =>
      obtain ⟨fuel', rfl⟩ := Nat.exists_eq_add_of_lt hfuel
      have hle : fuel ≤ fuel + fuel' := by omega
      exact maps_convertLoop hputch (ih hle) fmt args hle 0

end Sinks

/-! ## Conversions that return -/

section Quiet

variable {σ : Type}

/-- A program that always returns and takes no arguments. -/
def Quiet {α : Type} (x : PrintM σ α) : Prop :=
  ∀ f, Ends never x f fun _ g => g.arg = f.arg

theorem quiet_pure {α : Type} (a : α) : Quiet (pure a : PrintM σ α) := fun _ => rfl

theorem quiet_check {e : PrintStop} {p : Prop} [Decidable p] (hp : p) :
    Quiet (check e p : PrintM σ PUnit) := fun _ => (ends_check hp).mpr rfl

theorem quiet_ite {α : Type} {p : Prop} [Decidable p] {x y : PrintM σ α} (hx : Quiet x)
    (hy : Quiet y) : Quiet (if p then x else y) := by
  split
  · exact hx
  · exact hy

theorem Quiet.bind {α β : Type} {x : PrintM σ α} {y : α → PrintM σ β} (hx : Quiet x)
    (hy : ∀ a, Quiet (y a)) : Quiet (x >>= y) := by
  intro f
  rw [ends_bind]
  apply (hx f).imp
  intro a g hg
  apply (hy a g).imp
  exact fun _ _ hk => hk.trans hg

variable (putch : Int → σ → σ)

theorem quiet_put (c : Int) : Quiet (put putch c) := fun _ => rfl

theorem quiet_pad (c : Byte) (n : Nat) : Quiet (pad putch c n) := by
  induction n with
  | zero => exact quiet_pure PUnit.unit
  | succ n ih => exact (quiet_put putch _).bind fun _ => ih

theorem quiet_printnum (num : Nat) (base : Base) (width : Int) (padc : Byte) :
    Quiet (printnum putch num base width padc) := by
  induction num using Nat.strongRecOn generalizing width with
  | _ num ih =>
      by_cases hnum : base.val ≤ num
      · rw [printnum_of_le putch hnum]
        exact (ih _ (base.div_lt hnum) _).bind fun _ => quiet_put putch _
      · rw [printnum_of_lt putch (by omega)]
        exact (quiet_pad putch _ _).bind fun _ => quiet_put putch _

theorem quiet_putString (altflag : Bool) (p : List Byte) (precision width : Int) :
    Quiet (putString putch altflag p precision width) := by
  induction p generalizing precision width with
  | nil => exact quiet_pure width
  | cons ch p ih =>
      rw [putString]
      apply quiet_ite
      · apply quiet_ite
        · exact (quiet_put putch _).bind fun _ => ih _ _
        · exact (quiet_put putch _).bind fun _ => ih _ _
      · exact quiet_pure width

theorem quiet_printString (v : Conversion) (a : Arg) : Quiet (printString putch v a) := by
  have hrest : ∀ width, Quiet
      (putString putch v.altflag (a.text.getD NULL_TEXT) v.precision width >>= fun width =>
        pad putch SPACE width.toNat) := fun width =>
    (quiet_putString putch _ _ _ _).bind fun _ => quiet_pad putch _ _
  apply quiet_ite
  · exact (quiet_pad putch _ _).bind fun _ => hrest _
  · exact hrest _

theorem quiet_printSigned (v : Conversion) (a : Arg) : Quiet (printSigned putch v a) := by
  apply quiet_ite
  · exact (quiet_put putch _).bind fun _ => quiet_printnum putch _ _ _ _
  · exact quiet_printnum putch _ _ _ _

theorem quiet_printPointer (v : Conversion) (a : Arg) : Quiet (printPointer putch v a) :=
  (quiet_put putch _).bind fun _ => (quiet_put putch _).bind fun _ =>
    quiet_printnum putch _ _ _ _

/-- A `%e`, once the two formats that it prints with return. -/
theorem quiet_printError {nested : List Byte → (Nat → Arg) → PrintM σ PUnit}
    (herror : ∀ args f, Ends never (nested ERROR_FORMAT args) f fun _ _ => True)
    (hstring : ∀ args f, Ends never (nested STRING_FORMAT args) f fun _ _ => True)
    {a : Arg} (ha : -2 ^ 31 < a.toInt) : Quiet (printError nested a) := by
  have hprint : ∀ {fmt}, (∀ args f, Ends never (nested fmt args) f fun _ _ => True) →
      ∀ b, Quiet (printfmt nested fmt b) := by
    intro fmt hfmt b f
    rw [printfmt, ends_bind, ends_get, ends_bind, ends_modify, ends_bind]
    apply (hfmt _ _).imp
    exact fun _ _ _ => rfl
  have hint : a.toInt < 2 ^ 31 := by
    have hlt := (a.word.setWidth 32).toInt_lt
    unfold Arg.toInt
    omega
  have hnonneg : 0 ≤ if a.toInt < 0 then toInt32 (-a.toInt) else a.toInt := by
    split
    · rw [toInt32, Int.bmod_eq_of_le (by omega) (by omega)]
      omega
    · omega
  apply quiet_ite
  · exact hprint herror _
  · apply (quiet_check hnonneg).bind
    intro _
    split
    · exact hprint herror _
    · exact hprint hstring _

end Quiet

/-! ## Reading the format -/

/-- The arguments that a format uses for its `%e`s, by number. A conversion that is not
known takes the arguments of its `'*'`s. -/
def errorSlots : Bool → Nat → List Byte → List Nat
  | _, _, [] => []
  | false, k, ch :: s => errorSlots (decide (ch = PERCENT)) k s
  | true, k, ch :: s =>
      match directive ch with
      | .left | .zero | .digit | .dot | .alt | .long => errorSlots true k s
      | .star => errorSlots true (k + 1) s
      | .error => k :: errorSlots false (k + 1) s
      | .percent | .unknown => errorSlots false k s
      | .char | .string | .signed | .unsigned | .octal | .pointer | .hex =>
          errorSlots false (k + 1) s

theorem errorSlots_literal (k : Nat) {s : List Byte} (hs : PERCENT ∉ s) (rest : List Byte) :
    errorSlots false k (s ++ rest) = errorSlots false k rest := by
  induction s with
  | nil => rfl
  | cons ch s ih =>
      have hch : ch ≠ PERCENT := fun heq => hs (heq ▸ List.mem_cons_self)
      rw [List.cons_append, errorSlots, decide_eq_false hch]
      exact ih fun hmem => hs (List.mem_cons_of_mem ch hmem)

theorem directive_nul : directive 0 = .unknown := by decide

theorem directive_percent : directive PERCENT = .percent := by decide

/-- A digit of a number in the format. -/
theorem directive_of_digit {ch : Byte} (hzero : ZERO ≤ ch) (hnine : ch ≤ NINE) :
    directive ch = .zero ∨ directive ch = .digit := by
  by_cases hch : ch = ZERO
  · rw [hch]
    exact .inl (by decide)
  · have hminus : ch ≠ MINUS := by
      rintro rfl
      exact absurd hzero (by decide)
    have hlt : ZERO < ch := by
      rw [BitVec.lt_def]
      rw [BitVec.le_def] at hzero
      have hne : ch.toNat ≠ ZERO.toNat := fun heq => hch (BitVec.eq_of_toNat_eq heq)
      omega
    rw [directive, if_neg hminus, if_neg hch, if_pos ⟨hlt, hnine⟩]
    exact .inr rfl

theorem ne_percent {ch : Byte} (hch : directive ch ≠ .percent) : ch ≠ PERCENT :=
  fun heq => hch (heq ▸ directive_percent)

theorem errorSlots_digits (k : Nat) {ds : List Byte} (hds : ∀ d ∈ ds, ZERO ≤ d ∧ d ≤ NINE)
    (rest : List Byte) : errorSlots true k (ds ++ rest) = errorSlots true k rest := by
  induction ds with
  | nil => rfl
  | cons d ds ih =>
      have hd := hds d List.mem_cons_self
      have hrest := ih fun e he => hds e (List.mem_cons_of_mem d he)
      rw [List.cons_append, errorSlots]
      rcases directive_of_digit hd.1 hd.2 with heq | heq
      · rw [heq]
        exact hrest
      · rw [heq]
        exact hrest

section Read

variable {σ : Type} {fmt : List Byte}

/-- The format behind one more character. -/
theorem split_next {before rest : List Byte} {ch : Byte} (hfmt : fmt = before ++ ch :: rest) :
    fmt = (before ++ [ch]) ++ rest :=
  hfmt.trans (List.append_cons before ch rest)

theorem length_next (before : List Byte) (ch : Byte) :
    before.length + 1 = (before ++ [ch]).length := by
  rw [List.length_append, List.length_singleton]

/-- The character in front of which the pointer stands, the NUL at the end. -/
theorem ends_charAt {before rest : List Byte} (hfmt : fmt = before ++ rest) {f : Frame σ}
    {Q : Byte → Frame σ → Prop} :
    Ends never (charAt fmt before.length) f Q ↔ Q (rest.headD 0) f := by
  have hle : before.length ≤ fmt.length := by
    rw [hfmt, List.length_append]
    omega
  have hget : fmt.getD before.length 0 = rest.headD 0 := by
    rw [hfmt, List.getD_eq_getElem?_getD, List.getElem?_append_right (Nat.le_refl _), Nat.sub_self]
    cases rest with
    | nil => rfl
    | cons ch rest => rfl
  rw [charAt, ends_bind, ends_check hle, ends_pure, hget]

/-- It goes back to the `'%'` of the conversion and never to an earlier one. -/
theorem goBack_spec {before mid rest : List Byte} (hfmt : fmt = before ++ PERCENT :: (mid ++ rest))
    (hmid : PERCENT ∉ mid) (f : Frame σ) :
    Ends never (goBack fmt (before.length + 1 + mid.length)) f fun r g =>
      r = before.length + 1 ∧ g = f := by
  induction mid using List.reverseRecOn generalizing rest with
  | nil =>
      have hat : fmt = before ++ PERCENT :: rest := hfmt
      rw [List.length_nil, Nat.add_zero, goBack, ends_bind, ends_charAt hat]
      exact ⟨rfl, rfl⟩
  | append_singleton mid ch ih =>
      have hch : ch ≠ PERCENT := fun heq => hmid (by simp [heq])
      have hat : fmt = (before ++ PERCENT :: mid) ++ ch :: rest := by
        rw [hfmt]
        simp
      have hlen : before.length + 1 + (mid ++ [ch]).length =
          (before ++ PERCENT :: mid).length + 1 := by
        simp
        omega
      rw [hlen, goBack, ends_bind, ends_charAt hat, List.headD_cons, if_pos hch]
      have hback := @ih (ch :: rest) (by rw [hfmt]; simp) fun hmem => hmid (by simp [hmem])
      rw [show (before ++ PERCENT :: mid).length = before.length + 1 + mid.length by
        simp; omega]
      exact hback

/-- It reads the digits up to the first other character. -/
theorem readNumber_spec {fuel : Nat} {before rest : List Byte} (hfmt : fmt = before ++ rest)
    (hfuel : rest.length < fuel) (precision : Int) (ch : Byte) (f : Frame σ) :
    Ends never (readNumber fmt fuel before.length precision ch) f fun r g => g = f ∧
      ∃ ds rest', rest = ds ++ rest' ∧ r.2 = (before ++ ds).length ∧
        ∀ d ∈ ds, ZERO ≤ d ∧ d ≤ NINE := by
  induction fuel generalizing before rest precision ch with
  | zero => omega
  | succ fuel ih =>
      rw [readNumber, ends_bind, ends_charAt hfmt]
      cases rest with
      | nil => exact ⟨rfl, [], [], rfl, by simp, by simp⟩
      | cons d rest =>
          rw [List.headD_cons]
          split
          · exact ⟨rfl, [], d :: rest, rfl, by simp, by simp⟩
          · rename_i hdigit
            have hd : ZERO ≤ d ∧ d ≤ NINE := by
              rw [not_or, BitVec.not_lt, BitVec.not_lt] at hdigit
              exact hdigit
            rw [length_next before d]
            apply (ih (split_next hfmt) (by simpa using hfuel) _ _).imp
            rintro r g ⟨rfl, ds, rest', rfl, hr, hds⟩
            refine ⟨rfl, d :: ds, rest', rfl, by rw [hr]; simp, ?_⟩
            intro e he
            rcases List.mem_cons.mp he with rfl | hmem
            · exact hd
            · exact hds e hmem

variable {nested : List Byte → (Nat → Arg) → PrintM σ PUnit} {putch : Int → σ → σ}
  {args : Nat → Arg}

/-- The arguments of the `%e`s that are still to come print. -/
def Printable (nested : List Byte → (Nat → Arg) → PrintM σ PUnit) (args : Nat → Arg)
    (inside : Bool) (k : Nat) (rest : List Byte) : Prop :=
  ∀ i ∈ errorSlots inside k rest, Quiet (printError nested (args i))

/-- What a loop over the format leaves: it stands in front of less of the format. -/
def Advanced (nested : List Byte → (Nat → Arg) → PrintM σ PUnit) (args : Nat → Arg)
    (fmt : List Byte) (left : Nat) (p : Nat) (g : Frame σ) : Prop :=
  ∃ before rest, fmt = before ++ rest ∧ p = before.length ∧ rest.length < left ∧
    Printable nested args false g.arg rest

/-- The literal characters, up to a `'%'` or the NUL. -/
theorem literal_spec {fuel : Nat} {before rest : List Byte} (hfmt : fmt = before ++ rest)
    (hfuel : rest.length < fuel) {f : Frame σ} (hprint : Printable nested args false f.arg rest) :
    Ends never (literal putch fmt fuel before.length) f fun r g => g.arg = f.arg ∧
      ∀ p, r = some p → ∃ before rest', fmt = before ++ PERCENT :: rest' ∧
        p = before.length + 1 ∧ rest'.length < rest.length ∧
        Printable nested args true g.arg rest' := by
  induction fuel generalizing before rest f with
  | zero => omega
  | succ fuel ih =>
      rw [literal, ends_bind, ends_charAt hfmt]
      cases rest with
      | nil => exact ⟨rfl, fun p hp => by cases hp⟩
      | cons ch rest =>
          rw [List.headD_cons]
          have hrest : Printable nested args (decide (ch = PERCENT)) f.arg rest := by
            rw [Printable, errorSlots] at hprint
            exact hprint
          split
          · rename_i hch
            refine ⟨rfl, fun p hp => ?_⟩
            obtain rfl := Option.some.inj hp
            rw [decide_eq_true hch] at hrest
            exact ⟨before, rest, by rw [hfmt, hch], rfl, Nat.lt_succ_self _, hrest⟩
          · rename_i hch
            rw [decide_eq_false hch] at hrest
            split
            · exact ⟨rfl, fun p hp => by cases hp⟩
            · have hread := @ih (before ++ [ch]) rest (split_next hfmt) (by simpa using hfuel)
                { f with out := putch ch.toNat f.out } hrest
              rw [ends_bind, length_next before ch, putByte, put, ends_modify]
              apply hread.imp
              rintro r g ⟨harg, hsome⟩
              refine ⟨harg, fun p hp => ?_⟩
              obtain ⟨before', rest', heq, hp, hlt, hprint'⟩ := hsome p hp
              exact ⟨before', rest', heq, hp, Nat.lt_succ_of_lt hlt, hprint'⟩

theorem goBack_advanced {before mid rest : List Byte}
    (hfmt : fmt = before ++ PERCENT :: (mid ++ rest)) (hmid : PERCENT ∉ mid) {f : Frame σ}
    (hprint : Printable nested args false f.arg rest) :
    Ends never (goBack fmt (before.length + 1 + mid.length)) f
      (Advanced nested args fmt (mid.length + rest.length + 1)) := by
  apply (goBack_spec hfmt hmid f).imp
  rintro r _ ⟨rfl, rfl⟩
  refine ⟨before ++ [PERCENT], mid ++ rest, by rw [hfmt]; simp, by simp, by simp, ?_⟩
  rw [Printable, errorSlots_literal _ hmid]
  exact hprint

/-- The number of a conversion, whose first digit has been read. -/
theorem readNumber_conversion {fuel : Nat} {before mid rest : List Byte} {ch : Byte}
    (hfmt : fmt = before ++ PERCENT :: (mid ++ ch :: rest)) (hmid : PERCENT ∉ mid)
    (hch : ch ≠ PERCENT) (hfuel : rest.length < fuel) {f : Frame σ}
    (hprint : Printable nested args true f.arg rest) :
    Ends never (readNumber fmt fuel (before.length + 1 + mid.length + 1) 0 ch) f fun r g =>
      ∃ ds rest', rest = ds ++ rest' ∧ PERCENT ∉ mid ++ ch :: ds ∧
        r.2 = before.length + 1 + (mid ++ ch :: ds).length ∧
        Printable nested args true g.arg rest' := by
  have hsplit : fmt = (before ++ PERCENT :: (mid ++ [ch])) ++ rest := by
    rw [hfmt]
    simp
  have hstart : before.length + 1 + mid.length + 1 =
      (before ++ PERCENT :: (mid ++ [ch])).length := by
    simp
    omega
  rw [hstart]
  apply (readNumber_spec hsplit hfuel 0 ch f).imp
  rintro r g ⟨rfl, ds, rest', rfl, hp, hds⟩
  refine ⟨ds, rest', rfl, ?_, ?_, ?_⟩
  · rw [List.mem_append, List.mem_cons, not_or, not_or]
    refine ⟨hmid, hch.symm, fun hmem => ?_⟩
    exact absurd (hds _ hmem).1 (by decide)
  · rw [hp]
    simp
    omega
  · rw [Printable, ← errorSlots_digits g.arg hds rest']
    exact hprint

/-- A conversion ends behind its `'%'`. The induction is on the fuel; `mid` is what has
been read of the conversion. -/
theorem reswitch_spec {fuel : Nat} {before mid rest : List Byte}
    (hfmt : fmt = before ++ PERCENT :: (mid ++ rest)) (hmid : PERCENT ∉ mid)
    (hfuel : rest.length < fuel) (v : Conversion) {f : Frame σ}
    (hprint : Printable nested args true f.arg rest) :
    Ends never (reswitch nested putch fmt args fuel (before.length + 1 + mid.length) v) f
      (Advanced nested args fmt (mid.length + rest.length + 1)) := by
  induction fuel generalizing mid rest v f with
  | zero => omega
  | succ fuel ih =>
      have hat : fmt = (before ++ PERCENT :: mid) ++ rest := by
        rw [hfmt]
        simp
      have hlen : before.length + 1 + mid.length = (before ++ PERCENT :: mid).length := by
        simp
        omega
      rw [reswitch, ends_bind, hlen, ends_charAt hat, ← hlen]
      cases rest with
      | nil =>
          rw [List.headD_nil, directive_nul]
          rw [ends_bind]
          exact goBack_advanced hfmt hmid hprint
      | cons ch rest =>
          rw [List.headD_cons]
          rw [Printable, errorSlots] at hprint
          -- one more character of the conversion
          have hnext : directive ch ≠ .percent → ∀ v (g : Frame σ),
              Printable nested args true g.arg rest →
              Ends never (reswitch nested putch fmt args fuel (before.length + 1 +
                mid.length + 1) v) g
                (Advanced nested args fmt (mid.length + (ch :: rest).length + 1)) := by
            intro hdir v g hrest
            have hch := ne_percent hdir
            have hsplit : fmt = before ++ PERCENT :: ((mid ++ [ch]) ++ rest) := by
              rw [hfmt]
              simp
            have hread := ih hsplit (by simp [hmid, hch.symm]) (by simpa using hfuel) v hrest
            have hat' : before.length + 1 + (mid ++ [ch]).length =
                before.length + 1 + mid.length + 1 := by simp; omega
            have hleft : (mid ++ [ch]).length + rest.length + 1 =
                mid.length + (ch :: rest).length + 1 := by simp; omega
            rwa [hat', hleft] at hread
          -- the end of the conversion, without and with an argument
          have hdone : ∀ {x : PrintM σ PUnit} {g : Frame σ}, Quiet x →
              Printable nested args false g.arg rest →
              Ends never (x >>= fun _ => pure (before.length + 1 + mid.length + 1)) g
                (Advanced nested args fmt (mid.length + (ch :: rest).length + 1)) := by
            intro x g hx hrest
            rw [ends_bind]
            apply (hx g).imp
            intro _ k hk
            refine ⟨before ++ PERCENT :: (mid ++ [ch]), rest, by rw [hfmt]; simp, ?_, ?_, ?_⟩
            · simp
              omega
            · simp
              omega
            · rw [hk]
              exact hrest
          have hconv : ∀ (x : Arg → PrintM σ PUnit), Quiet (x (args f.arg)) →
              Printable nested args false (f.arg + 1) rest →
              Ends never (vaArg args >>= fun a => x a >>= fun _ =>
                pure (before.length + 1 + mid.length + 1)) f
                (Advanced nested args fmt (mid.length + (ch :: rest).length + 1)) := by
            intro x hx hrest
            rw [vaArg, ends_bind, ends_bind, ends_get, ends_bind, ends_modify, ends_pure]
            exact hdone hx hrest
          cases hdir : directive ch with
          | left =>
              rw [hdir] at hprint
              exact hnext (by rw [hdir]; decide) _ f hprint
          | zero =>
              rw [hdir] at hprint
              exact hnext (by rw [hdir]; decide) _ f hprint
          | digit =>
              rw [hdir] at hprint
              have hch : ch ≠ PERCENT := ne_percent (by rw [hdir]; decide)
              have hless : rest.length < fuel := by simpa using hfuel
              change Ends never (readNumber fmt fuel _ 0 ch >>= _) f _
              rw [ends_bind]
              apply (readNumber_conversion hfmt hmid hch hless hprint).imp
              rintro ⟨precision, p⟩ g ⟨ds, rest', rfl, hpercent, hp, hrest⟩
              have hsplit : fmt = before ++ PERCENT :: ((mid ++ ch :: ds) ++ rest') := by
                rw [hfmt]
                simp
              rw [List.length_append] at hless
              have hread := ih hsplit hpercent (by omega) (v.processPrecision precision) hrest
              have hleft : (mid ++ ch :: ds).length + rest'.length + 1 =
                  mid.length + (ch :: (ds ++ rest')).length + 1 := by simp; omega
              rw [← show p = _ from hp, hleft] at hread
              exact hread
          | star =>
              rw [hdir] at hprint
              exact hnext (by rw [hdir]; decide) _ _ hprint
          | dot =>
              rw [hdir] at hprint
              exact hnext (by rw [hdir]; decide) _ f hprint
          | alt =>
              rw [hdir] at hprint
              exact hnext (by rw [hdir]; decide) _ f hprint
          | long =>
              rw [hdir] at hprint
              exact hnext (by rw [hdir]; decide) _ f hprint
          | char =>
              rw [hdir] at hprint
              exact hconv (fun a => put putch a.toInt) (quiet_put putch _) hprint
          | error =>
              rw [hdir] at hprint
              exact hconv (fun a => printError nested a) (hprint _ List.mem_cons_self)
                fun i hi => hprint i (List.mem_cons_of_mem _ hi)
          | string =>
              rw [hdir] at hprint
              exact hconv (fun a => printString putch v a) (quiet_printString putch _ _) hprint
          | signed =>
              rw [hdir] at hprint
              exact hconv (fun a => printSigned putch v a) (quiet_printSigned putch _ _) hprint
          | unsigned =>
              rw [hdir] at hprint
              exact hconv (fun a => printUnsigned putch v base10 a)
                (quiet_printnum putch _ _ _ _) hprint
          | octal =>
              rw [hdir] at hprint
              exact hconv (fun a => printUnsigned putch v base8 a)
                (quiet_printnum putch _ _ _ _) hprint
          | pointer =>
              rw [hdir] at hprint
              exact hconv (fun a => printPointer putch v a) (quiet_printPointer putch _ _) hprint
          | hex =>
              rw [hdir] at hprint
              exact hconv (fun a => printUnsigned putch v base16 a)
                (quiet_printnum putch _ _ _ _) hprint
          | percent =>
              rw [hdir] at hprint
              exact hdone (quiet_put putch _) hprint
          | unknown =>
              rw [hdir] at hprint
              have hch : ch ≠ PERCENT := ne_percent (by rw [hdir]; decide)
              change Ends never (putByte putch PERCENT >>= _) f _
              rw [ends_bind]
              apply goBack_advanced hfmt hmid
              rw [Printable, errorSlots, decide_eq_false hch]
              exact hprint

theorem convertLoop_spec {fuel : Nat} {before rest : List Byte} (hfmt : fmt = before ++ rest)
    (hfuel : rest.length + 1 < fuel) {f : Frame σ}
    (hprint : Printable nested args false f.arg rest) :
    Ends never (convertLoop nested putch fmt args fuel before.length) f fun _ _ => True := by
  induction fuel generalizing before rest f with
  | zero => omega
  | succ fuel ih =>
      rw [convertLoop, ends_bind]
      apply (@literal_spec _ _ nested putch args fuel before rest hfmt (by omega) f hprint).imp
      rintro next g ⟨_, hnext⟩
      cases next with
      | none => trivial
      | some p =>
          obtain ⟨before, rest', hsplit, rfl, hlt, hrest⟩ := hnext p rfl
          change Ends never (reswitch nested putch fmt args fuel (before.length + 1) .initial >>=
            fun p => convertLoop nested putch fmt args fuel p) g _
          rw [ends_bind]
          apply (@reswitch_spec _ _ nested putch args fuel before [] rest' hsplit (by simp)
            (by omega) .initial g hrest).imp
          rintro _ k ⟨before, rest, hfmt', rfl, hlt', hprint'⟩
          rw [List.length_nil, Nat.zero_add] at hlt'
          exact ih hfmt' (by omega) hprint'

end Read

/-- A format returns once its `%e`s print. -/
theorem vprintfmt_returns {σ : Type} {putch : Int → σ → σ} {fuel : Nat} {fmt : List Byte}
    {args : Nat → Arg} (hfuel : fmt.length + 2 < fuel + 1) {f : Frame σ}
    (hprint : Printable (vprintfmt putch fuel) args false f.arg fmt) :
    Ends never (vprintfmt putch (fuel + 1) fmt args) f fun _ _ => True :=
  @convertLoop_spec _ _ _ _ _ _ [] fmt rfl (by omega) f hprint

/-- The formats of `%e` have no `%e`. -/
theorem printError_quiet {σ : Type} (putch : Int → σ → σ) {fuel : Nat} (hfuel : 11 ≤ fuel)
    {a : Arg} (ha : -2 ^ 31 < a.toInt) : Quiet (printError (vprintfmt putch fuel) a) := by
  obtain ⟨fuel, rfl⟩ := Nat.exists_eq_add_of_lt hfuel
  have herror : ∀ k, errorSlots false k ERROR_FORMAT = [] := by
    intro k
    rfl
  have hstring : ∀ k, errorSlots false k STRING_FORMAT = [] := by
    intro k
    rfl
  have hlen : ERROR_FORMAT.length = 8 := by decide
  have hlen' : STRING_FORMAT.length = 2 := by decide
  apply quiet_printError _ _ ha
  · intro args f
    apply vprintfmt_returns (by omega)
    rw [Printable, herror]
    exact fun i hi => by cases hi
  · intro args f
    apply vprintfmt_returns (by omega)
    rw [Printable, hstring]
    exact fun i hi => by cases hi

/-! ## The buffer -/

/-- The buffer after the characters `out`. -/
def fill (b : Sprintbuf) (out : List Int) : Sprintbuf :=
  out.foldl (fun b ch => sprintputch ch b) b

theorem fill_collect (b : Sprintbuf) (c : Int) (out : List Int) :
    fill b (collect c out) = sprintputch c (fill b out) := by
  rw [fill, collect, List.foldl_append]
  rfl

/-- What a buffer holds after the characters `out`: as many of them as have room. -/
structure Filled (b : Sprintbuf) (out : List Int) (c : Sprintbuf) : Prop where
  buf : c.buf = min (b.buf + out.length) b.ebuf
  ebuf : c.ebuf = b.ebuf
  cnt : c.cnt = toInt32 out.length
  inside : ∀ i, b.buf + i < b.ebuf → ∀ ch, out[i]? = some ch → c.mem (b.buf + i) = BitVec.ofInt 8 ch
  outside : ∀ a, a < b.buf ∨ b.ebuf ≤ a → c.mem a = b.mem a

theorem fill_spec {b : Sprintbuf} (hle : b.buf ≤ b.ebuf) (hcnt : b.cnt = 0) (out : List Int) :
    Filled b out (fill b out) := by
  induction out using List.reverseRecOn with
  | nil =>
      refine ⟨(Nat.min_eq_left hle).symm, rfl, hcnt, ?_, fun _ _ => rfl⟩
      intro i _ ch hch
      cases hch
  | append_singleton out c ih =>
      have hstep : fill b (out ++ [c]) = sprintputch c (fill b out) := fill_collect b c out
      have hcount : toInt32 ((fill b out).cnt + 1) = toInt32 (out ++ [c]).length := by
        rw [ih.cnt, toInt32, toInt32, toInt32, Int.bmod_add_bmod, List.length_append]
        rfl
      have hlen : (out ++ [c]).length = out.length + 1 := by simp
      have hbuf := ih.buf
      have hebuf := ih.ebuf
      rw [hstep, sprintputch]
      by_cases hroom : (fill b out).buf < (fill b out).ebuf
      · rw [if_pos hroom]
        have hat : (fill b out).buf = b.buf + out.length := by omega
        refine ⟨?_, hebuf, hcount, ?_, ?_⟩
        · change (fill b out).buf + 1 = _
          omega
        · intro i hi ch hch
          change Function.update (fill b out).mem (fill b out).buf (BitVec.ofInt 8 c)
            (b.buf + i) = _
          by_cases hlast : i = out.length
          · rw [hlast, List.getElem?_concat_length] at hch
            obtain rfl := Option.some.inj hch
            rw [hlast, hat, Function.update_self]
          · have hlt : i < out.length := by
              have := (List.getElem?_eq_some_iff.mp hch).1
              omega
            rw [Function.update_of_ne (by omega)]
            rw [List.getElem?_append_left hlt] at hch
            exact ih.inside i hi ch hch
        · intro a ha
          change Function.update (fill b out).mem (fill b out).buf (BitVec.ofInt 8 c) a = _
          rw [Function.update_of_ne (by omega)]
          exact ih.outside a ha
      · rw [if_neg hroom]
        refine ⟨?_, hebuf, hcount, ?_, ih.outside⟩
        · change (fill b out).buf = _
          omega
        · intro i hi ch hch
          have hlt : i < out.length := by omega
          rw [List.getElem?_append_left hlt] at hch
          exact ih.inside i hi ch hch

/-- What is printed, with another sink and more fuel. -/
theorem printed_maps {σ : Type} {h : List Int → σ} {putch : Int → σ → σ}
    (hputch : ∀ c out, h (collect c out) = putch c (h out)) {fuel fuel' : Nat}
    (hfuel : fuel ≤ fuel') {fmt : List Byte} {args : Nat → Arg} {out : List Int}
    (hprinted : printed fuel fmt args = .ok out) :
    ∃ k, vprintfmt putch fuel' fmt args ⟨h [], 0⟩ = .ok (⟨⟩, ⟨h out, k⟩) := by
  rw [printed] at hprinted
  cases hrun : vprintfmt collect fuel fmt args ⟨[], 0⟩ with
  | error e =>
      rw [hrun] at hprinted
      cases hprinted
  | ok r =>
      rw [hrun] at hprinted
      obtain rfl := Except.ok.inj hprinted
      exact ⟨r.2.arg, maps_vprintfmt hputch hfuel fmt args _ _ _ hrun⟩

theorem printed_mono {fuel fuel' : Nat} (hfuel : fuel ≤ fuel') {fmt : List Byte}
    {args : Nat → Arg} {out : List Int} (hprinted : printed fuel fmt args = .ok out) :
    printed fuel' fmt args = .ok out := by
  obtain ⟨k, hrun⟩ := printed_maps (h := id) (fun _ _ => rfl) hfuel hprinted
  rw [printed]
  change (vprintfmt collect fuel' fmt args ⟨id [], 0⟩).map _ = _
  rw [hrun]
  rfl

/-- What is printed into a buffer. -/
theorem vsnprintf_eq {fuel str size : Nat} {fmt : List Byte} {args : Nat → Arg} {out : List Int}
    (hprinted : printed fuel fmt args = .ok out) (hstr : str ≠ 0) (hsize : 0 < size)
    (hend : str + size ≤ 2 ^ 64) (mem : Bytes) :
    ∃ c, Filled ⟨str, str + size - 1, 0, mem⟩ out c ∧
      vsnprintf fuel str size fmt args mem = .ok (c.cnt, Function.update c.mem c.buf 0) := by
  have hle : str ≤ str + size - 1 := by omega
  have hebuf : (str + size + 2 ^ 64 - 1) % 2 ^ 64 = str + size - 1 := by omega
  have hroom : ¬ (str = 0 ∨ str > str + size - 1) := by omega
  obtain ⟨b, hb⟩ : ∃ b : Sprintbuf, b = ⟨str, str + size - 1, 0, mem⟩ := ⟨_, rfl⟩
  refine ⟨fill b out, hb ▸ fill_spec (hb ▸ hle) (hb ▸ rfl) out, ?_⟩
  obtain ⟨k, hrun⟩ := printed_maps (fill_collect b) (Nat.le_refl fuel) hprinted
  change vprintfmt sprintputch fuel fmt args ⟨b, 0⟩ = _ at hrun
  rw [vsnprintf]
  simp only [hebuf]
  rw [if_neg hroom, ← hb, hrun]
  rfl

/-- `vsnprintf` truncates safely. The format may have any characters; the arguments of
its `%e`s are not the least `int`. -/
theorem vsnprintf_truncates (fmt : List Byte) (args : Nat → Arg)
    (herror : ∀ i ∈ errorSlots false 0 fmt, -2 ^ 31 < (args i).toInt) :
    ∃ out, ∀ fuel ≥ fmt.length + 12, printed fuel fmt args = .ok out ∧
      (out.length < 2 ^ 31 → ∀ str size mem, str ≠ 0 → 1 ≤ size → str + size ≤ 2 ^ 64 →
        ∃ mem', vsnprintf fuel str size fmt args mem = .ok (out.length, mem') ∧
          (∀ i (hi : i < out.length), i < size - 1 → mem' (str + i) = BitVec.ofInt 8 out[i]) ∧
          mem' (str + min (size - 1) out.length) = 0 ∧
          ∀ a, a < str ∨ str + size ≤ a → mem' a = mem a) := by
  have hquiet : Printable (vprintfmt collect (fmt.length + 11)) args false 0 fmt :=
    fun i hi => printError_quiet collect (by omega) (herror i hi)
  have hends := @vprintfmt_returns _ collect (fmt.length + 11) fmt args (by omega) ⟨[], 0⟩ hquiet
  obtain ⟨_, t, hrun, _⟩ := hends.ok
  have hout : printed (fmt.length + 12) fmt args = .ok t.out := by
    rw [printed, hrun]
    rfl
  refine ⟨t.out, fun fuel hfuel => ?_⟩
  have hprinted := printed_mono hfuel hout
  refine ⟨hprinted, fun hlen str size mem hstr hsize hend => ?_⟩
  obtain ⟨c, hfilled, heq⟩ := vsnprintf_eq hprinted hstr hsize hend mem
  have hbuf : c.buf = min (str + t.out.length) (str + size - 1) := hfilled.buf
  have hinside : ∀ i, str + i < str + size - 1 → ∀ ch, t.out[i]? = some ch →
      c.mem (str + i) = BitVec.ofInt 8 ch := hfilled.inside
  have houtside : ∀ a, a < str ∨ str + size - 1 ≤ a → c.mem a = mem a := hfilled.outside
  refine ⟨Function.update c.mem c.buf 0, ?_, ?_, ?_, ?_⟩
  · rw [heq, hfilled.cnt, toInt32, Int.bmod_eq_of_le (by omega) (by omega)]
  · intro i hi hroom
    rw [Function.update_of_ne (by omega)]
    exact hinside i (by omega) _ (List.getElem?_eq_getElem hi)
  · have hnul : str + min (size - 1) t.out.length = c.buf := by omega
    rw [hnul, Function.update_self]
  · intro a ha
    rw [Function.update_of_ne (by omega)]
    exact houtside a (by omega)

/-- `"a%e%"` with `-E_NO_MEM` is `"aout of memory%"`. -/
theorem printed_error : (printed 16 (chars ['a', '%', 'e', '%'])
    fun _ => ⟨BitVec.ofInt 64 (-4), none⟩).toOption =
      some [97, 111, 117, 116, 32, 111, 102, 32, 109, 101, 109, 111, 114, 121, 37] := by
  decide +kernel

/-- A buffer of four bytes gets the first three characters and a NUL; the length is that of all. -/
theorem vsnprintf_truncates_error : ∃ mem' : Nat → Byte,
    vsnprintf 16 100 4 (chars ['a', '%', 'e', '%']) (fun _ => ⟨BitVec.ofInt 64 (-4), none⟩)
      (fun _ => 7) = .ok (15, mem') ∧
    [mem' 100, mem' 101, mem' 102, mem' 103, mem' 104] = [97, 111, 117, 0, 7] := by
  obtain ⟨out, hout⟩ := vsnprintf_truncates (chars ['a', '%', 'e', '%'])
    (fun _ => ⟨BitVec.ofInt 64 (-4), none⟩) fun _ _ => by decide
  obtain ⟨hprinted, hbuffer⟩ := hout 16 (by decide)
  have hout' := printed_error
  rw [hprinted] at hout'
  obtain rfl := Option.some.inj hout'
  obtain ⟨mem', hrun, hinside, hnul, hkept⟩ :=
    hbuffer (by decide) 100 4 (fun _ => 7) (by decide) (by decide) (by decide)
  refine ⟨mem', hrun, ?_⟩
  have hfirst : mem' 100 = 97 := hinside 0 (by decide) (by decide)
  have hsecond : mem' 101 = 111 := hinside 1 (by decide) (by decide)
  have hthird : mem' 102 = 117 := hinside 2 (by decide) (by decide)
  have hend : mem' 103 = 0 := hnul
  rw [hfirst, hsecond, hthird, hend, hkept 104 (.inr (by decide))]

end Ucore.Printfmt
