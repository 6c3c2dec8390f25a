import Mathlib.Data.List.Forall2
import Ucore.Foundation.Machine
import Ucore.Foundation.Words

/-!
# The tokens of the shell

`gettoken` of `user/sh.c` in lab 8, on a string in memory that it changes as it goes.
A word is ended only by a later call, which overwrites the blank or the symbol behind
it. An access outside of the string stops the program.
-/

namespace Ucore.Sh

open Machine

/-- `" \t\r\n"`. -/
def WHITESPACE : List Byte := [0x20, 0x09, 0x0d, 0x0a]

/-- `"<|>&;"`. -/
def SYMBOLS : List Byte := [0x3c, 0x7c, 0x3e, 0x26, 0x3b]

def QUOTE : Byte := 0x22

def BLANK : Byte := 0x20

/-- `'w'`. -/
def WORD : Byte := 0x77

/-- The memory of the process, and where in it the string lies: its first byte and
the number of bytes before the NUL. -/
structure ShState where
  mem : Bytes
  start : Nat
  len : Nat

inductive ShStop
  | outside
  | endless
  deriving DecidableEq, Repr

abbrev ShM := Machine ShStop ShState

/-- A byte of the string or its NUL. -/
def load (s : Nat) : ShM Byte := do
  let st ← get
  check .outside (st.start ≤ s ∧ s ≤ st.start + st.len)
  return st.mem s

/-- Only bytes of the string are written. -/
def store (s : Nat) (c : Byte) : ShM PUnit := do
  let st ← get
  check .outside (st.start ≤ s ∧ s < st.start + st.len)
  modify fun st => { st with mem := Function.update st.mem s c }

/-- `strchr`, on a string that is given without its NUL. -/
def strchr : List Byte → Byte → Option (List Byte)
  | [], _ => none
  | b :: s, c => if b = c then some (b :: s) else strchr s c

/-- The first loop of `gettoken`, for at most `fuel` rounds. -/
def skipWhite : Nat → Nat → ShM Nat
  | 0, _ => throw .endless
  | fuel + 1, s => do
      if strchr WHITESPACE (← load s) ≠ none then do
        store s 0
        skipWhite fuel (s + 1)
      else return s

/-- The second loop of `gettoken`. -/
def scanWord : Nat → Bool → Nat → ShM Nat
  | 0, _, _ => throw .endless
  | fuel + 1, flag, s => do
      let c ← load s
      if c ≠ 0 ∧ (flag = true ∨ strchr (WHITESPACE ++ SYMBOLS) c = none) then
        if c = QUOTE then do
          store s BLANK
          scanWord fuel (!flag) (s + 1)
        else scanWord fuel flag (s + 1)
      else return s

/-- `gettoken`: the token, and what is then in `*p1` and in `*p2`. -/
def gettoken (fuel : Nat) (p1 p2 : Option Nat) : ShM (Byte × Option Nat × Option Nat) := do
  match p1 with
  | none => return (0, none, p2)
  | some s =>
      let s ← skipWhite fuel s
      let c ← load s
      if c = 0 then return (0, p1, p2)
      let p2 := some s
      if strchr SYMBOLS c ≠ none then do
        store s 0
        let s := s + 1
        return (c, if (← load s) ≠ 0 then some s else none, p2)
      else do
        let s ← scanWord fuel false s
        return (WORD, if (← load s) ≠ 0 then some s else none, p2)

/-- Calls of `gettoken` until it returns 0: the tokens, each with what is in `*p2`. -/
def gettokens (fuel : Nat) : Nat → Option Nat → Option Nat → ShM (List (Byte × Option Nat))
  | 0, _, _ => throw .endless
  | calls + 1, p1, p2 => do
      let (token, p1, p2) ← gettoken fuel p1 p2
      if token = 0 then return []
      return (token, p2) :: (← gettokens fuel calls p1 p2)

/-! ## Tokens and the strings that show them -/

inductive Token
  | word (text : List Byte)
  | symbol (c : Byte)

namespace Token

def text : Token → List Byte
  | .word text => text
  | .symbol c => [c]

def isWord : Token → Bool
  | .word _ => true
  | .symbol _ => false

/-- A character of a word: no NUL, blank, quote or symbol. -/
def Plain (c : Byte) : Prop := c ≠ 0 ∧ c ∉ WHITESPACE ∧ c ≠ QUOTE ∧ c ∉ SYMBOLS

/-- A token that can be written: a word is not empty and has plain characters only. -/
def Valid : Token → Prop
  | .word text => text ≠ [] ∧ ∀ c ∈ text, Plain c
  | .symbol c => c ∈ SYMBOLS

end Token

/-- A string shows the tokens: blanks stand before each of them and at the end, as many
as one likes, but at least one between two words. -/
def Renders (afterWord : Bool) : List Token → List Byte → Prop
  | [], text => ∀ c ∈ text, c ∈ WHITESPACE
  | token :: tokens, text => ∃ gap rest, text = gap ++ token.text ++ rest ∧
      (∀ c ∈ gap, c ∈ WHITESPACE) ∧ (afterWord = true → token.isWord = true → gap ≠ []) ∧
      Renders token.isWord tokens rest

/-- The bytes of `text` stand in memory from `p` on. -/
def Reads (mem : Bytes) (p : Nat) (text : List Byte) : Prop :=
  ∀ i (hi : i < text.length), mem (p + i) = text[i]

/-- What a call hands out for a token: a symbol by its character, a word by `'w'` and a
pointer that reads as the word, with a NUL behind it. -/
def Returned (mem : Bytes) : Token → Byte × Option Nat → Prop
  | .word text, r => r.1 = WORD ∧ ∃ p, r.2 = some p ∧ Reads mem p text ∧ mem (p + text.length) = 0
  | .symbol c, r => r.1 = c

theorem strchr_eq_none {s : List Byte} {c : Byte} : strchr s c = none ↔ c ∉ s := by
  induction s with
  | nil => simp [strchr]
  | cons b s ih =>
      rw [strchr, List.mem_cons, not_or]
      split
      · next heq => simp [heq]
      · next hne =>
          rw [ih]
          exact ⟨fun hs => ⟨fun heq => hne heq.symm, hs⟩, fun hs => hs.2⟩

/-! ## The loops -/

/-- What is left of the string from `p` on. -/
structure Left (st : ShState) (p : Nat) (text : List Byte) : Prop where
  start_le : st.start ≤ p
  reads : Reads st.mem p text
  finish : p + text.length = st.start + st.len
  nul : st.mem (st.start + st.len) = 0

/-- The memory with `n` bytes at `p` set to NUL. -/
def zeroed (mem : Bytes) (p n : Nat) : Bytes := fun k => if p ≤ k ∧ k < p + n then 0 else mem k

theorem zeroed_out {mem : Bytes} {p n k : Nat} (hk : k < p ∨ p + n ≤ k) :
    zeroed mem p n k = mem k :=
  if_neg (by omega)

theorem zeroed_in {mem : Bytes} {p n k : Nat} (hp : p ≤ k) (hk : k < p + n) :
    zeroed mem p n k = 0 :=
  if_pos ⟨hp, hk⟩

/-- One more byte is set to NUL. -/
theorem zeroed_update (mem : Bytes) (p n : Nat) :
    zeroed (Function.update mem p 0) (p + 1) n = zeroed mem p (n + 1) := by
  funext k
  unfold zeroed
  rw [Function.update_apply]
  by_cases hk : k = p
  · rw [if_neg (by omega), if_pos hk, if_pos (by omega)]
  · rw [if_neg hk]
    exact if_congr (by omega) rfl rfl

variable {st : ShState} {p : Nat}

theorem reads_congr {mem mem' : Bytes} {text : List Byte} (hreads : Reads mem p text)
    (hsame : ∀ k, p ≤ k → k < p + text.length → mem' k = mem k) : Reads mem' p text := by
  intro i hi
  rw [hsame (p + i) (by omega) (by omega)]
  exact hreads i hi

theorem reads_append {mem : Bytes} {text text' : List Byte} :
    Reads mem p (text ++ text') ↔ Reads mem p text ∧ Reads mem (p + text.length) text' := by
  constructor
  · intro hreads
    refine ⟨fun i hi => ?_, fun i hi => ?_⟩
    · rw [hreads i (by rw [List.length_append]; omega), List.getElem_append_left hi]
    · rw [Nat.add_assoc, hreads (text.length + i) (by rw [List.length_append]; omega),
        List.getElem_append_right (Nat.le_add_right _ _)]
      simp
  · rintro ⟨hfirst, hsecond⟩ i hi
    by_cases hlt : i < text.length
    · rw [List.getElem_append_left hlt]
      exact hfirst i hlt
    · obtain ⟨j, rfl⟩ : ∃ j, i = text.length + j := ⟨i - text.length, by omega⟩
      rw [List.length_append] at hi
      rw [← Nat.add_assoc, hsecond j (by omega), List.getElem_append_right (Nat.le_add_right _ _)]
      simp

namespace Left

variable {text rest : List Byte} {c : Byte}

theorem head (h : Left st p (c :: text)) : st.mem p = c := h.reads 0 (Nat.succ_pos _)

theorem end_nul (h : Left st p []) : st.mem p = 0 := by
  have hfinish := h.finish
  rw [List.length_nil, Nat.add_zero] at hfinish
  rw [hfinish]
  exact h.nul

/-- Going on behind a part of the string, after that part has been changed. -/
theorem advance (h : Left st p (text ++ rest)) {mem : Bytes}
    (hsame : ∀ k, p + text.length ≤ k → mem k = st.mem k) :
    Left { st with mem } (p + text.length) rest := by
  have hfinish := h.finish
  rw [List.length_append] at hfinish
  refine ⟨Nat.le_add_right_of_le h.start_le, ?_, ?_, ?_⟩
  · exact reads_congr (reads_append.mp h.reads).2 fun k hk _ => hsame k hk
  · change p + text.length + rest.length = st.start + st.len
    omega
  · change mem (st.start + st.len) = 0
    rw [hsame _ (by omega)]
    exact h.nul

theorem load (h : Left st p text) {Q : Byte → ShState → Prop} (hQ : Q (st.mem p) st) :
    Ends never (load p) st Q := by
  have hstart := h.start_le
  have hfinish := h.finish
  rw [Sh.load, ends_bind, ends_get, ends_bind, ends_check (by omega), ends_pure]
  exact hQ

theorem store (h : Left st p (c :: text)) {b : Byte} {Q : PUnit → ShState → Prop}
    (hQ : Q ⟨⟩ { st with mem := Function.update st.mem p b }) : Ends never (store p b) st Q := by
  have hstart := h.start_le
  have hfinish := h.finish
  rw [List.length_cons] at hfinish
  rw [Sh.store, ends_bind, ends_get, ends_bind, ends_check (by omega), ends_modify]
  exact hQ

/-- The byte is set to NUL and the cursor goes on. -/
theorem advance_zero (h : Left st p (c :: text)) :
    Left { st with mem := Function.update st.mem p 0 } (p + 1) text := by
  have hsplit : Left st p ([c] ++ text) := h
  refine hsplit.advance fun k hk => ?_
  rw [List.length_singleton] at hk
  exact Function.update_of_ne (by omega) _ _

end Left

/-- The string goes on with none of these characters. -/
def StopsAt (set : List Byte) (rest : List Byte) : Prop := ∀ c ∈ rest.head?, c ∉ set

theorem skipWhite_spec {gap rest : List Byte} {fuel : Nat} (h : Left st p (gap ++ rest))
    (hgap : ∀ c ∈ gap, c ∈ WHITESPACE) (hstop : StopsAt WHITESPACE rest)
    (hfuel : gap.length < fuel) :
    Ends never (skipWhite fuel p) st fun s t =>
      s = p + gap.length ∧ t = { st with mem := zeroed st.mem p gap.length } := by
  induction fuel generalizing st p gap with
  | zero => exact absurd hfuel (Nat.not_lt_zero _)
  | succ fuel ih =>
      rw [skipWhite, ends_bind]
      apply h.load
      cases gap with
      | nil =>
          have hnot : st.mem p ∉ WHITESPACE := by
            cases rest with
            | nil =>
                rw [Left.end_nul h]
                decide
            | cons c rest =>
                rw [Left.head h]
                exact hstop c rfl
          rw [if_neg (fun hne => hne (strchr_eq_none.mpr hnot)), ends_pure]
          refine ⟨rfl, ?_⟩
          have hsame : zeroed st.mem p 0 = st.mem := by
            funext k
            exact zeroed_out (by omega)
          rw [List.length_nil, hsame]
      | cons c gap =>
          rw [List.forall_mem_cons] at hgap
          have hhead : st.mem p = c := Left.head h
          rw [if_pos (by rw [hhead]; exact fun heq => strchr_eq_none.mp heq hgap.1), ends_bind]
          apply Left.store h
          refine (ih (Left.advance_zero h) hgap.2 (Nat.lt_of_succ_lt_succ hfuel)).imp fun s t ht =>
            ?_
          refine ⟨by rw [ht.1, List.length_cons]; omega, ?_⟩
          rw [ht.2, List.length_cons, ← zeroed_update]

theorem scanWord_spec {text rest : List Byte} {fuel : Nat} (h : Left st p (text ++ rest))
    (hplain : ∀ c ∈ text, Token.Plain c) (hstop : ∀ c ∈ rest.head?, c ∈ WHITESPACE ++ SYMBOLS)
    (hfuel : text.length < fuel) :
    Ends never (scanWord fuel false p) st fun s t => s = p + text.length ∧ t = st := by
  induction fuel generalizing p text with
  | zero => exact absurd hfuel (Nat.not_lt_zero _)
  | succ fuel ih =>
      rw [scanWord, ends_bind]
      apply h.load
      cases text with
      | nil =>
          have hend : ¬ (st.mem p ≠ 0 ∧
              (false = true ∨ strchr (WHITESPACE ++ SYMBOLS) (st.mem p) = none)) := by
            rintro ⟨hnul, hflag | hnone⟩
            · cases hflag
            · cases rest with
              | nil => exact hnul (Left.end_nul h)
              | cons c rest =>
                  rw [Left.head h, strchr_eq_none] at hnone
                  exact hnone (hstop c rfl)
          rw [if_neg hend, ends_pure]
          exact ⟨rfl, rfl⟩
      | cons c text =>
          rw [List.forall_mem_cons] at hplain
          obtain ⟨hnul, hwhite, hquote, hsymbol⟩ := hplain.1
          have hhead : st.mem p = c := Left.head h
          have hin : c ∉ WHITESPACE ++ SYMBOLS := by
            rw [List.mem_append, not_or]
            exact ⟨hwhite, hsymbol⟩
          rw [hhead, if_pos ⟨hnul, Or.inr (strchr_eq_none.mpr hin)⟩, if_neg hquote]
          have hnext : Left st (p + 1) (text ++ rest) := by
            have hsplit : Left st p ([c] ++ (text ++ rest)) := h
            exact hsplit.advance fun _ _ => rfl
          refine (ih hnext hplain.2 (Nat.lt_of_succ_lt_succ hfuel)).imp fun s t ht => ?_
          exact ⟨by rw [ht.1, List.length_cons]; omega, ht.2⟩

/-! ## One call -/

theorem Token.Valid.nonempty {token : Token} (h : token.Valid) : token.text ≠ [] := by
  cases token with
  | word text => exact h.1
  | symbol c => exact List.cons_ne_nil c []

theorem symbols_plain {c : Byte} (hc : c ∈ SYMBOLS) : c ≠ 0 ∧ c ∉ WHITESPACE := by
  have hall : ∀ c ∈ SYMBOLS, c ≠ 0 ∧ c ∉ WHITESPACE := by decide
  exact hall c hc

/-- A token starts with neither a blank nor a NUL. -/
theorem Token.Valid.head {token : Token} (h : token.Valid) {c : Byte} {rest : List Byte}
    (htext : token.text = c :: rest) : c ≠ 0 ∧ c ∉ WHITESPACE := by
  cases token with
  | word text =>
      obtain rfl : text = c :: rest := htext
      have hplain := h.2 c List.mem_cons_self
      exact ⟨hplain.1, hplain.2.1⟩
  | symbol s =>
      obtain rfl : s = c := (List.cons.inj htext).1
      exact symbols_plain h

/-- The character that a call returns for a token. -/
def Token.code : Token → Byte
  | .word _ => WORD
  | .symbol c => c

/-- The bytes that a call overwrites from its start on: the blanks, and a symbol. -/
def Token.erased (gap : List Byte) : Token → Nat
  | .word _ => gap.length
  | .symbol _ => gap.length + 1

/-- The pointer to the rest of the string, `NULL` at its end. -/
def pointer (p : Nat) (rest : List Byte) : Option Nat := if rest = [] then none else some p

theorem pointer_eq {p : Nat} {rest : List Byte} (h : Left st p rest) (hnul : ∀ c ∈ rest, c ≠ 0) :
    (if st.mem p ≠ 0 then some p else none) = pointer p rest := by
  cases rest with
  | nil => rw [if_neg (fun hne => hne h.end_nul), pointer, if_pos rfl]
  | cons c rest =>
      rw [if_pos (by rw [h.head]; exact hnul c List.mem_cons_self), pointer,
        if_neg (List.cons_ne_nil c rest)]

/-- A call that finds a token. -/
theorem gettoken_spec {gap rest : List Byte} {token : Token} {fuel : Nat} {p2 : Option Nat}
    (h : Left st p (gap ++ token.text ++ rest)) (hgap : ∀ c ∈ gap, c ∈ WHITESPACE)
    (hvalid : token.Valid)
    (hstop : token.isWord = true → ∀ c ∈ rest.head?, c ∈ WHITESPACE ++ SYMBOLS)
    (hnul : ∀ c ∈ rest, c ≠ 0) (hfuel : gap.length + token.text.length < fuel) :
    Ends never (gettoken fuel (some p) p2) st fun r t =>
      r = (token.code, pointer (p + gap.length + token.text.length) rest, some (p + gap.length)) ∧
        t = { st with mem := zeroed st.mem p (token.erased gap) } := by
  rw [List.append_assoc] at h
  obtain ⟨c, text, htext⟩ := List.exists_cons_of_ne_nil hvalid.nonempty
  have hhead := hvalid.head htext
  have hwhite : StopsAt WHITESPACE (token.text ++ rest) := by
    intro b hb
    rw [htext, List.cons_append, List.head?_cons, Option.mem_some_iff] at hb
    exact hb ▸ hhead.2
  rw [gettoken, ends_bind]
  refine (skipWhite_spec h hgap hwhite (by omega)).imp ?_
  rintro s t ⟨rfl, ht⟩
  have hleft : Left t (p + gap.length) (token.text ++ rest) := by
    rw [ht]
    exact h.advance fun k hk => zeroed_out (Or.inr hk)
  have hfirst : t.mem (p + gap.length) = c := by
    rw [htext] at hleft
    exact hleft.head
  rw [ends_bind]
  apply hleft.load
  rw [hfirst, if_neg hhead.1]
  cases token with
  | word word =>
      obtain rfl : word = c :: text := htext
      have hplain := hvalid.2 c List.mem_cons_self
      rw [if_neg (fun hne => hne (strchr_eq_none.mpr hplain.2.2.2)), ends_bind]
      have hrounds : gap.length + (c :: text).length < fuel := hfuel
      refine (scanWord_spec hleft hvalid.2 (hstop rfl) (by omega)).imp ?_
      rintro s u ⟨rfl, rfl⟩
      have hrest : Left u (p + gap.length + (c :: text).length) rest := hleft.advance fun _ _ => rfl
      rw [ends_bind]
      apply hrest.load
      rw [ends_pure]
      exact ⟨congrArg (fun q => (WORD, q, some (p + gap.length))) (pointer_eq hrest hnul), ht⟩
  | symbol symbol =>
      obtain ⟨rfl, rfl⟩ : symbol = c ∧ [] = text := List.cons.inj htext
      have hin : strchr SYMBOLS symbol ≠ none := fun hnone => strchr_eq_none.mp hnone hvalid
      rw [if_pos hin, ends_bind]
      apply Left.store hleft
      have hrest : Left _ (p + gap.length + 1) rest := Left.advance_zero hleft
      rw [ends_bind]
      apply hrest.load
      rw [ends_pure]
      refine ⟨congrArg (fun q => (symbol, q, some (p + gap.length))) (pointer_eq hrest hnul), ?_⟩
      rw [ht]
      congr 1
      funext k
      rw [Function.update_apply, Token.erased]
      unfold zeroed
      split
      · rw [if_pos (by omega)]
      · exact if_congr (by omega) rfl rfl

/-- A call that finds nothing but blanks. -/
theorem gettoken_blank {gap : List Byte} {fuel : Nat} {p2 : Option Nat} (h : Left st p gap)
    (hgap : ∀ c ∈ gap, c ∈ WHITESPACE) (hfuel : gap.length < fuel) :
    Ends never (gettoken fuel (some p) p2) st fun r t =>
      r.1 = 0 ∧ t = { st with mem := zeroed st.mem p gap.length } := by
  have hall : Left st p (gap ++ []) := by rwa [List.append_nil]
  rw [gettoken, ends_bind]
  refine (skipWhite_spec hall hgap (fun c hc => by cases hc) hfuel).imp ?_
  rintro s t ⟨rfl, ht⟩
  have hend : Left t (p + gap.length) [] := by
    rw [ht]
    exact hall.advance fun k hk => zeroed_out (Or.inr hk)
  rw [ends_bind]
  apply hend.load
  rw [if_pos hend.end_nul, ends_pure]
  exact ⟨rfl, ht⟩

/-! ## All calls -/

theorem whitespace_ne_zero {c : Byte} (hc : c ∈ WHITESPACE) : c ≠ 0 := by
  have hall : ∀ c ∈ WHITESPACE, c ≠ 0 := by decide
  exact hall c hc

theorem Token.Valid.text_ne_zero {token : Token} (h : token.Valid) : ∀ c ∈ token.text, c ≠ 0 := by
  intro c hc
  cases token with
  | word text => exact (h.2 c hc).1
  | symbol s =>
      obtain rfl := List.mem_singleton.mp hc
      exact (symbols_plain h).1

/-- There is no NUL in a string that shows tokens. -/
theorem Renders.ne_zero {afterWord : Bool} {tokens : List Token} {text : List Byte}
    (h : Renders afterWord tokens text) (hvalid : ∀ token ∈ tokens, token.Valid) :
    ∀ c ∈ text, c ≠ 0 := by
  induction tokens generalizing afterWord text with
  | nil => exact fun c hc => whitespace_ne_zero (h c hc)
  | cons token tokens ih =>
      obtain ⟨gap, rest, rfl, hgap, _, hrest⟩ := h
      rw [List.forall_mem_cons] at hvalid
      intro c hc
      rcases List.mem_append.mp hc with hc | hc
      · rcases List.mem_append.mp hc with hc | hc
        · exact whitespace_ne_zero (hgap c hc)
        · exact hvalid.1.text_ne_zero c hc
      · exact ih hrest hvalid.2 c hc

/-- What follows a word is a blank or a symbol. -/
theorem Renders.head {tokens : List Token} {text : List Byte} (h : Renders true tokens text)
    (hvalid : ∀ token ∈ tokens, token.Valid) : ∀ c ∈ text.head?, c ∈ WHITESPACE ++ SYMBOLS := by
  intro c hc
  rw [List.mem_append]
  cases tokens with
  | nil => exact Or.inl (h c (List.mem_of_head? hc))
  | cons token tokens =>
      obtain ⟨gap, rest, rfl, hgap, hsep, _⟩ := h
      cases gap with
      | cons b gap =>
          obtain rfl : b = c := Option.some.inj hc
          exact Or.inl (hgap b List.mem_cons_self)
      | nil =>
          -- without a blank the token is a symbol
          cases token with
          | word text => exact absurd rfl (hsep rfl rfl)
          | symbol s =>
              obtain rfl : s = c := Option.some.inj hc
              exact Or.inr (hvalid _ List.mem_cons_self)

theorem Token.Valid.code_ne_zero {token : Token} (h : token.Valid) : token.code ≠ 0 := by
  have hword : WORD ≠ 0 := by decide
  cases token with
  | word text => exact hword
  | symbol c => exact (symbols_plain h).1

/-- The calls hand out the tokens. They write nothing before the cursor, and have ended
a word that stands right before it. -/
theorem gettokens_spec {afterWord : Bool} {tokens : List Token} {text : List Byte}
    {fuel calls : Nat}
    {p1 p2 : Option Nat} (h : Left st p text) (hp1 : p1 = some p ∨ p1 = none ∧ text = [])
    (hvalid : ∀ token ∈ tokens, token.Valid) (hrenders : Renders afterWord tokens text)
    (hfuel : text.length < fuel) (hcalls : tokens.length < calls) :
    Ends never (gettokens fuel calls p1 p2) st fun out u =>
      List.Forall₂ (Returned u.mem) tokens out ∧ (∀ k < p, u.mem k = st.mem k) ∧
        (afterWord = true → u.mem p = 0) := by
  induction tokens generalizing afterWord text calls p1 p2 st p with
  | nil =>
      obtain ⟨calls, rfl⟩ : ∃ n, calls = n + 1 :=
        ⟨calls - 1, by rw [List.length_nil] at hcalls; omega⟩
      rw [gettokens, ends_bind]
      -- only blanks are left, or nothing at all
      rcases hp1 with rfl | ⟨rfl, rfl⟩
      · refine (gettoken_blank h hrenders hfuel).imp ?_
        rintro ⟨token, p1, p2⟩ t ⟨rfl, rfl⟩
        simp only
        rw [if_pos trivial, ends_pure]
        refine ⟨.nil, fun k hk => zeroed_out (Or.inl hk), fun _ => ?_⟩
        cases text with
        | nil => exact (zeroed_out (Or.inr (Nat.le_refl p))).trans h.end_nul
        | cons c text => exact zeroed_in (Nat.le_refl p) (by rw [List.length_cons]; omega)
      · rw [gettoken, ends_pure]
        simp only
        rw [if_pos trivial, ends_pure]
        exact ⟨.nil, fun _ _ => rfl, fun _ => h.end_nul⟩
  | cons token tokens ih =>
      obtain ⟨calls, rfl⟩ : ∃ n, calls = n + 1 := ⟨calls - 1, by omega⟩
      obtain ⟨gap, rest, rfl, hgap, hsep, hrest⟩ := hrenders
      rw [List.forall_mem_cons] at hvalid
      have hnonempty := hvalid.1.nonempty
      have hlength : 0 < token.text.length := List.length_pos_of_ne_nil hnonempty
      have hsome : p1 = some p := by
        refine hp1.resolve_right fun hnone => hnonempty ?_
        have hempty := hnone.2
        rw [List.append_eq_nil_iff, List.append_eq_nil_iff] at hempty
        exact hempty.1.2
      have hfinish := h.finish
      simp only [List.length_append] at hfuel hfinish
      rw [hsome, gettokens, ends_bind]
      refine (gettoken_spec h hgap hvalid.1 (fun hword => ?_) (hrest.ne_zero hvalid.2)
        (by omega)).imp ?_
      · rw [hword] at hrest
        exact hrest.head hvalid.2
      rintro _ t ⟨rfl, ht⟩
      simp only
      rw [if_neg hvalid.1.code_ne_zero, ends_bind]
      have herased : token.erased gap ≤ gap.length + token.text.length := by
        cases token with
        | word text => exact Nat.le_add_right _ _
        | symbol c => exact Nat.le_refl _
      have hleft : Left t (p + gap.length + token.text.length) rest := by
        have hsplit :=
          @Left.advance st p (gap ++ token.text) rest h (zeroed st.mem p (token.erased gap))
          fun k hk => zeroed_out (by rw [List.length_append] at hk; omega)
        rw [List.length_append, ← Nat.add_assoc] at hsplit
        rw [ht]
        exact hsplit
      have hpointer : pointer (p + gap.length + token.text.length) rest =
            some (p + gap.length + token.text.length) ∨
          pointer (p + gap.length + token.text.length) rest = none ∧ rest = [] := by
        unfold pointer
        split
        · next hnil => exact Or.inr ⟨rfl, hnil⟩
        · exact Or.inl rfl
      refine (ih hleft hpointer hvalid.2 hrest (by omega)
        (by rw [List.length_cons] at hcalls; omega)).imp fun out u hu => ?_
      obtain ⟨hout, hkept, hended⟩ := hu
      rw [ends_pure]
      have hmem : t.mem = zeroed st.mem p (token.erased gap) := by rw [ht]
      refine ⟨.cons ?_ hout, fun k hk => ?_, fun hafter => ?_⟩
      · -- the token that this call found
        cases token with
        | symbol c => rfl
        | word text =>
            refine ⟨rfl, p + gap.length, rfl, ?_, hended rfl⟩
            have hreads : Reads st.mem p (gap ++ text) := (reads_append.mp h.reads).1
            refine reads_congr (reads_append.mp hreads).2 fun k hk hk' => ?_
            rw [hkept k hk', hmem]
            exact zeroed_out (Or.inr hk)
      · rw [hkept k (by omega), hmem]
        exact zeroed_out (Or.inl hk)
      · -- the word before the cursor has been ended by a blank or by a symbol
        rw [hkept p (by omega), hmem]
        apply zeroed_in (Nat.le_refl p)
        cases token with
        | symbol c => exact Nat.lt_add_of_pos_right (Nat.succ_pos _)
        | word text =>
            have hgap := List.length_pos_of_ne_nil (hsep hafter rfl)
            exact Nat.lt_add_of_pos_right hgap

/-- A string that shows some tokens is taken apart into these tokens, without an access
outside of the string, and in the end every pointer to a word reads as the word. -/
theorem gettokens_renders {tokens : List Token} {text : List Byte}
    (hvalid : ∀ token ∈ tokens, token.Valid)
    (hrenders : Renders false tokens text) (hreads : Reads st.mem st.start text)
    (hlen : st.len = text.length) (hnul : st.mem (st.start + st.len) = 0) (p2 : Option Nat) :
    ∀ fuel calls, text.length < fuel → tokens.length < calls →
      ∃ out u, gettokens fuel calls (some st.start) p2 st = .ok (out, u) ∧
        List.Forall₂ (Returned u.mem) tokens out := by
  intro fuel calls hfuel hcalls
  have hleft : Left st st.start text := ⟨Nat.le_refl _, hreads, by rw [hlen], hnul⟩
  obtain ⟨out, u, hrun, hout, _⟩ :=
    (@gettokens_spec st st.start false tokens text fuel calls _ p2 hleft
      (Or.inl rfl) hvalid hrenders hfuel hcalls).ok
  exact ⟨out, u, hrun, hout⟩

/-- The memory that holds a string at `start`, and ones elsewhere. -/
def holding (start : Nat) (text : List Byte) : ShState :=
  ⟨fun k => if k = start + text.length then 0 else if start ≤ k then text.getD (k - start) 1 else 1,
    start, text.length⟩

theorem holding_reads (start : Nat) (text : List Byte) :
    Reads (holding start text).mem start text := by
  intro i hi
  have hne : i ≠ text.length := Nat.ne_of_lt hi
  simp [holding, hne, hi]

/-- The line `ls>a `. -/
theorem gettokens_renders_line : ∃ out u,
    gettokens 6 4 (some 100) none (holding 100 [0x6c, 0x73, 0x3e, 0x61, 0x20]) = .ok (out, u) ∧
      List.Forall₂ (Returned u.mem) [.word [0x6c, 0x73], .symbol 0x3e, .word [0x61]] out := by
  have hvalid : ∀ token ∈ [.word [0x6c, 0x73], .symbol 0x3e, .word [0x61]], Token.Valid token := by
    simp only [List.forall_mem_cons]
    refine ⟨⟨by decide, ?_⟩, ?_, ⟨by decide, ?_⟩, by simp⟩
    · simp [Token.Plain, WHITESPACE, SYMBOLS, QUOTE]
    · simp [Token.Valid, SYMBOLS]
    · simp [Token.Plain, WHITESPACE, SYMBOLS, QUOTE]
  have hrenders : Renders false [.word [0x6c, 0x73], .symbol 0x3e, .word [0x61]]
      [0x6c, 0x73, 0x3e, 0x61, 0x20] :=
    ⟨[], [0x3e, 0x61, 0x20], rfl, by simp, by simp, [], [0x61, 0x20],
      rfl, by simp, by simp [Token.isWord], [], [0x20], rfl, by simp, by simp [Token.isWord],
      by simp [Renders, WHITESPACE]⟩
  exact @gettokens_renders (holding 100 [0x6c, 0x73, 0x3e, 0x61, 0x20]) _ _ hvalid hrenders
    (holding_reads _ _) rfl (by decide) none 6 4 (by decide) (by decide)

end Ucore.Sh
