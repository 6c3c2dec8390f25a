import Mathlib.Logic.Function.Basic
import Ucore.Foundation.Extents
import Ucore.Foundation.Machine

/-!
# The SLOB allocator

`slob_alloc` and `slob_free` of `kern/mm/kmalloc.c` in lab 8. Blocks are named by the
addresses of their headers. No caller asks for an alignment, so `align` is 0. The loops
get a bound on their rounds.
-/

namespace Ucore.Slob

open Machine

def PAGE_SIZE : Nat := 4096

/-- `sizeof(slob_t)`. -/
def SLOB_UNIT : Nat := 16

def SLOB_UNITS (size : Nat) : Nat := (size + SLOB_UNIT - 1) / SLOB_UNIT

/-- The headers of the blocks, and `slobfree`. A block is smaller than the memory of the
machine, which an `int` can count. -/
structure SlobState where
  units : Nat → Nat
  next : Nat → Nat
  slobfree : Nat
  /-- What `__slob_get_free_page` has returned. -/
  pages : List Nat

/-- Why the code does not return: a loop takes more rounds than it is given, or the
assertion of `slob_alloc` fails. -/
inductive Stop
  | runaway
  | assertion
  deriving DecidableEq, Repr

abbrev SlobM := Machine Stop SlobState

/-- `b + units`, for a `slob_t *`. -/
def plus (b units : Nat) : Nat := b + SLOB_UNIT * units

def setUnits (b units : Nat) : SlobM PUnit :=
  modify fun s => { s with units := Function.update s.units b units }

def setNext (b next : Nat) : SlobM PUnit :=
  modify fun s => { s with next := Function.update s.next b next }

def setSlobfree (b : Nat) : SlobM PUnit := modify fun s => { s with slobfree := b }

/-! ## `slob_free` -/

/-- The loop of `slob_free`, which finds the reinsertion point. -/
def findPoint (b : Nat) : Nat → Nat → SlobM Nat
  | 0, _ => throw .runaway
  | fuel + 1, cur => do
      let s ← get
      if cur < b ∧ b < s.next cur then return cur
      else if s.next cur ≤ cur ∧ (cur < b ∨ b < s.next cur) then return cur
      else findPoint b fuel (s.next cur)

/-- `slob_free` gives the block `b` the block behind `cur`. -/
def joinNext (b cur : Nat) : SlobM PUnit := do
  let s ← get
  if plus b (s.units b) = s.next cur then
    setUnits b (s.units b + s.units (s.next cur))
    setNext b (s.next (s.next cur))
  else setNext b (s.next cur)

/-- `slob_free` gives the block `cur` the block `b`. -/
def joinPrev (b cur : Nat) : SlobM PUnit := do
  let s ← get
  if plus cur (s.units cur) = b then
    setUnits cur (s.units cur + s.units b)
    setNext cur (s.next b)
  else setNext cur b

/-- `slob_free` once `b->units` is set. -/
def insertBlock (fuel b : Nat) : SlobM PUnit := do
  let cur ← findPoint b fuel (← get).slobfree
  joinNext b cur
  joinPrev b cur
  setSlobfree cur

def slobFree (fuel block size : Nat) : SlobM PUnit := do
  if block = 0 then return ⟨⟩
  else
    if size ≠ 0 then setUnits block (SLOB_UNITS size)
    insertBlock fuel block

/-! ## `slob_alloc` -/

/-- `slob_alloc` takes units from the block `cur`, which has enough. -/
def takeUnits (units prev cur : Nat) : SlobM Nat := do
  let s ← get
  if s.units cur = units then setNext prev (s.next cur)
  else
    setNext prev (plus cur units)
    let s ← get
    setUnits (s.next prev) (s.units cur - units)
    let s ← get
    setNext (s.next prev) (s.next cur)
    setUnits cur units
  setSlobfree prev
  return cur

/-- The loop of `slob_alloc`. `answers` is what the coming calls of `alloc_pages` return. -/
def allocFrom (size : Nat) : Nat → List (Option Nat) → Nat → Nat → SlobM (Option Nat)
  | 0, _, _, _ => throw .runaway
  | fuel + 1, answers, prev, cur => do
      let s ← get
      if SLOB_UNITS size ≤ s.units cur then
        let b ← takeUnits (SLOB_UNITS size) prev cur
        return some b
      else if cur = s.slobfree then
        if size = PAGE_SIZE then return none
        else match answers with
          | some page :: answers => do
              modify fun s => { s with pages := page :: s.pages }
              slobFree fuel page PAGE_SIZE
              let s ← get
              allocFrom size fuel answers s.slobfree (s.next s.slobfree)
          | _ => return none
      else allocFrom size fuel answers cur (s.next cur)

def slobAlloc (fuel size : Nat) (answers : List (Option Nat)) : SlobM (Option Nat) := do
  check .assertion (size + SLOB_UNIT < PAGE_SIZE)
  let s ← get
  allocFrom size fuel answers s.slobfree (s.next s.slobfree)

/-! ## The callers -/

/-- The allocator and the blocks that callers have. -/
structure Heap where
  slob : SlobState
  live : List Extent

/-- What happens next; `fuel` bounds the rounds of the loops. -/
inductive Action
  | alloc (fuel size : Nat) (answers : List (Option Nat))
  | free (fuel block size : Nat)
  /-- A caller writes to a block of its own. -/
  | write (addr units next : Nat)
  deriving DecidableEq, Repr

/-- A page that `__get_free_pages` may return: aligned, not in use, and not next to the arena, which
is in the data of the kernel. -/
def Fresh (arena : Nat) (s : SlobState) (page : Nat) : Prop :=
  page % PAGE_SIZE = 0 ∧ 0 < page ∧ page ∉ s.pages ∧
    (page + PAGE_SIZE < arena ∨ arena + SLOB_UNIT < page)

/-- Sizes are those that `kmalloc` asks for. A block is freed with its size, or with 0 and
a header that its owner has left alone. -/
def Permitted (arena : Nat) (h : Heap) : Action → Prop
  | .alloc _ size answers => SLOB_UNIT < size ∧ size + SLOB_UNIT < PAGE_SIZE ∧
      (answers.filterMap id).Nodup ∧ ∀ page ∈ answers.filterMap id, Fresh arena h.slob page
  | .free _ block size => ∃ x ∈ h.live, x.start = block ∧
      if size = 0 then h.slob.units block = x.units else SLOB_UNITS size = x.units
  | .write addr _ _ => ∃ x ∈ h.live, ∃ k < x.units, addr = plus x.start k

instance (arena : Nat) (s : SlobState) (page : Nat) : Decidable (Fresh arena s page) :=
  inferInstanceAs (Decidable (_ ∧ _ ∧ _ ∧ _))

instance (arena : Nat) (h : Heap) : DecidablePred (Permitted arena h)
  | .alloc .. => inferInstanceAs (Decidable (_ ∧ _ ∧ _ ∧ _))
  | .free _ block size => inferInstanceAs (Decidable (∃ x ∈ h.live, x.start = block ∧
      if size = 0 then h.slob.units block = x.units else SLOB_UNITS size = x.units))
  | .write addr _ _ =>
      inferInstanceAs (Decidable (∃ x ∈ h.live, ∃ k < x.units, addr = plus x.start k))

def step (h : Heap) : Action → Option Heap
  | .alloc fuel size answers =>
      match slobAlloc fuel size answers h.slob with
      | .ok (some b, slob) => some ⟨slob, ⟨b, SLOB_UNITS size⟩ :: h.live⟩
      | .ok (none, slob) => some ⟨slob, h.live⟩
      | .error _ => none
  | .free fuel block size =>
      match slobFree fuel block size h.slob with
      | .ok (_, slob) => some ⟨slob, h.live.filter fun x => x.start ≠ block⟩
      | .error _ => none
  | .write addr units next => some { h with slob := { h.slob with
      units := Function.update h.slob.units addr units
      next := Function.update h.slob.next addr next } }

/-- The static initialisers: the arena is the only block. -/
def initial (arena : Nat) (units next : Nat → Nat) : Heap where
  slob := {
    units := Function.update units arena 1
    next := Function.update next arena arena
    slobfree := arena
    pages := [] }
  live := []

end Ucore.Slob
