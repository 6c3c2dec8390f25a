import Ucore.Foundation.Runs
import Ucore.Slob.Alloc

/-!
# kmalloc and kfree

The rest of `kern/mm/kmalloc.c` of lab 8. A small request gets units of the SLOB
allocator, the first one for the header. A large one gets a run of pages, with an entry
`bigblock_t` that the SLOB allocator provides.
-/

namespace Ucore.Slob

open Machine Extent

/-- `sizeof(bigblock_t)`. -/
def BIGBLOCK_SIZE : Nat := 24

/-- The allocator, the list `bigblocks`, and the runs of pages that `alloc_pages` has
returned for it and `free_pages` has not got back. -/
structure KmallocState where
  slob : SlobState
  bigblocks : Nat
  runs : List Extent

abbrev KmallocM := Machine Stop KmallocState

def onSlob {α : Type} (x : SlobM α) : KmallocM α := fun s =>
  match x s.slob with
  | .ok (a, slob) => .ok (a, { s with slob })
  | .error e => .error e

/-! ## The fields of a `bigblock_t`

It takes two units. Its fields are at the places where headers of these units have
`units` and `next`, and then `units` again. -/

def bigOrder (s : KmallocState) (bb : Nat) : Nat := s.slob.units bb

def bigPages (s : KmallocState) (bb : Nat) : Nat := s.slob.next bb

def bigNext (s : KmallocState) (bb : Nat) : Nat := s.slob.units (plus bb 1)

def setBigOrder (bb order : Nat) : KmallocM PUnit := onSlob (setUnits bb order)

def setBigPages (bb pages : Nat) : KmallocM PUnit := onSlob (setNext bb pages)

def setBigNext (bb next : Nat) : KmallocM PUnit := onSlob (setUnits (plus bb 1) next)

def setBigblocks (bb : Nat) : KmallocM PUnit := modify fun s => { s with bigblocks := bb }

/-! ## `kmalloc` -/

/-- The `int` that is made of a `size_t`. -/
def intOfSize (size : Nat) : Int := (BitVec.ofNat 32 size).toInt

/-- The loop of `find_order`. -/
def findOrderLoop (order : Nat) (size : Int) : Nat :=
  if 4096 < size then findOrderLoop (order + 1) (size >>> (1 : Nat)) else order
termination_by size.toNat
decreasing_by
  rw [Int.shiftRight_eq_div_pow]
  omega

def findOrder (size : Int) : Nat := findOrderLoop 0 size

/-- `__slob_get_free_pages`, with what `alloc_pages` returns. -/
def slobGetFreePages (run : Option Nat) (order : Nat) : KmallocM Nat :=
  match run with
  | none => return 0
  | some pages => do
      modify fun s => { s with runs := ⟨pages, 2 ^ order⟩ :: s.runs }
      return pages

def slobFreePages (kva order : Nat) : KmallocM PUnit :=
  modify fun s => { s with runs := s.runs.filter (· ≠ ⟨kva, 2 ^ order⟩) }

/-- `kmalloc` and `__kmalloc`. `answers` are the pages that `alloc_pages` returns to
`slob_alloc`, and `run` is what it returns for a large block. -/
def kmalloc (fuel size : Nat) (answers : List (Option Nat)) (run : Option Nat) : KmallocM Nat := do
  if size < PAGE_SIZE - SLOB_UNIT then
    match ← onSlob (slobAlloc fuel (size + SLOB_UNIT) answers) with
    | some m => return plus m 1
    | none => return 0
  else
    match ← onSlob (slobAlloc fuel BIGBLOCK_SIZE answers) with
    | none => return 0
    | some bb => do
        setBigOrder bb (findOrder (intOfSize size))
        let pages ← slobGetFreePages run (bigOrder (← get) bb)
        setBigPages bb pages
        if pages ≠ 0 then do
          setBigNext bb (← get).bigblocks
          setBigblocks bb
          return pages
        else do
          onSlob (slobFree fuel bb BIGBLOCK_SIZE)
          return 0

/-! ## `kfree` -/

/-- The loop of `kfree`. `last` points to `bigblocks`, or to the field `next` of an entry. -/
def findBig (block : Nat) : Nat → Option Nat → Nat → KmallocM (Option (Option Nat × Nat))
  | 0, _, _ => throw .runaway
  | fuel + 1, last, bb => do
      if bb = 0 then return none
      else
        let s ← get
        if bigPages s bb = block then return some (last, bb)
        else findBig block fuel (some bb) (bigNext s bb)

def setLast (last : Option Nat) (bb : Nat) : KmallocM PUnit :=
  match last with
  | none => setBigblocks bb
  | some b => setBigNext b bb

/-- The entry of a block, if its address is that of a page. -/
def searchBig (fuel block : Nat) : KmallocM (Option (Option Nat × Nat)) := do
  if block % PAGE_SIZE = 0 then findBig block fuel none (← get).bigblocks else return none

def kfree (fuel block : Nat) : KmallocM PUnit := do
  if block = 0 then return ⟨⟩
  else
    match ← searchBig fuel block with
    | some (last, bb) => do
        setLast last (bigNext (← get) bb)
        slobFreePages block (bigOrder (← get) bb)
        onSlob (slobFree fuel bb BIGBLOCK_SIZE)
    | none => onSlob (slobFree fuel (block - SLOB_UNIT) 0)

/-! ## The callers -/

/-- A large block that a caller has. -/
structure Big where
  bb : Nat
  pages : Nat
  order : Nat
  deriving DecidableEq, Repr

/-- The units of the entry. -/
def Big.entry (b : Big) : Extent := ⟨b.bb, SLOB_UNITS BIGBLOCK_SIZE⟩

def Big.run (b : Big) : Extent := ⟨b.pages, 2 ^ b.order⟩

/-- The allocator and the blocks that callers have; a small one with its header. -/
structure Kmem where
  state : KmallocState
  small : List Extent
  big : List Big

/-- What happens next; `fuel` bounds the rounds of the loops. -/
inductive Call
  | kmalloc (fuel size : Nat) (answers : List (Option Nat)) (run : Option Nat)
  | kfree (fuel block : Nat)
  /-- A caller writes to a block of its own. -/
  | write (addr units next : Nat)
  deriving DecidableEq, Repr

/-- Pages in a row that the SLOB allocator does not have, away from the arena. -/
def Outside (arena : Nat) (pages : List Nat) (x : Extent) : Prop :=
  x.start % PAGE_SIZE = 0 ∧ 0 < x.start ∧ (x.stop PAGE_SIZE < arena ∨ arena + SLOB_UNIT < x.start) ∧
    ∀ page ∈ pages, Apart PAGE_SIZE ⟨page, 1⟩ x

/-- Pages in a row that are not in use. -/
def FreshRun (arena : Nat) (s : KmallocState) (x : Extent) : Prop :=
  Outside arena s.slob.pages x ∧ ∀ y ∈ s.runs, Apart PAGE_SIZE y x

/-- `alloc_pages` returns pages that are not in use. Callers free blocks that they have,
and write to them only, and not to the header. -/
def Allowed (arena : Nat) (h : Kmem) : Call → Prop
  | .kmalloc _ size answers run =>
      (∀ page ∈ answers.filterMap id, FreshRun arena h.state ⟨page, 1⟩) ∧
        ∀ pages ∈ run, FreshRun arena h.state ⟨pages, 2 ^ findOrder (intOfSize size)⟩ ∧
          ∀ page ∈ answers.filterMap id,
            Apart PAGE_SIZE ⟨page, 1⟩ ⟨pages, 2 ^ findOrder (intOfSize size)⟩
  | .kfree _ block =>
      block = 0 ∨ (∃ x ∈ h.small, plus x.start 1 = block) ∨ ∃ b ∈ h.big, b.pages = block
  | .write addr _ _ => (∃ x ∈ h.small, ∃ k < x.units, 0 < k ∧ addr = plus x.start k) ∨
      ∃ b ∈ h.big, Mem PAGE_SIZE addr b.run

/-- A block of no bytes, of which there is the header only, is not the arena when it is
handed out, and when it is freed no large block has its address. -/
def Spares (arena : Nat) (h : Kmem) : Call → Prop
  | .kmalloc _ size _ _ => size = 0 → h.state.slob.next h.state.slob.slobfree ≠ arena
  | .kfree _ block =>
      ∀ x ∈ h.small, plus x.start 1 = block → x.units = 1 → ∀ b ∈ h.big, b.pages ≠ block
  | .write .. => True

/-- The block that `kmalloc` has returned joins those of the callers. -/
def Kmem.give (h : Kmem) (size block : Nat) (t : KmallocState) : Kmem :=
  if block = 0 then { h with state := t }
  else if size < PAGE_SIZE - SLOB_UNIT then
    { h with
      state := t
      small := ⟨block - SLOB_UNIT, t.slob.units (block - SLOB_UNIT)⟩ :: h.small }
  else
    { h with
      state := t
      big := ⟨t.bigblocks, block, bigOrder t t.bigblocks⟩ :: h.big }

/-- The block leaves those of the callers. -/
def Kmem.drop (h : Kmem) (block : Nat) (t : KmallocState) : Kmem where
  state := t
  small := h.small.filter fun x => plus x.start 1 ≠ block
  big := h.big.filter fun b => b.pages ≠ block

def Kmem.step (h : Kmem) : Call → Option Kmem
  | .kmalloc fuel size answers run =>
      match kmalloc fuel size answers run h.state with
      | .ok (block, t) => some (h.give size block t)
      | .error _ => none
  | .kfree fuel block =>
      match kfree fuel block h.state with
      | .ok (_, t) => some (h.drop block t)
      | .error _ => none
  | .write addr units next => some { h with state := { h.state with slob := { h.state.slob with
      units := Function.update h.state.slob.units addr units
      next := Function.update h.state.slob.next addr next } } }

/-- The static initialisers. -/
def Kmem.initial (arena : Nat) (units next : Nat → Nat) : Kmem where
  state := {
    slob := (Slob.initial arena units next).slob
    bigblocks := 0
    runs := [] }
  small := []
  big := []

end Ucore.Slob
