import Mathlib.Algebra.BigOperators.Group.Finset.Basic
import Mathlib.Order.Interval.Finset.Nat
import Ucore.Foundation.Machine
import Ucore.Pmm.FreeArea

/-!
# The buddy manager

`kern/mm/buddy_pmm.c` of lab 2. There is a free list for each order, with a counter of
its own. The recursions over the orders stop at `MAX_ORDER`; the loop over a list gets a
bound on its rounds.
-/

namespace Ucore.Pmm.Buddy

open Machine

def MAX_ORDER : Nat := 11

/-- A `list_entry_t *`: `&free_list(i)`, or `&(page->page_link)`. -/
inductive Entry
  | freeList (order : Nat)
  | pageLink (page : Nat)
  deriving DecidableEq, Repr

/-- Why the code does not return in a state of the model: an assertion fails, a loop takes
more rounds than it is given, a list above the last order is used, `split_page` splits a
list header, or another function goes on with a header as a block. -/
inductive Stop
  | assertion
  | runaway
  | outOfRange
  | sentinel
  | header
  deriving DecidableEq, Repr

/-- `free_area` and the page descriptors. -/
structure FreeAreas where
  page : Nat → Page
  link : Links Entry
  nrFree : Nat → Nat

abbrev BuddyM := Machine Stop FreeAreas

/-- What `le2page` makes of a header. `pages` begins behind the kernel, in which the headers
lie, so this is an address in front of it: by how many pages, if that is a whole number.
For the first header we also keep what its field `property` reads. For the others this
field lies over the counter of the order below. -/
structure Headers where
  before : Nat → Option Nat
  property : Nat

variable (headers : Headers)

def setPage (p : Nat) (f : Page → Page) : BuddyM PUnit :=
  modify fun s => { s with page := Function.update s.page p (f (s.page p)) }

def setLink (f : Links Entry → Links Entry) : BuddyM PUnit :=
  modify fun s => { s with link := f s.link }

def setNrFree (order n : Nat) : BuddyM PUnit :=
  modify fun s => { s with nrFree := Function.update s.nrFree order n }

/-- `p + p->property == base`, for the page `p` that `le2page` makes of a header. -/
def headerEnds (s : FreeAreas) (order base : Nat) : Bool :=
  match headers.before order with
  | none => false
  | some k => (if order = 0 then headers.property else s.nrFree (order - 1)) == k + base

/-- `base < page`, for the page that `le2page` makes of an entry. All headers lie in front
of the pages. -/
def Entry.isAfter (base : Nat) : Entry → Bool
  | .freeList _ => false
  | .pageLink page => base < page

/-! ## Initialising -/

def buddySystemInit (s : FreeAreas) : FreeAreas where
  page := s.page
  link := s.link.listInitAll ((List.range MAX_ORDER).map .freeList)
  nrFree := fun i => if i < MAX_ORDER then 0 else s.nrFree i

/-- The loop of `buddy_system_init_memmap` over the pages. -/
def initPages : Nat → Nat → BuddyM PUnit
  | _, 0 => return ⟨⟩
  | p, n + 1 => do
      let s ← get
      check .assertion ((s.page p).reserved = true)
      setPage p fun _ => ⟨0, 0#64, 0⟩
      initPages (p + 1) n

/-- The inner loop: the order and the size of the next block. -/
def shrink (currSize : Nat) : Nat → Nat → Nat × Nat
  | 0, orderSize => (0, orderSize)
  | order + 1, orderSize =>
      if currSize < orderSize then shrink currSize order (orderSize >>> 1)
      else (order + 1, orderSize)

/-- The loop that links the blocks. The page pointer advances by the size of the next
block. -/
def initLoop : Nat → Nat → Nat → Nat → Nat → BuddyM PUnit
  | 0, _, _, _, _ => throw .runaway
  | fuel + 1, p, currSize, order, orderSize => do
      if currSize = 0 then return ⟨⟩
      else do
        setPage p fun page => page.setProperty orderSize
        setPage p Page.setHead
        let s ← get
        setNrFree order (uint (s.nrFree order + 1))
        setLink fun l => l.listAddBefore (.freeList order) (.pageLink p)
        let currSize := (currSize + (2 ^ 64 - orderSize)) % 2 ^ 64
        let next := shrink currSize order orderSize
        initLoop fuel (p + next.2) currSize next.1 next.2

def buddySystemInitMemmap (fuel base n : Nat) : BuddyM PUnit := do
  check .assertion (0 < n)
  initPages base n
  initLoop fuel base n (MAX_ORDER - 1) (2 ^ (MAX_ORDER - 1))

/-! ## Allocating -/

/-- `split_page` splits the first block of a list. -/
def splitFirst (order : Nat) : BuddyM PUnit := do
  let s ← get
  match s.link.next (.freeList order) with
  | .freeList _ => throw .sentinel
  | .pageLink page => do
      setLink fun l => l.listDel (.pageLink page)
      setNrFree order (uint (s.nrFree order + (2 ^ 32 - 1)))
      let n := 2 ^ (order - 1)
      setPage page fun p => p.setProperty n
      setPage (page + n) fun p => p.setProperty n
      setPage (page + n) Page.setHead
      setLink fun l => l.listAdd (.freeList (order - 1)) (.pageLink page)
      setLink fun l => l.listAdd (.pageLink page) (.pageLink (page + n))
      let s ← get
      setNrFree (order - 1) (uint (s.nrFree (order - 1) + 2))

/-- `split_page`. The first argument counts the orders from `order` on. -/
def splitPage : Nat → Nat → BuddyM PUnit
  | 0, _ => throw .outOfRange
  | rest + 1, order => do
      let s ← get
      if s.link.listEmpty (.freeList order) then do
        splitPage rest (order + 1)
        splitFirst order
      else splitFirst order

/-- The loop of `buddy_system_alloc_pages` that looks for the order. -/
def findOrder (n : Nat) : Nat → Nat
  | 0 => 0
  | order + 1 => if n < 2 ^ (order + 1) then findOrder n order else order + 1

/-- The blocks of `order` and above, as `buddy_system_alloc_pages` counts them. -/
def blocksFrom (s : FreeAreas) (order : Nat) : Nat :=
  uint (∑ i ∈ Finset.Ico order MAX_ORDER, s.nrFree i)

/-- The end of `buddy_system_alloc_pages`. -/
def popBlock (order : Nat) : BuddyM (Option Nat) := do
  let s ← get
  if s.link.listEmpty (.freeList order) then return none
  else
    match s.link.next (.freeList order) with
    | .freeList _ => throw .header
    | .pageLink page => do
        setLink fun l => l.listDel (.pageLink page)
        setPage page Page.clearHead
        return some page

def buddySystemAllocPages (n : Nat) : BuddyM (Option Nat) := do
  check .assertion (0 < n)
  if 2 ^ (MAX_ORDER - 1) < n then return none
  else
    let order := findOrder n (MAX_ORDER - 1) + 1
    let s ← get
    if blocksFrom s order = 0 then return none
    else
      if s.link.listEmpty (.freeList order) then do
        splitPage (MAX_ORDER - (order + 1)) (order + 1)
        popBlock order
      else popBlock order

/-! ## Freeing -/

/-- The loop of `add_page`. After `list_add` it goes on from the page just added, and it
passes the header of another list as a page at a lower address. -/
def addLoop (order base : Nat) : Nat → Entry → BuddyM PUnit
  | 0, _ => throw .runaway
  | fuel + 1, le => do
      let s ← get
      let le := s.link.next le
      if le = .freeList order then return ⟨⟩
      else if le.isAfter base then setLink fun l => l.listAddBefore le (.pageLink base)
      else
        if s.link.next le = .freeList order then
          setLink fun l => l.listAdd le (.pageLink base)
        addLoop order base fuel le

def addPage (fuel order base : Nat) : BuddyM PUnit := do
  check .outOfRange (order < MAX_ORDER)
  if (← get).link.listEmpty (.freeList order) then
    setLink fun l => l.listAdd (.freeList order) (.pageLink base)
  else addLoop order base fuel (.freeList order)

/-- Give the block `p` the block `q`. -/
def absorb (p q : Nat) : BuddyM PUnit := do
  let s ← get
  setPage p fun page => page.setProperty (uint (page.property + (s.page q).property))
  setPage q Page.clearHead
  setLink fun l => l.listDel (.pageLink q)

/-- Move a block that has grown to the next order. -/
def raise (fuel order base : Nat) : BuddyM PUnit := do
  setLink fun l => l.listDel (.pageLink base)
  addPage fuel (order + 1) base

/-- `merge_page` looks at the block before `base`; returns the head of the result. -/
def mergePrev (fuel order base : Nat) : BuddyM Nat := do
  check .outOfRange (order < MAX_ORDER)
  let s ← get
  match s.link.prev (.pageLink base) with
  | .freeList i =>
      if i ≠ order ∧ headerEnds headers s i base then throw .header else return base
  | .pageLink p =>
      if p + (s.page p).property = base then do
        absorb p base
        raise fuel order p
        return p
      else return base

/-- `merge_page` looks at the block after `base`. A header is not behind it. -/
def mergeNext (fuel order base : Nat) : BuddyM PUnit := do
  check .outOfRange (order < MAX_ORDER)
  let s ← get
  match s.link.next (.pageLink base) with
  | .freeList _ => return ⟨⟩
  | .pageLink p =>
      if base + (s.page base).property = p then do
        absorb base p
        raise fuel order base
      else return ⟨⟩

/-- `merge_page`. The first argument counts the orders from `order` to the last one. -/
def mergePage (fuel : Nat) : Nat → Nat → Nat → BuddyM PUnit
  | 0, _, _ => return ⟨⟩
  | rest + 1, order, base => do
      let base ← mergePrev headers fuel order base
      mergeNext fuel order base
      mergePage fuel rest (order + 1) base

/-- The loop of `buddy_system_free_pages` over the pages. -/
def resetPages : Nat → Nat → BuddyM PUnit
  | _, 0 => return ⟨⟩
  | p, n + 1 => do
      let s ← get
      check .assertion ((!(s.page p).reserved && !(s.page p).isHead) = true)
      setPage p fun page => { page with flags := 0#64, ref := 0 }
      resetPages (p + 1) n

/-- The loop of `buddy_system_free_pages` that computes the order. -/
def orderLoop : Nat → Nat → Nat → BuddyM Nat
  | 0, _, _ => throw .runaway
  | fuel + 1, temp, order =>
      if temp = 1 then return order else orderLoop fuel (temp >>> 1) (order + 1)

def IS_POWER_OF_2 (x : Nat) : Bool := x &&& (x - 1) == 0

def buddySystemFreePages (fuel base n : Nat) : BuddyM PUnit := do
  check .assertion (0 < n)
  check .assertion (IS_POWER_OF_2 n = true)
  check .assertion (n < 2 ^ (MAX_ORDER - 1))
  resetPages base n
  setPage base fun page => page.setProperty n
  setPage base Page.setHead
  let order ← orderLoop MAX_ORDER n 0
  addPage fuel order base
  mergePage headers fuel (MAX_ORDER - 1 - order) order base

def buddySystemNrFreePages (s : FreeAreas) : Nat := ∑ i ∈ Finset.range MAX_ORDER, s.nrFree i <<< i

end Ucore.Pmm.Buddy
