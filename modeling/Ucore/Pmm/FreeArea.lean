import Mathlib.Data.BitVec
import Ucore.Libs.List

/-!
# Free blocks of pages

The page descriptors, the free list and the code that the first-fit manager
(`kern/mm/default_pmm.c`) and the best-fit manager (`kern/mm/best_fit_pmm.c`)
have in common. Pages are named by their index in the `pages` array, so that
`page + n` is an addition. A failed assertion and a list walk that does not come
back to the header have no successor state.
-/

namespace Ucore.Pmm

/-- A `list_entry_t *`: the header `&free_list`, or `&(page->page_link)`. -/
inductive Entry
  | freeList
  | pageLink (page : Nat)
  deriving DecidableEq, Repr

/-- `struct Page`, without its `page_link`, which is kept with the list header. -/
structure Page where
  ref : Int
  flags : BitVec 64
  property : Nat
  deriving DecidableEq, Repr

/-- Bit `PG_reserved` of `flags`. -/
def pgReserved : Nat := 0

/-- Bit `PG_property` of `flags`. -/
def pgProperty : Nat := 1

def setBit (nr : Nat) (flags : BitVec 64) : BitVec 64 := flags ||| 1#64 <<< nr

def clearBit (nr : Nat) (flags : BitVec 64) : BitVec 64 := flags &&& ~~~(1#64 <<< nr)

def testBit (nr : Nat) (flags : BitVec 64) : Bool := (flags >>> nr) &&& 1#64 != 0#64

theorem testBit_eq (nr : Nat) (flags : BitVec 64) : testBit nr flags = flags.getLsbD nr := by
  rw [testBit, BitVec.and_one_eq_setWidth_ofBool_getLsbD, BitVec.getLsbD_ushiftRight, Nat.add_zero]
  cases flags.getLsbD nr <;> rfl

namespace Page

def reserved (page : Page) : Bool := testBit pgReserved page.flags

/-- `PageProperty`: the page is the head of a free block. -/
def isHead (page : Page) : Bool := testBit pgProperty page.flags

def setHead (page : Page) : Page := { page with flags := setBit pgProperty page.flags }

def clearHead (page : Page) : Page := { page with flags := clearBit pgProperty page.flags }

def setProperty (page : Page) (n : Nat) : Page := { page with property := n }

@[simp] theorem setProperty_property (page : Page) (n : Nat) :
    (page.setProperty n).property = n := rfl

@[simp] theorem setProperty_isHead (page : Page) (n : Nat) :
    (page.setProperty n).isHead = page.isHead := rfl

@[simp] theorem setProperty_reserved (page : Page) (n : Nat) :
    (page.setProperty n).reserved = page.reserved := rfl

@[simp] theorem setHead_property (page : Page) : page.setHead.property = page.property := rfl

@[simp] theorem clearHead_property (page : Page) : page.clearHead.property = page.property := rfl

@[simp] theorem setHead_isHead (page : Page) : page.setHead.isHead = true := by
  simp [isHead, setHead, testBit_eq, setBit, pgProperty]

@[simp] theorem clearHead_isHead (page : Page) : page.clearHead.isHead = false := by
  simp [isHead, clearHead, testBit_eq, clearBit, pgProperty]

@[simp] theorem setHead_reserved (page : Page) : page.setHead.reserved = page.reserved := by
  simp [reserved, setHead, testBit_eq, setBit, pgProperty, pgReserved]

@[simp] theorem clearHead_reserved (page : Page) : page.clearHead.reserved = page.reserved := by
  simp [reserved, clearHead, testBit_eq, clearBit, pgProperty, pgReserved]

end Page

/-- The value of an expression stored in an `unsigned int`. -/
def uint (n : Nat) : Nat := n % 2 ^ 32

/-- `pages` with its length `npage`, and `free_area`. -/
structure FreeArea where
  npage : Nat
  page : Nat → Page
  link : Links Entry
  nrFree : Nat

namespace FreeArea

def setPage (s : FreeArea) (p : Nat) (page : Page) : FreeArea :=
  { s with page := Function.update s.page p page }

@[simp] theorem setPage_page (s : FreeArea) (p q : Nat) (page : Page) :
    (s.setPage p page).page q = if q = p then page else s.page q := by
  simp [setPage, Function.update_apply]

@[simp] theorem setPage_link (s : FreeArea) (p : Nat) (page : Page) :
    (s.setPage p page).link = s.link := rfl

@[simp] theorem setPage_nrFree (s : FreeArea) (p : Nat) (page : Page) :
    (s.setPage p page).nrFree = s.nrFree := rfl

@[simp] theorem setPage_npage (s : FreeArea) (p : Nat) (page : Page) :
    (s.setPage p page).npage = s.npage := rfl

end FreeArea

/-- `default_init`, `best_fit_init`. -/
def init (s : FreeArea) : FreeArea := { s with link := s.link.listInit .freeList, nrFree := 0 }

/-- The loop over the pages of a block that `init_memmap` and `free_pages` start
with: check a page, then reset it. -/
def resetPages (check : Page → Bool) (reset : Page → Page) : Nat → Nat → FreeArea → Option FreeArea
  | _, 0, s => some s
  | p, n + 1, s =>
      if check (s.page p) then
        resetPages check reset (p + 1) n (s.setPage p (reset (s.page p)))
      else none

/-- Make `base` the head of a free block of `n` pages. -/
def markFree (base n : Nat) (s : FreeArea) : FreeArea :=
  let s := s.setPage base ((s.page base).setProperty (uint n))
  let s := s.setPage base (s.page base).setHead
  { s with nrFree := uint (s.nrFree + n) }

/-- The loop that looks for the place of `base` in the free list. After
`list_add` at the end of the list there is no `break`: the walk goes on from
the page just added. -/
def linkLoop (base : Nat) : Nat → Entry → FreeArea → Option FreeArea
  | 0, _, _ => none
  | fuel + 1, le, s =>
      match s.link.next le with
      | .freeList => some s
      | .pageLink page =>
          if base < page then
            some { s with link := s.link.listAddBefore (.pageLink page) (.pageLink base) }
          else if s.link.next (.pageLink page) = .freeList then
            linkLoop base fuel (.pageLink page)
              { s with link := s.link.listAdd (.pageLink page) (.pageLink base) }
          else
            linkLoop base fuel (.pageLink page) s

/-- Link `base` into the free list. A list visits each of the `npage` pages at
most once, so that a longer walk is one that never ends. -/
def linkBlock (base : Nat) (s : FreeArea) : Option FreeArea :=
  if s.link.listEmpty .freeList then
    some { s with link := s.link.listAdd .freeList (.pageLink base) }
  else
    linkLoop base (s.npage + 2) .freeList s

/-- `init_memmap`, up to the fields that the manager resets. -/
def initMemmap (reset : Page → Page) (base n : Nat) (s : FreeArea) : Option FreeArea := do
  if n = 0 then none
  let s ← resetPages Page.reserved reset base n s
  linkBlock base (markFree base n s)

/-- Make the pages of the block `page` after the first `n` a block of their own,
linked after `prev`. -/
def splitRest (page n : Nat) (prev : Entry) (s : FreeArea) : FreeArea :=
  let p := page + n
  let s := s.setPage p ((s.page p).setProperty (uint ((s.page page).property - n)))
  let s := s.setPage p (s.page p).setHead
  { s with link := s.link.listAdd prev (.pageLink p) }

/-- What `alloc_pages` does with the block at `page` once it has been chosen. -/
def takeBlock (page n : Nat) (s : FreeArea) : FreeArea :=
  let prev := s.link.prev (.pageLink page)
  let s := { s with link := s.link.listDel (.pageLink page) }
  let s := if n < (s.page page).property then splitRest page n prev s else s
  let s := { s with nrFree := uint (s.nrFree - n) }
  s.setPage page (s.page page).clearHead

/-- `alloc_pages`, up to the search for a block. The result `none` inside the
option is the null pointer. -/
def allocPages (find : Nat → FreeArea → Option (Option Nat)) (n : Nat) (s : FreeArea) :
    Option (Option Nat × FreeArea) := do
  if n = 0 then none
  if s.nrFree < n then
    return (none, s)
  match ← find n s with
  | none => return (none, s)
  | some page => return (some page, takeBlock page n s)

/-- Append the block of `q` to the block of `p`. -/
def absorb (p q : Nat) (s : FreeArea) : FreeArea :=
  let s := s.setPage p
    ((s.page p).setProperty (uint ((s.page p).property + (s.page q).property)))
  let s := s.setPage q (s.page q).clearHead
  { s with link := s.link.listDel (.pageLink q) }

/-- Merge `base` into the block before it; returns the head of the result. -/
def mergePrev (base : Nat) (s : FreeArea) : Nat × FreeArea :=
  match s.link.prev (.pageLink base) with
  | .freeList => (base, s)
  | .pageLink p => if p + (s.page p).property = base then (p, absorb p base s) else (base, s)

/-- Merge the block after `base` into it. -/
def mergeNext (base : Nat) (s : FreeArea) : FreeArea :=
  match s.link.next (.pageLink base) with
  | .freeList => s
  | .pageLink p => if base + (s.page base).property = p then absorb base p s else s

/-- `default_free_pages` and `best_fit_free_pages`, which are the same code. -/
def freePages (base n : Nat) (s : FreeArea) : Option FreeArea := do
  if n = 0 then none
  let s ← resetPages (fun page => !page.reserved && !page.isHead)
    (fun page => { page with flags := 0#64, ref := 0 }) base n s
  let s ← linkBlock base (markFree base n s)
  let (base, s) := mergePrev base s
  return mergeNext base s

end Ucore.Pmm
