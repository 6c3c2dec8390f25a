import Mathlib.Data.Finset.Erase
import Ucore.Foundation.Machine
import Ucore.Foundation.Ring
import Ucore.Mm.PageTable

/-!
# The kernel's memory and its page tables

The state that the memory managers work on and `kern/mm/pmm.c`: building page
tables, mapping and unmapping pages. A `struct Page *` is the number of the page
frame it describes. The functions that allocate take the allocation as an
argument, because `alloc_page` may evict pages where swapping is on.
-/

namespace Ucore.Mm

open Mmu Machine

/-- The number of the last page frame and one, `PHYSICAL_MEMORY_END / PGSIZE`. -/
def npage : Nat := 0x88000

/-- A `list_entry_t *` of the replacement list: `&pra_list_head`, or
`&(page->pra_page_link)`. -/
inductive PraEntry
  | praListHead
  | praPageLink (page : Nat)
  deriving DecidableEq, Repr

/-- What swapping adds: the fields `visited` and `pra_vaddr` of the pages, the
list the clock hand goes round, and the pages on the swap device. -/
structure Swap where
  visited : Nat → Bool
  praVaddr : Nat → Nat
  praList : Links PraEntry
  currPtr : PraEntry
  disk : Nat → Nat → Pte

/-- The contents and the reference counts of the page frames, the frames that
the physical memory manager has, and the number of requests made to it. -/
structure Kern where
  mem : Memory
  ref : Nat → Int
  free : Finset Nat
  tick : Nat
  swap : Swap

namespace Kern

def write (s : Kern) (p : Ptr) (w : Pte) : Kern := { s with mem := s.mem.write p w }

/-- Give a page frame new contents. -/
def fill (s : Kern) (page : Nat) (words : Nat → Pte) : Kern :=
  { s with mem := s.mem.fill page words }

def setRef (s : Kern) (page : Nat) (val : Int) : Kern :=
  { s with ref := Function.update s.ref page val }

/-- The physical memory manager gets a frame back; it resets the count. -/
def giveBack (s : Kern) (page : Nat) : Kern :=
  { s with free := insert page s.free, ref := Function.update s.ref page 0 }

/-- The physical memory manager has handed out a frame. -/
def take (s : Kern) (page : Nat) : Kern := { s with free := s.free.erase page }

def nextTick (s : Kern) : Kern := { s with tick := s.tick + 1 }

@[simp] theorem write_mem (s : Kern) (p : Ptr) (w : Pte) : (s.write p w).mem = s.mem.write p w :=
    rfl
@[simp] theorem write_ref (s : Kern) (p : Ptr) (w : Pte) : (s.write p w).ref = s.ref := rfl
@[simp] theorem write_free (s : Kern) (p : Ptr) (w : Pte) : (s.write p w).free = s.free := rfl
@[simp] theorem write_swap (s : Kern) (p : Ptr) (w : Pte) : (s.write p w).swap = s.swap := rfl

@[simp] theorem fill_mem (s : Kern) (page : Nat) (words : Nat → Pte) :
    (s.fill page words).mem = s.mem.fill page words := rfl
@[simp] theorem fill_ref (s : Kern) (page : Nat) (words : Nat → Pte) :
    (s.fill page words).ref = s.ref := rfl
@[simp] theorem fill_free (s : Kern) (page : Nat) (words : Nat → Pte) :
    (s.fill page words).free = s.free := rfl
@[simp] theorem fill_swap (s : Kern) (page : Nat) (words : Nat → Pte) :
    (s.fill page words).swap = s.swap := rfl

@[simp] theorem setRef_mem (s : Kern) (page : Nat) (val : Int) :
    (s.setRef page val).mem = s.mem := rfl
@[simp] theorem setRef_ref (s : Kern) (page : Nat) (val : Int) :
    (s.setRef page val).ref = Function.update s.ref page val := rfl
@[simp] theorem setRef_free (s : Kern) (page : Nat) (val : Int) :
    (s.setRef page val).free = s.free := rfl
@[simp] theorem setRef_swap (s : Kern) (page : Nat) (val : Int) :
    (s.setRef page val).swap = s.swap := rfl

@[simp] theorem giveBack_mem (s : Kern) (page : Nat) : (s.giveBack page).mem = s.mem := rfl
@[simp] theorem giveBack_ref (s : Kern) (page : Nat) :
    (s.giveBack page).ref = Function.update s.ref page 0 := rfl
@[simp] theorem giveBack_free (s : Kern) (page : Nat) :
    (s.giveBack page).free = insert page s.free := rfl
@[simp] theorem giveBack_swap (s : Kern) (page : Nat) : (s.giveBack page).swap = s.swap := rfl

@[simp] theorem take_mem (s : Kern) (page : Nat) : (s.take page).mem = s.mem := rfl
@[simp] theorem take_ref (s : Kern) (page : Nat) : (s.take page).ref = s.ref := rfl
@[simp] theorem take_free (s : Kern) (page : Nat) : (s.take page).free = s.free.erase page := rfl
@[simp] theorem take_swap (s : Kern) (page : Nat) : (s.take page).swap = s.swap := rfl

@[simp] theorem nextTick_mem (s : Kern) : s.nextTick.mem = s.mem := rfl
@[simp] theorem nextTick_ref (s : Kern) : s.nextTick.ref = s.ref := rfl
@[simp] theorem nextTick_free (s : Kern) : s.nextTick.free = s.free := rfl
@[simp] theorem nextTick_swap (s : Kern) : s.nextTick.swap = s.swap := rfl

end Kern

/-- All memory zero and nothing in use but the frames that are not in `pages`. -/
def bootKern (pages : Finset Nat) : Kern where
  mem := fun _ _ => 0#64
  ref := fun _ => 0
  free := pages
  tick := 0
  swap := ⟨fun _ => false, fun _ => 0, ⟨id, id⟩, .praListHead, fun _ _ => 0#64⟩

/-- Where the code stops: a panic, or an assertion that fails. -/
inductive Panic
  | kaddr
  | pa2page
  | pte2page
  | nullPointer
  | doubleFree
  | nullPage
  | pageRef
  | unaligned
  | userAccess
  | vmaOverlap
  | mmCount
  | mapFailed
  | notPresent
  | swapEntry
  | emptyList
  | inTick
  | segmentEnd
  | runaway
  deriving DecidableEq, Repr

abbrev KernM := Machine Panic Kern

def E_NO_MEM : Int := 4

def E_INVAL : Int := 3

/-! ## Words, counts and frames -/

def load (p : Ptr) : KernM Pte := (fun s => s.mem p.page p.index) <$> get

def store (p : Ptr) (w : Pte) : KernM PUnit := modify fun s => s.write p w

/-- `memset`, `memcpy` of a whole page. -/
def fillPage (page : Nat) (words : Nat → Pte) : KernM PUnit := modify fun s => s.fill page words

def pageRef (page : Nat) : KernM Int := (fun s => s.ref page) <$> get

def setPageRef (page : Nat) (val : Int) : KernM PUnit := modify fun s => s.setRef page val

def pageRefInc (page : Nat) : KernM PUnit := modify fun s => s.setRef page (s.ref page + 1)

def pageRefDec (page : Nat) : KernM PUnit := modify fun s => s.setRef page (s.ref page - 1)

def freePage (page : Nat) : KernM PUnit := do
  if page ∈ (← get).free then throw .doubleFree
  modify fun s => s.giveBack page

/-- A physical memory manager, as `alloc_page` sees it: given the number of the
request and the free frames it hands out one of these, or none. `heap` says which
requests `kmalloc` can meet, from frames that the kernel keeps for it. -/
structure Allocator where
  choose : Nat → Finset Nat → Option Nat
  sound : ∀ tick free page, choose tick free = some page → page ∈ free
  heap : Nat → Bool := fun _ => true

/-- Hands out the frames of a list in turn. -/
def Allocator.ofList (pages : List Nat) : Allocator where
  choose := fun _ free => pages.find? fun page => page ∈ free
  sound := fun _ _ _ hchoose => by simpa using List.find?_some hchoose

/-- `pmm_manager->alloc_pages(1)`. -/
def Allocator.allocPage (al : Allocator) : KernM (Option Nat) := do
  let s ← get
  modify Kern.nextTick
  match al.choose s.tick s.free with
  | none => pure none
  | some page =>
      modify fun s => s.take page
      pure (some page)

/-- Whether `kmalloc` returns an object. -/
def Allocator.kmalloc (al : Allocator) : KernM Bool := do
  let s ← get
  modify Kern.nextTick
  pure (al.heap s.tick)

/-! ## Conversions -/

/-- `KADDR`, on the frame of an address. -/
def kaddr (page : Nat) : KernM Nat := if npage ≤ page then throw .kaddr else pure page

def pa2page (page : Nat) : KernM Nat := if npage ≤ page then throw .pa2page else pure page

def pte2page (pte : Pte) : KernM Nat :=
  if valid pte then pa2page (frame pte) else throw .pte2page

/-! ## Page tables -/

section

variable (alloc : KernM (Option Nat))

/-- The table that the entry `pdep` points to. `get_pte` does this at two levels. -/
def tableAt (create : Bool) (pdep : Ptr) : KernM (Option Nat) := do
  if valid (← load pdep) then
    some <$> kaddr (frame (← load pdep))
  else if create then
    match ← alloc with
    | none => pure none
    | some page =>
        setPageRef page 1
        fillPage (← kaddr page) fun _ => 0#64
        store pdep (pteCreate page (PTE_U ||| PTE_V))
        some <$> kaddr (frame (← load pdep))
  else
    pure none

def getPte (pgdir la : Nat) (create : Bool) : KernM (Option Ptr) := do
  match ← tableAt alloc create ⟨pgdir, pdx1 la⟩ with
  | none => pure none
  | some pd0 =>
      match ← tableAt alloc create ⟨pd0, pdx0 la⟩ with
      | none => pure none
      | some pt => pure (some ⟨pt, ptx la⟩)

def getPage (pgdir la : Nat) : KernM (Option Nat) := do
  match ← getPte alloc pgdir la false with
  | none => pure none
  | some ptep =>
      let pte ← load ptep
      if valid pte then some <$> pte2page pte else pure none

def pageRemovePte (ptep : Ptr) : KernM PUnit := do
  if valid (← load ptep) then
    let page ← pte2page (← load ptep)
    pageRefDec page
    if (← pageRef page) = 0 then
      freePage page
    store ptep 0#64

def pageRemove (pgdir la : Nat) : KernM PUnit := do
  match ← getPte alloc pgdir la false with
  | none => pure ⟨⟩
  | some ptep => pageRemovePte ptep

/-- `page_insert` once the entry has been found. -/
def mapPage (ptep : Ptr) (page : Nat) (perm : Pte) : KernM Int := do
  pageRefInc page
  if valid (← load ptep) then
    let p ← pte2page (← load ptep)
    if p = page then pageRefDec page else pageRemovePte ptep
  store ptep (pteCreate page (PTE_V ||| perm))
  pure 0

def pageInsert (pgdir page la : Nat) (perm : Pte) : KernM Int := do
  match ← getPte alloc pgdir la true with
  | none => pure (-E_NO_MEM)
  | some ptep => mapPage ptep page perm

end

end Ucore.Mm
