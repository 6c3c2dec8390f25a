import Ucore.Mm.Resolve
import Ucore.Mm.SwapClock

/-!
# Swapping

`kern/mm/swap.c` and `kern/fs/swapfs.c` of lab 3, with what `pmm.c` and `vmm.c` do
there once swapping is on: `alloc_page` evicts pages until a frame is free, and
`do_pgfault` brings them back. The swap device may fail.
-/

namespace Ucore.Paging

open Mm Mmu Machine Links

/-- The entry of a page that has been swapped out. -/
def swapEntry (vaddr : Nat) : Pte := BitVec.ofNat 64 (vaddr / PGSIZE + 1) <<< 8

/-- `struct swap_manager`, without what is the same in all of them. -/
structure SwapManager where
  initMm : SwapM Int
  mapSwappable : Nat → SwapM Int
  /-- The page is `NULL` where there is none. -/
  swapOutVictim : Int → SwapM (Int × Option Nat)

/-- The hand passes no page more than twice. -/
def clockManager : SwapManager where
  initMm := clockInitMm
  mapSwappable := clockMapSwappable
  swapOutVictim inTick := (fun r => (r.1, some r.2)) <$> clockSwapOutVictim (npage + 1) inTick

/-! ## Least recently used -/

def lruInitMm : SwapM Int := do
  modify fun s => { s with praList := s.praList.listInit .praListHead }
  return 0

def lruMapSwappable (page : Nat) : SwapM Int := do
  modify fun s => { s with praList := s.praList.listAdd .praListHead (.praPageLink page) }
  return 0

def lruSwapOutVictim (inTick : Int) : SwapM (Int × Option Nat) := do
  check .inTick (inTick = 0)
  let s ← get
  match s.praList.prev .praListHead with
  | .praListHead => return (0, none)
  | .praPageLink page =>
      set { s with praList := s.praList.listDel (.praPageLink page) }
      return (0, some page)

def lruManager : SwapManager := ⟨lruInitMm, lruMapSwappable, lruSwapOutVictim⟩

/-! ## The device, and pages that leave -/

/-- A manager of frames, a replacement manager, the directory of `check_mm_struct`,
how often `alloc_pages` goes round, and what the swap device answers: to the writes,
by the number of the request, and to a read. -/
structure Backing where
  al : Allocator
  sm : SwapManager
  checkMm : Nat
  rounds : Nat
  write : Nat → Int
  read : Int

def onSwap {α : Type} (x : SwapM α) : KernM α := fun s => do
  let (a, swap) ← x s.swap
  return (a, { s with swap })

def setDisk (offset : Nat) (words : Nat → Pte) : SwapM PUnit :=
  modify fun s => { s with disk := Function.update s.disk offset words }

/-- `get_pte` with `create` 0: it asks for no frame. -/
def findPte (pgdir la : Nat) : KernM (Option Ptr) := getPte (pure none) pgdir la false

section

variable (b : Backing)

def swapfsRead (entry : Pte) (page : Nat) : KernM Int := do
  let offset ← swapOffset entry
  let page ← kaddr page
  if b.read = 0 then fillPage page ((← get).swap.disk offset)
  pure b.read

def swapfsWrite (entry : Pte) (page : Nat) : KernM Int := do
  let offset ← swapOffset entry
  let page ← kaddr page
  let s ← get
  modify Kern.nextTick
  if b.write s.tick = 0 then onSwap (setDisk offset (s.mem page))
  pure (b.write s.tick)

/-- A round of `swap_out`; whether the loop goes on. -/
def swapOutPage (pgdir : Nat) (inTick : Int) : KernM Bool := do
  let (r, victim) ← onSwap (b.sm.swapOutVictim inTick)
  if r ≠ 0 then pure false
  else
    match victim with
    | none => throw .emptyList
    | some page =>
        let v := (← get).swap.praVaddr page
        match ← findPte pgdir v with
        | none => throw .nullPointer
        | some ptep =>
            check .notPresent (valid (← load ptep) = true)
            if (← swapfsWrite b (swapEntry v) page) ≠ 0 then
              let _ ← onSwap (b.sm.mapSwappable page)
              pure true
            else
              store ptep (swapEntry v)
              freePage page
              pure true

def swapOutLoop (pgdir : Nat) (n inTick : Int) : Nat → Int → KernM Int
  | 0, _ => throw .runaway
  | fuel + 1, i =>
      if i = n then pure i
      else do
        if ← swapOutPage b pgdir inTick then swapOutLoop pgdir n inTick fuel (i + 1) else pure i

/-- `swap_out`. The loop counts up from 0, and does not come to an `n` below. -/
def swapOut (pgdir : Nat) (n inTick : Int) : KernM Int :=
    swapOutLoop b pgdir n inTick (n.toNat + 1) 0

def allocLoop : Nat → KernM (Option Nat)
  | 0 => throw .runaway
  | rounds + 1 => do
      match ← b.al.allocPage with
      | some page => pure (some page)
      | none =>
          let _ ← swapOut b b.checkMm 1 0
          allocLoop rounds

/-- `alloc_page`, as swapping has been initialised. -/
def allocPage : KernM (Option Nat) := allocLoop b b.rounds

/-! ## Pages that come -/

/-- `swap_in`. It asserts of a read that fails that it has failed. -/
def swapIn (pgdir addr : Nat) : KernM (Int × Nat) := do
  match ← allocPage b with
  | none => throw .nullPage
  | some result =>
      match ← findPte pgdir addr with
      | none => throw .nullPointer
      | some ptep =>
          let _ ← swapfsRead b (← load ptep) result
          pure (0, result)

def pgdirAllocPage (pgdir la : Nat) (perm : Pte) : KernM (Option Nat) := do
  match ← allocPage b with
  | none => pure none
  | some page =>
      if (← pageInsert (allocPage b) pgdir page la perm) ≠ 0 then
        freePage page
        pure none
      else
        let _ ← onSwap (b.sm.mapSwappable page)
        setPraVaddr page la
        check .pageRef ((← pageRef page) = 1)
        pure (some page)

/-- The loop of `unable_page_read`, against the order of the list. -/
def unablePageRead (pgdir : Nat) : Nat → PraEntry → KernM PUnit
  | 0, _ => throw .runaway
  | fuel + 1, le => do
      let s ← get
      match s.swap.praList.prev le with
      | .praListHead => pure ⟨⟩
      | .praPageLink page =>
          match ← findPte pgdir (s.swap.praVaddr page) with
          | none => throw .nullPointer
          | some ptep =>
              store ptep ((← load ptep) &&& ~~~PTE_R)
              unablePageRead pgdir fuel (.praPageLink page)

/-- The loop of `lru_pgfault`: a page that is on the list becomes its first one. -/
def moveToFront (page : Nat) : Nat → PraEntry → SwapM PUnit
  | 0, _ => throw .runaway
  | fuel + 1, le => do
      let s ← get
      match s.praList.prev le with
      | .praListHead => pure ⟨⟩
      | .praPageLink curr =>
          if page = curr then
            set { s with
              praList :=
                (s.praList.listDel (.praPageLink curr)).listAdd .praListHead (.praPageLink curr) }
          else moveToFront page fuel (.praPageLink curr)

/-- No list is longer than there are pages. -/
def lruPgfault (pgdir addr : Nat) : KernM Int := do
  unablePageRead pgdir (npage + 1) .praListHead
  match ← findPte pgdir addr with
  | none => throw .nullPointer
  | some ptep =>
      store ptep ((← load ptep) ||| PTE_R)
      let page ← pte2page (← load ptep)
      onSwap (moveToFront page (npage + 1) .praListHead)
      pure 0

/-- `do_pgfault` on a page that is on the device. -/
def faultIn (pgdir addr : Nat) (perm : Pte) : KernM Int := do
  let (ret, page) ← swapIn b pgdir addr
  if ret ≠ 0 then pure ret
  else
    let _ ← pageInsert (allocPage b) pgdir page addr perm
    let _ ← onSwap (b.sm.mapSwappable page)
    setPraVaddr page addr
    pure 0

/-- `do_pgfault` once the area and its permissions are known. -/
def faultPage (pgdir addr : Nat) (perm : Pte) : KernM Int := do
  match ← getPte (allocPage b) pgdir addr true with
  | none => throw .nullPointer
  | some ptep =>
      if (← load ptep) = 0#64 then
        match ← pgdirAllocPage b pgdir addr perm with
        | none => pure (-E_NO_MEM)
        | some _ => pure 0
      else faultIn b pgdir addr perm

/-- Whether the entry for an address is valid or readable. -/
def present (pgdir addr : Nat) : KernM Bool := do
  match ← findPte pgdir addr with
  | none => pure false
  | some ptep => return (← load ptep) &&& (PTE_V ||| PTE_R) != 0

def doPgfault (mm : MmStruct) (addr : Nat) : KernM (Int × MmStruct) := do
  if ← present mm.pgdir addr then (·, mm) <$> lruPgfault mm.pgdir addr
  else
    match findVma mm addr with
    | (none, mm) => pure (-E_INVAL, mm)
    | (some vma, mm) =>
        if addr < vma.vmStart then pure (-E_INVAL, mm)
        else
          let perm := if vma.writable then PTE_U ||| (PTE_R ||| PTE_W) else PTE_U
          (·, mm) <$> faultPage b mm.pgdir (rounddown addr PGSIZE) perm

end

end Ucore.Paging
