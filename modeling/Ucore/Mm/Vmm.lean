import Ucore.Mm.Range

/-!
# Address spaces

`kern/mm/cow.c` and what `kern/mm/vmm.c` does with page tables: copying an
address space at a fork, eagerly or on write, page faults, and taking an address
space down.
-/

namespace Ucore.Mm

open Mmu Machine

section

variable (al : Allocator)

/-! ## Page directories -/

/-- The words of `boot_pgdir`: only the kernel is mapped. -/
def bootPgdir (i : Nat) : Pte := if i = 511 then (0x80000#64 <<< 10) ||| 0xcf#64 else 0#64

def setupPgdir (mm : MmStruct) : KernM (Int × MmStruct) := do
  match ← al.allocPage with
  | none => pure (-E_NO_MEM, mm)
  | some page =>
      fillPage (← kaddr page) bootPgdir
      pure (0, { mm with pgdir := page })

/-- A new address space with one user, as in `load_icode` and `cow_copy_mm`. -/
def newMm : KernM (Option MmStruct) := do
  match ← mmCreate al with
  | none => pure none
  | some mm =>
      match ← setupPgdir al mm with
      | (0, mm) => pure (some { mm with mmCount := mm.mmCount + 1 })
      | (_, mm) =>
          mmDestroy mm
          pure none

def putPgdir (mm : MmStruct) : KernM PUnit := do freePage (← pa2page mm.pgdir)

/-! ## Copying -/

/-- The valid pages of a range are shared, read-only in both page directories. -/
def cowCopyRange (toDir fromDir start stop : Nat) : KernM Int := do
  checkRange start stop
  if start < stop then
    pageLoop al.allocPage (fun start => start < stop) fromDir
      (fun start ptep => do
        if valid (← load ptep) then
          store ptep ((← load ptep) &&& ~~~PTE_W)
          let perm := (← load ptep) &&& PTE_USER &&& ~~~PTE_W
          let page ← pte2page (← load ptep)
          if (← pageInsert al.allocPage toDir page start perm) ≠ 0 then throw .mapFailed
        pure 0)
      ((stop - start) / PGSIZE) start
  else pure 0

/-- The loop of `dup_mmap` and of `cow_copy_mmap` over the areas of `fromMm`. -/
def copyAreas (copy : Nat → Nat → Nat → Nat → KernM Int) (fromMm : MmStruct) :
    List VmaStruct → MmStruct → KernM (Int × MmStruct)
  | [], toMm => pure (0, toMm)
  | vma :: rest, toMm => do
      match ← vmaCreate al vma.vmStart vma.vmEnd vma.vmFlags with
      | none => pure (-E_NO_MEM, toMm)
      | some nvma =>
          let toMm ← insertVmaStruct toMm nvma
          if (← copy toMm.pgdir fromMm.pgdir vma.vmStart vma.vmEnd) ≠ 0 then
            pure (-E_NO_MEM, toMm)
          else copyAreas copy fromMm rest toMm

def dupMmap (toMm fromMm : MmStruct) : KernM (Int × MmStruct) :=
  copyAreas al (copyRange al.allocPage) fromMm fromMm.mmapList.reverse toMm

def cowCopyMmap (toMm fromMm : MmStruct) : KernM (Int × MmStruct) :=
  copyAreas al (cowCopyRange al) fromMm fromMm.mmapList.reverse toMm

/-! ## Page faults -/

def cowPgfault (mm : MmStruct) (_errorCode addr : Nat) : KernM Int := do
  match ← getPte al.allocPage mm.pgdir addr false with
  | none => throw .nullPointer
  | some ptep =>
      let perm := (← load ptep) &&& PTE_USER ||| PTE_W
      let page ← pte2page (← load ptep)
      match ← al.allocPage with
      | none => throw .nullPage
      | some npage =>
          copyPage page npage
          store ptep 0#64
          let ret ← pageInsert al.allocPage mm.pgdir npage (rounddown addr PGSIZE) perm
          let _ ← getPte al.allocPage mm.pgdir addr false
          pure ret

/-- `do_pgfault` once the area and its permissions are known. Entries that are
neither 0 nor valid belong to swapping, which is not part of this. -/
def faultPage (mm : MmStruct) (errorCode addr : Nat) (perm : Pte) : KernM Int := do
  match ← getPte al.allocPage mm.pgdir addr true with
  | none => pure (-E_NO_MEM)
  | some _ =>
      match ← getPte al.allocPage mm.pgdir addr false with
      | none => throw .nullPointer
      | some ptep =>
          let pte ← load ptep
          if pte &&& PTE_V &&& ~~~(pte &&& PTE_W) ≠ 0#64 then
            cowPgfault al mm errorCode addr
          else if pte = 0#64 then
            match ← pgdirAllocPage al.allocPage mm.pgdir addr perm with
            | none => pure (-E_NO_MEM)
            | some _ => pure 0
          else throw .swapEntry

def doPgfault (mm : MmStruct) (errorCode addr : Nat) : KernM (Int × MmStruct) := do
  match findVma mm addr with
  | (none, mm) => pure (-E_INVAL, mm)
  | (some vma, mm) =>
      if addr < vma.vmStart then pure (-E_INVAL, mm)
      else
        let perm := if vma.writable then PTE_U ||| READ_WRITE else PTE_U
        (·, mm) <$> faultPage al mm errorCode (rounddown addr PGSIZE) perm

/-! ## Taking an address space down -/

def exitMmap (mm : MmStruct) : KernM PUnit := do
  if mm.mmCount ≠ 0 then throw .mmCount
  mm.mmapList.forM fun vma => unmapRange al.allocPage mm.pgdir vma.vmStart vma.vmEnd
  mm.mmapList.forM fun vma => exitRange mm.pgdir vma.vmStart vma.vmEnd

/-- What `do_exit` does with the address space; what is left of it. -/
def exitMm (mm : MmStruct) : KernM (Option MmStruct) := do
  let mm := { mm with mmCount := mm.mmCount - 1 }
  if mm.mmCount = 0 then
    exitMmap al mm
    putPgdir mm
    mmDestroy mm
    pure none
  else pure (some mm)

end

end Ucore.Mm
