import Ucore.Mm.PageMap
import Ucore.Mm.WritePerm

/-!
# Whether a fault that succeeds is resolved

`do_pgfault` of `kern/mm/vmm.c` with pages that are on the swap device, and the
hardware's reading of a page table entry. The permissions of a new mapping come
from `VM_WRITE` alone, or, on a present page, from the entry that it replaces.
-/

namespace Ucore.Mm

open Mmu Machine

namespace Mmu

/-! ## What the hardware permits -/

/-- The accesses that fault. -/
inductive AccessKind
  | read
  | write
  | execute
  deriving DecidableEq, Repr

def readable (pte : Pte) : Bool := pte &&& PTE_R != 0

def executable (pte : Pte) : Bool := pte &&& PTE_X != 0

def user (pte : Pte) : Bool := pte &&& PTE_U != 0

/-- A user's access through an entry of the last level. An entry that is writable
and not readable is reserved, and one without any of the three bits is no leaf. -/
def permits (pte : Pte) (kind : AccessKind) : Bool :=
  valid pte && user pte && (readable pte || !writable pte) && match kind with
    | .read => readable pte
    | .write => writable pte
    | .execute => executable pte

theorem readable_eq (pte : Pte) : readable pte = pte.getLsbD 1 :=
  @and_bit_ne_zero pte 1 (by decide)

theorem executable_eq (pte : Pte) : executable pte = pte.getLsbD 3 :=
  @and_bit_ne_zero pte 3 (by decide)

theorem user_eq (pte : Pte) : user pte = pte.getLsbD 4 :=
  @and_bit_ne_zero pte 4 (by decide)

@[simp] theorem readable_pteCreate (n : Nat) (type : Pte) :
    readable (pteCreate n type) = readable type := by
  simp [readable_eq, pteCreate, PTE_V]

@[simp] theorem executable_pteCreate (n : Nat) (type : Pte) :
    executable (pteCreate n type) = executable type := by
  simp [executable_eq, pteCreate, PTE_V]

@[simp] theorem user_pteCreate (n : Nat) (type : Pte) : user (pteCreate n type) = user type := by
  simp [user_eq, pteCreate, PTE_V]

end Mmu

/-- The access that an area's flags allow. -/
def VmaStruct.grants (vma : VmaStruct) : AccessKind → Bool
  | .read => vma.vmFlags &&& VM_READ != 0
  | .write => vma.vmFlags &&& VM_WRITE != 0
  | .execute => vma.vmFlags &&& VM_EXEC != 0

/-! ## Swapping in -/

/-- The pages of the swap device, `ide_device_size / PAGE_NSECT`. -/
def max_swap_offset : Nat := 7

/-- `swap_offset`. -/
def swapOffset (entry : Pte) : KernM Nat := do
  let offset := (entry >>> 8).toNat
  if 0 < offset ∧ offset < max_swap_offset then pure offset else throw .swapEntry

def swapfsRead (entry : Pte) (page : Nat) : KernM Int := do
  let offset ← swapOffset entry
  let disk := (← get).swap.disk
  fillPage (← kaddr page) (disk offset)
  pure 0

/-- `_fifo_map_swappable`: the page is put at the back of the list. -/
def fifoMapSwappable (page : Nat) : KernM Int := do
  modify fun s => { s with swap := { s.swap with
    praList := s.swap.praList.splice (.praPageLink page) (s.swap.praList.prev .praListHead)
      .praListHead } }
  pure 0

def setPraVaddr (page addr : Nat) : KernM PUnit :=
  modify fun s => { s with swap := { s.swap with
    praVaddr := Function.update s.swap.praVaddr page addr } }

section

variable (al : Allocator)

def swapIn (mm : MmStruct) (addr : Nat) : KernM (Int × Nat) := do
  match ← al.allocPage with
  | none => throw .nullPage
  | some result =>
      match ← getPte al.allocPage mm.pgdir addr false with
      | none => throw .nullPointer
      | some ptep =>
          let _ ← swapfsRead (← load ptep) result
          pure (0, result)

/-- `do_pgfault` on an entry that names a page of the swap device. -/
def faultSwapped (swapInitOk : Bool) (mm : MmStruct) (addr : Nat) (perm : Pte) : KernM Int := do
  if swapInitOk then
    let (r, page) ← swapIn al mm addr
    if r ≠ 0 then pure (-E_NO_MEM)
    else
      if (← pageInsert al.allocPage mm.pgdir page addr perm) ≠ 0 then pure (-E_NO_MEM)
      else
        let _ ← fifoMapSwappable page
        setPraVaddr page addr
        pure 0
  else pure (-E_NO_MEM)

/-- `do_pgfault` once the area and its permissions are known; `swapped` deals with
entries that are neither 0 nor valid. -/
def faultEntry (swapped : KernM Int) (mm : MmStruct) (errorCode addr : Nat) (perm : Pte) :
    KernM Int := do
  match ← getPte al.allocPage mm.pgdir addr true with
  | none => pure (-E_NO_MEM)
  | some _ =>
      match ← getPte al.allocPage mm.pgdir addr false with
      | none => throw .nullPointer
      | some ptep =>
          let pte ← load ptep
          if pte &&& PTE_V &&& ~~~(pte &&& PTE_W) ≠ 0#64 then
            cowPgfault al mm errorCode addr
          else if pte = 0#64 then
            match ← pgdirAllocPage al.allocPage mm.pgdir addr perm with
            | none => pure (-E_NO_MEM)
            | some _ => pure 0
          else swapped

/-- `do_pgfault` with pages on the swap device, for an address space that is not
`check_mm_struct`: no pages are evicted meanwhile. -/
def doPgfaultSwap (swapInitOk : Bool) (mm : MmStruct) (errorCode addr : Nat) :
    KernM (Int × MmStruct) := do
  match findVma mm addr with
  | (none, mm) => pure (-E_INVAL, mm)
  | (some vma, mm) =>
      if addr < vma.vmStart then pure (-E_INVAL, mm)
      else
        let perm := if vma.writable then PTE_U ||| READ_WRITE else PTE_U
        let addr := rounddown addr PGSIZE
        (·, mm) <$> faultEntry al (faultSwapped al swapInitOk mm addr perm) mm errorCode addr perm

end

/-! ## The entry that a fault leaves -/

variable {E : Panic → Prop} {role : Nat → Role} {s : Kern} {al : Allocator}

/-- The permissions of the page that a fault maps where the entry was `pte`. -/
def resolvedPerm (pte : Pte) (vma : VmaStruct) : Pte :=
  if valid pte then pte &&& PTE_USER ||| PTE_W else faultPerm vma

/-- Where the fault succeeds the address is mapped with the permissions `perm`. -/
def MapsPerm (t : Kern) (pgdir v : Nat) (perm : Pte) (ret : Int) : Prop :=
  ret = 0 → ∃ n, leaf t.mem pgdir v = pteCreate n (PTE_V ||| perm)

theorem swapIn_spec {mm : MmStruct} {addr : Nat} {p : Ptr} (hnull : E .nullPage)
    (hswap : E .swapEntry) (hpaged : Paged role s) (hcounted : Counted role s)
    (hdir : role mm.pgdir = .dir) (haddr : ppn addr < userPages)
    (hwalk : walk s.mem mm.pgdir (ppn addr) = some p) :
    Ends E (swapIn al mm addr) s fun r t => ∃ role', Paged role' t ∧ Counted role' t ∧
      role' mm.pgdir = .dir ∧ role' r.2 = .data := by
  unfold swapIn
  rw [ends_bind]
  apply al.ends_allocPage
  · exact hnull
  · intro n hn
    have hfree := (hpaged.free n).mpr hn
    have hlt : n < npage := hpaged.bound n (by simp [hfree])
    have hnew : Function.update role n .data n = .data := Function.update_self n _ _
    have htaken := hpaged.take hn
    have hdir' : Function.update role n .data mm.pgdir = .dir := (dir_data hfree _).mpr hdir
    simp only [ends_bind]
    apply (getPte_walk htaken hdir' haddr hwalk).imp
    rintro r t ⟨rfl, rfl⟩
    simp only [swapfsRead, swapOffset, ends_bind, ends_load]
    split
    · simp only [ends_pure, ends_get]
      apply ends_kaddr hlt
      obtain ⟨hfilled, hkept, _⟩ := hpaged.takeFill hn ((s.nextTick.take n).swap.disk
        (((s.nextTick.take n).mem p.page p.index) >>> 8).toNat)
      exact ⟨_, hfilled, hkept.nonneg hcounted, hdir', hnew⟩
    · exact hswap

theorem faultSwapped_spec {swapInitOk : Bool} {mm : MmStruct} {addr : Nat} {perm : Pte} {p : Ptr}
    (hnull : E .nullPage) (hswap : E .swapEntry) (hpaged : Paged role s) (hcounted : Counted role s)
    (hdir : role mm.pgdir = .dir) (haddr : ppn addr < userPages)
    (hwalk : walk s.mem mm.pgdir (ppn addr) = some p) (hperm : IsPerm perm) :
    Ends E (faultSwapped al swapInitOk mm addr perm) s fun ret t =>
      MapsPerm t mm.pgdir (ppn addr) perm ret := by
  unfold faultSwapped
  split
  · rw [ends_bind]
    apply (swapIn_spec hnull hswap hpaged hcounted hdir haddr hwalk).imp
    rintro ⟨r, page⟩ t ⟨role', hpaged', hcounted', hdir', hpage⟩
    change Ends E (if r ≠ 0 then _ else _) t _
    split
    · intro hret
      cases hret
    · rw [ends_bind]
      apply (pageInsert_spec al hpaged' hcounted' hdir' haddr hpage hperm).imp
      rintro ret u ⟨role'', _, hsettled, _, hret, _⟩
      rcases hret with ⟨rfl, _⟩ | ⟨rfl, hset⟩
      · intro hret
        cases hret
      · -- the list of swappable pages is no part of the memory
        refine fun _ => ⟨page, ?_⟩
        have hleaf := hset mm.pgdir (ppn addr) hdir' haddr
        rwa [if_pos ⟨rfl, rfl⟩] at hleaf
  · intro hret
    cases hret

/-- An entry is 0 where a table is missing. -/
theorem walk_of_leaf_ne_zero {m : Memory} {pgdir v : Nat} (hne : leaf m pgdir v ≠ 0#64) :
    ∃ p, walk m pgdir v = some p := by
  unfold leaf at hne
  cases hwalk : walk m pgdir v with
  | none =>
      rw [hwalk] at hne
      exact absurd rfl hne
  | some p => exact ⟨p, rfl⟩

theorem faultEntry_spec {swapped : KernM Int} {mm : MmStruct} {errorCode addr : Nat}
    {vma : VmaStruct} (hnull : E .nullPage) (hpaged : Paged role s) (hcounted : Counted role s)
    (hdir : role mm.pgdir = .dir) (haddr : ppn addr < userPages)
    (hswapped : ∀ p, walk s.mem mm.pgdir (ppn addr) = some p → Ends E swapped s fun ret t =>
      MapsPerm t mm.pgdir (ppn addr) (faultPerm vma) ret) :
    Ends E (faultEntry al swapped mm errorCode addr (faultPerm vma)) s fun ret t =>
      MapsPerm t mm.pgdir (ppn addr) (resolvedPerm (leaf s.mem mm.pgdir (ppn addr)) vma) ret := by
  unfold faultEntry
  by_cases hzero : leaf s.mem mm.pgdir (ppn addr) = 0#64
  · -- a page that has not been touched: its tables may be missing
    rw [hzero, resolvedPerm, valid_zero, if_neg Bool.false_ne_true, ends_bind]
    apply (getPte_true al hpaged hdir haddr).imp
    rintro r t ⟨role', hpaged', hgrown, hfound⟩
    cases r with
    | none =>
        intro hret
        cases hret
    | some q =>
        have hwalk := hfound q rfl
        have hdir' := (hgrown.dir_iff _).mpr hdir
        have hzero' : t.mem q.page q.index = 0#64 := by
          rw [← leaf_of_walk hwalk, hgrown.leaf _ _ hdir haddr, hzero]
        rw [ends_bind]
        apply (getPte_walk hpaged' hdir' haddr hwalk).imp
        rintro r t ⟨rfl, rfl⟩
        simp only [ends_bind, ends_load, hzero']
        rw [if_neg (by simp), if_pos trivial, ends_bind]
        apply (pgdirAllocPage_spec hpaged' (hgrown.settled.counted hcounted) hdir' haddr
          (isPerm_fault vma)).imp
        rintro r u ⟨_, _, _, _, hleaf⟩
        cases r with
        | none =>
            intro hret
            cases hret
        | some n =>
            refine fun _ => ⟨n, ?_⟩
            have hset := hleaf mm.pgdir (ppn addr) hdir' haddr
            rwa [if_pos ⟨rfl, rfl⟩] at hset
  · obtain ⟨p, hwalk⟩ := walk_of_leaf_ne_zero hzero
    rw [ends_bind]
    apply (getPte_walk hpaged hdir haddr hwalk).imp
    rintro r s ⟨rfl, rfl⟩
    simp only
    rw [ends_bind]
    apply (getPte_walk hpaged hdir haddr hwalk).imp
    rintro r s ⟨rfl, rfl⟩
    simp only [ends_bind, ends_load, ← leaf_of_walk hwalk]
    cases hvalid : valid (leaf s.mem mm.pgdir (ppn addr)) with
    | true =>
        rw [if_pos ((cowTest_iff _).mpr hvalid)]
        apply (cowPgfault_spec (Or.inl hnull) hpaged hdir haddr hvalid).imp
        rintro ret t ⟨_, n, hcopied⟩ _
        refine ⟨n, ?_⟩
        have hset := hcopied.leaf mm.pgdir (ppn addr) hdir haddr
        rw [if_pos ⟨rfl, rfl⟩] at hset
        rwa [resolvedPerm, if_pos hvalid]
    | false =>
        rw [if_neg (by rw [cowTest_iff, hvalid]; exact Bool.false_ne_true), if_neg hzero,
          resolvedPerm, hvalid, if_neg Bool.false_ne_true]
        exact hswapped p hwalk

/-- What a fault that succeeds leaves permits what the access needs: of a page that
is present the entry must already let users read, and execute where they do; any
other page must be in an area that can be written, and is never executable. -/
def Resolves (pte : Pte) (vma : VmaStruct) (kind : AccessKind) : Prop :=
  if valid pte then
    user pte = true ∧ readable pte = true ∧ (kind = .execute → executable pte = true)
  else vma.writable = true ∧ kind ≠ .execute

instance (pte : Pte) (vma : VmaStruct) (kind : AccessKind) : Decidable (Resolves pte vma kind) :=
  inferInstanceAs (Decidable (ite (valid pte = true) (_ ∧ _ ∧ (_ → _)) (_ ∧ _)))

theorem permits_resolved (n : Nat) (pte : Pte) (vma : VmaStruct) (kind : AccessKind) :
    permits (pteCreate n (PTE_V ||| resolvedPerm pte vma)) kind = true ↔ Resolves pte vma kind := by
  unfold Resolves resolvedPerm permits
  simp only [valid_pteCreate, user_pteCreate, readable_pteCreate, writable_pteCreate,
    executable_pteCreate]
  cases valid pte with
  | true =>
      -- the copy keeps what users could do and can be written
      have huser : user (PTE_V ||| (pte &&& PTE_USER ||| PTE_W)) = user pte := by
        simp [user_eq, PTE_V, PTE_USER, PTE_R, PTE_W, PTE_X, PTE_U]
      have hread : readable (PTE_V ||| (pte &&& PTE_USER ||| PTE_W)) = readable pte := by
        simp [readable_eq, PTE_V, PTE_USER, PTE_R, PTE_W, PTE_X, PTE_U]
      have hwrite : writable (PTE_V ||| (pte &&& PTE_USER ||| PTE_W)) = true := by
        simp [writable_eq, PTE_W]
      have hexec : executable (PTE_V ||| (pte &&& PTE_USER ||| PTE_W)) = executable pte := by
        simp [executable_eq, PTE_V, PTE_USER, PTE_R, PTE_W, PTE_X, PTE_U]
      simp only [if_true, huser, hread, hwrite, hexec]
      cases kind <;> simp [and_assoc]
  | false =>
      simp only [faultPerm, Bool.false_eq_true, if_false]
      cases vma.writable <;> cases kind <;> decide

/-- Why `do_pgfault` stops: no memory for a copy or for a page from the swap device,
or an entry that names no page of the device. -/
def FaultStops (e : Panic) : Prop := e = .nullPage ∨ e = .swapEntry

/-- A fault that returns 0 has made the address accessible exactly where the entry
that was there, or the area, is one of those that `Resolves` describes. -/
theorem doPgfault_resolves (al : Allocator) (swapInitOk : Bool) {role : Nat → Role} {s : Kern}
    {mm : MmStruct} (hmm : mm.Ok) (hpaged : Paged role s) (hcounted : Counted role s)
    (hdir : role mm.pgdir = .dir) (errorCode addr : Nat) (kind : AccessKind) :
    Ends FaultStops (doPgfaultSwap al swapInitOk mm errorCode addr) s fun r t => r.1 = 0 →
      ∃ vma ∈ mm.mmapList, vma.contains addr ∧
        (permits (leaf t.mem mm.pgdir (ppn addr)) kind = true ↔
          Resolves (leaf s.mem mm.pgdir (ppn addr)) vma kind) := by
  unfold doPgfaultSwap
  rcases findVma_spec hmm addr with ⟨heq, _⟩ | ⟨vma, hvma, haddr, heq⟩
  · rw [heq]
    intro hret
    cases hret
  · have huser := (hmm.areas vma hvma).user_page ((hmm.areas vma hvma).covers_ppn haddr)
    have hround := ppn_rounddown addr
    rw [heq]
    simp only
    rw [if_neg (Nat.not_lt_of_le haddr.1), ends_map]
    have hfault := @faultEntry_spec FaultStops role s al
      (faultSwapped al swapInitOk { mm with mmapCache := some vma } (rounddown addr PGSIZE)
        (faultPerm vma)) { mm with mmapCache := some vma } errorCode (rounddown addr PGSIZE) vma
      (Or.inl rfl) hpaged hcounted hdir (by rwa [hround])
      fun p hwalk => faultSwapped_spec (Or.inl rfl) (Or.inr rfl) hpaged hcounted hdir
        (by rwa [hround]) hwalk (isPerm_fault vma)
    apply hfault.imp
    intro ret t hmaps hret
    rw [hround] at hmaps
    obtain ⟨n, hleaf⟩ := hmaps hret
    refine ⟨vma, hvma, haddr, ?_⟩
    rw [hleaf]
    exact permits_resolved n _ vma kind

/-! ## Areas that cannot be written -/

/-- An address space with one area and no pages. -/
def flagsArea (vmFlags : BitVec 32) : MmStruct :=
    ⟨[⟨0x200000, 0x201000, vmFlags⟩], none, 0x80500, 1⟩

theorem flagsArea_ok (vmFlags : BitVec 32) : (flagsArea vmFlags).Ok := by
  refine ⟨List.pairwise_singleton _ _, ?_, fun _ hcache => by cases hcache⟩
  intro vma hvma
  rw [flagsArea, List.mem_singleton] at hvma
  subst hvma
  have huser : userAccess 0x200000 0x201000 := by decide
  have haligned : 0x200000 % PGSIZE = 0 ∧ 0x201000 % PGSIZE = 0 := by decide
  exact ⟨haligned, huser⟩

theorem emptyDir_boot : EmptyDir 0x80500 (bootKern {0x80501, 0x80502, 0x80503}) :=
  ⟨fun _ _ => valid_zero, by decide, by decide, fun _ => Int.le_refl 0⟩

/-- The first write to a page of an area that can be written: the fault returns 0, and in the
state that it leaves the write is permitted. -/
theorem doPgfault_resolves_first : ∃ r t, doPgfaultSwap (.ofList [0x80501, 0x80502, 0x80503]) true
    (flagsArea (VM_READ ||| VM_WRITE)) 0 0x200000 (bootKern {0x80501, 0x80502, 0x80503}) =
      .ok (r, t) ∧ r.1 = 0 ∧ permits (leaf t.mem 0x80500 0x200) .write = true := by
  have hinv := emptyDir_boot.inv
  have hends := doPgfault_resolves (.ofList [0x80501, 0x80502, 0x80503]) true
    (flagsArea_ok (VM_READ ||| VM_WRITE)) hinv.paged hinv.counted hinv.dir 0 0x200000 .write
  have hret : (doPgfaultSwap (.ofList [0x80501, 0x80502, 0x80503]) true
      (flagsArea (VM_READ ||| VM_WRITE)) 0 0x200000).result (bootKern {0x80501, 0x80502, 0x80503}) =
        some (0, { flagsArea (VM_READ ||| VM_WRITE) with
          mmapCache := some ⟨0x200000, 0x201000, VM_READ ||| VM_WRITE⟩ }) := by
    decide
  obtain ⟨t, ht⟩ := of_result hret
  replace hends := hends.post ht
  obtain ⟨vma, hvma, _, hiff⟩ := hends rfl
  rw [flagsArea, List.mem_singleton] at hvma
  subst hvma
  exact ⟨_, t, ht, rfl, hiff.mpr (by decide)⟩

/-- A read of a page in an area that can be read and not written is answered with
an entry that is no leaf. -/
theorem readOnly_unresolved : ¬ ∀ (al : Allocator) (swapInitOk : Bool) (role : Nat → Role)
    (s : Kern) (mm : MmStruct) (errorCode addr : Nat) (kind : AccessKind) (vma : VmaStruct),
    mm.Ok → Paged role s → Counted role s → role mm.pgdir = .dir → vma ∈ mm.mmapList →
    vma.contains addr →
    vma.grants .read = true → vma.grants kind = true →
    Ends (fun _ => True) (doPgfaultSwap al swapInitOk mm errorCode addr) s fun r t => r.1 = 0 →
      permits (leaf t.mem mm.pgdir (ppn addr)) kind = true := by
  intro hclaim
  have hinv := emptyDir_boot.inv
  have hends := hclaim (.ofList [0x80501, 0x80502, 0x80503]) true _ _ (flagsArea VM_READ) 0 0x200000
    .read ⟨0x200000, 0x201000, VM_READ⟩ (flagsArea_ok VM_READ) hinv.paged hinv.counted hinv.dir
    (by decide) (by decide) (by decide) (by decide)
  have hrun : (match doPgfaultSwap (.ofList [0x80501, 0x80502, 0x80503]) true (flagsArea VM_READ) 0
      0x200000 (bootKern {0x80501, 0x80502, 0x80503}) with
    | .ok (r, t) => r.1 == 0 && !permits (leaf t.mem 0x80500 0x200) .read
    | .error _ => false) = true := by
    decide
  unfold Ends at hends
  revert hends hrun
  cases doPgfaultSwap (.ofList [0x80501, 0x80502, 0x80503]) true (flagsArea VM_READ) 0 0x200000
      (bootKern {0x80501, 0x80502, 0x80503}) with
  | error e => exact fun _ hrun => Bool.noConfusion hrun
  | ok r =>
      intro hends hrun
      obtain ⟨hret, hdenied⟩ := by simpa using hrun
      exact Bool.noConfusion ((hends hret).symm.trans hdenied)

end Ucore.Mm
