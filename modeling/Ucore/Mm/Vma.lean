import Mathlib.Data.List.Pairwise
import Ucore.Mm.Walk

/-!
# Virtual memory areas

The lists of areas of `kern/mm/vmm.c`. An address space is passed by value and
returned; its list is sorted by address, and areas do not overlap.
-/

namespace Ucore.Mm

open Mmu Machine

def USERBASE : Nat := 0x00200000

def USERTOP : Nat := 0x80000000

/-- `USER_ACCESS`. -/
def userAccess (start stop : Nat) : Prop := USERBASE ≤ start ∧ start < stop ∧ stop ≤ USERTOP

instance (start stop : Nat) : Decidable (userAccess start stop) :=
  inferInstanceAs (Decidable (_ ∧ _ ∧ _))

def VM_READ : BitVec 32 := 0x00000001
def VM_WRITE : BitVec 32 := 0x00000002
def VM_EXEC : BitVec 32 := 0x00000004
def VM_STACK : BitVec 32 := 0x00000008

/-- A virtual memory area `[vmStart, vmEnd)`. -/
structure VmaStruct where
  vmStart : Nat
  vmEnd : Nat
  vmFlags : BitVec 32
  deriving DecidableEq, Repr

/-- The control struct for a set of areas with one page directory, whose number
is 0 for `NULL`. -/
structure MmStruct where
  mmapList : List VmaStruct
  mmapCache : Option VmaStruct
  pgdir : Nat
  mmCount : Int
  deriving DecidableEq, Repr

namespace VmaStruct

/-- The address is in the area; `vm_end` is not. -/
def contains (vma : VmaStruct) (addr : Nat) : Prop := vma.vmStart ≤ addr ∧ addr < vma.vmEnd

instance (vma : VmaStruct) (addr : Nat) : Decidable (vma.contains addr) :=
  inferInstanceAs (Decidable (_ ∧ _))

/-- The area permits writes. -/
def writable (vma : VmaStruct) : Bool := vma.vmFlags &&& VM_WRITE != 0

end VmaStruct

/-! ## The code -/

section

variable (al : Allocator)

def mmCreate : KernM (Option MmStruct) := do
  if ← al.kmalloc then pure (some ⟨[], none, 0, 0⟩) else pure none

def vmaCreate (vmStart vmEnd : Nat) (vmFlags : BitVec 32) : KernM (Option VmaStruct) := do
  if ← al.kmalloc then pure (some ⟨vmStart, vmEnd, vmFlags⟩) else pure none

/-- The area of an address, looked for in the cache first. -/
def findVma (mm : MmStruct) (addr : Nat) : Option VmaStruct × MmStruct :=
  let vma := match mm.mmapCache with
    | some vma => if vma.contains addr then some vma else mm.mmapList.find? (·.contains addr)
    | none => mm.mmapList.find? (·.contains addr)
  match vma with
  | none => (none, mm)
  | some vma => (some vma, { mm with mmapCache := some vma })

def checkVmaOverlap (prev next : VmaStruct) : KernM PUnit :=
  if prev.vmStart < prev.vmEnd ∧ prev.vmEnd ≤ next.vmStart ∧ next.vmStart < next.vmEnd then
    pure ⟨⟩
  else throw .vmaOverlap

def insertVmaStruct (mm : MmStruct) (vma : VmaStruct) : KernM MmStruct := do
  if vma.vmEnd ≤ vma.vmStart then throw .vmaOverlap
  let front := mm.mmapList.takeWhile (·.vmStart ≤ vma.vmStart)
  let back := mm.mmapList.dropWhile (·.vmStart ≤ vma.vmStart)
  front.getLast?.forM (checkVmaOverlap · vma)
  back.head?.forM (checkVmaOverlap vma ·)
  pure { mm with mmapList := front ++ vma :: back }

/-- `mm_map`; sums of addresses wrap around at 64 bits. -/
def mmMap (mm : MmStruct) (addr len : Nat) (vmFlags : BitVec 32) : KernM (Int × MmStruct) := do
  let start := rounddown addr PGSIZE
  let stop := rounddown ((addr + len + PGSIZE - 1) % 2 ^ 64) PGSIZE
  if ¬ userAccess start stop then
    pure (-E_INVAL, mm)
  else
    let (found, mm) := findVma mm start
    if found.any (·.vmStart < stop) then
      pure (-E_INVAL, mm)
    else
      match ← vmaCreate al start stop vmFlags with
      | none => pure (-E_NO_MEM, mm)
      | some vma => (0, ·) <$> insertVmaStruct mm vma

def mmDestroy (mm : MmStruct) : KernM PUnit := if mm.mmCount ≠ 0 then throw .mmCount else pure ⟨⟩

end

/-! ## Well-formed address spaces -/

/-- What `unmap_range` and its like ask of a range. -/
structure VmaStruct.Ok (vma : VmaStruct) : Prop where
  aligned : vma.vmStart % PGSIZE = 0 ∧ vma.vmEnd % PGSIZE = 0
  user : userAccess vma.vmStart vma.vmEnd

/-- The areas are in order and apart, each is what `unmap_range` asserts of a range, and the cache
is one of them. -/
structure MmStruct.Ok (mm : MmStruct) : Prop where
  sorted : mm.mmapList.Pairwise fun prev next => prev.vmEnd ≤ next.vmStart
  areas : ∀ vma ∈ mm.mmapList, vma.Ok
  cache : ∀ vma, mm.mmapCache = some vma → vma ∈ mm.mmapList

variable {E : Panic → Prop} {s : Kern} {mm : MmStruct} {vma : VmaStruct}

theorem VmaStruct.Ok.lt (hok : vma.Ok) : vma.vmStart < vma.vmEnd := hok.user.2.1

theorem MmStruct.Ok.apart (hmm : mm.Ok) {vma vma' : VmaStruct} (hvma : vma ∈ mm.mmapList)
    (hvma' : vma' ∈ mm.mmapList) :
    vma = vma' ∨ vma.vmEnd ≤ vma'.vmStart ∨ vma'.vmEnd ≤ vma.vmStart := by
  have hsymm : Std.Symm fun a b : VmaStruct => a = b ∨ a.vmEnd ≤ b.vmStart ∨ b.vmEnd ≤ a.vmStart :=
    ⟨fun _ _ h => h.imp Eq.symm Or.symm⟩
  have hapart : mm.mmapList.Pairwise fun a b : VmaStruct =>
      a = b ∨ a.vmEnd ≤ b.vmStart ∨ b.vmEnd ≤ a.vmStart :=
    hmm.sorted.imp fun h => Or.inr (Or.inl h)
  refine List.Pairwise.forall_of_forall ?_ hapart hvma hvma'
  exact fun _ _ => Or.inl rfl

/-- Areas of one address space with an address in common are the same. -/
theorem MmStruct.Ok.unique (hmm : mm.Ok) {vma vma' : VmaStruct} {addr : Nat}
    (hvma : vma ∈ mm.mmapList) (hvma' : vma' ∈ mm.mmapList) (haddr : vma.contains addr)
    (haddr' : vma'.contains addr) : vma = vma' := by
  unfold VmaStruct.contains at haddr haddr'
  rcases hmm.apart hvma hvma' with heq | hlt | hlt
  · exact heq
  · omega
  · omega

theorem findVma_spec (hmm : mm.Ok) (addr : Nat) :
    (findVma mm addr = (none, mm) ∧ ∀ vma ∈ mm.mmapList, ¬ vma.contains addr) ∨
      ∃ vma ∈ mm.mmapList, vma.contains addr ∧
        findVma mm addr = (some vma, { mm with mmapCache := some vma }) := by
  have hscan : (mm.mmapList.find? (·.contains addr) = none ∧
        ∀ vma ∈ mm.mmapList, ¬ vma.contains addr) ∨
      ∃ vma ∈ mm.mmapList, vma.contains addr ∧ mm.mmapList.find? (·.contains addr) = some vma := by
    cases hfind : mm.mmapList.find? (·.contains addr) with
    | none => exact Or.inl ⟨rfl, by simpa using hfind⟩
    | some vma =>
        exact Or.inr ⟨vma, List.mem_of_find?_eq_some hfind, by simpa using List.find?_some hfind,
          rfl⟩
  unfold findVma
  cases hcache : mm.mmapCache with
  | none =>
      rcases hscan with ⟨hfind, hnone⟩ | ⟨vma, hvma, haddr, hfind⟩
      · exact Or.inl ⟨by simp only [hfind], hnone⟩
      · exact Or.inr ⟨vma, hvma, haddr, by simp only [hfind]⟩
  | some cached =>
      by_cases haddr : cached.contains addr
      · exact Or.inr ⟨cached, hmm.cache cached hcache, haddr, by simp only [if_pos haddr]⟩
      · rcases hscan with ⟨hfind, hnone⟩ | ⟨vma, hvma, haddr', hfind⟩
        · exact Or.inl ⟨by simp only [if_neg haddr, hfind], hnone⟩
        · exact Or.inr ⟨vma, hvma, haddr', by simp only [if_neg haddr, hfind]⟩

theorem ends_checkVmaOverlap {prev next : VmaStruct} {Q : PUnit → Kern → Prop}
    (hE : E .vmaOverlap) (hQ : prev.vmEnd ≤ next.vmStart → Q ⟨⟩ s) :
    Ends E (checkVmaOverlap prev next) s Q := by
  unfold checkVmaOverlap
  split
  next hok => exact hQ hok.2.1
  next => exact hE

theorem insertVmaStruct_spec (hE : E .vmaOverlap) (hmm : mm.Ok) (hvma : vma.Ok) :
    Ends E (insertVmaStruct mm vma) s fun mm' t => t = s ∧ mm'.Ok ∧ mm'.pgdir = mm.pgdir ∧
      mm'.mmCount = mm.mmCount ∧ (∀ a, a ∈ mm'.mmapList ↔ a = vma ∨ a ∈ mm.mmapList) ∧
      ∀ a ∈ mm.mmapList, a.vmEnd ≤ vma.vmStart ∨ vma.vmEnd ≤ a.vmStart := by
  unfold insertVmaStruct
  obtain ⟨front, hfront⟩ : ∃ l, l = mm.mmapList.takeWhile (·.vmStart ≤ vma.vmStart) := ⟨_, rfl⟩
  obtain ⟨back, hback⟩ : ∃ l, l = mm.mmapList.dropWhile (·.vmStart ≤ vma.vmStart) := ⟨_, rfl⟩
  have hlist : mm.mmapList = front ++ back := by
    rw [hfront, hback, List.takeWhile_append_dropWhile]
  rw [if_neg (Nat.not_le_of_lt hvma.lt), ← hfront, ← hback]
  simp only [ends_bind]
  have hsorted := hmm.sorted
  rw [hlist, List.pairwise_append] at hsorted
  obtain ⟨hsortedFront, hsortedBack, hacross⟩ := hsorted
  have hareas : ∀ a ∈ front ++ back, a.Ok := hlist ▸ hmm.areas
  -- only the last area before and the first one behind are compared with the new one
  have hbefore : Ends E (front.getLast?.forM (checkVmaOverlap · vma)) s fun _ t =>
      t = s ∧ ∀ a ∈ front, a.vmEnd ≤ vma.vmStart := by
    cases hlast : front.getLast? with
    | none =>
        rw [List.getLast?_eq_none_iff] at hlast
        exact ⟨rfl, by simp [hlast]⟩
    | some prev =>
        apply ends_checkVmaOverlap hE
        intro hprev
        refine ⟨rfl, fun a ha => ?_⟩
        obtain ⟨init, rfl⟩ := List.getLast?_eq_some_iff.mp hlast
        rcases List.mem_append.mp ha with hinit | hself
        · have hle := (List.pairwise_append.mp hsortedFront).2.2 a hinit prev (by simp)
          have hlt := (hareas prev (by simp)).lt
          omega
        · rw [List.mem_singleton] at hself
          rwa [hself]
  have hbehind : Ends E (back.head?.forM (checkVmaOverlap vma ·)) s fun _ t =>
      t = s ∧ ∀ a ∈ back, vma.vmEnd ≤ a.vmStart := by
    cases back with
    | nil => exact ⟨rfl, by simp⟩
    | cons next rest =>
        apply ends_checkVmaOverlap hE
        intro hnext
        refine ⟨rfl, fun a ha => ?_⟩
        rcases List.mem_cons.mp ha with rfl | hrest
        · exact hnext
        · have hle := (List.pairwise_cons.mp hsortedBack).1 a hrest
          have hlt := (hareas next (by simp)).lt
          omega
  apply hbefore.imp
  rintro _ _ ⟨rfl, hfrontEnd⟩
  apply hbehind.imp
  rintro _ _ ⟨rfl, hbackStart⟩
  rw [ends_pure]
  refine ⟨rfl, ⟨?_, ?_, ?_⟩, rfl, rfl, fun a => ?_, fun a ha => ?_⟩
  · rw [List.pairwise_append, List.pairwise_cons]
    refine ⟨hsortedFront, ⟨hbackStart, hsortedBack⟩, fun a ha b hb => ?_⟩
    rcases List.mem_cons.mp hb with rfl | hb
    · exact hfrontEnd a ha
    · exact hacross a ha b hb
  · intro a ha
    rw [List.mem_append, List.mem_cons] at ha
    rcases ha with ha | rfl | ha
    · exact hareas a (List.mem_append_left _ ha)
    · exact hvma
    · exact hareas a (List.mem_append_right _ ha)
  · intro a ha
    have hold := hmm.cache a ha
    rw [hlist, List.mem_append] at hold
    simp only [List.mem_append, List.mem_cons]
    tauto
  · rw [hlist]
    simp only [List.mem_append, List.mem_cons]
    tauto
  · rw [hlist, List.mem_append] at ha
    exact ha.imp (hfrontEnd a) (hbackStart a)

/-- A new area before all others is inserted without panic. -/
theorem insertVmaStruct_front (hmm : mm.Ok) (hvma : vma.Ok)
    (hfront : ∀ a ∈ mm.mmapList, vma.vmEnd ≤ a.vmStart) :
    Ends E (insertVmaStruct mm vma) s fun mm' t => t = s ∧ mm'.Ok ∧
      mm' = { mm with mmapList := vma :: mm.mmapList } := by
  have hok : MmStruct.Ok { mm with mmapList := vma :: mm.mmapList } := by
    refine ⟨List.pairwise_cons.mpr ⟨hfront, hmm.sorted⟩, fun a ha => ?_, fun a ha => ?_⟩
    · rcases List.mem_cons.mp ha with rfl | ha
      · exact hvma
      · exact hmm.areas a ha
    · exact List.mem_cons_of_mem _ (hmm.cache a ha)
  unfold insertVmaStruct
  rw [if_neg (Nat.not_le_of_lt hvma.lt)]
  have hlt := hvma.lt
  cases hlist : mm.mmapList with
  | nil =>
      rw [hlist] at hok
      exact ⟨rfl, hok, rfl⟩
  | cons next rest =>
      rw [hlist] at hok
      have hnext : vma.vmEnd ≤ next.vmStart := hfront next (by simp [hlist])
      have hstop : ¬ next.vmStart ≤ vma.vmStart := by omega
      have hcheck : vma.vmStart < vma.vmEnd ∧ vma.vmEnd ≤ next.vmStart ∧
          next.vmStart < next.vmEnd :=
        ⟨hlt, hnext, (hmm.areas next (by simp [hlist])).lt⟩
      simpa [hstop, checkVmaOverlap, hcheck] using hok

/-- The cache may be any area. -/
theorem MmStruct.Ok.setCache (hmm : mm.Ok) {vma : VmaStruct} (hvma : vma ∈ mm.mmapList) :
    MmStruct.Ok { mm with mmapCache := some vma } :=
  ⟨hmm.sorted, hmm.areas, fun _ hcache => Option.some.inj hcache ▸ hvma⟩

theorem Allocator.ends_kmalloc_heap (al : Allocator) {Q : Bool → Kern → Prop}
    (hQ : Q (al.heap s.tick) s.nextTick) : Ends E al.kmalloc s Q := hQ

theorem Allocator.ends_kmalloc (al : Allocator) {Q : Bool → Kern → Prop}
    (hQ : ∀ ok, Q ok s.nextTick) : Ends E al.kmalloc s Q :=
  al.ends_kmalloc_heap (hQ _)

theorem rounddown_mod (a n : Nat) : rounddown a n % n = 0 := Nat.sub_mod_eq_zero_of_mod_eq (by simp)

/-- `mm_map` adds an area of user addresses, or none. -/
theorem mmMap_spec (al : Allocator) (hE : E .vmaOverlap) (hmm : mm.Ok) (addr len : Nat)
    (vmFlags : BitVec 32) :
    Ends E (mmMap al mm addr len vmFlags) s fun r t => (t = s ∨ t = s.nextTick) ∧ r.2.Ok ∧
      r.2.pgdir = mm.pgdir ∧ r.2.mmCount = mm.mmCount ∧
      ∀ vma ∈ mm.mmapList, vma ∈ r.2.mmapList := by
  unfold mmMap
  simp only
  generalize hstart : rounddown addr PGSIZE = start
  generalize hstop : rounddown ((addr + len + PGSIZE - 1) % 2 ^ 64) PGSIZE = stop
  split
  next => exact ⟨Or.inl rfl, hmm, rfl, rfl, fun _ ha => ha⟩
  next huser =>
    rw [not_not] at huser
    have hvma : VmaStruct.Ok ⟨start, stop, vmFlags⟩ := by
      refine ⟨⟨?_, ?_⟩, huser⟩
      · exact hstart ▸ rounddown_mod addr _
      · exact hstop ▸ rounddown_mod _ _
    have hfind : (findVma mm start).2.Ok ∧ (findVma mm start).2.pgdir = mm.pgdir ∧
        (findVma mm start).2.mmCount = mm.mmCount ∧
        (findVma mm start).2.mmapList = mm.mmapList := by
      rcases findVma_spec hmm start with ⟨heq, _⟩ | ⟨vma, hmem, _, heq⟩
      · rw [heq]
        exact ⟨hmm, rfl, rfl, rfl⟩
      · rw [heq]
        exact ⟨hmm.setCache hmem, rfl, rfl, rfl⟩
    obtain ⟨hok, hpgdir, hcount, hlist⟩ := hfind
    split
    next => exact ⟨Or.inl rfl, hok, hpgdir, hcount, fun _ ha => hlist.symm ▸ ha⟩
    next =>
      unfold vmaCreate
      simp only [ends_bind]
      apply al.ends_kmalloc
      intro got
      cases got with
      | false => exact ⟨Or.inr rfl, hok, hpgdir, hcount, fun _ ha => hlist.symm ▸ ha⟩
      | true =>
          simp only [if_true, ends_pure, ends_map]
          apply (insertVmaStruct_spec hE hok hvma).imp
          rintro mm' t ⟨rfl, hok', hpgdir', hcount', hmem, _⟩
          refine ⟨Or.inr rfl, hok', hpgdir'.trans hpgdir, hcount'.trans hcount, fun a ha => ?_⟩
          exact (hmem a).mpr (Or.inr (hlist.symm ▸ ha))

/-! ## The pages of an area -/

/-- The area covers the page number `v`. -/
def VmaStruct.covers (vma : VmaStruct) (v : Nat) : Prop := vma.contains (PGSIZE * v)

instance (vma : VmaStruct) (v : Nat) : Decidable (vma.covers v) :=
  inferInstanceAs (Decidable (vma.contains _))

/-- The first page number of an area, and the first one behind it. -/
theorem VmaStruct.Ok.pages (hok : vma.Ok) :
    ∃ a n, vma.vmStart = PGSIZE * a ∧ vma.vmEnd = PGSIZE * n ∧ a < n ∧ n ≤ userPages ∧
      ∀ v, vma.covers v ↔ a ≤ v ∧ v < n := by
  obtain ⟨⟨hstart, hstop⟩, _, hlt, htop⟩ := hok
  unfold USERTOP at htop
  unfold PGSIZE at hstart hstop
  refine ⟨vma.vmStart / 4096, vma.vmEnd / 4096, ?_, ?_, ?_, ?_, fun v => ?_⟩
  · unfold PGSIZE
    omega
  · unfold PGSIZE
    omega
  · omega
  · unfold userPages
    omega
  · unfold VmaStruct.covers VmaStruct.contains PGSIZE
    omega

theorem VmaStruct.Ok.covers_ppn (hok : vma.Ok) {addr : Nat} (haddr : vma.contains addr) :
    vma.covers (ppn addr) := by
  obtain ⟨⟨hstart, hstop⟩, _⟩ := hok
  unfold VmaStruct.contains at haddr
  unfold PGSIZE at hstart hstop
  unfold VmaStruct.covers VmaStruct.contains
  rw [ppn_eq]
  unfold PGSIZE
  omega

theorem VmaStruct.Ok.user_page (hok : vma.Ok) {v : Nat} (hv : vma.covers v) : v < userPages := by
  obtain ⟨a, n, _, _, _, hn, hcovers⟩ := hok.pages
  have := ((hcovers v).mp hv).2
  omega

theorem ppn_mul (v : Nat) : ppn (PGSIZE * v) = v := by
  rw [ppn_eq, Nat.mul_div_cancel_left v (by decide)]

end Ucore.Mm
