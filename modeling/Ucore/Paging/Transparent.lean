import Ucore.Mm.Access
import Ucore.Paging.Fault

/-!
# Demand paging is transparent

Reads and writes of one address space, with a page fault on each access that its page
table does not permit. The contents of a page are in its frame or in its slot on the
device, and an access finds there what a plain memory would have.
-/

namespace Ucore.Paging

open Mm Mmu Machine

/-! ## Accesses -/

inductive Access
  | read (addr : Nat)
  | write (addr : Nat) (byte : BitVec 8)

namespace Access

def addr : Access → Nat
  | read addr => addr
  | write addr _ => addr

def kind : Access → AccessKind
  | read _ => .read
  | write _ _ => .write

end Access

/-- What the MMU finds for an access: the frame, unless it faults. -/
def lookup (pgdir : Nat) (kind : AccessKind) (addr : Nat) : KernM (Option Nat) := do
  match ← findPte pgdir addr with
  | none => pure none
  | some ptep =>
      let pte ← load ptep
      pure (if permits pte kind then some (frame pte) else none)

section

variable (b : Backing)

/-- The frame for an access, after a fault if need be. -/
def reach (mm : MmStruct) (kind : AccessKind) (addr : Nat) : KernM (Nat × MmStruct) := do
  match ← lookup mm.pgdir kind addr with
  | some page => pure (page, mm)
  | none =>
      let (_, mm) ← doPgfault b mm addr
      match ← lookup mm.pgdir kind addr with
      | some page => pure (page, mm)
      | none => throw .notPresent

/-- Makes an access; a read returns the byte. -/
def serve (mm : MmStruct) : Access → KernM (Option (BitVec 8) × MmStruct)
  | .read addr => do
      let (page, mm) ← reach b mm .read addr
      let byte ← loadByte page addr
      pure (some byte, mm)
  | .write addr byte => do
      let (page, mm) ← reach b mm .write addr
      storeByte page addr byte
      pure (none, mm)

/-- Makes the accesses in turn; returns what the reads have read. -/
def runAccesses : List Access → MmStruct → KernM (List (BitVec 8) × MmStruct)
  | [], mm => pure ([], mm)
  | access :: rest, mm => do
      let (byte, mm) ← serve b mm access
      (fun r => (byte.toList ++ r.1, r.2)) <$> runAccesses rest mm

end

/-- What the reads read from a plain memory. -/
def plainReads : List Access → (Nat → BitVec 8) → List (BitVec 8)
  | [], _ => []
  | .read addr :: rest, m => m addr :: plainReads rest m
  | .write addr byte :: rest, m => plainReads rest (Function.update m addr byte)

/-- What a plain memory holds in the end. -/
def plainMemory : List Access → (Nat → BitVec 8) → Nat → BitVec 8
  | [], m => m
  | .read _ :: rest, m => plainMemory rest m
  | .write addr byte :: rest, m => plainMemory rest (Function.update m addr byte)

/-- The byte at an address, from the words of its page. -/
def byteOf (words : Nat → Pte) (addr : Nat) : BitVec 8 :=
    byteAt (words (addr % PGSIZE / 8)) (addr % 8)

/-- The contents of a page: in its frame, or in its slot; none before its first access. -/
def content (s : Kern) (pgdir v : Nat) : Option (Nat → Pte) :=
  if valid (leaf s.mem pgdir v) then some (s.mem (frame (leaf s.mem pgdir v)))
  else if leaf s.mem pgdir v = 0#64 then none
  else some (s.swap.disk (v + 1))

variable {role role' role'' : Nat → Role} {s t u : Kern} {l l' l'' : List Nat} {P : Nat → Prop}
  {b : Backing} {pol : Policy b.sm} {E : Panic → Prop} {d v n pgdir : Nat}

theorem content_valid (hvalid : valid (leaf s.mem pgdir v) = true) :
    content s pgdir v = some (s.mem (frame (leaf s.mem pgdir v))) := if_pos hvalid

theorem content_invalid (hinvalid : valid (leaf s.mem pgdir v) = false) :
    content s pgdir v = if leaf s.mem pgdir v = 0#64 then none else some (s.swap.disk (v + 1)) := by
  rw [content, hinvalid, if_neg Bool.false_ne_true]

theorem content_zero (hzero : leaf s.mem pgdir v = 0#64) : content s pgdir v = none := by
  rw [content, hzero, valid_zero, if_neg Bool.false_ne_true, if_pos rfl]

theorem content_slot (hv : v < userPages) (hentry : leaf s.mem pgdir v = slotEntry v) :
    content s pgdir v = some (s.swap.disk (v + 1)) := by
  rw [content, hentry, valid_slotEntry, if_neg Bool.false_ne_true, if_neg (slotEntry_ne_zero hv)]

/-- Evictions move contents and lose none. -/
theorem content_evicts (hfull : Full P pgdir s l) (h : Resident pol P pgdir role s l)
    (hevicts : Evicts pgdir role role' l l' s t)
    (hv : v < userPages) : content t pgdir v = content s pgdir v := by
  by_cases hleaves : Leaves s l l' pgdir v
  · obtain ⟨_, hout, hdisk⟩ := hevicts.out pgdir v h.dir hv hleaves
    rw [content_valid hleaves.valid, content_slot hv hout, hdisk]
  · have hsame := hevicts.leaf pgdir v h.dir hv hleaves
    cases hvalid : valid (leaf s.mem pgdir v) with
    | true =>
        have hdata := h.paged.tree.data h.dir hv hvalid
        have hstays : frame (leaf s.mem pgdir v) ∈ l' := by
          by_contra hgone
          exact hleaves ⟨hvalid, hfull.listed v hv hvalid, hgone⟩
        have hmem := (hevicts.stays _ hdata fun _ => hstays).2.1
        rw [content_valid hvalid, content_valid (hsame ▸ hvalid), hsame, hmem]
    | false =>
        rw [content_invalid hvalid, content_invalid (hsame ▸ hvalid), hsame,
          hevicts.disk v hv hleaves]

/-- The page that is brought has the contents of its frame. -/
theorem content_brought {perm : Pte} (h : Resident pol P pgdir role s l) (hloose : Loose role s l n)
    (hperm : IsPerm perm) (hbrought : Brought role pgdir v n perm s t) {v' : Nat}
    (hv' : v' < userPages) :
    content t pgdir v' = if v' = v then some (s.mem n) else content s pgdir v' := by
  have hleaf := hbrought.leaf pgdir v' h.dir hv'
  have hplain : ∀ g, role g = .data → t.mem g = s.mem g := fun g hg => hbrought.mem g (by simp [hg])
  by_cases heq : v' = v
  · have hlt : n < 2 ^ 44 := Nat.lt_trans (h.paged.bound n (by simp [hloose.data])) (by decide)
    have hframe : frame (pteCreate n (PTE_V ||| perm)) = n :=
      frame_pteCreate hlt (IsPerm.or (by decide) hperm)
    rw [if_pos ⟨rfl, heq⟩] at hleaf
    rw [if_pos heq, content_valid (by rw [hleaf]; exact valid_pteCreate _ _), hleaf, hframe,
      hplain n hloose.data]
  · rw [if_neg fun hthere => heq hthere.2] at hleaf
    rw [if_neg heq]
    cases hvalid : valid (leaf s.mem pgdir v') with
    | true =>
        have hdata := h.paged.tree.data h.dir hv' hvalid
        rw [content_valid hvalid, content_valid (hleaf ▸ hvalid), hleaf, hplain _ hdata]
    | false => rw [content_invalid hvalid, content_invalid (hleaf ▸ hvalid), hleaf, hbrought.disk]

theorem content_arrived {perm : Pte} {l₁ : List Nat} (h : Resident pol P b.checkMm role s l)
    (hfull : Full P b.checkMm s l)
    (hperm : IsPerm perm) (harrived : Arrived b pol P role s l v perm n u role' l₁ l' t) {v' : Nat}
    (hv' : v' < userPages) :
    content t b.checkMm v' = if v' = v then some (u.mem n) else content s b.checkMm v' := by
  rw [content_brought harrived.before harrived.loose hperm harrived.brought hv',
    content_evicts hfull h harrived.evicts hv']

/-- A page of data gets new contents, at the one place where it is mapped. -/
theorem content_fill (h : Resident pol P pgdir role s l) (hv : v < userPages)
    (hvalid : valid (leaf s.mem pgdir v) = true)
    (words : Nat → Pte) {v' : Nat} (hv' : v' < userPages) :
    content (s.fill (frame (leaf s.mem pgdir v)) words) pgdir v' =
      if v' = v then some words else content s pgdir v' := by
  have hdata := h.paged.tree.data h.dir hv hvalid
  have hleaf := (h.paged.fill hdata words).2 pgdir v' h.dir hv'
  by_cases heq : v' = v
  · subst heq
    rw [if_pos rfl, content_valid (by rw [hleaf]; exact hvalid), hleaf, Kern.fill_mem, Memory.fill,
      Function.update_self]
  · rw [if_neg heq]
    cases hvalid' : valid (leaf s.mem pgdir v') with
    | true =>
        have hne : frame (leaf s.mem pgdir v') ≠ frame (leaf s.mem pgdir v) :=
          fun hframe =>
            heq (h.single.once pgdir v' pgdir v h.dir h.dir hv' hv hvalid' hvalid hframe).2
        rw [content_valid hvalid', content_valid (by rw [hleaf]; exact hvalid'), hleaf,
          Kern.fill_mem, Memory.fill, Function.update_of_ne hne]
    | false =>
        rw [content_invalid hvalid', content_invalid (by rw [hleaf]; exact hvalid'),
          hleaf, Kern.fill_swap]

/-! ## The address space between accesses -/

/-- The page numbers whose swap slot the device has. -/
def HasSlot (v : Nat) : Prop := v + 1 < max_swap_offset

theorem HasSlot.user (h : HasSlot v) : v < userPages := by
  unfold HasSlot max_swap_offset at h
  unfold userPages
  omega

/-- The entry permits what a writable area grants, reading and writing. -/
def Granted (pte : Pte) : Prop := permits pte .read = true ∧ permits pte .write = true

/-- The address space is the one that pages are evicted from. -/
structure Serving (b : Backing) (pol : Policy b.sm) (mm : MmStruct) (role : Nat → Role)
    (s : Kern) (l : List Nat) :
    Prop where
  apart : mm.Apart
  pgdir : mm.pgdir = b.checkMm
  resident : Resident pol HasSlot b.checkMm role s l
  full : Full HasSlot b.checkMm s l
  granted : ∀ v, v < userPages → valid (leaf s.mem b.checkMm v) = true →
    Granted (leaf s.mem b.checkMm v)

/-- The address is in an area that can be written, and its page has a slot on the swap device, which
`swap_out` finds by the address. -/
def Permitted (mm : MmStruct) (addr : Nat) : Prop :=
  HasSlot (ppn addr) ∧ ∃ vma ∈ mm.mmapList, vma.contains addr ∧ vma.writable = true

theorem granted_area {vma : VmaStruct} (hwritable : vma.writable = true) (n : Nat) :
    Granted (pteCreate n (PTE_V ||| areaPerm vma)) := by
  simp only [Granted, areaPerm, hwritable, if_true, permits, valid_pteCreate, user_pteCreate,
    readable_pteCreate, writable_pteCreate]
  decide

theorem lookup_spec {kind : AccessKind} {addr : Nat} (hpaged : Paged role s)
    (hdir : role pgdir = .dir) (hv : ppn addr < userPages) :
    Ends E (lookup pgdir kind addr) s fun r t => t = s ∧ r =
      if permits (leaf s.mem pgdir (ppn addr)) kind then some (frame (leaf s.mem pgdir (ppn addr)))
      else none := by
  rw [lookup, ends_bind]
  apply (findPte_spec hpaged hdir hv).imp
  rintro r t ⟨rfl, rfl⟩
  cases hwalk : walk t.mem pgdir (ppn addr) with
  | none =>
      have hzero : leaf t.mem pgdir (ppn addr) = 0#64 := by rw [leaf, hwalk]
      rw [hzero]
      exact ⟨rfl, rfl⟩
  | some p =>
      rw [leaf_of_walk hwalk]
      exact ⟨rfl, rfl⟩

/-- What a fault, where there was one, leaves: the page is in the frame `page`, and its
contents and those of the other pages are as before. -/
structure Reachable (pgdir : Nat) (s : Kern) (v page : Nat) (t : Kern) : Prop where
  valid : valid (leaf t.mem pgdir v) = true
  frame : frame (leaf t.mem pgdir v) = page
  same : ∀ words, content s pgdir v = some words → t.mem page = words
  others : ∀ v', v' < userPages → v' ≠ v → content t pgdir v' = content s pgdir v'

/-- An access to the page `v` gets the frames that it asks for: its page is there, or there
are frames for the tables that it lacks and then one for the page itself, when every page
of the list `l` is swapped out that has to be. -/
def Fed (pgdir : Nat) (s : Kern) (l : List Nat) (v : Nat) : Prop :=
  valid (leaf s.mem pgdir v) = true ∨ missing s.mem pgdir v < s.free.card + l.length

section

variable (hrounds : E .runaway ∨ (∀ tick, b.write tick = 0) ∧ npage < b.rounds)

include hrounds

theorem reach_spec {mm : MmStruct} {kind : AccessKind} {addr : Nat} (h : Serving b pol mm role s l)
    (hread : b.read = 0) (haddr : Permitted mm addr) (hkind : kind ≠ .execute)
    (hempty : E .emptyList ∨ Complete b.al ∧ Fed b.checkMm s l (ppn addr)) :
    Ends E (reach b mm kind addr) s fun r t => r.2.mmapList = mm.mmapList ∧
      Fed b.checkMm s l (ppn addr) ∧ Reachable b.checkMm s (ppn addr) r.1 t ∧
      ∃ role' l', Serving b pol r.2 role' t l' := by
  have hv := haddr.1.user
  obtain ⟨hslot, vma, hvma, hcontains, hwritable⟩ := haddr
  have hkinds : ∀ pte, Granted pte → permits pte kind = true := by
    intro pte hboth
    cases kind with
    | read => exact hboth.1
    | write => exact hboth.2
    | execute => exact absurd rfl hkind
  rw [reach, ends_bind, h.pgdir]
  apply (lookup_spec h.resident.paged h.resident.dir hv).imp
  rintro r t ⟨rfl, rfl⟩
  cases hvalid : valid (leaf t.mem b.checkMm (ppn addr)) with
  | true =>
      rw [hkinds _ (h.granted _ hv hvalid)]
      refine ⟨rfl, .inl hvalid, ⟨hvalid, rfl, fun words hwords => ?_, fun _ _ _ => rfl⟩, role, l, h⟩
      rw [content_valid hvalid] at hwords
      exact Option.some.inj hwords
  | false =>
      have hdenied : permits (leaf t.mem b.checkMm (ppn addr)) kind = false := by
        simp [permits, hvalid]
      rw [hdenied]
      simp only [Bool.false_eq_true, if_false, ends_bind]
      apply (doPgfault_spec (Or.inr fun _ hP => hP) hrounds h.apart h.pgdir hvma
        hcontains h.resident
        h.full hv hslot hvalid (hempty.imp_right fun henough => henough.imp_right fun hfed =>
          hfed.resolve_left (by simp [hvalid]))).imp
      rintro ⟨_, mm'⟩ w ⟨hr, n, u, role', l₁, l', harrived, hspare, hdevice⟩
      obtain ⟨rfl, rfl⟩ := Prod.mk.inj hr
      have hfed : Fed b.checkMm t l (ppn addr) := .inr (by have := harrived.spare; omega)
      have hperm := isPerm_area vma
      have hleaf := harrived.brought.leaf b.checkMm (ppn addr) harrived.before.dir hv
      rw [if_pos ⟨rfl, rfl⟩] at hleaf
      have hlt : n < 2 ^ 44 :=
        Nat.lt_trans (harrived.before.paged.bound n (by simp [harrived.loose.data])) (by decide)
      have hframe : frame (pteCreate n (PTE_V ||| areaPerm vma)) = n :=
        frame_pteCreate hlt (IsPerm.or (by decide) hperm)
      have hgranted := granted_area hwritable n
      obtain ⟨hapart, hlist⟩ := h.apart.findVma_snd addr
      have hpgdir : (findVma mm addr).2.pgdir = b.checkMm := (findVma_pgdir mm addr).trans h.pgdir
      have hmem : w.mem n = u.mem n := harrived.brought.mem n (by simp [harrived.loose.data])
      rw [hpgdir]
      apply (lookup_spec harrived.resident.paged harrived.resident.dir hv).imp
      rintro r w' ⟨rfl, rfl⟩
      rw [hleaf, hkinds _ hgranted, if_pos rfl, hframe]
      refine ⟨hlist, hfed, ⟨by rw [hleaf, valid_pteCreate], by rw [hleaf, hframe], ?_, ?_⟩, role',
        l', hapart, hpgdir, harrived.resident, h.full.arrived h.resident hperm harrived, ?_⟩
      · -- a page with contents is on the device
        intro words hwords
        rcases h.full.entry _ hv hvalid with hzero | ⟨hentry, _⟩
        · rw [content_zero hzero] at hwords
          cases hwords
        · rw [content_slot hv hentry] at hwords
          rw [hmem, ← Option.some.inj hwords]
          exact hdevice hread (by rw [hentry]; exact slotEntry_ne_zero hv)
      · intro v' hv' hne
        rw [content_arrived h.resident h.full hperm harrived hv', if_neg hne]
      · intro v' hv' hvalid'
        by_cases heq : v' = ppn addr
        · rw [heq, hleaf]
          exact hgranted
        · have hsame := harrived.entry h.resident.dir hv' heq hvalid'
          rw [hsame] at hvalid' ⊢
          exact h.granted v' hv' hvalid'

end

/-- Writing a byte of a page that is mapped. -/
theorem Serving.store {mm : MmStruct} {addr page : Nat} (h : Serving b pol mm role s l)
    (hv : ppn addr < userPages)
    (hvalid : valid (leaf s.mem b.checkMm (ppn addr)) = true)
    (hframe : frame (leaf s.mem b.checkMm (ppn addr)) = page)
    (byte : BitVec 8) :
    Ends E (storeByte page addr byte) s fun _ t => Serving b pol mm role t l ∧ ∃ words,
      (∀ v', v' < userPages → content t b.checkMm v' =
        if v' = ppn addr then some words else content s b.checkMm v') ∧
      ∀ addr', ppn addr' = ppn addr → byteOf words addr' =
        if addr' = addr then byte else byteOf (s.mem page) addr' := by
  have hdata := h.resident.paged.tree.data h.resident.dir hv hvalid
  subst hframe
  have hleaf := fun words => (h.resident.paged.fill hdata words).2
  rw [storeByte, ends_modify, write_eq_fill]
  refine ⟨⟨h.apart, h.pgdir, h.resident.fill hdata _, ⟨?_, ?_⟩, ?_⟩, _,
    fun v' hv' => content_fill h.resident hv hvalid _ hv', ?_⟩
  · intro v' hv' hvalid'
    rw [hleaf _ _ v' h.resident.dir hv'] at hvalid' ⊢
    exact h.full.listed v' hv' hvalid'
  · intro v' hv' hvalid'
    rw [hleaf _ _ v' h.resident.dir hv'] at hvalid' ⊢
    exact h.full.entry v' hv' hvalid'
  · intro v' hv' hvalid'
    rw [hleaf _ _ v' h.resident.dir hv'] at hvalid' ⊢
    exact h.granted v' hv' hvalid'
  · intro addr' hpage
    have hlt : addr % 8 < 8 := Nat.mod_lt _ (by decide)
    have hlt' : addr' % 8 < 8 := Nat.mod_lt _ (by decide)
    unfold byteOf
    by_cases hword : addr' % PGSIZE / 8 = addr % PGSIZE / 8
    · rw [hword, Function.update_self, byteAt_setByte _ _ hlt hlt']
      by_cases hbyte : addr' % 8 = addr % 8
      · rw [if_pos hbyte, if_pos (addr_eq hpage hword hbyte)]
      · rw [if_neg hbyte, if_neg fun heq => hbyte (by rw [heq])]
    · rw [Function.update_of_ne hword, if_neg fun heq => hword (by rw [heq])]

/-- What an access leaves: the page had the contents `words` when it was there. -/
structure Answered (b : Backing) (mm : MmStruct) (s : Kern) (access : Access)
    (byte : Option (BitVec 8)) (t : Kern) (words words' : Nat → Pte) : Prop where
  first : ∀ page mm' u, reach b mm access.kind access.addr s = .ok ((page, mm'), u) →
    u.mem page = words
  before : ∀ old, content s b.checkMm (ppn access.addr) = some old → old = words
  after : ∀ v, v < userPages →
    content t b.checkMm v = if v = ppn access.addr then some words' else content s b.checkMm v
  read : ∀ addr, access = .read addr → byte = some (byteOf words addr) ∧ words' = words
  write : ∀ addr new, access = .write addr new → byte = none ∧ ∀ addr', ppn addr' = ppn addr →
    byteOf words' addr' = if addr' = addr then new else byteOf words addr'

section

variable (hrounds : E .runaway ∨ (∀ tick, b.write tick = 0) ∧ npage < b.rounds)

include hrounds

theorem serve_spec {mm : MmStruct} {access : Access} (h : Serving b pol mm role s l)
    (hread : b.read = 0) (haddr : Permitted mm access.addr)
    (hempty : E .emptyList ∨ Complete b.al ∧ Fed b.checkMm s l (ppn access.addr)) :
    Ends E (serve b mm access) s fun r t => r.2.mmapList = mm.mmapList ∧
      (∃ role' l', Serving b pol r.2 role' t l') ∧
      Fed b.checkMm s l (ppn access.addr) ∧
      ∃ words words', Answered b mm s access r.1 t words words' := by
  have hv := haddr.1.user
  have hkind : access.kind ≠ .execute := by
    cases access with
    | read addr => exact AccessKind.noConfusion
    | write addr byte => exact AccessKind.noConfusion
  have hreach := (reach_spec hrounds h hread haddr hkind hempty).and
    (Ends.self (reach b mm access.kind access.addr) s)
  cases access with
  | read addr =>
      rw [serve, ends_bind]
      apply hreach.imp
      rintro ⟨page, mm'⟩ t ⟨⟨hlist, hfed, hreachable, hserving⟩, hrun⟩
      refine ⟨hlist, hserving, hfed, t.mem page, t.mem page, ?_, fun old hold =>
        (hreachable.same old hold).symm, ?_, ?_, ?_⟩
      · intro page' mm₂ u hrun'
        obtain ⟨⟨rfl, rfl⟩, rfl⟩ : (page = page' ∧ mm' = mm₂) ∧ t = u := by
          simpa using hrun.symm.trans hrun'
        rfl
      · intro v' hv'
        by_cases heq : v' = ppn (Access.read addr).addr
        · rw [if_pos heq, heq, content_valid hreachable.valid, hreachable.frame]
        · rw [if_neg heq, hreachable.others v' hv' heq]
      · rintro _ ⟨⟩
        exact ⟨rfl, rfl⟩
      · rintro _ _ ⟨⟩
  | write addr byte =>
      rw [serve, ends_bind]
      apply hreach.imp
      rintro ⟨page, mm'⟩ t ⟨⟨hlist, hfed, hreachable, role', l', hserving⟩, hrun⟩
      rw [ends_bind]
      apply (hserving.store hv hreachable.valid hreachable.frame byte).imp
      rintro _ w ⟨hserving', words', hafter, hbytes⟩
      refine ⟨hlist, ⟨role', l', hserving'⟩, hfed, t.mem page, words', ?_, fun old hold =>
        (hreachable.same old hold).symm, ?_, ?_, ?_⟩
      · intro page' mm₂ u hrun'
        obtain ⟨⟨rfl, rfl⟩, rfl⟩ : (page = page' ∧ mm' = mm₂) ∧ t = u := by
          simpa using hrun.symm.trans hrun'
        rfl
      · intro v' hv'
        rw [hafter v' hv']
        by_cases heq : v' = ppn (Access.write addr byte).addr
        · rw [if_pos heq, if_pos heq]
        · rw [if_neg heq, if_neg heq, hreachable.others v' hv' heq]
      · rintro _ ⟨⟩
      · rintro _ _ ⟨⟩
        exact ⟨rfl, hbytes⟩

end

/-! ## Runs -/

/-- The memory has the bytes of the pages that have been accessed, wherever they are: `content`
looks in the frame or on the swap device. -/
def Agrees (pgdir : Nat) (s : Kern) (m : Nat → BitVec 8) : Prop :=
  ∀ addr words, ppn addr < userPages → content s pgdir (ppn addr) = some words →
    byteOf words addr = m addr

/-- The memory with other contents on the page `v`. -/
def overlay (v : Nat) (words : Nat → Pte) (m : Nat → BitVec 8) (addr : Nat) : BitVec 8 :=
  if ppn addr = v then byteOf words addr else m addr

/-- An access takes the memory with the contents before it to the one with those after it. -/
theorem Answered.overlay {mm : MmStruct} {access : Access} {byte : Option (BitVec 8)}
    {words words' : Nat → Pte}
    {m : Nat → BitVec 8} (h : Answered b mm s access byte t words words')
    (hv : ppn access.addr < userPages)
    (hagrees : Agrees b.checkMm t m) (rest : List Access) :
    plainReads (access :: rest)
    (overlay (ppn access.addr) words m) = byte.toList ++ plainReads rest m ∧
      plainMemory (access :: rest) (overlay (ppn access.addr) words m) = plainMemory rest m := by
  have hpage : content t b.checkMm (ppn access.addr) = some words' := by
    rw [h.after _ hv, if_pos rfl]
  have hthere : ∀ addr, ppn addr = ppn access.addr → byteOf words' addr = m addr := by
    intro addr haddr
    exact hagrees addr words' (haddr ▸ hv) (haddr ▸ hpage)
  cases access with
  | read addr =>
      obtain ⟨hbyte, hsame⟩ := h.read addr rfl
      have hm : Paging.overlay (ppn addr) words m = m := by
        funext addr'
        unfold Paging.overlay
        split
        next haddr => rw [← hsame, hthere addr' haddr]
        next => rfl
      have hbyte' : byteOf words addr = m addr := by rw [← hsame, hthere addr rfl]
      change plainReads (.read addr :: rest) (Paging.overlay (ppn addr) words m) = _ ∧
        plainMemory (.read addr :: rest) (Paging.overlay (ppn addr) words m) = _
      rw [hm, hbyte, plainReads, plainMemory, hbyte']
      exact ⟨rfl, rfl⟩
  | write addr new =>
      obtain ⟨hbyte, hnew⟩ := h.write addr new rfl
      have hm : Function.update (Paging.overlay (ppn addr) words m) addr new = m := by
        funext addr'
        by_cases heq : addr' = addr
        · rw [heq, Function.update_self, ← hthere addr rfl, hnew addr rfl, if_pos rfl]
        · rw [Function.update_of_ne heq, Paging.overlay]
          split
          next haddr =>
            have hold := hnew addr' haddr
            rw [if_neg heq] at hold
            rw [← hold, hthere addr' haddr]
          next => rfl
      change plainReads (.write addr new :: rest) (Paging.overlay (ppn addr) words m) = _ ∧
        plainMemory (.write addr new :: rest) (Paging.overlay (ppn addr) words m) = _
      rw [plainReads, plainMemory, hm, hbyte]
      exact ⟨rfl, rfl⟩

/-- The contents of the frame that a page gets at its first access are its first contents. The
kernel does not clear the frame, so they can be any. -/
def Initial (b : Backing) (accesses : List Access) (mm : MmStruct) (s : Kern) (m : Nat → BitVec 8) :
    Prop :=
  ∀ before access after, accesses = before ++ access :: after → ∀ reads mm₁ s₁ page mm₂ s₂,
    runAccesses b before mm s = .ok ((reads, mm₁), s₁) →
      content s₁ b.checkMm (ppn access.addr) = none →
    reach b mm₁ access.kind access.addr s₁ = .ok ((page, mm₂), s₂) →
    ∀ addr, ppn addr = ppn access.addr → m addr = byteOf (s₂.mem page) addr

/-- Whenever an access of the run asks for a frame, one is free or a page can be swapped out:
in each state that the accesses before it lead to, the next one is fed. -/
def Supplied (b : Backing) (accesses : List Access) (mm : MmStruct) (s : Kern) : Prop :=
  ∀ before access after, accesses = before ++ access :: after → ∀ reads mm₁ s₁ l,
    runAccesses b before mm s = .ok ((reads, mm₁), s₁) →
    s₁.swap.praList.Ring .praListHead (l.map .praPageLink) → Fed b.checkMm s₁ l (ppn access.addr)

theorem Supplied.head {mm : MmStruct} {access : Access} {rest : List Access}
    (h : Supplied b (access :: rest) mm s) (hheld : pol.Held s.swap l) :
    Fed b.checkMm s l (ppn access.addr) :=
  h [] access rest rfl [] mm s l rfl (pol.ring hheld)

/-- A run without accesses stays where it is. -/
theorem runAccesses_nil {mm mm₁ : MmStruct} {reads : List (BitVec 8)}
    (hrun : runAccesses b [] mm s = .ok ((reads, mm₁), t)) : mm = mm₁ ∧ s = t := by
  obtain ⟨hresult, hstate⟩ := Prod.mk.inj (Except.ok.inj hrun)
  exact ⟨(Prod.mk.inj hresult).2, hstate⟩

/-- A run after its first access. -/
theorem runAccesses_cons {mm mm' mm₁ : MmStruct} {access : Access} {byte : Option (BitVec 8)}
    {before : List Access} {reads : List (BitVec 8)}
    (hrun : serve b mm access s = .ok ((byte, mm'), t)) :
    runAccesses b (access :: before) mm s = .ok ((reads, mm₁), u) ↔
      ∃ reads', runAccesses b before mm' t = .ok ((reads', mm₁), u) ∧
        reads = byte.toList ++ reads' := by
  rw [runAccesses, bind_ok hrun]
  change (runAccesses b before mm' t).bind _ = _ ↔ _
  cases hrest : runAccesses b before mm' t with
  | error e =>
      refine iff_of_false (fun hno => ?_) ?_
      · cases hno
      · rintro ⟨_, hno, _⟩
        cases hno
  | ok r =>
      obtain ⟨⟨reads', mm₂⟩, u'⟩ := r
      change Except.ok ((byte.toList ++ reads', mm₂), u') = _ ↔ _
      simp only [Except.ok.injEq, Prod.mk.injEq]
      constructor
      · rintro ⟨⟨rfl, rfl⟩, rfl⟩
        exact ⟨reads', ⟨⟨rfl, rfl⟩, rfl⟩, rfl⟩
      · rintro ⟨_, ⟨⟨rfl, rfl⟩, rfl⟩, rfl⟩
        exact ⟨⟨rfl, rfl⟩, rfl⟩

/-- A run is supplied if its first access is fed and what follows is supplied. -/
theorem supplied_cons {mm mm' : MmStruct} {access : Access} {rest : List Access}
    {byte : Option (BitVec 8)} (hheld : pol.Held s.swap l)
    (hrun : serve b mm access s = .ok ((byte, mm'), t)) :
    Supplied b (access :: rest) mm s ↔
      Fed b.checkMm s l (ppn access.addr) ∧ Supplied b rest mm' t := by
  constructor
  · intro h
    refine ⟨h.head hheld, fun before access' after hsplit reads mm₁ s₁ l₁ hbefore hlist => ?_⟩
    exact h (access :: before) access' after (by rw [hsplit]; rfl) _ mm₁ s₁ l₁
      ((runAccesses_cons hrun).mpr ⟨reads, hbefore, rfl⟩) hlist
  · rintro ⟨hfed, hrest⟩ before access' after hsplit reads mm₁ s₁ l₁ hbefore hlist
    cases before with
    | nil =>
        obtain ⟨rfl, rfl⟩ := List.cons.inj hsplit
        obtain ⟨_, rfl⟩ := runAccesses_nil hbefore
        rwa [ring_unique hlist (pol.ring hheld)]
    | cons first before =>
        obtain ⟨rfl, htail⟩ := List.cons.inj hsplit
        obtain ⟨reads', hbefore', _⟩ := (runAccesses_cons hrun).mp hbefore
        exact hrest before access' after htail reads' mm₁ s₁ l₁ hbefore' hlist

/-- The areas stay, and so does what they permit. -/
theorem Permitted.congr {mm mm' : MmStruct} {addr : Nat} (h : Permitted mm addr)
    (hlist : mm'.mmapList = mm.mmapList) : Permitted mm' addr :=
  ⟨h.1, by rw [hlist]; exact h.2⟩

section

variable (hrounds : E .runaway ∨ (∀ tick, b.write tick = 0) ∧ npage < b.rounds)

include hrounds

/-- The invariant over a run, in which no page loses its contents and those accessed have
some. A run that returns has been supplied, and one that is supplied returns. -/
theorem runAccesses_spec {mm : MmStruct} (accesses : List Access) (h : Serving b pol mm role s l)
    (hread : b.read = 0) (hpermitted : ∀ access ∈ accesses, Permitted mm access.addr)
    (hempty : E .emptyList ∨ Complete b.al ∧ Supplied b accesses mm s) :
    Ends E (runAccesses b accesses mm) s fun r t => Supplied b accesses mm s ∧
      (∃ role' l', Serving b pol r.2 role' t l') ∧
      (∀ v, v < userPages → content s b.checkMm v ≠ none → content t b.checkMm v ≠ none) ∧
      ∀ access ∈ accesses, content t b.checkMm (ppn access.addr) ≠ none := by
  induction accesses generalizing mm role s l with
  | nil =>
      refine ⟨fun before access after hsplit => ?_, ⟨role, l, h⟩, fun _ _ hne => hne,
        fun _ hmem => absurd hmem List.not_mem_nil⟩
      exact absurd hsplit.symm (by simp)
  | cons access rest ih =>
      have hheld := h.resident.held
      have hserve := (serve_spec hrounds h hread (hpermitted access List.mem_cons_self)
        (hempty.imp_right fun henough => ⟨henough.1, henough.2.head hheld⟩)).and
        (Ends.self (serve b mm access) s)
      rw [runAccesses, ends_bind]
      apply hserve.imp
      rintro ⟨byte, mm'⟩ t ⟨⟨hlist, ⟨role', l', hserving⟩, hfed, words, words', hanswered⟩, hrun⟩
      rw [ends_map]
      apply (ih hserving (fun access' hmem =>
        (hpermitted access' (List.mem_cons_of_mem access hmem)).congr hlist)
        (hempty.imp_right fun henough =>
          ⟨henough.1, ((supplied_cons hheld hrun).mp henough.2).2⟩)).imp
      rintro r u ⟨hsupplied, hserving', hkept, haccessed⟩
      refine ⟨(supplied_cons hheld hrun).mpr ⟨hfed, hsupplied⟩, hserving',
        fun v hv hne => hkept v hv ?_, fun access' hmem => ?_⟩
      · rw [hanswered.after v hv]
        split
        · exact Option.some_ne_none _
        · exact hne
      · rcases List.mem_cons.mp hmem with rfl | hmem
        · have hv := (hpermitted access' List.mem_cons_self).1.user
          refine hkept _ hv ?_
          rw [hanswered.after _ hv, if_pos rfl]
          exact Option.some_ne_none _
        · exact haccessed access' hmem

omit hrounds in
/-- The first contents of a page that the first access does not touch are those that the rest
of the run finds there. -/
theorem initial_overlay {mm mm' : MmStruct} {access : Access} {rest : List Access}
    {byte : Option (BitVec 8)} {words words' : Nat → Pte} {m : Nat → BitVec 8}
    (h : Answered b mm s access byte t words words')
    (hrun : serve b mm access s = .ok ((byte, mm'), t)) (hserving : Serving b pol mm' role t l)
    (hread : b.read = 0) (hv : ppn access.addr < userPages)
    (hpermitted : ∀ access' ∈ rest, Permitted mm' access'.addr)
    (hinitial : Initial b rest mm' t m) :
    Initial b (access :: rest) mm s (overlay (ppn access.addr) words m) := by
  intro before access' after hsplit reads mm₁ s₁ page mm₂ s₂ hbefore hnone hreach addr haddr
  cases before with
  | nil =>
      obtain ⟨rfl, rfl⟩ := List.cons.inj hsplit
      obtain ⟨rfl, rfl⟩ := runAccesses_nil hbefore
      rw [overlay, if_pos haddr, h.first page mm₂ s₂ hreach]
  | cons first before =>
      obtain ⟨rfl, hrest⟩ := List.cons.inj hsplit
      have hmem : ∀ access₂ ∈ before, access₂ ∈ rest :=
        fun access₂ h₂ => hrest ▸ List.mem_append_left _ h₂
      have hmem' : access' ∈ rest := hrest ▸ List.mem_append_right before List.mem_cons_self
      -- the rest of the run that comes before the access
      obtain ⟨reads', hrun', _⟩ := (runAccesses_cons hrun).mp hbefore
      have hends := runAccesses_spec (E := fun _ => True) (Or.inl trivial) before hserving hread
        (fun access₂ h₂ => hpermitted access₂ (hmem access₂ h₂)) (Or.inl trivial)
      obtain ⟨_, _, hkept, _⟩ := hends.post hrun'
      have hnone' : content t b.checkMm (ppn access'.addr) = none := by
        by_contra hsome
        exact hkept _ (hpermitted access' hmem').1.user hsome hnone
      have hne : ppn addr ≠ ppn access.addr := by
        intro heq
        rw [← haddr, heq, h.after _ hv, if_pos rfl] at hnone'
        cases hnone'
      rw [overlay, if_neg hne]
      exact hinitial before access' after hrest reads' mm₁ s₁ page mm₂ s₂ hrun' hnone hreach addr
        haddr

/-- The reads of a run are those of a plain memory. It starts with what the pages hold, or,
on the pages that have no contents yet, with what the run finds there first. -/
theorem runAccesses_plain {mm : MmStruct} (accesses : List Access) (h : Serving b pol mm role s l)
    (hread : b.read = 0)
    (hpermitted : ∀ access ∈ accesses, Permitted mm access.addr) (hempty : E .emptyList) :
    Ends E (runAccesses b accesses mm) s fun r t => ∃ m, Agrees b.checkMm s m ∧
      Initial b accesses mm s m ∧
      r.1 = plainReads accesses m ∧ Agrees b.checkMm t (plainMemory accesses m) := by
  induction accesses generalizing mm role s l with
  | nil =>
      have hself : Agrees b.checkMm s fun addr => match content s b.checkMm (ppn addr) with
          | some words => byteOf words addr
          | none => 0 := by
        intro addr words _ hcontent
        simp only [hcontent]
      refine ⟨_, hself, ?_, rfl, hself⟩
      intro before access after hsplit
      exact absurd hsplit.symm (by simp)
  | cons access rest ih =>
      have hv := (hpermitted access List.mem_cons_self).1.user
      have hserve := (serve_spec hrounds h hread (hpermitted access List.mem_cons_self)
        (Or.inl hempty)).and (Ends.self (serve b mm access) s)
      rw [runAccesses, ends_bind]
      apply hserve.imp
      rintro ⟨byte, mm'⟩ t ⟨⟨hlist, ⟨role', l', hserving⟩, _, words, words', hanswered⟩, hrun⟩
      have hpermitted' : ∀ access' ∈ rest, Permitted mm' access'.addr := fun access' hmem =>
        (hpermitted access' (List.mem_cons_of_mem access hmem)).congr hlist
      rw [ends_map]
      apply (ih hserving hpermitted').imp
      rintro ⟨reads, mm₂⟩ u ⟨m, hagrees, hinitial, rfl, hend⟩
      obtain ⟨hreads, hmemory⟩ := hanswered.overlay hv hagrees rest
      refine ⟨overlay (ppn access.addr) words m, ?_, ?_, hreads.symm, hmemory ▸ hend⟩
      · intro addr old hv' hold
        unfold overlay
        split
        next hsame => rw [hanswered.before old (hsame ▸ hold)]
        next hsame =>
          have hafter := hanswered.after _ hv'
          rw [if_neg hsame] at hafter
          exact hagrees addr old hv' (hafter.trans hold)
      · exact initial_overlay hanswered hrun hserving hread hv hpermitted' hinitial

end

/-! ## The clock, with a device that works -/

/-- The clock over a device that writes and reads back what it is given. -/
def faithfulBacking (al : Allocator) (pgdir : Nat) : Backing :=
    ⟨al, clockManager, pgdir, npage + 1, fun _ => 0, 0⟩

/-- No two pages have a frame or a slot in common: those that are present have different frames, and
those that are not have different slots. -/
structure Unshared (pgdir : Nat) (s : Kern) : Prop where
  frames : ∀ v v', v < userPages → v' < userPages → v ≠ v' → valid (leaf s.mem pgdir v) = true →
    valid (leaf s.mem pgdir v') = true → frame (leaf s.mem pgdir v) ≠ frame (leaf s.mem pgdir v')
  slots : ∀ v v', v < userPages → v' < userPages → v ≠ v' → valid (leaf s.mem pgdir v) = false →
    valid (leaf s.mem pgdir v') = false → leaf s.mem pgdir v ≠ 0#64 → leaf s.mem pgdir v' ≠ 0#64 →
    (leaf s.mem pgdir v >>> 8).toNat ≠ (leaf s.mem pgdir v' >>> 8).toNat

theorem Serving.unshared {mm : MmStruct} (h : Serving b pol mm role s l) :
    Unshared b.checkMm s := by
  constructor
  · intro v v' hv hv' hne hvalid hvalid' hframe
    exact hne (h.resident.single.once _ v _ v' h.resident.dir h.resident.dir hv hv' hvalid
      hvalid' hframe).2
  · intro v v' hv hv' hne hinvalid hinvalid' hentry hentry'
    rw [((h.full.entry v hv hinvalid).resolve_left hentry).1,
      ((h.full.entry v' hv' hinvalid').resolve_left hentry').1,
      offset_slotEntry hv, offset_slotEntry hv']
    omega

/-- Demand paging is transparent: reads return what was written last, or what the frame
that the page got first held; no two pages share a frame or a slot; and no contents are
lost. If the frame manager hands out a frame whenever one is free, then a run returns
exactly if it is supplied: if a page can be swapped out whenever no frame is free. -/
theorem paging_transparent (al : Allocator) {mm : MmStruct} {s₀ : Kern} (hmm : mm.Apart)
    (hempty : EmptyDir mm.pgdir s₀)
    (hclock : Clocked s₀.swap [] []) (accesses : List Access)
    (hpermitted : ∀ access ∈ accesses, Permitted mm access.addr) :
    Ends (fun e => e = .emptyList ∧
        ¬(Complete al ∧ Supplied (faithfulBacking al mm.pgdir) accesses mm s₀))
      (runAccesses (faithfulBacking al mm.pgdir) accesses mm) s₀ fun r t =>
      (∃ m, Initial (faithfulBacking al mm.pgdir) accesses mm s₀ m ∧ r.1 = plainReads accesses m ∧
        ∀ access ∈ accesses, ∃ words, content t mm.pgdir (ppn access.addr) = some words ∧
          ∀ addr, ppn addr = ppn access.addr → byteOf words addr = plainMemory accesses m addr) ∧
      Unshared mm.pgdir t ∧ Supplied (faithfulBacking al mm.pgdir) accesses mm s₀ := by
  have hheld : clockPolicy.Held s₀.swap [] := ⟨[], [], rfl, hclock⟩
  obtain ⟨hresident, hfull⟩ := resident_of_empty (P := HasSlot) hempty hheld
  have hserving : Serving (faithfulBacking al mm.pgdir) clockPolicy mm (emptyRole mm.pgdir s₀) s₀
      [] := by
    refine ⟨hmm, rfl, hresident, hfull, fun v hv hvalid => ?_⟩
    exact absurd (hfull.listed v hv hvalid) List.not_mem_nil
  have hworks : (∀ tick, (faithfulBacking al mm.pgdir).write tick = 0) ∧
      npage < (faithfulBacking al mm.pgdir).rounds := ⟨fun _ => rfl, Nat.lt_succ_self _⟩
  have hstops : ((Panic.emptyList = .emptyList ∧
        ¬(Complete al ∧ Supplied (faithfulBacking al mm.pgdir) accesses mm s₀)) ∨
      Complete al ∧ Supplied (faithfulBacking al mm.pgdir) accesses mm s₀) := by
    by_cases hsupplied : Complete al ∧ Supplied (faithfulBacking al mm.pgdir) accesses mm s₀
    · exact Or.inr hsupplied
    · exact Or.inl ⟨rfl, hsupplied⟩
  have hplain := runAccesses_plain (E := (· = .emptyList)) (Or.inr hworks) accesses hserving rfl
    hpermitted rfl
  apply ((runAccesses_spec (Or.inr hworks) accesses hserving rfl hpermitted hstops).and hplain).imp
  rintro r t ⟨⟨hsupplied, ⟨role', l', hserving'⟩, _, haccessed⟩, m, _, hinitial, hreads, hend⟩
  refine ⟨⟨m, hinitial, hreads, fun access hmem => ?_⟩, hserving'.unshared, hsupplied⟩
  have hv := (hpermitted access hmem).1.user
  obtain ⟨words, hwords⟩ := Option.ne_none_iff_exists'.mp (haccessed access hmem)
  refine ⟨words, hwords, fun addr haddr => ?_⟩
  exact hend addr words (haddr ▸ hv) (haddr ▸ hwords)

/-- Two pages in turn, in memory for one. -/
def twoPages : List Access := [.write 0x1000 7, .write 0x2000 9, .read 0x1000, .read 0x2000]

theorem twoPages_permitted : ∀ access ∈ twoPages, Permitted oneWritable access.addr := by
  have harea : ∀ addr, 0x1000 ≤ addr → addr < 0x6000 → ∃ vma ∈ oneWritable.mmapList,
      vma.contains addr ∧ vma.writable = true :=
    fun addr hlo hhi => ⟨_, List.mem_cons_self, ⟨hlo, hhi⟩, by decide⟩
  have hslot : ∀ v, v ≤ 2 → HasSlot v := by
    intro v hv
    unfold HasSlot max_swap_offset
    omega
  have htwo : ∀ addr, addr = 0x1000 ∨ addr = 0x2000 → Permitted oneWritable addr := by
    rintro addr (rfl | rfl)
    · exact ⟨hslot _ (by decide), harea _ (by decide) (by decide)⟩
    · exact ⟨hslot _ (by decide), harea _ (by decide) (by decide)⟩
  intro access hmem
  simp only [twoPages, List.mem_cons, List.not_mem_nil, or_false] at hmem
  rcases hmem with rfl | rfl | rfl | rfl
  · exact htwo _ (Or.inl rfl)
  · exact htwo _ (Or.inr rfl)
  · exact htwo _ (Or.inl rfl)
  · exact htwo _ (Or.inr rfl)

theorem twoPages_run :
    yields (runAccesses (faithfulBacking .lowest oneWritable.pgdir) twoPages oneWritable)
    (bootKern {0x80501, 0x80502, 0x80503}) (fun r _ => r.1 == [7, 9]) = true := by
  decide +kernel

/-- With frames for the two tables and one page the run is supplied, and so it returns. -/
theorem paging_transparent_two :
    ∃ m r t, runAccesses (faithfulBacking .lowest oneWritable.pgdir) twoPages
    oneWritable (bootKern {0x80501, 0x80502, 0x80503}) = .ok (r, t) ∧
    r.1 = plainReads twoPages m ∧ r.1 = [7, 9] ∧ Complete .lowest ∧
    Supplied (faithfulBacking .lowest oneWritable.pgdir) twoPages oneWritable
      (bootKern {0x80501, 0x80502, 0x80503}) := by
  have hempty : EmptyDir oneWritable.pgdir (bootKern {0x80501, 0x80502, 0x80503}) := emptyDir_boot
  have hclock := clocked_boot {0x80501, 0x80502, 0x80503}
  have hyields := twoPages_run
  generalize bootKern {0x80501, 0x80502, 0x80503} = s₀ at hempty hclock hyields ⊢
  obtain ⟨r, t, hrun, hpost, hreads⟩ := (paging_transparent .lowest oneWritable_apart
    hempty hclock twoPages twoPages_permitted).met hyields
  obtain ⟨⟨m, _, hplain, _⟩, _, hsupplied⟩ := hpost
  exact ⟨m, r, t, hrun, hplain, beq_iff_eq.mp hreads, Allocator.lowest_generous.choose, hsupplied⟩

end Ucore.Paging
