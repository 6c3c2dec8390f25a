import Ucore.Paging.Transparent

/-!
# First in, first out

The replacement manager of `kern/mm/swap_fifo.c` in lab 3, in place of the clock. Its list
is a queue: the pages that are in memory are the last ones that a fault has brought, and
the next one to leave is the one that came first.
-/

namespace Ucore.Paging

open Mm Mmu Machine Links

/-! ## The manager -/

def fifoInitMm : SwapM Int := lruInitMm

def fifoMapSwappable (page : Nat) : SwapM Int := lruMapSwappable page

def fifoSwapOutVictim (inTick : Int) : SwapM (Int × Option Nat) := lruSwapOutVictim inTick

/-- What sets the LRU manager apart is what `do_pgfault` does to its list. -/
def fifoManager : SwapManager := ⟨fifoInitMm, fifoMapSwappable, fifoSwapOutVictim⟩

/-- The pages, the last one to come first. -/
def fifoPolicy : Policy fifoManager := lruPolicy

/-- The queue over a device that works. -/
def fifoBacking (al : Allocator) (pgdir : Nat) : Backing :=
    ⟨al, fifoManager, pgdir, npage + 1, fun _ => 0, 0⟩

/-- Makes the accesses in turn; returns the pages that faulted, the last one first. -/
def arrivals (b : Backing) : List Access → MmStruct → List Nat → KernM (List Nat × MmStruct)
  | [], mm, log => pure (log, mm)
  | access :: rest, mm, log => do
      let found ← lookup mm.pgdir access.kind access.addr
      let (_, mm) ← serve b mm access
      arrivals b rest mm (if found.isSome then log else ppn access.addr :: log)

variable {role role' role'' : Nat → Role} {s t u : Kern} {l l' l₁ log : List Nat} {P : Nat → Prop}
  {al : Allocator} {b : Backing} {pol : Policy b.sm} {E : Panic → Prop}
  {d v n pgdir : Nat} {mm : MmStruct}

/-! ## What a fault brings -/

/-- Either the page is there and nothing changes, or it comes. -/
def Met (b : Backing) (pol : Policy b.sm) (role : Nat → Role) (s : Kern) (l : List Nat) (v : Nat)
    (t : Kern) : Prop :=
  valid (leaf s.mem b.checkMm v) = true ∧ t = s ∨
    valid (leaf s.mem b.checkMm v) = false ∧
      ∃ perm n u role' l₁ l', Arrived b pol HasSlot role s l v perm n u role' l₁ l' t

theorem Access.kind_ne (access : Access) : access.kind ≠ .execute := by
  cases access with
  | read addr => exact AccessKind.noConfusion
  | write addr byte => exact AccessKind.noConfusion

/-- A page that is there may be read and written. -/
theorem Serving.permits {kind : AccessKind} (h : Serving b pol mm role s l) (hv : v < userPages)
    (hkind : kind ≠ .execute) : permits (leaf s.mem b.checkMm v) kind =
      valid (leaf s.mem b.checkMm v) := by
  cases hvalid : valid (leaf s.mem b.checkMm v) with
  | false => simp [Mmu.permits, hvalid]
  | true =>
      obtain ⟨hread, hwrite⟩ := h.granted v hv hvalid
      cases kind with
      | read => exact hread
      | write => exact hwrite
      | execute => exact absurd rfl hkind

theorem reach_met {kind : AccessKind} {addr : Nat}
    (hrounds : E .runaway ∨ (∀ tick, b.write tick = 0) ∧ npage < b.rounds)
    (h : Serving b pol mm role s l) (haddr : Permitted mm addr) (hkind : kind ≠ .execute)
    (hempty : E .emptyList ∨ Complete b.al ∧ Fed b.checkMm s l (ppn addr)) :
    Ends E (reach b mm kind addr) s fun _ t => Met b pol role s l (ppn addr) t := by
  have hv := haddr.1.user
  obtain ⟨hslot, vma, hvma, hcontains, hwritable⟩ := haddr
  rw [reach, ends_bind, h.pgdir]
  apply (lookup_spec h.resident.paged h.resident.dir hv).imp
  rintro r t ⟨rfl, rfl⟩
  rw [h.permits hv hkind]
  cases hvalid : valid (leaf t.mem b.checkMm (ppn addr)) with
  | true => exact .inl ⟨hvalid, rfl⟩
  | false =>
      simp only [Bool.false_eq_true, if_false, ends_bind]
      apply (doPgfault_spec (Or.inr fun _ hP => hP) hrounds h.apart h.pgdir hvma
        hcontains h.resident
        h.full hv hslot hvalid (hempty.imp_right fun henough => henough.imp_right fun hfed =>
          hfed.resolve_left (by simp [hvalid]))).imp
      rintro ⟨_, mm'⟩ w ⟨hr, n, u, role', l₁, l', harrived, -⟩
      obtain ⟨rfl, rfl⟩ := Prod.mk.inj hr
      have hpgdir : (findVma mm addr).2.pgdir = b.checkMm := (findVma_pgdir mm addr).trans h.pgdir
      have hleaf := harrived.brought.leaf b.checkMm (ppn addr) harrived.before.dir hv
      rw [if_pos ⟨rfl, rfl⟩] at hleaf
      have hgranted := granted_area hwritable n
      rw [hpgdir]
      apply (lookup_spec harrived.resident.paged harrived.resident.dir hv).imp
      rintro r w' ⟨rfl, rfl⟩
      have hpermits : Mmu.permits (pteCreate n (PTE_V ||| areaPerm vma)) kind = true := by
        cases kind with
        | read => exact hgranted.1
        | write => exact hgranted.2
        | execute => exact absurd rfl hkind
      rw [hleaf, hpermits]
      exact .inr ⟨hvalid, _, n, u, role', l₁, l', harrived⟩

/-! ## The queue -/

/-- The page numbers of the pages on the list, in its order. -/
def queue (s : Kern) (l : List Nat) : List Nat := l.map (place s)

/-- The queue has the last pages of the log, and no page twice. -/
structure Queued (al : Allocator) (pgdir : Nat) (mm : MmStruct) (role : Nat → Role) (s : Kern)
    (l log : List Nat) :
    Prop where
  serving : Serving (fifoBacking al pgdir) fifoPolicy mm role s l
  last : queue s l <+: log

/-- Pages leave from the end of the list. -/
theorem isPrefix_of_shrinks (h : Shrinks fifoPolicy l l₁) : l₁ <+: l := by
  induction h with
  | refl => exact List.prefix_refl l
  | tail _ hchooses ih =>
      obtain ⟨f, hsplit⟩ := hchooses
      rename_i before after _
      have hsplit : before = after ++ [f] := hsplit
      exact (hsplit ▸ List.prefix_append after [f]).trans ih

theorem queue_prefix (h : l₁ <+: l) (hplace : ∀ f ∈ l₁, place t f = place s f) :
    queue t l₁ <+: queue s l := by
  have hmap : queue t l₁ = queue s l₁ := List.map_congr_left hplace
  rw [hmap]
  exact h.map (place s)

theorem Resident.mem_queue {pol : Policy fifoManager} (h : Resident pol P pgdir role s l)
    (hfull : Full P pgdir s l)
    (hv : v < userPages) : v ∈ queue s l ↔ valid (leaf s.mem pgdir v) = true := by
  constructor
  · intro hmem
    obtain ⟨f, hf, rfl⟩ := List.mem_map.mp hmem
    exact (h.placed f hf).valid
  · intro hvalid
    have hf := hfull.listed v hv hvalid
    have hplaced := h.placed _ hf
    have hsame :=
      (h.single.once _ _ _ v h.dir h.dir hplaced.user hv hplaced.valid hvalid hplaced.frame).2
    exact List.mem_map.mpr ⟨_, hf, hsame⟩

theorem Resident.queue_nodup {pol : Policy fifoManager} (h : Resident pol P pgdir role s l) :
    (queue s l).Nodup :=
  List.Nodup.map_on (fun _ hf _ hg heq => (h.placed _ hf).inj (h.placed _ hg) heq) h.nodup

/-- The page that comes goes to the front, and the pages that leave were at the end. -/
theorem Arrived.queued {perm : Pte}
    (h : Arrived (fifoBacking al pgdir) fifoPolicy P role s l v perm n u role' l₁ l' t) :
    ∃ rest, queue t l' = v :: rest ∧ rest <+: queue s l := by
  have hadds : l' = n :: l₁ := h.adds
  have hplace := h.brought.place
  refine ⟨queue t l₁, ?_, queue_prefix (isPrefix_of_shrinks (h.shrinks fun _ => rfl)) fun f hf =>
    ?_⟩
  · rw [hadds]
    change place t n :: _ = _
    rw [hplace n, if_pos rfl]
    rfl
  · have hne : f ≠ n := fun heq => h.loose.off (heq ▸ hf)
    rw [hplace f, if_neg hne]
    unfold place
    rw [h.evicts.praVaddr]

/-- What was met takes the queue to one for the longer log. -/
theorem Queued.met {mm' : MmStruct} (h : Queued al pgdir mm role s l log)
    (hmet : Met (fifoBacking al pgdir) fifoPolicy role s l v t)
    (hserving : Serving (fifoBacking al pgdir) fifoPolicy mm' role' t l') :
    Queued al pgdir mm' role' t l' (if valid (leaf s.mem pgdir v) then log else v :: log) := by
  refine ⟨hserving, ?_⟩
  rcases hmet with ⟨hvalid, rfl⟩ | ⟨hvalid, perm, n, u, role₁, l₁, l₂, harrived⟩
  · have hthere : valid (leaf t.mem pgdir v) = true := hvalid
    rw [if_pos hthere, ring_unique hserving.resident.held h.serving.resident.held]
    exact h.last
  · have hinvalid : ¬valid (leaf s.mem pgdir v) = true := by
      intro hthere
      have hthere : valid (leaf s.mem (fifoBacking al pgdir).checkMm v) = true := hthere
      rw [hvalid] at hthere
      cases hthere
    obtain ⟨rest, hqueue, hprefix⟩ := harrived.queued
    rw [if_neg hinvalid, ring_unique hserving.resident.held harrived.resident.held, hqueue]
    exact List.cons_prefix_cons.mpr ⟨rfl, hprefix.trans h.last⟩

theorem Queued.store {addr page : Nat} (h : Queued al pgdir mm role s l log)
    (hv : ppn addr < userPages)
    (hvalid : valid (leaf s.mem pgdir (ppn addr)) = true)
    (hframe : frame (leaf s.mem pgdir (ppn addr)) = page)
    (byte : BitVec 8) :
    Ends E (storeByte page addr byte) s fun _ t => Queued al pgdir mm role t l log := by
  have hswap : Ends E (storeByte page addr byte) s fun _ t => t.swap = s.swap := rfl
  apply ((h.serving.store hv hvalid hframe byte).and hswap).imp
  rintro _ t ⟨⟨hserving, -⟩, hsame⟩
  refine ⟨hserving, ?_⟩
  have hqueue : queue t l = queue s l := by
    unfold queue place
    rw [hsame]
  rw [hqueue]
  exact h.last

/-! ## Runs -/

/-- The queue writes to its device, and goes round often enough. -/
theorem fifo_rounds (al : Allocator) (pgdir : Nat) : E .runaway ∨
    (∀ tick, (fifoBacking al pgdir).write tick = 0) ∧ npage < (fifoBacking al pgdir).rounds :=
  .inr ⟨fun _ => rfl, Nat.lt_succ_self _⟩

theorem serve_queued {access : Access} (h : Queued al pgdir mm role s l log)
    (haddr : Permitted mm access.addr)
    (hempty : E .emptyList ∨ Complete al ∧ Fed pgdir s l (ppn access.addr)) :
    Ends E (serve (fifoBacking al pgdir) mm access) s fun r t => r.2.mmapList = mm.mmapList ∧
      Fed pgdir s l (ppn access.addr) ∧ ∃ role' l', Queued al pgdir r.2 role' t l'
        (if valid (leaf s.mem pgdir (ppn access.addr)) then log else ppn access.addr :: log) := by
  have hrounds := fifo_rounds (E := E) al pgdir
  have hreach := (reach_spec hrounds h.serving rfl haddr access.kind_ne hempty).and
    (reach_met hrounds h.serving haddr access.kind_ne hempty)
  cases access with
  | read addr =>
      rw [serve, ends_bind]
      apply hreach.imp
      rintro ⟨page, mm'⟩ t ⟨⟨hlist, hfed, _, role', l', hserving⟩, hmet⟩
      exact ⟨hlist, hfed, role', l', h.met hmet hserving⟩
  | write addr byte =>
      rw [serve, ends_bind]
      apply hreach.imp
      rintro ⟨page, mm'⟩ t ⟨⟨hlist, hfed, hreachable, role', l', hserving⟩, hmet⟩
      rw [ends_bind]
      apply ((h.met hmet hserving).store haddr.1.user hreachable.valid hreachable.frame byte).imp
      exact fun _ _ hqueued => ⟨hlist, hfed, role', l', hqueued⟩

theorem arrivals_queued (accesses : List Access) (h : Queued al pgdir mm role s l log)
    (hpermitted : ∀ access ∈ accesses, Permitted mm access.addr)
    (hempty : E .emptyList ∨ Complete al ∧ Supplied (fifoBacking al pgdir) accesses mm s) :
    Ends E (arrivals (fifoBacking al pgdir) accesses mm log) s fun r t =>
      Supplied (fifoBacking al pgdir) accesses mm s ∧
        ∃ role' l', Queued al pgdir r.2 role' t l' r.1 := by
  induction accesses generalizing mm role s l log with
  | nil =>
      refine ⟨fun before access after hsplit => ?_, role, l, h⟩
      exact absurd hsplit.symm (by simp)
  | cons access rest ih =>
      have haddr := hpermitted access List.mem_cons_self
      have hv := haddr.1.user
      rw [arrivals, ends_bind, h.serving.pgdir]
      apply (lookup_spec h.serving.resident.paged h.serving.resident.dir hv).imp
      rintro found s' ⟨rfl, rfl⟩
      have hheld := h.serving.resident.held
      have hserve := (serve_queued h haddr (hempty.imp_right fun henough =>
        ⟨henough.1, henough.2.head hheld⟩)).and
          (Ends.self (serve (fifoBacking al pgdir) mm access) s')
      rw [h.serving.permits hv access.kind_ne, ends_bind]
      apply hserve.imp
      rintro ⟨_, mm'⟩ t ⟨⟨hlist, hfed, role', l', hqueued⟩, hrun⟩
      have hlog : (if (if valid (leaf s'.mem pgdir (ppn access.addr)) = true
          then some (frame (leaf s'.mem pgdir (ppn access.addr))) else none).isSome then log
          else ppn access.addr :: log) =
          if valid (leaf s'.mem pgdir (ppn access.addr)) then log else ppn access.addr :: log := by
        cases valid (leaf s'.mem pgdir (ppn access.addr)) with
        | false => rfl
        | true => rfl
      change Ends E (arrivals _ rest mm' (if (if valid (leaf s'.mem pgdir (ppn access.addr)) = true
          then some (frame (leaf s'.mem pgdir (ppn access.addr))) else none).isSome then log
          else ppn access.addr :: log)) t _
      rw [hlog]
      apply (ih hqueued (fun access' hmem =>
        (hpermitted access' (List.mem_cons_of_mem _ hmem)).congr hlist)
        (hempty.imp_right fun henough =>
          ⟨henough.1, ((supplied_cons hheld hrun).mp henough.2).2⟩)).imp
      exact fun r u hlast => hlast.imp_left fun hrest =>
        (supplied_cons hheld hrun).mpr ⟨hfed, hrest⟩

/-- The pages in memory are the last ones that faults have brought, and the list of the
manager has them in the order in which they came: the next page to leave came first. If the
frame manager hands out a frame whenever one is free, a run stops only where it is not
supplied: where no frame is left and no page can be swapped out. -/
theorem fifo_resident (al : Allocator) {mm : MmStruct} {s₀ : Kern} (hmm : mm.Apart)
    (hempty : EmptyDir mm.pgdir s₀) (hlist : fifoPolicy.Held s₀.swap []) (accesses : List Access)
    (hpermitted : ∀ access ∈ accesses, Permitted mm access.addr) :
    Ends (fun e => e = .emptyList ∧
      ¬(Complete al ∧ Supplied (fifoBacking al mm.pgdir) accesses mm s₀))
      (arrivals (fifoBacking al mm.pgdir) accesses mm []) s₀ fun r t =>
      Supplied (fifoBacking al mm.pgdir) accesses mm s₀ ∧ ∃ k l,
      fifoPolicy.Held t.swap l ∧ queue t l = r.1.take k ∧ (r.1.take k).Nodup ∧
      ∀ v, v < userPages → (v ∈ r.1.take k ↔ valid (leaf t.mem mm.pgdir v) = true) := by
  obtain ⟨hresident, hfull⟩ := resident_of_empty (P := HasSlot) hempty hlist
  have hserving : Serving (fifoBacking al mm.pgdir) fifoPolicy mm (emptyRole mm.pgdir s₀) s₀
      [] := by
    refine ⟨hmm, rfl, hresident, hfull, fun v hv hvalid => ?_⟩
    exact absurd (hfull.listed v hv hvalid) List.not_mem_nil
  have hstops : (Panic.emptyList = .emptyList ∧
        ¬(Complete al ∧ Supplied (fifoBacking al mm.pgdir) accesses mm s₀)) ∨
      Complete al ∧ Supplied (fifoBacking al mm.pgdir) accesses mm s₀ := by
    by_cases hsupplied : Complete al ∧ Supplied (fifoBacking al mm.pgdir) accesses mm s₀
    · exact Or.inr hsupplied
    · exact Or.inl ⟨rfl, hsupplied⟩
  apply (arrivals_queued accesses ⟨hserving, List.prefix_refl []⟩ hpermitted hstops).imp
  rintro ⟨log, mm'⟩ t ⟨hsupplied, role', l', hqueued⟩
  have hlast := List.prefix_iff_eq_take.mp hqueued.last
  refine ⟨hsupplied, _, l', hqueued.serving.resident.held, hlast, ?_, fun v hv => ?_⟩
  · rw [← hlast]
    exact hqueued.serving.resident.queue_nodup
  · rw [← hlast]
    exact hqueued.serving.resident.mem_queue hqueued.serving.full hv

theorem twoPages_arrivals : yields (arrivals (fifoBacking .lowest oneWritable.pgdir)
    twoPages oneWritable []) (bootKern {0x80501, 0x80502, 0x80503})
    (fun r _ => r.1 == [2, 1, 2, 1]) = true := by
  decide +kernel

/-- Two pages take turns in one frame, and the run is supplied. -/
theorem fifo_resident_two : ∃ r t k l, arrivals (fifoBacking .lowest oneWritable.pgdir) twoPages
    oneWritable [] (bootKern {0x80501, 0x80502, 0x80503}) = .ok (r, t) ∧
    r.1 = [2, 1, 2, 1] ∧ queue t l = r.1.take k ∧ Complete .lowest ∧
    Supplied (fifoBacking .lowest oneWritable.pgdir) twoPages oneWritable
      (bootKern {0x80501, 0x80502, 0x80503}) := by
  have hempty : EmptyDir oneWritable.pgdir (bootKern {0x80501, 0x80502, 0x80503}) := emptyDir_boot
  have hlist : fifoPolicy.Held (bootKern {0x80501, 0x80502, 0x80503}).swap [] :=
    ring_nil_iff.mpr ⟨rfl, rfl⟩
  have hyields := twoPages_arrivals
  generalize bootKern {0x80501, 0x80502, 0x80503} = s₀ at hempty hlist hyields ⊢
  obtain ⟨r, t, hrun, ⟨hsupplied, k, l, _, hqueue, _⟩, hlog⟩ := (fifo_resident .lowest
    oneWritable_apart hempty hlist twoPages twoPages_permitted).met hyields
  exact ⟨r, t, k, l, hrun, beq_iff_eq.mp hlog, hqueue, Allocator.lowest_generous.choose, hsupplied⟩

end Ucore.Paging
