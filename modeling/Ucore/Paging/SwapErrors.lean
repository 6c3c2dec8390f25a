import Ucore.Paging.Fault

/-!
# Failures of the swap device

What `swap_out`, `swap_in` and `do_pgfault` make of a device that fails. A page that
could not be written stays where it is, but it is counted; a read that failed is
forgotten.
-/

namespace Ucore.Paging

open Mm Mmu Machine

/-- How many of the writes from number `tick` on the device takes. -/
def written (b : Backing) : Nat → Nat → Nat
  | _, 0 => 0
  | tick, k + 1 => (if b.write tick = 0 then 1 else 0) + written b (tick + 1) k

variable {role : Nat → Role} {s t : Kern} {l : List Nat} {pgdir : Nat} {P : Nat → Prop}
  {E : Panic → Prop}
  {b : Backing}

theorem written_le (b : Backing) (tick k : Nat) : written b tick k ≤ k := by
  induction k generalizing tick with
  | zero => exact Nat.le_refl 0
  | succ k ih =>
      have hrest := ih (tick + 1)
      rw [written]
      split
      · omega
      · omega

/-- All of them are taken if none fails. -/
theorem written_eq_iff (b : Backing) (tick k : Nat) :
    written b tick k = k ↔ ∀ j < k, b.write (tick + j) = 0 := by
  induction k generalizing tick with
  | zero => exact iff_of_true rfl fun j hj => absurd hj (Nat.not_lt_zero j)
  | succ k ih =>
      have hrest := written_le b (tick + 1) k
      rw [written]
      constructor
      · intro hcount
        have hfirst : b.write tick = 0 := by
          by_contra hfail
          rw [if_neg hfail] at hcount
          omega
        rw [if_pos hfirst] at hcount
        have hall := (ih (tick + 1)).mp (by omega)
        intro j hj
        cases j with
        | zero => exact hfirst
        | succ j =>
            rw [Nat.add_comm j 1, ← Nat.add_assoc]
            exact hall j (Nat.lt_of_succ_lt_succ hj)
      · intro hall
        have hfirst : b.write tick = 0 := hall 0 (Nat.succ_pos k)
        have hcount : written b (tick + 1) k = k := by
          refine (ih (tick + 1)).mpr fun j hj => ?_
          rw [Nat.add_assoc, Nat.add_comm 1 j]
          exact hall (j + 1) (Nat.succ_lt_succ hj)
        rw [if_pos hfirst, hcount, Nat.add_comm]

/-- What `k` rounds of `swap_out` leave: the pages `l'` are those that are still there. -/
structure Passed (b : Backing) (pol : Policy b.sm) (P : Nat → Prop) (pgdir : Nat)
    (role : Nat → Role) (l : List Nat)
    (s : Kern) (k : Nat) (role' : Nat → Role) (l' : List Nat) (t : Kern) : Prop where
  resident : Resident pol P pgdir role' t l'
  evicts : Evicts pgdir role role' l l' s t
  count : l.length = l'.length + written b s.tick k
  free : s.free ⊆ t.free
  freed : ∀ f ∈ l, f ∉ l' → f ∈ t.free

theorem Passed.start {pol : Policy b.sm} (h : Resident pol P pgdir role s l) :
    Passed b pol P pgdir role l s 0 role l s :=
  ⟨h, .refl _ _ _ _, rfl, fun _ hf => hf, fun _ hf hgone => absurd hf hgone⟩

theorem swapOutLoop_spec {pol : Policy b.sm}
    (hslot : E .swapEntry ∨ ∀ v, P v → v + 1 < max_swap_offset) (k : Nat)
    (i : Int) (hempty : E .emptyList ∨ k ≤ l.length) (h : Resident pol P pgdir role s l) :
    Ends E (swapOutLoop b pgdir (i + k) 0 (k + 1) i) s fun r t => r = i + k ∧
      ∃ role' l', Passed b pol P pgdir role l s k role' l' t := by
  induction k generalizing i role s l with
  | zero =>
      rw [swapOutLoop, if_pos (by omega)]
      exact ⟨by omega, role, l, .start h⟩
  | succ k ih =>
      have hi : i + (k + 1 : Nat) = i + 1 + k := by omega
      rw [swapOutLoop, if_neg (by omega), ends_bind, hi]
      by_cases hne : l = []
      · subst hne
        refine swapOutPage_empty (hempty.resolve_right fun hle => ?_) h.held
        exact absurd hle (Nat.not_succ_le_zero k)
      · apply (swapOutPage_spec h hne hslot).imp
        rintro more t ⟨rfl, htick, hturn⟩
        rw [if_pos rfl]
        cases hturn with
        | out f l' hok hf hchosen hresident hout =>
            have hperm := pol.chooses hchosen
            have hlength : l.length = l'.length + 1 := by rw [hperm.length_eq, List.length_cons]
            have hempty' : E .emptyList ∨ k ≤ l'.length := hempty.imp_right fun hle => by omega
            apply (ih (i + 1) hempty' hresident).imp
            rintro r u ⟨rfl, role', l'', hpassed⟩
            refine ⟨rfl, role', l'', hpassed.resident, ?_, ?_, ?_, ?_⟩
            · exact (hout.evicts h hf hperm).trans hpassed.evicts h.paged h.dir
            · have hcount := hpassed.count
              rw [htick] at hcount
              rw [written, if_pos hok]
              omega
            · refine fun g hg => hpassed.free ?_
              rw [hout.free]
              exact Finset.mem_insert_of_mem hg
            · intro g hg hgone
              rcases List.mem_cons.mp (hperm.mem_iff.mp hg) with rfl | hgl
              · apply hpassed.free
                rw [hout.free]
                exact Finset.mem_insert_self g _
              · exact hpassed.freed g hgl hgone
        | back f l' l'' hfail hchosen hadds hresident hsame =>
            have hperm := (pol.chooses hchosen).trans (pol.adds hadds).symm
            have hempty' : E .emptyList ∨ k ≤ l''.length := hempty.imp_right fun hle => by
              rw [← hperm.length_eq]
              omega
            apply (ih (i + 1) hempty' hresident).imp
            rintro r u ⟨rfl, role', l₂, hpassed⟩
            refine ⟨rfl, role', l₂, hpassed.resident, ?_, ?_, ?_, ?_⟩
            · exact (hsame.evicts fun g => hperm.symm.mem_iff).trans hpassed.evicts h.paged h.dir
            · have hcount := hpassed.count
              rw [htick] at hcount
              rw [written, if_neg hfail, hperm.length_eq]
              omega
            · rw [← hsame.free]
              exact hpassed.free
            · exact fun g hg => hpassed.freed g (hperm.mem_iff.mp hg)

/-! ## What `swap_out` returns -/

theorem swapOutPage_tick (pol : Policy b.sm) {inTick : Int} (htick : inTick ≠ 0) :
    swapOutPage b pgdir inTick s = .error .inTick := by
  have hvictim := pol.tick (w := s.swap) htick
  have hstop : onSwap (b.sm.swapOutVictim inTick) s = .error .inTick := by
    unfold onSwap
    rw [hvictim]
    rfl
  unfold swapOutPage
  change (onSwap (b.sm.swapOutVictim inTick) s).bind _ = _
  rw [hstop]
  rfl

/-- Where `swap_out` returns it has gone round `n` times. -/
theorem swapOut_returned {pol : Policy b.sm} {n inTick i : Int} (h : Resident pol P pgdir role s l)
    (hrun : swapOut b pgdir n inTick s = .ok (i, t)) :
    i = n.toNat ∧ ∃ role' l', Passed b pol P pgdir role l s n.toNat role' l' t := by
  by_cases hzero : n = 0
  · have hdone : Ends (fun _ => True) (swapOut b pgdir n inTick) s fun r t => r = 0 ∧ t = s := by
      rw [hzero, swapOut, Int.toNat_zero, swapOutLoop, if_pos rfl]
      exact ⟨rfl, rfl⟩
    obtain ⟨rfl, rfl⟩ := hdone.post hrun
    rw [hzero]
    exact ⟨rfl, role, l, .start h⟩
  · by_cases htick : inTick = 0
    · subst htick
      by_cases hpos : 0 < n
      · obtain ⟨k, rfl⟩ : ∃ k : Nat, n = k := ⟨n.toNat, by omega⟩
        have hloop :=
          @swapOutLoop_spec role s l pgdir P (fun _ => True) b pol (Or.inl trivial) k 0
          (Or.inl trivial) h
        rw [Int.zero_add] at hloop
        rw [swapOut, Int.toNat_natCast] at hrun
        rw [Int.toNat_natCast]
        exact hloop.post hrun
      · -- the loop counts away from `n`
        have hnat : n.toNat = 0 := by omega
        have hnever : Ends (fun _ => True) (swapOut b pgdir n 0) s fun _ _ => False := by
          rw [swapOut, hnat, swapOutLoop, if_neg (fun heq => hzero heq.symm), ends_bind]
          by_cases hne : l = []
          · subst hne
            exact swapOutPage_empty trivial h.held
          · apply (swapOutPage_spec h hne (Or.inl trivial)).imp
            rintro more t ⟨rfl, _, _⟩
            trivial
        exact (hnever.post hrun).elim
    · have hstop : swapOut b pgdir n inTick s = .error .inTick := by
        rw [swapOut, swapOutLoop, if_neg (fun heq => hzero heq.symm)]
        change (swapOutPage b pgdir inTick s).bind _ = _
        rw [swapOutPage_tick pol htick]
        rfl
      rw [hstop] at hrun
      cases hrun

/-- What a caller of `swap_out` may think: it has been told how many pages are gone, these
are in their slots, and the others are still there and on the list. -/
structure Honest {sm : SwapManager} (pol : Policy sm) (pgdir : Nat) (l : List Nat) (s : Kern)
    (i : Int) (t : Kern) :
    Prop where
  count : i = ((l.filter fun f => f ∈ t.free).length : Nat)
  gone : ∀ f ∈ l, f ∈ t.free → leaf t.mem pgdir (place s f) = slotEntry (place s f) ∧
    t.swap.disk (place s f + 1) = s.mem f
  kept : ∃ l', pol.Held t.swap l' ∧ ∀ f ∈ l, f ∉ t.free → f ∈ l' ∧ Placed pgdir t f ∧
    t.mem f = s.mem f

theorem Passed.honest_iff {pol : Policy b.sm} {k : Nat} {role' : Nat → Role} {l' : List Nat}
    (h : Passed b pol P pgdir role l s k role' l' t) (hstart : Resident pol P pgdir role s l) :
    Honest pol pgdir l s k t ↔ ∀ j < k, b.write (s.tick + j) = 0 := by
  have hgone : ∀ f ∈ l, f ∈ t.free ↔ f ∉ l' := by
    intro f hf
    constructor
    · intro hfree hmem
      have hdata := h.resident.data hmem
      rw [(h.resident.paged.free f).mpr hfree] at hdata
      cases hdata
    · exact h.freed f hf
  -- the pages that are still there are those of the list `l'`
  have hcount : (l.filter fun f => f ∈ t.free).length = written b s.tick k := by
    have hfilter : (l.filter fun f => f ∈ t.free) = l.filter fun f => f ∉ l' := by
      refine List.filter_congr fun f hf => ?_
      simp [hgone f hf]
    have hperm : (l.filter fun f => f ∈ l').Perm l' := by
      refine (List.perm_ext_iff_of_nodup (hstart.nodup.filter _) h.resident.nodup).mpr fun f => ?_
      rw [List.mem_filter]
      constructor
      · exact fun hf => of_decide_eq_true hf.2
      · exact fun hf => ⟨h.evicts.sub f hf, decide_eq_true hf⟩
    have hsplit := List.length_eq_length_filter_add (l := l) fun f => decide (f ∈ l')
    have hlength := h.count
    rw [hperm.length_eq] at hsplit
    rw [hfilter]
    simp only [decide_not]
    omega
  rw [← written_eq_iff]
  constructor
  · intro hhonest
    have hk := hhonest.count
    rw [hcount] at hk
    omega
  · intro hall
    refine ⟨by rw [hcount, hall], fun f hf hfree => ?_, l', h.resident.held, fun f hf hfree => ?_⟩
    · have hplaced := hstart.placed f hf
      have hleaves : Leaves s l l' pgdir (place s f) :=
        ⟨hplaced.valid, hplaced.frame.symm ▸ hf, hplaced.frame.symm ▸ (hgone f hf).mp hfree⟩
      obtain ⟨_, hleaf, hdisk⟩ := h.evicts.out pgdir _ hstart.dir hplaced.user hleaves
      rw [hplaced.frame] at hdisk
      exact ⟨hleaf, hdisk⟩
    · have hmem : f ∈ l' := by
        by_contra hnot
        exact hfree ((hgone f hf).mpr hnot)
      exact ⟨hmem, h.resident.placed f hmem, (h.evicts.stays f (hstart.data hf) fun _ => hmem).2.1⟩

/-! ## What `swap_in` and `do_pgfault` return -/

/-- A failure to read is not reported. -/
theorem swapIn_zero (addr : Nat) :
    Ends (fun _ => True) (swapIn b pgdir addr) s fun r _ => r.1 = 0 := by
  rw [swapIn, ends_bind]
  apply (Ends.self _ _).imp
  intro r t _
  cases r with
  | none => trivial
  | some n =>
      rw [ends_bind]
      apply (Ends.self _ _).imp
      intro r u _
      cases r with
      | none => trivial
      | some p =>
          simp only [ends_bind, ends_load]
          exact (Ends.self _ _).imp fun _ _ _ => rfl

theorem faultIn_zero (addr : Nat) (perm : Pte) :
    Ends (fun _ => True) (faultIn b pgdir addr perm) s fun r _ => r = 0 := by
  rw [faultIn, ends_bind]
  apply (swapIn_zero addr).imp
  rintro ⟨r, n⟩ t rfl
  simp only [ne_eq, not_true_eq_false, if_false, ends_bind]
  exact (Ends.self _ _).imp fun _ _ _ => (Ends.self _ _).imp fun _ _ _ => rfl

/-- The fault of an address that is in an area and whose page is on the device. -/
structure OnDevice (mm : MmStruct) (s : Kern) (addr : Nat) : Prop where
  covered : mm.Covers addr
  entry : leaf s.mem mm.pgdir (ppn addr) ≠ 0#64
  absent : leaf s.mem mm.pgdir (ppn addr) &&& (PTE_V ||| PTE_R) = 0#64

theorem doPgfault_onDevice {mm : MmStruct} {addr : Nat} (hmm : mm.Apart) (hpaged : Paged role s)
    (hdir : role mm.pgdir = .dir) (hv : ppn addr < userPages) (hon : OnDevice mm s addr) :
    Ends (fun _ => True) (doPgfault b mm addr) s fun r _ => r.1 = 0 := by
  obtain ⟨vma, hvma, haddr⟩ := hon.covered
  have hsome : (findVma mm addr).1 = some vma := hmm.findVma_some.mpr ⟨hvma, haddr⟩
  have hround := ppn_rounddown addr
  rw [doPgfault, ends_bind]
  apply (present_spec hpaged hdir hv).imp
  rintro r t ⟨rfl, rfl⟩
  rw [hon.absent, if_neg (by decide)]
  cases hfind : findVma mm addr with
  | mk found mm' =>
      rw [hfind] at hsome
      obtain rfl : found = some vma := hsome
      have hpgdir : mm'.pgdir = mm.pgdir := by
        have hsame := findVma_pgdir mm addr
        rwa [hfind] at hsame
      change Ends _ (if addr < vma.vmStart then _ else _) t _
      rw [if_neg (Nat.not_lt_of_le haddr.1), ends_map, hpgdir, faultPage, ends_bind]
      obtain ⟨p, hwalk⟩ := walk_of_leaf_ne_zero hon.entry
      apply (getPte_walk hpaged hdir (by rwa [hround]) (by rwa [hround])).imp
      rintro r u ⟨rfl, rfl⟩
      simp only [ends_bind, ends_load]
      rw [← leaf_of_walk hwalk, if_neg hon.entry]
      exact faultIn_zero _ _

/-- The page is on the swap device, and the device fails to read it, so that `swapfs_read` returns
an error to `swap_in`. -/
def ReadFails (b : Backing) (mm : MmStruct) (s : Kern) (addr : Nat) : Prop :=
    b.read ≠ 0 ∧ OnDevice mm s addr

/-- Errors of the device are reported when there are none: a read that fails is not, and
`swap_out` counts the pages that it could not write. -/
theorem swap_errors (b : Backing) (pol : Policy b.sm) (P : Nat → Prop) {role : Nat → Role}
    {s : Kern} {l : List Nat}
    {mm : MmStruct} (hmm : mm.Apart) (h : Resident pol P mm.pgdir role s l) :
    (∀ addr r n t, swapIn b mm.pgdir addr s = .ok ((r, n), t) →
      ((b.read ≠ 0 → r ≠ 0) ↔ b.read = 0)) ∧
    (∀ addr ret mm' t, ppn addr < userPages → doPgfault b mm addr s = .ok ((ret, mm'), t) →
      ((ReadFails b mm s addr → ret ≠ 0 ∧ valid (leaf t.mem mm.pgdir (ppn addr)) = false) ↔
        ¬ReadFails b mm s addr)) ∧
    ∀ n inTick i t, swapOut b mm.pgdir n inTick s = .ok (i, t) →
      (Honest pol mm.pgdir l s i t ↔ ∀ j < n.toNat, b.write (s.tick + j) = 0) := by
  refine ⟨?_, ?_, ?_⟩
  · intro addr r n t hrun
    have hzero : r = 0 := (swapIn_zero addr).post hrun
    constructor
    · intro hreported
      by_contra hfail
      exact hreported hfail hzero
    · exact fun hok hfail => absurd hok hfail
  · intro addr ret mm' t hv hrun
    constructor
    · intro hreported hfail
      exact (hreported hfail).1 ((doPgfault_onDevice hmm h.paged h.dir hv hfail.2).post hrun)
    · exact fun hok hfail => absurd hfail hok
  · intro n inTick i t hrun
    obtain ⟨rfl, role', l', hpassed⟩ := swapOut_returned h hrun
    exact hpassed.honest_iff h

/-! ## A device that fails -/

/-- The first page is touched. -/
theorem touched_resident {r : Int × MmStruct} {s : Kern}
    (hrun : doPgfault clockBacking oneWritable 0x1000 (bootKern {0x80501, 0x80502, 0x80503}) =
      .ok (r, s)) :
    ∃ role n, Resident clockPolicy (fun _ => True) 0x80500 role s [n] := by
  obtain ⟨hresident, hfull⟩ :=
    resident_of_empty (P := fun _ => True) emptyDir_boot (clockHeld_boot _)
  have hinvalid : valid (leaf (bootKern {0x80501, 0x80502, 0x80503}).mem 0x80500 (ppn 0x1000)) =
      false := by decide
  have hspec := doPgfault_spec (b := clockBacking) (E := fun _ => True)
    (Or.inl trivial) (Or.inl trivial)
    oneWritable_apart rfl List.mem_cons_self (by decide) hresident hfull
      (by decide) trivial hinvalid
    (Or.inl trivial)
  obtain ⟨_, n, u, role', l₁, l', harrived, _⟩ := hspec.post hrun
  have hempty : l₁ = [] :=
    List.eq_nil_iff_forall_not_mem.mpr fun f hf =>
    absurd (harrived.evicts.sub f hf) List.not_mem_nil
  have hone : l' = [n] := by
    have hperm := clockPolicy.adds harrived.adds
    rw [hempty] at hperm
    exact List.perm_singleton.mp hperm
  exact ⟨role', n, hone ▸ harrived.resident⟩

/-- The entry of the first page, read in between. -/
def firstEntry : KernM Pte := (fun s => leaf s.mem 0x80500 1) <$> get

theorem firstEntry_run (s : Kern) : firstEntry s = .ok (leaf s.mem 0x80500 1, s) := rfl

/-- A device that cannot read, and one that cannot write. -/
def unreadable : Backing := { clockBacking with read := 1 }

def unwritable : Backing := { clockBacking with write := fun _ => 1 }

/-- Touching a page, writing it out, and a fault on it while the device cannot read. -/
theorem fault_unreported : yields (do
    let _ ← doPgfault clockBacking oneWritable 0x1000
    let _ ← swapOut clockBacking 0x80500 1 0
    let entry ← firstEntry
    let r ← doPgfault unreadable oneWritable 0x1000
    return (entry, r)) (bootKern {0x80501, 0x80502, 0x80503}) (fun r t =>
      r.2.1 == 0 && valid (leaf t.mem 0x80500 1) && r.1 != 0 && r.1 &&&
        (PTE_V ||| PTE_R) == 0) = true := by
  decide +kernel

/-- The same with `swap_in` in place of the fault. -/
theorem read_unreported : yields (do
    let _ ← doPgfault clockBacking oneWritable 0x1000
    let _ ← swapOut clockBacking 0x80500 1 0
    swapIn unreadable 0x80500 0x1000) (bootKern {0x80501, 0x80502, 0x80503})
    (fun _ _ => true) = true := by
  decide +kernel

/-- Touching a page, and swapping out while the device cannot write. -/
theorem write_counted : yields (do
    let _ ← doPgfault clockBacking oneWritable 0x1000
    swapOut unwritable 0x80500 1 0) (bootKern {0x80501, 0x80502, 0x80503})
      (fun i t => i == 1 && valid (leaf t.mem 0x80500 1)) = true := by
  decide +kernel

/-- The page is on the list, and the write that failed has been counted. -/
theorem unwritten_swapOut : ∃ role s n t, Resident clockPolicy (fun _ => True) 0x80500 role s [n] ∧
    swapOut unwritable 0x80500 1 0 s = .ok (1, t) := by
  obtain ⟨_, s, htouch, hout⟩ := of_yields_bind write_counted
  obtain ⟨role, n, hresident⟩ := touched_resident htouch
  unfold yields at hout
  split at hout
  next i t hrun =>
    rw [Bool.and_eq_true] at hout
    obtain rfl : i = 1 := eq_of_beq hout.1
    exact ⟨role, s, n, t, hresident, hrun⟩
  next => cases hout

/-- The page is on the device, and the fault on it returns. -/
theorem unread_fault : ∃ role s l r t, Resident clockPolicy (fun _ => True) 0x80500 role s l ∧
    ReadFails unreadable oneWritable s 0x1000 ∧
    doPgfault unreadable oneWritable 0x1000 s = .ok (r, t) := by
  obtain ⟨_, s, htouch, hrest⟩ := of_yields_bind fault_unreported
  obtain ⟨i, u, hout, hrest⟩ := of_yields_bind hrest
  obtain ⟨entry, u', hentry, hfault⟩ := of_yields_bind hrest
  rw [firstEntry_run, Except.ok.injEq, Prod.mk.injEq] at hentry
  obtain ⟨rfl, rfl⟩ := hentry
  obtain ⟨r, t, hrun, hlast⟩ := of_yields_bind hfault
  obtain ⟨role, n, hresident⟩ := touched_resident htouch
  obtain ⟨_, role', l', hpassed⟩ := swapOut_returned hresident hout
  have htest : (r.1 == 0 && valid (leaf t.mem 0x80500 1) && leaf u.mem 0x80500 1 != 0 &&
    leaf u.mem 0x80500 1 &&& (PTE_V ||| PTE_R) == 0) = true := hlast
  obtain ⟨⟨_, hentry⟩, habsent⟩ := by simpa using htest
  exact ⟨role', u, l', r, t, hpassed.resident,
    ⟨by decide, ⟨_, List.mem_cons_self, by decide⟩, hentry, habsent⟩, hrun⟩

/-- None of the three failures is reported. -/
theorem swap_errors_unnoticed :
    (∃ s r t, swapIn unreadable 0x80500 0x1000 s = .ok (r, t) ∧ r.1 = 0) ∧
    (∃ s r t, doPgfault unreadable oneWritable 0x1000 s = .ok (r, t) ∧
      ReadFails unreadable oneWritable s 0x1000 ∧
      ¬(r.1 ≠ 0 ∧ valid (leaf t.mem 0x80500 (ppn 0x1000)) = false)) ∧
    ∃ s n t, swapOut unwritable 0x80500 1 0 s = .ok (1, t) ∧
      ¬Honest clockPolicy 0x80500 [n] s 1 t := by
  refine ⟨?_, ?_, ?_⟩
  · obtain ⟨_, s, htouch, hrest⟩ := of_yields_bind read_unreported
    obtain ⟨_, u, hout, hin⟩ := of_yields_bind hrest
    obtain ⟨role, n, hresident⟩ := touched_resident htouch
    obtain ⟨_, role', l', hpassed⟩ := swapOut_returned hresident hout
    obtain ⟨r, t, hrun, _⟩ := (Ends.of_yields hin).ok
    have hiff := (swap_errors unreadable clockPolicy (fun _ => True) oneWritable_apart
      hpassed.resident).1 0x1000 r.1 r.2 t hrun
    refine ⟨u, r, t, hrun, ?_⟩
    by_contra hne
    exact absurd (hiff.mp fun _ => hne) (by decide)
  · obtain ⟨role, s, l, r, t, hresident, hfails, hrun⟩ := unread_fault
    have hiff := (swap_errors unreadable clockPolicy (fun _ => True) oneWritable_apart
      hresident).2.1 0x1000 r.1 r.2 t (by decide) hrun
    exact ⟨s, r, t, hrun, hfails, fun hreported => hiff.mp (fun _ => hreported) hfails⟩
  · obtain ⟨role, s, n, t, hresident, hrun⟩ := unwritten_swapOut
    have hiff := (swap_errors unwritable clockPolicy (fun _ => True) oneWritable_apart
      hresident).2.2 1 0 1 t hrun
    refine ⟨s, n, t, hrun, fun hhonest => ?_⟩
    have hok : (1 : Int) = 0 := hiff.mp hhonest 0 (by decide)
    exact absurd hok (by decide)

/-- A page that cannot be read is mapped as if it had been, and one that cannot be written is
counted. -/
theorem swap_errors_unreported :
    (¬∀ (b : Backing) (role : Nat → Role) (s : Kern) (l : List Nat) (mm mm' : MmStruct)
      (addr : Nat) (ret : Int) (t : Kern) (pol : Policy b.sm), mm.Apart →
      Resident pol (fun _ => True) mm.pgdir role s l → ppn addr < userPages →
      doPgfault b mm addr s = .ok ((ret, mm'), t) → ReadFails b mm s addr →
        ret ≠ 0 ∧ valid (leaf t.mem mm.pgdir (ppn addr)) = false) ∧
    ¬∀ (b : Backing) (role : Nat → Role) (s : Kern) (l : List Nat) (n inTick i : Int) (t : Kern)
      (pol : Policy b.sm),
      Resident pol (fun _ => True) b.checkMm role s l →
        swapOut b b.checkMm n inTick s = .ok (i, t) → Honest pol b.checkMm l s i t := by
  refine ⟨fun hclaim => ?_, fun hclaim => ?_⟩
  · obtain ⟨role, s, l, r, t, hresident, hfails, hrun⟩ := unread_fault
    have hzero : r.1 = 0 := (doPgfault_onDevice oneWritable_apart hresident.paged hresident.dir
      (by decide) hfails.2).post hrun
    exact (hclaim unreadable role s l oneWritable r.2 0x1000 r.1 t clockPolicy oneWritable_apart
      hresident (by decide) hrun hfails).1 hzero
  · obtain ⟨role, s, n, t, hresident, hrun⟩ := unwritten_swapOut
    have hhonest := hclaim unwritable role s [n] 1 0 1 t clockPolicy hresident hrun
    obtain ⟨_, role', l', hpassed⟩ := swapOut_returned hresident hrun
    have hok : (1 : Int) = 0 := (hpassed.honest_iff hresident).mp hhonest 0 (by decide)
    exact absurd hok (by decide)

end Ucore.Paging
