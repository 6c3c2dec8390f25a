import Ucore.Mm.Mapping
import Ucore.Mm.Vma

/-!
# Ranges of pages

`unmap_range`, `exit_range`, `copy_range` and `pgdir_alloc_page` of
`kern/mm/pmm.c`. Loops over addresses have a bound on their rounds, which they
never reach.
-/

namespace Ucore.Mm

open Mmu Machine

/-! ## The code -/

/-- The loop over the entries of `pgdir` from the address `start`: `again` is the
condition for another round, and `body` is what is done with an entry. A round
whose `body` does not return 0 is the last one. -/
def pageLoop (alloc : KernM (Option Nat)) (again : Nat → Bool) (pgdir : Nat)
    (body : Nat → Ptr → KernM Int) : Nat → Nat → KernM Int
  | 0, _ => throw .runaway
  | rounds + 1, start => do
      match ← getPte alloc pgdir start false with
      | none =>
          let start := rounddown (start + PTSIZE) PTSIZE
          if again start then pageLoop alloc again pgdir body rounds start else pure 0
      | some ptep =>
          let ret ← body start ptep
          if ret ≠ 0 then pure ret
          else if again (start + PGSIZE) then
            pageLoop alloc again pgdir body rounds (start + PGSIZE)
          else pure 0

/-- The assertions of the functions on ranges. -/
def checkRange (start stop : Nat) : KernM PUnit :=
  if ¬ (start % PGSIZE = 0 ∧ stop % PGSIZE = 0) then throw .unaligned
  else if ¬ userAccess start stop then throw .userAccess
  else pure ⟨⟩

section

variable (alloc : KernM (Option Nat))

def unmapRange (pgdir start stop : Nat) : KernM PUnit := do
  checkRange start stop
  let _ ← pageLoop alloc (fun start => start ≠ 0 ∧ start < stop) pgdir
    (fun _ ptep => do
      if (← load ptep) ≠ 0#64 then pageRemovePte ptep
      pure 0)
    ((stop - start) / PGSIZE) start

/-- `memcpy` from the page of one frame to that of another. -/
def copyPage (src dst : Nat) : KernM PUnit := do
  fillPage (← kaddr dst) ((← get).mem (← kaddr src))

def copyRange (toDir fromDir start stop : Nat) : KernM Int := do
  checkRange start stop
  pageLoop alloc (fun start => start ≠ 0 ∧ start < stop) fromDir
    (fun start ptep => do
      if valid (← load ptep) then
        match ← getPte alloc toDir start true with
        | none => pure (-E_NO_MEM)
        | some _ =>
            let perm := (← load ptep) &&& PTE_USER
            let page ← pte2page (← load ptep)
            match ← alloc with
            | none => throw .nullPage
            | some npage =>
                copyPage page npage
                if (← pageInsert alloc toDir npage start perm) ≠ 0 then throw .mapFailed
                pure 0
      else pure 0)
    ((stop - start) / PGSIZE) start

/-- `pgdir_alloc_page` without swapping. -/
def pgdirAllocPage (pgdir la : Nat) (perm : Pte) : KernM (Option Nat) := do
  match ← alloc with
  | none => pure none
  | some page =>
      if (← pageInsert alloc pgdir page la perm) ≠ 0 then
        freePage page
        pure none
      else pure (some page)

end

/-- Whether all entries of a page table are invalid, `free_pt`. -/
def ptEmpty (pt : Nat) : KernM Bool :=
  (fun s => (List.range 512).all fun i => !valid (s.mem pt i)) <$> get

/-- A loop over addresses that are `size` apart. -/
def rangeLoop {α : Type} (size : Nat) (again : Nat → Bool) (body : Nat → α → KernM α) :
    Nat → Nat → α → KernM α
  | 0, _, _ => throw .runaway
  | rounds + 1, start, acc => do
      let acc ← body start acc
      if again (start + size) then rangeLoop size again body rounds (start + size) acc
      else pure acc

/-- A round of the inner loop of `exit_range`: a page table without valid entries
is given back. Returns whether there was a page table. -/
def exitPt (pd0 d0start : Nat) : KernM Bool := do
  let pde0 ← load ⟨pd0, pdx0 d0start⟩
  if valid pde0 then
    let pt ← kaddr (← pa2page (frame pde0))
    if ← ptEmpty pt then
      freePage (← pa2page (frame pde0))
      store ⟨pd0, pdx0 d0start⟩ 0#64
  pure (valid pde0)

/-- The inner loop of `exit_range`. Returns whether all entries it has looked at
were valid, `free_pd0`. -/
def exitPd0 (pd0 d1start d0start stop : Nat) : KernM Bool :=
  rangeLoop PTSIZE (fun d0start => d0start ≠ 0 ∧ d0start < d1start + PDSIZE ∧ d0start < stop)
    (fun d0start freePd0 => (freePd0 && ·) <$> exitPt pd0 d0start) 512 d0start true

/-- A round of the outer loop of `exit_range`. Returns the next `d0start`. -/
def exitPd1 (pgdir stop d1start d0start : Nat) : KernM Nat := do
  let pde1 ← load ⟨pgdir, pdx1 d1start⟩
  if valid pde1 then
    let pd0 ← kaddr (← pa2page (frame pde1))
    if ← exitPd0 pd0 d1start d0start stop then
      freePage (← pa2page (frame pde1))
      store ⟨pgdir, pdx1 d1start⟩ 0#64
  pure (d1start + PDSIZE)

def exitRange (pgdir start stop : Nat) : KernM PUnit := do
  checkRange start stop
  let _ ← rangeLoop PDSIZE (fun d1start => d1start ≠ 0 ∧ d1start < stop) (exitPd1 pgdir stop)
    (stop / PDSIZE + 1) (rounddown start PDSIZE) (rounddown start PTSIZE)

/-! ## Loops over entries -/

variable {E : Panic → Prop} {s t u : Kern} {role role' role'' : Nat → Role}

theorem ends_ptEmpty {pt : Nat} {Q : Bool → Kern → Prop} (hQ : ∀ b, Q b s) :
    Ends E (ptEmpty pt) s Q := hQ _

attribute [irreducible] ptEmpty

theorem walk_block {m : Memory} {pgdir v v' : Nat} (hblock : v' / 512 = v / 512)
    (hwalk : walk m pgdir v = none) : walk m pgdir v' = none := by
  have h1 : idx1 v' = idx1 v := by
    unfold idx1
    omega
  have h0 : idx0 v' = idx0 v := by
    unfold idx0
    omega
  unfold walk at hwalk ⊢
  rw [h1, h0]
  split at hwalk
  next h1 =>
    split at hwalk
    next => cases hwalk
    next h0 => rw [if_pos h1, if_neg h0]
  next h1 => rw [if_neg h1]

/-- The address that a round without a page table goes on from. -/
theorem rounddown_next (v : Nat) :
    rounddown (PGSIZE * v + PTSIZE) PTSIZE = PGSIZE * (512 * (v / 512 + 1)) := by
  unfold rounddown PTSIZE PGSIZE
  omega

/-- The rule for loops over entries: `P v` holds when the pages below `v` are
done. Pages without a table are passed over, and `body` does one page or makes
the loop return. -/
theorem pageLoop_spec {alloc : KernM (Option Nat)} {again : Nat → Bool} {pgdir n : Nat}
    {body : Nat → Ptr → KernM Int} {P : Nat → Kern → Prop} {Q : Int → Kern → Prop}
    (hagain : ∀ a, 0 < a → (again a = true ↔ a < PGSIZE * n)) (hn : n ≤ userPages)
    (hpaged : ∀ v s, P v s → ∃ role, Paged role s ∧ role pgdir = .dir)
    (hskip : ∀ v s, v < n → P v s → walk s.mem pgdir v = none → P (v + 1) s)
    (hbody : ∀ v s p, v < n → P v s → walk s.mem pgdir v = some p →
      Ends E (body (PGSIZE * v) p) s fun ret t => (ret = 0 → P (v + 1) t) ∧ (ret ≠ 0 → Q ret t)) :
    ∀ rounds v s, n - v ≤ rounds → v < n → P v s →
      Ends E (pageLoop alloc again pgdir body rounds (PGSIZE * v)) s fun ret t =>
        (ret = 0 ∧ P n t) ∨ (ret ≠ 0 ∧ Q ret t) := by
  have hagain' : ∀ v, 0 < v → (again (PGSIZE * v) = true ↔ v < n) := by
    intro v hv
    rw [hagain _ (by unfold PGSIZE; omega)]
    unfold PGSIZE
    omega
  have hblock : ∀ v s k, P v s → walk s.mem pgdir v = none → v + k ≤ n →
      v + k ≤ 512 * (v / 512 + 1) → P (v + k) s := by
    intro v s k hP hwalk hle hin
    induction k with
    | zero => exact hP
    | succ k ih =>
        refine hskip (v + k) s (by omega) (ih (by omega) (by omega)) (walk_block ?_ hwalk)
        omega
  intro rounds
  induction rounds with
  | zero =>
      intro v s hrounds hv _
      omega
  | succ rounds ih =>
      intro v s hrounds hv hP
      obtain ⟨role, hpaged', hdir⟩ := hpaged v s hP
      unfold pageLoop
      rw [ends_bind]
      apply (getPte_false hpaged' hdir (by rw [ppn_mul]; omega)).imp
      rintro r t ⟨rfl, rfl⟩
      rw [ppn_mul]
      cases hwalk : walk t.mem pgdir v with
      | none =>
          simp only [rounddown_next]
          by_cases hmore : 512 * (v / 512 + 1) < n
          · rw [if_pos ((hagain' _ (by omega)).mpr hmore)]
            apply ih _ _ (by omega) hmore
            have hnext := hblock v t (512 * (v / 512 + 1) - v) hP hwalk
            rw [Nat.add_sub_cancel' (by omega)] at hnext
            exact hnext (by omega) (by omega)
          · rw [if_neg fun h => hmore ((hagain' _ (by omega)).mp h), ends_pure]
            have hlast := hblock v t (n - v) hP hwalk
            rw [Nat.add_sub_cancel' (by omega)] at hlast
            exact Or.inl ⟨rfl, hlast (by omega) (by omega)⟩
      | some p =>
          rw [ends_bind]
          apply (hbody v t p hv hP hwalk).imp
          rintro ret u ⟨hzero, hother⟩
          have hnext : PGSIZE * v + PGSIZE = PGSIZE * (v + 1) := (Nat.mul_succ PGSIZE v).symm
          by_cases hret : ret = 0
          · rw [if_neg (not_not.mpr hret), hnext]
            by_cases hmore : v + 1 < n
            · rw [if_pos ((hagain' _ (by omega)).mpr hmore)]
              exact ih _ _ (by omega) hmore (hzero hret)
            · rw [if_neg fun h => hmore ((hagain' _ (by omega)).mp h), ends_pure]
              have hend : v + 1 = n := by omega
              exact Or.inl ⟨rfl, hend ▸ hzero hret⟩
          · rw [if_pos hret, ends_pure]
            exact Or.inr ⟨hret, hother hret⟩

/-- The rule for loops over addresses, with what holds before each round. -/
theorem rangeLoop_spec {α : Type} {size n : Nat} {again : Nat → Bool} {body : Nat → α → KernM α}
    {P : Nat → α → Kern → Prop} (hagain : ∀ j, again (size * (j + 1)) = true → j + 1 < n)
    (hbody : ∀ j acc s, j < n → P j acc s →
      Ends E (body (size * j) acc) s fun acc' t => P (j + 1) acc' t) :
    ∀ rounds j acc s, j < n → n - j ≤ rounds → P j acc s →
      Ends E (rangeLoop size again body rounds (size * j) acc) s fun acc' t =>
        ∃ j', j < j' ∧ j' ≤ n ∧ again (size * j') = false ∧ P j' acc' t := by
  intro rounds
  induction rounds with
  | zero =>
      intro j acc s hj hrounds _
      omega
  | succ rounds ih =>
      intro j acc s hj hrounds hP
      unfold rangeLoop
      rw [ends_bind]
      apply (hbody j acc s hj hP).imp
      intro acc' t hnext
      rw [← Nat.mul_succ]
      split
      next hmore =>
        apply (ih (j + 1) acc' t (hagain j hmore) (by omega) hnext).imp
        rintro acc'' u ⟨j', hlt, hdone⟩
        exact ⟨j', Nat.lt_of_succ_lt hlt, hdone⟩
      next hstop => exact ⟨j + 1, Nat.lt_succ_self j, hj, Bool.eq_false_iff.mpr hstop, hnext⟩

/-! ## `unmap_range` -/

/-- The entries of `pgdir` for the page numbers in `pages` are removed, all
others are as before. -/
def LeafCleared (role : Nat → Role) (s t : Kern) (pgdir : Nat) (pages : Nat → Prop) : Prop :=
  ∀ pgdir' v, role pgdir' = .dir → v < userPages →
    (pgdir' = pgdir ∧ pages v → leaf t.mem pgdir' v = removed (leaf s.mem pgdir' v)) ∧
    (¬ (pgdir' = pgdir ∧ pages v) → leaf t.mem pgdir' v = leaf s.mem pgdir' v)

theorem LeafCleared.congr {pgdir : Nat} {pages pages' : Nat → Prop}
    (h : LeafCleared role s t pgdir pages) (hpages : ∀ v, pages v ↔ pages' v) :
    LeafCleared role s t pgdir pages' := by
  rwa [show pages' = pages from funext fun v => propext (hpages v).symm]

/-- A range that grows by one page. -/
theorem LeafCleared.succ {pgdir a v : Nat} (h : LeafCleared role s t pgdir fun w => a ≤ w ∧ w < v)
    (hav : a ≤ v) (hdirs : ∀ f, role' f = .dir ↔ role f = .dir)
    (hset : LeafSet role' t u pgdir v (removed (leaf t.mem pgdir v))) :
    LeafCleared role s u pgdir fun w => a ≤ w ∧ w < v + 1 := by
  intro pgdir' w hdir hw
  obtain ⟨hin, hout⟩ := h pgdir' w hdir hw
  rw [hset pgdir' w ((hdirs pgdir').mpr hdir) hw]
  by_cases hnew : pgdir' = pgdir ∧ w = v
  · obtain ⟨rfl, rfl⟩ := hnew
    rw [if_pos ⟨rfl, rfl⟩, hout (by omega)]
    exact ⟨fun _ => rfl, fun hno => absurd ⟨rfl, hav, Nat.lt_succ_self w⟩ hno⟩
  · rw [if_neg hnew]
    refine ⟨fun hyes => hin ⟨hyes.1, ?_⟩, fun hno => hout fun hyes => hno ⟨hyes.1, ?_⟩⟩
    · have hne : w ≠ v := fun heq => hnew ⟨hyes.1, heq⟩
      omega
    · omega

theorem removed_of_walk_none {m : Memory} {pgdir v : Nat} (hwalk : walk m pgdir v = none) :
    removed (leaf m pgdir v) = leaf m pgdir v := by
  simp [leaf, hwalk, removed]

/-- Leaving an entry as it is. -/
theorem LeafSet.self (role : Nat → Role) (s : Kern) (pgdir v : Nat) :
    LeafSet role s s pgdir v (leaf s.mem pgdir v) := by
  intro pgdir' v' _ _
  split
  next heq => rw [heq.1, heq.2]
  next => rfl

theorem unmapLoop_spec {alloc : KernM (Option Nat)} (hpaged : Paged role s)
    (hcounted : Counted role s) {pgdir a n : Nat} (hdir : role pgdir = .dir) (han : a < n)
    (hn : n ≤ userPages) {rounds : Nat} (hrounds : n - a ≤ rounds) :
    Ends E (pageLoop alloc (fun start => start ≠ 0 ∧ start < PGSIZE * n) pgdir
      (fun _ ptep => do
        if (← load ptep) ≠ 0#64 then pageRemovePte ptep
        pure 0) rounds (PGSIZE * a)) s fun _ t => ∃ role', Paged role' t ∧
      Settled role role' s t ∧ (∀ f, (role' f).isTable = true → role' f = role f) ∧
      Idle role role' s t ∧ LeafCleared role s t pgdir fun v => a ≤ v ∧ v < n := by
  have hloop := @pageLoop_spec E alloc (fun start => start ≠ 0 ∧ start < PGSIZE * n) pgdir n
    (fun _ ptep => do
      if (← load ptep) ≠ 0#64 then pageRemovePte ptep
      pure 0)
    (fun v t => a ≤ v ∧ ∃ role', Paged role' t ∧ Settled role role' s t ∧
      (∀ f, (role' f).isTable = true → role' f = role f) ∧ Idle role role' s t ∧
      LeafCleared role s t pgdir fun w => a ≤ w ∧ w < v) (fun _ _ => False)
    (fun start hstart => by simp [Nat.pos_iff_ne_zero.mp hstart]) hn ?_ ?_ ?_ rounds
      a s hrounds han ?_
  · apply hloop.imp
    rintro ret t (⟨_, _, hdone⟩ | ⟨_, hno⟩)
    · exact hdone
    · exact hno.elim
  · rintro v t ⟨_, role', hpaged', hsettled, _⟩
    exact ⟨role', hpaged', (hsettled.dir pgdir).mpr hdir⟩
  · rintro v t _ ⟨hav, role', hpaged', hsettled, htables, hidle, hcleared⟩ hwalk
    refine ⟨Nat.le_succ_of_le hav, role', hpaged', hsettled, htables, hidle,
      hcleared.succ hav hsettled.dir ?_⟩
    rw [removed_of_walk_none hwalk]
    exact LeafSet.self role' t pgdir v
  · rintro v t p hv ⟨hav, role', hpaged', hsettled, htables, hidle, hcleared⟩ hwalk
    have hvu : v < userPages := Nat.lt_of_lt_of_le hv hn
    simp only [ends_bind, ends_load]
    split
    next hne =>
      rw [ends_bind]
      apply (pageRemovePte_spec hpaged' (hsettled.counted hcounted)
        ((hsettled.dir pgdir).mpr hdir) hvu hwalk).imp
      rintro _ u ⟨role'', hpaged'', hsettled', hset, _, hkeep, _, hidle'⟩
      refine ⟨fun _ => ⟨Nat.le_succ_of_le hav, role'', hpaged'', hsettled.trans hsettled',
        fun f hf => ?_, hidle.trans hidle', hcleared.succ hav hsettled.dir hset⟩,
          fun hne => hne rfl⟩
      rcases hkeep f with heq | heq
      · rw [heq] at hf ⊢
        exact htables f hf
      · rw [heq] at hf
        cases hf
    next hzero =>
      rw [not_not, ← leaf_of_walk hwalk] at hzero
      refine ⟨fun _ => ⟨Nat.le_succ_of_le hav, role', hpaged', hsettled, htables, hidle,
        hcleared.succ hav hsettled.dir ?_⟩, fun hne => hne rfl⟩
      have hsame := LeafSet.self role' t pgdir v
      rw [hzero] at hsame ⊢
      exact hsame
  · refine ⟨Nat.le_refl a, role, hpaged, Settled.refl role s, fun _ _ => rfl, Idle.refl role s,
      fun pgdir' w _ _ => ?_⟩
    exact ⟨fun hno => by omega, fun _ => rfl⟩

/-- The pages of a range that passes the assertions. -/
theorem range_pages {start stop : Nat} (hstart : start % PGSIZE = 0) (hstop : stop % PGSIZE = 0)
    (huser : userAccess start stop) : ∃ a n, start = PGSIZE * a ∧ stop = PGSIZE * n ∧ a < n ∧
      n ≤ userPages ∧ n - a ≤ (stop - start) / PGSIZE := by
  obtain ⟨a, n, rfl, rfl, han, hn, _⟩ :=
    (⟨⟨hstart, hstop⟩, huser⟩ : VmaStruct.Ok ⟨start, stop, 0⟩).pages
  refine ⟨a, n, rfl, rfl, han, hn, ?_⟩
  rw [← Nat.mul_sub, Nat.mul_div_cancel_left _ (by decide)]

/-- `unmap_range`, on a range that passes its assertions. -/
theorem unmapRange_spec {alloc : KernM (Option Nat)} (hpaged : Paged role s)
    (hcounted : Counted role s) {pgdir start stop : Nat} (hdir : role pgdir = .dir)
    (hunaligned : E .unaligned ∨ start % PGSIZE = 0 ∧ stop % PGSIZE = 0)
    (huser : E .userAccess ∨ userAccess start stop) :
    Ends E (unmapRange alloc pgdir start stop) s fun _ t => ∃ role', Paged role' t ∧
      Settled role role' s t ∧ (∀ f, (role' f).isTable = true → role' f = role f) ∧
      Idle role role' s t ∧
      LeafCleared role s t pgdir fun v => start ≤ PGSIZE * v ∧ PGSIZE * v < stop := by
  unfold unmapRange checkRange
  rw [ends_bind]
  split
  next hno => exact hunaligned.resolve_right hno
  next halign =>
    split
    next hno => exact huser.resolve_right hno
    next haccess =>
      rw [not_not] at halign haccess
      obtain ⟨a, n, rfl, rfl, han, hn, hrounds⟩ := range_pages halign.1 halign.2 haccess
      rw [ends_pure, ends_bind]
      apply (unmapLoop_spec hpaged hcounted hdir han hn hrounds).imp
      rintro _ t ⟨role', hpaged', hsettled, htables, hidle, hcleared⟩
      refine ⟨role', hpaged', hsettled, htables, hidle, hcleared.congr fun v => ?_⟩
      unfold PGSIZE
      omega

end Ucore.Mm
