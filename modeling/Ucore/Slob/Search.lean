import Ucore.Slob.FreeList

/-!
# What `slob_alloc` does

The search goes round the free list once. It takes units from the first block that has
enough, and puts a page on the free list where there is none: then the second round finds
one.
-/

namespace Ucore.Slob

open Machine Extent

variable {arena : Nat} {free live : List Extent} {s t : SlobState} {fuel size n prev cur : Nat}
  {post : List Nat} {answers : List (Option Nat)} {E : Stop → Prop}

/-- The block `b` of `n` units is a caller's in `t`. -/
structure Taken (arena : Nat) (live : List Extent) (n b : Nat) (s t : SlobState)
    (free : List Extent) :
    Prop where
  linked : Linked t free
  layout : Layout arena s.pages free (⟨b, n⟩ :: live)
  units : t.units b = n
  same : SameOn live s t
  pages : t.pages = s.pages

theorem takeUnits_spec (h : Linked s free) (hlayout : Layout arena s.pages free live)
    (hprev : prev ∈ free.map start) (hcur : cur ∈ free.map start) (hnext : s.next prev = cur)
    (harena : cur ≠ arena) (hn : 0 < n) (hle : n ≤ s.units cur) :
    Ends E (takeUnits n prev cur) s fun b t => ∃ free', Taken arena live n b s t free' := by
  obtain ⟨x, hx, rfl⟩ := List.mem_map.mp hcur
  have hunits := h.sizes x hx
  rw [hunits] at hle
  have hxarena : x ≠ arenaBlock arena := by
    rintro rfl
    exact harena rfl
  obtain ⟨xs, ys, rfl⟩ := List.append_of_mem hx
  have hring : Cycle s.next (x.start :: (ys ++ xs).map start) := by
    have hring := h.ring
    rw [List.map_append] at hring ⊢
    exact hring.rotate
  obtain ⟨hnotin, hnodup⟩ := List.nodup_cons.mp hring.nodup
  obtain ⟨hstep, hpath⟩ := List.isChain_cons.mp hring.path
  have hperm : (xs ++ x :: ys).Perm (x :: (ys ++ xs)) :=
    List.perm_middle.trans (List.perm_append_comm.cons x)
  -- the arena is another block of the ring
  obtain ⟨z, zs, hzs⟩ : ∃ z zs, ys ++ xs = z :: zs := by
    apply List.exists_cons_of_ne_nil
    have hmem := (hperm.mem_iff.mp hlayout.holdsArena)
    exact List.ne_nil_of_mem ((List.mem_cons.mp hmem).resolve_left (Ne.symm hxarena))
  have hhead : ((ys ++ xs).map start).head? = some (s.next x.start) := by
    rw [hzs] at hstep ⊢
    exact congrArg some (hstep z.start rfl).symm
  have hlast : ((ys ++ xs).map start).getLast? = some prev := by
    have hprev := hring.getLast_of_next ((hperm.map start).mem_iff.mp hprev) hnext
    rw [hzs] at hprev ⊢
    exact hprev
  have hprevin : prev ∈ (ys ++ xs).map start := List.mem_of_getLast? hlast
  have hne : x.start ≠ prev := fun heq => hnotin (heq ▸ hprevin)
  obtain ⟨p, hp, rfl⟩ := List.mem_map.mp hprev
  have hkeep : ∀ {y a}, y ∈ xs ++ x :: ys → (∃ z ∈ live, Mem SLOB_UNIT a z) → a ≠ y.start := by
    rintro y a hy ⟨z, hz, ha⟩ rfl
    exact hlayout.start_not_mem hy hz ha
  simp only [takeUnits, ends_bind, ends_get, hunits]
  split
  next heq =>
    obtain rfl := heq
    -- the block fits exactly and leaves the ring
    refine ⟨xs ++ ys, ⟨?_, ?_, ?_⟩, hlayout.takeAll hxarena, hunits, ?_, rfl⟩
    · rw [List.map_append]
      apply Cycle.rotate
      rw [← List.map_append]
      exact Cycle.of_update hpath hnodup hlast hhead
    · intro y hy
      apply h.sizes y
      rw [List.mem_append] at hy ⊢
      exact hy.imp_right (List.mem_cons_of_mem x)
    · exact (List.perm_append_comm.map start).mem_iff.mp hprevin
    · apply SameOn.of_headers
      · exact fun a _ => rfl
      · exact fun a ha => Function.update_of_ne (hkeep hp ha) ..
  next hnot =>
    have hlt : n < x.units := Nat.lt_of_le_of_ne hle (Ne.symm hnot)
    have hlayout' := hlayout.takeFront hxarena hn hlt
    have hback : (x.back SLOB_UNIT n).start = plus x.start n := rfl
    have hbackne : (x.back SLOB_UNIT n).start ≠ (x.front n).start :=
      hlayout'.start_ne (List.mem_append_right xs List.mem_cons_self) List.mem_cons_self
    change plus x.start n ≠ x.start at hbackne
    have hfresh : plus x.start n ∉ (ys ++ xs).map start := by
      have hnodup' := nodup_starts hlayout'.sorted
      rw [(List.perm_middle.map start).nodup_iff, List.map_cons, List.nodup_cons] at hnodup'
      exact fun hin => hnodup'.1 ((List.perm_append_comm.map start).mem_iff.mp hin)
    have hprevne : p.start ≠ plus x.start n := fun heq => hfresh (heq ▸ hprevin)
    simp only [ends_bind, ends_get, ends_setNext, ends_setUnits, ends_setSlobfree, ends_pure,
      Function.update_self, Function.update_of_ne hne, hunits]
    -- the units behind it stay in the ring, with a header of their own
    refine ⟨xs ++ x.back SLOB_UNIT n :: ys, ⟨?_, ?_, ?_⟩, hlayout', ?_, ?_, rfl⟩
    · have hcycle : Cycle (Function.update
          (Function.update s.next (plus x.start n) (s.next x.start)) p.start (plus x.start n))
          ((ys ++ xs).map start ++ [plus x.start n]) := by
        apply Cycle.of_insert _ hnodup hlast _ hfresh
        · apply Path.congr hpath
          intro a ha
          have hne : a ≠ plus x.start n := by
            rintro rfl
            exact hfresh (List.dropLast_subset _ ha)
          exact Function.update_of_ne hne ..
        · rw [hhead, Function.update_self]
      rw [Function.update_comm hprevne.symm, List.map_append, List.append_assoc] at hcycle
      have hrotate := hcycle.rotate
      rw [List.append_assoc] at hrotate
      rw [List.map_append, List.map_cons, hback]
      exact hrotate
    · intro y hy
      rw [List.mem_append, List.mem_cons, or_left_comm, ← List.mem_append] at hy
      rcases hy with rfl | hy
      · exact (Function.update_of_ne hbackne ..).trans (Function.update_self ..)
      · have hyring : y.start ∈ (ys ++ xs).map start :=
          List.mem_map_of_mem (List.perm_append_comm.mem_iff.mp hy)
        have hyx : y.start ≠ x.start := fun heq => hnotin (heq ▸ hyring)
        have hyback : y.start ≠ plus x.start n := fun heq => hfresh (heq ▸ hyring)
        refine ((Function.update_of_ne hyx ..).trans (Function.update_of_ne hyback ..)).trans ?_
        exact h.sizes y
          (hperm.mem_iff.mpr (List.mem_cons_of_mem x (List.perm_append_comm.mem_iff.mp hy)))
    · have hin := (List.perm_append_comm.map start).mem_iff.mp hprevin
      rw [List.map_append, List.mem_append] at hin ⊢
      exact hin.imp_right (List.mem_cons_of_mem _)
    · exact Function.update_self ..
    · have hkeepback : ∀ {a}, (∃ z ∈ live, Mem SLOB_UNIT a z) → a ≠ plus x.start n := by
        rintro a ⟨z, hz, ha⟩ rfl
        exact hlayout'.start_not_mem (List.mem_append_right xs List.mem_cons_self)
          (List.mem_cons_of_mem _ hz) ha
      apply SameOn.of_headers
      · exact fun a ha =>
          (Function.update_of_ne (hkeep hx ha) ..).trans (Function.update_of_ne (hkeepback ha) ..)
      · exact fun a ha =>
          (Function.update_of_ne (hkeepback ha) ..).trans (Function.update_of_ne (hkeep hp ha) ..)

/-! ## The loop of `slob_alloc` -/

/-- From a slot on to `slobfree`: the first block that fits is taken, or there is none. -/
theorem allocFrom_scan {Q : Option Nat → SlobState → Prop}
    (hpath : Path s.next (prev :: cur :: post))
    (hlast : (cur :: post).getLast? = some s.slobfree) (hnodup : (cur :: post).Nodup)
    (hfuel : post.length < fuel ∨ E .runaway)
    (htake : ∀ p c, p ∈ prev :: cur :: post → c ∈ cur :: post → s.next p = c →
      SLOB_UNITS size ≤ s.units c →
      Ends E (takeUnits (SLOB_UNITS size) p c) s fun b t => Q (some b) t)
    (hgrow : ∀ p more, fuel ≤ more + post.length + 1 →
      (∀ c ∈ cur :: post, s.units c < SLOB_UNITS size) →
      Ends E (allocFrom size (more + 1) answers p s.slobfree) s Q) :
    Ends E (allocFrom size fuel answers prev cur) s Q := by
  induction post generalizing prev cur fuel with
  | nil =>
      obtain rfl : cur = s.slobfree := by simpa using hlast
      cases fuel with
      | zero => exact hfuel.resolve_left (Nat.not_lt_zero _)
      | succ fuel =>
          by_cases hfit : SLOB_UNITS size ≤ s.units s.slobfree
          · simp only [allocFrom, ends_bind, ends_get, if_pos hfit]
            exact htake prev s.slobfree (by simp) (by simp) (List.isChain_cons_cons.mp hpath).1 hfit
          · apply hgrow prev fuel (Nat.le_refl _)
            simpa using hfit
  | cons y post ih =>
      obtain ⟨hnext, hpath⟩ := List.isChain_cons_cons.mp hpath
      obtain ⟨hnotin, hnodup⟩ := List.nodup_cons.mp hnodup
      rw [List.getLast?_cons_cons] at hlast
      cases fuel with
      | zero => exact hfuel.resolve_left (Nat.not_lt_zero _)
      | succ fuel =>
          by_cases hfit : SLOB_UNITS size ≤ s.units cur
          · simp only [allocFrom, ends_bind, ends_get, if_pos hfit]
            exact htake prev cur (by simp) (by simp) hnext hfit
          · have hcur : cur ≠ s.slobfree := by
              rintro rfl
              exact hnotin (List.mem_of_getLast? hlast)
            have hstep : s.next cur = y := (List.isChain_cons_cons.mp hpath).1
            simp only [allocFrom, ends_bind, ends_get, if_neg hfit, if_neg hcur, hstep]
            apply ih hpath hlast hnodup
            · exact hfuel.imp_left fun h => Nat.lt_of_succ_lt_succ h
            · intro p c hp hc
              exact htake p c (List.mem_cons_of_mem prev hp) (List.mem_cons_of_mem cur hc)
            · intro p more hmore hsmall
              apply hgrow p more (Nat.succ_le_succ hmore)
              exact List.forall_mem_cons.mpr ⟨Nat.lt_of_not_le hfit, hsmall⟩

/-- The slots of the free list in the order of the search. -/
theorem Linked.scan (h : Linked s free) : ∃ post,
    Path s.next (s.slobfree :: s.next s.slobfree :: post) ∧
      (s.next s.slobfree :: post).Perm (free.map start) ∧
      (s.next s.slobfree :: post).getLast? = some s.slobfree := by
  obtain ⟨front, rest, hcut⟩ := List.append_of_mem h.slobfree
  have hring := h.ring
  rw [hcut] at hring
  have hring' : Cycle s.next (s.slobfree :: (rest ++ front)) := hring.rotate
  obtain ⟨post, hpost, hcycle⟩ := hring'.step
  refine ⟨post, List.isChain_cons_cons.mpr ⟨rfl, hcycle.path⟩, ?_, ?_⟩
  · rw [hpost, hcut]
    exact (List.perm_append_singleton _ _).trans
      ((List.perm_append_comm.cons _).trans List.perm_middle.symm)
  · rw [hpost, List.getLast?_concat]

/-- One round of the search, from `slobfree` on. -/
theorem allocFrom_round (h : Linked s free) (hlayout : Layout arena s.pages free live)
    {Q : Option Nat → SlobState → Prop} (hsize : 1 < SLOB_UNITS size)
    (hfuel : free.length ≤ fuel ∨ E .runaway)
    (htake : ∀ b t free', Taken arena live (SLOB_UNITS size) b s t free' → Q (some b) t)
    (hgrow : ∀ p more, fuel ≤ more + free.length →
      (∀ x ∈ free, x.units < SLOB_UNITS size) →
      Ends E (allocFrom size (more + 1) answers p s.slobfree) s Q) :
    Ends E (allocFrom size fuel answers s.slobfree (s.next s.slobfree)) s Q := by
  obtain ⟨post, hpath, hperm, hlast⟩ := h.scan
  have hnodup := hperm.nodup_iff.mpr (nodup_starts hlayout.sorted)
  have hlength : post.length + 1 = free.length := by
    rw [← List.length_map start, ← hperm.length_eq, List.length_cons]
  apply allocFrom_scan hpath hlast hnodup
  · exact hfuel.imp_left fun hle => Nat.lt_of_lt_of_le (hlength ▸ Nat.lt_succ_self _) hle
  · intro p c hp hc hnext hfit
    have hp' : p ∈ free.map start := by
      rcases List.mem_cons.mp hp with rfl | hp
      · exact h.slobfree
      · exact hperm.mem_iff.mp hp
    have harena : c ≠ arena := by
      rintro rfl
      have hone : s.units c = 1 := h.sizes _ hlayout.holdsArena
      exact absurd (Nat.lt_of_lt_of_le hsize (hfit.trans_eq hone)) (Nat.lt_irrefl 1)
    have hpos := Nat.zero_lt_of_lt hsize
    apply (takeUnits_spec h hlayout hp' (hperm.mem_iff.mp hc) hnext harena hpos hfit).imp
    rintro b t ⟨free', htaken⟩
    exact htake b t free' htaken
  · intro p more hmore hsmall
    apply hgrow p more (by omega)
    intro x hx
    rw [← h.sizes x hx]
    exact hsmall x.start (hperm.mem_iff.mpr (List.mem_map_of_mem hx))

/-- The search ends at the first block, if it has enough and is not the arena. -/
theorem allocFrom_first (h : Linked s free) (hlayout : Layout arena s.pages free live)
    {Q : Option Nat → SlobState → Prop} (hsize : 0 < SLOB_UNITS size)
    (harena : s.next s.slobfree ≠ arena)
    (hfit : SLOB_UNITS size ≤ s.units (s.next s.slobfree)) (hfuel : 0 < fuel)
    (htake : ∀ b t free', Taken arena live (SLOB_UNITS size) b s t free' → Q (some b) t) :
    Ends E (allocFrom size fuel answers s.slobfree (s.next s.slobfree)) s Q := by
  obtain ⟨post, _, hperm, _⟩ := h.scan
  obtain ⟨fuel, rfl⟩ := Nat.exists_eq_succ_of_ne_zero (Nat.pos_iff_ne_zero.mp hfuel)
  have hcur : s.next s.slobfree ∈ free.map start := hperm.mem_iff.mp List.mem_cons_self
  simp only [allocFrom, ends_bind, ends_get, if_pos hfit]
  apply (takeUnits_spec h hlayout h.slobfree hcur rfl harena hsize hfit).imp
  rintro b t ⟨free', htaken⟩
  exact htake b t free' htaken

/-- The blocks of the callers after `slob_alloc`. -/
def given (size : Nat) (r : Option Nat) (live : List Extent) : List Extent :=
  match r with
  | some b => ⟨b, SLOB_UNITS size⟩ :: live
  | none => live

/-- What `slob_alloc` leaves behind. -/
structure Allocated (arena size : Nat) (answers : List (Option Nat))
    (live : List Extent) (r : Option Nat) (s t : SlobState) (free : List Extent) : Prop where
  linked : Linked t free
  layout : Layout arena t.pages free (given size r live)
  units : ∀ b, r = some b → t.units b = SLOB_UNITS size
  same : SameOn live s t
  pages : t.pages = s.pages ∨ ∃ page ∈ answers.filterMap id, t.pages = page :: s.pages

/-- `slob_alloc` for one unit must not come upon the arena. -/
theorem slobAlloc_spec (h : Linked s free) (hlayout : Layout arena s.pages free live)
    (hlow : SLOB_UNIT < size ∨ 0 < size ∧ s.next s.slobfree ≠ arena)
    (hup : size + SLOB_UNIT < PAGE_SIZE)
    (hfresh : ∀ page ∈ answers.filterMap id, Fresh arena s page)
    (hfuel : 512 * (s.pages.length + 2) < fuel ∨ E .runaway) :
    Ends E (slobAlloc fuel size answers) s fun r t =>
      ∃ free', Allocated arena size answers live r s t free' := by
  have hlength := hlayout.length_le
  simp only [slobAlloc, ends_bind, ends_check hup, ends_get]
  by_cases hone : size ≤ SLOB_UNIT
  · -- every block has the one unit
    obtain ⟨hpos, harena⟩ := hlow.resolve_left (Nat.not_lt.mpr hone)
    have hunit : SLOB_UNITS size = 1 := by
      unfold SLOB_UNITS SLOB_UNIT at *
      omega
    have hnext : s.next s.slobfree ∈ free.map start := by
      obtain ⟨post, _, hperm, _⟩ := h.scan
      exact hperm.mem_iff.mp List.mem_cons_self
    have hfit : SLOB_UNITS size ≤ s.units (s.next s.slobfree) := by
      obtain ⟨x, hx, heq⟩ := List.mem_map.mp hnext
      rw [hunit, ← heq, h.sizes x hx]
      exact hlayout.free_pos hx
    have htake : ∀ b t free', Taken arena live (SLOB_UNITS size) b s t free' →
        ∃ free', Allocated arena size answers live (some b) s t free' := by
      intro b t free' htaken
      refine ⟨free', htaken.linked, ?_, fun c hc => Option.some.inj hc ▸ htaken.units, htaken.same,
        Or.inl htaken.pages⟩
      rw [htaken.pages]
      exact htaken.layout
    -- a request for one unit takes the first block, wherever it is
    cases fuel with
    | zero => exact hfuel.resolve_left (Nat.not_lt_zero _)
    | succ fuel =>
        exact allocFrom_first h hlayout (hunit ▸ Nat.one_pos) harena hfit fuel.succ_pos htake
  have hunits : 1 < SLOB_UNITS size ∧ SLOB_UNITS size ≤ 256 := by
    unfold SLOB_UNITS SLOB_UNIT PAGE_SIZE at *
    omega
  apply allocFrom_round h hlayout hunits.1
  · exact hfuel.imp_left fun hlt => by omega
  · intro b t free' htaken
    refine ⟨free', htaken.linked, ?_, fun c hc => Option.some.inj hc ▸ htaken.units, htaken.same,
      Or.inl htaken.pages⟩
    rw [htaken.pages]
    exact htaken.layout
  · intro p more hmore hsmall
    have hnofit : ¬ SLOB_UNITS size ≤ s.units s.slobfree := by
      obtain ⟨x, hx, heq⟩ := List.mem_map.mp h.slobfree
      rw [← heq, h.sizes x hx]
      exact Nat.not_le.mpr (hsmall x hx)
    have hnotpage : size ≠ PAGE_SIZE := by omega
    simp only [allocFrom, ends_bind, ends_get, if_neg hnofit, if_neg hnotpage, if_true]
    split
    next page answers' =>
      -- the page becomes free, and the second round takes units from it
      have hpage := hfresh page (by simp)
      have hlayout' := hlayout.getPage hpage
      have hlinked : Linked { s with pages := page :: s.pages } free :=
        ⟨h.ring, h.sizes, h.slobfree⟩
      have hroom : 256 * (s.pages.length + 1) + 1 ≤ more ∨ E .runaway :=
        hfuel.imp_left fun hlt => by omega
      rw [ends_bind, ends_modify, ends_bind]
      have hlong : free.length ≤ more ∨ E .runaway := hroom.imp_left fun hle => by omega
      have hfree :=
        slobFree_spec hlinked hlayout' PAGE_SIZE (by decide : SLOB_UNITS PAGE_SIZE = 256) hlong
      apply hfree.imp
      rintro _ t ⟨free', hlinked', hlayout'', ⟨x, hx, hbig⟩, hsame, hpages⟩
      rw [ends_bind, ends_get]
      change t.pages = page :: s.pages at hpages
      change Layout arena (page :: s.pages) free' live at hlayout''
      rw [← hpages] at hlayout''
      have hlength' := hlayout''.length_le
      rw [hpages, List.length_cons] at hlength'
      apply allocFrom_round hlinked' hlayout'' hunits.1
      · exact hroom.imp_left fun hle => Nat.le_trans hlength' hle
      · intro b u free'' htaken
        refine ⟨free'', htaken.linked, ?_, fun c hc => Option.some.inj hc ▸ htaken.units,
          SameOn.trans hsame htaken.same, Or.inr ⟨page, by simp, htaken.pages.trans hpages⟩⟩
        rw [htaken.pages]
        exact htaken.layout
      · intro _ _ _ hsmall
        exact absurd (Nat.lt_of_le_of_lt hbig (hsmall x hx)) (Nat.not_lt.mpr hunits.2)
    next => exact ⟨free, h, hlayout, fun _ hno => (by cases hno), SameOn.refl, Or.inl rfl⟩

end Ucore.Slob
