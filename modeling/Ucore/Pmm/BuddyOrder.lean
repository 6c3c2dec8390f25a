import Ucore.Pmm.BuddyCount

/-!
# The order that the buddy manager serves a request from

`buddy_system_alloc_pages` looks for the greatest order of which a block has at most `n`
pages and takes the next one. For a power of two this is one too large, and no block of
the last order can be asked for by its size; what `buddy_system_free_pages` asserts leaves
out the last order as well.
-/

namespace Ucore.Pmm.Buddy

open Machine Finset

variable {headers : Headers} {s t : FreeAreas} {blocks : Nat → List Nat}
  {fuel order base n p q : Nat}

/-! ## What `buddy_system_free_pages` stops for -/

/-- A walk over a list does not end, or a header is merged with the block behind it. -/
def walks (e : Stop) : Prop := e = .runaway ∨ e = .header

theorem walks_header : walks .header := Or.inr rfl

/-- An assertion fails. -/
def asserts (e : Stop) : Prop := e = .assertion

def assertsOrWalks (e : Stop) : Prop := asserts e ∨ walks e

theorem within_assertion {c : Prop} [Decidable c] :
    Within asserts (check .assertion c : BuddyM PUnit) :=
  within_check (Or.inr rfl)

theorem within_addLoop {le : Entry} : Within walks (addLoop order base fuel le) := by
  induction fuel generalizing le with
  | zero => exact within_throw (Or.inl rfl)
  | succ fuel ih =>
      apply within_get.bind
      intro s
      dsimp only
      split
      · exact within_pure _
      · split
        · exact within_modify _
        · split
          · exact (within_modify _).bind fun _ => ih
          · exact ih

theorem within_addPage (horder : order < MAX_ORDER) : Within walks (addPage fuel order base) := by
  apply (within_check (Or.inl horder)).bind
  intro _
  apply within_get.bind
  intro s
  split
  · exact within_modify _
  · exact within_addLoop

theorem within_absorb : Within walks (absorb p q) :=
  within_get.bind fun _ => (within_modify _).bind fun _ => (within_modify _).bind fun _ =>
    within_modify _

theorem within_raise (horder : order + 1 < MAX_ORDER) : Within walks (raise fuel order base) :=
  (within_modify _).bind fun _ => within_addPage horder

theorem within_mergePrev (horder : order + 1 < MAX_ORDER) :
    Within walks (mergePrev headers fuel order base) := by
  apply (within_check (Or.inl (Nat.lt_of_succ_lt horder))).bind
  intro _
  apply within_get.bind
  intro s
  split
  · split
    · exact within_throw walks_header
    · exact within_pure base
  · split
    · exact within_absorb.bind fun _ => (within_raise horder).bind fun _ => within_pure _
    · exact within_pure base

theorem within_mergeNext (horder : order + 1 < MAX_ORDER) :
    Within walks (mergeNext fuel order base) := by
  apply (within_check (Or.inl (Nat.lt_of_succ_lt horder))).bind
  intro _
  apply within_get.bind
  intro s
  split
  · exact within_pure _
  · split
    · exact within_absorb.bind fun _ => within_raise horder
    · exact within_pure _

/-- The recursion of `merge_page` stays below the last order. -/
theorem within_mergePage {rest : Nat} (hrest : rest + order < MAX_ORDER) :
    Within walks (mergePage headers fuel rest order base) := by
  induction rest generalizing order base with
  | zero => exact within_pure _
  | succ rest ih =>
      have horder : order + 1 < MAX_ORDER := by omega
      apply (within_mergePrev horder).bind
      intro base
      exact (within_mergeNext horder).bind fun _ => ih (by omega)

/-- The order of a block is not larger than its size allows. -/
theorem orderLoop_spec {temp : Nat} : Ends walks (orderLoop fuel temp order) s fun r _ =>
    order ≤ r ∧ 2 ^ (r - order) ≤ temp := by
  induction fuel generalizing temp order with
  | zero => exact Or.inl rfl
  | succ fuel ih =>
      rw [orderLoop]
      split
      next hone => exact ⟨Nat.le_refl _, by simp [hone]⟩
      next =>
        apply ih.imp
        rintro r _ ⟨hle, hpow⟩
        refine ⟨Nat.le_of_succ_le hle, ?_⟩
        have hsucc : r - order = r - (order + 1) + 1 := by omega
        rw [Nat.shiftRight_eq_div_pow, Nat.pow_one] at hpow
        rw [hsucc, Nat.pow_succ]
        omega

/-- What follows the assertions. -/
theorem within_freeTail (hn : n < 2 ^ (MAX_ORDER - 1)) :
    Within walks (do
      setPage base fun page => page.setProperty n
      setPage base Page.setHead
      let order ← orderLoop MAX_ORDER n 0
      addPage fuel order base
      mergePage headers fuel (MAX_ORDER - 1 - order) order base) := by
  intro s
  simp only [ends_bind, ends_setPage]
  apply orderLoop_spec.imp
  rintro order t ⟨_, hpow⟩
  have horder : order < MAX_ORDER - 1 :=
    (Nat.pow_lt_pow_iff_right Nat.one_lt_two).mp (Nat.lt_of_le_of_lt hpow hn)
  have hlast : order < MAX_ORDER := Nat.lt_of_lt_of_le horder (Nat.sub_le _ _)
  have hrest : MAX_ORDER - 1 - order + order < MAX_ORDER := by
    rw [Nat.sub_add_cancel (Nat.le_of_lt horder)]
    decide
  exact (within_addPage hlast t).imp fun _ t _ => within_mergePage hrest t

theorem within_resetPages : Within asserts (resetPages base n) := by
  induction n generalizing base with
  | zero => exact within_pure _
  | succ n ih =>
      apply within_get.bind
      intro s
      exact within_assertion.bind fun _ => (within_modify _).bind fun _ => ih

/-- `buddy_system_free_pages` uses no list above the last order. -/
theorem within_free : Within assertsOrWalks (buddySystemFreePages headers fuel base n) := by
  have hcheck : ∀ c [Decidable c], Within assertsOrWalks (check .assertion c : BuddyM PUnit) :=
    fun c _ => within_assertion.mono fun _ => Or.inl
  apply (hcheck _).bind
  intro _
  apply (hcheck _).bind
  intro _ s
  have hassert : assertsOrWalks .assertion := Or.inl rfl
  rw [ends_bind, ends_check_of hassert]
  intro hn
  rw [ends_bind]
  apply (within_resetPages s).mono
  · exact fun e he => Or.inl he
  · exact fun _ t _ => (within_freeTail hn t).mono (fun e he => Or.inr he) fun _ _ _ => trivial

theorem resetPages_spec (hflags : ∀ p ∈ Ico base (base + n), (s.page p).reserved = false ∧
    (s.page p).isHead = false) :
    Ends never (resetPages base n) s fun _ _ => True := by
  induction n generalizing base s with
  | zero => trivial
  | succ n ih =>
      obtain ⟨hreserved, hhead⟩ := hflags base (mem_Ico.mpr ⟨Nat.le_refl _, by omega⟩)
      have hcheck : (!(s.page base).reserved && !(s.page base).isHead) = true := by
        rw [hreserved, hhead]
        rfl
      rw [resetPages, ends_bind, ends_get, ends_bind, ends_check hcheck, ends_bind, ends_setPage]
      apply ih
      intro p hp
      rw [mem_Ico] at hp
      have hne : p ≠ base := by omega
      simp only [Function.update_of_ne hne]
      exact hflags p (mem_Ico.mpr ⟨by omega, by omega⟩)

/-- The assertions of `buddy_system_free_pages` hold for a block. -/
def Accepts (base n : Nat) (s : FreeAreas) : Prop :=
  ∀ headers fuel e, buddySystemFreePages headers fuel base n s = .error e → e ≠ .assertion

theorem accepts_of_flags {m : Nat} (hm : m < MAX_ORDER - 1)
    (hflags : ∀ p ∈ Ico base (base + 2 ^ m), (s.page p).reserved = false ∧
      (s.page p).isHead = false) :
    Accepts base (2 ^ m) s := by
  intro headers fuel e herror
  have hsize : 2 ^ m < 2 ^ (MAX_ORDER - 1) := Nat.pow_lt_pow_right Nat.one_lt_two hm
  have hpower : IS_POWER_OF_2 (2 ^ m) = true := by
    rw [IS_POWER_OF_2, Nat.and_two_pow_sub_one_eq_mod, Nat.mod_self]
    rfl
  have hends : Ends walks (buddySystemFreePages headers fuel base (2 ^ m)) s fun _ _ => True := by
    rw [buddySystemFreePages, ends_bind, ends_check (Nat.two_pow_pos m), ends_bind,
      ends_check hpower, ends_bind, ends_check hsize, ends_bind]
    apply (resetPages_spec hflags).lift
    exact fun _ t _ => within_freeTail hsize t
  rcases hends.of_error herror with rfl | rfl
  · exact Stop.noConfusion
  · exact Stop.noConfusion

/-- A block of the last order is not accepted. -/
theorem not_accepts (hn : ¬ n < 2 ^ (MAX_ORDER - 1)) : ¬ Accepts base n s := by
  intro haccepts
  have hends : Ends asserts (buddySystemFreePages ⟨fun _ => none, 0⟩ 0 base n) s fun _ _ =>
      False := by
    rw [buddySystemFreePages, ends_bind]
    apply (within_assertion s).imp
    intro _ s _
    rw [ends_bind]
    apply (within_assertion s).imp
    intro _ s _
    have hassert : asserts .assertion := rfl
    rw [ends_bind, ends_check_of hassert]
    exact fun hsize => absurd hsize hn
  cases hrun : buddySystemFreePages ⟨fun _ => none, 0⟩ 0 base n s with
  | ok r => exact hends.post hrun
  | error e => exact haccepts _ _ _ hrun (hends.of_error hrun)

/-! ## The order of a request -/

/-- Of the pages of a free block the first one alone is marked `PG_property`, and none is reserved.
This is what the assertions of `buddy_system_free_pages` look at. -/
def Flagged (s : FreeAreas) (blocks : Nat → List Nat) : Prop :=
  ∀ i < MAX_ORDER, ∀ p ∈ blocks i, ∀ q ∈ Ico p (p + 2 ^ i),
    (s.page q).reserved = false ∧ ((s.page q).isHead = true ↔ q = p)

/-- A free block has at least `n` pages. -/
def HasBlock (blocks : Nat → List Nat) (n : Nat) : Prop :=
    ∃ i < MAX_ORDER, n ≤ 2 ^ i ∧ blocks i ≠ []

/-- `2 ^ m` is the smallest power of two that is not less than `n`. -/
def LeastPower (n m : Nat) : Prop := n ≤ 2 ^ m ∧ ∀ j, n ≤ 2 ^ j → m ≤ j

/-- What is to be had for a request of `n` pages: the null pointer where no block has as
many, else the front of a free block, as large as the smallest power of two that is enough,
and accepted when it is given back. -/
def RightOrder (blocks : Nat → List Nat) (n : Nat) (s : FreeAreas) : Prop :=
  ∃ r t, buddySystemAllocPages n s = .ok (r, t) ∧ (r = none ↔ ¬ HasBlock blocks n) ∧
    ∀ page, r = some page → ∃ m, LeastPower n m ∧ (t.page page).property = 2 ^ m ∧
      (∃ i, m ≤ i ∧ i < MAX_ORDER ∧ page ∈ blocks i) ∧ Accepts page (2 ^ m) t

theorem Given.accepts {page : Nat} (h : Given blocks order page s t) (hflags : Flagged s blocks)
    (horder : order < MAX_ORDER - 1) : Accepts page (2 ^ order) t := by
  obtain ⟨i, hle, hi, hmem⟩ := h.source
  apply accepts_of_flags horder
  intro q hq
  have hwide : q ∈ Ico page (page + 2 ^ i) :=
    Ico_subset_Ico_right (Nat.add_le_add_left (Nat.pow_le_pow_right Nat.two_pos hle) page) hq
  obtain ⟨hreserved, hhead⟩ := hflags i hi page hmem q hwide
  by_cases hqp : q = page
  · subst hqp
    exact ⟨h.cleared.2.trans hreserved, h.cleared.1⟩
  · have hsame := h.flags q hq hqp
    rw [Page.reserved, Page.isHead, hsame]
    refine ⟨hreserved, ?_⟩
    have hnot := mt hhead.mp hqp
    simpa [Page.isHead] using hnot

theorem findOrder_two_pow {k : Nat} (hk : k ≤ MAX_ORDER - 1) :
    findOrder (2 ^ k) (MAX_ORDER - 1) = k := by
  obtain ⟨_, hpow, hmax⟩ := findOrder_spec (Nat.two_pow_pos k) (MAX_ORDER - 1)
  have hle := (Nat.pow_le_pow_iff_right Nat.one_lt_two).mp hpow
  rcases Nat.eq_or_lt_of_le hle with heq | hlt
  · exact heq
  · exact absurd (hmax k hk hlt) (Nat.lt_irrefl _)

theorem WellFormed.listEmpty_eq_false (h : WellFormed s blocks) {i : Nat} (hi : i < MAX_ORDER)
    (hne : blocks i ≠ []) : s.link.listEmpty (.freeList i) = false := by
  rw [(h.ring i hi).listEmpty_eq, List.isEmpty_map]
  simpa using hne

theorem WellFormed.listEmpty_of_eq_nil (h : WellFormed s blocks) {i : Nat} (hi : i < MAX_ORDER)
    (hnil : blocks i = []) : s.link.listEmpty (.freeList i) = true := by
  rw [(h.ring i hi).listEmpty_eq, hnil]
  rfl

/-- No free block is large enough. -/
theorem rightOrder_of_not_hasBlock (h : WellFormed s blocks) (hn : 0 < n)
    (hnone : ¬ HasBlock blocks n) :
    RightOrder blocks n s := by
  have hempty : ∀ i < MAX_ORDER, n < 2 ^ i → s.link.listEmpty (.freeList i) = true := by
    intro i hi hlt
    apply h.listEmpty_of_eq_nil hi
    by_contra hne
    exact hnone ⟨i, hi, Nat.le_of_lt hlt, hne⟩
  refine ⟨none, s, alloc_none h hn hempty, iff_of_true rfl hnone, ?_⟩
  intro page hpage
  cases hpage

/-- A request between two powers of two is served from the right order. -/
theorem rightOrder_of_between (h : WellFormed s blocks) (hflags : Flagged s blocks) (hn : 0 < n)
    (hsmall : n < 2 ^ (MAX_ORDER - 2)) (hpower : ∀ k, n ≠ 2 ^ k) (hsome : HasBlock blocks n) :
    RightOrder blocks n s := by
  obtain ⟨i, hi, hle, hne⟩ := hsome
  have hlt : n < 2 ^ i := Nat.lt_of_le_of_ne hle (hpower i)
  obtain ⟨r, t, hrun, page, rfl, hgiven⟩ :=
    (alloc_some h hn hi hlt (h.listEmpty_eq_false hi hne)).ok
  obtain ⟨_, hpow, hmax⟩ := findOrder_spec hn (MAX_ORDER - 1)
  have horder : findOrder n (MAX_ORDER - 1) < MAX_ORDER - 2 :=
    (Nat.pow_lt_pow_iff_right Nat.one_lt_two).mp (Nat.lt_of_le_of_lt hpow hsmall)
  have hmost : findOrder n (MAX_ORDER - 1) + 1 < MAX_ORDER - 1 := Nat.succ_lt_succ horder
  refine ⟨some page, t, hrun, ?_, ?_⟩
  · constructor
    · intro hnull
      cases hnull
    · exact fun hnot => absurd ⟨i, hi, hle, hne⟩ hnot
  · intro page' hpage
    obtain rfl := Option.some.inj hpage
    refine ⟨findOrder n (MAX_ORDER - 1) + 1, ⟨?_, ?_⟩, hgiven.property, hgiven.source,
      hgiven.accepts hflags hmost⟩
    · exact Nat.le_of_lt (hmax _ (Nat.le_of_lt hmost) (Nat.lt_succ_self _))
    · intro j hj
      have hpow' : 2 ^ findOrder n (MAX_ORDER - 1) < 2 ^ j :=
        Nat.lt_of_lt_of_le (Nat.lt_of_le_of_ne hpow (Ne.symm (hpower _))) hj
      exact (Nat.pow_lt_pow_iff_right Nat.one_lt_two).mp hpow'

/-- A request of a power of two gets a block twice as large, or none. -/
theorem not_rightOrder_of_two_pow (h : WellFormed s blocks) {k : Nat}
    (hsome : HasBlock blocks (2 ^ k)) :
    ¬ RightOrder blocks (2 ^ k) s := by
  rintro ⟨r, t, hrun, hnull, hpage⟩
  have hpos := Nat.two_pow_pos k
  have hk : k ≤ MAX_ORDER - 1 := by
    obtain ⟨i, hi, hle, _⟩ := hsome
    exact Nat.le_trans ((Nat.pow_le_pow_iff_right Nat.one_lt_two).mp hle) (Nat.le_pred_of_lt hi)
  by_cases hlarger : ∃ i < MAX_ORDER, 2 ^ k < 2 ^ i ∧ blocks i ≠ []
  · obtain ⟨i, hi, hlt, hne⟩ := hlarger
    obtain ⟨page, rfl, hgiven⟩ :=
      Ends.post (E := never) (alloc_some h hpos hi hlt (h.listEmpty_eq_false hi hne)) hrun
    obtain ⟨m, ⟨_, hleast⟩, hproperty, _⟩ := hpage page rfl
    have hsize := hgiven.property
    rw [hproperty, findOrder_two_pow hk] at hsize
    have hm : m ≤ k := hleast k (Nat.le_refl _)
    have heq : m = k + 1 := Nat.pow_right_injective (Nat.le_refl 2) hsize
    omega
  · have hempty : ∀ i < MAX_ORDER, 2 ^ k < 2 ^ i → s.link.listEmpty (.freeList i) = true := by
      intro i hi hlt
      apply h.listEmpty_of_eq_nil hi
      by_contra hne
      exact hlarger ⟨i, hi, hlt, hne⟩
    rw [alloc_none h hpos hempty] at hrun
    have hr : r = none := by
      cases hrun
      rfl
    exact hnull.mp hr hsome

/-- What is to be had for a request is had exactly when no free block is large enough, or
the request is no power of two and less than half a block of the last order. -/
theorem rightOrder_iff (h : WellFormed s blocks) (hflags : Flagged s blocks) (hn : 0 < n) :
    RightOrder blocks n s ↔ ¬ HasBlock blocks n ∨ n < 2 ^ (MAX_ORDER - 2) ∧ ∀ k, n ≠ 2 ^ k := by
  constructor
  · intro hright
    by_cases hsome : HasBlock blocks n
    · right
      have hpower : ∀ k, n ≠ 2 ^ k := by
        rintro k rfl
        exact not_rightOrder_of_two_pow h hsome hright
      refine ⟨?_, hpower⟩
      obtain ⟨r, t, hrun, _, hpage⟩ := hright
      obtain ⟨i, hi, hle, hne⟩ := hsome
      have hlt : n < 2 ^ i := Nat.lt_of_le_of_ne hle (hpower i)
      obtain ⟨page, rfl, _⟩ :=
        Ends.post (E := never) (alloc_some h hn hi hlt (h.listEmpty_eq_false hi hne)) hrun
      obtain ⟨m, ⟨hfit, _⟩, _, _, haccepts⟩ := hpage page rfl
      have hm : 2 ^ m < 2 ^ (MAX_ORDER - 1) := by
        by_contra hlarge
        exact not_accepts hlarge haccepts
      have hm' : m ≤ MAX_ORDER - 2 :=
        Nat.le_pred_of_lt ((Nat.pow_lt_pow_iff_right Nat.one_lt_two).mp hm)
      have hle' : n ≤ 2 ^ (MAX_ORDER - 2) :=
        Nat.le_trans hfit (Nat.pow_le_pow_right Nat.two_pos hm')
      exact Nat.lt_of_le_of_ne hle' (hpower _)
    · exact Or.inl hsome
  · rintro (hnone | ⟨hsmall, hpower⟩)
    · exact rightOrder_of_not_hasBlock h hn hnone
    · by_cases hsome : HasBlock blocks n
      · exact rightOrder_of_between h hflags hn hsmall hpower hsome
      · exact rightOrder_of_not_hasBlock h hn hsome

theorem singleBlock_flagged :
    Flagged (singleBlock order) fun i => if i = order then [0] else [] := by
  intro i _ p hp q _
  dsimp only at hp
  split at hp
  · obtain rfl := List.mem_singleton.mp hp
    by_cases hq : q = 0
    · subst hq
      simp only [singleBlock, Page.reserved, Page.isHead, if_pos]
      exact ⟨by decide, iff_of_true (by decide) trivial⟩
    · simp only [singleBlock, Page.reserved, Page.isHead, if_neg hq]
      exact ⟨by decide, iff_of_false (by decide) hq⟩
  · cases hp

theorem onePair_flagged : Flagged onePair fun i => if i = 1 then [0] else [] :=
  singleBlock_flagged

/-- One page is asked for, and the only free block has two. -/
theorem onePair_not_rightOrder : ∃ blocks, WellFormed onePair blocks ∧ Flagged onePair blocks ∧
    ¬ RightOrder blocks 1 onePair :=
  ⟨_, onePair_wellFormed, onePair_flagged,
    not_rightOrder_of_two_pow (k := 0) onePair_wellFormed ⟨1, by decide, by decide, by decide⟩⟩

/-- Three pages are asked for of a block of eight: they get its first half, and no more. -/
theorem rightOrder_iff_eight :
    RightOrder (fun i => if i = 3 then [0] else []) 3 (singleBlock 3) ∧
    ∃ t, buddySystemAllocPages 3 (singleBlock 3) = .ok (some 0, t) ∧ (t.page 0).property = 4 := by
  constructor
  · apply (rightOrder_iff (singleBlock_wellFormed (by decide)) singleBlock_flagged (by decide)).mpr
    refine Or.inr ⟨by decide, ?_⟩
    rintro (_ | _ | k) heq
    · cases heq
    · cases heq
    · have hpos := Nat.two_pow_pos k
      rw [Nat.pow_add] at heq
      omega
  · have hyields : yields (buddySystemAllocPages 3) (singleBlock 3)
        (fun r t => r == some 0 && (t.page 0).property == 4) = true := by decide
    obtain ⟨r, t, hrun, ht⟩ := (Ends.of_yields hyields).ok
    simp only [Bool.and_eq_true, beq_iff_eq] at ht
    exact ⟨t, ht.1 ▸ hrun, ht.2⟩

end Ucore.Pmm.Buddy
