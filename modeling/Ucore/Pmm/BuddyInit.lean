import Ucore.Pmm.BuddyOrder

/-!
# What `buddy_system_init_memmap` links

The loop links a block of the greatest order first and only then looks for the order of
the next one, by whose size it advances. A region of whole blocks of the last order is
tiled; any other one ends in blocks that overlap, or begins with one that is too large.
-/

namespace Ucore.Pmm.Buddy

open Machine Finset Links

variable {s t : FreeAreas} {lists : Nat → List Nat} {E : Stop → Prop} {fuel base n p q order : Nat}

/-- The lists hold blocks that match them, share no page and are together the `n` pages
from `base` on. -/
structure Tiled (base n : Nat) (t : FreeAreas) (blocks : Nat → List Nat) : Prop where
  ring : ∀ i < MAX_ORDER, t.link.Ring (.freeList i) ((blocks i).map .pageLink)
  property : ∀ i < MAX_ORDER, ∀ p ∈ blocks i, (t.page p).property = 2 ^ i
  apart : ∀ i < MAX_ORDER, ∀ j < MAX_ORDER, ∀ p ∈ blocks i, ∀ q ∈ blocks j,
    i ≠ j ∨ p ≠ q → p + 2 ^ i ≤ q ∨ q + 2 ^ j ≤ p
  cover : ∀ q, (∃ i < MAX_ORDER, ∃ p ∈ blocks i, q ∈ Ico p (p + 2 ^ i)) ↔ q ∈ Ico base (base + n)

/-- `buddy_system_init_memmap`, called after `buddy_system_init`, returns, and the free blocks cover
the region without overlap. -/
def InitTiles (base n : Nat) (s : FreeAreas) : Prop :=
  ∃ fuel t, buddySystemInitMemmap fuel base n (buddySystemInit s) = .ok (⟨⟩, t) ∧
    ∃ blocks, Tiled base n t blocks

/-! ## One round -/

/-- A block that the loop links. -/
def linkOne (p order : Nat) (s : FreeAreas) : FreeAreas where
  page := Function.update s.page p ((s.page p).setProperty (2 ^ order)).setHead
  link := s.link.listAddBefore (.freeList order) (.pageLink p)
  nrFree := Function.update s.nrFree order (uint (s.nrFree order + 1))

theorem shrink_eq (currSize order : Nat) :
    shrink currSize order (2 ^ order) =
      (findOrder currSize order, 2 ^ findOrder currSize order) := by
  induction order with
  | zero => rfl
  | succ order ih =>
      have hhalf : 2 ^ (order + 1) >>> 1 = 2 ^ order := by
        rw [Nat.shiftRight_eq_div_pow, Nat.pow_one, Nat.pow_succ, Nat.mul_div_cancel _ Nat.two_pos]
      rw [shrink, findOrder, hhalf]
      split
      · exact ih
      · rfl

theorem findOrder_le (currSize order : Nat) : findOrder currSize order ≤ order := by
  induction order with
  | zero => exact Nat.le_refl _
  | succ order ih =>
      rw [findOrder]
      split
      · exact Nat.le_succ_of_le ih
      · exact Nat.le_refl _

theorem findOrder_of_le (hle : 2 ^ order ≤ n) : findOrder n order = order := by
  cases order with
  | zero => rfl
  | succ order => rw [findOrder, if_neg (Nat.not_lt.mpr hle)]

theorem ends_initLoop {currSize : Nat} (hcurr : currSize ≠ 0) {Q : PUnit → FreeAreas → Prop}
    {next : Nat} (hnext : next = (currSize + (2 ^ 64 - 2 ^ order)) % 2 ^ 64) :
    Ends E (initLoop (fuel + 1) p currSize order (2 ^ order)) s Q ↔
      Ends E (initLoop fuel (p + 2 ^ findOrder next order) next (findOrder next order)
        (2 ^ findOrder next order)) (linkOne p order s) Q := by
  have hpage : Function.update (Function.update s.page p ((s.page p).setProperty (2 ^ order))) p
      ((s.page p).setProperty (2 ^ order)).setHead = (linkOne p order s).page := by
    rw [Function.update_idem]
    rfl
  rw [initLoop, if_neg hcurr]
  simp only [ends_bind, ends_setPage, ends_get, ends_setNrFree, ends_setLink, ← hnext, shrink_eq,
    Function.update_self, hpage]
  exact Iff.rfl

theorem initLoop_done {size : Nat} {Q : PUnit → FreeAreas → Prop} (hQ : Q ⟨⟩ s) :
    Ends E (initLoop (fuel + 1) p 0 order size) s Q := by
  rw [initLoop, if_pos rfl]
  exact hQ

/-! ## The lists -/

/-- The lists hold pages below `p`, none of them twice. -/
structure Linked (s : FreeAreas) (lists : Nat → List Nat) (p : Nat) : Prop where
  ring : ∀ i < MAX_ORDER, s.link.Ring (.freeList i) ((lists i).map .pageLink)
  below : ∀ i < MAX_ORDER, ∀ x ∈ lists i, x < p
  apart : ∀ i < MAX_ORDER, ∀ j < MAX_ORDER, i ≠ j → ∀ x ∈ lists i, x ∉ lists j

/-- A page at the end of a list. -/
def push (lists : Nat → List Nat) (order p : Nat) : Nat → List Nat :=
  Function.update lists order (lists order ++ [p])

theorem mem_push {i x : Nat} : x ∈ push lists order p i ↔ x ∈ lists i ∨ i = order ∧ x = p := by
  by_cases hi : i = order
  · subst hi
    simp [push]
  · simp [push, hi]

theorem Linked.linkOne (h : Linked s lists p) (horder : order < MAX_ORDER)
    {p' : Nat} (hlt : p < p') :
    Linked (linkOne p order s) (push lists order p) p' := by
  have hout : ∀ i < MAX_ORDER, Entry.pageLink p ∉ Entry.freeList i :: (lists i).map .pageLink := by
    intro i hi hmem
    have hp : p ∈ lists i := by simpa using hmem
    exact absurd (h.below i hi p hp) (Nat.lt_irrefl p)
  have hring := h.ring order horder
  refine ⟨?_, ?_, ?_⟩
  · intro i hi
    by_cases hio : i = order
    · subst hio
      have hadd := hring.listAddBefore_header (hout i hi)
      simp only [push, Function.update_self, List.map_append, List.map_cons, List.map_nil]
      exact hadd
    · rw [push, Function.update_of_ne hio]
      apply (h.ring i hi).listAddBefore_other
      · simpa using Ne.symm hio
      · exact hout i hi
      · have hprev := (hring.neighbours_mem List.mem_cons_self).2
        intro hmem
        rcases List.mem_cons.mp hprev with heq | hin
        · rw [heq] at hmem
          have hsame : order = i := by simpa using hmem
          exact hio hsame.symm
        · obtain ⟨x, hx, heq⟩ := List.mem_map.mp hin
          rw [← heq] at hmem
          exact h.apart order horder i hi (Ne.symm hio) x hx (by simpa using hmem)
  · intro i hi x hx
    rcases mem_push.mp hx with hold | ⟨_, hnew⟩
    · exact Nat.lt_trans (h.below i hi x hold) hlt
    · rwa [hnew]
  · intro i hi j hj hne x hx hx'
    rcases mem_push.mp hx with hold | ⟨hio, hnew⟩
    · rcases mem_push.mp hx' with hold' | ⟨_, hnew'⟩
      · exact h.apart i hi j hj hne x hold hold'
      · exact absurd (h.below i hi x hold) (hnew' ▸ Nat.lt_irrefl x)
    · rcases mem_push.mp hx' with hold' | ⟨hjo, _⟩
      · exact absurd (h.below j hj x hold') (hnew ▸ Nat.lt_irrefl x)
      · exact hne (hio.trans hjo.symm)

theorem linked_init (s : FreeAreas) (base : Nat) : Linked (buddySystemInit s)
    (fun _ => []) base where
  ring := fun i hi => listInitAll_ring s.link (List.mem_map_of_mem (List.mem_range.mpr hi))
  below := by
    intro i _ x hx
    cases hx
  apart := by
    intro i _ j _ _ x hx
    cases hx

/-- The lists of a state are determined by its links. -/
theorem Tiled.eq_lists {blocks : Nat → List Nat} (h : Tiled base n t blocks)
    (hlinked : Linked t lists p) {i : Nat} (hi : i < MAX_ORDER) : blocks i = lists i := by
  have hsame := (h.ring i hi).visits_next.unique (hlinked.ring i hi).visits_next
  exact List.map_injective_iff.mpr (fun _ _ heq => Entry.pageLink.inj heq) hsame

/-- Whatever the loop does, it keeps the blocks that it has linked and the descriptors
behind it. -/
theorem initLoop_keeps {currSize : Nat} (h : Linked s lists p) (horder : order < MAX_ORDER) :
    Ends (fun _ => True) (initLoop fuel p currSize order (2 ^ order)) s fun _ t =>
      ∃ lists' p', Linked t lists' p' ∧ ∀ i, ∀ x ∈ lists i, x ∈ lists' i := by
  induction fuel generalizing s lists p currSize order with
  | zero => trivial
  | succ fuel ih =>
      by_cases hcurr : currSize = 0
      · rw [hcurr]
        exact initLoop_done ⟨lists, p, h, fun _ _ hx => hx⟩
      · rw [ends_initLoop hcurr rfl]
        have hle := findOrder_le ((currSize + (2 ^ 64 - 2 ^ order)) % 2 ^ 64) order
        have hpos := Nat.two_pow_pos (findOrder ((currSize + (2 ^ 64 - 2 ^ order)) % 2 ^ 64) order)
        have hnext := h.linkOne horder (Nat.lt_add_of_pos_right hpos)
        apply (ih hnext (Nat.lt_of_le_of_lt hle horder)).imp
        rintro _ t ⟨lists', p', hlinked, hsub⟩
        exact ⟨lists', p', hlinked, fun i x hx => hsub i x (mem_push.mpr (Or.inl hx))⟩

/-! ## Whole blocks of the last order -/

/-- The state after `k` blocks of the last order. -/
def linkAll (p : Nat) : Nat → FreeAreas → FreeAreas
  | 0, s => s
  | k + 1, s => linkAll (p + 2 ^ (MAX_ORDER - 1)) k (linkOne p (MAX_ORDER - 1) s)

/-- The heads of `k` blocks of the last order. -/
def heads (p k : Nat) : List Nat := (List.range k).map fun j => p + 2 ^ (MAX_ORDER - 1) * j

theorem mem_heads {k x : Nat} : x ∈ heads p k ↔ ∃ j < k, x = p + 2 ^ (MAX_ORDER - 1) * j := by
  simp only [heads, List.mem_map, List.mem_range]
  exact exists_congr fun j => and_congr_right fun _ => eq_comm

/-- The lists after them. -/
def wholeBlocks (lists : Nat → List Nat) (p k : Nat) : Nat → List Nat :=
  Function.update lists (MAX_ORDER - 1) (lists (MAX_ORDER - 1) ++ heads p k)

theorem wholeBlocks_succ (k : Nat) : wholeBlocks (push lists (MAX_ORDER - 1) p)
    (p + 2 ^ (MAX_ORDER - 1)) k =
    wholeBlocks lists p (k + 1) := by
  have hheads : heads p (k + 1) = p :: heads (p + 2 ^ (MAX_ORDER - 1)) k := by
    rw [heads, List.range_succ_eq_map, List.map_cons, List.map_map]
    congr 1
    apply List.map_congr_left
    intro j _
    rw [Function.comp_apply, Nat.mul_succ]
    omega
  rw [wholeBlocks, wholeBlocks, push, Function.update_self, Function.update_idem, hheads,
    List.append_assoc, List.singleton_append]

theorem wholeBlocks_zero : wholeBlocks lists p 0 = lists := by
  rw [wholeBlocks, heads, List.range_zero, List.map_nil, List.append_nil, Function.update_eq_self]

theorem linked_linkAll {k p' : Nat} (h : Linked s lists p)
    (hlt : p + 2 ^ (MAX_ORDER - 1) * k < p') :
    Linked (linkAll p (k + 1) s) (wholeBlocks lists p (k + 1)) p' := by
  have hlast : MAX_ORDER - 1 < MAX_ORDER := by decide
  induction k generalizing s lists p with
  | zero =>
      rw [← wholeBlocks_succ, wholeBlocks_zero]
      exact h.linkOne hlast hlt
  | succ k ih =>
      rw [← wholeBlocks_succ]
      apply ih (h.linkOne hlast (Nat.lt_add_of_pos_right (Nat.two_pow_pos _)))
      rw [Nat.mul_succ] at hlt
      omega

theorem linkAll_page_of_lt {k : Nat} (hq : q < p) : (linkAll p k s).page q = s.page q := by
  induction k generalizing s p with
  | zero => rfl
  | succ k ih =>
      rw [linkAll, ih (Nat.lt_add_right _ hq), linkOne]
      exact Function.update_of_ne (Nat.ne_of_lt hq) _ _

theorem linkAll_property {k : Nat} (hq : q ∈ heads p k) :
    ((linkAll p k s).page q).property = 2 ^ (MAX_ORDER - 1) := by
  induction k generalizing s p with
  | zero => cases hq
  | succ k ih =>
      obtain ⟨j, hj, rfl⟩ := mem_heads.mp hq
      cases j with
      | zero =>
          rw [linkAll, Nat.mul_zero, Nat.add_zero,
            linkAll_page_of_lt (Nat.lt_add_of_pos_right (Nat.two_pow_pos _)), linkOne]
          simp
      | succ j =>
          apply ih
          rw [mem_heads]
          refine ⟨j, Nat.lt_of_succ_lt_succ hj, ?_⟩
          rw [Nat.mul_succ]
          omega

/-- As long as there are pages for a block of the last order the loop links such blocks;
then it goes on with the rest, from a place that is too near for the last of them. -/
theorem initLoop_whole {k r : Nat} (hrest : r < 2 ^ (MAX_ORDER - 1))
    (hsize : 2 ^ (MAX_ORDER - 1) * (k + 1) + r < 2 ^ 64) {Q : PUnit → FreeAreas → Prop}
    (hfuel : E .runaway ∨ k + 1 ≤ fuel)
    (hdone : ∀ fuel', fuel = fuel' + (k + 1) →
      Ends E (initLoop fuel' (p + 2 ^ (MAX_ORDER - 1) * k + 2 ^ findOrder r (MAX_ORDER - 1)) r
        (findOrder r (MAX_ORDER - 1)) (2 ^ findOrder r (MAX_ORDER - 1))) (linkAll p (k + 1) s) Q) :
    Ends E (initLoop fuel p (2 ^ (MAX_ORDER - 1) * (k + 1) + r) (MAX_ORDER - 1)
      (2 ^ (MAX_ORDER - 1))) s Q := by
  have hpos := Nat.two_pow_pos (MAX_ORDER - 1)
  induction k generalizing fuel p s with
  | zero =>
      cases fuel with
      | zero => exact hfuel.resolve_right (Nat.not_succ_le_zero _)
      | succ fuel =>
          have hnext :
              r = (2 ^ (MAX_ORDER - 1) * (0 + 1) + r + (2 ^ 64 - 2 ^ (MAX_ORDER - 1))) %
                2 ^ 64 := by
            omega
          rw [ends_initLoop (by omega) hnext]
          exact hdone fuel rfl
  | succ k ih =>
      cases fuel with
      | zero => exact hfuel.resolve_right (Nat.not_succ_le_zero _)
      | succ fuel =>
          have hnext : 2 ^ (MAX_ORDER - 1) * (k + 1) + r =
              (2 ^ (MAX_ORDER - 1) * (k + 1 + 1) + r + (2 ^ 64 - 2 ^ (MAX_ORDER - 1))) %
                2 ^ 64 := by
            rw [Nat.mul_succ _ (k + 1)] at hsize ⊢
            omega
          have hlarge : findOrder (2 ^ (MAX_ORDER - 1) * (k + 1) + r)
              (MAX_ORDER - 1) = MAX_ORDER - 1 := by
            apply findOrder_of_le
            rw [Nat.mul_succ]
            omega
          rw [Nat.mul_succ] at hsize
          have hsome : 2 ^ (MAX_ORDER - 1) * (k + 1 + 1) + r ≠ 0 :=
            Nat.ne_of_gt (Nat.add_pos_left (Nat.mul_pos hpos (Nat.succ_pos _)) _)
          rw [ends_initLoop hsome hnext, hlarge]
          apply ih (by omega)
          · exact hfuel.imp_right Nat.le_of_succ_le_succ
          · intro fuel' hfuel'
            have hdone' := hdone fuel' (by omega)
            rw [Nat.mul_succ, Nat.add_comm (_ * k), ← Nat.add_assoc] at hdone'
            exact hdone'

/-! ## The whole function -/

theorem initPages_spec (hreserved : ∀ p ∈ Ico base (base + n), (s.page p).reserved = true) :
    Ends E (initPages base n) s fun _ t => t.link = s.link ∧ t.nrFree = s.nrFree := by
  induction n generalizing base s with
  | zero => exact ⟨rfl, rfl⟩
  | succ n ih =>
      have hbase := hreserved base (mem_Ico.mpr ⟨Nat.le_refl _, by omega⟩)
      rw [initPages, ends_bind, ends_get, ends_bind, ends_check hbase, ends_bind, ends_setPage]
      apply ih
      intro p hp
      rw [mem_Ico] at hp
      have hne : p ≠ base := by omega
      simp only [Function.update_of_ne hne]
      exact hreserved p (mem_Ico.mpr ⟨by omega, by omega⟩)

theorem Linked.of_link (h : Linked s lists p) (hlink : t.link = s.link) : Linked t lists p :=
  ⟨hlink ▸ h.ring, h.below, h.apart⟩

section Region

variable (hn : 0 < n) (hreserved : ∀ p ∈ Ico base (base + n), (s.page p).reserved = true)

include hn hreserved

/-- What is left for the loop once the pages have been reset. -/
theorem ends_initMemmap {Q : PUnit → FreeAreas → Prop}
    (hloop : ∀ t, Linked t (fun _ => []) base → t.nrFree = (buddySystemInit s).nrFree →
      Ends E (initLoop fuel base n (MAX_ORDER - 1) (2 ^ (MAX_ORDER - 1))) t Q) :
    Ends E (buddySystemInitMemmap fuel base n) (buddySystemInit s) Q := by
  rw [buddySystemInitMemmap, ends_bind, ends_check hn, ends_bind]
  apply (initPages_spec (s := buddySystemInit s) hreserved).imp
  rintro _ t ⟨hlink, hcount⟩
  exact hloop t ((linked_init s base).of_link hlink) hcount

/-- A region of whole blocks of the last order is tiled. -/
theorem initTiles_of_mul {k : Nat} (hsize : n < 2 ^ 64)
    (hk : n = 2 ^ (MAX_ORDER - 1) * (k + 1) + 0) :
    InitTiles base n s := by
  have hlast : MAX_ORDER - 1 < MAX_ORDER := by decide
  have hends : Ends never (buddySystemInitMemmap (k + 2) base n) (buddySystemInit s) fun _ t =>
      ∃ u, Linked u (fun _ => []) base ∧ t = linkAll base (k + 1) u := by
    apply ends_initMemmap hn hreserved
    intro u hu _
    have hrest : 0 < 2 ^ (MAX_ORDER - 1) := Nat.two_pow_pos _
    generalize hzero : 0 = rest at hk hrest
    rw [hk] at hsize ⊢
    apply initLoop_whole hrest hsize (Or.inr (Nat.le_succ _))
    intro fuel' hfuel'
    obtain ⟨fuel, rfl⟩ : ∃ fuel, fuel' = fuel + 1 := ⟨fuel' - 1, by omega⟩
    rw [← hzero]
    exact initLoop_done ⟨u, hu, rfl⟩
  obtain ⟨_, t, hrun, u, hu, rfl⟩ := hends.ok
  have hlinked := linked_linkAll hu (Nat.lt_succ_self (base + 2 ^ (MAX_ORDER - 1) * k))
  have hmem : ∀ i, ∀ x ∈ wholeBlocks (fun _ => []) base (k + 1) i, i = MAX_ORDER - 1 ∧
      x ∈ heads base (k + 1) := by
    intro i x hx
    by_cases hi : i = MAX_ORDER - 1
    · subst hi
      refine ⟨rfl, ?_⟩
      simpa [wholeBlocks] using hx
    · rw [wholeBlocks, Function.update_of_ne hi] at hx
      cases hx
  have hself : wholeBlocks (fun _ => []) base (k + 1) (MAX_ORDER - 1) = heads base (k + 1) := by
    rw [wholeBlocks, Function.update_self, List.nil_append]
  refine ⟨k + 2, _, hrun, wholeBlocks (fun _ => []) base (k + 1), hlinked.ring, ?_, ?_, ?_⟩
  · intro i _ p hp
    obtain ⟨rfl, hp⟩ := hmem i p hp
    exact linkAll_property hp
  · intro i _ j _ p hp q hq hne
    obtain ⟨rfl, hp⟩ := hmem i p hp
    obtain ⟨rfl, hq⟩ := hmem j q hq
    obtain ⟨a, _, rfl⟩ := mem_heads.mp hp
    obtain ⟨b, _, rfl⟩ := mem_heads.mp hq
    rcases Nat.lt_trichotomy a b with hlt | rfl | hlt
    · left
      have hle := Nat.mul_le_mul_left (2 ^ (MAX_ORDER - 1)) hlt
      rw [Nat.mul_succ] at hle
      omega
    · simp at hne
    · right
      have hle := Nat.mul_le_mul_left (2 ^ (MAX_ORDER - 1)) hlt
      rw [Nat.mul_succ] at hle
      omega
  · intro q
    have hpos := Nat.two_pow_pos (MAX_ORDER - 1)
    constructor
    · rintro ⟨i, _, p, hp, hq⟩
      obtain ⟨rfl, hp⟩ := hmem i p hp
      obtain ⟨j, hj, rfl⟩ := mem_heads.mp hp
      have hle := Nat.mul_le_mul_left (2 ^ (MAX_ORDER - 1)) hj
      rw [Nat.mul_succ] at hle
      rw [mem_Ico] at hq ⊢
      omega
    · intro hq
      rw [mem_Ico] at hq
      have hblock := Nat.div_add_mod (q - base) (2 ^ (MAX_ORDER - 1))
      have hmod := Nat.mod_lt (q - base) hpos
      have hj : (q - base) / 2 ^ (MAX_ORDER - 1) < k + 1 := by
        apply Nat.div_lt_of_lt_mul
        omega
      refine ⟨MAX_ORDER - 1, hlast, base + 2 ^ (MAX_ORDER - 1) * ((q - base) / 2 ^ (MAX_ORDER - 1)),
        ?_, ?_⟩
      · rw [hself]
        exact mem_heads.mpr ⟨_, hj, rfl⟩
      · rw [mem_Ico]
        omega

/-- A smaller region is exceeded by the first block. -/
theorem not_initTiles_of_lt (hlt : n < 2 ^ (MAX_ORDER - 1)) : ¬ InitTiles base n s := by
  rintro ⟨fuel, t, hrun, blocks, htiled⟩
  have hlast : MAX_ORDER - 1 < MAX_ORDER := by decide
  have hends : Ends (fun _ => True) (buddySystemInitMemmap fuel base n)
      (buddySystemInit s) fun _ t =>
      ∃ lists p, Linked t lists p ∧ base ∈ lists (MAX_ORDER - 1) := by
    apply ends_initMemmap hn hreserved
    intro u hu _
    cases fuel with
    | zero => trivial
    | succ fuel =>
        rw [ends_initLoop (Nat.ne_of_gt hn) rfl]
        have hlinked := hu.linkOne hlast (Nat.lt_add_of_pos_right
          (Nat.two_pow_pos (findOrder ((n + (2 ^ 64 - 2 ^ (MAX_ORDER - 1))) % 2 ^ 64)
            (MAX_ORDER - 1))))
        apply (initLoop_keeps hlinked (Nat.lt_of_le_of_lt (findOrder_le _ _) hlast)).imp
        rintro _ t ⟨lists, p, ht, hsub⟩
        exact ⟨lists, p, ht, hsub _ base (mem_push.mpr (Or.inr ⟨rfl, rfl⟩))⟩
  obtain ⟨lists, p, hlinked, hmem⟩ := hends.post hrun
  rw [← htiled.eq_lists hlinked hlast] at hmem
  have hin :=
    (htiled.cover (base + n)).mp ⟨MAX_ORDER - 1, hlast, base, hmem,
      mem_Ico.mpr ⟨by omega, by omega⟩⟩
  exact absurd (mem_Ico.mp hin).2 (Nat.lt_irrefl _)

/-- After whole blocks the rest overlaps the last one of them. -/
theorem not_initTiles_of_rest {k rest : Nat} (hsize : n < 2 ^ 64)
    (hrest : rest < 2 ^ (MAX_ORDER - 1))
    (hpos : rest ≠ 0) (hk : n = 2 ^ (MAX_ORDER - 1) * (k + 1) + rest) : ¬ InitTiles base n s := by
  rintro ⟨fuel, t, hrun, blocks, htiled⟩
  have hlast : MAX_ORDER - 1 < MAX_ORDER := by decide
  generalize hstart : base + 2 ^ (MAX_ORDER - 1) * k = start
  generalize horder : findOrder rest (MAX_ORDER - 1) = order
  have hle : order < MAX_ORDER - 1 := by
    have hpow := (findOrder_spec (Nat.pos_of_ne_zero hpos) (MAX_ORDER - 1)).2.1
    rw [horder] at hpow
    exact (Nat.pow_lt_pow_iff_right Nat.one_lt_two).mp (Nat.lt_of_le_of_lt hpow hrest)
  have hends : Ends (fun _ => True) (buddySystemInitMemmap fuel base n)
      (buddySystemInit s) fun _ t =>
      ∃ lists p, Linked t lists p ∧ start ∈ lists (MAX_ORDER - 1) ∧
      start + 2 ^ order ∈ lists order := by
    apply ends_initMemmap hn hreserved
    intro u hu _
    rw [hk]
    apply initLoop_whole hrest (hk ▸ hsize) (Or.inl trivial)
    intro fuel' _
    rw [horder, hstart]
    cases fuel' with
    | zero => trivial
    | succ fuel' =>
        rw [ends_initLoop hpos rfl]
        have hbefore : base + 2 ^ (MAX_ORDER - 1) * k < start + 2 ^ order :=
          hstart ▸ Nat.lt_add_of_pos_right (Nat.two_pow_pos order)
        have hlinked := (linked_linkAll hu hbefore).linkOne (Nat.lt_trans hle hlast)
          (Nat.lt_add_of_pos_right
          (Nat.two_pow_pos (findOrder ((rest + (2 ^ 64 - 2 ^ order)) % 2 ^ 64) order)))
        apply (initLoop_keeps hlinked (Nat.lt_of_le_of_lt (findOrder_le _ _)
          (Nat.lt_trans hle hlast))).imp
        rintro _ t ⟨lists, p, ht, hsub⟩
        refine ⟨lists, p, ht, hsub _ start (mem_push.mpr (Or.inl ?_)),
          hsub _ _ (mem_push.mpr (Or.inr ⟨rfl, rfl⟩))⟩
        rw [wholeBlocks, Function.update_self, List.nil_append, mem_heads]
        exact ⟨k, Nat.lt_succ_self k, hstart.symm⟩
  obtain ⟨lists, p, hlinked, hwhole, hpart⟩ := hends.post hrun
  rw [← htiled.eq_lists hlinked hlast] at hwhole
  rw [← htiled.eq_lists hlinked (Nat.lt_trans hle hlast)] at hpart
  have happart :=
    htiled.apart _ hlast order (Nat.lt_trans hle hlast) start hwhole (start + 2 ^ order) hpart
    (Or.inl (Nat.ne_of_gt hle))
  have hpow := Nat.pow_lt_pow_right Nat.one_lt_two hle
  have hone := Nat.two_pow_pos order
  omega

/-- The region is tiled exactly when it is made of whole blocks of the last order. -/
theorem initTiles_iff (hsize : n < 2 ^ 64) : InitTiles base n s ↔ 2 ^ (MAX_ORDER - 1) ∣ n := by
  have hpos := Nat.two_pow_pos (MAX_ORDER - 1)
  have hdiv := Nat.div_add_mod n (2 ^ (MAX_ORDER - 1))
  have hmod := Nat.mod_lt n hpos
  constructor
  · intro htiles
    by_contra hnot
    have hrest : n % 2 ^ (MAX_ORDER - 1) ≠ 0 := fun hzero => hnot (Nat.dvd_of_mod_eq_zero hzero)
    cases hk : n / 2 ^ (MAX_ORDER - 1) with
    | zero =>
        rw [hk, Nat.mul_zero, Nat.zero_add] at hdiv
        exact not_initTiles_of_lt hn hreserved (hdiv ▸ hmod) htiles
    | succ k =>
        rw [hk] at hdiv
        exact not_initTiles_of_rest hn hreserved hsize hmod hrest hdiv.symm htiles
  · rintro ⟨k, hk⟩
    cases k with
    | zero => exact absurd hk (Nat.ne_of_gt hn)
    | succ k => exact initTiles_of_mul hn hreserved hsize hk

end Region

/-- Pages that are all reserved, as `page_init` leaves them. -/
def reservedPages : FreeAreas where
  page := fun _ => ⟨0, 1#64, 0⟩
  link := ⟨id, id⟩
  nrFree := fun _ => 0

theorem reservedPages_reserved (p : Nat) : (reservedPages.page p).reserved = true := by
  change testBit pgReserved 1#64 = true
  decide

/-- Two blocks of the last order. -/
theorem initTiles_iff_two : InitTiles 0 2048 reservedPages :=
  (initTiles_iff (by decide) (fun p _ => reservedPages_reserved p) (by decide)).mpr (by decide)

/-- One page more than a block of the last order. -/
theorem not_initTiles : (∀ p ∈ Ico 0 1025, (reservedPages.page p).reserved = true) ∧
    ¬ InitTiles 0 1025 reservedPages := by
  have hreserved : ∀ p ∈ Ico 0 (0 + 1025), (reservedPages.page p).reserved = true :=
    fun p _ => reservedPages_reserved p
  refine ⟨fun p _ => reservedPages_reserved p, ?_⟩
  have hk : 1025 = 2 ^ (MAX_ORDER - 1) * (0 + 1) + 1 := by decide
  exact not_initTiles_of_rest (by decide) hreserved (by decide) (by decide) (by decide) hk

end Ucore.Pmm.Buddy
