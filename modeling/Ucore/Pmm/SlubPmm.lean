import Ucore.Pmm.DefaultPmm

/-!
# The SLUB manager

`kern/mm/slub_pmm.c`. Free blocks are kept in the order in which they came, the
latest first. A request that no block can serve is passed to `alloc_pages`, which
hands it back to the installed manager, that is to `slub_alloc_pages` itself.
-/

namespace Ucore.Pmm

open Finset

/-- `1 << SLUB_MAX_ORDER`. -/
def slubMaxPages : Nat := 1024

/-- Why a call has no result: a failed assertion, a list walk that does not come
back to the header, or calls nested deeper than allowed. -/
inductive SlubStop
  | assertion
  | endlessList
  | tooDeep
  deriving DecidableEq, Repr

/-- `slub_init`. -/
def slubInit (s : FreeArea) : FreeArea :=
  { s with link := s.link.listInit .freeList, nrFree := 0 }

/-- `slub_init_memmap`. -/
def slubInitMemmap (base n : Nat) (s : FreeArea) : Except SlubStop FreeArea :=
  if n = 0 then .error .assertion
  else
    match resetPages Page.reserved defaultReset base n s with
    | none => .error .assertion
    | some s =>
        let s := markFree base n s
        .ok { s with link := s.link.listAddBefore .freeList (.pageLink base) }

/-- What `slub_alloc_pages` does with the block it has found. The rest of the
block becomes the first of the list, wherever the block was. -/
def slubTake (page n : Nat) (s : FreeArea) : FreeArea :=
  let s := { s with link := s.link.listDel (.pageLink page) }
  let s := if n < (s.page page).property then splitRest page n .freeList s else s
  let s := s.setPage page (s.page page).clearHead
  { s with nrFree := uint (s.nrFree + (2 ^ 32 - n)) }

/-- `slub_alloc_pages`, over the function that `alloc_pages` dispatches to. -/
def slubAllocBody (allocPages : Nat → FreeArea → Except SlubStop (Option Nat × FreeArea)) (n : Nat)
    (s : FreeArea) : Except SlubStop (Option Nat × FreeArea) :=
  if n = 0 then .error .assertion
  else if slubMaxPages < n then .ok (none, s)
  else
    match firstFitLoop n (s.npage + 2) .freeList s with
    | none => .error .endlessList
    | some (some page) => .ok (some page, slubTake page n s)
    | some none =>
        match allocPages n s with
        | .error stop => .error stop
        | .ok (none, s) => .ok (none, s)
        | .ok (some page, s) =>
            match slubInitMemmap page n s with
            | .error stop => .error stop
            | .ok s => .ok (some page, { s with nrFree := uint (s.nrFree + (2 ^ 32 - n)) })

/-- `slub_alloc_pages` with `pmm_manager = &slub_pmm_manager`, for at most `depth`
nested calls. -/
def slubAllocPages : Nat → Nat → FreeArea → Except SlubStop (Option Nat × FreeArea)
  | 0 => fun _ _ => .error .tooDeep
  | depth + 1 => slubAllocBody (slubAllocPages depth)

/-- The first merge of `slub_free_pages`, with the entry before `base`. -/
def slubMergePrev (base n : Nat) (s : FreeArea) : Nat × FreeArea :=
  match s.link.prev (.pageLink base) with
  | .freeList => (base, s)
  | .pageLink p =>
      if p + (s.page p).property = base then
        let s := s.setPage p ((s.page p).setProperty (uint ((s.page p).property + n)))
        let s := s.setPage base (s.page base).clearHead
        (p, { s with link := s.link.listDel (.pageLink base) })
      else (base, s)

/-- The second merge, with the entry after `base`. It compares `base + n`, not
`base + base->property`. -/
def slubMergeNext (base n : Nat) (s : FreeArea) : FreeArea :=
  match s.link.next (.pageLink base) with
  | .freeList => s
  | .pageLink p => if base + n = p then absorb base p s else s

/-- `slub_free_pages`. -/
def slubFreePages (base n : Nat) (s : FreeArea) : Except SlubStop FreeArea :=
  if n = 0 then .error .assertion
  else if slubMaxPages < n then .ok s
  else
    let s := markFree base n s
    let s := { s with link := s.link.listAdd .freeList (.pageLink base) }
    let (base, s) := slubMergePrev base n s
    .ok (slubMergeNext base n s)

/-! ## The search and the nested calls -/

/-- The free list is linked both ways through `xs`, which are pages of the array. -/
structure SlubList (s : FreeArea) (xs : List Nat) : Prop where
  ring : s.link.Ring .freeList (xs.map .pageLink)
  below : ∀ x ∈ xs, x < s.npage

namespace SlubList

variable {s : FreeArea} {xs : List Nat}

theorem nodup (h : SlubList s xs) : xs.Nodup :=
  List.Nodup.of_map _ (List.nodup_cons.mp h.ring.nodup).2

theorem length_le (h : SlubList s xs) : xs.length ≤ s.npage := by
  have hsub : xs.toFinset ⊆ range s.npage := by
    intro x hx
    exact mem_range.mpr (h.below x (List.mem_toFinset.mp hx))
  have hcard := card_le_card hsub
  rwa [List.toFinset_card_of_nodup h.nodup, card_range] at hcard

/-- The search goes through the whole list. -/
theorem search (h : SlubList s xs) (n : Nat) :
    firstFitLoop n (s.npage + 2) .freeList s =
      some (xs.find? fun p => n ≤ (s.page p).property) := by
  have hlength := h.length_le
  exact @firstFitLoop_spec n [] xs s _ _ h.ring rfl (by omega)

/-- With no block large enough every nested call makes another one. -/
theorem allocPages_tooDeep (h : SlubList s xs) {n : Nat} (hn : 0 < n) (hmax : n ≤ slubMaxPages)
    (hsmall : ∀ x ∈ xs, (s.page x).property < n) (depth : Nat) :
    slubAllocPages depth n s = .error .tooDeep := by
  have hnone : (xs.find? fun p => n ≤ (s.page p).property) = none := by
    rw [List.find?_eq_none]
    intro x hx
    simpa using hsmall x hx
  induction depth with
  | zero => rfl
  | succ depth ih =>
      rw [slubAllocPages, slubAllocBody, if_neg (Nat.ne_of_gt hn), if_neg (Nat.not_lt.mpr hmax),
        h.search n, hnone]
      simp only [ih]

/-- With a block large enough the first of them serves the request at once. -/
theorem allocPages_found (h : SlubList s xs) {n page : Nat} (hn : 0 < n) (hmax : n ≤ slubMaxPages)
    (hfound : (xs.find? fun p => n ≤ (s.page p).property) = some page) (depth : Nat) :
    slubAllocPages (depth + 1) n s = .ok (some page, slubTake page n s) := by
  rw [slubAllocPages, slubAllocBody, if_neg (Nat.ne_of_gt hn), if_neg (Nat.not_lt.mpr hmax),
    h.search n, hfound]

/-- A request that is served is served from the list. -/
theorem allocPages_some (h : SlubList s xs) {depth n page : Nat} {t : FreeArea}
    (halloc : slubAllocPages depth n s = .ok (some page, t)) :
    0 < n ∧ n ≤ slubMaxPages ∧ (xs.find? fun p => n ≤ (s.page p).property) = some page ∧
      t = slubTake page n s := by
  cases depth with
  | zero => cases halloc
  | succ depth =>
      have hn : 0 < n := by
        rw [Nat.pos_iff_ne_zero]
        intro hzero
        rw [slubAllocPages, slubAllocBody, if_pos hzero] at halloc
        cases halloc
      have hmax : n ≤ slubMaxPages := by
        rw [← Nat.not_lt]
        intro hlt
        rw [slubAllocPages, slubAllocBody, if_neg (Nat.ne_of_gt hn), if_pos hlt] at halloc
        cases halloc
      refine ⟨hn, hmax, ?_⟩
      cases hfind : xs.find? fun p => n ≤ (s.page p).property with
      | none =>
          have hsmall : ∀ x ∈ xs, (s.page x).property < n := by
            intro x hx
            simpa using List.find?_eq_none.mp hfind x hx
          rw [h.allocPages_tooDeep hn hmax hsmall] at halloc
          cases halloc
      | some found =>
          rw [h.allocPages_found hn hmax hfind] at halloc
          cases halloc
          exact ⟨rfl, rfl⟩

end SlubList

/-- A call of `slub_alloc_pages(n)` returns, and returns the null pointer and
changes nothing when no listed block has `n` pages. -/
def SlubTerminates (n : Nat) (s : FreeArea) (xs : List Nat) : Prop :=
  ∃ depth r t, slubAllocPages depth n s = .ok (r, t) ∧
    ((∀ x ∈ xs, (s.page x).property < n) → r = none ∧ t = s)

/-- A request ends exactly when it is for too many pages or a block can serve it:
else `slub_alloc_pages` and `alloc_pages` call each other without end. -/
theorem slubAllocPages_terminates {s : FreeArea} {xs : List Nat} (h : SlubList s xs) {n : Nat}
    (hn : 0 < n) :
    SlubTerminates n s xs ↔ slubMaxPages < n ∨ ∃ x ∈ xs, n ≤ (s.page x).property := by
  constructor
  · rintro ⟨depth, r, t, hret, _⟩
    by_contra hnone
    push Not at hnone
    rw [h.allocPages_tooDeep hn hnone.1 hnone.2] at hret
    cases hret
  · intro hcond
    by_cases hmax : slubMaxPages < n
    · refine ⟨1, none, s, ?_, fun _ => ⟨rfl, rfl⟩⟩
      rw [slubAllocPages, slubAllocBody, if_neg (Nat.ne_of_gt hn), if_pos hmax]
    · obtain ⟨x, hx, hfit⟩ := hcond.resolve_left hmax
      cases hfound : xs.find? fun p => n ≤ (s.page p).property with
      | none => exact absurd hfit (by simpa using List.find?_eq_none.mp hfound x hx)
      | some page =>
          refine ⟨1, _, _, h.allocPages_found hn (Nat.not_lt.mp hmax) hfound 0, ?_⟩
          intro hsmall
          exact absurd hfit (Nat.not_le.mpr (hsmall x hx))

/-- The empty list of an array of four pages. -/
theorem slubList_empty : SlubList (slubInit (bootPages 4)) [] :=
  ⟨Links.listInit_ring _ _, by simp⟩

/-- One page is asked for while the free list is empty: the call never returns. -/
theorem slubAllocPages_endless :
    SlubList (slubInit (bootPages 4)) [] ∧
      ∀ depth, slubAllocPages depth 1 (slubInit (bootPages 4)) = .error .tooDeep :=
  ⟨slubList_empty, slubList_empty.allocPages_tooDeep Nat.one_pos (by decide) (by simp)⟩

/-! ## Freeing one block -/

/-- The free list after a block of `n` pages at `base` has come back. -/
def slubLink (base n : Nat) (xs : List Nat) : List Nat :=
  if xs.head? = some (base + n) then base :: xs.tail else base :: xs

/-- What `slub_free_pages` does: the block becomes the first of the list and takes
in the block that was first when that one begins where it ends. -/
structure SlubFreed (base n : Nat) (s t : FreeArea) (xs : List Nat) : Prop where
  ring : t.link.Ring .freeList ((slubLink base n xs).map .pageLink)
  property : (t.page base).property =
    if xs.head? = some (base + n) then uint (n + (s.page (base + n)).property) else n
  isHead : (t.page base).isHead = true
  count : t.nrFree = uint (s.nrFree + n)
  npage : t.npage = s.npage

theorem slubMaxPages_lt {n : Nat} (hmax : n ≤ slubMaxPages) : n < 2 ^ 32 :=
  Nat.lt_of_le_of_lt hmax (by decide)

/-- The block that comes back is put at the front, so that no block stands before it. -/
theorem slubMergePrev_front {s : FreeArea} {base n : Nat} {xs : List Nat}
    (hring : s.link.Ring .freeList ((base :: xs).map .pageLink)) :
    slubMergePrev base n s = (base, s) := by
  have hprev : s.link.prev (.pageLink base) = .freeList := by
    rw [List.map_cons] at hring
    exact hring.joined_first.2
  rw [slubMergePrev, hprev]

theorem slubFreePages_spec {s : FreeArea} {xs : List Nat} {base n : Nat}
    (hring : s.link.Ring .freeList (xs.map .pageLink)) (hbase : base ∉ xs) (hn : 0 < n)
    (hmax : n ≤ slubMaxPages) :
    ∃ t, slubFreePages base n s = .ok t ∧ SlubFreed base n s t xs := by
  have hsmall : uint n = n := uint_eq (slubMaxPages_lt hmax)
  set u : FreeArea :=
    { markFree base n s with link := s.link.listAdd .freeList (.pageLink base) } with hu
  have hfirst : u.link.Ring .freeList ((base :: xs).map .pageLink) := by
    have hsplit : s.link.Ring .freeList ([] ++ xs.map .pageLink) := hring
    exact hsplit.listAdd (pageLink_not_mem.mpr hbase)
  have hproperty : (u.page base).property = n := by
    simp [hu, markFree, hsmall]
  have hhead : (u.page base).isHead = true := by
    simp [hu, markFree]
  have hother : ∀ p, p ≠ base → u.page p = s.page p := by
    intro p hp
    simp [hu, markFree, hp]
  have hfree : slubFreePages base n s = .ok (slubMergeNext base n u) := by
    rw [slubFreePages, if_neg (Nat.ne_of_gt hn), if_neg (Nat.not_lt.mpr hmax)]
    change Except.ok (slubMergeNext (slubMergePrev base n u).1 n (slubMergePrev base n u).2) = _
    rw [slubMergePrev_front hfirst]
  refine ⟨_, hfree, ?_⟩
  cases xs with
  | nil =>
      have hnext : u.link.next (.pageLink base) = .freeList := by
        have hlast : u.link.Ring .freeList ([] ++ [.pageLink base]) := hfirst
        exact hlast.joined_last.1
      have hmerge : slubMergeNext base n u = u := by
        rw [slubMergeNext, hnext]
      rw [hmerge]
      exact ⟨hfirst, hproperty, hhead, rfl, rfl⟩
  | cons y ys =>
      have hnext : u.link.next (.pageLink base) = .pageLink y := by
        have hmem : u.link.Ring .freeList
          ([] ++ .pageLink base :: .pageLink y :: ys.map .pageLink) := hfirst
        exact hmem.joined_mem.1
      by_cases hadj : base + n = y
      · have hmerge : slubMergeNext base n u = absorb base y u := by
          rw [slubMergeNext, hnext]
          simp only [if_pos hadj]
        have hne : y ≠ base := fun heq => hbase (heq ▸ List.mem_cons_self)
        rw [hmerge]
        refine ⟨?_, ?_, ?_, rfl, rfl⟩
        · rw [slubLink, List.head?_cons, if_pos (congrArg some hadj.symm), List.tail_cons]
          have hsplit : u.link.Ring .freeList
            ([.pageLink base] ++ .pageLink y :: ys.map .pageLink) := hfirst
          exact hsplit.listDel
        · rw [List.head?_cons, if_pos (congrArg some hadj.symm), hadj]
          simp [absorb, hne.symm, hproperty, hother y hne]
        · simp [absorb, hne.symm, hhead]
      · have hmerge : slubMergeNext base n u = u := by
          rw [slubMergeNext, hnext]
          simp only [if_neg hadj]
        have hhead? : (y :: ys).head? ≠ some (base + n) := by
          simpa using Ne.symm hadj
        rw [hmerge]
        refine ⟨?_, ?_, hhead, rfl, rfl⟩
        · rw [slubLink, if_neg hhead?]
          exact hfirst
        · rw [if_neg hhead?]
          exact hproperty

/-! ## Chains of blocks -/

/-- Every block ends where the one before it begins, from `top` down to `bottom`. -/
def Descends : Nat → List (Nat × Nat) → Nat → Prop
  | top, [], bottom => top = bottom
  | top, (base, n) :: blocks, bottom => base + n = top ∧ Descends base blocks bottom

/-- The number of pages of some blocks. -/
def pageCount (blocks : List (Nat × Nat)) : Nat := (blocks.map Prod.snd).sum

@[simp] theorem pageCount_cons (block : Nat × Nat) (blocks : List (Nat × Nat)) :
    pageCount (block :: blocks) = block.2 + pageCount blocks := by
  simp [pageCount]

theorem Descends.top_eq {blocks : List (Nat × Nat)} {top bottom : Nat}
    (h : Descends top blocks bottom) : top = bottom + pageCount blocks := by
  induction blocks generalizing top with
  | nil => simpa [pageCount, Descends] using h
  | cons block blocks ih =>
      obtain ⟨hend, hrest⟩ := h
      rw [← hend, ih hrest, pageCount_cons]
      omega

/-- Every block of a chain ends below its top. -/
theorem Descends.end_le {blocks : List (Nat × Nat)} {top bottom : Nat}
    (h : Descends top blocks bottom) : ∀ block ∈ blocks, block.1 + block.2 ≤ top := by
  induction blocks generalizing top with
  | nil => simp
  | cons head blocks ih =>
      obtain ⟨hend, hrest⟩ := h
      intro block hblock
      rcases List.mem_cons.mp hblock with rfl | hblock
      · exact Nat.le_of_eq hend
      · have hbelow := ih hrest block hblock
        omega

/-- The same blocks make one chain only. -/
theorem Descends.unique {order blocks : List (Nat × Nat)} {top bottom bottom' : Nat}
    (horder : Descends top order bottom) (hblocks : Descends top blocks bottom')
    (hpos : ∀ block ∈ blocks, 0 < block.2) (hperm : order.Perm blocks) : order = blocks := by
  induction order generalizing top blocks with
  | nil => exact hperm.nil_eq
  | cons first order ih =>
      cases blocks with
      | nil => exact hperm.eq_nil
      | cons block blocks =>
          obtain ⟨hend, hrest⟩ := horder
          obtain ⟨hend', hrest'⟩ := hblocks
          have hmem : first ∈ block :: blocks := hperm.subset List.mem_cons_self
          have heq : first = block := by
            rcases List.mem_cons.mp hmem with heq | hlater
            · exact heq
            · have hbelow := hrest'.end_le first hlater
              have hlen := hpos block List.mem_cons_self
              omega
          subst heq
          rw [ih hrest hrest' (fun b hb => hpos b (List.mem_cons_of_mem _ hb)) hperm.cons_inv]

/-- The free list after the blocks have come back in this order. -/
def slubLinks : List (Nat × Nat) → List Nat → List Nat
  | [], xs => xs
  | (base, n) :: blocks, xs => slubLinks blocks (slubLink base n xs)

/-- No free makes the list shorter. -/
theorem slubLinks_length (order : List (Nat × Nat)) (xs : List Nat) :
    xs.length ≤ (slubLinks order xs).length := by
  induction order generalizing xs with
  | nil => exact Nat.le_refl _
  | cons block order ih =>
      refine Nat.le_trans ?_ (ih _)
      unfold slubLink
      split
      · cases xs with
        | nil => exact Nat.zero_le _
        | cons x xs => exact Nat.le_refl _
      · exact Nat.le_succ _

/-- One block remains of one block only when every block that came back ends where
the list began. -/
theorem descends_of_slubLinks {order : List (Nat × Nat)} {top bottom : Nat}
    (hlast : slubLinks order [top] = [bottom]) : Descends top order bottom := by
  induction order generalizing top with
  | nil =>
      have heq : [top] = [bottom] := hlast
      simpa [Descends] using heq
  | cons block order ih =>
      obtain ⟨base, n⟩ := block
      by_cases hadj : top = base + n
      · refine ⟨hadj.symm, ih ?_⟩
        rw [← hlast, slubLinks, slubLink, List.head?_cons, if_pos (congrArg some hadj),
          List.tail_cons]
      · have hlong := slubLinks_length order [base, top]
        have hone : slubLinks order [base, top] = [bottom] := by
          rw [← hlast, slubLinks, slubLink, List.head?_cons, if_neg (by simpa using hadj)]
        rw [hone] at hlong
        simp at hlong

/-! ## Allocations from a region, and their return -/

/-- `slub_init` and `slub_init_memmap` of the only region. -/
def slubStart (base total : Nat) (boot : FreeArea) : Except SlubStop FreeArea :=
  slubInitMemmap base total (slubInit boot)

/-- A sequence of successful allocations, with the blocks (first page, number of
pages) they returned, the latest first. -/
inductive SlubAllocs (s : FreeArea) : List (Nat × Nat) → FreeArea → Prop
  | none : SlubAllocs s [] s
  | alloc {blocks : List (Nat × Nat)} {t u : FreeArea} {depth n page : Nat}
      (before : SlubAllocs s blocks t) (served : slubAllocPages depth n t = .ok (some page, u)) :
      SlubAllocs s ((page, n) :: blocks) u

/-- The blocks are freed in this order. -/
def slubFreeAll : List (Nat × Nat) → FreeArea → Except SlubStop FreeArea
  | [], s => .ok s
  | (base, n) :: blocks, s =>
      match slubFreePages base n s with
      | .error stop => .error stop
      | .ok s => slubFreeAll blocks s

/-- The free pages are those from `top` to `stop`, in one block. -/
structure SlubTail (stop top : Nat) (s : FreeArea) : Prop where
  ring : s.link.Ring .freeList ((if top < stop then [top] else []).map .pageLink)
  property : top < stop → (s.page top).property = stop - top
  isHead : top < stop → (s.page top).isHead = true
  count : s.nrFree = stop - top
  bound : stop ≤ s.npage

namespace SlubTail

variable {s t : FreeArea} {stop top : Nat}

theorem slubList (h : SlubTail stop top s) : SlubList s (if top < stop then [top] else []) := by
  refine ⟨h.ring, fun x hx => ?_⟩
  have hbound := h.bound
  split at hx
  · next hlt =>
      obtain rfl := List.mem_singleton.mp hx
      omega
  · cases hx

theorem ring_of_lt (h : SlubTail stop top s) (hlt : top < stop) :
    s.link.Ring .freeList [.pageLink top] := by
  have hring := h.ring
  rwa [if_pos hlt] at hring

/-- The free block serves what it is large enough for. -/
theorem find (h : SlubTail stop top s) {n : Nat} (hn : 0 < n) :
    ((if top < stop then [top] else []).find? fun p => n ≤ (s.page p).property) =
      if top + n ≤ stop then some top else none := by
  by_cases hlt : top < stop
  · rw [if_pos hlt, List.find?_singleton, h.property hlt]
    simp only [decide_eq_true_eq]
    by_cases hfit : top + n ≤ stop
    · rw [if_pos hfit, if_pos (by omega)]
    · rw [if_neg hfit, if_neg (by omega)]
  · rw [if_neg hlt, if_neg (by omega), List.find?_nil]

theorem alloc_of_le (h : SlubTail stop top s) {n : Nat} (hn : 0 < n) (hmax : n ≤ slubMaxPages)
    (hfit : top + n ≤ stop) : slubAllocPages 1 n s = .ok (some top, slubTake top n s) := by
  apply h.slubList.allocPages_found hn hmax
  rw [h.find hn, if_pos hfit]

/-- The first pages of the only block are handed out. -/
theorem take (h : SlubTail stop top s) {n : Nat} (hn : 0 < n) (hmax : n ≤ slubMaxPages)
    (hfit : top + n ≤ stop) (hsmall : stop - top < 2 ^ 32) :
    SlubTail stop (top + n) (slubTake top n s) := by
  have hlt : top < stop := by omega
  have hproperty := h.property hlt
  have hn32 := slubMaxPages_lt hmax
  have hempty : (s.link.listDel (.pageLink top)).Ring .freeList [] := by
    have hsplit : s.link.Ring .freeList ([] ++ .pageLink top :: []) := h.ring_of_lt hlt
    exact hsplit.listDel
  have hcount : uint (s.nrFree + (2 ^ 32 - n)) = stop - (top + n) := by
    rw [h.count, uint]
    omega
  by_cases hwhole : top + n < stop
  · have hpart : n < (s.page top).property := by omega
    have hrest : uint ((s.page top).property - n) = stop - (top + n) := by
      rw [hproperty, uint_eq (by omega)]
      omega
    refine ⟨?_, fun _ => ?_, fun _ => ?_, ?_, ?_⟩
    · have hsplit : (s.link.listDel (.pageLink top)).Ring .freeList ([] ++ []) := hempty
      have hadd := hsplit.listAdd (e := .pageLink (top + n)) (by simp)
      rw [if_pos hwhole]
      simpa [slubTake, hpart, splitRest] using hadd
    · simp [slubTake, hpart, splitRest, Nat.ne_of_gt hn, hrest]
    · simp [slubTake, hpart, splitRest, Nat.ne_of_gt hn]
    · simpa [slubTake, hpart, splitRest] using hcount
    · simpa [slubTake, hpart, splitRest] using h.bound
  · have hall : ¬ n < (s.page top).property := by omega
    refine ⟨?_, fun hlt => absurd hlt hwhole, fun hlt => absurd hlt hwhole, ?_, ?_⟩
    · rw [if_neg hwhole]
      simpa [slubTake, hall] using hempty
    · simpa [slubTake, hall] using hcount
    · simpa [slubTake, hall] using h.bound

theorem alloc (h : SlubTail stop top s) (hsmall : stop - top < 2 ^ 32) {depth n page : Nat}
    (halloc : slubAllocPages depth n s = .ok (some page, t)) :
    page = top ∧ 0 < n ∧ n ≤ slubMaxPages ∧ top + n ≤ stop ∧ SlubTail stop (top + n) t := by
  obtain ⟨hn, hmax, hfound, rfl⟩ := h.slubList.allocPages_some halloc
  rw [h.find hn] at hfound
  by_cases hfit : top + n ≤ stop
  · rw [if_pos hfit] at hfound
    obtain rfl := Option.some.inj hfound
    exact ⟨rfl, hn, hmax, hfit, h.take hn hmax hfit hsmall⟩
  · rw [if_neg hfit] at hfound
    cases hfound

/-- The block right before the free pages comes back. -/
theorem free (h : SlubTail stop top s) {base n : Nat} (hend : base + n = top) (hn : 0 < n)
    (hmax : n ≤ slubMaxPages) (hstop : top ≤ stop) (hsmall : stop - base < 2 ^ 32) :
    ∃ t, slubFreePages base n s = .ok t ∧ SlubTail stop base t := by
  have hbase : base ∉ (if top < stop then [top] else []) := by
    intro hmem
    split at hmem
    · have heq := List.mem_singleton.mp hmem
      omega
    · cases hmem
  obtain ⟨t, hfree, hfreed⟩ := slubFreePages_spec h.ring hbase hn hmax
  have hlt : base < stop := by omega
  have hcount : t.nrFree = stop - base := by
    rw [hfreed.count, h.count, uint_eq (by omega)]
    omega
  have hbound : stop ≤ t.npage := hfreed.npage ▸ h.bound
  have hring := hfreed.ring
  have hproperty := hfreed.property
  refine ⟨t, hfree, ?_, fun _ => ?_, fun _ => hfreed.isHead, hcount, hbound⟩
  · rw [if_pos hlt]
    by_cases hmore : top < stop
    · rwa [if_pos hmore, slubLink, List.head?_cons, if_pos (congrArg some hend.symm),
        List.tail_cons]
        at hring
    · rwa [if_neg hmore] at hring
  · by_cases hmore : top < stop
    · rw [if_pos hmore, List.head?_cons, if_pos (congrArg some hend.symm), hend, h.property hmore,
        uint_eq (by omega)] at hproperty
      omega
    · rw [if_neg hmore] at hproperty
      have hn' : (t.page base).property = n := hproperty
      omega

end SlubTail

/-! ## The free list after all blocks have come back -/

/-- The free list is one block that covers the region of `total` pages at `base`, all
of it is counted, and a request for any number of its pages up to the maximum succeeds. -/
structure Rejoined (base total : Nat) (s : FreeArea) : Prop where
  ring : s.link.Ring .freeList [.pageLink base]
  whole : (s.page base).property = total
  isHead : (s.page base).isHead = true
  count : s.nrFree = total
  serves : ∀ n, 0 < n → n ≤ slubMaxPages → n ≤ total →
    ∃ page t, slubAllocPages 1 n s = .ok (some page, t)

theorem SlubTail.rejoined {base total : Nat} {s : FreeArea} (h : SlubTail (base + total) base s)
    (hpos : 0 < total) : Rejoined base total s := by
  have hlt : base < base + total := Nat.lt_add_of_pos_right hpos
  refine ⟨h.ring_of_lt hlt, ?_, h.isHead hlt, ?_, ?_⟩
  · rw [h.property hlt, Nat.add_sub_cancel_left]
  · rw [h.count, Nat.add_sub_cancel_left]
  · intro n hn hmax hfit
    exact ⟨_, _, h.alloc_of_le hn hmax (Nat.add_le_add_left hfit base)⟩

/-- The assertion on the pages of a region holds as `page_init` leaves them. -/
theorem slubStart_reset {base total : Nat} {boot : FreeArea} (hfresh : Fresh base total boot) :
    resetPages Page.reserved defaultReset base total (slubInit boot) =
      some { slubInit boot with page := resetRange defaultReset base total boot.page } := by
  rw [resetPages_eq, if_pos]
  · rfl
  · exact hfresh.reserved

theorem slubStart_ok {base total : Nat} {boot : FreeArea} (hfresh : Fresh base total boot)
    (hpos : 0 < total) : ∃ s, slubStart base total boot = .ok s := by
  rw [slubStart, slubInitMemmap, if_neg (Nat.ne_of_gt hpos), slubStart_reset hfresh]
  exact ⟨_, rfl⟩

theorem slubStart_tail {base total : Nat} {boot s : FreeArea} (hfresh : Fresh base total boot)
    (hpos : 0 < total) (hsmall : total < 2 ^ 32) (hstart : slubStart base total boot = .ok s) :
    SlubTail (base + total) base s := by
  rw [slubStart, slubInitMemmap, if_neg (Nat.ne_of_gt hpos), slubStart_reset hfresh] at hstart
  cases hstart
  have hlt : base < base + total := Nat.lt_add_of_pos_right hpos
  have huint : uint total = total := uint_eq hsmall
  refine ⟨?_, fun _ => ?_, fun _ => ?_, ?_, hfresh.bound⟩
  · rw [if_pos hlt]
    have hempty : (boot.link.listInit .freeList).Ring .freeList [] := Links.listInit_ring _ _
    have hadd := hempty.listAddBefore_header (e := .pageLink base) (by simp)
    simpa [markFree, slubInit] using hadd
  · simp [markFree, huint]
  · simp [markFree]
  · simp [markFree, slubInit, huint]

/-- A region of four pages serves a request for two and returns from one for 2000; one for five
pages never ends. -/
theorem slubAllocPages_terminates_region : ∃ s, slubStart 0 4 (bootPages 4) = .ok s ∧
    SlubTerminates 2 s [0] ∧ SlubTerminates 2000 s [0] ∧ ¬SlubTerminates 5 s [0] := by
  obtain ⟨s, hstart⟩ := slubStart_ok (bootPages_fresh 4) (by decide)
  have htail : SlubTail 4 0 s := slubStart_tail (bootPages_fresh 4) (by decide) (by decide) hstart
  have hlist : SlubList s [0] := htail.slubList
  have hproperty : (s.page 0).property = 4 := htail.property (by decide)
  refine ⟨s, hstart,
    (slubAllocPages_terminates hlist (by decide)).mpr (.inr ⟨0, by simp, by omega⟩),
    (slubAllocPages_terminates hlist (by decide)).mpr (.inl (by decide)), fun hends => ?_⟩
  rcases (slubAllocPages_terminates hlist (by decide)).mp hends with hmax | ⟨x, hx, hfit⟩
  · exact absurd hmax (by decide)
  · rw [List.mem_singleton.mp hx, hproperty] at hfit
    exact absurd hfit (by decide)

theorem uint_lt (n : Nat) : uint n < 2 ^ 32 := Nat.mod_lt n (by decide)

/-- Every call that returns leaves a value of the counter's type. -/
theorem slubAllocPages_counter {depth n : Nat} {s t : FreeArea} {r : Option Nat}
    (hs : s.nrFree < 2 ^ 32)
    (halloc : slubAllocPages depth n s = .ok (r, t)) : t.nrFree < 2 ^ 32 := by
  induction depth generalizing r t with
  | zero => cases halloc
  | succ depth ih =>
      rw [slubAllocPages, slubAllocBody] at halloc
      split at halloc
      · cases halloc
      split at halloc
      · cases halloc
        exact hs
      split at halloc
      · cases halloc
      · cases halloc
        exact uint_lt _
      · split at halloc
        · cases halloc
        · next hnested =>
            cases halloc
            exact ih hnested
        · split at halloc
          · cases halloc
          · cases halloc
            exact uint_lt _

theorem SlubAllocs.counter {s t : FreeArea} {blocks : List (Nat × Nat)} (h : SlubAllocs s blocks t)
    (hs : s.nrFree < 2 ^ 32) : t.nrFree < 2 ^ 32 := by
  induction h with
  | none => exact hs
  | alloc _ served ih => exact slubAllocPages_counter ih served

/-- The allocated blocks follow one another, and what is behind them is free. -/
theorem SlubAllocs.tail {s t : FreeArea} {base stop : Nat} {blocks : List (Nat × Nat)}
    (h : SlubAllocs s blocks t) (hs : SlubTail stop base s) (hle : base ≤ stop)
    (hsmall : stop - base < 2 ^ 32) :
    ∃ top, base ≤ top ∧ top ≤ stop ∧ Descends top blocks base ∧ SlubTail stop top t ∧
      ∀ block ∈ blocks, 0 < block.2 ∧ block.2 ≤ slubMaxPages := by
  induction h with
  | none => exact ⟨base, Nat.le_refl _, hle, rfl, hs, by simp⟩
  | alloc _ served ih =>
      obtain ⟨top, hbase, _, hchain, htail, hblocks⟩ := ih
      obtain ⟨rfl, hn, hmax, hfit, hnext⟩ := htail.alloc (by omega) served
      refine ⟨_, by omega, hfit, ⟨rfl, hchain⟩, hnext, ?_⟩
      rw [List.forall_mem_cons]
      exact ⟨⟨hn, hmax⟩, hblocks⟩

/-- Blocks that come back from the highest to the lowest rejoin. -/
theorem SlubTail.freeAll {s : FreeArea} {stop top bottom : Nat} {blocks : List (Nat × Nat)}
    (h : SlubTail stop top s) (hchain : Descends top blocks bottom) (hstop : top ≤ stop)
    (hsmall : stop - bottom < 2 ^ 32)
    (hblocks : ∀ block ∈ blocks, 0 < block.2 ∧ block.2 ≤ slubMaxPages) :
    ∃ t, slubFreeAll blocks s = .ok t ∧ SlubTail stop bottom t := by
  induction blocks generalizing s top with
  | nil =>
      have heq : top = bottom := hchain
      exact ⟨s, rfl, heq ▸ h⟩
  | cons block blocks ih =>
      obtain ⟨base, n⟩ := block
      obtain ⟨hend, hrest⟩ := hchain
      rw [List.forall_mem_cons] at hblocks
      have hbottom := hrest.top_eq
      obtain ⟨t, hfree, ht⟩ := h.free hend hblocks.1.1 hblocks.1.2 hstop (by omega)
      obtain ⟨u, hu, htail⟩ := ih ht hrest (by omega) hblocks.2
      exact ⟨u, by rw [slubFreeAll, hfree]; exact hu, htail⟩

/-- Blocks that come back in any order leave the list that `slubLinks` describes. -/
theorem slubFreeAll_ring {s : FreeArea} {xs : List Nat} {order : List (Nat × Nat)}
    (hring : s.link.Ring .freeList (xs.map .pageLink)) (hnodup : (order.map Prod.fst ++ xs).Nodup)
    (hblocks : ∀ block ∈ order, 0 < block.2 ∧ block.2 ≤ slubMaxPages) :
    ∃ t, slubFreeAll order s = .ok t ∧
      t.link.Ring .freeList ((slubLinks order xs).map .pageLink) := by
  induction order generalizing s xs with
  | nil => exact ⟨s, rfl, hring⟩
  | cons block order ih =>
      obtain ⟨base, n⟩ := block
      rw [List.forall_mem_cons] at hblocks
      rw [List.map_cons, List.cons_append, List.nodup_cons, List.mem_append, not_or] at hnodup
      obtain ⟨t, hfree, hfreed⟩ := slubFreePages_spec hring hnodup.1.2 hblocks.1.1 hblocks.1.2
      have hsub : (slubLink base n xs).Sublist (base :: xs) := by
        unfold slubLink
        split
        · exact (List.tail_sublist xs).cons_cons base
        · exact List.Sublist.refl _
      have hnext : (order.map Prod.fst ++ slubLink base n xs).Nodup := by
        have hall : (order.map Prod.fst ++ base :: xs).Nodup := by
          rw [List.nodup_middle, List.nodup_cons, List.mem_append, not_or]
          exact hnodup
        exact hall.sublist (hsub.append_left _)
      obtain ⟨u, hu, hlast⟩ := ih hfreed.ring hnext hblocks.2
      exact ⟨u, by rw [slubFreeAll, hfree]; exact hu, hlast⟩

theorem slubFreePages_counter {base n : Nat} {s t : FreeArea} (hs : s.nrFree < 2 ^ 32)
    (hfree : slubFreePages base n s = .ok t) : t.nrFree < 2 ^ 32 := by
  have hprev : ∀ s : FreeArea, (slubMergePrev base n s).2.nrFree = s.nrFree := by
    intro s
    unfold slubMergePrev
    split
    · rfl
    · split
      · rfl
      · rfl
  have hnext : ∀ base (s : FreeArea), (slubMergeNext base n s).nrFree = s.nrFree := by
    intro base s
    unfold slubMergeNext
    split
    · rfl
    · split
      · rfl
      · rfl
  rw [slubFreePages] at hfree
  split at hfree
  · cases hfree
  split at hfree
  · cases hfree
    exact hs
  · cases hfree
    rw [hnext]
    exact lt_of_eq_of_lt (hprev _) (uint_lt _)

theorem slubFreeAll_counter {order : List (Nat × Nat)} {s t : FreeArea} (hs : s.nrFree < 2 ^ 32)
    (hfree : slubFreeAll order s = .ok t) : t.nrFree < 2 ^ 32 := by
  induction order generalizing s with
  | nil =>
      cases hfree
      exact hs
  | cons block order ih =>
      rw [slubFreeAll] at hfree
      split at hfree
      · cases hfree
      · next hone => exact ih (slubFreePages_counter hs hone) hfree

/-- A chain of blocks has no page twice, and starts below its top. -/
theorem Descends.starts {blocks : List (Nat × Nat)} {top bottom : Nat}
    (h : Descends top blocks bottom) (hpos : ∀ block ∈ blocks, 0 < block.2) :
    (blocks.map Prod.fst).Nodup ∧ ∀ base ∈ blocks.map Prod.fst, base < top := by
  induction blocks generalizing top with
  | nil => simp
  | cons block blocks ih =>
      obtain ⟨hend, hrest⟩ := h
      rw [List.forall_mem_cons] at hpos
      obtain ⟨hnodup, hbelow⟩ := ih hrest hpos.2
      rw [List.map_cons, List.nodup_cons, List.forall_mem_cons]
      refine ⟨⟨fun hmem => Nat.lt_irrefl _ (hbelow _ hmem), hnodup⟩, ?_, fun base hbase => ?_⟩
      · omega
      · have hlt := hbelow base hbase
        omega

/-- One block remains of the blocks of a chain, whatever was free behind it, only
when they come back from the highest to the lowest. -/
theorem order_of_slubLinks {base top stop : Nat} {blocks order : List (Nat × Nat)}
    (hchain : Descends top blocks base) (hpos : ∀ block ∈ blocks, 0 < block.2)
    (hperm : order.Perm blocks)
    (hlast : slubLinks order (if top < stop then [top] else []) = [base]) : order = blocks := by
  have horder : Descends top order base := by
    split at hlast
    · exact descends_of_slubLinks hlast
    · -- nothing was free, so that the first block to come back starts the list
      cases order with
      | nil => cases hlast
      | cons first order =>
          have hrest : Descends first.1 order base := descends_of_slubLinks hlast
          have htop : top = base + pageCount (first :: order) := by
            rw [hchain.top_eq, pageCount, pageCount, (hperm.map Prod.snd).sum_eq]
          refine ⟨?_, hrest⟩
          rw [htop, pageCount_cons, hrest.top_eq]
          omega
  exact horder.unique hchain hpos hperm

/-- After some allocations from one region the return of all blocks rejoins the region
exactly when the last block allocated comes back first, and so on down to the first. -/
theorem slub_rejoins {base total : Nat} {boot s t : FreeArea} {blocks order : List (Nat × Nat)}
    (hfresh : Fresh base total boot) (hpos : 0 < total) (hstart : slubStart base total boot = .ok s)
    (hallocs : SlubAllocs s blocks t) (hperm : order.Perm blocks) :
    (∃ u, slubFreeAll order t = .ok u ∧ Rejoined base total u) ↔
      total < 2 ^ 32 ∧ order = blocks := by
  constructor
  · rintro ⟨u, hfree, hrejoined⟩
    have hsmall : total < 2 ^ 32 := by
      have hs : s.nrFree < 2 ^ 32 := by
        rw [slubStart, slubInitMemmap, if_neg (Nat.ne_of_gt hpos)] at hstart
        split at hstart
        · cases hstart
        · cases hstart
          exact uint_lt _
      rw [← hrejoined.count]
      exact slubFreeAll_counter (hallocs.counter hs) hfree
    refine ⟨hsmall, ?_⟩
    obtain ⟨top, hbase, hstop, hchain, htail, hblocks⟩ :=
      hallocs.tail (slubStart_tail hfresh hpos hsmall hstart) (Nat.le_add_right base total)
      (by omega)
    have hlens : ∀ block ∈ blocks, 0 < block.2 := fun block hblock => (hblocks block hblock).1
    obtain ⟨hnodup, hbelow⟩ := hchain.starts hlens
    have hdistinct : (order.map Prod.fst ++ if top < base + total then [top] else []).Nodup := by
      rw [((hperm.map Prod.fst).append_right _).nodup_iff]
      apply List.Nodup.append hnodup
      · split <;> simp
      · intro p hp hfree
        split at hfree
        · obtain rfl := List.mem_singleton.mp hfree
          exact Nat.lt_irrefl _ (hbelow _ hp)
        · cases hfree
    obtain ⟨v, hv, hring⟩ := slubFreeAll_ring htail.ring hdistinct
      fun block hblock => hblocks block (hperm.subset hblock)
    obtain rfl : u = v := Except.ok.inj (hfree.symm.trans hv)
    have hone := hring.visits_next.unique hrejoined.ring.visits_next
    have hlast : slubLinks order (if top < base + total then [top] else []) = [base] := by
      rw [List.map_eq_singleton_iff] at hone
      obtain ⟨p, hlist, hp⟩ := hone
      rw [hlist, Entry.pageLink.inj hp]
    exact order_of_slubLinks hchain hlens hperm hlast
  · rintro ⟨hsmall, rfl⟩
    obtain ⟨top, hbase, hstop, hchain, htail, hblocks⟩ :=
      hallocs.tail (slubStart_tail hfresh hpos hsmall hstart) (Nat.le_add_right base total)
      (by omega)
    obtain ⟨u, hu, hwhole⟩ := htail.freeAll hchain hstop (by omega) hblocks
    exact ⟨u, hu, hwhole.rejoined hpos⟩

/-- Two pages of a region of four are allocated one by one. -/
theorem slubAllocs_two : ∃ s t, slubStart 0 4 (bootPages 4) = .ok s ∧
    SlubAllocs s [(1, 1), (0, 1)] t ∧ SlubTail 4 2 t := by
  obtain ⟨s, hs⟩ := slubStart_ok (bootPages_fresh 4) (by decide)
  have hwhole : SlubTail 4 0 s := slubStart_tail (bootPages_fresh 4) (by decide) (by decide) hs
  have hfirst := hwhole.alloc_of_le Nat.one_pos (by decide) (by decide)
  have htail := hwhole.take Nat.one_pos (by decide) (by decide) (by decide)
  have hsecond := htail.alloc_of_le Nat.one_pos (by decide) (by decide)
  refine ⟨s, _, hs, .alloc (.alloc .none hfirst) hsecond, ?_⟩
  exact htail.take Nat.one_pos (by decide) (by decide) (by decide)

/-- The two pages come back in either order. -/
theorem slub_rejoins_two : ∃ t,
    ((∃ u, slubFreeAll [(1, 1), (0, 1)] t = .ok u ∧ Rejoined 0 4 u) ↔
      4 < 2 ^ 32 ∧ [(1, 1), (0, 1)] = [(1, 1), (0, 1)]) ∧
    ((∃ u, slubFreeAll [(0, 1), (1, 1)] t = .ok u ∧ Rejoined 0 4 u) ↔
      4 < 2 ^ 32 ∧ [(0, 1), (1, 1)] = [(1, 1), (0, 1)]) := by
  obtain ⟨s, t, hs, hallocs, _⟩ := slubAllocs_two
  exact ⟨t, slub_rejoins (bootPages_fresh 4) (by decide) hs hallocs (List.Perm.refl _),
    slub_rejoins (bootPages_fresh 4) (by decide) hs hallocs (List.Perm.swap _ _ [])⟩

/-- The page allocated first comes back first: the list keeps three blocks. -/
theorem slub_fragmented : ∃ s t u, slubStart 0 4 (bootPages 4) = .ok s ∧
    SlubAllocs s [(1, 1), (0, 1)] t ∧ slubFreeAll [(0, 1), (1, 1)] t = .ok u ∧
    ¬ Rejoined 0 4 u := by
  obtain ⟨s, t, hs, hallocs, htail⟩ := slubAllocs_two
  obtain ⟨u, hu, hring⟩ :=
    @slubFreeAll_ring t _ [(0, 1), (1, 1)] htail.ring (by decide) (by decide)
  refine ⟨s, t, u, hs, hallocs, hu, fun hrejoined => ?_⟩
  have hone := hring.visits_next.unique hrejoined.ring.visits_next
  exact absurd hone (by decide)

end Ucore.Pmm
