import Ucore.Slob.KmallocSpec

/-!
# What kmalloc promises

A block has room for what was asked for, except where `find_order` loses the low bits of
the size. Calls return, except those for a size close to that of a page; only a block of
no bytes can be the arena.
-/

namespace Ucore.Slob

open Machine Extent

variable {arena : Nat} {h : Kmem} {s t : KmallocState} {fuel size block : Nat}
  {answers : List (Option Nat)}
  {run : Option Nat}

/-! ## `find_order` -/

/-- The loop ends as soon as the size, halved `k` times, is at most that of a page. -/
theorem findOrderLoop_spec (order size : Nat) : ∃ k, findOrderLoop order size = order + k ∧
    size < 4097 * 2 ^ k ∧ (0 < k → 4097 * 2 ^ (k - 1) ≤ size) := by
  induction size using Nat.strong_induction_on generalizing order with
  | _ size ih =>
      rw [findOrderLoop]
      by_cases hsize : (4096 : Int) < size
      · obtain ⟨k, hloop, hlt, hge⟩ := ih (size / 2) (by omega) (order + 1)
        have hhalf : (size : Int) >>> (1 : Nat) = ((size / 2 : Nat) : Int) := by
          rw [Int.shiftRight_eq_div_pow]
          omega
        rw [if_pos hsize, hhalf, hloop]
        refine ⟨k + 1, by omega, by omega, fun _ => ?_⟩
        rw [Nat.add_sub_cancel]
        rcases Nat.eq_zero_or_pos k with rfl | hk
        · omega
        · obtain ⟨j, rfl⟩ := Nat.exists_eq_succ_of_ne_zero (Nat.ne_of_gt hk)
          have hge := hge hk
          rw [Nat.succ_sub_one] at hge
          rw [Nat.pow_succ]
          omega
      · rw [if_neg hsize]
        exact ⟨0, rfl, by omega, fun hpos => absurd hpos (Nat.lt_irrefl 0)⟩

/-- The sizes that get enough pages. `find_order` halves the size and rounds down, so it stops too
early just above a power of two of pages. -/
def Enough (size : Nat) : Prop :=
  size < 2 ^ 31 ∧ ∀ order, ¬ (PAGE_SIZE * 2 ^ order < size ∧ size < (PAGE_SIZE + 1) * 2 ^ order)

theorem findOrder_enough (hlarge : PAGE_SIZE ≤ size + SLOB_UNIT) :
    size ≤ PAGE_SIZE * 2 ^ findOrder (intOfSize size) ↔ Enough size := by
  have hpage : PAGE_SIZE = 4096 := rfl
  unfold SLOB_UNIT at hlarge
  by_cases hint : size < 2 ^ 31
  · have hsize : intOfSize size = size := by
      rw [intOfSize, BitVec.toInt_ofNat']
      exact Int.bmod_eq_of_le (by omega) (by omega)
    obtain ⟨k, hloop, hlt, hge⟩ := findOrderLoop_spec 0 size
    rw [hsize, findOrder, hloop, Nat.zero_add, Enough, hpage]
    constructor
    · intro hle
      refine ⟨hint, fun order ⟨hlow, hup⟩ => ?_⟩
      rcases Nat.lt_or_ge order k with horder | horder
      · have hpow : 2 ^ order ≤ 2 ^ (k - 1) := Nat.pow_le_pow_right Nat.two_pos (by omega)
        have hge := hge (Nat.zero_lt_of_lt horder)
        omega
      · have hpow : 2 ^ k ≤ 2 ^ order := Nat.pow_le_pow_right Nat.two_pos horder
        omega
    · intro ⟨_, hnot⟩
      have hnot := hnot k
      omega
  · -- the order is that of an `int`, which is below `2 ^ 31`
    have hnot : ¬ Enough size := fun henough => hint henough.1
    refine iff_of_false ?_ hnot
    by_cases hsmall : intOfSize size ≤ 4096
    · rw [findOrder, findOrderLoop, if_neg (Int.not_lt.mpr hsmall), hpage]
      omega
    · obtain ⟨n, hn⟩ := Int.eq_ofNat_of_zero_le (by omega : 0 ≤ intOfSize size)
      have hbound : intOfSize size < 2 ^ 31 := BitVec.toInt_lt
      have hbig : 2 ^ 32 ≤ size := by
        by_contra hlt
        rw [intOfSize, BitVec.toInt_ofNat', Int.bmod_def] at hsmall
        split at hsmall
        · omega
        · omega
      obtain ⟨k, hloop, _, hge⟩ := findOrderLoop_spec 0 n
      rw [hn, findOrder, hloop, Nat.zero_add, hpage]
      have hk : k ≤ 19 := by
        by_contra hk
        have hpow : 2 ^ 19 ≤ 2 ^ (k - 1) := Nat.pow_le_pow_right Nat.two_pos (by omega)
        have hge := hge (by omega)
        omega
      have hpow : 2 ^ k ≤ 2 ^ 19 := Nat.pow_le_pow_right Nat.two_pos hk
      omega

/-! ## Room -/

/-- The memory of a block that `kmalloc` has returned: the units behind the header, or
the pages. -/
def Usable (size block : Nat) (t : KmallocState) (a : Nat) : Prop :=
  if size < PAGE_SIZE - SLOB_UNIT then Mem SLOB_UNIT a ⟨block, t.slob.units (block - SLOB_UNIT) - 1⟩
  else ⟨block, 2 ^ bigOrder t t.bigblocks⟩ ∈ t.runs ∧
    Mem PAGE_SIZE a ⟨block, 2 ^ bigOrder t t.bigblocks⟩

/-- The memory of the blocks that callers have. -/
def Owned (h : Kmem) (a : Nat) : Prop :=
  (∃ x ∈ h.small, Mem SLOB_UNIT a x) ∨ ∃ b ∈ h.big, Mem SLOB_UNIT a b.entry ∨ Mem PAGE_SIZE a b.run

/-- The block has `size` bytes, which are nobody else's and not free: none is in a block that was
handed out before, or in a free unit. -/
def GivesRoom (h : Kmem) (size block : Nat) (t : KmallocState) : Prop :=
  ∃ free, Linked t.slob free ∧ ∀ a, block ≤ a → a < block + size →
    Usable size block t a ∧ ¬ Owned h a ∧ ∀ x ∈ free, ¬ Mem SLOB_UNIT a x

/-- A small block has a unit more than the header takes. -/
theorem Held.room_small (hheld : Held arena (h.give size block t)) (hsized : Sized size block t)
    (hne : block ≠ 0) (hsmall : size < PAGE_SIZE - SLOB_UNIT) : GivesRoom h size block t := by
  rw [Kmem.give, if_neg hne, if_pos hsmall] at hheld
  rw [Sized, if_pos hsmall] at hsized
  obtain ⟨hle, hunits⟩ := hsized
  obtain ⟨free, hlinked, hlayout⟩ := hheld.free
  refine ⟨free, hlinked, fun a hlow hup => ?_⟩
  have hstop : block + size ≤ block - SLOB_UNIT + SLOB_UNIT * t.slob.units (block - SLOB_UNIT) := by
    rw [hunits]
    unfold SLOB_UNITS SLOB_UNIT at *
    omega
  have hmem : Mem SLOB_UNIT a ⟨block - SLOB_UNIT, t.slob.units (block - SLOB_UNIT)⟩ :=
    ⟨Nat.le_trans (Nat.sub_le ..) hlow, Nat.lt_of_lt_of_le hup hstop⟩
  refine ⟨?_, ?_, ?_⟩
  · rw [Usable, if_pos hsmall]
    refine ⟨hlow, ?_⟩
    change a < block + SLOB_UNIT * (t.slob.units (block - SLOB_UNIT) - 1)
    rw [Nat.mul_sub, Nat.mul_one]
    omega
  · rintro (⟨x, hx, ha⟩ | ⟨b, hb, ha | ha⟩)
    · exact (hlayout.live_apart (List.mem_append_left _ hx)).not_mem hmem ha
    · exact (hlayout.live_apart (List.mem_append_right _ (List.mem_map_of_mem hb))).not_mem hmem ha
    · have hout := hheld.outside b.run (List.mem_map_of_mem hb)
      exact hout.not_mem hlayout.spread (List.mem_append_right free List.mem_cons_self) hmem ha
  · exact fun x hx ha => (hlayout.apart hx List.mem_cons_self).not_mem ha hmem

/-- The bytes of a large block are those of its pages. -/
theorem Held.room_large (hheld : Held arena (h.give size block t)) (hne : block ≠ 0)
    (hpos : 0 < size) (hlarge : ¬ size < PAGE_SIZE - SLOB_UNIT) :
    GivesRoom h size block t ↔ size ≤ PAGE_SIZE * 2 ^ bigOrder t t.bigblocks := by
  rw [Kmem.give, if_neg hne, if_neg hlarge] at hheld
  constructor
  · rintro ⟨_, _, hroom⟩
    obtain ⟨husable, _⟩ := hroom (block + size - 1) (by omega) (by omega)
    rw [Usable, if_neg hlarge] at husable
    have hup : block + size - 1 < block + PAGE_SIZE * 2 ^ bigOrder t t.bigblocks := husable.2.2
    omega
  · intro hle
    obtain ⟨free, hlinked, hlayout⟩ := hheld.free
    refine ⟨free, hlinked, fun a hlow hup => ?_⟩
    have hmem : Mem PAGE_SIZE a ⟨block, 2 ^ bigOrder t t.bigblocks⟩ :=
      ⟨hlow, Nat.lt_of_lt_of_le hup (Nat.add_le_add_left hle block)⟩
    have hruns : t.runs = ⟨block, 2 ^ bigOrder t t.bigblocks⟩ :: h.big.map Big.run := hheld.runs
    have hout := hheld.outside _ List.mem_cons_self
    obtain ⟨new, hnew⟩ : ∃ new, new = (⟨t.bigblocks, block, bigOrder t t.bigblocks⟩ : Big) :=
      ⟨_, rfl⟩
    have hnot : ∀ x ∈ free ++ (h.small ++ (new :: h.big).map Big.entry), ¬ Mem SLOB_UNIT a x :=
      fun x hx ha =>
      hout.not_mem hlayout.spread (hnew ▸ hx) ha hmem
    refine ⟨?_, ?_, fun x hx => hnot x (List.mem_append_left _ hx)⟩
    · rw [Usable, if_neg hlarge, hruns]
      exact ⟨List.mem_cons_self, hmem⟩
    · rintro (⟨x, hx, ha⟩ | ⟨b, hb, ha | ha⟩)
      · exact hnot x (List.mem_append_right _ (List.mem_append_left _ hx)) ha
      · have hentry : b.entry ∈ (new :: h.big).map Big.entry :=
          List.mem_map_of_mem (List.mem_cons_of_mem new hb)
        exact hnot b.entry (List.mem_append_right _ (List.mem_append_right _ hentry)) ha
      · exact ((List.pairwise_cons.mp hheld.apart).1 b.run (List.mem_map_of_mem hb)).not_mem hmem ha

/-- A block that `kmalloc` returns has the bytes asked for, for itself, exactly if the
size is small or the order has not lost any of it. -/
theorem kmalloc_gives_room {units next : Nat → Nat}
    (hrun : RunsTo Kmem.step (fun h c => Allowed arena h c ∧ Spares arena h c)
      (Kmem.initial arena units next) h)
    (hsize : 1 ≤ size) (hallowed : Allowed arena h (.kmalloc fuel size answers run))
    (hreturns : kmalloc fuel size answers run h.state = .ok (block, t)) (hblock : block ≠ 0) :
    GivesRoom h size block t ↔ size < PAGE_SIZE - SLOB_UNIT ∨ Enough size := by
  have hspares : Spares arena h (.kmalloc fuel size answers run) :=
    fun hzero => absurd hzero (by omega)
  have hends :=
    (held_of_run hrun).kmalloc_held (E := fun _ => True) hallowed hspares (Or.inr trivial)
    (Or.inr trivial)
  obtain ⟨hheld, hsized⟩ := hends.post hreturns
  have hsized := hsized hblock
  by_cases hsmall : size < PAGE_SIZE - SLOB_UNIT
  · exact iff_of_true (hheld.room_small hsized hblock hsmall) (Or.inl hsmall)
  · rw [Sized, if_neg hsmall] at hsized
    rw [hheld.room_large hblock hsize hsmall, hsized, or_iff_right hsmall]
    apply findOrder_enough
    unfold PAGE_SIZE SLOB_UNIT at *
    omega

/-- The allocator at the start, with the arena at 100. -/
def unused : Kmem := Kmem.initial 100 (fun _ => 0) fun _ => 0

/-- A page for the entry, and two behind it for the block. -/
theorem unused_allowed : Allowed 100 unused (.kmalloc fuel size [some 4096] (some 8192)) := by
  have hfresh : ∀ x : Extent, x.start % PAGE_SIZE = 0 → 100 + SLOB_UNIT < x.start →
      FreshRun 100 unused.state x := by
    intro x halign hlow
    refine ⟨⟨halign, Nat.zero_lt_of_lt hlow, Or.inr hlow, ?_⟩, ?_⟩
    · exact fun page hpage => absurd hpage List.not_mem_nil
    · exact fun y hy => absurd hy List.not_mem_nil
  constructor
  · intro page hpage
    obtain rfl : page = 4096 := by simpa using hpage
    exact hfresh _ (by decide) (by decide)
  · intro pages hpages
    obtain rfl : 8192 = pages := Option.some.inj hpages
    refine ⟨hfresh _ (by change 8192 % PAGE_SIZE = 0; decide)
      (by change 100 + SLOB_UNIT < 8192; decide), ?_⟩
    intro page hpage
    obtain rfl : page = 4096 := by simpa using hpage
    exact Or.inl (by change 4096 + PAGE_SIZE * 1 ≤ 8192; decide)

/-- Up to 8192 bytes fit in the two pages. -/
theorem kmalloc_gives_room_two_pages : ∃ t,
    kmalloc 20 8192 [some 4096] (some 8192) unused.state = .ok (8192, t) ∧
      (GivesRoom unused 8192 8192 t ↔ 8192 < PAGE_SIZE - SLOB_UNIT ∨ Enough 8192) := by
  have hresult : result (kmalloc 20 8192 [some 4096] (some 8192)) unused.state = some 8192 := by
    decide
  obtain ⟨t, hreturns⟩ := of_result hresult
  exact ⟨t, hreturns, kmalloc_gives_room .refl (by decide) unused_allowed hreturns (by decide)⟩

/-- Two pages are all that 8193 bytes get. -/
theorem kmalloc_loses_byte : Allowed 100 unused (.kmalloc 20 8193 [some 4096] (some 8192)) ∧
    ∃ t, kmalloc 20 8193 [some 4096] (some 8192) unused.state = .ok (8192, t) ∧
      ¬ GivesRoom unused 8193 8192 t := by
  refine ⟨unused_allowed, ?_⟩
  have hyields : yields (kmalloc 20 8193 [some 4096] (some 8192)) unused.state
      (fun block t => block == 8192 && bigOrder t t.bigblocks == 1) = true := by
    with_unfolding_all decide
  obtain ⟨block, t, hreturns, hvalues⟩ := (Ends.of_yields hyields).ok
  simp only [Bool.and_eq_true, beq_iff_eq] at hvalues
  obtain ⟨rfl, horder⟩ := hvalues
  refine ⟨t, hreturns, ?_⟩
  rintro ⟨free, _, hroom⟩
  obtain ⟨husable, _⟩ := hroom 16384 (by decide) (by decide)
  rw [Usable, if_neg (by decide), horder] at husable
  exact absurd husable.2.2 (by decide)

/-! ## Returning -/

/-- The sizes for which the header does not fit in what `slob_alloc` accepts: `__kmalloc` adds a
unit for it after its own check. -/
def NearPage (size : Nat) : Prop := PAGE_SIZE ≤ size + SLOB_UNIT + SLOB_UNIT ∧
    size + SLOB_UNIT < PAGE_SIZE

theorem kmalloc_assertion (hnear : NearPage size) :
    kmalloc fuel size answers run s = .error .assertion := by
  obtain ⟨hlow, hup⟩ := hnear
  have hsmall : size < PAGE_SIZE - SLOB_UNIT := by omega
  have hcheck : ¬ size + SLOB_UNIT + SLOB_UNIT < PAGE_SIZE := Nat.not_lt.mpr hlow
  have hslob : slobAlloc fuel (size + SLOB_UNIT) answers s.slob = .error .assertion := by
    rw [slobAlloc, check, if_neg hcheck]
    rfl
  have hon : onSlob (slobAlloc fuel (size + SLOB_UNIT) answers) s = .error .assertion := by
    rw [onSlob, hslob]
  rw [kmalloc, if_pos hsmall]
  change (onSlob (slobAlloc fuel (size + SLOB_UNIT) answers) s).bind _ = _
  rw [hon]
  rfl

/-- In every state that is reached, calls return, except those of `kmalloc` for a size close
to that of a page. -/
theorem kmalloc_kfree_return {units next : Nat → Nat}
    (hrun : RunsTo Kmem.step (fun h c => Allowed arena h c ∧ Spares arena h c)
      (Kmem.initial arena units next) h) :
    (∀ size answers run, Allowed arena h (.kmalloc 0 size answers run) →
      Spares arena h (.kmalloc 0 size answers run) →
      ((∃ n, ∀ fuel > n, (h.step (.kmalloc fuel size answers run)).isSome) ↔ ¬ NearPage size)) ∧
    ∀ block, Allowed arena h (.kfree 0 block) → Spares arena h (.kfree 0 block) →
      ∃ n, ∀ fuel > n, (h.step (.kfree fuel block)).isSome := by
  have hheld := held_of_run hrun
  constructor
  · intro size answers run hallowed hspares
    constructor
    · rintro ⟨n, hreturns⟩ hnear
      have hsome := hreturns (n + 1) (Nat.lt_succ_self n)
      simp only [Kmem.step, kmalloc_assertion hnear] at hsome
      cases hsome
    · intro hnear
      refine ⟨512 * (h.state.slob.pages.length + 2), fun fuel hfuel => ?_⟩
      have hallowed' : Allowed arena h (.kmalloc fuel size answers run) := hallowed
      have hends := hheld.kmalloc_held (E := never) hallowed' hspares (Or.inl hnear) (Or.inl hfuel)
      obtain ⟨block, t, hreturns, _⟩ := hends.ok
      simp only [Kmem.step, hreturns]
      rfl
  · intro block hallowed hspares
    refine ⟨512 * (h.state.slob.pages.length + 2) + h.big.length, fun fuel hfuel => ?_⟩
    have hspares' : Spares arena h (.kfree fuel block) := hspares
    have hends := hheld.kfree_held (E := never) hspares' (Or.inl hfuel) hallowed
    obtain ⟨_, t, hreturns, _⟩ := hends.ok
    simp only [Kmem.step, hreturns]
    rfl

theorem kmalloc_kfree_return_large :
    ∃ h, unused.step (.kmalloc 20 8193 [some 4096] (some 8192)) = some h ∧
    h.big = [⟨4096, 8192, 1⟩] ∧
    (∀ size answers run, Allowed 100 h (.kmalloc 0 size answers run) →
      Spares 100 h (.kmalloc 0 size answers run) →
      ((∃ n, ∀ fuel > n, (h.step (.kmalloc fuel size answers run)).isSome) ↔ ¬ NearPage size)) ∧
    ∀ block, Allowed 100 h (.kfree 0 block) → Spares 100 h (.kfree 0 block) →
      ∃ n, ∀ fuel > n, (h.step (.kfree fuel block)).isSome := by
  have hvalues : (unused.step (.kmalloc 20 8193 [some 4096] (some 8192))).map Kmem.big =
      some [⟨4096, 8192, 1⟩] := by
    with_unfolding_all decide
  obtain ⟨h, hstep, hbig⟩ := Option.map_eq_some_iff.mp hvalues
  have hallowed : Allowed 100 unused (.kmalloc 20 8193 [some 4096] (some 8192)) := unused_allowed
  have hspares : Spares 100 unused (.kmalloc 20 8193 [some 4096] (some 8192)) :=
    fun hzero => absurd hzero (by decide)
  exact ⟨h, hstep, hbig, kmalloc_kfree_return (RunsTo.refl.tail ⟨hallowed, hspares⟩ hstep)⟩

/-- The search for the place of a block that is the whole ring already does not end. -/
theorem findPoint_runaway {s : SlobState} {b : Nat} (hself : s.next b = b) :
    findPoint b fuel b s = .error .runaway := by
  induction fuel with
  | zero => rfl
  | succ fuel ih =>
      have hloop : findPoint b (fuel + 1) b s = findPoint b fuel (s.next b) s := by
        rw [findPoint, bind_ok (a := s) (t := s) rfl, hself]
        simp
      rw [hloop, hself]
      exact ih

/-- Freeing the arena while it is the whole ring. -/
theorem kfree_arena {arena : Nat} (hpos : 0 < arena) (hnext : s.slob.next arena = arena)
    (hslobfree : s.slob.slobfree = arena)
    (hpage : plus arena 1 % PAGE_SIZE ≠ 0) : kfree fuel (plus arena 1) s = .error .runaway := by
  have hne : plus arena 1 ≠ 0 :=
    Nat.ne_of_gt (Nat.lt_of_lt_of_le unit_pos (Nat.le_add_left SLOB_UNIT arena))
  have hback : plus arena 1 - SLOB_UNIT = arena := Nat.add_sub_cancel arena SLOB_UNIT
  have hsearch : searchBig fuel (plus arena 1) s = .ok (none, s) := by
    rw [searchBig, if_neg hpage]
    rfl
  have hfree : slobFree fuel arena 0 s.slob = .error .runaway := by
    rw [slobFree, if_neg (Nat.ne_of_gt hpos), if_neg (not_not_intro rfl)]
    change insertBlock fuel arena s.slob = _
    rw [insertBlock, bind_ok (a := s.slob) (t := s.slob) rfl]
    change (findPoint arena fuel s.slob.slobfree s.slob).bind _ = _
    rw [hslobfree, findPoint_runaway hnext]
    rfl
  rw [kfree, if_neg hne, bind_ok hsearch]
  change onSlob (slobFree fuel (plus arena 1 - SLOB_UNIT) 0) s = _
  rw [hback, onSlob, hfree]

/-- A size close to that of a page fails the assertion. A block of no bytes is the arena,
and to free it takes forever. -/
theorem kmalloc_kfree_stuck : (∀ fuel, unused.step (.kmalloc fuel 4064 [] none) = none) ∧
    ∃ h, unused.step (.kmalloc 1 0 [] none) = some h ∧ Allowed 100 h (.kfree 0 116) ∧
      ∀ fuel, h.step (.kfree fuel 116) = none := by
  constructor
  · intro fuel
    simp only [Kmem.step, @kmalloc_assertion unused.state fuel 4064 [] none ⟨by decide, by decide⟩]
  · have hvalues : (unused.step (.kmalloc 1 0 [] none)).map
        (fun h => (h.small, h.state.slob.next 100, h.state.slob.slobfree)) =
          some ([⟨100, 1⟩], 100, 100) := by
      decide
    obtain ⟨h, hstep, hfields⟩ := Option.map_eq_some_iff.mp hvalues
    simp only [Prod.mk.injEq] at hfields
    obtain ⟨hsmall, hnext, hslobfree⟩ := hfields
    refine ⟨h, hstep,
      Or.inr (Or.inl ⟨⟨100, 1⟩, by rw [hsmall]; exact List.mem_singleton_self _, rfl⟩), fun fuel =>
      ?_⟩
    have hkfree : kfree fuel 116 h.state = .error .runaway :=
      @kfree_arena _ _ 100 (by decide) hnext hslobfree (by decide)
    simp only [Kmem.step, hkfree]

end Ucore.Slob
