import Ucore.Slob.Kmalloc
import Ucore.Slob.Integrity

/-!
# Small and large blocks

The units of the small blocks and of the entries of the large ones are blocks of the
SLOB allocator. The list `bigblocks` has the large blocks, whose pages lie outside of its
pages.
-/

namespace Ucore.Slob

open Machine Extent

variable {arena : Nat} {h : Kmem} {s t : KmallocState} {free live all : List Extent}
  {x y b : Extent}
  {pages : List Nat} {bigs rest : List Big} {E : Stop → Prop} {α : Type}

@[simp] theorem ends_onSlob {f : SlobM α} {Q : α → KmallocState → Prop} :
    Ends E (onSlob f) s Q ↔ Ends E f s.slob fun a slob => Q a { s with slob } := by
  unfold Ends onSlob
  cases f s.slob with
  | error e => rfl
  | ok r => rfl

@[simp] theorem ends_setBigOrder {bb order : Nat} {Q : PUnit → KmallocState → Prop} :
    Ends E (setBigOrder bb order) s Q ↔
      Q ⟨⟩ { s with slob := { s.slob with units := Function.update s.slob.units bb order } } :=
        Iff.rfl

@[simp] theorem ends_setBigPages {bb pages : Nat} {Q : PUnit → KmallocState → Prop} :
    Ends E (setBigPages bb pages) s Q ↔
      Q ⟨⟩ { s with slob := { s.slob with next := Function.update s.slob.next bb pages } } :=
        Iff.rfl

@[simp] theorem ends_setBigNext {bb next : Nat} {Q : PUnit → KmallocState → Prop} :
    Ends E (setBigNext bb next) s Q ↔
      Q ⟨⟩ { s with
        slob := { s.slob with units := Function.update s.slob.units (plus bb 1) next } } :=
        Iff.rfl

@[simp] theorem ends_setBigblocks {bb : Nat} {Q : PUnit → KmallocState → Prop} :
    Ends E (setBigblocks bb) s Q ↔ Q ⟨⟩ { s with bigblocks := bb } := Iff.rfl

@[simp] theorem ends_slobFreePages {kva order : Nat} {Q : PUnit → KmallocState → Prop} :
    Ends E (slobFreePages kva order) s Q ↔
      Q ⟨⟩ { s with runs := s.runs.filter (· ≠ ⟨kva, 2 ^ order⟩) } := Iff.rfl

/-! ## The invariant -/

/-- The list from `bb` on has the entries of `bigs`, in their order, each with the pages and the
order of its run. -/
def Listed (s : KmallocState) : Nat → List Big → Prop
  | bb, [] => bb = 0
  | bb, b :: rest => bb = b.bb ∧ 0 < b.bb ∧ bigPages s b.bb = b.pages ∧ bigOrder s b.bb = b.order ∧
      Listed s (bigNext s b.bb) rest

/-- The memory of the allocator between two calls: the free list, the blocks that were handed out
with their headers, and the runs of pages with their entries, all apart. -/
structure Held (arena : Nat) (h : Kmem) : Prop where
  free : ∃ free, Linked h.state.slob free ∧
    Layout arena h.state.slob.pages free (h.small ++ h.big.map Big.entry)
  header : ∀ x ∈ h.small, h.state.slob.units x.start = x.units
  listed : Listed h.state h.state.bigblocks h.big
  runs : h.state.runs = h.big.map Big.run
  apart : (h.big.map Big.run).Pairwise (Apart PAGE_SIZE)
  outside : ∀ x ∈ h.big.map Big.run, Outside arena h.state.slob.pages x

/-- The two units of an entry. -/
theorem mem_entry (b : Big) : Mem SLOB_UNIT b.bb b.entry ∧ Mem SLOB_UNIT (plus b.bb 1) b.entry := by
  have hunits : SLOB_UNITS BIGBLOCK_SIZE = 2 := by decide
  constructor
  · exact start_mem unit_pos (Nat.lt_of_lt_of_eq Nat.two_pos hunits.symm)
  · refine ⟨Nat.le_add_right .., ?_⟩
    change b.bb + SLOB_UNIT * 1 < b.bb + SLOB_UNIT * SLOB_UNITS BIGBLOCK_SIZE
    rw [hunits]
    exact Nat.add_lt_add_left (by decide) b.bb

theorem Listed.congr {bb : Nat} (h : Listed s bb bigs)
    (hsame : SameOn (bigs.map Big.entry) s.slob t.slob) :
    Listed t bb bigs := by
  induction bigs generalizing bb with
  | nil => exact h
  | cons b rest ih =>
      obtain ⟨hbb, hpos, hpages, horder, hrest⟩ := h
      obtain ⟨hmem, hmem'⟩ := mem_entry b
      have hfirst := hsame b.entry List.mem_cons_self b.bb hmem
      have hsecond := hsame b.entry List.mem_cons_self (plus b.bb 1) hmem'
      refine ⟨hbb, hpos, hfirst.2.trans hpages, hfirst.1.trans horder, ?_⟩
      have hnext : bigNext t b.bb = bigNext s b.bb := hsecond.1
      rw [hnext]
      exact ih hrest (hsame.subset (List.subset_cons_self _ _))

/-- A run of pages and what the SLOB allocator has share nothing. -/
theorem Outside.not_mem (hout : Outside arena pages y) (hspread : Spread arena pages all)
    (hx : x ∈ all) {a : Nat} (ha : Mem SLOB_UNIT a x) : ¬ Mem PAGE_SIZE a y := by
  obtain ⟨_, _, harena, hpages⟩ := hout
  rintro ⟨hlow, hup⟩
  by_cases hne : x = arenaBlock arena
  · rw [hne] at ha
    obtain ⟨halow, haup⟩ := ha
    change arena ≤ a at halow
    change a < arena + SLOB_UNIT * 1 at haup
    omega
  · obtain ⟨page, hpage, hin⟩ := hspread.covered x hx hne a ha
    have hmem : Mem PAGE_SIZE a ⟨page, 1⟩ := by
      refine ⟨hin.1, ?_⟩
      change a < page + PAGE_SIZE * 1
      rw [Nat.mul_one]
      exact hin.2
    exact (hpages page hpage).not_mem hmem ⟨hlow, hup⟩

/-- Fresh pages may go to the SLOB allocator. -/
theorem FreshRun.fresh {page : Nat} (hfresh : FreshRun arena s ⟨page, 1⟩) :
    Fresh arena s.slob page := by
  obtain ⟨⟨halign, hpos, harena, hpages⟩, _⟩ := hfresh
  refine ⟨halign, hpos, ?_, harena⟩
  intro hmem
  have hstart := start_mem (w := PAGE_SIZE) (x := ⟨page, 1⟩) (by decide) Nat.one_pos
  exact (hpages page hmem).not_mem hstart hstart

theorem held_initial (units next : Nat → Nat) : Held arena (Kmem.initial arena units next) := by
  obtain ⟨free, hlinked, hlayout⟩ : Kept arena (initial arena units next) := kept_initial units next
  exact ⟨⟨free, hlinked, hlayout⟩, nofun, rfl, rfl, List.Pairwise.nil, nofun⟩

/-- What is written inside of one block changes neither the free list nor other blocks. -/
theorem Layout.written (hlayout : Layout arena pages free (b :: live)) {s t : SlobState}
    (hlinked : Linked s free) (hunits : ∀ a, ¬ Mem SLOB_UNIT a b → t.units a = s.units a)
    (hnext : ∀ a, ¬ Mem SLOB_UNIT a b → t.next a = s.next a) (hslobfree : t.slobfree = s.slobfree) :
    Linked t free ∧ SameOn live s t := by
  constructor
  · apply hlinked.congr _ _ hslobfree
    · exact fun x hx => hnext x.start (hlayout.start_not_mem hx List.mem_cons_self)
    · exact fun x hx => hunits x.start (hlayout.start_not_mem hx List.mem_cons_self)
  · intro x hx a ha
    have hnot := (hlayout.live_apart hx).symm.not_mem ha
    exact ⟨hunits a hnot, hnext a hnot⟩

section same

variable {slob : SlobState} (hheld : Held arena h)
  (hsame : SameOn (h.small ++ h.big.map Big.entry) h.state.slob slob)
include hheld hsame

/-- The SLOB allocator leaves the headers of the callers alone. -/
theorem Held.header_same : ∀ x ∈ h.small, slob.units x.start = x.units := by
  obtain ⟨free, _, hlayout⟩ := hheld.free
  intro x hx
  have hlive := List.mem_append_left (h.big.map Big.entry) hx
  exact (hsame x hlive x.start (start_mem unit_pos (hlayout.live_pos hlive))).1.trans
    (hheld.header x hx)

theorem Held.listed_same {t : KmallocState} (ht : t.slob = slob) :
    Listed t h.state.bigblocks h.big := by
  obtain rfl := ht
  exact hheld.listed.congr (hsame.subset (List.subset_append_right _ _))

theorem Held.of_same (hlinked : Linked slob free)
    (hlayout : Layout arena slob.pages free (h.small ++ h.big.map Big.entry))
    (hout : ∀ x ∈ h.big.map Big.run, Outside arena slob.pages x) :
    Held arena { h with state := { h.state with slob } } :=
  ⟨⟨free, hlinked, hlayout⟩, hheld.header_same hsame, hheld.listed_same hsame rfl, hheld.runs,
    hheld.apart, hout⟩

end same

/-! ## `kmalloc` -/

/-- The SLOB allocator has got at most one page more. -/
theorem Outside.grown (hout : Outside arena pages x) {answers : List (Option Nat)}
    {pages' : List Nat}
    (hpages : pages' = pages ∨ ∃ page ∈ answers.filterMap id, pages' = page :: pages)
    (hanswers : ∀ page ∈ answers.filterMap id, Apart PAGE_SIZE ⟨page, 1⟩ x) :
    Outside arena pages' x := by
  rcases hpages with rfl | ⟨page, hpage, rfl⟩
  · exact hout
  · obtain ⟨halign, hpos, harena, hapart⟩ := hout
    exact ⟨halign, hpos, harena, List.forall_mem_cons.mpr ⟨hanswers page hpage, hapart⟩⟩

/-- The size of the block that `kmalloc` returns. -/
def Sized (size block : Nat) (t : KmallocState) : Prop :=
  if size < PAGE_SIZE - SLOB_UNIT then
    SLOB_UNIT ≤ block ∧ t.slob.units (block - SLOB_UNIT) = SLOB_UNITS (size + SLOB_UNIT)
  else bigOrder t t.bigblocks = findOrder (intOfSize size)

section kmalloc

variable {fuel size : Nat} {answers : List (Option Nat)} {run : Option Nat}

/-- What `slob_alloc` does for `kmalloc`. -/
theorem Held.slobAlloc_spec (hheld : Held arena h)
    (hallowed : Allowed arena h (.kmalloc fuel size answers run))
    {n : Nat} (hlow : SLOB_UNIT < n ∨ 0 < n ∧ h.state.slob.next h.state.slob.slobfree ≠ arena)
    (hup : n + SLOB_UNIT < PAGE_SIZE ∨ E .assertion)
    (hfuel : 512 * (h.state.slob.pages.length + 2) < fuel ∨ E .runaway) :
    Ends E (slobAlloc fuel n answers) h.state.slob fun r t => ∃ free,
      Allocated arena n answers (h.small ++ h.big.map Big.entry) r h.state.slob t free ∧
        ∀ x ∈ h.big.map Big.run, Outside arena t.pages x := by
  obtain ⟨free, hlinked, hlayout⟩ := hheld.free
  by_cases hn : n + SLOB_UNIT < PAGE_SIZE
  · have hfresh : ∀ page ∈ answers.filterMap id, Fresh arena h.state.slob page := fun page hpage =>
      (hallowed.1 page hpage).fresh
    apply (Slob.slobAlloc_spec hlinked hlayout hlow hn hfresh hfuel).imp
    rintro r t ⟨free', halloc⟩
    refine ⟨free', halloc, ?_⟩
    intro x hx
    apply (hheld.outside x hx).grown halloc.pages
    intro page hpage
    exact ((hallowed.1 page hpage).2 x (hheld.runs ▸ hx)).symm
  · simp only [slobAlloc, ends_bind, ends_check_of (hup.resolve_left hn)]
    exact fun hcheck => absurd hcheck hn

/-- A small block. -/
theorem Held.kmalloc_small (hheld : Held arena h)
    (hallowed : Allowed arena h (.kmalloc fuel size answers run))
    (hspares : Spares arena h (.kmalloc fuel size answers run))
    (hsmall : size < PAGE_SIZE - SLOB_UNIT)
    (hup : size + SLOB_UNIT + SLOB_UNIT < PAGE_SIZE ∨ E .assertion)
    (hfuel : 512 * (h.state.slob.pages.length + 2) < fuel ∨ E .runaway) :
    Ends E (kmalloc fuel size answers run) h.state fun block t =>
      Held arena (h.give size block t) ∧ (block ≠ 0 → Sized size block t) := by
  have hlow : SLOB_UNIT < size + SLOB_UNIT ∨
      0 < size + SLOB_UNIT ∧ h.state.slob.next h.state.slob.slobfree ≠ arena := by
    rcases Nat.eq_zero_or_pos size with hzero | hpos
    · exact Or.inr ⟨Nat.lt_of_lt_of_le unit_pos (Nat.le_add_left ..), hspares hzero⟩
    · exact Or.inl (Nat.lt_add_of_pos_left hpos)
  simp only [kmalloc, if_pos hsmall, ends_bind, ends_onSlob]
  apply (hheld.slobAlloc_spec hallowed hlow hup hfuel).imp
  rintro r slob ⟨free, halloc, hout⟩
  cases r with
  | none =>
      exact ⟨hheld.of_same halloc.same halloc.linked halloc.layout hout, fun hne => absurd rfl hne⟩
  | some m =>
      have hblock : plus m 1 - SLOB_UNIT = m := Nat.add_sub_cancel m SLOB_UNIT
      have hne : plus m 1 ≠ 0 :=
        Nat.ne_of_gt (Nat.lt_of_lt_of_le unit_pos (Nat.le_add_left SLOB_UNIT m))
      have hunits := halloc.units m rfl
      refine ⟨?_, fun _ => ?_⟩
      · rw [Kmem.give, if_neg hne, if_pos hsmall, hblock]
        change Held arena ⟨_, ⟨m, slob.units m⟩ :: h.small, h.big⟩
        rw [hunits]
        refine ⟨⟨free, halloc.linked, halloc.layout⟩, ?_, hheld.listed_same halloc.same rfl,
          hheld.runs, hheld.apart, hout⟩
        exact List.forall_mem_cons.mpr ⟨hunits, hheld.header_same halloc.same⟩
      · rw [Sized, if_pos hsmall]
        exact ⟨Nat.le_add_left .., by rw [hblock]; exact hunits⟩

theorem plus_ne (bb : Nat) : bb ≠ plus bb 1 := Nat.ne_of_lt (Nat.lt_add_of_pos_right (by decide))

/-- An entry joins `bigblocks`, with a run of pages. -/
theorem Held.link_big (hheld : Held arena h) {slob : SlobState} {bb pages order : Nat}
    (hlinked : Linked slob free)
    (hlayout : Layout arena slob.pages free
      (⟨bb, SLOB_UNITS BIGBLOCK_SIZE⟩ :: (h.small ++ h.big.map Big.entry)))
    (hsame : SameOn (h.small ++ h.big.map Big.entry) h.state.slob slob)
    (hout : ∀ x ∈ h.big.map Big.run, Outside arena slob.pages x)
    (hrun : Outside arena slob.pages ⟨pages, 2 ^ order⟩)
    (hapart : ∀ y ∈ h.state.runs, Apart PAGE_SIZE y ⟨pages, 2 ^ order⟩) :
    Held arena {
      state := {
        slob := { slob with
          units := Function.update (Function.update slob.units bb order) (plus bb 1)
            h.state.bigblocks
          next := Function.update slob.next bb pages }
        bigblocks := bb
        runs := ⟨pages, 2 ^ order⟩ :: h.state.runs }
      small := h.small
      big := ⟨bb, pages, order⟩ :: h.big } := by
  obtain ⟨hmem, hmem'⟩ := mem_entry ⟨bb, pages, order⟩
  have hother : ∀ {a}, ¬ Mem SLOB_UNIT a ⟨bb, SLOB_UNITS BIGBLOCK_SIZE⟩ → a ≠ bb ∧ a ≠ plus bb 1 :=
    fun hnot =>
    ⟨fun heq => hnot (heq ▸ hmem), fun heq => hnot (heq ▸ hmem')⟩
  have hbb : 0 < bb :=
    hlayout.spread.start_pos (List.mem_append_right free List.mem_cons_self) hlayout.live_ne_arena
  have hwritten := hlayout.written hlinked
    (t := { slob with
      units := Function.update (Function.update slob.units bb order) (plus bb 1) h.state.bigblocks
      next := Function.update slob.next bb pages })
    (fun a hnot =>
      (Function.update_of_ne (hother hnot).2 ..).trans (Function.update_of_ne (hother hnot).1 ..))
    (fun a hnot => Function.update_of_ne (hother hnot).1 ..) rfl
  have hsame' := hsame.trans hwritten.2
  refine ⟨⟨free, hwritten.1, hlayout.perm List.perm_middle.symm⟩, hheld.header_same hsame', ?_,
    congrArg (List.cons _) hheld.runs, List.pairwise_cons.mpr ⟨?_, hheld.apart⟩,
      List.forall_mem_cons.mpr ⟨hrun, hout⟩⟩
  · refine ⟨rfl, hbb, Function.update_self .., ?_, ?_⟩
    · exact (Function.update_of_ne (plus_ne bb) ..).trans (Function.update_self ..)
    · change Listed _ (Function.update (Function.update slob.units bb order)
        (plus bb 1) h.state.bigblocks (plus bb 1)) h.big
      rw [Function.update_self]
      exact hheld.listed_same hsame' rfl
  · intro y hy
    exact (hapart y (hheld.runs ▸ hy)).symm

/-- A large block. -/
theorem Held.kmalloc_large (hheld : Held arena h)
    (hallowed : Allowed arena h (.kmalloc fuel size answers run))
    (hlarge : ¬ size < PAGE_SIZE - SLOB_UNIT)
    (hfuel : 512 * (h.state.slob.pages.length + 2) < fuel ∨ E .runaway) :
    Ends E (kmalloc fuel size answers run) h.state fun block t =>
      Held arena (h.give size block t) ∧ (block ≠ 0 → Sized size block t) := by
  have hunits : SLOB_UNITS BIGBLOCK_SIZE = 2 := by decide
  simp only [kmalloc, if_neg hlarge, ends_bind, ends_onSlob]
  apply (hheld.slobAlloc_spec hallowed (Or.inl (by decide)) (Or.inl (by decide)) hfuel).imp
  rintro r slob ⟨free, halloc, hout⟩
  cases r with
  | none =>
      exact ⟨hheld.of_same halloc.same halloc.linked halloc.layout hout, fun hne => absurd rfl hne⟩
  | some bb =>
      have hlayout : Layout arena slob.pages free
          (⟨bb, SLOB_UNITS BIGBLOCK_SIZE⟩ :: (h.small ++ h.big.map Big.entry)) :=
        halloc.layout
      obtain ⟨hmem, hmem'⟩ := mem_entry ⟨bb, 0, 0⟩
      have hother : ∀ {a}, ¬ Mem SLOB_UNIT a ⟨bb, SLOB_UNITS BIGBLOCK_SIZE⟩ → a ≠ bb ∧
          a ≠ plus bb 1 := fun hnot =>
        ⟨fun heq => hnot (heq ▸ hmem), fun heq => hnot (heq ▸ hmem')⟩
      simp only [ends_bind, ends_setBigOrder, ends_get]
      cases run with
      | none =>
          -- the entry goes back
          simp only [slobGetFreePages, ends_pure, ends_setBigPages, ne_eq, not_true_eq_false,
            if_false, ends_bind, ends_onSlob]
          have hwritten := hlayout.written halloc.linked
            (t := { slob with
              units := Function.update slob.units bb (findOrder (intOfSize size))
              next := Function.update slob.next bb 0 })
            (fun a hnot => Function.update_of_ne (hother hnot).1 ..)
            (fun a hnot => Function.update_of_ne (hother hnot).1 ..) rfl
          have hlength := hlayout.length_le
          have hgrown : slob.pages.length ≤ h.state.slob.pages.length + 1 := by
            rcases halloc.pages with heq | ⟨page, _, heq⟩
            · rw [heq]
              exact Nat.le_succ _
            · rw [heq, List.length_cons]
          have hroom : free.length ≤ fuel ∨ E .runaway := hfuel.imp_left fun hlt => by omega
          apply (slobFree_spec hwritten.1 hlayout BIGBLOCK_SIZE rfl hroom).imp
          rintro _ t ⟨free', hfreed⟩
          have hpages : t.pages = slob.pages := hfreed.pages
          refine ⟨hheld.of_same ((halloc.same.trans hwritten.2).trans hfreed.same)
            hfreed.linked ?_ ?_, fun hne => hne.elim⟩
          · rw [hpages]
            exact hfreed.layout
          · rw [hpages]
            exact hout
      | some pages =>
          obtain ⟨⟨hfresh, hruns⟩, hanswers⟩ := hallowed.2 pages rfl
          have hpos : pages ≠ 0 := Nat.ne_of_gt hfresh.2.1
          simp only [slobGetFreePages, ends_bind, ends_modify, ends_pure, ends_setBigPages, ne_eq,
            hpos, not_false_eq_true, if_true, ends_get, ends_setBigNext, ends_setBigblocks]
          have horder : bigOrder { h.state with
              slob := { slob with
                units := Function.update slob.units bb (findOrder (intOfSize size)) } } bb =
                findOrder (intOfSize size) := Function.update_self ..
          have hsized : Function.update (Function.update slob.units bb (findOrder (intOfSize size)))
              (plus bb 1) h.state.bigblocks bb = findOrder (intOfSize size) := by
            rw [Function.update_of_ne (plus_ne bb), Function.update_self]
          refine ⟨?_, fun _ => ?_⟩
          · rw [Kmem.give, if_neg hpos, if_neg hlarge, horder]
            change Held arena ⟨_, h.small,
              ⟨bb, pages, Function.update (Function.update slob.units bb
              (findOrder (intOfSize size))) (plus bb 1) h.state.bigblocks bb⟩ :: h.big⟩
            rw [hsized]
            exact hheld.link_big halloc.linked hlayout halloc.same hout
              (hfresh.grown halloc.pages hanswers) hruns
          · rw [Sized, if_neg hlarge]
            exact hsized

end kmalloc

/-! ## `kfree` -/

theorem filter_out {β : Type} {front rest : List β} {b : β} {p : β → Bool} (hb : p b = false)
    (hother : ∀ c ∈ front ++ rest, p c = true) : (front ++ b :: rest).filter p = front ++ rest := by
  rw [List.filter_append, List.filter_cons_of_neg (by rw [hb]; exact Bool.false_ne_true),
    ← List.filter_append]
  exact List.filter_eq_self.mpr hother

section kfree

variable {fuel block bb : Nat} {last : Option Nat} {front : List Big} {b c : Big}

theorem findBig_none (hlisted : Listed s bb bigs) (hnone : ∀ b ∈ bigs, b.pages ≠ block)
    (hfuel : bigs.length < fuel ∨ E .runaway) :
    Ends E (findBig block fuel last bb) s fun r t => r = none ∧ t = s := by
  induction bigs generalizing fuel last bb with
  | nil =>
      cases fuel with
      | zero => exact hfuel.resolve_left (Nat.not_lt_zero _)
      | succ fuel =>
          obtain rfl : bb = 0 := hlisted
          exact ⟨rfl, rfl⟩
  | cons b rest ih =>
      obtain ⟨rfl, hpos, hpages, _, hrest⟩ := hlisted
      obtain ⟨hb, hnone⟩ := List.forall_mem_cons.mp hnone
      cases fuel with
      | zero => exact hfuel.resolve_left (Nat.not_lt_zero _)
      | succ fuel =>
          simp only [findBig, Nat.ne_of_gt hpos, if_false, ends_bind, ends_get, hpages, hb]
          exact ih hrest hnone (hfuel.imp_left Nat.lt_of_succ_lt_succ)

/-- The search stops at the first entry with the address. `last` points to the one before. -/
theorem findBig_some (hlisted : Listed s bb (front ++ b :: rest))
    (hfront : ∀ c ∈ front, c.pages ≠ b.pages) (hfuel : front.length < fuel ∨ E .runaway) :
    Ends E (findBig b.pages fuel last bb) s fun r t =>
      r = some ((front.getLast?.map Big.bb).or last, b.bb) ∧ t = s := by
  induction front generalizing fuel last bb with
  | nil =>
      obtain ⟨rfl, hpos, hpages, _, _⟩ := hlisted
      cases fuel with
      | zero => exact hfuel.resolve_left (Nat.not_lt_zero _)
      | succ fuel =>
          simp only [findBig, Nat.ne_of_gt hpos, if_false, ends_bind, ends_get, hpages, if_true]
          exact ⟨rfl, rfl⟩
  | cons c front ih =>
      obtain ⟨rfl, hpos, hpages, _, hrest⟩ := hlisted
      obtain ⟨hc, hfront⟩ := List.forall_mem_cons.mp hfront
      cases fuel with
      | zero => exact hfuel.resolve_left (Nat.not_lt_zero _)
      | succ fuel =>
          simp only [findBig, Nat.ne_of_gt hpos, if_false, ends_bind, ends_get, hpages, hc]
          apply (@ih _ _ (some c.bb) hrest hfront (hfuel.imp_left Nat.lt_of_succ_lt_succ)).imp
          rintro r t ⟨rfl, rfl⟩
          refine ⟨?_, rfl⟩
          cases front with
          | nil => rfl
          | cons d front =>
              rw [List.getLast?_cons_cons]
              cases hlast : (d :: front).getLast? with
              | none => exact absurd (List.getLast?_eq_none_iff.mp hlast) (List.cons_ne_nil d front)
              | some e => rfl

theorem Listed.order (hlisted : Listed s bb bigs) (hb : b ∈ bigs) : bigOrder s b.bb = b.order := by
  induction bigs generalizing bb with
  | nil => cases hb
  | cons c rest ih =>
      obtain ⟨_, _, _, horder, hrest⟩ := hlisted
      rcases List.mem_cons.mp hb with rfl | hb
      · exact horder
      · exact ih hrest hb

/-- The field `next` of an entry lies in no other block. -/
theorem ne_next (hc : Apart SLOB_UNIT c.entry x) {a : Nat} (ha : Mem SLOB_UNIT a x) :
    a ≠ plus c.bb 1 := by
  rintro rfl
  exact hc.not_mem (mem_entry c).2 ha

/-- The entry `c` is made to point past the entry `b`. -/
theorem Listed.unlink (hlisted : Listed s bb (front ++ c :: b :: rest))
    (hapart : ((front ++ c :: b :: rest).map Big.entry).Pairwise (Apart SLOB_UNIT)) :
    Listed { s with
        slob := { s.slob with
          units := Function.update s.slob.units (plus c.bb 1) (bigNext s b.bb) } }
      bb (front ++ c :: rest) := by
  induction front generalizing bb with
  | nil =>
      obtain ⟨rfl, hpos, hpages, horder, hnext, hrest⟩ := hlisted
      obtain ⟨_, _, _, hrest⟩ := hrest
      refine ⟨rfl, hpos, hpages, (Function.update_of_ne (plus_ne c.bb) ..).trans horder, ?_⟩
      change Listed _ (Function.update s.slob.units (plus c.bb 1) (bigNext s b.bb)
        (plus c.bb 1)) rest
      rw [Function.update_self]
      apply hrest.congr
      intro x hx a ha
      have hc := (List.pairwise_cons.mp hapart).1 x (List.mem_cons_of_mem _ hx)
      exact ⟨Function.update_of_ne (ne_next hc ha) .., rfl⟩
  | cons d front ih =>
      obtain ⟨rfl, hpos, hpages, horder, hrest⟩ := hlisted
      obtain ⟨hd, hapart⟩ := List.pairwise_cons.mp hapart
      obtain ⟨hmemd, hmemd'⟩ := mem_entry d
      have hc : Apart SLOB_UNIT d.entry c.entry := hd c.entry (List.mem_map_of_mem (by simp))
      have hsame : ∀ a, Mem SLOB_UNIT a d.entry →
          Function.update s.slob.units (plus c.bb 1) (bigNext s b.bb) a = s.slob.units a :=
            fun a ha =>
        Function.update_of_ne (ne_next hc.symm ha) ..
      refine ⟨rfl, hpos, hpages, (hsame d.bb hmemd).trans horder, ?_⟩
      change Listed _ (Function.update s.slob.units (plus c.bb 1) (bigNext s b.bb) (plus d.bb 1))
        (front ++ c :: rest)
      rw [hsame (plus d.bb 1) hmemd']
      exact ih hrest hapart

/-- What `kfree` does before it gives the pages and the entry back. -/
theorem setLast_spec (hlisted : Listed s s.bigblocks (front ++ b :: rest))
    (hapart : ((front ++ b :: rest).map Big.entry).Pairwise (Apart SLOB_UNIT)) :
    Ends E (setLast ((front.getLast?.map Big.bb).or none) (bigNext s b.bb)) s fun _ t =>
      Listed t t.bigblocks (front ++ rest) ∧ bigOrder t b.bb = b.order ∧ t.runs = s.runs ∧
        t.slob.next = s.slob.next ∧ t.slob.slobfree = s.slob.slobfree ∧
          t.slob.pages = s.slob.pages ∧
        ∀ a, (∀ c ∈ front, ¬ Mem SLOB_UNIT a c.entry) → t.slob.units a = s.slob.units a := by
  obtain ⟨hmemb, _⟩ := mem_entry b
  cases front using List.reverseRecOn with
  | nil =>
      obtain ⟨hbb, _, _, horder, hrest⟩ := hlisted
      exact ⟨hrest.congr SameOn.refl, horder, rfl, rfl, rfl, rfl, fun _ _ => rfl⟩
  | append_singleton front c =>
      obtain ⟨hmemc, hmemc'⟩ := mem_entry c
      have hlast : ((front ++ [c]).getLast?.map Big.bb).or none = some c.bb := by simp
      rw [List.append_assoc, List.singleton_append] at hlisted hapart ⊢
      rw [hlast]
      have hc : Apart SLOB_UNIT c.entry b.entry := by
        rw [List.map_append, List.map_cons, List.map_cons] at hapart
        have htail := (List.pairwise_append.mp hapart).2.1
        exact (List.pairwise_cons.mp htail).1 b.entry List.mem_cons_self
      have hb : bigOrder s b.bb = b.order := hlisted.order (by simp)
      refine ⟨hlisted.unlink hapart, ?_, rfl, rfl, rfl, rfl, ?_⟩
      · exact (Function.update_of_ne (ne_next hc hmemb) ..).trans hb
      · intro a ha
        apply Function.update_of_ne
        rintro rfl
        exact ha c (by simp) hmemc'

/-- A large block has the address of no small one that has a byte. -/
theorem Held.pages_ne (hheld : Held arena h) (hx : x ∈ h.small) (hb : b ∈ h.big)
    (hunits : x.units ≠ 1) :
    b.pages ≠ plus x.start 1 := by
  obtain ⟨free, _, hlayout⟩ := hheld.free
  have hlive := List.mem_append_left (h.big.map Big.entry) hx
  have hpos := hlayout.live_pos hlive
  have hmem : Mem SLOB_UNIT (plus x.start 1) x := by
    refine ⟨Nat.le_add_right .., Nat.add_lt_add_left (Nat.mul_lt_mul_of_pos_left ?_ unit_pos) _⟩
    omega
  have hrun := List.mem_map_of_mem (f := Big.run) hb
  have hnot :=
    (hheld.outside b.run hrun).not_mem hlayout.spread (List.mem_append_right free hlive) hmem
  intro heq
  apply hnot
  rw [← heq]
  exact start_mem (by decide) (Nat.two_pow_pos b.order)

/-- Two large blocks have different addresses. -/
theorem Held.pages_apart (hheld : Held arena h) {c : Big} (hbig : h.big = front ++ b :: rest)
    (hc : c ∈ front ++ rest) : c.pages ≠ b.pages := by
  have hapart := hheld.apart
  rw [hbig] at hapart
  have hfirst : ((b :: (front ++ rest)).map Big.run).Pairwise (Apart PAGE_SIZE) :=
    ((List.perm_middle.map Big.run).pairwise_iff fun h => h.symm).mp hapart
  have hbc := (List.pairwise_cons.mp hfirst).1 c.run (List.mem_map_of_mem hc)
  intro heq
  have hmem : Mem PAGE_SIZE c.pages c.run := start_mem (by decide) (Nat.two_pow_pos c.order)
  have hmem' : Mem PAGE_SIZE b.pages b.run := start_mem (by decide) (Nat.two_pow_pos b.order)
  exact hbc.not_mem hmem' (heq ▸ hmem)

variable (hspares : Spares arena h (.kfree fuel block))
  (hfuel : 512 * (h.state.slob.pages.length + 2) + h.big.length < fuel ∨ E .runaway)
include hspares hfuel

/-- A small block. -/
theorem Held.kfree_small (hheld : Held arena h) (hx : x ∈ h.small)
    (hblock : plus x.start 1 = block) :
    Ends E (kfree fuel block) h.state fun _ t => Held arena (h.drop block t) := by
  have hne : block ≠ 0 := by
    rw [← hblock]
    exact Nat.ne_of_gt (Nat.lt_of_lt_of_le unit_pos (Nat.le_add_left SLOB_UNIT x.start))
  have hnone : ∀ b ∈ h.big, b.pages ≠ block := by
    intro b hb
    by_cases hone : x.units = 1
    · exact hspares x hx hblock hone b hb
    · exact hblock ▸ hheld.pages_ne hx hb hone
  have hstart : block - SLOB_UNIT = x.start := hblock ▸ Nat.add_sub_cancel x.start SLOB_UNIT
  have hsearch : Ends E (searchBig fuel block) h.state fun r t => r = none ∧ t = h.state := by
    rw [searchBig]
    split
    · simp only [ends_bind, ends_get]
      exact findBig_none hheld.listed hnone (hfuel.imp_left fun hlt => by omega)
    · exact ⟨rfl, rfl⟩
  simp only [kfree, if_neg hne, ends_bind]
  apply hsearch.imp
  rintro r t ⟨rfl, rfl⟩
  obtain ⟨free, hlinked, hlayout⟩ := hheld.free
  have hheader := hheld.header x hx
  obtain ⟨front, back, hsplit⟩ := List.append_of_mem hx
  have hperm : (h.small ++ h.big.map Big.entry).Perm
      (x :: (front ++ back ++ h.big.map Big.entry)) := by
    rw [hsplit, List.append_assoc, List.append_assoc]
    exact List.perm_middle
  have hlayout' := hlayout.perm hperm
  have hsmall : (h.small.filter fun y => plus y.start 1 ≠ block) = front ++ back := by
    have hother : ∀ y ∈ front ++ back, plus y.start 1 ≠ block := by
      intro y hy heq
      have hlive := List.mem_append_left (h.big.map Big.entry) hy
      have hstart : x.start = y.start := Nat.add_right_cancel (hblock.trans heq.symm)
      apply hlayout'.live_start_not_mem hlive
      rw [hstart]
      exact start_mem unit_pos (hlayout'.live_pos (List.mem_cons_of_mem x hlive))
    rw [hsplit]
    exact filter_out (by simpa using hblock) (by simpa using hother)
  have hbig : (h.big.filter fun b => b.pages ≠ block) = h.big :=
    List.filter_eq_self.mpr (by simpa using hnone)
  rw [hstart, ends_onSlob]
  have hroom : free.length ≤ fuel ∨ E .runaway := by
    have hlength := hlayout.length_le
    exact hfuel.imp_left fun hlt => by omega
  apply (slobFree_spec hlinked hlayout' 0 hheader hroom).imp
  rintro _ slob ⟨free', hfreed⟩
  have hpages : slob.pages = h.state.slob.pages := hfreed.pages
  rw [Kmem.drop, hsmall, hbig]
  refine ⟨⟨free', hfreed.linked, ?_⟩, ?_, ?_, hheld.runs, hheld.apart, ?_⟩
  · change Layout arena slob.pages free' _
    rw [hpages]
    exact hfreed.layout
  · intro y hy
    have hlive := List.mem_append_left (h.big.map Big.entry) hy
    have hpos := hlayout'.live_pos (List.mem_cons_of_mem x hlive)
    have hmem : y ∈ h.small := by
      rw [hsplit]
      exact List.perm_middle.mem_iff.mpr (List.mem_cons_of_mem x hy)
    exact (hfreed.same y hlive y.start (start_mem unit_pos hpos)).1.trans (hheld.header y hmem)
  · exact hheld.listed.congr (hfreed.same.subset (List.subset_append_right _ _))
  · change ∀ y ∈ _, Outside arena slob.pages y
    rw [hpages]
    exact hheld.outside

/-- A large block. -/
theorem Held.kfree_large (hheld : Held arena h) (hb : b ∈ h.big) (hblock : b.pages = block) :
    Ends E (kfree fuel block) h.state fun _ t => Held arena (h.drop block t) := by
  obtain ⟨free, hlinked, hlayout⟩ := hheld.free
  obtain ⟨halign, hpos, _⟩ := hheld.outside b.run (List.mem_map_of_mem hb)
  change b.pages % PAGE_SIZE = 0 at halign
  change 0 < b.pages at hpos
  obtain ⟨front, rest, hsplit⟩ := List.append_of_mem hb
  have hother : ∀ c ∈ front ++ rest, c.pages ≠ b.pages := fun c hc => hheld.pages_apart hsplit hc
  have hlisted := hheld.listed
  rw [hsplit] at hlisted
  have hentries : ((front ++ b :: rest).map Big.entry).Pairwise (Apart SLOB_UNIT) := by
    have hlive := (List.pairwise_append.mp hlayout.spread.apart).2.1
    exact hsplit ▸ (List.pairwise_append.mp hlive).2.1
  have hsmall : (h.small.filter fun x => plus x.start 1 ≠ block) = h.small := by
    apply List.filter_eq_self.mpr
    intro x hx
    apply decide_eq_true
    intro heq
    by_cases hone : x.units = 1
    · exact hspares x hx heq hone b hb hblock
    · exact hheld.pages_ne hx hb hone (hblock.trans heq.symm)
  have hbig : (h.big.filter fun c => c.pages ≠ block) = front ++ rest := by
    rw [hsplit, ← hblock]
    exact filter_out (by simp) (by simpa using hother)
  have hruns : (h.state.runs.filter (· ≠ ⟨block, 2 ^ b.order⟩)) = (front ++ rest).map Big.run := by
    rw [hheld.runs, List.filter_map, hsplit, ← hblock]
    refine congrArg (List.map Big.run) (filter_out (decide_eq_false (not_not_intro rfl)) ?_)
    intro c hc
    exact decide_eq_true fun heq => hother c hc (congrArg Extent.start heq)
  rw [← hblock]
  simp only [kfree, Nat.ne_of_gt hpos, if_false, ends_bind, searchBig, halign, if_true, ends_get]
  have hfound : front.length < fuel ∨ E .runaway := by
    rw [hsplit, List.length_append] at hfuel
    exact hfuel.imp_left fun hlt => by omega
  -- the entry of the run is found and taken out of the list, and is a small block itself
  apply (findBig_some hlisted (fun c hc => hother c (List.mem_append_left rest hc)) hfound).imp
  rintro r t ⟨rfl, rfl⟩
  simp only [ends_bind, ends_get, ends_slobFreePages, ends_onSlob]
  apply (setLast_spec hlisted hentries).imp
  rintro _ t ⟨hlisted', horder, hruns', hnext, hslobfree, hpages, hunits⟩
  have hperm : (h.small ++ h.big.map Big.entry).Perm
      (b.entry :: (h.small ++ (front ++ rest).map Big.entry)) := by
    rw [hsplit]
    exact ((List.perm_middle.map Big.entry).append_left h.small).trans List.perm_middle
  have hlayout' := hlayout.perm hperm
  have hoff : ∀ c ∈ front, c.entry ∈ h.small ++ h.big.map Big.entry := fun c hc =>
    List.mem_append_right _ (List.mem_map_of_mem (hsplit ▸ List.mem_append_left _ hc))
  have hlinked' : Linked t.slob free := by
    apply hlinked.congr _ _ hslobfree
    · exact fun x _ => congrFun hnext x.start
    · exact fun x hx => hunits x.start fun c hc => hlayout.start_not_mem hx (hoff c hc)
  have hroom : free.length ≤ fuel ∨ E .runaway := by
    have hlength := hlayout.length_le
    exact hfuel.imp_left fun hlt => by omega
  rw [← hpages] at hlayout'
  apply (slobFree_spec hlinked' hlayout' BIGBLOCK_SIZE rfl hroom).imp
  rintro _ slob ⟨free', hfreed⟩
  have hpages' : slob.pages = h.state.slob.pages := hfreed.pages.trans hpages
  rw [hblock, Kmem.drop, hsmall, hbig]
  refine ⟨⟨free', hfreed.linked, ?_⟩, ?_,
    hlisted'.congr (hfreed.same.subset (List.subset_append_right _ _)), ?_, ?_, ?_⟩
  · change Layout arena slob.pages free' _
    rw [hpages', ← hpages]
    exact hfreed.layout
  · intro x hx
    have hlive := List.mem_append_left (h.big.map Big.entry) hx
    have hmem := start_mem unit_pos (hlayout.live_pos hlive)
    have hsame := (hfreed.same x (List.mem_append_left _ hx) x.start hmem).1
    have hkept : t.slob.units x.start = h.state.slob.units x.start := by
      apply hunits
      intro c hc
      have hlive' := (List.pairwise_append.mp hlayout.spread.apart).2.1
      have hcross := (List.pairwise_append.mp hlive').2.2 x hx c.entry
      exact (hcross (List.mem_map_of_mem (hsplit ▸ List.mem_append_left _ hc))).not_mem hmem
    exact (hsame.trans hkept).trans (hheld.header x hx)
  · change t.runs.filter _ = _
    rw [hruns', horder]
    exact hruns
  · have hapart := hheld.apart
    rw [hsplit] at hapart
    exact hapart.sublist ((List.sublist_cons_self b rest).append_left front |>.map Big.run)
  · change ∀ x ∈ (front ++ rest).map Big.run, Outside arena slob.pages x
    rw [hpages']
    intro x hx
    apply hheld.outside x
    rw [hsplit]
    exact ((List.sublist_cons_self b rest).append_left front |>.map Big.run).subset hx

/-- `kfree` of a block that a caller has, or of NULL. -/
theorem Held.kfree_held (hheld : Held arena h) (hallowed : Allowed arena h (.kfree fuel block)) :
    Ends E (kfree fuel block) h.state fun _ t => Held arena (h.drop block t) := by
  rcases hallowed with rfl | ⟨x, hx, hblock⟩ | ⟨b, hb, hblock⟩
  · -- nobody has a block at the address 0
    have hsmall : (h.small.filter fun x => plus x.start 1 ≠ 0) = h.small := by
      apply List.filter_eq_self.mpr
      intro x _
      exact decide_eq_true
        (Nat.ne_of_gt (Nat.lt_of_lt_of_le unit_pos (Nat.le_add_left SLOB_UNIT x.start)))
    have hbig : (h.big.filter fun b => b.pages ≠ 0) = h.big := by
      apply List.filter_eq_self.mpr
      intro b hb
      exact decide_eq_true (Nat.ne_of_gt (hheld.outside b.run (List.mem_map_of_mem hb)).2.1)
    simp only [kfree, if_true, ends_pure, Kmem.drop]
    rw [hsmall, hbig]
    exact hheld
  · exact hheld.kfree_small hspares hfuel hx hblock
  · exact hheld.kfree_large hspares hfuel hb hblock

end kfree

/-! ## Runs -/

/-- A caller writes to its own memory. -/
theorem Held.of_write (hheld : Held arena h) {addr units next : Nat}
    (hallowed : Allowed arena h (.write addr units next)) {h' : Kmem}
    (hstep : h.step (.write addr units next) = some h') : Held arena h' := by
  obtain ⟨free, hlinked, hlayout⟩ := hheld.free
  have hlive := (List.pairwise_append.mp hlayout.spread.apart).2.1
  obtain rfl := Option.some.inj hstep
  -- neither a free block, nor a header, nor an entry is there
  have hout : (∀ x ∈ free, x.start ≠ addr) ∧ (∀ x ∈ h.small, x.start ≠ addr) ∧
      ∀ x ∈ h.big.map Big.entry, ¬ Mem SLOB_UNIT addr x := by
    rcases hallowed with ⟨x, hx, k, hk, hpos, rfl⟩ | ⟨b, hb, hmem⟩
    · have hmem : Mem SLOB_UNIT (plus x.start k) x :=
        ⟨Nat.le_add_right .., Nat.add_lt_add_left (Nat.mul_lt_mul_of_pos_left hk unit_pos) _⟩
      have hx' := List.mem_append_left (h.big.map Big.entry) hx
      refine ⟨?_, ?_, ?_⟩
      · intro y hy heq
        exact hlayout.start_not_mem hy hx' (heq ▸ hmem)
      · intro y hy heq
        have hypos := hlayout.live_pos (List.mem_append_left (h.big.map Big.entry) hy)
        by_cases hyx : y = x
        · rw [hyx] at heq
          exact absurd heq (Nat.ne_of_lt (Nat.lt_add_of_pos_right (Nat.mul_pos unit_pos hpos)))
        · have hsmall := (List.pairwise_append.mp hlive).1
          have : Std.Symm (Apart SLOB_UNIT) := ⟨fun _ _ h => h.symm⟩
          have hapart := hsmall.forall hy hx hyx
          exact hapart.not_mem (start_mem unit_pos hypos) (heq ▸ hmem)
      · intro y hy
        exact ((List.pairwise_append.mp hlive).2.2 x hx y hy).not_mem hmem
    · have hrun := hheld.outside b.run (List.mem_map_of_mem hb)
      have hnot : ∀ x ∈ free ++ (h.small ++ h.big.map Big.entry), ¬ Mem SLOB_UNIT addr x :=
        fun x hx ha =>
        hrun.not_mem hlayout.spread hx ha hmem
      have hstart : ∀ x ∈ free ++ (h.small ++ h.big.map Big.entry), x.start ≠ addr :=
        fun x hx heq =>
        hnot x hx (heq ▸ start_mem unit_pos (hlayout.spread.pos x hx))
      refine ⟨?_, ?_, ?_⟩
      · exact fun x hx => hstart x (List.mem_append_left _ hx)
      · exact fun x hx => hstart x (List.mem_append_right _ (List.mem_append_left _ hx))
      · exact fun x hx => hnot x (List.mem_append_right _ (List.mem_append_right _ hx))
  obtain ⟨hfree, hsmall, hbig⟩ := hout
  have hentry : ∀ a, (∃ x ∈ h.big.map Big.entry, Mem SLOB_UNIT a x) → a ≠ addr := by
    rintro a ⟨x, hx, ha⟩ rfl
    exact hbig x hx ha
  refine ⟨⟨free, hlinked.congr ?_ ?_ rfl, hlayout⟩, ?_, ?_, hheld.runs, hheld.apart, hheld.outside⟩
  · exact fun x hx => Function.update_of_ne (hfree x hx) ..
  · exact fun x hx => Function.update_of_ne (hfree x hx) ..
  · exact fun x hx => (Function.update_of_ne (hsmall x hx) ..).trans (hheld.header x hx)
  · apply hheld.listed.congr
    apply SameOn.of_headers
    · intro a ha
      exact Function.update_of_ne (hentry a ha) ..
    · intro a ha
      exact Function.update_of_ne (hentry a ha) ..

/-- `kmalloc`, small or large. -/
theorem Held.kmalloc_held (hheld : Held arena h) {fuel size : Nat} {answers : List (Option Nat)}
    {run : Option Nat} (hallowed : Allowed arena h (.kmalloc fuel size answers run))
    (hspares : Spares arena h (.kmalloc fuel size answers run))
    (hup : ¬ (PAGE_SIZE ≤ size + SLOB_UNIT + SLOB_UNIT ∧ size + SLOB_UNIT < PAGE_SIZE) ∨
      E .assertion)
    (hfuel : 512 * (h.state.slob.pages.length + 2) < fuel ∨ E .runaway) :
    Ends E (kmalloc fuel size answers run) h.state fun block t =>
      Held arena (h.give size block t) ∧ (block ≠ 0 → Sized size block t) := by
  by_cases hsmall : size < PAGE_SIZE - SLOB_UNIT
  · apply hheld.kmalloc_small hallowed hspares hsmall _ hfuel
    apply hup.imp_left
    intro hnot
    unfold PAGE_SIZE SLOB_UNIT at *
    omega
  · exact hheld.kmalloc_large hallowed hsmall hfuel

theorem Held.of_step (hheld : Held arena h) {c : Call} (hallowed : Allowed arena h c)
    (hspares : Spares arena h c) {h' : Kmem} (hstep : h.step c = some h') : Held arena h' := by
  cases c with
  | kmalloc fuel size answers run =>
      have hends := hheld.kmalloc_held (E := fun _ => True) hallowed hspares (Or.inr trivial)
        (Or.inr trivial)
      cases hrun : kmalloc fuel size answers run h.state with
      | error e =>
          simp only [Kmem.step, hrun] at hstep
          cases hstep
      | ok result =>
          simp only [Kmem.step, hrun] at hstep
          obtain rfl := Option.some.inj hstep
          exact (hends.post hrun).1
  | kfree fuel block =>
      have hends := hheld.kfree_held (E := fun _ => True) hspares (Or.inr trivial) hallowed
      cases hrun : kfree fuel block h.state with
      | error e =>
          simp only [Kmem.step, hrun] at hstep
          cases hstep
      | ok result =>
          simp only [Kmem.step, hrun] at hstep
          obtain rfl := Option.some.inj hstep
          exact hends.post hrun
  | write addr units next => exact hheld.of_write hallowed hstep

/-- Every state that calls within the rules reach. -/
theorem held_of_run {units next : Nat → Nat}
    (hrun : RunsTo Kmem.step (fun h c => Allowed arena h c ∧ Spares arena h c)
      (Kmem.initial arena units next) h) :
    Held arena h :=
  hrun.invariant (held_initial units next) fun _ _ _ hheld hok hstep =>
    hheld.of_step hok.1 hok.2 hstep

end Ucore.Slob
