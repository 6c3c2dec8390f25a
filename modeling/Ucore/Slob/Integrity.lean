import Ucore.Foundation.Runs
import Ucore.Slob.Search

/-!
# Integrity of the heap

Over every run of allocations, frees and writes of the callers to their blocks, the free
list stays one ring in ascending order, no two blocks overlap, and no unit is lost. Hence
the loops of the allocator terminate.
-/

namespace Ucore.Slob

open Machine Extent

/-- The free list, read from the slot `slobfree` on, is `high` and then `low`. -/
structure Integrity (arena : Nat) (h : Heap) (low high : List Extent) : Prop where
  first : (high.map start).head? = some h.slob.slobfree
  ring : Cycle h.slob.next ((high ++ low).map start)
  sizes : ∀ x ∈ high ++ low, h.slob.units x.start = x.units
  pos : ∀ x ∈ low ++ high ++ h.live, 0 < x.units
  ascending : (low ++ high).Pairwise (Before SLOB_UNIT)
  apart : (low ++ high ++ h.live).Pairwise (Apart SLOB_UNIT)
  count : total (low ++ high) + total h.live =
    SLOB_UNITS PAGE_SIZE * h.slob.pages.length + total [arenaBlock arena]

/-- The invariant of the heap. -/
def Kept (arena : Nat) (h : Heap) : Prop :=
  ∃ free, Linked h.slob free ∧ Layout arena h.slob.pages free h.live

variable {arena : Nat} {h h' : Heap} {a : Action} {free : List Extent} {s t : SlobState}

theorem Linked.congr (hlinked : Linked s free) (hnext : ∀ x ∈ free, t.next x.start = s.next x.start)
    (hunits : ∀ x ∈ free, t.units x.start = s.units x.start) (hslobfree : t.slobfree = s.slobfree) :
    Linked t free where
  ring := hlinked.ring.congr (List.forall_mem_map.mpr hnext)
  sizes x hx := (hunits x hx).trans (hlinked.sizes x hx)
  slobfree := hslobfree ▸ hlinked.slobfree

theorem kept_initial (units next : Nat → Nat) : Kept arena (initial arena units next) := by
  refine ⟨[arenaBlock arena], ⟨?_, ?_, List.mem_singleton_self arena⟩,
    List.pairwise_singleton .., List.mem_singleton_self _, ?_⟩
  · refine ⟨List.isChain_singleton arena, ?_, List.nodup_singleton arena⟩
    intro x hx
    obtain rfl : x = arena := by simpa [arenaBlock, eq_comm] using hx
    exact congrArg some (Function.update_self x x next).symm
  · intro x hx
    rw [List.mem_singleton.mp hx]
    exact Function.update_self ..
  · refine ⟨?_, List.pairwise_singleton .., ?_, nofun, rfl⟩
    · intro x hx
      rw [List.mem_singleton.mp hx]
      exact Nat.one_pos
    · intro x hx hne
      exact absurd (List.mem_singleton.mp hx) hne

theorem Kept.of_write (hkept : Kept arena h) {addr units next : Nat}
    (hok : Permitted arena h (.write addr units next))
    (hstep : step h (.write addr units next) = some h') :
    Kept arena h' := by
  obtain ⟨free, hlinked, hlayout⟩ := hkept
  obtain ⟨x, hx, k, hk, rfl⟩ := hok
  obtain rfl := Option.some.inj hstep
  have hmem : Mem SLOB_UNIT (plus x.start k) x :=
    ⟨Nat.le_add_right .., Nat.add_lt_add_left (Nat.mul_lt_mul_of_pos_left hk unit_pos) _⟩
  have hne : ∀ y ∈ free, y.start ≠ plus x.start k := fun y hy heq =>
    hlayout.start_not_mem hy hx (heq ▸ hmem)
  refine ⟨free, hlinked.congr ?_ ?_ rfl, hlayout⟩
  · exact fun y hy => Function.update_of_ne (hne y hy) ..
  · exact fun y hy => Function.update_of_ne (hne y hy) ..

/-- `slob_alloc` returns, unless its loops take more rounds than they are given. -/
theorem Kept.alloc_ends (hkept : Kept arena h) {fuel size : Nat} {answers : List (Option Nat)}
    (hok : Permitted arena h (.alloc fuel size answers)) {E : Stop → Prop}
    (hfuel : 512 * (h.slob.pages.length + 2) < fuel ∨ E .runaway) :
    Ends E (slobAlloc fuel size answers) h.slob fun r t => Kept arena ⟨t, given size r h.live⟩ := by
  obtain ⟨free, hlinked, hlayout⟩ := hkept
  obtain ⟨hlow, hup, _, hfresh⟩ := hok
  apply (slobAlloc_spec hlinked hlayout (Or.inl hlow) hup hfresh hfuel).imp
  rintro r t ⟨free', hlinked', hlayout', _, _, _⟩
  exact ⟨free', hlinked', hlayout'⟩

theorem Kept.free_ends (hkept : Kept arena h) {fuel block size : Nat}
    (hok : Permitted arena h (.free fuel block size)) {E : Stop → Prop}
    (hfuel : 512 * (h.slob.pages.length + 2) < fuel ∨ E .runaway) :
    Ends E (slobFree fuel block size) h.slob fun _ t =>
      Kept arena ⟨t, h.live.filter fun x => x.start ≠ block⟩ := by
  obtain ⟨free, hlinked, hlayout⟩ := hkept
  obtain ⟨x, hx, rfl, hsize⟩ := hok
  have hlength := hlayout.length_le
  apply (slobFree_spec hlinked (hlayout.perm (hlayout.perm_filter hx)) size hsize
    (hfuel.imp_left fun hlt => by omega)).imp
  rintro _ t ⟨free', hlinked', hlayout', _, _, hpages⟩
  exact ⟨free', hlinked', hpages ▸ hlayout'⟩

theorem step_alloc {fuel size : Nat} {answers : List (Option Nat)} {E : Stop → Prop}
    {Q : Heap → Prop}
    (hends : Ends E (slobAlloc fuel size answers) h.slob fun r t => Q ⟨t, given size r h.live⟩) :
    (∃ h', step h (.alloc fuel size answers) = some h' ∧ Q h') ∨
      step h (.alloc fuel size answers) = none ∧ ∃ e, E e := by
  unfold Ends at hends
  cases hrun : slobAlloc fuel size answers h.slob with
  | error e =>
      rw [hrun] at hends
      exact Or.inr ⟨by simp only [step, hrun], e, hends⟩
  | ok result =>
      obtain ⟨r, t⟩ := result
      rw [hrun] at hends
      refine Or.inl ⟨_, ?_, hends⟩
      cases r with
      | none => simp only [step, hrun, given]
      | some b => simp only [step, hrun, given]

theorem step_free {fuel block size : Nat} {E : Stop → Prop} {Q : Heap → Prop}
    (hends : Ends E (slobFree fuel block size) h.slob fun _ t =>
      Q ⟨t, h.live.filter fun x => x.start ≠ block⟩) :
    (∃ h', step h (.free fuel block size) = some h' ∧ Q h') ∨
      step h (.free fuel block size) = none ∧ ∃ e, E e := by
  unfold Ends at hends
  cases hrun : slobFree fuel block size h.slob with
  | error e =>
      rw [hrun] at hends
      exact Or.inr ⟨by simp only [step, hrun], e, hends⟩
  | ok result =>
      rw [hrun] at hends
      exact Or.inl ⟨_, by simp only [step, hrun], hends⟩

theorem Kept.of_step (hkept : Kept arena h) (hok : Permitted arena h a)
    (hstep : step h a = some h') :
    Kept arena h' := by
  have hreached : ∀ {p : Prop}, ((∃ g, step h a = some g ∧ Kept arena g) ∨
      step h a = none ∧ p) → Kept arena h' := by
    rintro p (⟨g, hg, hkept⟩ | ⟨hnone, _⟩)
    · exact Option.some.inj (hstep.symm.trans hg) ▸ hkept
    · rw [hnone] at hstep
      cases hstep
  cases a with
  | alloc fuel size answers =>
      exact hreached (step_alloc (hkept.alloc_ends hok (E := fun _ => True) (Or.inr trivial)))
  | free fuel block size =>
      exact hreached (step_free (hkept.free_ends hok (E := fun _ => True) (Or.inr trivial)))
  | write addr units next => exact hkept.of_write hok hstep

/-- The invariant, with the free list read from `slobfree` on. -/
theorem Kept.integrity (hkept : Kept arena h) : ∃ low high, Integrity arena h low high := by
  obtain ⟨free, hlinked, hlayout⟩ := hkept
  obtain ⟨x, hx, hslobfree⟩ := List.mem_map.mp hlinked.slobfree
  obtain ⟨low, high, rfl⟩ := List.append_of_mem hx
  have hperm : (low ++ x :: high).Perm (x :: high ++ low) := List.perm_append_comm
  refine ⟨low, x :: high, congrArg some hslobfree, ?_, ?_, hlayout.spread.pos, hlayout.sorted,
    hlayout.spread.apart, ?_⟩
  · have hring := hlinked.ring
    rw [List.map_append] at hring ⊢
    exact hring.rotate
  · exact fun y hy => hlinked.sizes y (hperm.mem_iff.mpr hy)
  · rw [← total_append]
    exact hlayout.spread.count

/-- In every state reached the heap has integrity, and whatever is permitted next
terminates. -/
theorem slob_integrity (arena : Nat) (units next : Nat → Nat) (h : Heap)
    (hrun : RunsTo step (Permitted arena) (initial arena units next) h) :
    (∃ low high, Integrity arena h low high) ∧
      (∀ size answers, Permitted arena h (.alloc 0 size answers) →
        ∃ n, ∀ fuel > n, (step h (.alloc fuel size answers)).isSome) ∧
      ∀ block size, Permitted arena h (.free 0 block size) →
        ∃ n, ∀ fuel > n, (step h (.free fuel block size)).isSome := by
  have hkept : Kept arena h := hrun.invariant (kept_initial units next)
    fun _ _ _ hkept hok hstep => hkept.of_step hok hstep
  refine ⟨hkept.integrity, ?_, ?_⟩
  · intro size answers hok
    refine ⟨512 * (h.slob.pages.length + 2), fun fuel hfuel => ?_⟩
    have hends := @Kept.alloc_ends arena h hkept fuel size answers hok never (Or.inl hfuel)
    rcases step_alloc hends with ⟨g, hg, _⟩ | ⟨_, _, hnever⟩
    · exact hg ▸ rfl
    · exact hnever.elim
  · intro block size hok
    refine ⟨512 * (h.slob.pages.length + 2), fun fuel hfuel => ?_⟩
    have hends := @Kept.free_ends arena h hkept fuel block size hok never (Or.inl hfuel)
    rcases step_free hends with ⟨g, hg, _⟩ | ⟨_, _, hnever⟩
    · exact hg ▸ rfl
    · exact hnever.elim

/-- Two allocations split a page; a third one uses up what a freed block leaves; the last
block that is put back is merged on both sides. -/
def merging : List Action :=
  [.alloc 20 40 [some 4096], .alloc 20 100 [], .alloc 20 3900 [], .free 20 4096 40,
    .alloc 20 48 [none], .free 20 4096 0, .write 4144 0 0, .free 20 4144 100]

theorem slob_integrity_merging : ∃ h,
    RunsTo step (Permitted 100) (initial 100 (fun _ => 0) fun _ => 0) h ∧
      h.live = [⟨4256, 244⟩] ∧ h.slob.next 100 = 4096 ∧ h.slob.units 4096 = 10 ∧
      (∃ low high, Integrity 100 h low high) := by
  have hfold : (merging.foldlM (fun h a => if Permitted 100 h a then step h a else none)
      (initial 100 (fun _ => 0) fun _ => 0)).map (fun h =>
        (h.live, h.slob.next 100, h.slob.units 4096)) =
        some ([⟨4256, 244⟩], 4096, 10) := by
    decide +kernel
  obtain ⟨h, hrun, hvalues⟩ := Option.map_eq_some_iff.mp hfold
  simp only [Prod.mk.injEq] at hvalues
  have hruns := RunsTo.of_foldlM hrun
  exact ⟨h, hruns, hvalues.1, hvalues.2.1, hvalues.2.2, (slob_integrity 100 _ _ h hruns).1⟩

end Ucore.Slob
