import Mathlib.Data.Finset.Card
import Mathlib.Data.Finset.Max
import Ucore.Mm.Vma

/-!
# Enough memory

`Plenty al n s`: the next requests for up to `n` page frames are met, and so is
every `kmalloc`. Each operation that allocates says how many frames it uses up.
-/

namespace Ucore.Mm

open Machine Finset

variable {E : Panic → Prop} {s t : Kern} {al : Allocator} {m n : Nat}

/-- A manager that has no reason to refuse: as long as frames are free it hands
one out, and `kmalloc` never fails. -/
structure Allocator.Generous (al : Allocator) : Prop where
  heap : ∀ tick, al.heap tick = true
  choose : ∀ tick (free : Finset Nat), free.Nonempty → (al.choose tick free).isSome

/-- Hands out the lowest frame that is free. -/
def Allocator.lowest : Allocator where
  choose := fun _ free => if hfree : free.Nonempty then some (free.min' hfree) else none
  sound := by
    intro _ free page hchoose
    split at hchoose
    next hfree => exact Option.some.inj hchoose ▸ free.min'_mem hfree
    next => cases hchoose

theorem Allocator.lowest_generous : Allocator.lowest.Generous where
  heap := fun _ => rfl
  choose := fun _ _ hfree => by simp [Allocator.lowest, hfree]

/-- At least `n` requests for a frame are met: so many frames are free, and the frame manager
refuses none while one is. -/
structure Plenty (al : Allocator) (n : Nat) (s : Kern) : Prop where
  generous : al.Generous
  room : n ≤ s.free.card

namespace Plenty

theorem mono (h : Plenty al n s) (hle : m ≤ n) : Plenty al m s :=
  ⟨h.generous, Nat.le_trans hle h.room⟩

/-- What is left after an operation that uses up to `m` frames. -/
theorem rest (h : Plenty al (n + m) s) (hused : s.free.card ≤ t.free.card + m) : Plenty al n t :=
  ⟨h.generous, by have := h.room; omega⟩

theorem some (h : Plenty al (n + 1) s) (tick : Nat) : al.choose tick s.free ≠ none := by
  intro hnone
  have hsome := h.generous.choose tick s.free (Finset.card_pos.mp (by have := h.room; omega))
  rw [hnone] at hsome
  cases hsome

end Plenty

theorem card_take {page : Nat} (hpage : page ∈ s.free) :
    s.free.card = (s.nextTick.take page).free.card + 1 :=
  (Finset.card_erase_add_one hpage).symm

/-- A frame that was free and is not any more is the only one that has been used up. -/
theorem Paged.card_free {role : Nat → Role} {ρ : Role} (hpaged : Paged role s)
    (hpaged' : Paged (Function.update role n ρ) t) (hn : role n = .free) (hρ : ρ ≠ .free) :
    s.free.card = t.free.card + 1 := by
  have hfree : t.free = s.free.erase n := by
    ext f
    rw [mem_erase, ← hpaged.free, ← hpaged'.free, Function.update_apply]
    split
    next heq => simp [heq, hρ]
    next hne => simp [hne]
  rw [hfree, card_erase_add_one ((hpaged.free n).mp hn)]

/-- A table takes one frame at most. -/
theorem tableAt_plenty {p : Ptr} :
    Ends (fun _ => True) (tableAt al.allocPage true p) s fun r t =>
      s.free.card ≤ t.free.card + 1 ∧ (Plenty al 1 s → r.isSome) := by
  have hkaddr : ∀ {f : Nat} {u : Kern}, s.free.card ≤ u.free.card + 1 →
      Ends (fun _ => True) (some <$> kaddr f) u fun r t =>
        s.free.card ≤ t.free.card + 1 ∧ (Plenty al 1 s → r.isSome) := by
    intro f u hcard
    unfold kaddr
    rw [ends_map]
    split
    next => trivial
    next => exact ⟨hcard, fun _ => rfl⟩
  unfold tableAt
  simp only [ends_bind, ends_load, if_true]
  split
  next => exact hkaddr (Nat.le_succ _)
  next =>
    rw [ends_bind]
    apply al.ends_allocPage_choose
    · intro hnone
      exact ⟨Nat.le_succ _, fun hplenty => absurd hnone (hplenty.some _)⟩
    · intro page hpage
      simp only [ends_bind, ends_setPageRef, ends_fillPage, ends_store, ends_load]
      unfold kaddr
      split
      next => trivial
      next => exact hkaddr (Nat.le_of_eq (card_take hpage))

/-- Finding or making an entry takes two frames at most. -/
theorem getPte_plenty {pgdir la : Nat} :
    Ends (fun _ => True) (getPte al.allocPage pgdir la true) s fun r t =>
      s.free.card ≤ t.free.card + 2 ∧ (Plenty al 2 s → r.isSome) := by
  unfold getPte
  rw [ends_bind]
  apply tableAt_plenty.imp
  rintro r t ⟨hcard, hsome⟩
  cases r with
  | none =>
      refine ⟨Nat.le_succ_of_le hcard, fun hplenty => ?_⟩
      exact absurd (hsome (hplenty.mono (Nat.le_succ 1))) Bool.false_ne_true
  | some pd0 =>
      rw [ends_bind]
      apply tableAt_plenty.imp
      rintro r u ⟨hcard', hsome'⟩
      have hboth : s.free.card ≤ u.free.card + 2 := by omega
      cases r with
      | none =>
          refine ⟨hboth, fun hplenty => ?_⟩
          exact absurd (hsome' (hplenty.rest hcard)) Bool.false_ne_true
      | some pt => exact ⟨hboth, fun _ => rfl⟩

/-- The frames that the pages of `rest` need, less those of the pages that are done. -/
def Supply (al : Allocator) (rest : Finset Nat) (done : Nat → Prop)
    [DecidablePred done] (s : Kern) :
    Prop := Plenty al (3 * #{v ∈ rest | ¬ done v}) s

/-- The pages that are `done` have used up no more than their share. -/
theorem Supply.step {rest : Finset Nat} {done done' : Nat → Prop}
    [DecidablePred done] [DecidablePred done'] {v : Nat} (h : Supply al rest done s) (hv : v ∈ rest)
    (hnew : ¬ done v) (hdone : ∀ w, done' w ↔ done w ∨ w = v)
    (hused : s.free.card ≤ t.free.card + 3) : Supply al rest done' t ∧ Plenty al 3 s := by
  have hmem : v ∈ ({v ∈ rest | ¬ done v} : Finset Nat) := mem_filter.mpr ⟨hv, hnew⟩
  have herase : ({v ∈ rest | ¬ done' v} : Finset Nat) =
      ({v ∈ rest | ¬ done v} : Finset Nat).erase v := by
    ext w
    simp only [mem_filter, mem_erase, hdone]
    tauto
  have hcard := card_erase_add_one hmem
  unfold Supply at h ⊢
  rw [herase]
  rw [← hcard, Nat.mul_add] at h
  exact ⟨h.rest hused, h.mono (Nat.le_add_left _ _)⟩

/-- Pages that need no frame may count as done. -/
theorem Supply.more {rest : Finset Nat} {done done' : Nat → Prop}
    [DecidablePred done] [DecidablePred done'] (h : Supply al rest done s)
    (hdone : ∀ v, done v → done' v) : Supply al rest done' s := by
  refine h.mono (Nat.mul_le_mul_left 3 (card_le_card fun v hv => ?_))
  rw [mem_filter] at hv ⊢
  exact hv.imp_right fun hno hv => hno (hdone v hv)

end Ucore.Mm
