import Mathlib.Data.Finset.Card

/-!
# How many hold what

`tally S g c` is the number of members of `S` that hold `c`, where `g` says what each member
holds, if anything. Members that hold nothing do not matter, and one that takes or drops
something changes one number by one.
-/

namespace Ucore

variable {ι γ : Type*} [DecidableEq γ] {S S' : Finset ι} {g g' : ι → Option γ} {i : ι} {c d : γ}

def tally (S : Finset ι) (g : ι → Option γ) (c : γ) : Nat := (S.filter fun i => g i = some c).card

theorem tally_congr (h : ∀ i ∈ S, g' i = g i) : tally S g' = tally S g := by
  funext c
  refine congrArg Finset.card (Finset.filter_congr fun i hi => ?_)
  rw [h i hi]

theorem tally_pos (hi : i ∈ S) (hg : g i = some c) : 0 < tally S g c :=
  Finset.card_pos.mpr ⟨i, Finset.mem_filter.mpr ⟨hi, hg⟩⟩

/-- Members that hold nothing are not counted. -/
theorem tally_subset (hsub : S ⊆ S') (hnone : ∀ i ∈ S', i ∉ S → g i = none) :
    tally S' g = tally S g := by
  funext c
  refine congrArg Finset.card ?_
  ext i
  rw [Finset.mem_filter, Finset.mem_filter]
  refine ⟨fun hin => ⟨?_, hin.2⟩, fun hin => ⟨hsub hin.1, hin.2⟩⟩
  by_contra hout
  exact nomatch (hnone i hin.1 hout).symm.trans hin.2

/-- If nobody holds anything, all numbers are zero. -/
theorem tally_none (hnone : ∀ i ∈ S, g i = none) : tally S g c = 0 := by
  refine Finset.card_eq_zero.mpr (Finset.filter_eq_empty_iff.mpr ?_)
  intro i hi hsome
  exact nomatch (hnone i hi).symm.trans hsome

variable [DecidableEq ι]

/-- A member is left out. -/
theorem tally_erase (hi : i ∈ S) :
    tally S g d = tally (S.erase i) g d + if g i = some d then 1 else 0 := by
  unfold tally
  rw [Finset.filter_erase]
  split
  · next hsome => exact (Finset.card_erase_add_one (Finset.mem_filter.mpr ⟨hi, hsome⟩)).symm
  · next hnot =>
    have hout : i ∉ S.filter fun i => g i = some d := fun hin => hnot (Finset.mem_filter.mp hin).2
    rw [Finset.erase_eq_of_notMem hout]
    rfl

/-- A member changes what it holds. -/
theorem tally_change (hi : i ∈ S) (hother : ∀ j ∈ S, j ≠ i → g' j = g j) :
    (tally S g' d + if g i = some d then 1 else 0) =
      tally S g d + if g' i = some d then 1 else 0 := by
  have hrest : tally (S.erase i) g' d = tally (S.erase i) g d := by
    refine congrFun (tally_congr fun j hj => ?_) d
    exact hother j (Finset.mem_of_mem_erase hj) (Finset.ne_of_mem_erase hj)
  rw [tally_erase hi (g := g'), tally_erase hi (g := g), hrest]
  omega

end Ucore
