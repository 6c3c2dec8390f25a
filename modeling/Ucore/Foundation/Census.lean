import Mathlib.Algebra.Order.Group.Multiset
import Mathlib.Data.Fintype.Basic
import Mathlib.Data.Finset.Card
import Mathlib.Data.Multiset.Filter
import Mathlib.Data.Multiset.Replicate

/-!
# What the members of a finite family hold

`census g f` is the multiset of the `g (f i)` there are. A step of one member replaces
its entry and leaves those of the others alone.
-/

namespace Ucore

variable {ι β γ : Type*} [Fintype ι]

/-- The values of `g` on the family `f`. -/
def census (g : β → Option γ) (f : ι → β) : Multiset γ :=
  (Finset.univ.val.map f).filterMap g

/-- The values of `g` on the family `f` without its member `i`. -/
def others [DecidableEq ι] (g : β → Option γ) (f : ι → β) (i : ι) : Multiset γ :=
  ((Finset.univ.erase i).val.map f).filterMap g

variable {g : β → Option γ} {f : ι → β} {i : ι} {c : γ}

theorem census_eq [DecidableEq ι] (g : β → Option γ) (f : ι → β) (i : ι) :
    census g f = ((g (f i)).toList : Multiset γ) + others g f i := by
  have huniv : (Finset.univ : Finset ι).val = i ::ₘ (Finset.univ.erase i).val := by
    rw [Finset.erase_val, Multiset.cons_erase (Finset.mem_univ i)]
  rw [census, huniv, Multiset.map_cons, others]
  cases hg : g (f i) with
  | none => rw [Multiset.filterMap_cons_none _ _ hg, Option.toList_none, Multiset.coe_nil, zero_add]
  | some c =>
      rw [Multiset.filterMap_cons_some _ _ _ hg, Option.toList_some, Multiset.coe_singleton,
        Multiset.singleton_add]

@[simp] theorem others_update [DecidableEq ι] (b : β) :
    others g (Function.update f i b) i = others g f i := by
  unfold others
  congr 1
  apply Multiset.map_congr rfl
  intro j hj
  exact Function.update_of_ne (Finset.ne_of_mem_erase hj) b f

/-- One member takes a step. -/
theorem census_update [DecidableEq ι] (b : β) :
    census g (Function.update f i b) = ((g b).toList : Multiset γ) + others g f i := by
  rw [census_eq g _ i, others_update, Function.update_self]

theorem mem_census : c ∈ census g f ↔ ∃ i, g (f i) = some c := by
  simp [census]

theorem mem_others [DecidableEq ι] : c ∈ others g f i ↔ ∃ j, j ≠ i ∧ g (f j) = some c := by
  have hmem : ∀ j, j ∈ (Finset.univ.erase i).val ↔ j ≠ i := by
    intro j
    rw [Finset.mem_val, Finset.mem_erase]
    exact and_iff_left (Finset.mem_univ j)
  simp only [others, Multiset.mem_filterMap, Multiset.mem_map, hmem]
  constructor
  · rintro ⟨_, ⟨j, hj, rfl⟩, hc⟩
    exact ⟨j, hj, hc⟩
  · rintro ⟨j, hj, hc⟩
    exact ⟨f j, ⟨j, hj, rfl⟩, hc⟩

/-- What is held once has one holder. -/
theorem existsUnique_of_census_eq (h : census g f = {c}) : ∃! i, g (f i) = some c := by
  classical
  obtain ⟨i, hi⟩ := mem_census.mp (h ▸ Multiset.mem_singleton_self c)
  refine ⟨i, hi, ?_⟩
  intro j hj
  by_contra hne
  rw [census_eq g f i, hi, Option.toList_some, Multiset.coe_singleton, add_eq_left] at h
  have hmem : c ∈ others g f i := mem_others.mpr ⟨j, hne, hj⟩
  rw [h] at hmem
  exact Multiset.notMem_zero c hmem

@[simp] theorem census_none : census (fun _ => none : β → Option γ) f = 0 := by
  apply Multiset.eq_zero_of_forall_notMem
  simp [mem_census]

/-- The members that hold a value with the property `p`, counted. -/
theorem card_filter_census (p : γ → Prop) [DecidablePred p] (q : β → Prop) [DecidablePred q]
    (hiff : ∀ b, q b ↔ ∃ c, g b = some c ∧ p c) :
    (Finset.univ.filter fun i => q (f i)).card = (census g f).countP p := by
  rw [census, Finset.card_def, Finset.filter_val, ← Multiset.countP_eq_card_filter]
  generalize (Finset.univ : Finset ι).val = s
  induction s using Multiset.induction_on with
  | empty => rfl
  | cons i s ih =>
      rw [Multiset.map_cons]
      cases hg : g (f i) with
      | none =>
          have hq : ¬ q (f i) := by simp [hiff, hg]
          rw [Multiset.countP_cons_of_neg (s := s) hq, Multiset.filterMap_cons_none _ _ hg, ih]
      | some c =>
          rw [Multiset.filterMap_cons_some _ _ _ hg, Multiset.countP_cons, Multiset.countP_cons, ih]
          simp [hiff, hg]

end Ucore
