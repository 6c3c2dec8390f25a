import Mathlib.Init

/-!
# Runs of a partial step function

A system takes steps `step s i = some s'`, one for each input `i`; a step that
fails (an assertion, a walk off a structure) has no successor state. `RunsTo`
collects the finite runs all of whose steps satisfy a side condition on the
input and the state before the step.
-/

namespace Ucore

variable {σ ι : Type*}

/-- `t` is reached from `s` by steps whose inputs satisfy `ok` where they are taken. -/
inductive RunsTo (step : σ → ι → Option σ) (ok : σ → ι → Prop) (s : σ) : σ → Prop
  | refl : RunsTo step ok s s
  | tail {t u : σ} {i : ι} :
      RunsTo step ok s t → ok t i → step t i = some u → RunsTo step ok s u

namespace RunsTo

variable {step : σ → ι → Option σ} {ok : σ → ι → Prop} {s t : σ}

/-- What holds initially and survives every permitted step holds in every
state reached. -/
theorem invariant {inv : σ → Prop} (hrun : RunsTo step ok s t) (hinit : inv s)
    (hstep : ∀ t i u, inv t → ok t i → step t i = some u → inv u) : inv t := by
  induction hrun with
  | refl => exact hinit
  | tail _ hok hnext ih => exact hstep _ _ _ ih hok hnext

theorem mono {ok' : σ → ι → Prop} (hrun : RunsTo step ok s t)
    (himp : ∀ t i, ok t i → ok' t i) : RunsTo step ok' s t := by
  induction hrun with
  | refl => exact .refl
  | tail _ hok hnext ih => exact ih.tail (himp _ _ hok) hnext

theorem trans {u : σ} (hrun : RunsTo step ok s t) (hrest : RunsTo step ok t u) :
    RunsTo step ok s u := by
  induction hrest with
  | refl => exact hrun
  | tail _ hok hnext ih => exact ih.tail hok hnext

/-- A list of inputs, each permitted where it is taken, makes a run. -/
theorem of_foldlM [∀ s i, Decidable (ok s i)] {is : List ι}
    (hfold : is.foldlM (fun s i => if ok s i then step s i else none) s = some t) :
    RunsTo step ok s t := by
  suffices hgen : ∀ r, RunsTo step ok r s → RunsTo step ok r t from hgen s .refl
  intro r hrun
  induction is generalizing s with
  | nil =>
      obtain rfl : s = t := Option.some.inj hfold
      exact hrun
  | cons i is ih =>
      rw [List.foldlM_cons] at hfold
      by_cases hok : ok s i
      · rw [if_pos hok] at hfold
        obtain ⟨u, hstep, hrest⟩ := Option.bind_eq_some_iff.mp hfold
        exact ih hrest (hrun.tail hok hstep)
      · rw [if_neg hok] at hfold
        cases hfold

end RunsTo

end Ucore
