import Ucore.Foundation.Runs

/-!
# Counting along a run

Some steps of a run are counted. A system that has only a bounded number of counted steps
left before it makes progress has made progress once in so many counted steps.
-/

namespace Ucore

variable {σ ι : Type*}

/-- `t` is reached from `s` by steps whose inputs satisfy `ok` where they are taken, and the counts
of the steps add up to `n`. -/
inductive CountsTo (step : σ → ι → Option σ) (ok : σ → ι → Prop) (count : σ → ι → Nat) (s : σ) :
    Nat → σ → Prop
  | refl : CountsTo step ok count s 0 s
  | tail {n : Nat} {t u : σ} {i : ι} :
      CountsTo step ok count s n t → ok t i → step t i = some u →
        CountsTo step ok count s (n + count t i) u

/-- What a step does to the progress and to the counted steps that are left: it has come to
the end, or it uses up what it counts, or it makes progress and starts again with no more
than `bound` of them. -/
inductive Paces (progress left : σ → Nat) (bound : Nat) (done : σ → Prop) (count : Nat) (s t : σ) :
    Prop
  | ends (hdone : done t)
  | uses (hsame : progress t = progress s) (hless : left t + count ≤ left s)
  | moves (hnext : progress t = progress s + 1) (hnone : count = 0) (hleft : left t ≤ bound)

namespace CountsTo

variable {step : σ → ι → Option σ} {ok : σ → ι → Prop} {count : σ → ι → Nat} {s t u : σ} {n : Nat}

/-- A list of inputs, each permitted where it is taken, with the sum of their counts. -/
theorem of_foldlM [∀ s i, Decidable (ok s i)] {is : List ι}
    (hfold : is.foldlM
      (fun r i => if ok r.2 i then (step r.2 i).map fun u => (r.1 + count r.2 i, u) else none)
      (0, s) = some (n, t)) : CountsTo step ok count s n t := by
  suffices hgen : ∀ (is : List ι) (r : Nat × σ), CountsTo step ok count s r.1 r.2 →
      is.foldlM (fun r i => if ok r.2 i then (step r.2 i).map fun u =>
        (r.1 + count r.2 i, u) else none) r =
        some (n, t) → CountsTo step ok count s n t from hgen is (0, s) .refl hfold
  intro is
  induction is with
  | nil =>
      intro r hrun heq
      obtain rfl : r = (n, t) := Option.some.inj heq
      exact hrun
  | cons i is ih =>
      intro r hrun heq
      rw [List.foldlM_cons] at heq
      by_cases hok : ok r.2 i
      · rw [if_pos hok] at heq
        obtain ⟨next, hnext, hrest⟩ := Option.bind_eq_some_iff.mp heq
        obtain ⟨u, hstep, rfl⟩ := Option.map_eq_some_iff.mp hnext
        exact ih _ (hrun.tail hok hstep) hrest
      · rw [if_neg hok] at heq
        cases heq

/-- Short of the end, a run has made progress for each `bound` counted steps. -/
theorem paced {inv done : σ → Prop} {progress left : σ → Nat} {bound : Nat}
    (h : CountsTo step ok count s n t) (hinit : inv s)
    (hstep : ∀ t i u, inv t → ok t i → step t i = some u →
      inv u ∧ (done t → done u) ∧ Paces progress left bound done (count t i) t u) :
    inv t ∧ (done t ∨ n + left t + bound * progress s ≤ left s + bound * progress t) := by
  induction h with
  | refl =>
      refine ⟨hinit, .inr ?_⟩
      exact Nat.le_of_eq (by rw [Nat.zero_add])
  | tail _ hok hnext ih =>
      obtain ⟨hinv, hpaced⟩ := ih
      obtain ⟨hinv', hstays, hpaces⟩ := hstep _ _ _ hinv hok hnext
      refine ⟨hinv', ?_⟩
      rcases hpaced with hdone | hle
      · exact .inl (hstays hdone)
      · cases hpaces with
        | ends hdone => exact .inl hdone
        | uses hsame hless =>
            right
            rw [hsame]
            omega
        | moves hmore hnone hleft =>
            right
            rw [hmore, hnone, Nat.mul_succ]
            omega

end CountsTo

end Ucore
