import Ucore.Foundation.Machine

/-!
# One program over two types of states

A program that is generic in a part of its state is run over two types of states, or
with more fuel. `Maps h x y` says that `h` takes every run of `x` that returns to a run
of `y`: they return the same, and `h` takes the one's states to the other's.
-/

namespace Ucore

namespace Machine

variable {ε σ τ α β : Type} {h : σ → τ}

def Maps (h : σ → τ) (x : Machine ε σ α) (y : Machine ε τ α) : Prop :=
  ∀ s a t, x s = .ok (a, t) → y (h s) = .ok (a, h t)

theorem maps_pure (a : α) :
    Maps h (pure a : Machine ε σ α) (pure a : Machine ε τ α) := by
  intro s b t heq
  obtain ⟨rfl, rfl⟩ := Prod.mk.inj (Except.ok.inj heq)
  rfl

/-- A program that stops maps to any program. -/
theorem maps_throw (e : ε) (y : Machine ε τ α) : Maps h (throw e : Machine ε σ α) y := by
  intro s a t heq
  cases heq

theorem maps_modify {f : σ → σ} {g : τ → τ} (hfg : ∀ s, h (f s) = g (h s)) :
    Maps h (modify f : Machine ε σ PUnit) (modify g : Machine ε τ PUnit) := by
  intro s a t heq
  obtain ⟨rfl, rfl⟩ := Prod.mk.inj (Except.ok.inj heq)
  rw [hfg]
  rfl

theorem maps_check (e : ε) (p : Prop) [Decidable p] :
    Maps h (check e p : Machine ε σ PUnit) (check e p : Machine ε τ PUnit) := by
  unfold check
  split
  · exact maps_pure PUnit.unit
  · exact maps_throw e _

theorem Maps.bind {x : Machine ε σ α} {y : Machine ε τ α} {f : α → Machine ε σ β}
    {g : α → Machine ε τ β} (hx : Maps h x y) (hf : ∀ a, Maps h (f a) (g a)) :
    Maps h (x >>= f) (y >>= g) := by
  intro s b u heq
  cases hs : x s with
  | error e =>
      have hstop : (x >>= f) s = .error e := by
        change (x s).bind (fun r => f r.1 r.2) = _
        rw [hs]
        rfl
      rw [hstop] at heq
      cases heq
  | ok r =>
      rw [bind_ok hs] at heq
      rw [bind_ok (hx s r.1 r.2 hs)]
      exact hf r.1 r.2 b u heq

/-- A state that is read, where only something that `h` keeps is used. -/
theorem maps_get_bind {f : σ → Machine ε σ β} {g : τ → Machine ε τ β}
    (hf : ∀ s, Maps h (f s) (g (h s))) :
    Maps h ((get : Machine ε σ σ) >>= f) ((get : Machine ε τ τ) >>= g) := fun s => hf s s

theorem maps_ite {p : Prop} [Decidable p] {x x' : Machine ε σ α} {y y' : Machine ε τ α}
    (hx : Maps h x y) (hx' : Maps h x' y') :
    Maps h (if p then x else x') (if p then y else y') := by
  split
  · exact hx
  · exact hx'

end Machine

end Ucore
