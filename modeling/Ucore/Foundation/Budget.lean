import Ucore.Foundation.Machine

/-!
# Programs with a budget

A program takes units of something from its state and stops for one reason when nothing is
left. `Spends` says exactly how many units it takes: it returns if it has them and stops if
not. What programs spend adds up when they run one after the other.
-/

namespace Ucore.Machine

variable {ε σ α β : Type} {room : σ → Nat} {full : ε} {s t : σ} {k m : Nat}

/-- `x` takes exactly `k` units: it stops for the reason `full` if there are fewer, and
returns otherwise. -/
def Spends (room : σ → Nat) (full : ε) (x : Machine ε σ α) (s : σ) (k : Nat) (Q : α → σ → Prop) :
    Prop :=
  Ends (fun e => e = full ∧ room s < k) x s fun a t => room t + k = room s ∧ Q a t

namespace Spends

variable {x : Machine ε σ α} {f : α → Machine ε σ β} {Q Q' : α → σ → Prop} {R : β → σ → Prop}

theorem imp (h : Spends room full x s k Q) (hQ : ∀ a t, Q a t → Q' a t) :
    Spends room full x s k Q' :=
  Ends.imp h fun a t ht => ⟨ht.1, hQ a t ht.2⟩

/-- What else is known where the program returns. -/
theorem and {E : ε → Prop} (h : Spends room full x s k Q) (hends : Ends E x s Q') :
    Spends room full x s k fun a t => Q a t ∧ Q' a t :=
  (Ends.and h hends).imp fun _ _ ht => ⟨ht.1.1, ht.1.2, ht.2⟩

/-- A program that always returns and leaves the budget alone. -/
theorem of_ends (h : Ends never x s fun a t => room t = room s ∧ Q a t) :
    Spends room full x s 0 Q :=
  h.lift fun _ _ ht => ⟨ht.1, ht.2⟩

/-- One program after another. -/
theorem bind (h : Spends room full x s k Q) (hf : ∀ a t, Q a t → Spends room full (f a) t m R) :
    Spends room full (x >>= f) s (k + m) R := by
  rw [Spends, ends_bind]
  refine Ends.mono h ?_ ?_
  · intro e hall
    obtain ⟨he, hless⟩ := hall
    exact ⟨he, by omega⟩
  · intro a t hall
    obtain ⟨hroom, hQ⟩ := hall
    refine Ends.mono (hf a t hQ) ?_ ?_
    · intro e hall
      obtain ⟨he, hless⟩ := hall
      exact ⟨he, by omega⟩
    · intro b u hall
      obtain ⟨hroom', hR⟩ := hall
      exact ⟨by omega, hR⟩

/-- A program that spends nothing comes first. -/
theorem bind_free (h : Ends never x s fun a t => room t = room s ∧ Q a t)
    (hf : ∀ a t, Q a t → Spends room full (f a) t k R) : Spends room full (x >>= f) s k R := by
  have hboth := (of_ends h).bind hf
  rwa [Nat.zero_add] at hboth

/-- A program that spends nothing comes last. -/
theorem bind_last (h : Spends room full x s k Q)
    (hf : ∀ a t, Q a t → Ends never (f a) t fun b u => room u = room t ∧ R b u) :
    Spends room full (x >>= f) s k R := h.bind fun a t ht => of_ends (hf a t ht)

theorem get_bind {g : σ → Machine ε σ β} (h : Spends room full (g s) s k R) :
    Spends room full ((get : Machine ε σ σ) >>= g) s k R := h

theorem check_bind {e : ε} {p : Prop} [Decidable p] (hp : p) {g : PUnit → Machine ε σ β}
    (h : Spends room full (g ⟨⟩) s k R) : Spends room full (check e p >>= g) s k R := by
  rw [Spends, ends_bind, ends_check hp]
  exact h

theorem modify_bind {c : σ → σ} {g : PUnit → Machine ε σ β} (hc : room (c s) = room s)
    (h : Spends room full (g ⟨⟩) (c s) k R) : Spends room full ((modify c : Machine ε σ PUnit) >>=
      g) s k R := by
  unfold Spends at h ⊢
  rw [hc] at h
  rw [ends_bind, ends_modify]
  exact h

theorem modify {c : σ → σ} {R : PUnit → σ → Prop} (hc : room (c s) = room s) (hR : R ⟨⟩ (c s)) :
    Spends room full (modify c : Machine ε σ PUnit) s 0 R := by
  rw [Spends, ends_modify]
  exact ⟨hc, hR⟩

theorem pure_iff {a : α} : Spends room full (pure a : Machine ε σ α) s 0 Q ↔ Q a s := by
  rw [Spends, ends_pure]
  exact and_iff_right rfl

/-- The program returns if its budget is enough, and otherwise stops. -/
theorem run (h : Spends room full x s k Q) :
    (room s < k ∧ x s = .error full) ∨
      (k ≤ room s ∧ ∃ a t, x s = .ok (a, t) ∧ room t = room s - k ∧ Q a t) := by
  unfold Spends Ends at h
  cases hx : x s with
  | error e =>
      rw [hx] at h
      exact .inl ⟨h.2, by rw [h.1]⟩
  | ok r =>
      rw [hx] at h
      exact .inr ⟨by omega, r.1, r.2, rfl, by omega, h.2⟩

end Spends

end Ucore.Machine
