import Mathlib.Init

/-!
# Programs that may stop

Code with assertions and panics is a function on states that either returns or
stops for a reason. `Ends E x s Q` says that `x`, started in `s`, returns in a
state that satisfies `Q` or stops for a reason in `E`; with `E` empty it always
returns.
-/

namespace Ucore

/-- A program over the states `σ` that returns an `α` or stops with an `ε`. -/
abbrev Machine (ε σ α : Type) := StateT σ (Except ε) α

namespace Machine

variable {ε σ α β : Type} {E : ε → Prop} {s t : σ}

/-- The program either returns, with a result and a state that satisfy `Q`, or stops for a reason
that satisfies `E`. Specifications are stated with it: `E` lists the failures they excuse. -/
def Ends (E : ε → Prop) (x : Machine ε σ α) (s : σ) (Q : α → σ → Prop) : Prop :=
  match x s with
  | .ok (a, t) => Q a t
  | .error e => E e

/-- The state after a program that returns. -/
def exec (x : Machine ε σ α) (s : σ) : Option σ :=
  match x s with
  | .ok (_, t) => some t
  | .error _ => none

/-- What a program that returns returns. -/
def result (x : Machine ε σ α) (s : σ) : Option α :=
  match x s with
  | .ok (a, _) => some a
  | .error _ => none

/-- Whether a program returns and passes a test, for runs that are evaluated. -/
def yields (x : Machine ε σ α) (s : σ) (p : α → σ → Bool) : Bool :=
  match x s with
  | .ok (a, t) => p a t
  | .error _ => false

theorem of_result {x : Machine ε σ α} {a : α} (hresult : result x s = some a) :
    ∃ t, x s = .ok (a, t) := by
  unfold result at hresult
  cases hx : x s with
  | error e =>
      rw [hx] at hresult
      cases hresult
  | ok r =>
      rw [hx] at hresult
      obtain rfl := Option.some.inj hresult
      exact ⟨r.2, rfl⟩

/-- An assertion. -/
def check (e : ε) (p : Prop) [Decidable p] : Machine ε σ PUnit :=
  if p then pure ⟨⟩ else throw e

/-- No reason to stop: with this `E` a specification says that the program returns. -/
def never (_ : ε) : Prop := False

@[simp] theorem ends_pure {Q : α → σ → Prop} (a : α) :
    Ends E (pure a : Machine ε σ α) s Q ↔ Q a s := Iff.rfl

@[simp] theorem ends_bind {x : Machine ε σ α} {f : α → Machine ε σ β} {Q : β → σ → Prop} :
    Ends E (x >>= f) s Q ↔ Ends E x s fun a t => Ends E (f a) t Q := by
  unfold Ends
  show (match (x s).bind fun r => f r.1 r.2 with
    | .ok (b, t) => Q b t
    | .error e => E e) ↔ _
  cases x s <;> rfl

@[simp] theorem ends_map {x : Machine ε σ α} {f : α → β} {Q : β → σ → Prop} :
    Ends E (f <$> x) s Q ↔ Ends E x s fun a t => Q (f a) t := by
  rw [← bind_pure_comp, ends_bind]
  exact Iff.rfl

@[simp] theorem ends_throw {e : ε} {Q : α → σ → Prop} :
    Ends E (throw e : Machine ε σ α) s Q ↔ E e := Iff.rfl

@[simp] theorem ends_get {Q : σ → σ → Prop} :
    Ends E (get : Machine ε σ σ) s Q ↔ Q s s := Iff.rfl

@[simp] theorem ends_set {Q : PUnit → σ → Prop} :
    Ends E (set t : Machine ε σ PUnit) s Q ↔ Q ⟨⟩ t := Iff.rfl

@[simp] theorem ends_modify {f : σ → σ} {Q : PUnit → σ → Prop} :
    Ends E (modify f : Machine ε σ PUnit) s Q ↔ Q ⟨⟩ (f s) := Iff.rfl

/-- An assertion that holds. -/
theorem ends_check {e : ε} {p : Prop} [Decidable p] (hp : p) {Q : PUnit → σ → Prop} :
    Ends E (check e p) s Q ↔ Q ⟨⟩ s := by
  rw [check, if_pos hp]
  exact Iff.rfl

/-- An assertion that may fail. -/
theorem ends_check_of {e : ε} {p : Prop} [Decidable p] (he : E e) {Q : PUnit → σ → Prop} :
    Ends E (check e p) s Q ↔ (p → Q ⟨⟩ s) := by
  by_cases hp : p
  · rw [ends_check hp]
    exact ⟨fun hQ _ => hQ, fun hQ => hQ hp⟩
  · rw [check, if_neg hp]
    exact iff_of_true he fun h => absurd h hp

/-- An assertion that holds or may fail. -/
theorem Ends.check_or {e : ε} {p : Prop} [Decidable p] (hp : p ∨ E e) {Q : PUnit → σ → Prop}
    (hQ : p → Q ⟨⟩ s) : Ends E (check e p) s Q := by
  rcases hp with hp | he
  · exact (ends_check hp).mpr (hQ hp)
  · exact (ends_check_of he).mpr hQ

theorem Ends.mono {x : Machine ε σ α} {E' : ε → Prop} {Q Q' : α → σ → Prop}
    (hends : Ends E x s Q) (hE : ∀ e, E e → E' e) (hQ : ∀ a t, Q a t → Q' a t) :
    Ends E' x s Q' := by
  unfold Ends at hends ⊢
  cases hx : x s with
  | error e =>
      rw [hx] at hends
      exact hE e hends
  | ok r =>
      rw [hx] at hends
      exact hQ r.1 r.2 hends

/-- Weakening the postcondition. -/
theorem Ends.imp {x : Machine ε σ α} {Q Q' : α → σ → Prop} (hends : Ends E x s Q)
    (hQ : ∀ a t, Q a t → Q' a t) : Ends E x s Q' :=
  hends.mono (fun _ he => he) hQ

/-- Two things that are known of how a program ends. -/
theorem Ends.both {x : Machine ε σ α} {E' : ε → Prop} {Q Q' : α → σ → Prop} (hends : Ends E x s Q)
    (hends' : Ends E' x s Q') :
    Ends (fun e => E e ∧ E' e) x s fun a t => Q a t ∧ Q' a t := by
  unfold Ends at hends hends' ⊢
  cases hx : x s with
  | error e =>
      rw [hx] at hends hends'
      exact ⟨hends, hends'⟩
  | ok r =>
      rw [hx] at hends hends'
      exact ⟨hends, hends'⟩

/-- Two things that hold where a program returns. -/
theorem Ends.and {x : Machine ε σ α} {E' : ε → Prop} {Q Q' : α → σ → Prop} (hends : Ends E x s Q)
    (hends' : Ends E' x s Q') : Ends E x s fun a t => Q a t ∧ Q' a t :=
  (hends.both hends').mono (fun _ he => he.1) fun _ _ h => h

/-- A program that returns returns what it returns. -/
theorem Ends.self (x : Machine ε σ α) (s : σ) :
    Ends (fun _ => True) x s fun a t => x s = .ok (a, t) := by
  unfold Ends
  cases hx : x s with
  | error e => trivial
  | ok r => rfl

theorem Ends.of_ok {x : Machine ε σ α} {Q : α → σ → Prop} {a : α} (hx : x s = .ok (a, t))
    (hQ : Q a t) : Ends E x s Q := by
  unfold Ends
  rw [hx]
  exact hQ

theorem bind_ok {x : Machine ε σ α} {f : α → Machine ε σ β} {a : α} (hx : x s = .ok (a, t)) :
    (x >>= f) s = f a t := by
  change (x s).bind (fun r => f r.1 r.2) = _
  rw [hx]
  rfl

/-- A program that always returns does so for any reasons to stop. -/
theorem Ends.lift {x : Machine ε σ α} {Q Q' : α → σ → Prop} (hends : Ends never x s Q)
    (hQ : ∀ a t, Q a t → Q' a t) : Ends E x s Q' :=
  hends.mono (fun _ he => False.elim he) hQ

/-- The rule for a loop over a list: `P rest` holds when `rest` is still to be done. -/
theorem ends_forM {f : α → Machine ε σ PUnit} {P : List α → σ → Prop}
    (hstep : ∀ a rest s, P (a :: rest) s → Ends E (f a) s fun _ t => P rest t) :
    ∀ as s, P as s → Ends E (as.forM f) s fun _ t => P [] t := by
  intro as
  induction as with
  | nil => exact fun _ hP => hP
  | cons a rest ih =>
      intro s hP
      have hcons : (a :: rest).forM f = f a >>= fun _ => rest.forM f := rfl
      rw [hcons, ends_bind]
      apply (hstep a rest s hP).imp
      exact fun _ t hrest => ih t hrest

theorem Ends.of_exec {x : Machine ε σ α} {Q : α → σ → Prop} (hends : Ends E x s Q)
    (hexec : exec x s = some t) : ∃ a, Q a t := by
  unfold Ends at hends
  unfold exec at hexec
  cases hx : x s with
  | error e =>
      rw [hx] at hexec
      cases hexec
  | ok r =>
      rw [hx] at hends hexec
      obtain rfl := Option.some.inj hexec
      exact ⟨r.1, hends⟩

/-- A program stops only for a reason it may have. -/
theorem Ends.of_error {x : Machine ε σ α} {Q : α → σ → Prop} (hends : Ends E x s Q) {e : ε}
    (herror : x s = .error e) : E e := by
  unfold Ends at hends
  rw [herror] at hends
  exact hends

theorem Ends.of_yields {x : Machine ε σ α} {p : α → σ → Bool} (hyields : yields x s p = true) :
    Ends never x s fun a t => p a t = true := by
  unfold yields at hyields
  unfold Ends
  cases hx : x s with
  | error e =>
      rw [hx] at hyields
      cases hyields
  | ok r =>
      rw [hx] at hyields
      exact hyields

/-- A run in steps that returns and passes a test. -/
theorem of_yields_bind {x : Machine ε σ α} {f : α → Machine ε σ β} {p : β → σ → Bool}
    (hyields : yields (x >>= f) s p = true) : ∃ a t, x s = .ok (a, t) ∧
      yields (f a) t p = true := by
  cases hx : x s with
  | error e =>
      have hstop : (x >>= f) s = .error e := by
        change (x s).bind _ = _
        rw [hx]
        rfl
      rw [yields, hstop] at hyields
      cases hyields
  | ok r =>
      refine ⟨r.1, r.2, rfl, ?_⟩
      rwa [yields, bind_ok hx] at hyields

theorem Ends.exec_some {x : Machine ε σ α} {Q : α → σ → Prop} (hends : Ends never x s Q) :
    ∃ t, exec x s = some t := by
  unfold Ends at hends
  unfold exec
  cases hx : x s with
  | error e =>
      rw [hx] at hends
      exact hends.elim
  | ok r => exact ⟨r.2, rfl⟩

/-- A program that always returns, and with known results. -/
theorem Ends.eq_ok {x : Machine ε σ α} {a : α}
    (hends : Ends never x s fun b u => b = a ∧ u = t) : x s = .ok (a, t) := by
  unfold Ends at hends
  cases hx : x s with
  | error e =>
      rw [hx] at hends
      exact hends.elim
  | ok r =>
      rw [hx] at hends
      obtain ⟨rfl, rfl⟩ := hends
      rfl

/-- What is known where a program returns, of a run that has returned. -/
theorem Ends.post {x : Machine ε σ α} {Q : α → σ → Prop} {a : α} (hends : Ends E x s Q)
    (hx : x s = .ok (a, t)) : Q a t := by
  unfold Ends at hends
  rw [hx] at hends
  exact hends

theorem Ends.ok {x : Machine ε σ α} {Q : α → σ → Prop} (hends : Ends never x s Q) :
    ∃ a t, x s = .ok (a, t) ∧ Q a t := by
  unfold Ends at hends
  cases hx : x s with
  | error e =>
      rw [hx] at hends
      exact hends.elim
  | ok r =>
      rw [hx] at hends
      exact ⟨r.1, r.2, rfl, hends⟩

/-- What is known of a program that was seen to return. -/
theorem Ends.met {x : Machine ε σ α} {Q : α → σ → Prop} {p : α → σ → Bool} (hends : Ends E x s Q)
    (hyields : yields x s p = true) : ∃ a t, x s = .ok (a, t) ∧ Q a t ∧ p a t = true := by
  obtain ⟨a, t, hx, hp⟩ := (Ends.of_yields hyields).ok
  exact ⟨a, t, hx, hends.post hx, hp⟩

/-! ## Reasons to stop -/

/-- Whatever the state, `x` stops for no reason outside `E`. -/
def Within (E : ε → Prop) (x : Machine ε σ α) : Prop := ∀ s, Ends E x s fun _ _ => True

section Within

theorem within_pure (a : α) : Within E (pure a : Machine ε σ α) := fun _ => trivial

theorem within_throw {e : ε} (he : E e) : Within E (throw e : Machine ε σ α) := fun _ => he

theorem within_get : Within E (get : Machine ε σ σ) := fun _ => trivial

theorem within_modify (g : σ → σ) : Within E (modify g : Machine ε σ PUnit) := fun _ => trivial

theorem within_check {e : ε} {p : Prop} [Decidable p] (h : p ∨ E e) :
    Within E (check e p : Machine ε σ PUnit) := fun _ => Ends.check_or h fun _ => trivial

theorem Within.bind {x : Machine ε σ α} {g : α → Machine ε σ β} (hx : Within E x)
    (hg : ∀ a, Within E (g a)) :
    Within E (x >>= g) := by
  intro s
  rw [ends_bind]
  apply (hx s).imp
  exact fun a t _ => hg a t

theorem Within.mono {x : Machine ε σ α} {E' : ε → Prop} (hx : Within E x) (hE : ∀ e, E e → E' e) :
    Within E' x :=
  fun s => (hx s).mono hE fun _ _ _ => trivial

end Within

/-! ## Frames -/

/-- Where `x` returns, what `f` reads of the state is as before. -/
def Keeps {γ : Type*} (f : σ → γ) (x : Machine ε σ α) : Prop :=
  ∀ s, Ends (fun _ => True) x s fun _ t => f t = f s

section Keeps

variable {γ : Type*} {f : σ → γ}

theorem keeps_pure (a : α) : Keeps f (pure a : Machine ε σ α) := fun _ => rfl

theorem keeps_throw (e : ε) : Keeps f (throw e : Machine ε σ α) := fun _ => trivial

theorem keeps_get : Keeps f (get : Machine ε σ σ) := fun _ => rfl

theorem keeps_modify {g : σ → σ} (hg : ∀ s, f (g s) = f s) :
    Keeps f (modify g : Machine ε σ PUnit) := hg

theorem keeps_check (e : ε) (p : Prop) [Decidable p] : Keeps f (check e p : Machine ε σ PUnit) := by
  unfold check
  split
  · exact keeps_pure _
  · exact keeps_throw e

theorem Keeps.bind {x : Machine ε σ α} {g : α → Machine ε σ β} (hx : Keeps f x)
    (hg : ∀ a, Keeps f (g a)) :
    Keeps f (x >>= g) := by
  intro s
  rw [ends_bind]
  apply (hx s).imp
  intro a t ht
  exact (hg a t).imp fun _ u hu => hu.trans ht

end Keeps

/-! ## What is returned -/

/-- Whatever the state, `x` returns only what has `P`. -/
def Returns (P : α → Prop) (x : Machine ε σ α) : Prop :=
  ∀ s, Ends (fun _ => True) x s fun a _ => P a

section Returns

variable {P : α → Prop}

theorem returns_pure {a : α} (ha : P a) : Returns P (pure a : Machine ε σ α) := fun _ => ha

theorem Returns.mono {x : Machine ε σ α} {P' : α → Prop} (hx : Returns P x) (hP : ∀ a, P a → P' a) :
    Returns P' x := fun s => (hx s).imp fun a _ => hP a

theorem Returns.bind {R : β → Prop} {x : Machine ε σ β} {g : β → Machine ε σ α} (hx : Returns R x)
    (hg : ∀ b, R b → Returns P (g b)) : Returns P (x >>= g) := by
  intro s
  rw [ends_bind]
  apply (hx s).imp
  exact fun b t hb => hg b hb t

/-- What comes before does not matter. -/
theorem returns_last {x : Machine ε σ β} {g : β → Machine ε σ α} (hg : ∀ b, Returns P (g b)) :
    Returns P (x >>= g) := by
  intro s
  rw [ends_bind]
  apply (Ends.self x s).imp
  exact fun b t _ => hg b t

theorem returns_check_bind {e : ε} {p : Prop} [Decidable p] {g : PUnit → Machine ε σ α}
    (hg : p → Returns P (g ⟨⟩)) : Returns P (check e p >>= g) := by
  intro s
  rw [ends_bind]
  apply (ends_check_of trivial).mpr
  exact fun hp => hg hp s

end Returns

end Machine

end Ucore
