import Ucore.Foundation.Runs
import Ucore.Schedule.TimerSpec

/-!
# Timers fire on time

The delays of a delta list are an agenda: for each timer the number of ticks that it still
has to wait. Every operation changes the agenda as its name says, so that a timer fires at
the tick that its `expires` named, whatever happens to the others.
-/

namespace Ucore.Schedule

open Machine Process

/-- The timers on the list, with the number of ticks until they fire. -/
def agenda (s : Timers) (xs : List Nat) : List (Nat × Nat) := DeltaList.due 0 (pairs s.expires xs)

/-- The timers on the list all have to wait, and no longer than `expires` can say. -/
structure Waiting (s : Timers) (xs : List Nat) : Prop where
  listed : Listed s xs
  range : ∀ p ∈ agenda s xs, 0 < p.2 ∧ p.2 < 2 ^ 32

/-- What an action does to the clock, the log and the agenda. -/
def Effect (c c' : Clock) (before after : List (Nat × Nat)) : Action → Prop
  | .add _ timer expires _ => c'.ticks = c.ticks ∧ c'.log = c.log ∧
      ∀ p, p ∈ after ↔ p = (timer, expires) ∨ p ∈ before
  | .del timer => c'.ticks = c.ticks ∧ c'.log = c.log ∧ ∀ p, p ∈ after ↔ p ∈ before ∧ p.1 ≠ timer
  | .tick _ => c'.ticks = c.ticks + 1 ∧
      (∃ fired : List Nat, c'.log = fired.map (fun timer => (c.ticks + 1, timer)) ++ c.log ∧
        fired.Nodup ∧ ∀ timer, timer ∈ fired ↔ (timer, 1) ∈ before) ∧
      ∀ p, p ∈ after ↔ 0 < p.2 ∧ (p.1, p.2 + 1) ∈ before
  | .other _ _ => c'.ticks = c.ticks ∧ c'.log = c.log ∧ after = before

variable {s s' : Timers} {c c₀ c₁ c₂ : Clock} {xs : List Nat} {t fuel : Nat} {a : Action}
  {E : Stop → Prop}

namespace Waiting

theorem keys (s : Timers) (xs : List Nat) : (agenda s xs).map Prod.fst = xs := by
  rw [agenda, DeltaList.due_keys, pairs_keys]

theorem key_mem {p : Nat × Nat} (hp : p ∈ agenda s xs) : p.1 ∈ xs := by
  have hkey := List.mem_map_of_mem (f := Prod.fst) hp
  rwa [keys] at hkey

theorem exists_of_mem (ht : t ∈ xs) : ∃ d, (t, d) ∈ agenda s xs := by
  rw [← keys s xs] at ht
  obtain ⟨p, hp, rfl⟩ := List.mem_map.mp ht
  exact ⟨p.2, hp⟩

/-- A timer has one delay. -/
theorem unique (h : Waiting s xs) {d e : Nat} (hd : (t, d) ∈ agenda s xs)
    (he : (t, e) ∈ agenda s xs) :
    d = e := by
  have hnodup : ((agenda s xs).map Prod.fst).Nodup := by
    rw [keys]
    exact h.listed.nodup
  exact congrArg Prod.snd (List.inj_on_of_nodup_map hnodup hd he rfl)

theorem expires_lt (h : Waiting s xs) (ht : t ∈ xs) : s.expires t < 2 ^ 32 := by
  have hmem : (t, s.expires t) ∈ pairs s.expires xs := List.mem_map_of_mem ht
  obtain ⟨d, hd, hdue⟩ := DeltaList.mem_due_of_mem hmem (b := 0)
  have hlt := (h.range _ hdue).2
  omega

theorem head_pos (h : Waiting s xs) : ∀ p ∈ (pairs s.expires xs).head?, 0 < p.2 := by
  cases xs with
  | nil => exact nofun
  | cons y ys =>
      intro p hp
      obtain rfl : (y, s.expires y) = p := Option.some.inj hp
      have hrange := h.range (y, 0 + s.expires y) List.mem_cons_self
      rw [Nat.zero_add] at hrange
      exact hrange.1

/-- The timer behind another one has to wait at least as long. -/
theorem next_small {ys zs : List Nat} (h : Waiting s (ys ++ t :: zs)) :
    ∀ y ∈ zs.head?, s.expires y + s.expires t < 2 ^ 32 := by
  cases zs with
  | nil => exact nofun
  | cons z zs =>
      intro y hy
      obtain rfl : z = y := Option.some.inj hy
      have hmem : (z, ((pairs s.expires ys).map Prod.snd).sum + s.expires t + s.expires z) ∈
          agenda s (ys ++ t :: z :: zs) := by
        rw [agenda, pairs, List.map_append, DeltaList.due_append, Nat.zero_add]
        exact List.mem_append_right _ (List.mem_cons_of_mem _ List.mem_cons_self)
      have hlt := (h.range _ hmem).2
      omega

end Waiting

/-! ## One operation -/

theorem setTimer_waiting (proc : Nat) (h : Waiting s xs) (ht : t ∉ xs) {expires : Nat}
    (hpos : 0 < expires) (hlt : expires < 2 ^ 32) (hfuel : xs.length < fuel ∨ E .runaway) :
    Ends E (setTimer fuel t expires proc) s fun _ s' => ∃ xs', Waiting s' xs' ∧
      ∀ p, p ∈ agenda s' xs' ↔ p = (t, expires) ∨ p ∈ agenda s xs := by
  rw [setTimer, ends_bind, ends_modify]
  have hlisted : Listed { s with
      expires := Function.update s.expires t expires
      proc := Function.update s.proc t (some proc) } xs := by
    refine ⟨h.listed.ring, h.listed.idle, ?_⟩
    intro u hu
    have hsame : Function.update s.proc t (some proc) u = s.proc u :=
      Function.update_of_ne (ne_of_mem_of_not_mem hu ht) ..
    exact fun hnone => h.listed.procs u hu (hsame.symm.trans hnone)
  have hexpires : Function.update s.expires t expires t = expires := Function.update_self ..
  have hset : 0 < Function.update s.expires t expires t := by rwa [hexpires]
  have hproc : Function.update s.proc t (some proc) t ≠ none := by simp
  apply (addTimer_spec hlisted ht hset hproc hfuel).imp
  intro _ u hadd
  obtain ⟨xs', hlisted', hpairs⟩ := hadd
  dsimp only at hpairs
  rw [hexpires, pairs_update ht] at hpairs
  have hmem : ∀ p, p ∈ agenda u xs' ↔ p = (t, expires) ∨ p ∈ agenda s xs := by
    intro p
    rw [agenda, hpairs, (DeltaList.due_insert t 0 expires _).mem_iff, List.mem_cons, Nat.zero_add]
    exact Iff.rfl
  refine ⟨xs', ⟨hlisted', ?_⟩, hmem⟩
  intro p hp
  rcases (hmem p).mp hp with rfl | hp
  · exact ⟨hpos, hlt⟩
  · exact h.range p hp

theorem delTimer_waiting (h : Waiting s xs) :
    Ends E (delTimer t) s fun _ s' => ∃ xs', Waiting s' xs' ∧
    ∀ p, p ∈ agenda s' xs' ↔ p ∈ agenda s xs ∧ p.1 ≠ t := by
  by_cases ht : t ∈ xs
  · obtain ⟨ys, zs, rfl⟩ := List.append_of_mem ht
    apply (delTimer_spec h.listed h.next_small).imp
    intro _ u hdel
    obtain ⟨hlisted, hpairs⟩ := hdel
    have hperm := DeltaList.due_remove 0 (pairs s.expires ys) (pairs s.expires zs) (t, s.expires t)
    have hbefore : agenda s (ys ++ t :: zs) =
        DeltaList.due 0 (pairs s.expires ys ++ (t, s.expires t) :: pairs s.expires zs) := by
      rw [agenda, pairs, List.map_append, List.map_cons]
      rfl
    have hafter : t ∉ ys ++ zs :=
      (List.nodup_cons.mp (List.perm_middle.nodup_iff.mp h.listed.nodup)).1
    have hmem : ∀ p, p ∈ agenda u (ys ++ zs) ↔ p ∈ agenda s (ys ++ t :: zs) ∧ p.1 ≠ t := by
      intro p
      rw [hbefore, hperm.mem_iff, ← hpairs, List.mem_cons]
      constructor
      · intro hp
        exact ⟨Or.inr hp, ne_of_mem_of_not_mem (Waiting.key_mem hp) hafter⟩
      · rintro ⟨rfl | hp, hne⟩
        · exact absurd rfl hne
        · exact hp
    exact ⟨ys ++ zs, ⟨hlisted, fun p hp => h.range p ((hmem p).mp hp).1⟩, hmem⟩
  · rw [Ends, delTimer_idle h.listed ht]
    refine ⟨xs, h, fun p => ⟨fun hp => ⟨hp, ?_⟩, And.left⟩⟩
    exact ne_of_mem_of_not_mem (Waiting.key_mem hp) ht

theorem runTimerList_waiting (h : Waiting s xs) (hfuel : xs.length < fuel ∨ E .runaway)
    (hE : ∀ e, Woken e → E e) :
    Ends E (runTimerList fuel) s fun fired s' => ∃ xs', Waiting s' xs' ∧ fired.Nodup ∧
      (∀ u, u ∈ fired ↔ (u, 1) ∈ agenda s xs) ∧
      ∀ p, p ∈ agenda s' xs' ↔ 0 < p.2 ∧ (p.1, p.2 + 1) ∈ agenda s xs := by
  apply (runTimerList_spec h.listed h.head_pos (fun u hu => h.expires_lt hu) hfuel hE).imp
  intro fired u hrun
  obtain ⟨zs, hlisted, rfl, hpairs⟩ := hrun
  have hshift : agenda s xs = (DeltaList.due 0 (DeltaList.tick (pairs s.expires xs))).map
      fun p => (p.1, p.2 + 1) := DeltaList.due_tick h.head_pos
  set passed := DeltaList.tick (pairs s.expires xs) with hpassed
  have hbefore : ∀ v d, (v, d) ∈ DeltaList.due 0 passed ↔ (v, d + 1) ∈ agenda s xs := by
    intro v d
    rw [hshift, List.mem_map]
    constructor
    · exact fun hp => ⟨(v, d), hp, rfl⟩
    · rintro ⟨q, hq, heq⟩
      obtain ⟨hv, hd⟩ := Prod.mk.inj heq
      obtain rfl : q = (v, d) := Prod.ext hv (Nat.succ.inj hd)
      exact hq
  have hmem : ∀ p, p ∈ agenda u zs ↔ 0 < p.2 ∧ (p.1, p.2 + 1) ∈ agenda s xs := by
    intro p
    rw [agenda, hpairs, DeltaList.due_unripe, List.mem_filter, decide_eq_true_iff,
      and_comm, ← hbefore]
  refine ⟨zs, ⟨hlisted, ?_⟩, ?_, ?_, hmem⟩
  · intro p hp
    obtain ⟨hpos, hin⟩ := (hmem p).mp hp
    exact ⟨hpos, Nat.lt_of_succ_lt (h.range _ hin).2⟩
  · have hkeys : (passed.map Prod.fst).Nodup := by
      rw [hpassed, DeltaList.tick_keys, pairs_keys]
      exact h.listed.nodup
    rw [DeltaList.ripe]
    exact hkeys.sublist ((List.takeWhile_sublist _).map _)
  · intro v
    rw [← hbefore, DeltaList.due_ripe]
    constructor
    · intro hv
      obtain ⟨⟨w, d⟩, hp, rfl⟩ := List.mem_map.mp hv
      obtain ⟨hp, hzero⟩ := List.mem_filter.mp hp
      obtain rfl : d = 0 := of_decide_eq_true hzero
      exact hp
    · intro hv
      exact List.mem_map_of_mem (f := Prod.fst) (List.mem_filter.mpr ⟨hv, rfl⟩)

/-! ## Runs -/

/-- No timer is on the list, and all of them have been initialised by `timer_init`, so that their
links lead to themselves. -/
structure Started (c : Clock) : Prop where
  list : c.timers.link.Ring .timerList []
  links : ∀ t, c.timers.link.listEmpty (.timerLink t) = true

theorem Started.waiting (h : Started c) : Waiting c.timers [] :=
  ⟨⟨h.list, fun t _ => h.links t, nofun⟩, nofun⟩

theorem step_effect (h : Waiting c.timers xs) (hok : Permitted c a) (hstep : step c a = some c₁) :
    ∃ xs', Waiting c₁.timers xs' ∧ Effect c c₁ (agenda c.timers xs) (agenda c₁.timers xs') a := by
  cases a with
  | add fuel timer expires proc =>
      obtain ⟨s', hexec, rfl⟩ := Option.map_eq_some_iff.mp hstep
      obtain ⟨hpos, hlt, hidle⟩ := hok
      have htimer : timer ∉ xs := fun hin => by simp [h.listed.mem_iff.mp hin] at hidle
      have hroom : xs.length < fuel ∨ True := Or.inr trivial
      have hends := setTimer_waiting proc h htimer hpos hlt (E := fun _ => True) hroom
      obtain ⟨_, xs', hwaiting, hmem⟩ := hends.of_exec hexec
      exact ⟨xs', hwaiting, rfl, rfl, hmem⟩
  | del timer =>
      obtain ⟨s', hexec, rfl⟩ := Option.map_eq_some_iff.mp hstep
      obtain ⟨_, xs', hwaiting, hmem⟩ := (delTimer_waiting h (E := never)).of_exec hexec
      exact ⟨xs', hwaiting, rfl, rfl, hmem⟩
  | tick fuel =>
      have hroom : xs.length < fuel ∨ True := Or.inr trivial
      have hends := runTimerList_waiting h (E := fun _ => True) hroom fun _ _ => trivial
      simp only [step] at hstep
      rw [Ends] at hends
      cases hrun : runTimerList fuel c.timers with
      | error e => simp [hrun] at hstep
      | ok result =>
          rw [hrun] at hends hstep
          obtain ⟨xs', hwaiting, hnodup, hfired, hmem⟩ := hends
          obtain rfl := Option.some.inj hstep
          exact ⟨xs', hwaiting, rfl, ⟨result.1, rfl, hnodup, hfired⟩, hmem⟩
  | other state waitState =>
      obtain rfl := Option.some.inj hstep
      exact ⟨xs, ⟨h.listed.congr rfl rfl, h.range⟩, rfl, rfl, rfl⟩

/-- The list of timers is as it should be: linked both ways, and each timer on it still has to wait.
-/
def Valid (c : Clock) : Prop := ∃ xs, Waiting c.timers xs

theorem run_valid (hstart : Started c₀) (hrun : RunsTo step Permitted c₀ c) : Valid c :=
  hrun.invariant ⟨[], hstart.waiting⟩ fun _ _ _ hvalid hok hstep =>
    hvalid.elim fun _ hwaiting => (step_effect hwaiting hok hstep).imp fun _ heffect => heffect.1

/-- The action neither adds nor deletes the timer. -/
def Spares (t : Nat) : Action → Prop
  | .add _ timer _ _ => timer ≠ t
  | .del timer => timer ≠ t
  | .tick _ => True
  | .other _ _ => True

instance (t : Nat) : DecidablePred (Spares t)
  | .add _ timer _ _ => inferInstanceAs (Decidable (timer ≠ t))
  | .del timer => inferInstanceAs (Decidable (timer ≠ t))
  | .tick _ => isTrue trivial
  | .other .. => isTrue trivial

theorem setTimer_proc {expires proc : Nat} :
    Ends (fun _ => True) (setTimer fuel t expires proc) s fun _ s' =>
    s'.proc = Function.update s.proc t (some proc) := by
  rw [setTimer, ends_bind, ends_modify]
  exact addTimer_unaware.imp fun _ _ hkept => hkept.2.2

/-- The process of a timer stays as long as the timer is not added again. -/
theorem step_proc (hspares : Spares t a) (hstep : step c a = some c₁) :
    c₁.timers.proc t = c.timers.proc t := by
  cases a with
  | add fuel timer expires proc =>
      obtain ⟨s', hexec, rfl⟩ := Option.map_eq_some_iff.mp hstep
      obtain ⟨_, hproc⟩ := setTimer_proc.of_exec hexec
      exact (congrFun hproc t).trans (Function.update_of_ne (Ne.symm hspares) ..)
  | del timer =>
      obtain ⟨s', hexec, rfl⟩ := Option.map_eq_some_iff.mp hstep
      obtain ⟨_, hkept⟩ := delTimer_unaware.of_exec hexec
      exact congrFun hkept.2.2 t
  | tick fuel =>
      have hends : Ends _ (runTimerList fuel) c.timers _ := runTimerList_awakens
      simp only [step] at hstep
      rw [Ends] at hends
      cases hrun : runTimerList fuel c.timers with
      | error e => simp [hrun] at hstep
      | ok result =>
          rw [hrun] at hends hstep
          obtain rfl := Option.some.inj hstep
          exact congrFun hends.proc t
  | other state waitState =>
      obtain rfl := Option.some.inj hstep
      rfl

/-- The calls of `run_timer_list` in a log that fired a timer. -/
def firedAt (t : Nat) (log : List (Nat × Nat)) : List Nat :=
    (log.filter fun p => p.2 = t).map Prod.fst

theorem firedAt_append (new old : List (Nat × Nat)) :
    firedAt t (new ++ old) = firedAt t new ++ firedAt t old := by
  rw [firedAt, List.filter_append, List.map_append]
  rfl

/-- What one call adds to the log. -/
theorem firedAt_map {fired : List Nat} (hnodup : fired.Nodup) {n : Nat} :
    firedAt t (fired.map fun timer => (n, timer)) = if t ∈ fired then [n] else [] := by
  induction fired with
  | nil => rfl
  | cons u rest ih =>
      obtain ⟨hu, hrest⟩ := List.nodup_cons.mp hnodup
      have hcons := firedAt_append (t := t) [(n, u)] (rest.map fun timer => (n, timer))
      rw [List.map_cons]
      refine hcons.trans ?_
      rw [ih hrest]
      by_cases htu : t = u
      · simp [firedAt, htu, hu]
      · simp [firedAt, htu, Ne.symm htu]

/-- The timer waits for the call `due` of `run_timer_list`, or was fired by it. -/
def Destined (t due : Nat) (old : List (Nat × Nat)) (c : Clock) : Prop :=
  ∃ xs, Waiting c.timers xs ∧ ∃ new, c.log = new ++ old ∧
    (c.ticks < due ∧ (t, due - c.ticks) ∈ agenda c.timers xs ∧ firedAt t new = [] ∨
      due ≤ c.ticks ∧ t ∉ xs ∧ firedAt t new = [due])

theorem Destined.of_step {due : Nat} {old : List (Nat × Nat)} (h : Destined t due old c)
    (hok : Permitted c a) (hspares : Spares t a)
    (hstep : step c a = some c₁) : Destined t due old c₁ := by
  obtain ⟨xs, hwaiting, new, hlog, hcases⟩ := h
  obtain ⟨xs', hwaiting', heffect⟩ := step_effect hwaiting hok hstep
  have hstay : c₁.ticks = c.ticks → c₁.log = c.log →
      (∀ d, (t, d) ∈ agenda c₁.timers xs' ↔ (t, d) ∈ agenda c.timers xs) →
        Destined t due old c₁ := by
    intro hticks hsame hmem
    refine ⟨xs', hwaiting', new, hsame.trans hlog, ?_⟩
    rw [hticks, hmem]
    apply hcases.imp_right
    rintro ⟨hdue, ht, hfired⟩
    refine ⟨hdue, fun hin => ht ?_, hfired⟩
    obtain ⟨d, hd⟩ := Waiting.exists_of_mem hin
    exact Waiting.key_mem ((hmem d).mp hd)
  cases a with
  | add fuel timer expires proc =>
      obtain ⟨hticks, hsame, hmem⟩ := heffect
      apply hstay hticks hsame
      intro d
      rw [hmem]
      constructor
      · rintro (heq | hin)
        · exact absurd (congrArg Prod.fst heq).symm hspares
        · exact hin
      · exact Or.inr
  | del timer =>
      obtain ⟨hticks, hsame, hmem⟩ := heffect
      apply hstay hticks hsame
      intro d
      rw [hmem]
      exact and_iff_left (Ne.symm hspares)
  | tick fuel =>
      obtain ⟨hticks, ⟨fired, hfired, hnodup, hone⟩, hmem⟩ := heffect
      refine ⟨xs', hwaiting', fired.map (fun timer => (c.ticks + 1, timer)) ++ new, ?_, ?_⟩
      · rw [hfired, hlog, List.append_assoc]
      rw [hticks, firedAt_append, firedAt_map hnodup]
      rcases hcases with ⟨hlt, hwait, hnone⟩ | ⟨hdue, ht, hdone⟩
      · by_cases hnow : due = c.ticks + 1
        · -- this call fires the timer
          have hdelay : due - c.ticks = 1 := by omega
          rw [hdelay] at hwait
          right
          refine ⟨Nat.le_of_eq hnow, ?_, ?_⟩
          · intro hin
            obtain ⟨d, hd⟩ := Waiting.exists_of_mem hin
            obtain ⟨hpos, hd⟩ := (hmem _).mp hd
            have hone := hwaiting.unique hd hwait
            omega
          · rw [if_pos ((hone t).mpr hwait), hnone, hnow]
            rfl
        · have hnotyet : t ∉ fired := by
            intro hin
            have hone := hwaiting.unique ((hone t).mp hin) hwait
            omega
          left
          refine ⟨by omega, (hmem _).mpr ⟨?_, ?_⟩, ?_⟩
          · change 0 < due - (c.ticks + 1)
            omega
          · have hback : due - (c.ticks + 1) + 1 = due - c.ticks := by omega
            rwa [hback]
          · rw [if_neg hnotyet, hnone]
            rfl
      · have hnot : t ∉ fired := fun hin => ht (Waiting.key_mem ((hone t).mp hin))
        right
        refine ⟨Nat.le_succ_of_le hdue, ?_, ?_⟩
        · intro hin
          obtain ⟨d, hd⟩ := Waiting.exists_of_mem hin
          exact ht (Waiting.key_mem ((hmem _).mp hd).2)
        · rw [if_neg hnot, hdone]
          rfl
  | other state waitState =>
      obtain ⟨hticks, hsame, hmem⟩ := heffect
      exact hstay hticks hsame fun d => by rw [hmem]

/-- A timer that is added is destined for the call that it is added for. -/
theorem destined_add {xs : List Nat} (hwaiting : Waiting c.timers xs)
    (hok : Permitted c (.add fuel t expires proc))
    (hadd : step c (.add fuel t expires proc) = some c₁) :
    Destined t (c.ticks + expires) c.log c₁ := by
  obtain ⟨xs', hwaiting', hticks, hlog, hmem⟩ := step_effect hwaiting hok hadd
  have hadded : (t, expires) ∈ agenda c₁.timers xs' := (hmem _).mpr (Or.inl rfl)
  refine ⟨xs', hwaiting', [], hlog, Or.inl ⟨?_, ?_, rfl⟩⟩
  · rw [hticks]
    exact Nat.lt_add_of_pos_right hok.1
  · rwa [hticks, Nat.add_sub_cancel_left]

theorem proc_add (hadd : step c (.add fuel t expires proc) = some c₁) :
    c₁.timers.proc t = some proc := by
  obtain ⟨s', hexec, rfl⟩ := Option.map_eq_some_iff.mp hadd
  obtain ⟨_, hproc⟩ := setTimer_proc.of_exec hexec
  exact (congrFun hproc t).trans (Function.update_self ..)

/-- In a run in which a timer is spared, what was destined stays so. -/
theorem Destined.of_run {due : Nat} {old : List (Nat × Nat)} (h : Destined t due old c)
    (hrun : RunsTo step (fun c a => Permitted c a ∧ Spares t a) c c₁) : Destined t due old c₁ :=
  hrun.invariant h fun _ _ _ hdestined hok hstep => hdestined.of_step hok.1 hok.2 hstep

/-- A timer that is added with `expires` is fired by that call of `run_timer_list` from then
on and by no other, as long as it is not deleted and not added again. It still has its
process, and a call rouses the processes of the timers that it fires and no others. No
assertion about the timers fails, and the loops end. -/
theorem timers_on_time (hstart : Started c₀) (hrun : RunsTo step Permitted c₀ c) :
    (∀ fuel timer expires proc c₁ c₂, Permitted c (.add fuel timer expires proc) →
      step c (.add fuel timer expires proc) = some c₁ →
      RunsTo step (fun c a => Permitted c a ∧ Spares timer a) c₁ c₂ →
      ∃ new, c₂.log = new ++ c.log ∧
        (firedAt timer new = if c.ticks + expires ≤ c₂.ticks then [c.ticks + expires] else []) ∧
        c₂.timers.proc timer = some proc) ∧
    (∀ fuel fired s', runTimerList fuel c.timers = .ok (fired, s') → Awakens c.timers fired s') ∧
    (∀ fuel timer expires proc e, Permitted c (.add fuel timer expires proc) →
      setTimer fuel timer expires proc c.timers = .error e → e = .runaway) ∧
    (∀ timer e, delTimer timer c.timers ≠ .error e) ∧
    (∀ fuel e, runTimerList fuel c.timers = .error e → e = .runaway ∨ Woken e) ∧
    ∃ n, ∀ fuel > n,
      (∀ timer expires proc, Permitted c (.add fuel timer expires proc) →
        (step c (.add fuel timer expires proc)).isSome) ∧
      runTimerList fuel c.timers ≠ .error .runaway := by
  obtain ⟨xs, hwaiting⟩ := run_valid hstart hrun
  have hout : ∀ {fuel timer expires proc}, Permitted c (.add fuel timer expires proc) →
      timer ∉ xs := by
    intro fuel timer expires proc hok hin
    have hidle := hok.2.2
    rw [hwaiting.listed.mem_iff.mp hin] at hidle
    cases hidle
  refine ⟨?_, ?_, ?_, ?_, ?_, xs.length, fun fuel hfuel => ⟨?_, ?_⟩⟩
  · intro fuel timer expires proc c₁ c₂ hok hadd hrest
    have hproc : c₂.timers.proc timer = some proc :=
      hrest.invariant (proc_add hadd) fun _ _ _ hkept hok hstep =>
        (step_proc hok.2 hstep).trans hkept
    obtain ⟨_, _, new, hnew, hcases⟩ := (destined_add hwaiting hok hadd).of_run hrest
    refine ⟨new, hnew, ?_, hproc⟩
    rcases hcases with ⟨hlt, _, hfired⟩ | ⟨hle, _, hfired⟩
    · rw [if_neg (Nat.not_le.mpr hlt), hfired]
    · rw [if_pos hle, hfired]
  · intro fuel fired s' hrun
    have hends : Ends _ (runTimerList fuel) c.timers _ := runTimerList_awakens
    rw [Ends, hrun] at hends
    exact hends
  · intro fuel timer expires proc e hok herror
    have hroom : xs.length < fuel ∨ Stop.runaway = .runaway := Or.inr rfl
    have hends :=
      setTimer_waiting proc hwaiting (hout hok) hok.1 hok.2.1 (E := (· = .runaway)) hroom
    exact hends.of_error herror
  · intro timer e herror
    exact (delTimer_waiting hwaiting (E := never)).of_error herror
  · intro fuel e herror
    have hroom : xs.length < fuel ∨ (Stop.runaway = .runaway ∨ Woken .runaway) :=
      Or.inr (Or.inl rfl)
    have hends :=
      runTimerList_waiting hwaiting (E := fun e => e = .runaway ∨ Woken e) hroom fun _ => Or.inr
    exact hends.of_error herror
  · intro timer expires proc hok
    have hends := setTimer_waiting proc hwaiting (hout hok) hok.1 hok.2.1 (E := never)
      (Or.inl hfuel)
    obtain ⟨s', hexec⟩ := hends.exec_some
    rw [step, hexec]
    rfl
  · intro herror
    have hends := runTimerList_waiting hwaiting (E := Woken) (Or.inl hfuel) fun _ => id
    exact hends.of_error herror

/-- Timers that nobody has used. -/
def noTimers : Clock where
  timers := {
    link := ⟨id, id⟩
    expires := fun _ => 0
    proc := fun _ => none
    state := fun _ => .sleeping
    waitState := fun _ => WT_INTERRUPTED }
  ticks := 0
  log := []

/-- Another timer with the same deadline; one before both of them is deleted. -/
def sameDeadline : List Action := [.add 9 2 2 8, .add 9 3 1 9, .del 3, .tick 9]

/-- At the second tick the timer fires, and its process runs again. -/
theorem timers_on_time_sameDeadline : ∃ (c c' : Clock) (new : List (Nat × Nat)),
    c.timers.state 7 = .sleeping ∧ c.timers.waitState 7 = WT_INTERRUPTED ∧
      step c (.tick 9) = some c' ∧
    c'.log = new ++ [] ∧ (firedAt 1 new = if 0 + 2 ≤ c'.ticks then [0 + 2] else []) ∧
    c'.timers.state 7 = .runnable ∧ c'.timers.waitState 7 = 0 := by
  have hstarted : Started noTimers :=
    ⟨Links.ring_nil_iff.mpr ⟨rfl, rfl⟩, fun _ => by simp [Links.listEmpty, noTimers]⟩
  have hfold : ((step noTimers (.add 9 1 2 7)).bind fun c₁ => sameDeadline.foldlM
      (fun c a => if Permitted c a ∧ Spares 1 a then step c a else none) c₁).map
        (fun c => (c.timers.state 7, c.timers.waitState 7, c.timers.proc 1,
          result (runTimerList 9) c.timers)) =
          some (.sleeping, WT_INTERRUPTED, some 7, some [1, 2]) := by
    decide
  obtain ⟨c, hrun, hvalues⟩ := Option.map_eq_some_iff.mp hfold
  simp only [Prod.mk.injEq] at hvalues
  obtain ⟨hstate, hwait, hproc, hresult⟩ := hvalues
  obtain ⟨c₁, hadd, hrest⟩ := Option.bind_eq_some_iff.mp hrun
  obtain ⟨s', hfired⟩ := of_result hresult
  have hrest := RunsTo.of_foldlM hrest
  have hstep : step c (.tick 9) =
      some ⟨s', c.ticks + 1, [1, 2].map (fun timer => (c.ticks + 1, timer)) ++ c.log⟩ := by
    rw [step, hfired]
  have hok : Permitted c (.tick 9) ∧ Spares 1 (.tick 9) := ⟨trivial, trivial⟩
  obtain ⟨new, hlog, hnew, _⟩ :=
    (timers_on_time hstarted .refl).1 9 1 2 7 c₁ _ (by decide) hadd (hrest.tail hok hstep)
  have hpermitted : RunsTo step Permitted noTimers c :=
    (RunsTo.refl.tail (by decide : Permitted noTimers (.add 9 1 2 7)) hadd).trans
      (hrest.mono fun _ _ hok => hok.1)
  have hawakens := (timers_on_time hstarted hpermitted).2.1 9 [1, 2] s' hfired
  obtain ⟨proc, htimer, hroused⟩ := hawakens.roused 1 List.mem_cons_self
  obtain rfl := Option.some.inj (hproc.symm.trans htimer)
  refine ⟨c, _, new, hstate, hwait, hstep, hlog, hnew, hroused.state, ?_⟩
  rw [hroused.waitState, hstate]
  rfl

end Ucore.Schedule
