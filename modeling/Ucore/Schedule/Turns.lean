import Ucore.Foundation.Counted
import Ucore.Schedule.RunQueue

/-!
# Turns and time slices

`RR_proc_tick` takes a tick from the time slice of the current process, and asks for
`schedule` when nothing is left of it. Ticks that come while `schedule` has been asked for and
has not been called yet do not count: the kernel is not preempted. The processes on the run
queue are picked in their order, each after at most `MAX_TIME_SLICE` ticks for every process
before it and for the one that runs.
-/

namespace Ucore.Schedule.RunQueue

open Machine Process

/-- The processes that have been put on the run queue and not been picked. -/
def waiting (s : Sched) : List Nat := s.enqueued.drop s.picked.length

/-- Ticks until the current process is asked to call `schedule`. -/
def ticksLeft (s : Sched) : Nat :=
  if s.needResched s.current then 0
  else if s.current = s.idleproc then 1
  else max 1 (s.timeSlice s.current).toNat

/-- Ticks that find no call of `schedule` asked for. -/
def timed (s : Sched) : Event → Nat
  | .tick => if s.needResched s.current then 0 else 1
  | _ => 0

/-- No process has more than a full time slice. -/
structure Sliced (s : Sched) : Prop where
  max : s.maxTimeSlice = MAX_TIME_SLICE
  nonneg : ∀ p, 0 ≤ s.timeSlice p
  waiting : ∀ p ∈ waiting s, s.timeSlice p ≤ MAX_TIME_SLICE
  running : s.current ≠ s.idleproc → s.timeSlice s.current ≤ MAX_TIME_SLICE

/-- The time that is left to the current process, and what has been picked, are as they were;
others may have come to the run queue. -/
structure SameTurn (s t : Sched) : Prop where
  current : t.current = s.current
  idleproc : t.idleproc = s.idleproc
  needResched : t.needResched s.current = s.needResched s.current
  timeSlice : t.timeSlice s.current = s.timeSlice s.current
  picked : t.picked = s.picked
  enqueued : s.enqueued <+: t.enqueued

variable {s t : Sched} {queue : List Nat} {p : Nat} {E : Stop → Prop}

theorem Linked.waiting (h : Linked s queue) : waiting s = queue := by
  rw [RunQueue.waiting, h.fifo, List.drop_left]

theorem SameTurn.refl (s : Sched) : SameTurn s s := ⟨rfl, rfl, rfl, rfl, rfl, List.prefix_refl _⟩

theorem SameTurn.ticksLeft (h : SameTurn s t) : ticksLeft t = ticksLeft s := by
  rw [RunQueue.ticksLeft, RunQueue.ticksLeft, h.current, h.idleproc, h.needResched, h.timeSlice]

theorem Sliced.ticksLeft_le (h : Sliced s) : ticksLeft s ≤ MAX_TIME_SLICE.toNat := by
  rw [ticksLeft]
  split
  · exact Nat.zero_le _
  · split
    · decide
    case isFalse hidle =>
      have hle := Int.toNat_le_toNat (h.running hidle)
      exact Nat.max_le.mpr ⟨by decide, hle⟩

/-- Time is as it was, for all that `Sliced` says. -/
theorem Sliced.congr (h : Sliced s) (hmax : t.maxTimeSlice = s.maxTimeSlice)
    (hslice : t.timeSlice = s.timeSlice)
    (hpicked : t.picked = s.picked) (henqueued : t.enqueued = s.enqueued)
    (hcurrent : t.current = s.current)
    (hidle : t.idleproc = s.idleproc) : Sliced t := by
  refine ⟨hmax.trans h.max, ?_, ?_, ?_⟩
  · rw [hslice]
    exact h.nonneg
  · rw [RunQueue.waiting, henqueued, hpicked, hslice]
    exact h.waiting
  · rw [hcurrent, hidle, hslice]
    exact h.running

/-! ## The run queue -/

/-- The time slice that `RR_enqueue` leaves. -/
def refill (s : Sched) (proc : Nat) : Int :=
  if s.timeSlice proc = 0 ∨ s.maxTimeSlice < s.timeSlice proc then s.maxTimeSlice
  else s.timeSlice proc

theorem refill_bounds (h : Sliced s) (p : Nat) : 0 ≤ refill s p ∧ refill s p ≤ MAX_TIME_SLICE := by
  have hnonneg := h.nonneg p
  unfold refill
  rw [h.max]
  split
  case isTrue => exact ⟨by decide, Int.le_refl _⟩
  case isFalse hkeeps => exact ⟨hnonneg, Int.not_lt.mp fun hlt => hkeeps (.inr hlt)⟩

/-- What a process on the run queue brings with it. -/
structure Came (p : Nat) (s t : Sched) : Prop where
  timeSlice : t.timeSlice = Function.update s.timeSlice p (refill s p)
  enqueued : t.enqueued = s.enqueued ++ [p]
  picked : t.picked = s.picked
  needResched : t.needResched = s.needResched
  max : t.maxTimeSlice = s.maxTimeSlice
  current : t.current = s.current
  idleproc : t.idleproc = s.idleproc

theorem rrEnqueue_came (p : Nat) : Ends (fun _ => True) (rrEnqueue p) s fun _ t => Came p s t := by
  rw [rrEnqueue, ends_bind, ends_get, ends_bind, ends_check_of trivial]
  intro _
  rw [ends_modify]
  refine ⟨?_, rfl, rfl, rfl, rfl, rfl, rfl⟩
  change (if _ then _ else _) = Function.update s.timeSlice p (if _ then _ else _)
  split
  · rfl
  · rw [Function.update_eq_self]

/-- A process comes to the run queue, or is `idleproc` and does not. -/
theorem enqueue_came (p : Nat) : Ends (fun _ => True) (schedClassEnqueue p) s fun _ t =>
    (p ≠ s.idleproc ∧ Came p s t) ∨ (p = s.idleproc ∧ t = s) := by
  rw [schedClassEnqueue, ends_bind, ends_get]
  split
  case isTrue hne => exact (rrEnqueue_came p).imp fun _ _ hcame => .inl ⟨hne, hcame⟩
  case isFalse hidle => exact .inr ⟨not_not.mp hidle, rfl⟩

namespace Came

theorem waiting (h : Came p s t) (hle : s.picked.length ≤ s.enqueued.length) :
    waiting t = waiting s ++ [p] := by
  rw [RunQueue.waiting, h.enqueued, h.picked, List.drop_append_of_le_length hle]
  rfl

theorem sliced (h : Came p s t) (hle : s.picked.length ≤ s.enqueued.length) (hs : Sliced s) :
    Sliced t := by
  have hbounds := refill_bounds hs p
  have hslice : ∀ q, (q ≠ p → s.timeSlice q ≤ MAX_TIME_SLICE) → t.timeSlice q ≤ MAX_TIME_SLICE := by
    intro q hq
    rw [h.timeSlice]
    by_cases hqp : q = p
    · rw [hqp, Function.update_self]
      exact hbounds.2
    · rw [Function.update_of_ne hqp]
      exact hq hqp
  refine ⟨h.max.trans hs.max, ?_, ?_, ?_⟩
  · intro q
    rw [h.timeSlice]
    by_cases hqp : q = p
    · rw [hqp, Function.update_self]
      exact hbounds.1
    · rw [Function.update_of_ne hqp]
      exact hs.nonneg q
  · intro q hq
    rw [h.waiting hle, List.mem_append, List.mem_singleton] at hq
    exact hslice q fun hne => hs.waiting q (hq.resolve_right hne)
  · intro hidle
    rw [h.current, h.idleproc] at hidle
    rw [h.current]
    exact hslice s.current fun _ => hs.running hidle

theorem sameTurn (h : Came p s t) (hne : p ≠ s.current) : SameTurn s t where
  current := h.current
  idleproc := h.idleproc
  needResched := by rw [h.needResched]
  timeSlice := by rw [h.timeSlice, Function.update_of_ne hne.symm]
  picked := h.picked
  enqueued := by
    rw [h.enqueued]
    exact List.prefix_append _ _

end Came

theorem Linked.picked_le (h : Linked s queue) : s.picked.length ≤ s.enqueued.length := by
  rw [h.fifo, List.length_append]
  exact Nat.le_add_right _ _

/-- Waking a process leaves the turn to the current one. -/
theorem wakeupProc_turn (h : Linked s queue) (hs : Sliced s) (p : Nat) :
    Ends (fun _ => True) (wakeupProc p) s fun _ t => Sliced t ∧ SameTurn s t := by
  rw [wakeupProc, ends_bind, ends_get, ends_bind, ends_check_of trivial]
  intro _
  split
  case isFalse => exact ⟨hs, .refl s⟩
  case isTrue =>
    rw [ends_bind, ends_modify]
    set s₁ : Sched := { s with
      state := Function.update s.state p .runnable
      waitState := Function.update s.waitState p 0 } with hs₁
    have hsliced : Sliced s₁ := hs.congr rfl rfl rfl rfl rfl rfl
    have hsame₁ : SameTurn s s₁ := ⟨rfl, rfl, rfl, rfl, rfl, List.prefix_refl _⟩
    split
    case isFalse => exact ⟨hsliced, hsame₁⟩
    case isTrue hne =>
      apply (enqueue_came p).imp
      rintro _ t (⟨_, hcame⟩ | ⟨_, rfl⟩)
      · have hsame := hcame.sameTurn hne
        exact ⟨hcame.sliced h.picked_le hsliced, hsame.current, hsame.idleproc, hsame.needResched,
          hsame.timeSlice, hsame.picked, hsame.enqueued⟩
      · exact ⟨hsliced, hsame₁⟩

/-! ## The next process -/

/-- What taking the next process off the run queue leaves alone. -/
theorem takeNext_kept : Ends (fun _ => True) takeNext s fun _ t =>
    t.timeSlice = s.timeSlice ∧ t.maxTimeSlice = s.maxTimeSlice ∧ t.enqueued = s.enqueued := by
  rw [takeNext, rrPickNext, ends_bind, ends_bind, ends_get]
  cases s.link.next .runList with
  | runList => exact ⟨rfl, rfl, rfl⟩
  | runLink p =>
      change Ends _ (do rrDequeue p; return p) { s with picked := s.picked ++ [p] } _
      rw [rrDequeue, ends_bind, ends_bind, ends_get, ends_bind, ends_check_of trivial]
      intro _
      exact ⟨rfl, rfl, rfl⟩

/-- The current process has gone to the run queue, or has not. -/
theorem putBack_turn (h : Linked s queue) (hs : Sliced s) :
    Ends (fun _ => True) putBack s fun _ t =>
      Sliced t ∧ t.picked = s.picked ∧ s.enqueued <+: t.enqueued := by
  rw [putBack, ends_bind, ends_get]
  split
  case isTrue =>
    apply (enqueue_came s.current).imp
    rintro _ t (⟨_, hcame⟩ | ⟨_, rfl⟩)
    · refine ⟨hcame.sliced h.picked_le hs, hcame.picked, ?_⟩
      rw [hcame.enqueued]
      exact List.prefix_append _ _
    · exact ⟨hs, rfl, List.prefix_refl _⟩
  case isFalse => exact ⟨hs, rfl, List.prefix_refl _⟩

/-- The next process has a time slice, and the others wait on. -/
theorem Sliced.next {next : Nat} (hs : Sliced s) (h : Linked s queue) (h' : Linked t queue.tail)
    (hnext : next = queue.head?.getD s.idleproc) (hsame : Same s t)
    (hslice : t.timeSlice = s.timeSlice)
    (hmax : t.maxTimeSlice = s.maxTimeSlice) : Sliced { t with current := next } := by
  have hwaiting : ∀ q ∈ queue, s.timeSlice q ≤ MAX_TIME_SLICE := by
    intro q hq
    exact hs.waiting q (h.waiting.symm ▸ hq)
  refine ⟨hmax.trans hs.max, ?_, ?_, ?_⟩
  · intro q
    change 0 ≤ t.timeSlice q
    rw [hslice]
    exact hs.nonneg q
  · intro q hq
    have hq' : q ∈ RunQueue.waiting t := hq
    rw [h'.waiting] at hq'
    change t.timeSlice q ≤ _
    rw [hslice]
    exact hwaiting q (List.mem_of_mem_tail hq')
  · intro hidle
    change t.timeSlice next ≤ _
    rw [hslice]
    cases queue with
    | nil => exact absurd (hnext.trans hsame.idleproc.symm) hidle
    | cons first rest =>
        obtain rfl : next = first := hnext
        exact hwaiting next List.mem_cons_self

/-- `schedule` picks the first process, unless nobody waits. -/
theorem schedule_turn (h : Inv s queue) (hs : Sliced s) :
    Ends (fun _ => True) schedule s fun _ t => Sliced t ∧ s.enqueued <+: t.enqueued ∧
      s.picked.length ≤ t.picked.length ∧ (queue = [] ∨ t.picked.length = s.picked.length + 1) := by
  set s₀ : Sched := { s with needResched := Function.update s.needResched s.current false } with hs₀
  have hsame₀ : Same s s₀ := ⟨rfl, rfl, rfl, rfl, rfl⟩
  have h₀ : Inv s₀ queue := h.congr (h.linked.congr hsame₀ rfl rfl rfl rfl rfl) hsame₀
  have hsliced₀ : Sliced s₀ := hs.congr rfl rfl rfl rfl rfl rfl
  rw [schedule, ends_bind, ends_modify, ends_bind]
  apply (h₀.putBack_spec.and (putBack_turn h₀.linked hsliced₀)).imp
  intro _ s₁ hall
  obtain ⟨⟨hlinked₁, hsame₁⟩, hsliced₁, hpicked₁, henqueued₁⟩ := hall
  rw [ends_bind]
  apply ((takeNext_spec hlinked₁).and takeNext_kept).imp
  intro next s₂ hall
  obtain ⟨⟨hnext, hlinked₂, hsame₂⟩, hslice₂, hmax₂, henqueued₂⟩ := hall
  have hsliced := hsliced₁.next hlinked₁ hlinked₂ hnext hsame₂ hslice₂ hmax₂
  have hlonger : s.enqueued <+: s₂.enqueued := henqueued₂ ▸ henqueued₁
  have hlength : s₂.picked.length + (Inv.joined s₀ queue).length.pred = s.picked.length +
      (Inv.joined s₀ queue).length := by
    have hlength₁ := congrArg List.length hlinked₁.fifo
    have hlength₂ := congrArg List.length hlinked₂.fifo
    rw [List.length_append, hpicked₁] at hlength₁
    rw [henqueued₂, List.length_append, List.length_tail] at hlength₂
    exact hlength₂.symm.trans hlength₁
  have hpicked : s.picked.length ≤ s₂.picked.length ∧
      (queue = [] ∨ s₂.picked.length = s.picked.length + 1) := by
    refine ⟨?_, ?_⟩
    · have hpred := Nat.pred_le (Inv.joined s₀ queue).length
      omega
    cases queue with
    | nil => exact .inl rfl
    | cons first rest =>
        -- the current process joins behind those who wait
        have hjoined : (first :: rest).length ≤ (Inv.joined s₀ (first :: rest)).length := by
          unfold Inv.joined
          split
          · rw [List.length_append]
            exact Nat.le_add_right _ _
          · exact Nat.le_refl _
        rw [List.length_cons] at hjoined
        rw [Nat.pred_eq_sub_one] at hlength
        right
        omega
  rw [ends_bind, ends_get]
  split
  case isTrue => exact ⟨hsliced, hlonger, hpicked⟩
  case isFalse hstays =>
    rw [not_not.mp hstays] at hsliced
    exact ⟨hsliced, hlonger, hpicked⟩

/-! ## Ticks -/

/-- The current process after a tick, when it is not `idleproc`. -/
theorem rrProcTick_turn (p : Nat) : Ends (fun _ => True) (rrProcTick p) s fun _ t =>
    t.timeSlice = Function.update s.timeSlice p
      (if 0 < s.timeSlice p then s.timeSlice p - 1 else s.timeSlice p) ∧
      (t.timeSlice p = 0 → t.needResched p = true) ∧
        (t.timeSlice p ≠ 0 → t.needResched p = s.needResched p) ∧
      t.maxTimeSlice = s.maxTimeSlice ∧ t.picked = s.picked ∧ t.enqueued = s.enqueued ∧
      t.current = s.current ∧ t.idleproc = s.idleproc := by
  rw [rrProcTick, ends_bind, ends_modify, ends_modify]
  obtain ⟨slice, hslice⟩ :
      ∃ slice, slice = if 0 < s.timeSlice p then s.timeSlice p - 1 else s.timeSlice p := ⟨_, rfl⟩
  have hticked : (if 0 < s.timeSlice p then
      { s with timeSlice := Function.update s.timeSlice p (s.timeSlice p - 1) } else s) =
      { s with timeSlice := Function.update s.timeSlice p slice } := by
    rw [hslice]
    split
    · rfl
    · rw [Function.update_eq_self]
  rw [hticked, ← hslice]
  split
  case isTrue hzero =>
    exact ⟨rfl, fun _ => Function.update_self _ _ _, fun hne => absurd hzero hne, rfl,
      rfl, rfl, rfl, rfl⟩
  case isFalse hne =>
    exact ⟨rfl, fun hzero => absurd hzero hne, fun _ => rfl, rfl, rfl, rfl, rfl, rfl⟩

/-- A tick is taken from the time of the current process, if `schedule` is not asked for. -/
theorem schedClassProcTick_turn (hs : Sliced s) :
    Ends (fun _ => True) (schedClassProcTick s.current) s fun _ t =>
      Sliced t ∧ t.picked = s.picked ∧ t.enqueued = s.enqueued ∧
        ticksLeft t + timed s .tick ≤ ticksLeft s := by
  rw [schedClassProcTick, ends_bind, ends_get]
  split
  case isFalse hidle =>
    rw [ends_modify]
    refine ⟨hs.congr rfl rfl rfl rfl rfl rfl, rfl, rfl, ?_⟩
    rw [ticksLeft, if_pos (Function.update_self _ _ _), timed, ticksLeft, if_pos (not_not.mp hidle),
      Nat.zero_add]
  case isTrue hne =>
    apply (rrProcTick_turn s.current).imp
    intro _ t hall
    obtain ⟨hslice, hzero, hmore, hmax, hpicked, henqueued, hcurrent, hidle⟩ := hall
    have hnonneg := hs.nonneg s.current
    have hself : t.timeSlice s.current =
        if 0 < s.timeSlice s.current then s.timeSlice s.current - 1 else s.timeSlice s.current := by
      rw [hslice, Function.update_self]
    have hother : ∀ q, q ≠ s.current → t.timeSlice q = s.timeSlice q := by
      intro q hq
      rw [hslice, Function.update_of_ne hq]
    have hbetween : 0 ≤ t.timeSlice s.current ∧ t.timeSlice s.current ≤ s.timeSlice s.current := by
      rw [hself]
      split <;> omega
    have hless : ∀ q, 0 ≤ t.timeSlice q ∧ t.timeSlice q ≤ s.timeSlice q := by
      intro q
      by_cases hq : q = s.current
      · rw [hq]
        exact hbetween
      · rw [hother q hq]
        exact ⟨hs.nonneg q, Int.le_refl _⟩
    refine ⟨⟨hmax.trans hs.max, fun q => (hless q).1, ?_, ?_⟩, hpicked, henqueued, ?_⟩
    · intro q hq
      rw [waiting, henqueued, hpicked] at hq
      exact (hless q).2.trans (hs.waiting q hq)
    · intro hidle'
      rw [hcurrent]
      exact (hless s.current).2.trans (hs.running hne)
    · rw [ticksLeft, ticksLeft, timed, hcurrent, hidle, if_neg hne, if_neg hne]
      by_cases hout : t.timeSlice s.current = 0
      · rw [if_pos (hzero hout), Nat.zero_add]
        split
        · exact Nat.le_refl _
        · exact Nat.le_max_left _ _
      · rw [hmore hout]
        split
        · exact Nat.le_refl _
        · by_cases hpos : 0 < s.timeSlice s.current
          · rw [hself, if_pos hpos] at hout ⊢
            omega
          · rw [hself, if_neg hpos] at hout
            omega

/-! ## Turns -/

/-- The events that do not schedule leave the turn to the current process, but for ticks. -/
theorem act_turn (h : Inv s queue) (hs : Sliced s) (event : Event) :
    Ends (fun _ => True) (act event) s fun _ t => Sliced t ∧ s.enqueued <+: t.enqueued ∧
      ((t.picked = s.picked ∧ ticksLeft t + timed s event ≤ ticksLeft s) ∨
        (timed s event = 0 ∧ s.picked.length ≤ t.picked.length ∧
          (queue = [] ∨ t.picked.length = s.picked.length + 1))) := by
  have hstays : ∀ t, SameTurn s t → Sliced t → timed s event = 0 →
      Sliced t ∧ s.enqueued <+: t.enqueued ∧
        ((t.picked = s.picked ∧ ticksLeft t + timed s event ≤ ticksLeft s) ∨
          (timed s event = 0 ∧ s.picked.length ≤ t.picked.length ∧
            (queue = [] ∨ t.picked.length = s.picked.length + 1))) := by
    intro t hsame hsliced hnone
    refine ⟨hsliced, hsame.enqueued, .inl ⟨hsame.picked, ?_⟩⟩
    rw [hnone, hsame.ticksLeft]
    exact Nat.le_refl _
  cases event with
  | create p =>
      exact hstays _ ⟨rfl, rfl, rfl, rfl, rfl, List.prefix_refl _⟩
        (hs.congr rfl rfl rfl rfl rfl rfl) rfl
  | wakeup p => exact (wakeupProc_turn h.linked hs p).imp fun _ t ht => hstays t ht.2 ht.1 rfl
  | sleep waitState =>
      exact hstays _ ⟨rfl, rfl, rfl, rfl, rfl, List.prefix_refl _⟩
        (hs.congr rfl rfl rfl rfl rfl rfl) rfl
  | exit =>
      rw [act, ends_bind, ends_get, ends_bind, ends_check_of trivial]
      intro _
      exact hstays _ ⟨rfl, rfl, rfl, rfl, rfl, List.prefix_refl _⟩
        (hs.congr rfl rfl rfl rfl rfl rfl) rfl
  | schedule => exact (schedule_turn h hs).imp fun _ t ht => ⟨ht.1, ht.2.1, .inr ⟨rfl, ht.2.2⟩⟩
  | tick =>
      apply (schedClassProcTick_turn hs).imp
      intro _ t hall
      obtain ⟨hsliced, hpicked, henqueued, hless⟩ := hall
      exact ⟨hsliced, henqueued ▸ List.prefix_refl _, .inl ⟨hpicked, hless⟩⟩
  | free p =>
      exact hstays _ ⟨rfl, rfl, rfl, rfl, rfl, List.prefix_refl _⟩
        (hs.congr rfl rfl rfl rfl rfl rfl) rfl

/-- The run queue is in order and nobody has more than a full time slice. -/
def Orderly (s : Sched) : Prop := (∃ queue, Inv s queue) ∧ Sliced s

theorem Orderly.of_initial {raw : Sched} (hraw : ∀ p, 0 ≤ raw.timeSlice p) (idleproc : Nat) :
    Orderly (.initial raw idleproc) := by
  refine ⟨⟨[], Inv.of_initial raw idleproc⟩, rfl, hraw, ?_, ?_⟩
  · intro p hp
    cases hp
  · intro hidle
    exact absurd rfl hidle

/-- One step, and what it does to the turns. -/
theorem Orderly.step_turn (h : Orderly s) {event : Event} (hok : Permitted s event)
    (hstep : step s event = some t) :
    Orderly t ∧ s.enqueued <+: t.enqueued ∧
      ((t.picked = s.picked ∧ ticksLeft t + timed s event ≤ ticksLeft s) ∨
        (timed s event = 0 ∧ s.picked.length ≤ t.picked.length ∧
          (s.enqueued.length ≤ s.picked.length ∨ t.picked.length = s.picked.length + 1))) := by
  obtain ⟨⟨queue, hinv⟩, hsliced⟩ := h
  obtain ⟨_, hqueue⟩ := (hinv.of_act hok).of_exec hstep
  obtain ⟨_, hsliced', hlonger, hturn⟩ := (act_turn hinv hsliced event).of_exec hstep
  refine ⟨⟨hqueue, hsliced'⟩, hlonger, hturn.imp_right ?_⟩
  intro hall
  obtain ⟨hnone, hle, hpicked⟩ := hall
  refine ⟨hnone, hle, hpicked.imp_left ?_⟩
  intro hempty
  rw [hinv.linked.fifo, hempty, List.append_nil]

theorem Orderly.of_run {raw : Sched} (hraw : ∀ p, 0 ≤ raw.timeSlice p) {idleproc : Nat}
    (hrun : RunsTo step Permitted (.initial raw idleproc) s) : Orderly s :=
  hrun.invariant (.of_initial hraw idleproc) fun _ _ _ h hok hstep => (h.step_turn hok hstep).1

/-- As many processes of those on the run queue have been picked as the ticks allow. -/
theorem Orderly.picked_count (h : Orderly s) {n : Nat}
    (hmore : CountsTo step Permitted timed s n t) :
    (Orderly t ∧ s.enqueued <+: t.enqueued) ∧ (s.enqueued.length ≤ t.picked.length ∨
      n + ticksLeft t + MAX_TIME_SLICE.toNat * s.picked.length ≤
        ticksLeft s + MAX_TIME_SLICE.toNat * t.picked.length) := by
  apply @CountsTo.paced _ _ step Permitted timed s t n (fun u => Orderly u ∧
    s.enqueued <+: u.enqueued)
    (fun u => s.enqueued.length ≤ u.picked.length) (fun u => u.picked.length) ticksLeft _ hmore
    ⟨h, List.prefix_refl _⟩
  intro u event v hall hok hstep
  obtain ⟨hu, hlonger⟩ := hall
  obtain ⟨hv, hgrows, hturn⟩ := hu.step_turn hok hstep
  refine ⟨⟨hv, hlonger.trans hgrows⟩, ?_, ?_⟩
  · intro hdone
    rcases hturn with ⟨hsame, _⟩ | ⟨_, hle, _⟩
    · rwa [hsame]
    · exact hdone.trans hle
  · rcases hturn with ⟨hsame, hless⟩ | ⟨hnone, hle, hempty | hnext⟩
    · exact .uses (by rw [hsame]) hless
    · exact .ends ((hlonger.length_le.trans hempty).trans hle)
    · exact .moves hnext hnone hv.2.ticksLeft_le

/-- Whatever happens, the first `m` processes of the run queue have been picked, in their
order, once more than `MAX_TIME_SLICE` times `m` ticks have come that found no call of
`schedule` asked for. -/
theorem picked_in_turn {raw : Sched} (hraw : ∀ p, 0 ≤ raw.timeSlice p) {idleproc : Nat}
    (hrun : RunsTo step Permitted (.initial raw idleproc) s) {n : Nat}
    (hmore : CountsTo step Permitted timed s n t) {m : Nat} (hm : m ≤ (waiting s).length)
    (hlong : MAX_TIME_SLICE.toNat * m < n) : (waiting s).take m <+: t.picked.drop
      s.picked.length := by
  have hs := Orderly.of_run hraw hrun
  obtain ⟨⟨ht, hlonger⟩, hcount⟩ := hs.picked_count hmore
  have hleft := hs.2.ticksLeft_le
  obtain ⟨⟨queue, hinv⟩, _⟩ := hs
  obtain ⟨⟨queue', hinv'⟩, _⟩ := ht
  rw [hinv.linked.waiting] at hm ⊢
  have hfifo := hinv.linked.fifo
  have hfirst : s.picked ++ queue.take m <+: t.enqueued := by
    refine List.IsPrefix.trans ?_ hlonger
    rw [hfifo, List.prefix_append_right_inj]
    exact List.take_prefix m queue
  have hlength : (s.picked ++ queue.take m).length ≤ t.picked.length := by
    rw [List.length_append, List.length_take, Nat.min_eq_left hm]
    rcases hcount with hall | hcount
    · rw [hfifo, List.length_append] at hall
      omega
    · by_contra hshort
      have hmul :=
        Nat.mul_le_mul_left MAX_TIME_SLICE.toNat (Nat.succ_le_of_lt (Nat.lt_of_not_le hshort))
      rw [Nat.mul_succ, Nat.mul_add] at hmul
      omega
  have hpicked : t.picked <+: t.enqueued := by
    rw [hinv'.linked.fifo]
    exact List.prefix_append _ _
  obtain ⟨rest, hrest⟩ := List.prefix_of_prefix_length_le hfirst hpicked hlength
  rw [← hrest, List.append_assoc, List.drop_left]
  exact List.prefix_append _ _

/-- Two processes wait for `idleproc` and have had their time slices after eleven ticks. -/
def twoTurns : List Event :=
  let slice := [.schedule, .tick, .tick, .tick, .tick, .tick]
  .tick :: (slice ++ slice)

theorem twoTurns_counts : ∃ s t, RunsTo step Permitted (.initial rawSched 0) s ∧
    waiting s = [2, 1] ∧ CountsTo step Permitted timed s 11 t := by
  have hfold : (([.create 1, .create 2, .wakeup 2, .wakeup 1].foldlM
      (fun s event => if Permitted s event then step s event else none) (.initial rawSched 0)).bind
      fun s => (twoTurns.foldlM (fun r event => if Permitted r.2 event then
        (step r.2 event).map fun u => (r.1 + timed r.2 event, u) else none) (0, s)).map
          fun r => (waiting s, r.1)) = some ([2, 1], 11) := by
    decide +kernel
  obtain ⟨s, hrun, hrest⟩ := Option.bind_eq_some_iff.mp hfold
  obtain ⟨⟨n, t⟩, hmore, hpair⟩ := Option.map_eq_some_iff.mp hrest
  obtain ⟨hwaiting, rfl⟩ := Prod.mk.inj hpair
  exact ⟨s, t, RunsTo.of_foldlM hrun, hwaiting, CountsTo.of_foldlM hmore⟩

/-- They are picked in the order in which they were woken. -/
theorem picked_in_turn_two : ∃ s t, RunsTo step Permitted (.initial rawSched 0) s ∧
    waiting s = [2, 1] ∧ CountsTo step Permitted timed s 11 t ∧
      [2, 1] <+: t.picked.drop s.picked.length := by
  obtain ⟨s, t, hrun, hwaiting, hmore⟩ := twoTurns_counts
  have hpicked := picked_in_turn (fun _ => Int.le_refl 0) hrun hmore (m := 2)
    (by rw [hwaiting]; exact Nat.le_refl 2) (by decide)
  rw [hwaiting] at hpicked
  exact ⟨s, t, hrun, hwaiting, hmore, hpicked⟩

end Ucore.Schedule.RunQueue
