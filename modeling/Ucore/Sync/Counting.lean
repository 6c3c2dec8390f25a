import Ucore.Foundation.Runs
import Ucore.Sync.Sem

/-!
# Counting

A unit of a semaphore is in its value, or was handed to a waiter that has not run since.
`up` hands it to the first waiter, so that the value is zero while somebody waits.
-/

namespace Ucore.Sync

open Machine Process Links

/-- The process waits for the semaphore. -/
structure Waits (s : Sem) (p : Nat) : Prop where
  proc : s.proc p = some p
  waitQueue : s.waitQueue p = true
  state : s.state p = .sleeping
  waitState : s.waitState p = WT_KSEM

/-- The process has been woken by `up` and has not run since: it is off the queue, runnable, and
finds `WT_KSEM` among its flags. -/
structure Woken (s : Sem) (p : Nat) : Prop where
  idle : s.link.listEmpty (.waitLink p) = true
  flags : s.wakeupFlags p = WT_KSEM
  state : s.state p = .runnable

/-- The processes `queue` wait, in this order; the other ones in `down` have been woken. -/
structure Queued (s : Sem) (inside : Finset Nat) (queue : List Nat) : Prop where
  ring : s.link.Ring .waitHead (queue.map .waitLink)
  subset : ∀ p ∈ queue, p ∈ inside
  waits : ∀ p ∈ queue, Waits s p
  woken : ∀ p ∈ inside, p ∉ queue → Woken s p

variable {s s' : Sem} {inside : Finset Nat} {queue : List Nat} {p : Nat} {E : Failed → Prop}

namespace Queued

theorem nodup (h : Queued s inside queue) : queue.Nodup :=
  List.Nodup.of_map _ (List.nodup_cons.mp h.ring.nodup).2

theorem waitQueueFirst_eq (h : Queued s inside queue) : waitQueueFirst s = queue.head? := by
  cases queue with
  | nil =>
      have hnext : s.link.next .waitHead = .waitHead := (ring_nil_iff.mp h.ring).1
      rw [waitQueueFirst, hnext]
      rfl
  | cons p rest =>
      have hnext : s.link.next .waitHead = .waitLink p := h.ring.joined_first.1
      rw [waitQueueFirst, hnext]
      rfl

/-- A waiter is linked. -/
theorem linked (h : Queued s inside queue) (hp : p ∈ queue) :
    s.link.listEmpty (.waitLink p) = false := by
  obtain ⟨front, rest, rfl⟩ := List.append_of_mem hp
  have hring := h.ring
  rw [List.map_append, List.map_cons] at hring
  have hrotate := hring.rotate
  rw [hrotate.listEmpty_eq]
  simp

/-- The fields of links and waits stay, and those of the processes in `down`. -/
theorem congr (h : Queued s inside queue) (hlink : s'.link = s.link) (hproc : s'.proc = s.proc)
    (hqueue : s'.waitQueue = s.waitQueue) (hflags : s'.wakeupFlags = s.wakeupFlags)
    (hstate : ∀ p ∈ inside, s'.state p = s.state p ∧ s'.waitState p = s.waitState p) :
    Queued s' inside queue where
  ring := hlink ▸ h.ring
  subset := h.subset
  waits p hp := by
    obtain ⟨hs, hw⟩ := hstate p (h.subset p hp)
    have hwaits := h.waits p hp
    exact ⟨hproc ▸ hwaits.proc, hqueue ▸ hwaits.waitQueue, hs.trans hwaits.state,
      hw.trans hwaits.waitState⟩
  woken p hp hout := by
    have hwoken := h.woken p hp hout
    exact ⟨hlink ▸ hwoken.idle, hflags ▸ hwoken.flags, (hstate p hp).1.trans hwoken.state⟩

theorem notMem (h : Queued s inside queue) (hp : p ∉ inside) : p ∉ queue :=
    fun hin => hp (h.subset p hin)

end Queued

/-! ## One operation -/

theorem int_eq {n : Int} (hlow : 0 ≤ n) (hup : n ≤ INT_MAX) : int n = n := by
  unfold int INT_MAX at *
  omega

theorem waitCurrentSet_spec (h : Queued s inside queue) (hp : p ∉ inside) :
    Ends E (waitCurrentSet p p WT_KSEM) s fun _ s' =>
      Queued s' (insert p inside) (queue ++ [p]) ∧ s'.value = s.value := by
  have hpq := h.notMem hp
  have hempty : ((s.link.listInit (.waitLink p)).listEmpty (.waitLink p)) = true := by
    simp [listEmpty, listInit]
  have hproc : Function.update s.proc p (some p) p ≠ none := by simp
  have hpout : Entry.waitLink p ∉ Entry.waitHead :: queue.map .waitLink := by simpa using hpq
  have hring := h.ring.listInit_other hpout
  simp only [waitCurrentSet, waitInit, waitQueueAdd, ends_bind, ends_modify, ends_get]
  rw [ends_check ⟨hempty, hproc⟩]
  refine ⟨⟨?_, ?_, ?_, ?_⟩, rfl⟩
  · rw [List.map_append]
    exact hring.listAddBefore_header hpout
  · intro q hq
    rcases List.mem_append.mp hq with hq | hq
    · exact Finset.mem_insert_of_mem (h.subset q hq)
    · exact List.mem_singleton.mp hq ▸ Finset.mem_insert_self p inside
  · intro q hq
    by_cases hqp : q = p
    · subst hqp
      exact ⟨Function.update_self .., Function.update_self .., Function.update_self ..,
        Function.update_self ..⟩
    · have hin : q ∈ queue :=
        (List.mem_append.mp hq).resolve_right fun hin => hqp (List.mem_singleton.mp hin)
      have hwaits := h.waits q hin
      exact ⟨(Function.update_of_ne hqp ..).trans hwaits.proc,
        (Function.update_of_ne hqp ..).trans hwaits.waitQueue,
        (Function.update_of_ne hqp ..).trans hwaits.state,
        (Function.update_of_ne hqp ..).trans hwaits.waitState⟩
  · intro q hq hout
    have hqp : q ≠ p := fun heq => hout (by simp [heq])
    have hin : q ∈ inside := (Finset.mem_insert.mp hq).resolve_left hqp
    have hqout : q ∉ queue := fun hin => hout (List.mem_append_left _ hin)
    have hwoken := h.woken q hin hqout
    refine ⟨?_, (Function.update_of_ne hqp ..).trans hwoken.flags,
      (Function.update_of_ne hqp ..).trans hwoken.state⟩
    have hidle := hwoken.idle
    have hnext := hring.listAddBefore_next (e := .waitLink p) List.mem_cons_self
      (by simpa using hqout : Entry.waitLink q ∉ _) (by simpa using hqp)
    rw [listEmpty, hnext]
    simpa [listEmpty, listInit, hqp] using hidle

/-- The first waiter is woken. -/
theorem wakeupWait_spec {rest : List Nat} (h : Queued s inside (p :: rest)) :
    Ends E (wakeupWait p WT_KSEM) s fun _ s' => Queued s' inside rest ∧ s'.value = s.value := by
  have hwaits := h.waits p List.mem_cons_self
  have hlinked := h.linked List.mem_cons_self
  obtain ⟨hp, hrest⟩ := List.nodup_cons.mp h.nodup
  have hzombie : s.state p ≠ .zombie := by
    rw [hwaits.state]
    decide
  have hasleep : s.state p ≠ .runnable := by
    rw [hwaits.state]
    decide
  simp only [wakeupWait, waitQueueDel, wakeupProc, ends_bind, ends_modify, ends_get]
  rw [ends_check ⟨hlinked, hwaits.waitQueue⟩]
  simp only [hwaits.proc]
  change Ends E (check _ _) _ _
  rw [ends_check hzombie, if_pos hasleep]
  refine ⟨⟨?_, fun q hq => h.subset q (List.mem_cons_of_mem p hq), ?_, ?_⟩, rfl⟩
  · have hring : s.link.Ring .waitHead ([] ++ .waitLink p :: rest.map .waitLink) := h.ring
    apply hring.listDel.listInit_other
    simpa using hp
  · intro q hq
    have hqp : q ≠ p := ne_of_mem_of_not_mem hq hp
    have hwaits := h.waits q (List.mem_cons_of_mem p hq)
    exact ⟨hwaits.proc, hwaits.waitQueue, (Function.update_of_ne hqp ..).trans hwaits.state,
      (Function.update_of_ne hqp ..).trans hwaits.waitState⟩
  · intro q hq hout
    by_cases hqp : q = p
    · subst hqp
      refine ⟨?_, Function.update_self .., Function.update_self ..⟩
      simp [listEmpty, listDelInit, listInit]
    · have hqout : q ∉ p :: rest := by simp [hqp, hout]
      have hwoken := h.woken q hq hqout
      refine ⟨?_, (Function.update_of_ne hqp ..).trans hwoken.flags,
        (Function.update_of_ne hqp ..).trans hwoken.state⟩
      have hidle := hwoken.idle
      have hnext := h.ring.listDel_next (e := .waitLink p) (by simp) (by simpa using hqout :
        Entry.waitLink q ∉ _)
      rw [listEmpty] at hidle
      simpa [listEmpty, listDelInit, listInit, hqp, hnext] using hidle

/-- `up` wakes the first waiter, or else raises the value. -/
theorem up_spec (h : Queued s inside queue) :
    Ends E up s fun woken s' => woken = queue.head? ∧ Queued s' inside queue.tail ∧
      s'.value = if queue = [] then int (s.value + 1) else s.value := by
  rw [up, semUp, ends_bind, ends_get, h.waitQueueFirst_eq]
  cases queue with
  | nil => exact ⟨rfl, h.congr rfl rfl rfl rfl fun _ _ => ⟨rfl, rfl⟩, (if_pos rfl).symm⟩
  | cons p rest =>
      have hwaits := h.waits p List.mem_cons_self
      simp only [List.head?_cons, hwaits.proc, ends_bind]
      change Ends E (check _ _) _ _
      rw [ends_check hwaits.waitState]
      apply (wakeupWait_spec h).imp
      intro _ s' hwoken
      exact ⟨rfl, hwoken.1, hwoken.2⟩

theorem down_spec (h : Queued s inside queue) (hp : p ∉ inside) :
    Ends E (down p) s fun passed s' => if 0 < s.value
      then passed = true ∧ Queued s' inside queue ∧ s'.value = int (s.value - 1)
      else passed = false ∧ Queued s' (insert p inside) (queue ++ [p]) ∧ s'.value = s.value := by
  rw [down, semDown, ends_bind, ends_get]
  split
  · exact ⟨rfl, h.congr rfl rfl rfl rfl fun _ _ => ⟨rfl, rfl⟩, rfl⟩
  · rw [ends_bind]
    apply (waitCurrentSet_spec h hp).imp
    intro _ s' hset
    exact ⟨rfl, hset⟩

theorem tryDown_spec (h : Queued s inside queue) :
    Ends E tryDown s fun passed s' => Queued s' inside queue ∧ if 0 < s.value
      then passed = true ∧ s'.value = int (s.value - 1)
      else passed = false ∧ s'.value = s.value := by
  rw [tryDown, ends_bind, ends_get]
  split
  · exact ⟨h.congr rfl rfl rfl rfl fun _ _ => ⟨rfl, rfl⟩, rfl, rfl⟩
  · exact ⟨h, rfl, rfl⟩

/-- A process that runs again in `down` was woken by `up`, and finds itself unlinked. -/
theorem downed_spec (h : Queued s inside queue) (hp : p ∈ inside) (hrun : s.state p = .runnable) :
    Ends E (downed p) s fun _ s' => s' = s ∧ p ∉ queue := by
  have hout : p ∉ queue := by
    intro hin
    have hasleep := (h.waits p hin).state
    rw [hrun] at hasleep
    cases hasleep
  have hwoken := h.woken p hp hout
  have hidle : ¬ s.link.listEmpty (.waitLink p) = false := by
    rw [hwoken.idle]
    decide
  have hflags : ¬ s.wakeupFlags p ≠ WT_KSEM := fun hne => hne hwoken.flags
  rw [downed, semDowned, ends_bind, ends_bind, waitCurrentDel, ends_bind, ends_get, if_neg hidle,
    ends_pure, ends_bind, ends_get, if_neg hflags, ends_pure, ends_check rfl]
  exact ⟨rfl, hout⟩

/-! ## All processes -/

/-- Processes that have been woken, and have not run since. -/
def handed (sys : Shared) : Finset Nat :=
  sys.inside.filter fun p => sys.sem.link.listEmpty (.waitLink p) = true

/-- Where the units are, and who has waited, is waiting and has been woken. -/
structure Balanced (v : Int) (sys : Shared) (queue : List Nat) : Prop where
  queued : Queued sys.sem sys.inside queue
  nonneg : 0 ≤ sys.sem.value
  bounded : sys.sem.value ≤ INT_MAX
  nobody : 0 < sys.sem.value → queue = []
  fifo : sys.arrivals = sys.wakeups ++ queue
  count : (sys.taken + (sys.inside.filter (· ∉ queue)).card : Int) = v + sys.ups - sys.sem.value

/-- No `up` comes when `value` is the greatest `int`, so that counting on does not overflow. -/
def InRange (sys : Shared) (a : Action) : Prop := a = .up → sys.sem.value < INT_MAX

instance (sys : Shared) : DecidablePred (InRange sys) :=
  fun a => match a with
  | .up => decidable_of_iff (sys.sem.value < INT_MAX) ⟨fun h _ => h, fun h => h rfl⟩
  | .down _ => isTrue nofun
  | .resume _ => isTrue nofun
  | .tryDown => isTrue nofun
  | .other _ _ => isTrue nofun

variable {v : Int} {sys sys' : Shared} {a : Action}

namespace Queued

theorem listEmpty_iff (h : Queued s inside queue) (hp : p ∈ inside) :
    s.link.listEmpty (.waitLink p) = true ↔ p ∉ queue := by
  constructor
  · intro hidle hin
    rw [h.linked hin] at hidle
    cases hidle
  · exact fun hout => (h.woken p hp hout).idle

end Queued

theorem Balanced.handed_eq (h : Balanced v sys queue) :
    handed sys = sys.inside.filter (· ∉ queue) :=
  Finset.filter_congr fun _ hp => h.queued.listEmpty_iff hp

theorem Balanced.initial (s : Sem) (hlow : 0 ≤ v) (hup : v ≤ INT_MAX) :
    Balanced v (.initial s v) [] where
  queued :=
    ⟨ring_nil_iff.mpr (by simp [Shared.initial, Sem.semInit, listInit]), nofun, nofun, nofun⟩
  nonneg := hlow
  bounded := hup
  nobody _ := rfl
  fifo := rfl
  count := by simp [Shared.initial, Sem.semInit]

/-- A step whose `up` stays in the range succeeds, and keeps the units accounted for. -/
theorem Balanced.of_step (h : Balanced v sys queue) (hok : Permitted sys a)
    (hrange : InRange sys a) :
    ∃ sys' queue', step sys a = some sys' ∧ Balanced v sys' queue' := by
  obtain ⟨hqueued, hlow, hup, hnobody, hfifo, hcount⟩ := h
  cases a with
  | up =>
      obtain ⟨woken, s', hcall, hwoken, hqueued', hvalue⟩ := (up_spec hqueued).ok
      have hstep : step sys .up = some { sys with
          sem := s', ups := sys.ups + 1, wakeups := sys.wakeups ++ woken.toList } := by
        rw [step, hcall]
      refine ⟨_, queue.tail, hstep, ?_⟩
      cases queue with
      | nil =>
          -- nobody waits, and the value is raised
          have hlt : sys.sem.value < INT_MAX := hrange rfl
          rw [if_pos rfl, int_eq (by omega) (by omega)] at hvalue
          refine ⟨hqueued', ?_, ?_, fun _ => rfl, ?_, ?_⟩
          · change 0 ≤ s'.value
            omega
          · change s'.value ≤ INT_MAX
            omega
          · simpa [hwoken] using hfifo
          · change (sys.taken + (sys.inside.filter (· ∉ [])).card : Int) = v +
              (sys.ups + 1 : Nat) - s'.value
            rw [hcount]
            omega
      | cons p rest =>
          -- the unit goes to the first waiter, which leaves the queue but not `down`
          rw [if_neg (List.cons_ne_nil p rest)] at hvalue
          have hzero : ¬ 0 < sys.sem.value := fun hpos => List.cons_ne_nil p rest (hnobody hpos)
          have hp : p ∉ rest := (List.nodup_cons.mp hqueued.nodup).1
          have hin : p ∈ sys.inside := hqueued.subset p List.mem_cons_self
          have hhanded : sys.inside.filter (· ∉ rest) =
              insert p (sys.inside.filter (· ∉ p :: rest)) := by
            ext q
            by_cases hqp : q = p <;> simp_all
          have hcard : (sys.inside.filter (· ∉ rest)).card =
              (sys.inside.filter (· ∉ p :: rest)).card + 1 := by
            rw [hhanded]
            exact Finset.card_insert_of_notMem (by simp)
          refine ⟨hqueued', ?_, ?_, ?_, ?_, ?_⟩
          · exact hvalue ▸ hlow
          · exact hvalue ▸ hup
          · exact fun hpos => absurd (hvalue ▸ hpos) hzero
          · simp [hwoken, hfifo]
          · change (sys.taken + (sys.inside.filter (· ∉ rest)).card : Int) = v +
              (sys.ups + 1 : Nat) - s'.value
            rw [hcard, hvalue]
            omega
  | down p =>
      obtain ⟨passed, s', hcall, hresult⟩ := (down_spec hqueued hok).ok
      split at hresult
      -- the value is positive: nobody waits, and the unit is taken at once
      · next hpos =>
        obtain ⟨rfl, hqueued', hvalue⟩ := hresult
        rw [int_eq (by omega) (by omega)] at hvalue
        have hstep : step sys (.down p) = some { sys with sem := s', taken := sys.taken + 1 } := by
          rw [step, hcall]
        refine ⟨_, queue, hstep, hqueued', ?_, ?_, fun _ => hnobody hpos, hfifo, ?_⟩
        · change 0 ≤ s'.value
          omega
        · change s'.value ≤ INT_MAX
          omega
        · change ((sys.taken + 1 : Nat) + (sys.inside.filter (· ∉ queue)).card : Int) = v +
            sys.ups - s'.value
          omega
      -- the process joins the queue behind all the others
      · next hzero =>
        obtain ⟨rfl, hqueued', hvalue⟩ := hresult
        have hsame : (insert p sys.inside).filter (· ∉ queue ++ [p]) =
            sys.inside.filter (· ∉ queue) := by
          ext q
          have hp : p ∉ sys.inside := hok
          by_cases hqp : q = p <;> simp_all
        have hstep : step sys (.down p) = some { sys with
            sem := s', inside := insert p sys.inside, arrivals := sys.arrivals ++ [p] } := by
          rw [step, hcall]
        refine ⟨_, queue ++ [p], hstep, hqueued', hvalue ▸ hlow, hvalue ▸ hup, ?_, ?_, ?_⟩
        · exact fun hpos => absurd (hvalue ▸ hpos) hzero
        · simp [hfifo]
        · change (sys.taken + ((insert p sys.inside).filter (· ∉ queue ++ [p])).card : Int) =
            v + sys.ups - s'.value
          rw [hsame, hvalue, hcount]
  | resume p =>
      obtain ⟨_, s', hcall, rfl, hout⟩ := (downed_spec hqueued hok.1 hok.2).ok
      have hmem : p ∈ sys.inside.filter (· ∉ queue) := Finset.mem_filter.mpr ⟨hok.1, hout⟩
      have hcard := Finset.card_erase_add_one hmem
      rw [← Finset.filter_erase] at hcard
      have hstep : step sys (.resume p) = some { sys with
          inside := sys.inside.erase p, taken := sys.taken + 1 } := by
        rw [step, hcall]
      refine ⟨_, queue, hstep, ⟨hqueued.ring, ?_, hqueued.waits, ?_⟩, hlow, hup, hnobody,
        hfifo, ?_⟩
      · intro q hq
        have hqp : q ≠ p := ne_of_mem_of_not_mem hq hout
        exact Finset.mem_erase.mpr ⟨hqp, hqueued.subset q hq⟩
      · exact fun q hq => hqueued.woken q (Finset.mem_of_mem_erase hq)
      · change ((sys.taken + 1 : Nat) + ((sys.inside.erase p).filter (· ∉ queue)).card : Int) =
          v + sys.ups - sys.sem.value
        omega
  | tryDown =>
      obtain ⟨passed, s', hcall, hqueued', hresult⟩ := (tryDown_spec hqueued).ok
      split at hresult
      · next hpos =>
        obtain ⟨rfl, hvalue⟩ := hresult
        rw [int_eq (by omega) (by omega)] at hvalue
        have hstep : step sys .tryDown = some { sys with sem := s', taken := sys.taken + 1 } := by
          rw [step, hcall]
        refine ⟨_, queue, hstep, hqueued', ?_, ?_, fun _ => hnobody hpos, hfifo, ?_⟩
        · change 0 ≤ s'.value
          omega
        · change s'.value ≤ INT_MAX
          omega
        · change ((sys.taken + 1 : Nat) + (sys.inside.filter (· ∉ queue)).card : Int) = v +
            sys.ups - s'.value
          omega
      · obtain ⟨rfl, hvalue⟩ := hresult
        have hstep : step sys .tryDown = some { sys with sem := s' } := by
          rw [step, hcall]
        refine ⟨_, queue, hstep, hqueued', hvalue ▸ hlow, hvalue ▸ hup, ?_, hfifo, ?_⟩
        · exact fun hpos => hnobody (hvalue ▸ hpos)
        · exact hvalue ▸ hcount
  | other state waitState =>
      have hstep : step sys (.other state waitState) = some { sys with
          sem := { sys.sem with state := state, waitState := waitState } } := rfl
      have hqueued' : Queued { sys.sem with state := state, waitState := waitState }
        sys.inside queue :=
        hqueued.congr rfl rfl rfl rfl hok
      exact ⟨_, queue, hstep, hqueued', hlow, hup, hnobody, hfifo, hcount⟩

theorem Balanced.of_run {s : Sem} (hlow : 0 ≤ v) (hup : v ≤ INT_MAX)
    (hrun : RunsTo step (fun sys a => Permitted sys a ∧ InRange sys a) (.initial s v) sys) :
    ∃ queue, Balanced v sys queue := by
  induction hrun with
  | refl => exact ⟨[], .initial s hlow hup⟩
  | tail _ hok hstep ih =>
      obtain ⟨queue, hbalanced⟩ := ih
      obtain ⟨sys', queue', hstep', hbalanced'⟩ := hbalanced.of_step hok.1 hok.2
      obtain rfl := Option.some.inj (hstep'.symm.trans hstep)
      exact ⟨queue', hbalanced'⟩

/-- A semaphore under any interleaving in which no `up` exceeds the range of an `int`: its
value is not negative, and is zero while somebody waits; what has been taken or handed out is
what there was and what came, except what is left; waiters are woken in the order of their
arrival, and then are runnable, while the others sleep; no assertion fails. -/
theorem sem_counts {s : Sem} (hlow : 0 ≤ v) (hup : v ≤ INT_MAX)
    (hrun : RunsTo step (fun sys a => Permitted sys a ∧ InRange sys a) (.initial s v) sys) :
    0 ≤ sys.sem.value ∧
    (0 < sys.sem.value → waitQueueFirst sys.sem = none) ∧
    (sys.taken + (handed sys).card : Int) = v + sys.ups - sys.sem.value ∧
    (∃ queue, sys.sem.link.Ring .waitHead (queue.map .waitLink) ∧
      sys.arrivals = sys.wakeups ++ queue ∧
      ∀ p ∈ sys.inside, if p ∈ queue then sys.sem.state p = .sleeping
        else p ∈ handed sys ∧ sys.sem.state p = .runnable) ∧
    ∀ a, Permitted sys a → InRange sys a → (step sys a).isSome := by
  obtain ⟨queue, h⟩ := Balanced.of_run hlow hup hrun
  refine ⟨h.nonneg, ?_, ?_, ⟨queue, h.queued.ring, h.fifo, ?_⟩, ?_⟩
  · intro hpos
    rw [h.queued.waitQueueFirst_eq, h.nobody hpos]
    rfl
  · rw [h.handed_eq]
    exact h.count
  · intro p hp
    split
    next hin => exact (h.queued.waits p hin).state
    next hout =>
      have hwoken := h.queued.woken p hp hout
      exact ⟨Finset.mem_filter.mpr ⟨hp, hwoken.idle⟩, hwoken.state⟩
  · intro a hok hrange
    obtain ⟨sys', _, hstep, _⟩ := h.of_step hok hrange
    rw [hstep]
    rfl

/-- A semaphore that has not been initialised. -/
def rawSem : Sem where
  value := 0
  link := ⟨id, id⟩
  proc := fun _ => none
  wakeupFlags := fun _ => 0
  waitQueue := fun _ => false
  state := fun _ => .runnable
  waitState := fun _ => 0

/-- Two processes wait for the unit that a third one has. Both are woken, and only the second
has run since. -/
def twoWaiters : List Action := [.down 1, .down 2, .down 3, .tryDown, .up, .up, .resume 3]

theorem sem_counts_twoWaiters : ∃ sys : Shared, sys.wakeups = [2, 3] ∧ sys.taken = 2 ∧
    sys.sem.state 2 = .runnable ∧ 0 ≤ sys.sem.value ∧
    (sys.taken + (handed sys).card : Int) = 1 + sys.ups - sys.sem.value := by
  have hfold : (twoWaiters.foldlM
      (fun sys a => if Permitted sys a ∧ InRange sys a then step sys a else none)
      (.initial rawSem 1)).map (fun sys => (sys.wakeups, sys.taken, sys.arrivals, sys.inside)) =
        some ([2, 3], 2, [2, 3], {2}) := by
    decide
  obtain ⟨sys, hrun, htuple⟩ := Option.map_eq_some_iff.mp hfold
  simp only [Prod.mk.injEq] at htuple
  obtain ⟨hwakeups, htaken, harrivals, hinside⟩ := htuple
  obtain ⟨hnonneg, _, hcount, ⟨queue, _, hfifo, hprocs⟩, _⟩ :=
    sem_counts (by decide) (by decide) (RunsTo.of_foldlM hrun)
  obtain rfl : queue = [] := by
    rw [harrivals, hwakeups] at hfifo
    exact List.append_right_eq_self.mp hfifo.symm
  have htwo := hprocs 2 (hinside ▸ Finset.mem_singleton_self 2)
  exact ⟨sys, hwakeups, htaken, htwo.2, hnonneg, hcount⟩

/-- One `up` of a semaphore with the largest value. -/
theorem full_up : ∃ sys : Shared, RunsTo step Permitted (.initial rawSem INT_MAX) sys ∧
    sys.sem.value < 0 := by
  have hfold : ([Action.up].foldlM (fun sys a => if Permitted sys a then step sys a else none)
      (.initial rawSem INT_MAX)).map (fun sys => sys.sem.value) = some (-2 ^ 31) := by
    decide
  obtain ⟨sys, hrun, hvalue⟩ := Option.map_eq_some_iff.mp hfold
  refine ⟨sys, RunsTo.of_foldlM hrun, ?_⟩
  rw [hvalue]
  decide

end Ucore.Sync
