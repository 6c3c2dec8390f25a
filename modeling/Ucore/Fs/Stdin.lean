import Ucore.Foundation.RingBuffer
import Ucore.Foundation.Runs
import Ucore.Foundation.Words

/-!
# Console input

`kern/fs/devs/dev_stdin.c` in lab 8: the buffer of the console, filled by the interrupt
handler and emptied by readers that sleep in the middle of a request. Calls of
`dev_stdin_read` are numbered. Interrupts are off but for the time that a reader sleeps.
-/

namespace Ucore.Fs.Stdin

def STDIN_BUFSIZE : Nat := 4096

def WT_INTERRUPTED : BitVec 32 := 0x80000000

def WT_KBD : BitVec 32 := 0x00000004 ||| WT_INTERRUPTED

/-- A call of `dev_stdin_read` that sleeps: the `len` that was asked for, the characters that
it has copied, and the flags of its `wait_t`. -/
structure Reader where
  len : Nat
  buf : List Byte
  wakeupFlags : BitVec 32

/-- The variables of `dev_stdin.c` and the readers that sleep. The last four fields record
what has happened: how many calls of `dev_stdin_read` there were, what they have returned,
which characters went to which call, and the characters that found less than
`STDIN_BUFSIZE` unread ones when they arrived. -/
structure Console where
  stdinBuffer : Nat → Byte
  pRpos : Nat
  pWpos : Nat
  waitQueue : List Nat
  readers : Nat → Option Reader
  calls : Nat
  returned : List (Nat × List Byte)
  delivered : List (Nat × Byte)
  accepted : List Byte

/-- `stdin_device_init`. -/
def Console.initial (stdinBuffer : Nat → Byte) : Console where
  stdinBuffer := stdinBuffer
  pRpos := 0
  pWpos := 0
  waitQueue := []
  readers := fun _ => none
  calls := 0
  returned := []
  delivered := []
  accepted := []

namespace Console

/-- What is in the buffer for the next readers. -/
def unread (s : Console) : List Byte := window STDIN_BUFSIZE s.stdinBuffer s.pRpos s.pWpos

def setReader (s : Console) (call : Nat) (reader : Option Reader) : Console :=
  { s with readers := Function.update s.readers call reader }

/-- `wakeup_queue` for the flags `WT_KBD`, with `del`. -/
def wakeupQueue (s : Console) : Console :=
  { s with
    waitQueue := []
    readers := fun call =>
      if call ∈ s.waitQueue then (s.readers call).map fun reader =>
        { reader with wakeupFlags := WT_KBD }
      else s.readers call }

/-- The part of `dev_stdin_write` that stores a character. -/
def store (s : Console) (c : Byte) : Console :=
  let s := { s with
    accepted := if s.pWpos - s.pRpos < STDIN_BUFSIZE then s.accepted ++ [c] else s.accepted
    stdinBuffer := Function.update s.stdinBuffer (s.pWpos % STDIN_BUFSIZE) c }
  if s.pWpos - s.pRpos < STDIN_BUFSIZE then { s with pWpos := s.pWpos + 1 } else s

def devStdinWrite (s : Console) (c : Byte) : Console :=
  if c ≠ 0 then
    let s := s.store c
    if s.waitQueue ≠ [] then s.wakeupQueue else s
  else s

/-- `dev_stdin_read` returns. -/
def finish (s : Console) (call : Nat) (reader : Reader) : Console :=
  { s.setReader call none with returned := s.returned ++ [(call, reader.buf)] }

/-- `wait_current_set`, up to `schedule`. -/
def sleep (s : Console) (call : Nat) (reader : Reader) : Console :=
  { s.setReader call (some { reader with wakeupFlags := WT_INTERRUPTED }) with
    waitQueue := s.waitQueue ++ [call] }

/-- A reader copies the next character. -/
def take (s : Console) (call : Nat) : Console :=
  { s with
    pRpos := s.pRpos + 1
    delivered := s.delivered ++ [(call, s.stdinBuffer (s.pRpos % STDIN_BUFSIZE))] }

/-- The loop of `dev_stdin_read` until it ends or sleeps, with `len - ret` characters to go. -/
def readLoop (call : Nat) : Nat → Reader → Console → Console
  | 0, reader, s => s.finish call reader
  | togo + 1, reader, s =>
      if s.pRpos < s.pWpos then
        let c := s.stdinBuffer (s.pRpos % STDIN_BUFSIZE)
        readLoop call togo { reader with buf := reader.buf ++ [c] } (s.take call)
      else s.sleep call reader

/-- `dev_stdin_read`, as the next call. -/
def devStdinRead (s : Console) (len : Nat) : Console :=
  readLoop s.calls len ⟨len, [], WT_INTERRUPTED⟩ { s with calls := s.calls + 1 }

/-- `dev_stdin_read` after `schedule`. -/
def resume (s : Console) (call : Nat) (reader : Reader) : Console :=
  let s := { s with waitQueue := s.waitQueue.filter (· ≠ call) }
  if reader.wakeupFlags = WT_KBD then readLoop call (reader.len - reader.buf.length) reader s
  else s.finish call reader

end Console

/-- What happens next. A reader that sleeps goes on when a character has come, or when its
process was killed. -/
inductive Event
  | write (c : Byte)
  | read (len : Nat)
  | resume (call : Nat)
  deriving DecidableEq

def step (s : Console) : Event → Option Console
  | .write c => some (s.devStdinWrite c)
  | .read len => some (s.devStdinRead len)
  | .resume call => (s.readers call).map (s.resume call)

/-! ## What every reader gets -/

namespace Console

variable {s : Console} {c : Byte} {call : Nat} {running : Option Nat} {reader : Reader}

/-- The characters that went to a call, in order. -/
def share (s : Console) (call : Nat) : List Byte :=
  (s.delivered.filter (·.1 = call)).map Prod.snd

/-- What holds between two events, and while a call of `dev_stdin_read` is running. -/
structure Inv (s : Console) (running : Option Nat) : Prop where
  pos_le : s.pRpos ≤ s.pWpos
  pos_round : s.pWpos ≤ s.pRpos + STDIN_BUFSIZE
  inOrder : s.delivered.map Prod.snd ++ s.unread = s.accepted
  known : ∀ call reader, s.readers call = some reader → call < s.calls
  sleeping : ∀ call reader, s.readers call = some reader → some call ≠ running →
    reader.buf = s.share call
  gone : ∀ p ∈ s.returned, p.1 < s.calls ∧ s.readers p.1 = none ∧ some p.1 ≠ running ∧
    p.2 = s.share p.1
  fresh : ∀ p ∈ s.delivered, p.1 < s.calls

theorem Inv.of_initial (stdinBuffer : Nat → Byte) : (initial stdinBuffer).Inv none where
  pos_le := Nat.le_refl 0
  pos_round := Nat.zero_le _
  inOrder := rfl
  known := nofun
  sleeping := nofun
  gone := nofun
  fresh := nofun

/-- The running call ends or sleeps; its reader is what `readers` says afterwards. -/
theorem Inv.stop (h : s.Inv (some call)) {s' : Console}
    (hsame : s'.pRpos = s.pRpos ∧ s'.pWpos = s.pWpos ∧ s'.stdinBuffer = s.stdinBuffer ∧
      s'.delivered = s.delivered ∧ s'.accepted = s.accepted ∧ s'.calls = s.calls)
    (hcall : call < s.calls)
    (hothers : ∀ other, other ≠ call → s'.readers other = s.readers other)
    (hself : ∀ reader, s'.readers call = some reader → reader.buf = s.share call)
    (hgone : ∀ p ∈ s'.returned, p ∈ s.returned ∨
      p = (call, s.share call) ∧ s'.readers call = none) : s'.Inv none := by
  obtain ⟨hrpos, hwpos, hbuffer, hdelivered, haccepted, hcalls⟩ := hsame
  have hshare : s'.share = s.share := by
    funext other
    rw [share, share, hdelivered]
  have hunread : s'.unread = s.unread := by rw [unread, unread, hrpos, hwpos, hbuffer]
  refine ⟨?_, ?_, ?_, ?_, ?_, ?_, ?_⟩
  · rw [hrpos, hwpos]
    exact h.pos_le
  · rw [hrpos, hwpos]
    exact h.pos_round
  · rw [hdelivered, hunread, haccepted]
    exact h.inOrder
  · intro other reader hreader
    rw [hcalls]
    by_cases hne : other = call
    · rw [hne]
      exact hcall
    · exact h.known other reader (hothers other hne ▸ hreader)
  · intro other reader hreader _
    rw [hshare]
    by_cases hne : other = call
    · rw [hne] at hreader ⊢
      exact hself reader hreader
    · rw [hothers other hne] at hreader
      exact h.sleeping other reader hreader fun heq => hne (Option.some.inj heq)
  · intro p hp
    rw [hcalls, hshare]
    rcases hgone p hp with hold | ⟨rfl, hnone⟩
    · obtain ⟨hlt, hnone, hne, hbuf⟩ := h.gone p hold
      refine ⟨hlt, ?_, nofun, hbuf⟩
      rw [hothers p.1 fun heq => hne (congrArg some heq)]
      exact hnone
    · exact ⟨hcall, hnone, nofun, rfl⟩
  · rw [hdelivered, hcalls]
    exact h.fresh

theorem Inv.finish (h : s.Inv (some call)) (hcall : call < s.calls)
    (hbuf : reader.buf = s.share call) : (s.finish call reader).Inv none := by
  have hnone : (s.finish call reader).readers call = none := Function.update_self _ _ _
  refine h.stop ⟨rfl, rfl, rfl, rfl, rfl, rfl⟩ hcall ?_ ?_ ?_
  · intro other hne
    exact Function.update_of_ne hne _ _
  · intro reader' hreader
    rw [hnone] at hreader
    nomatch hreader
  · intro p hp
    rcases List.mem_append.mp hp with hold | hnew
    · exact Or.inl hold
    · rw [List.mem_singleton.mp hnew, hbuf]
      exact Or.inr ⟨rfl, hnone⟩

theorem Inv.sleep (h : s.Inv (some call)) (hcall : call < s.calls)
    (hbuf : reader.buf = s.share call) : (s.sleep call reader).Inv none := by
  refine h.stop ⟨rfl, rfl, rfl, rfl, rfl, rfl⟩ hcall ?_ ?_ fun p hp => Or.inl hp
  · intro other hne
    exact Function.update_of_ne hne _ _
  · intro reader' hreader
    have hself : (s.sleep call reader).readers call =
        some { reader with wakeupFlags := WT_INTERRUPTED } :=
      Function.update_self _ _ _
    rw [hself] at hreader
    rw [← Option.some.inj hreader]
    exact hbuf

theorem share_take (other : Nat) : (s.take call).share other =
    if other = call then s.share other ++ [s.stdinBuffer (s.pRpos % STDIN_BUFSIZE)]
    else s.share other := by
  unfold share take
  rw [List.filter_append, List.map_append]
  split
  next heq => simp [heq]
  next hne => simp [Ne.symm hne]

theorem Inv.take (h : s.Inv (some call)) (hcall : call < s.calls) (hlt : s.pRpos < s.pWpos) :
    (s.take call).Inv (some call) := by
  have hround := h.pos_round
  have hothers : ∀ other, some other ≠ some call → (s.take call).share other = s.share other := by
    intro other hne
    rw [share_take, if_neg fun heq => hne (congrArg some heq)]
  refine ⟨hlt, ?_, ?_, h.known, ?_, ?_, ?_⟩
  · change s.pWpos ≤ s.pRpos + 1 + STDIN_BUFSIZE
    omega
  · have hinOrder := h.inOrder
    rw [unread, window_pop hlt] at hinOrder
    change (s.delivered ++ [(call, s.stdinBuffer (s.pRpos % STDIN_BUFSIZE))]).map Prod.snd ++
      window STDIN_BUFSIZE s.stdinBuffer (s.pRpos + 1) s.pWpos = s.accepted
    rw [List.map_append, List.append_assoc]
    exact hinOrder
  · intro other reader hreader hne
    rw [hothers other hne]
    exact h.sleeping other reader hreader hne
  · intro p hp
    obtain ⟨hlt, hnone, hne, hbuf⟩ := h.gone p hp
    rw [hothers p.1 hne]
    exact ⟨hlt, hnone, hne, hbuf⟩
  · intro p hp
    rcases List.mem_append.mp hp with hold | hnew
    · exact h.fresh p hold
    · rw [List.mem_singleton.mp hnew]
      exact hcall

/-- The loop of `dev_stdin_read`. -/
theorem Inv.readLoop {togo : Nat} (h : s.Inv (some call)) (hcall : call < s.calls)
    (hbuf : reader.buf = s.share call) : (readLoop call togo reader s).Inv none := by
  induction togo generalizing s reader with
  | zero => exact h.finish hcall hbuf
  | succ togo ih =>
      rw [Console.readLoop]
      split
      next hlt =>
        apply ih (h.take hcall hlt) hcall
        rw [share_take, if_pos rfl, ← hbuf]
      next =>
        exact h.sleep hcall hbuf

/-! ## What a character does to the unread ones -/

/-- The buffer holds as many unread characters as it can. -/
def Full (s : Console) : Prop := STDIN_BUFSIZE ≤ s.unread.length

instance : Decidable s.Full := inferInstanceAs (Decidable (STDIN_BUFSIZE ≤ s.unread.length))

theorem full_iff : s.Full ↔ ¬s.pWpos - s.pRpos < STDIN_BUFSIZE := by
  rw [Full, unread, length_window, Nat.not_lt]

/-- A character that arrives is dropped if the buffer is full, and else is the last unread
one; nothing happens to the unread characters. -/
def Unaltered (s : Console) (c : Byte) : Prop :=
  (s.devStdinWrite c).unread = if s.Full then s.unread else s.unread ++ [c]

theorem unread_devStdinWrite (hc : c ≠ 0) : (s.devStdinWrite c).unread = (s.store c).unread := by
  rw [devStdinWrite, if_pos hc]
  change (if (s.store c).waitQueue ≠ [] then (s.store c).wakeupQueue else s.store c).unread = _
  split <;> rfl

theorem unread_store (h : s.Inv running) (hroom : ¬s.Full) :
    (s.store c).unread = s.unread ++ [c] := by
  have hlt := not_not.mp fun hnot => hroom (full_iff.mpr hnot)
  rw [store, if_pos hlt]
  exact window_push h.pos_le hlt

theorem unread_store_full (h : s.Inv running) (hfull : s.Full) :
    (s.store c).unread = c :: s.unread.tail := by
  have hnot := full_iff.mp hfull
  have hle := h.pos_le
  have hround := h.pos_round
  have hpos : 0 < STDIN_BUFSIZE := by decide
  have hwpos : s.pWpos = s.pRpos + STDIN_BUFSIZE := by omega
  have hpop : s.unread = _ := window_pop (by omega)
  rw [hpop, store, if_neg hnot]
  exact window_overwrite hpos hwpos

/-- The first unread character survives a full buffer only if it is the one that arrives. -/
theorem unaltered_iff (h : s.Inv running) (hc : c ≠ 0) :
    s.Unaltered c ↔ (s.Full → s.unread.head? = some c) := by
  rw [Unaltered, unread_devStdinWrite hc]
  by_cases hfull : s.Full
  · have hpos : 0 < STDIN_BUFSIZE := by decide
    rw [if_pos hfull, unread_store_full h hfull]
    cases hunread : s.unread with
    | nil =>
        rw [Full, hunread] at hfull
        exact absurd hpos (Nat.not_lt.mpr hfull)
    | cons first rest =>
        constructor
        · intro heq _
          rw [← (List.cons.inj heq).1]
          rfl
        · intro hhead
          rw [Option.some.inj (hhead hfull)]
          rfl
  · rw [if_neg hfull, unread_store h hfull]
    exact ⟨fun _ hfull' => absurd hfull' hfull, fun _ => rfl⟩

theorem Inv.wakeupQueue (h : s.Inv running) : s.wakeupQueue.Inv running := by
  have hreader : ∀ call reader, s.wakeupQueue.readers call = some reader →
      ∃ old, s.readers call = some old ∧ old.buf = reader.buf := by
    intro call reader hsome
    change (if call ∈ s.waitQueue then (s.readers call).map fun reader =>
      { reader with wakeupFlags := WT_KBD } else s.readers call) = some reader at hsome
    split at hsome
    · obtain ⟨old, hold, heq⟩ := Option.map_eq_some_iff.mp hsome
      exact ⟨old, hold, heq ▸ rfl⟩
    · exact ⟨reader, hsome, rfl⟩
  refine ⟨h.pos_le, h.pos_round, h.inOrder, ?_, ?_, ?_, h.fresh⟩
  · intro call reader hsome
    obtain ⟨old, hold, _⟩ := hreader call reader hsome
    exact h.known call old hold
  · intro call reader hsome hne
    obtain ⟨old, hold, hbuf⟩ := hreader call reader hsome
    rw [← hbuf]
    exact h.sleeping call old hold hne
  · intro p hp
    obtain ⟨hlt, hnone, hne, hbuf⟩ := h.gone p hp
    refine ⟨hlt, ?_, hne, hbuf⟩
    change (if p.1 ∈ s.waitQueue then (s.readers p.1).map _ else s.readers p.1) = none
    rw [hnone, Option.map_none, ite_self]

theorem Inv.store (h : s.Inv running) (hkeep : s.Full → s.unread.head? = some c) :
    (s.store c).Inv running := by
  by_cases hfull : s.Full
  · have hnot := full_iff.mp hfull
    have hunread : (s.store c).unread = s.unread := by
      rw [unread_store_full h hfull]
      exact List.cons_head?_tail (hkeep hfull)
    have hstore : s.store c = { s with
        stdinBuffer := Function.update s.stdinBuffer (s.pWpos % STDIN_BUFSIZE) c } := by
      rw [Console.store, if_neg hnot, if_neg hnot]
    have hinOrder : s.delivered.map Prod.snd ++ (s.store c).unread = s.accepted := by
      rw [hunread]
      exact h.inOrder
    rw [hstore] at hinOrder ⊢
    exact ⟨h.pos_le, h.pos_round, hinOrder, h.known, h.sleeping, h.gone, h.fresh⟩
  · have hlt := not_not.mp fun hnot => hfull (full_iff.mpr hnot)
    have hle := h.pos_le
    have hunread : (s.store c).unread = s.unread ++ [c] := unread_store h hfull
    have hstore : s.store c = { s with
        accepted := s.accepted ++ [c]
        stdinBuffer := Function.update s.stdinBuffer (s.pWpos % STDIN_BUFSIZE) c
        pWpos := s.pWpos + 1 } := by
      rw [Console.store, if_pos hlt, if_pos hlt]
    have hinOrder : s.delivered.map Prod.snd ++ (s.store c).unread = s.accepted ++ [c] := by
      rw [hunread, ← List.append_assoc, h.inOrder]
    rw [hstore] at hinOrder ⊢
    refine ⟨?_, ?_, hinOrder, h.known, h.sleeping, h.gone, h.fresh⟩
    · change s.pRpos ≤ s.pWpos + 1
      omega
    · change s.pWpos + 1 ≤ s.pRpos + STDIN_BUFSIZE
      omega

theorem Inv.devStdinWrite (h : s.Inv running) (hkeep : s.Full → s.unread.head? = some c) :
    (s.devStdinWrite c).Inv running := by
  rw [Console.devStdinWrite]
  split
  · have hstore := h.store hkeep
    change (if (s.store c).waitQueue ≠ [] then (s.store c).wakeupQueue else s.store c).Inv running
    split
    · exact hstore.wakeupQueue
    · exact hstore
  · exact h

theorem Inv.devStdinRead (h : s.Inv none) (len : Nat) : (s.devStdinRead len).Inv none := by
  have hshare : s.share s.calls = [] := by
    rw [share, List.filter_eq_nil_iff.mpr, List.map_nil]
    intro p hp heq
    have hlt := h.fresh p hp
    rw [of_decide_eq_true heq] at hlt
    exact absurd hlt (Nat.lt_irrefl _)
  have hstart : ({ s with calls := s.calls + 1 } : Console).Inv (some s.calls) := by
    refine ⟨h.pos_le, h.pos_round, h.inOrder, ?_, ?_, ?_, ?_⟩
    · intro call reader hsome
      exact Nat.lt_succ_of_lt (h.known call reader hsome)
    · intro call reader hsome _
      exact h.sleeping call reader hsome nofun
    · intro p hp
      obtain ⟨hlt, hnone, _, hbuf⟩ := h.gone p hp
      exact ⟨Nat.lt_succ_of_lt hlt, hnone, fun heq => Nat.ne_of_lt hlt (Option.some.inj heq), hbuf⟩
    · intro p hp
      exact Nat.lt_succ_of_lt (h.fresh p hp)
  exact hstart.readLoop (Nat.lt_succ_self _) hshare.symm

theorem Inv.resume (h : s.Inv none) (hreader : s.readers call = some reader) :
    (s.resume call reader).Inv none := by
  have hcall := h.known call reader hreader
  have hstart : ({ s with waitQueue := s.waitQueue.filter (· ≠ call) } : Console).Inv
    (some call) := by
    refine ⟨h.pos_le, h.pos_round, h.inOrder, h.known, ?_, ?_, h.fresh⟩
    · intro other reader hsome _
      exact h.sleeping other reader hsome nofun
    · intro p hp
      obtain ⟨hlt, hnone, _, hbuf⟩ := h.gone p hp
      refine ⟨hlt, hnone, ?_, hbuf⟩
      intro heq
      rw [Option.some.inj heq, hreader] at hnone
      nomatch hnone
  have hbuf := h.sleeping call reader hreader nofun
  rw [Console.resume]
  split
  · exact hstart.readLoop hcall hbuf
  · exact hstart.finish hcall hbuf

end Console

/-- No character arrives at a full buffer, but for one that is also the first unread one.
`dev_stdin_write` overwrites that one without moving the position of the reader. -/
def Harmless (s : Console) : Event → Prop
  | .write c => s.Full → s.unread.head? = some c
  | .read _ => True
  | .resume _ => True

instance (s : Console) : DecidablePred (Harmless s)
  | .write c => inferInstanceAs (Decidable (s.Full → s.unread.head? = some c))
  | .read _ => isTrue trivial
  | .resume _ => isTrue trivial

theorem Console.Inv.of_step {s s' : Console} {event : Event} (h : s.Inv none)
    (hok : Harmless s event) (hstep : step s event = some s') : s'.Inv none := by
  cases event with
  | write c =>
      obtain rfl := Option.some.inj hstep
      exact h.devStdinWrite hok
  | read len =>
      obtain rfl := Option.some.inj hstep
      exact h.devStdinRead len
  | resume call =>
      obtain ⟨reader, hreader, rfl⟩ := Option.map_eq_some_iff.mp hstep
      exact h.resume hreader

theorem Console.Inv.of_run {s : Console} {stdinBuffer : Nat → Byte}
    (hrun : RunsTo step Harmless (.initial stdinBuffer) s) : s.Inv none := by
  induction hrun with
  | refl => exact .of_initial stdinBuffer
  | tail _ hok hstep ih => exact ih.of_step hok hstep

/-- As long as no character arrives at a full buffer, except one like the first unread
character: readers get the accepted characters in order, each call what it has copied, and a
character that arrives leaves the unread ones alone exactly if it is such a character again. -/
theorem stdin_in_order {stdinBuffer : Nat → Byte} {s : Console}
    (hrun : RunsTo step Harmless (.initial stdinBuffer) s) :
    s.delivered.map Prod.snd <+: s.accepted ∧
    (∀ p ∈ s.returned, p.2 = s.share p.1) ∧
    ∀ c, c ≠ 0 → (s.Unaltered c ↔ Harmless s (.write c)) := by
  have hinv := Console.Inv.of_run hrun
  refine ⟨⟨s.unread, hinv.inOrder⟩, fun p hp => (hinv.gone p hp).2.2.2, ?_⟩
  intro c hc
  exact Console.unaltered_iff hinv hc

theorem delivered_devStdinWrite {s : Console} {c : Byte} (hc : c ≠ 0) :
    (s.devStdinWrite c).delivered = s.delivered ∧
    (s.devStdinWrite c).accepted = (s.store c).accepted := by
  rw [Console.devStdinWrite, if_pos hc]
  change (if _ then (s.store c).wakeupQueue else s.store c).delivered = _ ∧
    (if _ then (s.store c).wakeupQueue else s.store c).accepted = _
  have hstore : (s.store c).delivered = s.delivered := by
    rw [Console.store]
    dsimp only
    split <;> rfl
  split
  · exact ⟨hstore, rfl⟩
  · exact ⟨hstore, rfl⟩

/-- A reader asks for one character, and there is one. -/
theorem devStdinRead_one {s : Console} {c : Byte} (hhead : s.unread.head? = some c) :
    (s.devStdinRead 1).delivered = s.delivered ++ [(s.calls, c)] ∧
    (s.devStdinRead 1).accepted = s.accepted := by
  have hlt : s.pRpos < s.pWpos := by
    by_contra hnot
    have hlen : s.unread.length = 0 := by
      rw [Console.unread, length_window]
      omega
    rw [List.length_eq_zero_iff.mp hlen] at hhead
    nomatch hhead
  rw [Console.unread, window_pop hlt] at hhead
  obtain rfl := Option.some.inj hhead
  rw [Console.devStdinRead, Console.readLoop, if_pos hlt]
  exact ⟨rfl, rfl⟩

/-- A character comes again and again, and nobody reads. -/
theorem fill {stdinBuffer : Nat → Byte} {c : Byte} (hc : c ≠ 0) {k : Nat} (hk : k ≤ STDIN_BUFSIZE) :
    ∃ s, (List.replicate k (Event.write c)).foldlM step (.initial stdinBuffer) = some s ∧
      s.Inv none ∧ s.unread = List.replicate k c ∧ s.delivered = [] := by
  induction k with
  | zero => exact ⟨_, rfl, .of_initial stdinBuffer, rfl, rfl⟩
  | succ k ih =>
      obtain ⟨s, hfold, hinv, hunread, hdelivered⟩ := ih (Nat.le_of_succ_le hk)
      have hroom : ¬s.Full := by
        rw [Console.Full, hunread, List.length_replicate]
        exact Nat.not_le.mpr hk
      refine ⟨s.devStdinWrite c, ?_, hinv.devStdinWrite fun hfull => absurd hfull hroom, ?_, ?_⟩
      · rw [List.replicate_succ', List.foldlM_append, hfold]
        rfl
      · rw [Console.unread_devStdinWrite hc, Console.unread_store hinv hroom, hunread,
          List.replicate_succ']
      · rw [(delivered_devStdinWrite hc).1, hdelivered]

/-- The buffer is full of `a`s when a `b` arrives; then somebody reads a character. -/
def overflow : List Event := List.replicate STDIN_BUFSIZE (.write 97) ++ [.write 98, .read 1]

theorem overflow_run : ∃ s, overflow.foldlM step (.initial fun _ => 0) = some s ∧
    ¬s.delivered.map Prod.snd <+: s.accepted := by
  obtain ⟨s, hfold, hinv, hunread, hdelivered⟩ :=
    @fill (fun _ => 0) 97 (by decide) _ (Nat.le_refl STDIN_BUFSIZE)
  have hfull : s.Full := by
    have hlength : s.unread.length = STDIN_BUFSIZE := by rw [hunread, List.length_replicate]
    exact Nat.le_of_eq hlength.symm
  have hnot := Console.full_iff.mp hfull
  have haccepted : s.accepted = List.replicate STDIN_BUFSIZE 97 := by
    rw [← hinv.inOrder, hdelivered, hunread]
    rfl
  have hb : (98 : Byte) ≠ 0 := by decide
  have hstore : (s.store 98).accepted = s.accepted := by
    rw [Console.store, if_neg hnot, if_neg hnot]
  obtain ⟨hsame, hdropped⟩ := delivered_devStdinWrite (s := s) hb
  have hhead : (s.devStdinWrite 98).unread.head? = some 98 := by
    rw [Console.unread_devStdinWrite hb, Console.unread_store_full hinv hfull]
    rfl
  obtain ⟨hread, hkept⟩ := devStdinRead_one hhead
  refine ⟨(s.devStdinWrite 98).devStdinRead 1, ?_, ?_⟩
  · rw [overflow, List.foldlM_append, hfold]
    rfl
  · rw [hread, hkept, hsame, hdropped, hstore, hdelivered, haccepted]
    intro hprefix
    rw [List.nil_append, List.map_singleton, List.singleton_prefix_iff_head?_eq_some] at hprefix
    change some 97 = some 98 at hprefix
    nomatch hprefix

/-- A reader sleeps in the middle of its request, and two characters come. -/
def typing : List Event := [.write 104, .read 2, .write 105, .resume 0]

theorem stdin_in_order_typing : ∃ s : Console, s.returned = [(0, [104, 105])] ∧
    s.accepted = [104, 105] ∧ s.delivered.map Prod.snd <+: s.accepted := by
  have hfold : (typing.foldlM (fun s event => if Harmless s event then step s event else none)
      (.initial fun _ => 0)).map (fun s => (s.returned, s.accepted)) =
      some ([(0, [104, 105])], [104, 105]) := by
    decide
  obtain ⟨s, hrun, hpair⟩ := Option.map_eq_some_iff.mp hfold
  obtain ⟨hreturned, haccepted⟩ := Prod.mk.inj hpair
  exact ⟨s, hreturned, haccepted, (stdin_in_order (RunsTo.of_foldlM hrun)).1⟩

end Ucore.Fs.Stdin
