import Mathlib.Algebra.GroupWithZero.Nat
import Mathlib.Logic.Function.Basic
import Ucore.Foundation.Runs

/-!
# Dining philosophers

The philosophers of `kern/sync/check_sync.c` in lab 7 that use semaphores, for a ring of
any size. `mutex` and the semaphores of the philosophers are counting semaphores: `down`
waits until the value is positive. The philosophers take turns after every statement, and
in `phi_test_sema` after every comparison.
-/

namespace Ucore.Sync.Philosophers

/-- The values of `state_sema`. -/
inductive Phase
  | thinking
  | hungry
  | eating
  deriving DecidableEq, Repr

/-- Where a philosopher is in `phi_test_sema`: at one of the three comparisons, at the
assignment, or at `up`. -/
inductive TestPc
  | self
  | left
  | right
  | eat
  | up
  deriving DecidableEq, Repr

/-- What a philosopher does next. `away` is before `phi_take_forks_sema`, and `taken` is
after it. -/
inductive Pc
  | away
  | takeSet
  | takeTest (pc : TestPc)
  | takeUp
  | takeDown
  | taken
  | putSet
  | putTestLeft (pc : TestPc)
  | putTestRight (pc : TestPc)
  | putUp
  deriving DecidableEq, Repr

variable {n : Nat} [NeZero n]

/-- `LEFT`. -/
def left (i : Fin n) : Fin n := Fin.ofNat n (i.val + n - 1)

/-- `RIGHT`. -/
def right (i : Fin n) : Fin n := Fin.ofNat n (i.val + 1)

/-- The shared variables, and where each philosopher is. -/
structure Table (n : Nat) where
  mutex : Nat
  s : Fin n → Nat
  stateSema : Fin n → Phase
  pc : Fin n → Pc

/-- `check_sync` before any philosopher runs. -/
def Table.initial (n : Nat) : Table n where
  mutex := 1
  s := fun _ => 0
  stateSema := fun _ => .thinking
  pc := fun _ => .away

/-- `down`. -/
def down : Nat → Option Nat
  | 0 => none
  | value + 1 => some value

theorem down_eq_some {value m : Nat} (hdown : down value = some m) : value = m + 1 := by
  cases value with
  | zero => nomatch hdown
  | succ value => rw [Option.some.inj hdown]

/-- `up`. -/
def up (value : Nat) : Nat := value + 1

namespace Table

def goto (table : Table n) (i : Fin n) (pc : Pc) : Table n :=
  { table with pc := Function.update table.pc i pc }

def setState (table : Table n) (i : Fin n) (phase : Phase) : Table n :=
  { table with stateSema := Function.update table.stateSema i phase }

/-- `up(&s[i])`. -/
def upSema (table : Table n) (i : Fin n) : Table n :=
  { table with s := Function.update table.s i (up (table.s i)) }

/-- A statement of `phi_test_sema(i)`, and where it goes on, if it does not return. -/
def phiTestSema (table : Table n) (i : Fin n) : TestPc → Table n × Option TestPc
  | .self => (table, if table.stateSema i = .hungry then some .left else none)
  | .left => (table, if table.stateSema (left i) ≠ .eating then some .right else none)
  | .right => (table, if table.stateSema (right i) ≠ .eating then some .eat else none)
  | .eat => (table.setState i .eating, some .up)
  | .up => (table.upSema i, none)

/-- A statement of a philosopher who is in `phi_test_sema(target)`, called where `at`
says, and returns to `back`. -/
def test (table : Table n) (i target : Fin n) (call : TestPc → Pc) (pc : TestPc) (back : Pc) :
    Table n :=
  match table.phiTestSema target pc with
  | (table, some pc) => table.goto i (call pc)
  | (table, none) => table.goto i back

end Table

/-- The next statement of a philosopher in `phi_take_forks_sema` or `phi_put_forks_sema`. -/
def step (table : Table n) (i : Fin n) : Option (Table n) :=
  match table.pc i with
  | .away => (down table.mutex).map fun mutex => { table with mutex := mutex }.goto i .takeSet
  | .takeSet => some ((table.setState i .hungry).goto i (.takeTest .self))
  | .takeTest pc => some (table.test i i .takeTest pc .takeUp)
  | .takeUp => some ({ table with mutex := up table.mutex }.goto i .takeDown)
  | .takeDown => (down (table.s i)).map fun value =>
      { table with s := Function.update table.s i value }.goto i .taken
  | .taken => (down table.mutex).map fun mutex => { table with mutex := mutex }.goto i .putSet
  | .putSet => some ((table.setState i .thinking).goto i (.putTestLeft .self))
  | .putTestLeft pc => some (table.test i (left i) .putTestLeft pc (.putTestRight .self))
  | .putTestRight pc => some (table.test i (right i) .putTestRight pc .putUp)
  | .putUp => some ({ table with mutex := up table.mutex }.goto i .away)

/-- A round of a philosopher alone: the forks are taken and put back. -/
example : ((List.replicate 14 (2 : Fin 5)).foldlM step (.initial 5)).map (fun table =>
    (table.mutex, table.s 2, table.stateSema 2, table.pc 2)) = some (1, 0, .thinking, .away) := by
  decide

/-! ## The ring -/

theorem left_right (i : Fin n) : left (right i) = i := by
  have hi := i.isLt
  apply Fin.ext
  simp only [left, right, Fin.val_ofNat]
  by_cases hlast : i.val + 1 = n
  · rw [hlast, Nat.mod_self, Nat.zero_add, Nat.mod_eq_of_lt (by omega)]
    omega
  · rw [Nat.mod_eq_of_lt (by omega : i.val + 1 < n), show i.val + 1 + n - 1 = i.val + n by omega,
      Nat.add_mod_right, Nat.mod_eq_of_lt hi]

theorem right_left (i : Fin n) : right (left i) = i := by
  have hi := i.isLt
  apply Fin.ext
  simp only [left, right, Fin.val_ofNat]
  rw [Nat.mod_add_mod, show i.val + n - 1 + 1 = i.val + n by omega, Nat.add_mod_right,
    Nat.mod_eq_of_lt hi]

theorem right_ne (hn : 2 ≤ n) (i : Fin n) : right i ≠ i := by
  intro heq
  have hval : (i.val + 1) % n = i.val := congrArg Fin.val heq
  have hi := i.isLt
  by_cases hlast : i.val + 1 = n
  · rw [hlast, Nat.mod_self] at hval
    omega
  · rw [Nat.mod_eq_of_lt (by omega)] at hval
    omega

/-! ## What holds between two statements -/

/-- Between `down(&mutex)` and `up(&mutex)`. -/
def Pc.inside : Pc → Prop
  | .away => False
  | .takeSet => True
  | .takeTest _ => True
  | .takeUp => True
  | .takeDown => False
  | .taken => False
  | .putSet => True
  | .putTestLeft _ => True
  | .putTestRight _ => True
  | .putUp => True

/-- In `phi_test_sema(target)`, called by `i`. -/
def Pc.testing (i : Fin n) : Pc → Option (Fin n × TestPc)
  | .takeTest pc => some (i, pc)
  | .putTestLeft pc => some (left i, pc)
  | .putTestRight pc => some (right i, pc)
  | _ => none

/-- What a philosopher has said that it is doing. -/
inductive Stage
  | resting
  | wanting
  | fed
  deriving DecidableEq

def Pc.stage : Pc → Stage
  | .away => .resting
  | .takeSet => .resting
  | .takeTest _ => .wanting
  | .takeUp => .wanting
  | .takeDown => .wanting
  | .taken => .fed
  | .putSet => .fed
  | .putTestLeft _ => .resting
  | .putTestRight _ => .resting
  | .putUp => .resting

namespace Table

/-- Somebody is about to do `up(&s[i])`: the philosopher himself, or a neighbour who has put his
forks down. -/
def Granted (table : Table n) (i : Fin n) : Prop :=
  ∃ j, (table.pc j).testing j = some (i, .up)

/-- What `phi_test_sema(i)` has found out. -/
def Tested (table : Table n) (i : Fin n) : TestPc → Prop
  | .self => True
  | .left => table.stateSema i = .hungry
  | .right => table.stateSema i = .hungry ∧ table.stateSema (left i) ≠ .eating
  | .eat => table.stateSema i = .hungry ∧ table.stateSema (left i) ≠ .eating ∧
      table.stateSema (right i) ≠ .eating
  | .up => table.stateSema i = .eating ∧ table.s i = 0 ∧ (table.pc i).stage = .wanting

/-- The state of a philosopher and the value of its semaphore agree with where it is.
When it wants the forks, permission to eat is on its way or in the semaphore. -/
def Agrees (table : Table n) (i : Fin n) : Prop :=
  match (table.pc i).stage with
  | .resting => table.stateSema i = .thinking ∧ table.s i = 0
  | .wanting =>
      table.stateSema i = .hungry ∧ table.s i = 0 ∨
      table.stateSema i = .eating ∧ (table.s i = 1 ∨ table.s i = 0 ∧ table.Granted i)
  | .fed => table.stateSema i = .eating ∧ table.s i = 0

/-- What holds between two statements. -/
structure Inv (table : Table n) : Prop where
  mutex_le : table.mutex ≤ 1
  held : ∀ i, (table.pc i).inside → table.mutex = 0
  exclusive : ∀ i j, (table.pc i).inside → (table.pc j).inside → i = j
  apart : ∀ i, table.stateSema i = .eating → table.stateSema (right i) ≠ .eating
  agrees : ∀ i, table.Agrees i
  tested : ∀ i target pc, (table.pc i).testing i = some (target, pc) → table.Tested target pc

theorem Inv.of_initial : (initial n).Inv where
  mutex_le := Nat.le_refl 1
  held := fun _ hinside => hinside.elim
  exclusive := fun _ _ hinside => hinside.elim
  apart := fun _ heating => nomatch heating
  agrees := fun _ => ⟨rfl, rfl⟩
  tested := fun _ _ _ htesting => nomatch htesting

variable {table table' : Table n} {i j target : Fin n} {pc : TestPc} {p : Pc}

theorem Agrees.congr (h : table.Agrees j) (hstage : (table'.pc j).stage = (table.pc j).stage)
    (hstate : table'.stateSema j = table.stateSema j) (hs : table'.s j = table.s j)
    (hgranted : table.Granted j → table'.Granted j) : table'.Agrees j := by
  unfold Agrees at h ⊢
  rw [hstage, hstate, hs]
  split at h
  · exact h
  · rcases h with hhungry | ⟨heating, hone | ⟨hzero, hgrant⟩⟩
    · exact Or.inl hhungry
    · exact Or.inr ⟨heating, Or.inl hone⟩
    · exact Or.inr ⟨heating, Or.inr ⟨hzero, hgranted hgrant⟩⟩
  · exact h

theorem Agrees.of_resting (hstage : (table.pc j).stage = .resting) :
    table.Agrees j ↔ table.stateSema j = .thinking ∧ table.s j = 0 := by
  rw [Agrees, hstage]

theorem Agrees.of_wanting (hstage : (table.pc j).stage = .wanting) :
    table.Agrees j ↔ table.stateSema j = .hungry ∧ table.s j = 0 ∨
      table.stateSema j = .eating ∧ (table.s j = 1 ∨ table.s j = 0 ∧ table.Granted j) := by
  rw [Agrees, hstage]

theorem Agrees.of_fed (hstage : (table.pc j).stage = .fed) :
    table.Agrees j ↔ table.stateSema j = .eating ∧ table.s j = 0 := by
  rw [Agrees, hstage]

/-- Only a philosopher who wants the forks is hungry. -/
theorem Agrees.of_hungry (h : table.Agrees j) (hhungry : table.stateSema j = .hungry) :
    (table.pc j).stage = .wanting ∧ table.s j = 0 := by
  unfold Agrees at h
  split at h
  case h_1 => rw [hhungry] at h; nomatch h.1
  case h_2 hstage =>
    rcases h with ⟨_, hzero⟩ | ⟨heating, _⟩
    · exact ⟨hstage, hzero⟩
    · rw [hhungry] at heating
      nomatch heating
  case h_3 => rw [hhungry] at h; nomatch h.1

theorem Agrees.s_le (h : table.Agrees j) : table.s j ≤ 1 := by
  unfold Agrees at h
  split at h <;> omega

theorem testing_inside (htesting : p.testing i = some (target, pc)) : p.inside := by
  cases p with
  | takeTest | putTestLeft | putTestRight => trivial
  | away | takeSet | takeUp | takeDown | taken | putSet | putUp => nomatch htesting

/-- Whoever is inside is alone there. -/
theorem Inv.alone (h : table.Inv) (hinside : (table.pc i).inside) :
    ∀ j, j ≠ i → ¬(table.pc j).inside := by
  intro j hne hj
  exact hne (h.exclusive j i hj hinside)

/-- While the mutex is free nobody is inside. -/
theorem Inv.outside (h : table.Inv) (hfree : table.mutex ≠ 0) : ¬(table.pc j).inside :=
  fun hj => hfree (h.held j hj)

/-- A statement of a philosopher while nobody else is inside. -/
theorem Inv.of_alone (hothers : ∀ j, j ≠ i → ¬(table.pc j).inside)
    (hpc : table'.pc = Function.update table.pc i p)
    (hmutex : table'.mutex ≤ 1) (hheld : p.inside → table'.mutex = 0)
    (hapart : ∀ j, table'.stateSema j = .eating → table'.stateSema (right j) ≠ .eating)
    (hagrees : ∀ j, table'.Agrees j)
    (htested : ∀ target pc, p.testing i = some (target, pc) → table'.Tested target pc) :
    table'.Inv := by
  have hself : table'.pc i = p := by rw [hpc, Function.update_self]
  have honly : ∀ j, (table'.pc j).inside → j = i := by
    intro j hinside
    by_contra hne
    rw [hpc, Function.update_of_ne hne] at hinside
    exact hothers j hne hinside
  refine ⟨hmutex, ?_, ?_, hapart, hagrees, ?_⟩
  · intro j hinside
    obtain rfl := honly j hinside
    exact hheld (hself ▸ hinside)
  · intro j k hj hk
    rw [honly j hj, honly k hk]
  · intro j target pc htesting
    obtain rfl := honly j (testing_inside htesting)
    exact htested target pc (hself ▸ htesting)

/-- A philosopher who is granted the forks is granted them by the one who is inside. -/
theorem Granted.by_alone (hothers : ∀ j, j ≠ i → ¬(table.pc j).inside) (h : table.Granted target) :
    (table.pc i).testing i = some (target, .up) := by
  obtain ⟨j, htesting⟩ := h
  by_cases hne : j = i
  · rw [← hne]
    exact htesting
  · exact absurd (testing_inside htesting) (hothers j hne)

omit [NeZero n] in
theorem stage_update (hstage : p.stage = (table.pc i).stage) (j : Fin n) :
    (Function.update table.pc i p j).stage = (table.pc j).stage := by
  by_cases hne : j = i
  · rw [hne, Function.update_self, hstage]
  · rw [Function.update_of_ne hne]

/-! ## One statement -/

/-- A statement that only passes on, with nobody else inside. -/
theorem Inv.goto (h : table.Inv) {mutex : Nat} (hothers : ∀ j, j ≠ i → ¬(table.pc j).inside)
    (hmutex : mutex ≤ 1) (hheld : p.inside → mutex = 0) (hstage : p.stage = (table.pc i).stage)
    (hgrant : ∀ target, (table.pc i).testing i ≠ some (target, .up))
    (htested : ∀ target pc, p.testing i = some (target, pc) → table.Tested target pc) :
    ({ table with mutex := mutex }.goto i p).Inv := by
  have hstages : ∀ j, (({ table with mutex := mutex }.goto i p).pc j).stage = (table.pc j).stage :=
    stage_update hstage
  refine Inv.of_alone hothers rfl hmutex hheld h.apart ?_ ?_
  · intro j
    refine (h.agrees j).congr (hstages j) rfl rfl ?_
    intro hgranted
    exact absurd (hgranted.by_alone hothers) (hgrant j)
  · intro target pc htesting
    have hold := htested target pc htesting
    cases pc with
    | self => trivial
    | left => exact hold
    | right => exact hold
    | eat => exact hold
    | up => exact ⟨hold.1, hold.2.1, (hstages target).trans hold.2.2⟩

/-- `down(&mutex)`. -/
theorem Inv.acquire (h : table.Inv) {mutex : Nat} (hdown : down table.mutex = some mutex)
    (hstage : p.stage = (table.pc i).stage) (hout : (table.pc i).testing i = none)
    (htesting : p.testing i = none) : ({ table with mutex := mutex }.goto i p).Inv := by
  have hmutex := down_eq_some hdown
  have hle := h.mutex_le
  apply h.goto (fun j _ => h.outside (by omega)) (by omega) (by omega) hstage
  · intro target hgrant
    rw [hout] at hgrant
    nomatch hgrant
  · intro target pc hsome
    rw [htesting] at hsome
    nomatch hsome

/-- `up(&mutex)`. -/
theorem Inv.release (h : table.Inv) (hin : (table.pc i).inside)
    (hstage : p.stage = (table.pc i).stage) (hout : (table.pc i).testing i = none)
    (hinside : ¬p.inside) : ({ table with mutex := up table.mutex }.goto i p).Inv := by
  have hmutex : up table.mutex = 1 := congrArg (· + 1) (h.held i hin)
  apply h.goto (h.alone hin) (Nat.le_of_eq hmutex) (fun hin => absurd hin hinside) hstage
  · intro target hgrant
    rw [hout] at hgrant
    nomatch hgrant
  · intro target pc hsome
    exact absurd (testing_inside hsome) hinside

/-- A statement of `phi_test_sema`. -/
theorem Inv.test (hn : 2 ≤ n) (h : table.Inv) {call : TestPc → Pc} {back : Pc}
    (htesting : (table.pc i).testing i = some (target, pc))
    (hcall : ∀ pc, (call pc).testing i = some (target, pc))
    (hcalled : ∀ pc, (call pc).stage = (table.pc i).stage)
    (hback : ∀ target pc, back.testing i = some (target, pc) → pc = .self)
    (hreturned : back.stage = (table.pc i).stage) :
    (table.test i target call pc back).Inv := by
  have hin := testing_inside htesting
  have hothers := h.alone hin
  have hheld := h.held i hin
  have hold := h.tested i target pc htesting
  have hbacktested : ∀ (table : Table n) target' pc, back.testing i = some (target', pc) →
      table.Tested target' pc := by
    intro table target' pc hself
    rw [hback target' pc hself]
    trivial
  -- a comparison changes nothing, and only what it has found out is new
  have hcompare : ∀ (b : Prop) [Decidable b] (next : TestPc), pc ≠ .up →
      (b → table.Tested target next) →
      table.phiTestSema target pc = (table, if b then some next else none) →
      (table.test i target call pc back).Inv := by
    intro b _ next hup hnext hphi
    have hgrant : ∀ target, (table.pc i).testing i ≠ some (target, .up) := by
      intro target' hgrant
      rw [htesting] at hgrant
      exact hup (Prod.mk.inj (Option.some.inj hgrant)).2
    unfold Table.test
    rw [hphi]
    by_cases hb : b
    · rw [if_pos hb]
      apply h.goto hothers h.mutex_le (fun _ => hheld) (hcalled next) hgrant
      intro target' pc' hsome
      rw [hcall] at hsome
      obtain ⟨rfl, rfl⟩ := Prod.mk.inj (Option.some.inj hsome)
      exact hnext hb
    · rw [if_neg hb]
      exact h.goto hothers h.mutex_le (fun _ => hheld) hreturned hgrant (hbacktested table)
  cases pc with
  | self => exact hcompare (table.stateSema target = .hungry) .left (by decide) id rfl
  | left =>
      exact hcompare (table.stateSema (left target) ≠ .eating) .right (by decide)
        (fun hleft => ⟨hold, hleft⟩) rfl
  | right =>
      exact hcompare (table.stateSema (right target) ≠ .eating) .eat (by decide)
        (fun hright => ⟨hold.1, hold.2, hright⟩) rfl
  | eat =>
      obtain ⟨hhungry, hleft, hright⟩ := hold
      obtain ⟨hstage, hzero⟩ := (h.agrees target).of_hungry hhungry
      have hstages := stage_update (hcalled .up)
      have heats : (Function.update table.stateSema target .eating) target = .eating :=
        Function.update_self _ _ _
      change ((table.setState target .eating).goto i (call .up)).Inv
      -- both neighbours were found not to eat, and nobody else is inside
      refine Inv.of_alone hothers rfl h.mutex_le (fun _ => hheld) ?_ ?_ ?_
      · intro j heating
        change Function.update table.stateSema target .eating j = .eating at heating
        change Function.update table.stateSema target .eating (right j) ≠ .eating
        by_cases hj : j = target
        · rw [hj, Function.update_of_ne (right_ne hn target)]
          exact hright
        · rw [Function.update_of_ne hj] at heating
          by_cases hnext : right j = target
          · rw [← hnext, left_right] at hleft
            exact absurd heating hleft
          · rw [Function.update_of_ne hnext]
            exact h.apart j heating
      · intro j
        by_cases hj : j = target
        · rw [hj, Agrees.of_wanting ((hstages target).trans hstage)]
          refine Or.inr ⟨heats, Or.inr ⟨hzero, i, ?_⟩⟩
          change (Function.update table.pc i (call .up) i).testing i = some (target, .up)
          rw [Function.update_self, hcall]
        · refine (h.agrees j).congr (hstages j) (Function.update_of_ne hj _ _) rfl ?_
          intro hgranted
          have hup := hgranted.by_alone hothers
          rw [htesting] at hup
          nomatch (Prod.mk.inj (Option.some.inj hup)).2
      · intro target' pc' hsome
        rw [hcall] at hsome
        obtain ⟨rfl, rfl⟩ := Prod.mk.inj (Option.some.inj hsome)
        exact ⟨heats, hzero, (hstages target).trans hstage⟩
  | up =>
      obtain ⟨heating, hzero, hstage⟩ := hold
      have hstages := stage_update hreturned
      change ((table.upSema target).goto i back).Inv
      -- the semaphore of the philosopher is raised, for him to go on
      refine Inv.of_alone hothers rfl h.mutex_le (fun _ => hheld) h.apart ?_ ?_
      · intro j
        by_cases hj : j = target
        · rw [hj, Agrees.of_wanting ((hstages target).trans hstage)]
          refine Or.inr ⟨heating, Or.inl ?_⟩
          change Function.update table.s target (up (table.s target)) target = 1
          rw [Function.update_self, hzero]
          rfl
        · refine (h.agrees j).congr (hstages j) rfl (Function.update_of_ne hj _ _) ?_
          intro hgranted
          have hup := hgranted.by_alone hothers
          rw [htesting] at hup
          exact absurd (Prod.mk.inj (Option.some.inj hup)).1.symm hj
      · exact hbacktested _

/-- A philosopher says that it is hungry, or that it is thinking again. -/
theorem Inv.setState (h : table.Inv) {phase : Phase} (hin : (table.pc i).inside)
    (htesting : (table.pc i).testing i = none) (hphase : phase ≠ .eating)
    (hself : ((table.setState i phase).goto i p).Agrees i)
    (htested : ∀ target pc, p.testing i = some (target, pc) → pc = .self) :
    ((table.setState i phase).goto i p).Inv := by
  have hothers := h.alone hin
  have hkeep : ∀ j, Function.update table.stateSema i phase j = .eating →
      table.stateSema j = .eating := by
    intro j heating
    by_cases hj : j = i
    · rw [hj, Function.update_self] at heating
      exact absurd heating hphase
    · rw [Function.update_of_ne hj] at heating
      exact heating
  refine Inv.of_alone hothers rfl h.mutex_le (fun _ => h.held i hin) ?_ ?_ ?_
  · intro j heating hright
    exact h.apart j (hkeep j heating) (hkeep (right j) hright)
  · intro j
    by_cases hj : j = i
    · rw [hj]
      exact hself
    · have hstage : (Function.update table.pc i p j).stage = (table.pc j).stage := by
        rw [Function.update_of_ne hj]
      refine (h.agrees j).congr hstage (Function.update_of_ne hj _ _) rfl ?_
      intro hgranted
      have hup := hgranted.by_alone hothers
      rw [htesting] at hup
      nomatch hup
  · intro target pc hsome
    rw [htested target pc hsome]
    trivial

/-- `down(&s[i])` takes the permission to eat that is in the semaphore. -/
theorem Inv.takeDown (h : table.Inv) (hpc : table.pc i = .takeDown) {value : Nat}
    (hvalue : table.s i = value + 1) :
    ({ table with s := Function.update table.s i value }.goto i .taken).Inv := by
  have hstage : (table.pc i).stage = .wanting := by
    rw [hpc]
    rfl
  obtain ⟨_, hzero⟩ | ⟨heating, hone | ⟨hzero, _⟩⟩ :=
    (Agrees.of_wanting hstage).mp (h.agrees i)
  · omega
  · have hpcs : ∀ j, j ≠ i → Function.update table.pc i .taken j = table.pc j :=
      fun j hj => Function.update_of_ne hj _ _
    have hself : Function.update table.pc i .taken i = .taken := Function.update_self _ _ _
    have hne : ∀ j, (Function.update table.pc i .taken j).inside → j ≠ i := by
      intro j hinside hj
      rw [hj, hself] at hinside
      exact hinside
    refine ⟨h.mutex_le, ?_, ?_, h.apart, ?_, ?_⟩
    · intro j hinside
      have hj := hpcs j (hne j hinside)
      exact h.held j (hj ▸ hinside)
    · intro j k hinsidej hinsidek
      have hj := hpcs j (hne j hinsidej)
      have hk := hpcs k (hne k hinsidek)
      exact h.exclusive j k (hj ▸ hinsidej) (hk ▸ hinsidek)
    · intro j
      by_cases hj : j = i
      · have hfed : (Function.update table.pc i .taken j).stage = .fed := by
          rw [hj, hself]
          rfl
        rw [Agrees.of_fed hfed, hj]
        refine ⟨heating, ?_⟩
        change Function.update table.s i value i = 0
        rw [Function.update_self]
        omega
      · refine (h.agrees j).congr (congrArg Pc.stage (hpcs j hj)) rfl (Function.update_of_ne hj _ _)
          ?_
        intro ⟨k, hgranted⟩
        have hk : k ≠ i := by
          intro heq
          rw [heq, hpc] at hgranted
          nomatch hgranted
        refine ⟨k, ?_⟩
        change (Function.update table.pc i .taken k).testing k = _
        rw [hpcs k hk]
        exact hgranted
    · intro j target pc htesting
      have hj := hpcs j (hne j (testing_inside htesting))
      have hold := h.tested j target pc (hj ▸ htesting)
      cases pc with
      | self => trivial
      | left => exact hold
      | right => exact hold
      | eat => exact hold
      | up =>
          -- the semaphore of the target is zero, so the target is not the one that goes on
          have htarget : target ≠ i := by
            intro heq
            rw [heq] at hold
            exact absurd hold.2.1 (by omega)
          refine ⟨hold.1, ?_, ?_⟩
          · exact (Function.update_of_ne htarget _ _).trans hold.2.1
          · exact (congrArg Pc.stage (hpcs target htarget)).trans hold.2.2
  · omega

/-- No statement breaks what holds between two statements. -/
theorem Inv.of_step (hn : 2 ≤ n) (h : table.Inv) (hstep : step table i = some table') :
    table'.Inv := by
  have hagrees := h.agrees i
  cases hpc : table.pc i with
  | away =>
      rw [step, hpc] at hstep
      obtain ⟨mutex, hdown, rfl⟩ := Option.map_eq_some_iff.mp hstep
      exact h.acquire hdown (hpc ▸ rfl) (hpc ▸ rfl) rfl
  | takeSet =>
      rw [step, hpc] at hstep
      obtain rfl := Option.some.inj hstep
      have hself : (Function.update table.pc i (.takeTest .self) i).stage = .wanting := by
        rw [Function.update_self]
        rfl
      refine h.setState (hpc ▸ trivial) (hpc ▸ rfl) (by decide) ?_ ?_
      · rw [Agrees.of_wanting hself]
        have hresting := (Agrees.of_resting (hpc ▸ rfl)).mp hagrees
        exact Or.inl ⟨Function.update_self _ _ _, hresting.2⟩
      · intro target pc htesting
        exact (Prod.mk.inj (Option.some.inj htesting)).2.symm
  | takeTest pc =>
      rw [step, hpc] at hstep
      obtain rfl := Option.some.inj hstep
      exact h.test hn (hpc ▸ rfl) (fun _ => rfl) (fun _ => hpc ▸ rfl) nofun (hpc ▸ rfl)
  | takeUp =>
      rw [step, hpc] at hstep
      obtain rfl := Option.some.inj hstep
      exact h.release (hpc ▸ trivial) (hpc ▸ rfl) (hpc ▸ rfl) id
  | takeDown =>
      rw [step, hpc] at hstep
      obtain ⟨value, hdown, rfl⟩ := Option.map_eq_some_iff.mp hstep
      exact h.takeDown hpc (down_eq_some hdown)
  | taken =>
      rw [step, hpc] at hstep
      obtain ⟨mutex, hdown, rfl⟩ := Option.map_eq_some_iff.mp hstep
      exact h.acquire hdown (hpc ▸ rfl) (hpc ▸ rfl) rfl
  | putSet =>
      rw [step, hpc] at hstep
      obtain rfl := Option.some.inj hstep
      have hself : (Function.update table.pc i (.putTestLeft .self) i).stage = .resting := by
        rw [Function.update_self]
        rfl
      refine h.setState (hpc ▸ trivial) (hpc ▸ rfl) (by decide) ?_ ?_
      · rw [Agrees.of_resting hself]
        have hfed := (Agrees.of_fed (hpc ▸ rfl)).mp hagrees
        exact ⟨Function.update_self _ _ _, hfed.2⟩
      · intro target pc htesting
        exact (Prod.mk.inj (Option.some.inj htesting)).2.symm
  | putTestLeft pc =>
      rw [step, hpc] at hstep
      obtain rfl := Option.some.inj hstep
      refine h.test hn (hpc ▸ rfl) (fun _ => rfl) (fun _ => hpc ▸ rfl) ?_ (hpc ▸ rfl)
      intro target pc htesting
      exact (Prod.mk.inj (Option.some.inj htesting)).2.symm
  | putTestRight pc =>
      rw [step, hpc] at hstep
      obtain rfl := Option.some.inj hstep
      exact h.test hn (hpc ▸ rfl) (fun _ => rfl) (fun _ => hpc ▸ rfl) nofun (hpc ▸ rfl)
  | putUp =>
      rw [step, hpc] at hstep
      obtain rfl := Option.some.inj hstep
      exact h.release (hpc ▸ trivial) (hpc ▸ rfl) (hpc ▸ rfl) id

theorem Inv.of_run (hn : 2 ≤ n) (hrun : RunsTo step (fun _ _ => True) (initial n) table) :
    table.Inv :=
  hrun.invariant .of_initial fun _ _ _ h _ hstep => h.of_step hn hstep

end Table

/-- At least three philosophers, in any interleaving and for any number of rounds: no two
neighbours eat, no semaphore of a philosopher exceeds one, and whoever has returned from
`phi_take_forks_sema` is eating until `phi_put_forks_sema` says otherwise. -/
theorem philosophers_safe (hn : 3 ≤ n) {table : Table n}
    (hrun : RunsTo step (fun _ _ => True) (.initial n) table) :
    (∀ i, table.stateSema i = .eating →
      table.stateSema (left i) ≠ .eating ∧ table.stateSema (right i) ≠ .eating) ∧
    (∀ i, table.s i ≤ 1) ∧
    ∀ i, table.pc i = .taken ∨ table.pc i = .putSet → table.stateSema i = .eating := by
  have hinv := Table.Inv.of_run (by omega) hrun
  refine ⟨?_, fun i => (hinv.agrees i).s_le, ?_⟩
  · intro i heating
    refine ⟨?_, hinv.apart i heating⟩
    intro hleft
    have hapart := hinv.apart (left i) hleft
    rw [right_left] at hapart
    exact hapart heating
  · intro i hpc
    have hstage : (table.pc i).stage = .fed := by
      rcases hpc with hpc | hpc <;> rw [hpc] <;> rfl
    exact ((Table.Agrees.of_fed hstage).mp (hinv.agrees i)).1

/-- Of five philosophers, two who are not neighbours have the forks. -/
def twoEat : List (Fin 5) := List.replicate 9 0 ++ List.replicate 9 2

theorem philosophers_safe_twoEat : ∃ table : Table 5, table.pc 0 = .taken ∧ table.pc 2 = .taken ∧
    ∀ i, table.pc i = .taken ∨ table.pc i = .putSet → table.stateSema i = .eating := by
  have hfold : (twoEat.foldlM (fun table i => if True then step table i else none)
      (.initial 5)).map (fun table => (table.pc 0, table.pc 2)) = some (.taken, .taken) := by
    decide
  obtain ⟨table, hrun, hpair⟩ := Option.map_eq_some_iff.mp hfold
  obtain ⟨hzero, htwo⟩ := Prod.mk.inj hpair
  have hsafe := philosophers_safe (by decide) (RunsTo.of_foldlM hrun)
  exact ⟨table, hzero, htwo, hsafe.2.2⟩

end Ucore.Sync.Philosophers
