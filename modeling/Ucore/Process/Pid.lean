import Mathlib.Data.Finset.Card
import Mathlib.Order.Interval.Finset.SuccPred
import Mathlib.Data.Int.Interval
import Mathlib.Algebra.Order.Ring.Int
import Mathlib.Data.Int.SuccPred
import Ucore.Foundation.Runs

/-!
# Process ids

`get_pid` of `kern/process/proc.c`. Between calls it keeps the last id it gave
out and the end of a gap above it, in which it has seen no process. Processes
come and go between calls; the gap stays empty because new ones get their id from
`get_pid`.
-/

namespace Ucore.Process

def MAX_PROCESS : Nat := 4096

def MAX_PID : Int := MAX_PROCESS * 2

/-! ## The code -/

/-- How a pass over the process list ends: at the end of the list, or with another
pass from its start. -/
inductive Scan
  | done (lastPid nextSafe : Int)
  | again (lastPid : Int)
  deriving DecidableEq

/-- The loop over the ids of the processes on the list. -/
def scan : List Int → Int → Int → Scan
  | [], lastPid, nextSafe => .done lastPid nextSafe
  | pid :: rest, lastPid, nextSafe =>
      if pid = lastPid then
        let lastPid := lastPid + 1
        if lastPid ≥ nextSafe then .again (if lastPid ≥ MAX_PID then 1 else lastPid)
        else scan rest lastPid nextSafe
      else if pid > lastPid ∧ nextSafe > pid then scan rest lastPid pid
      else scan rest lastPid nextSafe

/-- From the label `repeat` on, with a bound on the number of passes. -/
def scans : Nat → List Int → Int → Option (Int × Int)
  | 0, _, _ => none
  | fuel + 1, pids, lastPid =>
      match scan pids lastPid MAX_PID with
      | .done lastPid nextSafe => some (lastPid, nextSafe)
      | .again lastPid => scans fuel pids lastPid

/-- The next values of `last_pid`, which is returned, and `next_safe`. -/
def getPid (fuel : Nat) (pids : List Int) (lastPid nextSafe : Int) : Option (Int × Int) :=
  let lastPid := lastPid + 1
  if lastPid ≥ MAX_PID then scans fuel pids 1
  else if lastPid ≥ nextSafe then scans fuel pids lastPid
  else some (lastPid, nextSafe)

/-! ## One pass -/

/-- No process has an id from `lo` on below `hi`. -/
def Gap (pids : List Int) (lo hi : Int) : Prop := ∀ pid ∈ pids, ¬ (lo ≤ pid ∧ pid < hi)

/-- What the end of a pass says: at the end of the list the last id and those above
it are free up to `nextSafe`; otherwise all ids that have been passed are taken. -/
def Scan.Sound (pids : List Int) (lastPid nextSafe : Int) : Scan → Prop
  | .done lastPid' nextSafe' => lastPid ≤ lastPid' ∧ lastPid' < nextSafe' ∧
      nextSafe' ≤ nextSafe ∧ Gap pids lastPid' nextSafe'
  | .again lastPid' => ∃ m, lastPid ≤ m ∧ m < MAX_PID ∧
      (∀ q, lastPid ≤ q → q ≤ m → q ∈ pids) ∧
      lastPid' = if m + 1 ≥ MAX_PID then 1 else m + 1

theorem scan_sound {pids : List Int} {lastPid nextSafe : Int} (hlt : lastPid < nextSafe)
    (hmax : nextSafe ≤ MAX_PID) : (scan pids lastPid nextSafe).Sound pids lastPid nextSafe := by
  induction pids generalizing lastPid nextSafe with
  | nil => exact ⟨Int.le_refl _, hlt, Int.le_refl _, by simp [Gap]⟩
  | cons pid rest ih =>
      unfold scan
      dsimp only
      split
      next hpid =>
        subst hpid
        split
        next hbehind =>
          refine ⟨pid, Int.le_refl _, by omega, fun q hlo hhi => ?_, rfl⟩
          obtain rfl : q = pid := by omega
          exact List.mem_cons_self
        next hbefore =>
          have hnext := @ih (pid + 1) nextSafe (by omega) hmax
          cases hscan : scan rest (pid + 1) nextSafe with
          | done last safe =>
              rw [hscan] at hnext
              obtain ⟨hle, hlt', hsafe, hgap⟩ := hnext
              refine ⟨by omega, hlt', hsafe, fun q hq => ?_⟩
              rcases List.mem_cons.mp hq with rfl | hq
              · omega
              · exact hgap q hq
          | again last =>
              rw [hscan] at hnext
              obtain ⟨m, hle, hm, htaken, hlast⟩ := hnext
              refine ⟨m, by omega, hm, fun q hlo hhi => ?_, hlast⟩
              by_cases hq : q = pid
              · exact hq ▸ List.mem_cons_self
              · exact List.mem_cons_of_mem _ (htaken q (by omega) hhi)
      next hpid =>
        have hpass : ∀ safe, lastPid < safe → safe ≤ nextSafe → ¬ (lastPid ≤ pid ∧ pid < safe) →
            (scan rest lastPid safe).Sound (pid :: rest) lastPid nextSafe := by
          intro safe hsafe hle hout
          have hnext := ih hsafe (Int.le_trans hle hmax)
          cases hscan : scan rest lastPid safe with
          | done last safe' =>
              rw [hscan] at hnext
              obtain ⟨hle', hlt', hsafe', hgap⟩ := hnext
              refine ⟨hle', hlt', by omega, fun q hq => ?_⟩
              rcases List.mem_cons.mp hq with rfl | hq
              · omega
              · exact hgap q hq
          | again last =>
              rw [hscan] at hnext
              obtain ⟨m, hle', hm, htaken, hlast⟩ := hnext
              exact ⟨m, hle', hm, fun q hlo hhi => List.mem_cons_of_mem _ (htaken q hlo hhi), hlast⟩
        split
        next hbetween => exact hpass pid hbetween.1 (by omega) (by omega)
        next hout => exact hpass nextSafe hlt (Int.le_refl _) (by omega)

/-! ## All passes -/

/-- The number of ids from `lastPid` on to the free id `r`, round the end. -/
def ahead (r lastPid : Int) : Int :=
    if lastPid ≤ r then r - lastPid else r - lastPid + (MAX_PID - 1)

/-- Another pass starts closer to any free id. -/
theorem ahead_lt {pids : List Int} {lastPid nextSafe lastPid' r : Int}
    (hagain : Scan.Sound pids lastPid nextSafe (.again lastPid')) (hlo : 1 ≤ lastPid)
    (hr : 1 ≤ r ∧ r < MAX_PID) (hfree : r ∉ pids) :
    1 ≤ lastPid' ∧ lastPid' < MAX_PID ∧ ahead r lastPid' < ahead r lastPid := by
  obtain ⟨m, hle, hm, htaken, rfl⟩ := hagain
  have hout : r < lastPid ∨ m < r := by
    by_contra hno
    rw [not_or] at hno
    exact hfree (htaken r (by omega) (by omega))
  unfold ahead
  split <;> split <;> split <;> omega

/-- The passes end, with a free id and a gap above it. -/
theorem scans_sound {pids : List Int} {r : Int} (hr : 1 ≤ r ∧ r < MAX_PID) (hfree : r ∉ pids)
    {lastPid : Int} (hlast : 1 ≤ lastPid ∧ lastPid < MAX_PID) :
    ∃ last safe, 1 ≤ last ∧ last < safe ∧ safe ≤ MAX_PID ∧ Gap pids last safe ∧
      ∀ fuel : Nat, ahead r lastPid < fuel → scans fuel pids lastPid = some (last, safe) := by
  have hnonneg : ∀ l, 1 ≤ l ∧ l < MAX_PID → 0 ≤ ahead r l := by
    intro l hl
    unfold ahead
    split <;> omega
  obtain ⟨n, hn⟩ : ∃ n : Nat, ahead r lastPid < n := ⟨(ahead r lastPid + 1).toNat, by omega⟩
  induction n generalizing lastPid with
  | zero =>
      have := hnonneg lastPid hlast
      omega
  | succ n ih =>
      have hsound := @scan_sound pids lastPid MAX_PID hlast.2 (Int.le_refl _)
      cases hscan : scan pids lastPid MAX_PID with
      | done last safe =>
          rw [hscan] at hsound
          obtain ⟨hle, hlt, hsafe, hgap⟩ := hsound
          refine ⟨last, safe, by omega, hlt, hsafe, hgap, fun fuel hfuel => ?_⟩
          cases fuel with
          | zero =>
              have := hnonneg lastPid hlast
              omega
          | succ fuel => simp [scans, hscan]
      | again lastPid' =>
          rw [hscan] at hsound
          obtain ⟨hlo, hhi, hcloser⟩ := ahead_lt hsound hlast.1 hr hfree
          obtain ⟨last, safe, hrest, hlt, hsafe, hgap, hfuel⟩ := ih ⟨hlo, hhi⟩ (by omega)
          refine ⟨last, safe, hrest, hlt, hsafe, hgap, fun fuel hle => ?_⟩
          cases fuel with
          | zero =>
              have := hnonneg lastPid hlast
              omega
          | succ fuel =>
              simp only [scans, hscan]
              exact hfuel fuel (by omega)

/-- There are more ids than processes. -/
theorem exists_free {pids : List Int} (hlen : pids.length ≤ MAX_PROCESS) :
    ∃ r, (1 ≤ r ∧ r < MAX_PID) ∧ r ∉ pids := by
  have hcard : pids.toFinset.card < (Finset.Ico 1 MAX_PID).card := by
    rw [Int.card_Ico]
    have hle := List.toFinset_card_le pids
    unfold MAX_PID MAX_PROCESS at *
    omega
  obtain ⟨r, hr, hfree⟩ := Finset.exists_mem_notMem_of_card_lt_card hcard
  exact ⟨r, Finset.mem_Ico.mp hr, fun hmem => hfree (List.mem_toFinset.mpr hmem)⟩

/-- `get_pid` returns an id that no process has, and leaves an empty gap above it. -/
theorem getPid_sound {pids : List Int} {lastPid nextSafe : Int} (hlen : pids.length ≤ MAX_PROCESS)
    (hlast : 1 ≤ lastPid) (hsafe : nextSafe ≤ MAX_PID) (hgap : Gap pids (lastPid + 1) nextSafe) :
    ∃ last safe, 1 ≤ last ∧ last < safe ∧ safe ≤ MAX_PID ∧ Gap pids last safe ∧
      ∀ fuel : Nat, MAX_PID ≤ fuel → getPid fuel pids lastPid nextSafe = some (last, safe) := by
  obtain ⟨r, hr, hfree⟩ := exists_free hlen
  have hpasses : ∀ l, 1 ≤ l ∧ l < MAX_PID →
      ∃ last safe, 1 ≤ last ∧ last < safe ∧ safe ≤ MAX_PID ∧ Gap pids last safe ∧
        ∀ fuel : Nat, MAX_PID ≤ fuel → scans fuel pids l = some (last, safe) := by
    intro l hl
    obtain ⟨last, safe, hlo, hlt, hmax, hempty, hfuel⟩ := scans_sound hr hfree hl
    refine ⟨last, safe, hlo, hlt, hmax, hempty, fun fuel hle => hfuel fuel ?_⟩
    unfold ahead
    split <;> omega
  unfold getPid
  dsimp only
  split
  next => exact hpasses 1 (by decide)
  next hbelow =>
    split
    next => exact hpasses (lastPid + 1) (by omega)
    next hinside =>
      exact ⟨lastPid + 1, nextSafe, by omega, by omega, hsafe, hgap, fun _ _ => rfl⟩

/-! ## Histories -/

/-- The ids of the processes on `proc_list`, and the static variables of `get_pid`. -/
structure PidState where
  procList : List Int
  lastPid : Int
  nextSafe : Int
  deriving DecidableEq

/-- Before the first process. -/
def PidState.boot : PidState := ⟨[], MAX_PID, MAX_PID⟩

inductive PidOp
  | create
  | remove (pid : Int)

/-- `create` is `get_pid` followed by `set_links`, `remove` is `remove_links`. -/
def PidState.step (st : PidState) : PidOp → Option PidState
  | .create => (getPid MAX_PID.toNat st.procList st.lastPid st.nextSafe).map fun (pid, nextSafe) =>
      ⟨pid :: st.procList, pid, nextSafe⟩
  | .remove pid =>
      if pid ∈ st.procList then some { st with procList := st.procList.erase pid } else none

/-- At most `MAX_PROCESS` processes are alive, which `do_fork` checks before it calls `get_pid`. -/
def PidState.Permitted (st : PidState) : PidOp → Prop
  | .create => st.procList.length < MAX_PROCESS
  | .remove _ => True

instance (st : PidState) (op : PidOp) : Decidable (st.Permitted op) := by
  cases op <;> unfold PidState.Permitted <;> infer_instance

structure PidState.Inv (st : PidState) : Prop where
  length : st.procList.length ≤ MAX_PROCESS
  distinct : st.procList.Nodup
  range : ∀ pid ∈ st.procList, 1 ≤ pid ∧ pid < MAX_PID
  last : 1 ≤ st.lastPid
  safe : st.nextSafe ≤ MAX_PID
  gap : Gap st.procList (st.lastPid + 1) st.nextSafe

namespace PidState.Inv

variable {st st' : PidState} {op : PidOp}

theorem boot : PidState.boot.Inv :=
  ⟨Nat.zero_le _, List.nodup_nil, by simp [PidState.boot], by decide, Int.le_refl _,
    by simp [Gap, PidState.boot]⟩

/-- The next id is new, and its gap stays empty when its process is on the list. -/
theorem getPid (hinv : st.Inv) : ∃ last safe,
    (∀ fuel : Nat, MAX_PID ≤ fuel →
      Process.getPid fuel st.procList st.lastPid st.nextSafe = some (last, safe)) ∧
    1 ≤ last ∧ last < MAX_PID ∧ last ∉ st.procList ∧ safe ≤ MAX_PID ∧
    Gap (last :: st.procList) (last + 1) safe := by
  obtain ⟨last, safe, hlo, hlt, hmax, hgap, hfuel⟩ :=
    getPid_sound hinv.length hinv.last hinv.safe hinv.gap
  refine ⟨last, safe, hfuel, hlo, by omega, fun hmem => hgap last hmem ⟨Int.le_refl _, hlt⟩, hmax,
    fun q hq => ?_⟩
  rcases List.mem_cons.mp hq with rfl | hq
  · omega
  · have := hgap q hq
    omega

theorem step (hinv : st.Inv) (hok : st.Permitted op) (hstep : st.step op = some st') : st'.Inv := by
  cases op with
  | create =>
      obtain ⟨last, safe, hfuel, hlo, hhi, hnew, hmax, hgap⟩ := hinv.getPid
      simp only [PidState.step] at hstep
      rw [hfuel _ (by decide)] at hstep
      obtain rfl := Option.some.inj hstep
      refine ⟨hok, List.nodup_cons.mpr ⟨hnew, hinv.distinct⟩, fun pid hpid => ?_, hlo, hmax, hgap⟩
      rcases List.mem_cons.mp hpid with rfl | hpid
      · exact ⟨hlo, hhi⟩
      · exact hinv.range pid hpid
  | remove pid =>
      simp only [PidState.step, Option.ite_none_right_eq_some, Option.some.injEq] at hstep
      obtain ⟨_, rfl⟩ := hstep
      have hsub : st.procList.erase pid ⊆ st.procList := List.erase_subset
      exact ⟨Nat.le_trans List.length_erase_le hinv.length, hinv.distinct.erase pid,
        fun q hq => hinv.range q (hsub hq), hinv.last, hinv.safe, fun q hq => hinv.gap q (hsub hq)⟩

end PidState.Inv

/-- After any history with at most `MAX_PROCESS` processes at a time, the gap above
the last id is empty, and `get_pid` returns, after less than `MAX_PID` passes, an id
that no process has, and leaves a gap that is empty when the process has been put on
the list. -/
theorem getPid_unique {st : PidState}
    (hrun : RunsTo PidState.step PidState.Permitted PidState.boot st) :
    (∀ pid ∈ st.procList, ¬ (st.lastPid < pid ∧ pid < st.nextSafe)) ∧ st.procList.Nodup ∧
    ∃ last safe, (∀ fuel : Nat, MAX_PID ≤ fuel →
        getPid fuel st.procList st.lastPid st.nextSafe = some (last, safe)) ∧
      1 ≤ last ∧ last < MAX_PID ∧ last ∉ st.procList ∧
      ∀ pid ∈ last :: st.procList, ¬ (last < pid ∧ pid < safe) := by
  have hinv : st.Inv := hrun.invariant .boot fun t op u hinv hok hstep => hinv.step hok hstep
  obtain ⟨last, safe, hfuel, hlo, hhi, hnew, _, hgap⟩ := hinv.getPid
  exact ⟨hinv.gap, hinv.distinct, last, safe, hfuel, hlo, hhi, hnew, hgap⟩

/-- Two processes are created, the first one goes, and the next id is still 3. -/
theorem getPid_unique_reuse : ∃ st : PidState, st.procList = [2] ∧
    (∀ pid ∈ st.procList, ¬ (st.lastPid < pid ∧ pid < st.nextSafe)) ∧
    getPid MAX_PID.toNat st.procList st.lastPid st.nextSafe = some (3, MAX_PID) := by
  have hfold : [PidOp.create, .create, .remove 1].foldlM
      (fun st op => if st.Permitted op then st.step op else none) PidState.boot =
        some ⟨[2], 2, MAX_PID⟩ := by
    decide
  obtain ⟨hgap, _, last, safe, hfuel, _⟩ := getPid_unique (RunsTo.of_foldlM hfold)
  exact ⟨_, rfl, hgap, by decide⟩

end Ucore.Process
