import Ucore.Foundation.DeltaList
import Ucore.Schedule.Timer

/-!
# What the functions of timers do

The timers on the list, with the fields `expires`, are a delta list. `add_timer`,
`del_timer` and `run_timer_list` are the operations of delta lists.
-/

namespace Ucore.Schedule

open Machine Process Links

/-- The timers `xs` are on the list, in their order, each with a process to wake, and the links of
every other timer lead to itself. -/
structure Listed (s : Timers) (xs : List Nat) : Prop where
  ring : s.link.Ring .timerList (xs.map .timerLink)
  idle : ∀ t, t ∉ xs → s.link.listEmpty (.timerLink t) = true
  procs : ∀ t ∈ xs, s.proc t ≠ none

/-- The list as a delta list. -/
def pairs (expires : Nat → Nat) (xs : List Nat) : List (Nat × Nat) := xs.map fun t => (t, expires t)

/-- The entry of the first timer. -/
def entryOf : List Nat → Entry
  | [] => .timerList
  | t :: _ => .timerLink t

variable {s s' : Timers} {xs ys zs : List Nat} {t fuel : Nat} {E : Stop → Prop}

@[simp] theorem ends_setExpires {n : Nat} {Q : PUnit → Timers → Prop} :
    Ends E (setExpires t n) s Q ↔
    Q ⟨⟩ { s with expires := Function.update s.expires t n } := Iff.rfl

@[simp] theorem ends_setLink {f : Links Entry → Links Entry} {Q : PUnit → Timers → Prop} :
    Ends E (setLink f) s Q ↔ Q ⟨⟩ { s with link := f s.link } := Iff.rfl

theorem pairs_congr {expires expires' : Nat → Nat} (h : ∀ t ∈ xs, expires' t = expires t) :
    pairs expires' xs = pairs expires xs :=
  List.map_congr_left fun t ht => by rw [h t ht]

theorem pairs_keys (expires : Nat → Nat) (xs : List Nat) :
    (pairs expires xs).map Prod.fst = xs := by
  rw [pairs, List.map_map]
  exact List.map_id xs

theorem pairs_update {expires : Nat → Nat} {n : Nat} (ht : t ∉ xs) :
    pairs (Function.update expires t n) xs = pairs expires xs :=
  pairs_congr fun _ hu => Function.update_of_ne (ne_of_mem_of_not_mem hu ht) ..

namespace Listed

theorem nodup (h : Listed s xs) : xs.Nodup :=
  List.Nodup.of_map _ (List.nodup_cons.mp h.ring.nodup).2

theorem next_last (h : Listed s (xs ++ ys)) :
    s.link.next ((Entry.timerList :: xs.map .timerLink).getLast (List.cons_ne_nil _ _)) =
      entryOf ys := by
  have hring := h.ring
  rw [List.map_append] at hring
  rw [hring.joined.1]
  cases ys with
  | nil => rfl
  | cons y ys => rfl

theorem first (h : Listed s xs) : s.link.next .timerList = entryOf xs := by
  have hempty : Listed s ([] ++ xs) := h
  exact hempty.next_last

theorem next (h : Listed s (xs ++ t :: ys)) : s.link.next (.timerLink t) = entryOf ys := by
  have hsplit : Listed s ((xs ++ [t]) ++ ys) := by rwa [List.append_assoc]
  have hnext := hsplit.next_last
  simpa using hnext

theorem mem_iff (h : Listed s xs) : t ∈ xs ↔ s.link.listEmpty (.timerLink t) = false := by
  constructor
  · intro ht
    obtain ⟨ys, zs, rfl⟩ := List.append_of_mem ht
    have hnext := h.next
    have hnodup := h.nodup
    rw [listEmpty, hnext]
    cases zs with
    | nil => rfl
    | cons z zs =>
        have hne : z ≠ t := by
          rintro rfl
          exact (List.nodup_cons.mp (List.nodup_append.mp hnodup).2.1).1 List.mem_cons_self
        simpa [entryOf] using hne
  · intro hfull
    by_contra ht
    rw [h.idle t ht] at hfull
    cases hfull

/-- Other fields may change. -/
theorem congr (h : Listed s xs) (hlink : s'.link = s.link) (hproc : s'.proc = s.proc) :
    Listed s' xs where
  ring := hlink ▸ h.ring
  idle t ht := hlink ▸ h.idle t ht
  procs t ht := hproc ▸ h.procs t ht

end Listed

/-! ## `add_timer` -/

theorem addLoop_spec (h : Listed s (xs ++ ys)) (ht : t ∉ ys)
    (hfuel : ys.length < fuel ∨ E .runaway) :
    Ends E (addLoop t fuel (entryOf ys)) s fun le s' => ∃ us vs, ys = us ++ vs ∧ le = entryOf vs ∧
      s' = { s with expires := s'.expires } ∧ (∀ u ∉ ys, u ≠ t → s'.expires u = s.expires u) ∧
      pairs s'.expires (us ++ t :: vs) = DeltaList.insert t (s.expires t) (pairs s.expires ys) := by
  induction ys generalizing xs s fuel with
  | nil =>
      cases fuel with
      | zero => exact hfuel.resolve_left (Nat.not_lt_zero _)
      | succ fuel => exact ⟨[], [], rfl, rfl, rfl, fun _ _ _ => rfl, rfl⟩
  | cons y ys ih =>
      obtain ⟨hty, htys⟩ := not_or.mp (fun hin => ht (List.mem_cons.mpr hin))
      have hy : y ∉ ys := (List.nodup_cons.mp (List.nodup_append.mp h.nodup).2.1).1
      cases fuel with
      | zero => exact hfuel.resolve_left (Nat.not_lt_zero _)
      | succ fuel =>
          simp only [entryOf, addLoop, ends_bind, ends_get]
          split
          next hlt =>
            rw [ends_bind, ends_setExpires, ends_pure]
            refine ⟨[], y :: ys, rfl, rfl, rfl, ?_, ?_⟩
            · intro u hu _
              exact Function.update_of_ne (ne_of_mem_of_not_mem List.mem_cons_self hu).symm ..
            · simp only [List.nil_append, pairs, List.map_cons, DeltaList.insert, if_pos hlt,
                Function.update_self, Function.update_of_ne hty]
              exact congrArg (fun l => (t, s.expires t) :: (y, s.expires y - s.expires t) :: l)
                (pairs_update hy)
          next hnot =>
            have hsplit :
                Listed { s with expires := Function.update s.expires t (s.expires t - s.expires y) }
                ((xs ++ [y]) ++ ys) := by
              rw [List.append_assoc]
              exact h.congr rfl rfl
            rw [ends_bind, ends_setExpires, h.next]
            apply (ih hsplit htys (hfuel.imp_left Nat.lt_of_succ_lt_succ)).imp
            intro le u hloop
            obtain ⟨us, vs, rfl, hle, hu, hsame, hpairs⟩ := hloop
            dsimp only at hu hsame hpairs
            have hyu : u.expires y = s.expires y := by
              rw [hsame y hy (Ne.symm hty)]
              exact Function.update_of_ne (Ne.symm hty) ..
            refine ⟨y :: us, vs, rfl, hle, hu, ?_, ?_⟩
            · intro v hv hvt
              rw [hsame v (fun hin => hv (List.mem_cons_of_mem y hin)) hvt]
              exact Function.update_of_ne hvt ..
            · rw [List.cons_append, pairs, List.map_cons, hyu]
              rw [pairs_update htys, Function.update_self] at hpairs
              rw [pairs, List.map_cons, DeltaList.insert, if_neg hnot]
              exact congrArg ((y, s.expires y) :: ·) hpairs

theorem addTimer_spec (h : Listed s xs) (ht : t ∉ xs) (hpos : 0 < s.expires t)
    (hproc : s.proc t ≠ none) (hfuel : xs.length < fuel ∨ E .runaway) :
    Ends E (addTimer fuel t) s fun _ s' => ∃ xs', Listed s' xs' ∧
      pairs s'.expires xs' = DeltaList.insert t (s.expires t) (pairs s.expires xs) := by
  simp only [addTimer, ends_bind, ends_get, ends_check (And.intro hpos hproc),
    ends_check (h.idle t ht), h.first]
  have hwhole : Listed s ([] ++ xs) := h
  apply (addLoop_spec hwhole ht hfuel).imp
  intro le u hloop
  obtain ⟨us, vs, rfl, rfl, hu, _, hpairs⟩ := hloop
  rw [ends_setLink]
  have hlink : u.link = s.link := by rw [hu]
  have hprocs : u.proc = s.proc := by rw [hu]
  have hnew : Entry.timerLink t ∉ Entry.timerList :: (us ++ vs).map .timerLink := by simpa using ht
  refine ⟨us ++ t :: vs, ⟨?_, ?_, ?_⟩, hpairs⟩
  · have hring := h.ring
    rw [hlink]
    cases vs with
    | nil =>
        rw [List.append_nil] at hring hnew
        rw [List.map_append]
        exact hring.listAddBefore_header hnew
    | cons v vs =>
        rw [List.map_append, List.map_cons] at hring hnew ⊢
        exact hring.listAddBefore hnew
  · intro v hv
    have hvt : v ≠ t := ne_of_mem_of_not_mem (by simp) hv |>.symm
    have hvs : v ∉ us ++ vs :=
      fun hin => hv (List.perm_middle.mem_iff.mpr (List.mem_cons_of_mem t hin))
    have hle : entryOf vs ∈ Entry.timerList :: (us ++ vs).map .timerLink := by
      cases vs with
      | nil => exact List.mem_cons_self
      | cons w ws => simp [entryOf]
    have hidle := h.idle v hvs
    rw [hlink, listEmpty, h.ring.listAddBefore_next hle (by simpa using hvs) (by simpa using hvt)]
    exact hidle
  · intro v hv
    rw [hprocs]
    rcases List.mem_cons.mp (List.perm_middle.mem_iff.mp hv) with rfl | hin
    · exact hproc
    · exact h.procs v hin

/-! ## `del_timer` -/

/-- A timer that is not on the list stays so. -/
theorem delTimer_idle (h : Listed s xs) (ht : t ∉ xs) : delTimer t s = .ok (⟨⟩, s) := by
  apply Ends.eq_ok
  rw [delTimer, ends_bind, ends_get, h.idle t ht]
  exact ⟨rfl, rfl⟩

theorem giveNext_spec (h : Listed s (xs ++ t :: ys))
    (hsmall : ∀ y ∈ ys.head?, s.expires y + s.expires t < 2 ^ 32) :
    Ends E (giveNext t) s fun _ s' => s' = { s with expires := s'.expires } ∧
      pairs s'.expires xs = pairs s.expires xs ∧
      pairs s'.expires ys = DeltaList.delay (s.expires t) (pairs s.expires ys) := by
  have hnodup := h.nodup
  rw [giveNext, ends_bind, ends_get]
  split
  · rw [h.next]
    cases ys with
    | nil => exact ⟨rfl, rfl, rfl⟩
    | cons y ys =>
        have hy : y ∉ ys :=
          (List.nodup_cons.mp (List.nodup_cons.mp (List.nodup_append.mp hnodup).2.1).2).1
        have hyx : y ∉ xs := fun hin => (List.nodup_append.mp hnodup).2.2 y hin y (by simp) rfl
        have hsum : uint (s.expires y + s.expires t) = s.expires y + s.expires t :=
          Nat.mod_eq_of_lt (hsmall y rfl)
        change Ends E (setExpires y (uint (s.expires y + s.expires t))) s _
        rw [ends_setExpires, hsum]
        refine ⟨rfl, pairs_update hyx, ?_⟩
        have hrest : pairs (Function.update s.expires y (s.expires y + s.expires t)) ys =
            pairs s.expires ys := pairs_update hy
        simp only [pairs, List.map_cons, DeltaList.delay, Function.update_self] at hrest ⊢
        rw [hrest]
  next hzero =>
    have hzero := not_not.mp hzero
    refine ⟨rfl, rfl, ?_⟩
    rw [hzero]
    cases ys with
    | nil => rfl
    | cons y ys => rfl

theorem delTimer_spec (h : Listed s (xs ++ t :: ys))
    (hsmall : ∀ y ∈ ys.head?, s.expires y + s.expires t < 2 ^ 32) :
    Ends E (delTimer t) s fun _ s' => Listed s' (xs ++ ys) ∧
      pairs s'.expires (xs ++ ys) =
        pairs s.expires xs ++ DeltaList.delay (s.expires t) (pairs s.expires ys) := by
  have hfull := h.mem_iff.mp (by simp : t ∈ xs ++ t :: ys)
  simp only [delTimer, ends_bind, ends_get, hfull, if_true]
  apply (giveNext_spec h hsmall).imp
  intro _ u hgive
  obtain ⟨hu, hxs, hys⟩ := hgive
  rw [ends_setLink]
  have hlink : u.link = s.link := by rw [hu]
  have hprocs : u.proc = s.proc := by rw [hu]
  have hnodup := (List.perm_middle.nodup_iff.mp h.nodup)
  have htout := (List.nodup_cons.mp hnodup).1
  refine ⟨⟨?_, ?_, ?_⟩, ?_⟩
  · have hring := h.ring
    rw [List.map_append, List.map_cons] at hring
    rw [hlink, List.map_append]
    apply hring.listDel.listInit_other
    rw [← List.map_append]
    simpa using htout
  · intro v hv
    rw [hlink, listDelInit, listEmpty]
    by_cases hvt : v = t
    · simp [listInit, hvt]
    · have hvs : v ∉ xs ++ t :: ys := by
        intro hin
        rcases List.mem_cons.mp (List.perm_middle.mem_iff.mp hin) with heq | hin
        · exact hvt heq
        · exact hv hin
      have hidle := h.idle v hvs
      have hnext : (s.link.listDel (.timerLink t)).next (.timerLink v) =
          s.link.next (.timerLink v) :=
        h.ring.listDel_next (by simp) (by simpa using hvs)
      simp only [listInit, setPrev_next, setNext_next, Entry.timerLink.injEq, if_neg hvt, hnext]
      exact hidle
  · intro v hv
    rw [hprocs]
    exact h.procs v (List.perm_middle.mem_iff.mpr (List.mem_cons_of_mem t hv))
  · dsimp only
    rw [pairs, List.map_append]
    exact congrArg₂ (· ++ ·) hxs hys

/-! ## `run_timer_list` -/

/-- Why waking the process of a timer may fail: it is a zombie, or waits and is not to be
interrupted. -/
def Woken : Stop → Prop
  | .waitState => True
  | .wakeupProc => True
  | _ => False

theorem wakeupProc_spec {proc : Nat} (hE : ∀ e, Woken e → E e) :
    Ends E (wakeupProc proc) s fun _ s' => s'.link = s.link ∧ s'.expires = s.expires ∧
      s'.proc = s.proc := by
  rw [wakeupProc, ends_bind, ends_get, ends_bind]
  by_cases hstate : s.state proc ≠ .zombie
  · rw [ends_check hstate]
    split
    · exact ⟨rfl, rfl, rfl⟩
    · exact ⟨rfl, rfl, rfl⟩
  · rw [check, if_neg hstate]
    exact hE .wakeupProc trivial

theorem ends_deref {o : Option Nat} {proc : Nat} (ho : o = some proc) {Q : Nat → Timers → Prop} :
    Ends E (deref o) s Q ↔ Q proc s := by
  rw [ho]
  exact Iff.rfl

/-- The first timer does not wait any more, and fires. -/
theorem fire_spec (h : Listed s (t :: ys)) (hzero : s.expires t = 0)
    (hsmall : ∀ y ∈ ys, s.expires y < 2 ^ 32) (hE : ∀ e, Woken e → E e) :
    Ends E (fire t) s fun _ s' => Listed s' ys ∧ pairs s'.expires ys = pairs s.expires ys := by
  obtain ⟨proc, hproc⟩ := Option.ne_none_iff_exists'.mp (h.procs t List.mem_cons_self)
  rw [fire, ends_bind, ends_get, ends_bind, ends_deref hproc, ends_bind]
  by_cases hstate : s.waitState proc ≠ 0 → s.waitState proc &&& WT_INTERRUPTED ≠ 0
  · rw [ends_check hstate, ends_bind]
    apply (wakeupProc_spec hE).imp
    intro _ u hwake
    obtain ⟨hlink, hexpires, hprocs⟩ := hwake
    have hlisted : Listed u ([] ++ t :: ys) := h.congr hlink hprocs
    have hhead : ∀ y ∈ ys.head?, u.expires y + u.expires t < 2 ^ 32 := by
      intro y hy
      rw [hexpires, hzero]
      exact hsmall y (List.mem_of_head? hy)
    apply (delTimer_spec hlisted hhead).imp
    intro _ v hdel
    obtain ⟨hlisted', hpairs⟩ := hdel
    refine ⟨hlisted', hpairs.trans ?_⟩
    rw [hexpires, hzero]
    cases ys with
    | nil => rfl
    | cons y ys => rfl
  · rw [check, if_neg hstate]
    exact hE .waitState trivial

theorem expireLoop_spec (h : Listed s (t :: ys)) (hsmall : ∀ y ∈ ys, s.expires y < 2 ^ 32)
    (hfuel : ys.length < fuel ∨ E .runaway) (hE : ∀ e, Woken e → E e) :
    Ends E (expireLoop fuel (.timerLink t) t) s fun fired s' => ∃ zs, Listed s' zs ∧
      fired = (DeltaList.ripe (pairs s.expires (t :: ys))).map Prod.fst ∧
      pairs s'.expires zs = DeltaList.unripe (pairs s.expires (t :: ys)) := by
  induction fuel generalizing s t ys with
  | zero => exact hfuel.resolve_left (Nat.not_lt_zero _)
  | succ fuel ih =>
      have hwhole : Listed s ([] ++ t :: ys) := h
      rw [expireLoop, ends_bind, ends_get]
      by_cases hzero : s.expires t = 0
      · have hripe : DeltaList.ripe (pairs s.expires (t :: ys)) =
            (t, s.expires t) :: DeltaList.ripe (pairs s.expires ys) :=
          List.takeWhile_cons_of_pos (decide_eq_true hzero)
        have hunripe : DeltaList.unripe (pairs s.expires (t :: ys)) =
            DeltaList.unripe (pairs s.expires ys) :=
          List.dropWhile_cons_of_pos (decide_eq_true hzero)
        rw [if_pos hzero, ends_bind, hripe, hunripe]
        apply (fire_spec h hzero hsmall hE).imp
        intro _ u hfire
        obtain ⟨hlisted, hpairs⟩ := hfire
        rw [hwhole.next]
        cases ys with
        | nil => exact ⟨[], hlisted, rfl, rfl⟩
        | cons y ys =>
            have hexpires : ∀ z ∈ y :: ys, u.expires z = s.expires z := by
              intro z hz
              have heq := List.map_inj_left.mp hpairs z hz
              exact congrArg Prod.snd heq
            change Ends E (do
              let rest ← expireLoop fuel (.timerLink y) y
              return t :: rest) u _
            rw [ends_bind]
            have hrest : ∀ z ∈ ys, u.expires z < 2 ^ 32 := by
              intro z hz
              have hz := List.mem_cons_of_mem y hz
              rw [hexpires z hz]
              exact hsmall z hz
            apply (ih hlisted hrest (hfuel.imp_left Nat.lt_of_succ_lt_succ)).imp
            intro fired v hloop
            obtain ⟨zs, hlisted', rfl, hpairs'⟩ := hloop
            rw [hpairs] at hpairs'
            refine ⟨zs, hlisted', ?_, hpairs'⟩
            rw [hpairs]
            rfl
      · have hripe : DeltaList.ripe (pairs s.expires (t :: ys)) = [] :=
          List.takeWhile_cons_of_neg (by simpa using hzero)
        have hunripe : DeltaList.unripe (pairs s.expires (t :: ys)) = pairs s.expires (t :: ys) :=
          List.dropWhile_cons_of_neg (by simpa using hzero)
        rw [if_neg hzero, hripe, hunripe]
        exact ⟨t :: ys, h, rfl, rfl⟩

theorem runTimerList_spec (h : Listed s xs) (hpos : ∀ p ∈ (pairs s.expires xs).head?, 0 < p.2)
    (hsmall : ∀ t ∈ xs, s.expires t < 2 ^ 32) (hfuel : xs.length < fuel ∨ E .runaway)
    (hE : ∀ e, Woken e → E e) :
    Ends E (runTimerList fuel) s fun fired s' => ∃ zs, Listed s' zs ∧
      fired = (DeltaList.ripe (DeltaList.tick (pairs s.expires xs))).map Prod.fst ∧
      pairs s'.expires zs = DeltaList.unripe (DeltaList.tick (pairs s.expires xs)) := by
  rw [runTimerList, ends_bind, ends_get, h.first]
  cases xs with
  | nil => exact ⟨[], h, rfl, rfl⟩
  | cons t ys =>
      have hne : s.expires t ≠ 0 := Nat.ne_of_gt (hpos (t, s.expires t) rfl)
      have ht : t ∉ ys := (List.nodup_cons.mp h.nodup).1
      change Ends E (do
        check .headExpires (s.expires t ≠ 0)
        setExpires t (s.expires t - 1)
        expireLoop fuel (.timerLink t) t) s _
      rw [ends_bind, ends_check hne, ends_bind, ends_setExpires]
      have hlisted : Listed { s with expires := Function.update s.expires t (s.expires t - 1) }
        (t :: ys) :=
        h.congr rfl rfl
      have htick : pairs (Function.update s.expires t (s.expires t - 1)) (t :: ys) =
          DeltaList.tick (pairs s.expires (t :: ys)) := by
        rw [pairs, List.map_cons, Function.update_self]
        exact congrArg ((t, s.expires t - 1) :: ·) (pairs_update ht)
      rw [← htick]
      apply expireLoop_spec hlisted _ (hfuel.imp_left Nat.lt_of_succ_lt) hE
      intro z hz
      apply Nat.lt_of_le_of_lt (Nat.le_of_eq _) (hsmall z (List.mem_cons_of_mem t hz))
      exact Function.update_of_ne (ne_of_mem_of_not_mem hz ht) ..

/-! ## The processes of the timers -/

/-- The process runs again: it is runnable, and if it was not it does not wait any more. -/
structure Roused (s s' : Timers) (proc : Nat) : Prop where
  state : s'.state proc = .runnable
  waitState : s'.waitState proc = if s.state proc = .runnable then s.waitState proc else 0

/-- What firing some timers does to the processes. Each timer rouses the process that it was
added with, and all other processes are as they were. -/
structure Awakens (s : Timers) (fired : List Nat) (s' : Timers) : Prop where
  roused : ∀ timer ∈ fired, ∃ proc, s.proc timer = some proc ∧ Roused s s' proc
  others : ∀ proc, (∀ timer ∈ fired, s.proc timer ≠ some proc) →
    s'.state proc = s.state proc ∧ s'.waitState proc = s.waitState proc
  proc : s'.proc = s.proc

section Awakens

variable {u : Timers} {fired rest : List Nat} {proc : Nat}

theorem awakens_nothing (hstate : s'.state = s.state) (hwait : s'.waitState = s.waitState)
    (hproc : s'.proc = s.proc) : Awakens s [] s' :=
  ⟨nofun, fun p _ => ⟨congrFun hstate p, congrFun hwait p⟩, hproc⟩

/-- A process that has been roused stays so, whether or not another timer rouses it again. -/
theorem Awakens.roused_of_roused (h : Awakens u rest s') (hproc : Roused s u proc) :
    Roused s s' proc := by
  by_cases hagain : ∃ timer ∈ rest, u.proc timer = some proc
  · obtain ⟨timer, hmem, htimer⟩ := hagain
    obtain ⟨again, heq, hroused⟩ := h.roused timer hmem
    obtain rfl := Option.some.inj (htimer.symm.trans heq)
    refine ⟨hroused.state, ?_⟩
    rw [hroused.waitState, if_pos hproc.state, hproc.waitState]
  · obtain ⟨hstate, hwait⟩ := h.others proc fun timer hmem htimer => hagain ⟨timer, hmem, htimer⟩
    exact ⟨hstate.trans hproc.state, hwait.trans hproc.waitState⟩

/-- One timer after another. -/
theorem Awakens.cons (hfirst : Awakens s [t] u) (hrest : Awakens u rest s') :
    Awakens s (t :: rest) s' := by
  obtain ⟨proc, hproc, hroused⟩ := hfirst.roused t (List.mem_singleton_self t)
  refine ⟨fun timer hmem => ?_, fun other hother => ?_, hrest.proc.trans hfirst.proc⟩
  · rcases List.mem_cons.mp hmem with rfl | hmem
    · exact ⟨proc, hproc, hrest.roused_of_roused hroused⟩
    obtain ⟨later, hlater, hroused'⟩ := hrest.roused timer hmem
    rw [hfirst.proc] at hlater
    refine ⟨later, hlater, ?_⟩
    by_cases hsame : later = proc
    · exact hsame ▸ hrest.roused_of_roused hroused
    · -- the first timer has left this process alone
      have hkept := hfirst.others later fun timer htimer => by
        obtain rfl := List.mem_singleton.mp htimer
        exact fun heq => hsame (Option.some.inj (heq.symm.trans hproc))
      exact ⟨hroused'.state, by rw [hroused'.waitState, hkept.1, hkept.2]⟩
  · have hthen := hrest.others other fun timer hmem => by
      rw [hfirst.proc]
      exact hother timer (List.mem_cons_of_mem t hmem)
    have hnow := hfirst.others other fun timer hmem => by
      obtain rfl := List.mem_singleton.mp hmem
      exact hother timer List.mem_cons_self
    exact ⟨hthen.1.trans hnow.1, hthen.2.trans hnow.2⟩

end Awakens

/-- Timers and links change, processes do not. -/
def Unaware (s s' : Timers) : Prop :=
  s'.state = s.state ∧ s'.waitState = s.waitState ∧ s'.proc = s.proc

theorem Unaware.awakens {u : Timers} {fired : List Nat} (h : Unaware s u)
    (hwoken : Awakens u fired s') :
    Awakens s fired s' := by
  obtain ⟨hstate, hwait, hproc⟩ := h
  refine ⟨fun timer hmem => ?_, fun other hother => ?_, hwoken.proc.trans hproc⟩
  · obtain ⟨proc, htimer, hroused⟩ := hwoken.roused timer hmem
    exact ⟨proc, hproc ▸ htimer, hroused.state, by rw [hroused.waitState, hstate, hwait]⟩
  · rw [← hstate, ← hwait]
    exact hwoken.others other (hproc ▸ hother)

theorem addLoop_unaware {le : Entry} :
    Ends (fun _ => True) (addLoop t fuel le) s fun _ s' => Unaware s s' := by
  induction fuel generalizing s le with
  | zero => exact trivial
  | succ fuel ih =>
      cases le with
      | timerList => exact ⟨rfl, rfl, rfl⟩
      | timerLink next =>
          rw [addLoop, ends_bind, ends_get]
          split
          · exact ⟨rfl, rfl, rfl⟩
          · exact ih

theorem addTimer_unaware : Ends (fun _ => True) (addTimer fuel t) s fun _ s' => Unaware s s' := by
  rw [addTimer, ends_bind, ends_get, ends_bind, ends_check_of trivial]
  intro _
  rw [ends_bind, ends_check_of trivial]
  intro _
  rw [ends_bind]
  exact addLoop_unaware.imp fun _ _ hkept => hkept

theorem delTimer_unaware : Ends (fun _ => True) (delTimer t) s fun _ s' => Unaware s s' := by
  rw [delTimer, ends_bind, ends_get]
  split
  · rw [ends_bind, giveNext, ends_bind, ends_get]
    split
    · split
      · exact ⟨rfl, rfl, rfl⟩
      · exact ⟨rfl, rfl, rfl⟩
    · exact ⟨rfl, rfl, rfl⟩
  · exact ⟨rfl, rfl, rfl⟩

theorem wakeupProc_awakens {proc : Nat} (hproc : s.proc t = some proc) :
    Ends (fun _ => True) (wakeupProc proc) s fun _ s' => Awakens s [t] s' := by
  rw [wakeupProc, ends_bind, ends_get, ends_bind, ends_check_of trivial]
  intro _
  have honly : ∀ other, (∀ timer ∈ [t], s.proc timer ≠ some other) → other ≠ proc := by
    rintro other hother rfl
    exact hother t (List.mem_singleton_self t) hproc
  by_cases hrun : s.state proc = .runnable
  · rw [if_neg (not_not_intro hrun)]
    refine ⟨fun timer hmem => ?_, fun _ _ => ⟨rfl, rfl⟩, rfl⟩
    obtain rfl := List.mem_singleton.mp hmem
    exact ⟨proc, hproc, hrun, (if_pos hrun).symm⟩
  · rw [if_pos hrun]
    refine ⟨fun timer hmem => ?_, fun other hother => ?_, rfl⟩
    · obtain rfl := List.mem_singleton.mp hmem
      exact ⟨proc, hproc, Function.update_self ..,
        (Function.update_self ..).trans (if_neg hrun).symm⟩
    · exact ⟨Function.update_of_ne (honly other hother) ..,
        Function.update_of_ne (honly other hother) ..⟩

theorem fire_awakens : Ends (fun _ => True) (fire t) s fun _ s' => Awakens s [t] s' := by
  rw [fire, ends_bind, ends_get, ends_bind]
  cases hproc : s.proc t with
  | none => exact trivial
  | some proc =>
      rw [ends_deref rfl, ends_bind, ends_check_of trivial]
      intro _
      rw [ends_bind]
      apply (wakeupProc_awakens hproc).imp
      intro _ u hwoken
      apply delTimer_unaware.imp
      rintro _ v ⟨hstate, hwait, hprocs⟩
      refine ⟨fun timer hmem => ?_, fun other hother => ?_, hprocs.trans hwoken.proc⟩
      · obtain ⟨proc, htimer, hroused⟩ := hwoken.roused timer hmem
        exact ⟨proc, htimer, hstate ▸ hroused.state, hwait ▸ hroused.waitState⟩
      · rw [hstate, hwait]
        exact hwoken.others other hother

theorem expireLoop_awakens {le : Entry} :
    Ends (fun _ => True) (expireLoop fuel le t) s fun fired s' => Awakens s fired s' := by
  induction fuel generalizing s le t with
  | zero => exact trivial
  | succ fuel ih =>
      rw [expireLoop, ends_bind, ends_get]
      split
      · rw [ends_bind]
        apply fire_awakens.imp
        intro _ u hfire
        cases s.link.next le with
        | timerList => exact hfire
        | timerLink next =>
            change Ends _ (do
              let rest ← expireLoop fuel (.timerLink next) next
              return t :: rest) u _
            rw [ends_bind]
            exact ih.imp fun rest v hrest => hfire.cons hrest
      · exact awakens_nothing rfl rfl rfl

/-- A call of `run_timer_list` rouses the processes of the timers that it fires. -/
theorem runTimerList_awakens :
    Ends (fun _ => True) (runTimerList fuel) s fun fired s' => Awakens s fired s' := by
  rw [runTimerList, ends_bind, ends_get]
  cases s.link.next .timerList with
  | timerList => exact awakens_nothing rfl rfl rfl
  | timerLink timer =>
      change Ends _ (do
        check .headExpires (s.expires timer ≠ 0)
        setExpires timer (s.expires timer - 1)
        expireLoop fuel (.timerLink timer) timer) s _
      rw [ends_bind, ends_check_of trivial]
      intro _
      rw [ends_bind, ends_setExpires]
      apply expireLoop_awakens.imp
      intro fired u hwoken
      have hsame :
          Unaware s { s with expires := Function.update s.expires timer (s.expires timer - 1) } :=
        ⟨rfl, rfl, rfl⟩
      exact hsame.awakens hwoken

end Ucore.Schedule
