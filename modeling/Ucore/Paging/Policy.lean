import Ucore.Paging.Swap

/-!
# Replacement managers

What paging relies on of a replacement manager: which pages it holds, and in which
order. `Adds` and `Chooses` say what is special about one; the pages that it holds
change in the same way in all of them.
-/

namespace Ucore.Paging

open Mm Mmu Machine Links

/-- The fields that a replacement manager leaves alone. -/
structure Relisted (w w' : Swap) : Prop where
  praVaddr : w'.praVaddr = w.praVaddr
  disk : w'.disk = w.disk

theorem Relisted.refl (w : Swap) : Relisted w w := ⟨rfl, rfl⟩

theorem Relisted.trans {w w' w'' : Swap} (h : Relisted w w') (h' : Relisted w' w'') :
    Relisted w w'' :=
  ⟨h'.praVaddr.trans h.praVaddr, h'.disk.trans h.disk⟩

/-- A replacement manager with the list of the pages that it holds. -/
structure Policy (sm : SwapManager) where
  Held : Swap → List Nat → Prop
  Adds : List Nat → Nat → List Nat → Prop
  Chooses : List Nat → Nat → List Nat → Prop
  congr : ∀ {w w' l}, Held w l → w'.praList = w.praList → w'.currPtr = w.currPtr → Held w' l
  ring : ∀ {w l}, Held w l → w.praList.Ring .praListHead (l.map .praPageLink)
  adds : ∀ {l f l'}, Adds l f l' → l'.Perm (f :: l)
  chooses : ∀ {l f l'}, Chooses l f l' → l.Perm (f :: l')
  initMm : ∀ w, ∃ w', sm.initMm w = .ok (0, w') ∧ Held w' [] ∧ Relisted w w'
  mapSwappable : ∀ {w l f}, Held w l → f ∉ l →
    ∃ w' l', sm.mapSwappable f w = .ok (0, w') ∧ Held w' l' ∧ Adds l f l' ∧ Relisted w w'
  victim : ∀ {w l}, Held w l → l ≠ [] → l.length ≤ npage →
    ∃ f w' l', sm.swapOutVictim 0 w = .ok ((0, some f), w') ∧ Held w' l' ∧
      Chooses l f l' ∧ Relisted w w'
  noVictim : ∀ {w}, Held w [] →
    sm.swapOutVictim 0 w = .error .emptyList ∨ ∃ w', sm.swapOutVictim 0 w = .ok ((0, none), w')
  tick : ∀ {inTick w}, inTick ≠ 0 → sm.swapOutVictim inTick w = .error .inTick

variable {sm : SwapManager} {pol : Policy sm} {w : Swap} {l l' : List Nat}

theorem Policy.nodup (pol : Policy sm) (h : pol.Held w l) : l.Nodup :=
  List.Nodup.of_map _ (List.nodup_cons.mp (pol.ring h).nodup).2

/-- The list is read off the links. -/
theorem ring_unique (h : w.praList.Ring .praListHead (l.map .praPageLink))
    (h' : w.praList.Ring .praListHead (l'.map .praPageLink)) : l = l' := by
  have hsame : l.map PraEntry.praPageLink = l'.map .praPageLink :=
    (Ring.visits_next h).unique (Ring.visits_next h')
  exact List.map_injective_iff.mpr (fun _ _ heq => PraEntry.praPageLink.inj heq) hsame

/-! ## The clock -/

theorem clockMapSwappable_relisted (f : Nat) (w : Swap) :
    Ends never (clockMapSwappable f) w fun _ w' => Relisted w w' := ⟨rfl, rfl⟩

theorem Clocked.congr {w w' : Swap} {before after : List Nat} (h : Clocked w before after)
    (hlist : w'.praList = w.praList) (hcurr : w'.currPtr = w.currPtr) : Clocked w' before after :=
  ⟨by rw [hlist]; exact h.ring, by rw [hcurr]; exact h.hand⟩

/-- The order of the pages is left open: `clockLoop_chosen` says more of the victim. -/
def clockPolicy : Policy clockManager where
  Held w l := ∃ before after, l = before ++ after ∧ Clocked w before after
  Adds l f l' := l'.Perm (f :: l)
  Chooses l f l' := l.Perm (f :: l')
  congr := by
    rintro w w' l ⟨before, after, hl, h⟩ hlist hcurr
    exact ⟨before, after, hl, Clocked.congr h hlist hcurr⟩
  ring := by
    rintro w l ⟨before, after, rfl, h⟩
    exact h.ring
  adds h := h
  chooses h := h
  initMm w := ⟨_, rfl, ⟨[], [], rfl, listInit_ring w.praList .praListHead, rfl⟩, rfl, rfl⟩
  mapSwappable := by
    rintro w l f ⟨before, after, rfl, h⟩ hnew
    obtain ⟨w', hrun, _, hw'⟩ := clockMapSwappable_clocked h hnew
    have hsame : Relisted w w' := (clockMapSwappable_relisted f w).post hrun
    rcases hw' with hw' | ⟨rfl, hw'⟩
    · refine ⟨w', _, hrun, ⟨before, after ++ [f], rfl, hw'⟩, ?_, hsame⟩
      rw [← List.append_assoc]
      exact List.perm_append_singleton f (before ++ after)
    · refine ⟨w', _, hrun, ⟨before ++ [f], [], rfl, hw'⟩, ?_, hsame⟩
      rw [List.append_nil, List.append_nil]
      exact List.perm_append_singleton f before
  victim := by
    rintro w l ⟨before, after, rfl, h⟩ hne hlength
    obtain ⟨f, w', hrun, hchosen⟩ := h.clockLoop_chosen hne (Nat.lt_succ_of_le hlength)
    obtain ⟨lo, hi, hsplit, hw'⟩ := hchosen.place
    refine ⟨f, w', lo ++ hi, ?_, ⟨lo, hi, rfl, hw'⟩, ?_, hchosen.praVaddr, hchosen.disk⟩
    · change (clockSwapOutVictim (npage + 1) 0 w).bind _ = _
      rw [clockSwapOutVictim, bind_ok (a := ⟨⟩) (t := w) rfl, bind_ok hrun]
      rfl
    · rw [hsplit]
      exact List.perm_middle
  noVictim := by
    rintro w ⟨before, after, hl, h⟩
    obtain ⟨rfl, rfl⟩ := List.append_eq_nil_iff.mp hl.symm
    have hhand : w.currPtr = .praListHead := h.hand
    have hnext : w.praList.next .praListHead = .praListHead := (ring_nil_iff.mp h.ring).1
    refine Or.inl ?_
    change (clockSwapOutVictim (npage + 1) 0 w).bind _ = _
    rw [clockSwapOutVictim, bind_ok (a := ⟨⟩) (t := w) rfl]
    have hloop : clockLoop (npage + 1) w = .error .emptyList := by
      generalize npage = n
      rw [clockLoop, bind_ok (a := w) (t := w) rfl]
      simp only [hhand, if_true, hnext]
      rfl
    change ((clockLoop (npage + 1) w).bind _).bind _ = _
    rw [hloop]
    rfl
  tick := by
    intro inTick w htick
    have hcheck : check Panic.inTick (inTick = 0) w = .error .inTick := by
      rw [check, if_neg htick]
      rfl
    change (Except.bind (Except.bind (check Panic.inTick (inTick = 0) w) _) _) = _
    rw [hcheck]
    rfl

/-! ## Least recently used -/

/-- The pages from the front of the list, where the last one to be used is. -/
def lruPolicy : Policy lruManager where
  Held w l := w.praList.Ring .praListHead (l.map .praPageLink)
  Adds l f l' := l' = f :: l
  Chooses l f l' := l = l' ++ [f]
  congr := by
    intro w w' l h hlist _
    rwa [hlist]
  ring h := h
  adds h := by rw [h]
  chooses h := by
    rw [h]
    exact List.perm_append_singleton _ _
  initMm w := ⟨_, rfl, listInit_ring w.praList .praListHead, rfl, rfl⟩
  mapSwappable := by
    intro w l f h hnew
    have hentry : PraEntry.praPageLink f ∉ PraEntry.praListHead :: l.map .praPageLink := by
      simpa using hnew
    refine ⟨_, f :: l, rfl, ?_, rfl, rfl, rfl⟩
    exact @Ring.listAdd _ _ w.praList .praListHead (.praPageLink f) [] _ h hentry
  victim := by
    intro w l h hne _
    obtain ⟨l', f, rfl⟩ : ∃ l' f, l = l' ++ [f] :=
      ⟨l.dropLast, l.getLast hne, (List.dropLast_append_getLast hne).symm⟩
    rw [List.map_append, List.map_singleton] at h
    have hlast : w.praList.prev .praListHead = .praPageLink f := h.joined_last.2
    refine ⟨f, { w with praList := w.praList.listDel (.praPageLink f) }, l', ?_, ?_, rfl, rfl, rfl⟩
    · change lruSwapOutVictim 0 w = _
      rw [lruSwapOutVictim, bind_ok (a := ⟨⟩) (t := w) rfl, bind_ok (a := w) (t := w) rfl]
      simp only [hlast]
      rfl
    · have hdel := @Ring.listDel _ _ _ _ _ _ [] h
      rwa [List.append_nil] at hdel
  noVictim := by
    intro w h
    have hprev : w.praList.prev .praListHead = .praListHead := (ring_nil_iff.mp h).2
    refine Or.inr ⟨w, ?_⟩
    change lruSwapOutVictim 0 w = _
    rw [lruSwapOutVictim, bind_ok (a := ⟨⟩) (t := w) rfl, bind_ok (a := w) (t := w) rfl]
    simp only [hprev]
    rfl
  tick := by
    intro inTick w htick
    have hcheck : check Panic.inTick (inTick = 0) w = .error .inTick := by
      rw [check, if_neg htick]
      rfl
    change (Except.bind (check Panic.inTick (inTick = 0) w) _) = _
    rw [hcheck]
    rfl

end Ucore.Paging
