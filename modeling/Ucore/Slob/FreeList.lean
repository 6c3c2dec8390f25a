import Ucore.Foundation.Cycle
import Ucore.Slob.Layout

/-!
# The free list

The free blocks make one ring, in ascending order but for the point where it wraps. A
block that is put back goes between two neighbours of the ring and is merged with them
where they are adjacent in memory.
-/

namespace Ucore.Slob

open Machine Extent

/-- The blocks `free`, in their order, are the free list. -/
structure Linked (s : SlobState) (free : List Extent) : Prop where
  ring : Cycle s.next (free.map start)
  sizes : ∀ x ∈ free, s.units x.start = x.units
  slobfree : s.slobfree ∈ free.map start

/-- Both states agree on the memory of the blocks `live`. -/
def SameOn (live : List Extent) (s t : SlobState) : Prop :=
  ∀ x ∈ live, ∀ a, Mem SLOB_UNIT a x → t.units a = s.units a ∧ t.next a = s.next a

variable {arena : Nat} {free live xs ys : List Extent} {x b : Extent} {s t u : SlobState}
  {cur last fuel : Nat} {rest : List Nat} {E : Stop → Prop}

@[simp] theorem ends_setUnits {a n : Nat} {Q : PUnit → SlobState → Prop} :
    Ends E (setUnits a n) s Q ↔ Q ⟨⟩ { s with units := Function.update s.units a n } := Iff.rfl

@[simp] theorem ends_setNext {a n : Nat} {Q : PUnit → SlobState → Prop} :
    Ends E (setNext a n) s Q ↔ Q ⟨⟩ { s with next := Function.update s.next a n } := Iff.rfl

@[simp] theorem ends_setSlobfree {a : Nat} {Q : PUnit → SlobState → Prop} :
    Ends E (setSlobfree a) s Q ↔ Q ⟨⟩ { s with slobfree := a } := Iff.rfl

namespace SameOn

theorem refl : SameOn live s s := fun _ _ _ _ => ⟨rfl, rfl⟩

theorem trans (h : SameOn live s t) (h' : SameOn live t u) : SameOn live s u :=
  fun x hx a ha => ⟨(h' x hx a ha).1.trans (h x hx a ha).1, (h' x hx a ha).2.trans (h x hx a ha).2⟩

theorem subset (h : SameOn live s t) {live' : List Extent} (hsub : live' ⊆ live) :
    SameOn live' s t :=
  fun x hx => h x (hsub hx)

/-- A header that is in no block of `live` changes. -/
theorem of_headers (hunits : ∀ a, (∃ x ∈ live, Mem SLOB_UNIT a x) → t.units a = s.units a)
    (hnext : ∀ a, (∃ x ∈ live, Mem SLOB_UNIT a x) → t.next a = s.next a) : SameOn live s t :=
  fun x hx a ha => ⟨hunits a ⟨x, hx, ha⟩, hnext a ⟨x, hx, ha⟩⟩

end SameOn

/-! ## The reinsertion point -/

/-- A block at `b` belongs between the neighbours `x` and `y` of the ring. -/
def Point (b x y : Nat) : Prop := x < b ∧ b < y ∨ y ≤ x ∧ (x < b ∨ b < y)

/-- The loop runs to the end of a path on which only the last node is the point. -/
theorem findPoint_path {b : Nat} (hpath : Path s.next (cur :: rest))
    (hskip : (cur :: rest).IsChain fun x y => ¬ Point b x y)
    (hlast : (cur :: rest).getLast? = some last) (hpoint : Point b last (s.next last))
    (hfuel : rest.length < fuel ∨ E .runaway) :
    Ends E (findPoint b fuel cur) s fun r t => r = last ∧ t = s := by
  induction rest generalizing cur fuel with
  | nil =>
      obtain rfl : cur = last := by simpa using hlast
      cases fuel with
      | zero => exact hfuel.resolve_left (Nat.not_lt_zero _)
      | succ fuel =>
          simp only [findPoint, ends_bind, ends_get]
          split
          · exact ⟨rfl, rfl⟩
          next hbetween =>
            rw [if_pos (hpoint.resolve_left hbetween)]
            exact ⟨rfl, rfl⟩
  | cons y rest ih =>
      obtain ⟨hnext, hpath⟩ := List.isChain_cons_cons.mp hpath
      obtain ⟨hnot, hskip⟩ := List.isChain_cons_cons.mp hskip
      cases fuel with
      | zero => exact hfuel.resolve_left (Nat.not_lt_zero _)
      | succ fuel =>
          simp only [findPoint, ends_bind, ends_get, hnext]
          rw [if_neg fun h => hnot (Or.inl h), if_neg fun h => hnot (Or.inr h)]
          apply ih hpath hskip
          · rw [← hlast, List.getLast?_cons_cons]
          · exact hfuel.imp_left fun h => Nat.lt_of_succ_lt_succ h

/-- Read from the first block behind `b` on, the ring has the point at its end. -/
theorem point_chain {b : Nat} {xs ys : List Nat} (hxs : xs.Pairwise (· < ·))
    (hys : ys.Pairwise (· < ·)) (hbelow : ∀ x ∈ xs, x < b) (habove : ∀ y ∈ ys, b < y) :
    (ys ++ xs).IsChain (fun x y => ¬ Point b x y) ∧
      ∀ x ∈ (ys ++ xs).getLast?, ∀ y ∈ (ys ++ xs).head?, Point b x y := by
  constructor
  · apply List.isChain_append.mpr
    refine ⟨?_, ?_, ?_⟩
    · apply hys.isChain.imp_of_mem_imp
      intro x y hx hy hlt hpoint
      have hx := habove x hx
      unfold Point at hpoint
      omega
    · apply hxs.isChain.imp_of_mem_imp
      intro x y hx hy hlt hpoint
      have hy := hbelow y hy
      unfold Point at hpoint
      omega
    · intro y hy x hx hpoint
      have hy := habove y (List.mem_of_getLast? hy)
      have hx := hbelow x (List.mem_of_head? hx)
      unfold Point at hpoint
      omega
  · intro x hx y hy
    cases xs using List.reverseRecOn with
    | nil =>
        rw [List.append_nil] at hx hy
        cases ys with
        | nil => cases hy
        | cons y' ys =>
            obtain rfl : y' = y := Option.some.inj hy
            have hle : y' ≤ x := by
              rcases List.mem_cons.mp (List.mem_of_getLast? hx) with rfl | hin
              · exact Nat.le_refl _
              · exact Nat.le_of_lt ((List.pairwise_cons.mp hys).1 x hin)
            exact Or.inr ⟨hle, Or.inr (habove y' List.mem_cons_self)⟩
    | append_singleton xs z =>
        rw [← List.append_assoc, List.getLast?_concat] at hx
        obtain rfl : z = x := Option.some.inj hx
        have hz : z < b := hbelow z (by simp)
        cases ys with
        | nil =>
            have hle : y ≤ z := by
              have hin : y ∈ xs ++ [z] := List.mem_of_head? hy
              rcases List.mem_append.mp hin with hin | hin
              · exact Nat.le_of_lt ((List.pairwise_append.mp hxs).2.2 y hin z (by simp))
              · exact Nat.le_of_eq (List.mem_singleton.mp hin)
            exact Or.inr ⟨hle, Or.inl hz⟩
        | cons y' ys =>
            obtain rfl : y' = y := Option.some.inj hy
            exact Or.inl ⟨hz, habove y' List.mem_cons_self⟩

/-! ## Merging -/

/-- The ring is open behind `cur`, its last block, and `b` points to the first one. -/
structure Opened (s : SlobState) (cur : Nat) (xs ys : List Extent) (b : Extent) : Prop where
  path : Path s.next ((ys ++ xs).map start)
  last : ((ys ++ xs).map start).getLast? = some cur
  next : ((ys ++ xs).map start).head? = some (s.next b.start)
  units : s.units b.start = b.units
  sizes : ∀ x ∈ ys ++ xs, s.units x.start = x.units

theorem joinNext_spec (hlayout : Layout arena s.pages (xs ++ ys) (b :: live))
    (hring : Cycle s.next ((ys ++ xs).map start))
    (hsizes : ∀ x ∈ ys ++ xs, s.units x.start = x.units)
    (hunits : s.units b.start = b.units) (hlast : ((ys ++ xs).map start).getLast? = some cur)
    (hbelow : ∀ x ∈ xs, x.start < b.start) (habove : ∀ y ∈ ys, b.start < y.start) :
    Ends E (joinNext b.start cur) s fun _ t => ∃ ys' b', Opened t cur xs ys' b' ∧
      Layout arena t.pages (xs ++ ys') (b' :: live) ∧ b'.start = b.start ∧
      (∀ y ∈ ys', b'.stop SLOB_UNIT < y.start) ∧ b.units ≤ b'.units ∧ SameOn live s t ∧
      t.pages = s.pages := by
  have hhead : ((ys ++ xs).map start).head? = some (s.next cur) := hring.close cur hlast
  have hperm : (xs ++ ys).Perm (ys ++ xs) := List.perm_append_comm
  have hne : ∀ x ∈ ys ++ xs, x.start ≠ b.start := fun x hx =>
    hlayout.start_ne (hperm.mem_iff.mpr hx) List.mem_cons_self
  have hkeep : ∀ {a : Nat}, (∃ x ∈ live, Mem SLOB_UNIT a x) → a ≠ b.start := by
    rintro a ⟨x, hx, ha⟩ rfl
    exact hlayout.live_start_not_mem hx ha
  simp only [joinNext, ends_bind, ends_get]
  split
  next hadj =>
    rw [hunits] at hadj ⊢
    rw [ends_bind, ends_setUnits, ends_setNext]
    -- `b` ends where the block behind it starts
    cases ys with
    | nil =>
        -- the first block is below `b`
        obtain ⟨x, hx, hstart⟩ := List.mem_map.mp (List.mem_of_head? hhead)
        have hlt := hbelow x hx
        rw [hstart, ← hadj] at hlt
        exact absurd hlt (Nat.not_lt.mpr (Nat.le_add_right ..))
    | cons y ys =>
        obtain hy : y.start = s.next cur := Option.some.inj hhead
        have hstop : b.stop SLOB_UNIT = y.start := hadj.trans hy.symm
        have hlayout' := hlayout.joinNext hstop
        have hyunits := hsizes y List.mem_cons_self
        have hsorted := (List.pairwise_append.mp hlayout.sorted).2.1
        obtain ⟨hnexty, hpath⟩ := List.isChain_cons.mp hring.path
        -- the arena is still there
        have harena := (List.perm_append_comm.mem_iff).mp hlayout'.holdsArena
        obtain ⟨z, zs, hzs⟩ := List.exists_cons_of_ne_nil (List.ne_nil_of_mem harena)
        rw [← hy, hyunits]
        refine ⟨ys, b.fuse y, ⟨?_, ?_, ?_, ?_, ?_⟩, hlayout', rfl, ?_, Nat.le_add_right .., ?_, rfl⟩
        · apply Path.congr hpath
          intro a ha
          obtain ⟨x, hx, rfl⟩ := List.mem_map.mp (List.dropLast_subset _ ha)
          exact Function.update_of_ne (hne x (List.mem_cons_of_mem y hx)) ..
        · rw [List.cons_append, hzs] at hlast
          rw [hzs, ← hlast]
          exact List.getLast?_cons_cons.symm
        · have hz : s.next y.start = z.start := by
            apply hnexty
            change z.start ∈ ((ys ++ xs).map start).head?
            rw [hzs]
            rfl
          rw [hzs]
          exact congrArg some
            (hz.symm.trans (Function.update_self b.start (s.next y.start) s.next).symm)
        · exact Function.update_self ..
        · intro x hx
          have hx := List.mem_cons_of_mem y hx
          exact (Function.update_of_ne (hne x hx) ..).trans (hsizes x hx)
        · intro z hz
          rw [fuse_stop hstop]
          exact (List.pairwise_cons.mp hsorted).1 z hz
        · apply SameOn.of_headers
          · exact fun a ha => Function.update_of_ne (hkeep ha) ..
          · exact fun a ha => Function.update_of_ne (hkeep ha) ..
  next hnot =>
    rw [hunits] at hnot
    rw [ends_setNext]
    -- there is a gap behind `b`, which points to the next block
    refine ⟨ys, b, ⟨?_, hlast, ?_, hunits, hsizes⟩, hlayout, rfl, ?_, Nat.le_refl _, ?_, rfl⟩
    · apply hring.path.congr
      intro a ha
      obtain ⟨x, hx, rfl⟩ := List.mem_map.mp (List.dropLast_subset _ ha)
      exact Function.update_of_ne (hne x hx) ..
    · rw [hhead]
      exact congrArg some (Function.update_self b.start (s.next cur) s.next).symm
    · apply hlayout.gap_above habove
      intro y hy heq
      apply hnot
      rw [List.map_append, List.head?_append, List.head?_map, Option.mem_def.mp hy] at hhead
      exact heq.trans (Option.some.inj hhead)
    · apply SameOn.of_headers
      · exact fun a _ => rfl
      · exact fun a ha => Function.update_of_ne (hkeep ha) ..

theorem joinPrev_spec (hopen : Opened s cur xs ys b)
    (hlayout : Layout arena s.pages (xs ++ ys) (b :: live))
    (hbelow : ∀ x ∈ xs, x.start < b.start) (habove : ∀ y ∈ ys, b.stop SLOB_UNIT < y.start) :
    Ends E (joinPrev b.start cur) s fun _ t => ∃ free, Cycle t.next (free.map start) ∧
      (∀ x ∈ free, t.units x.start = x.units) ∧ cur ∈ free.map start ∧
        Layout arena t.pages free live ∧
      (∃ x ∈ free, b.units ≤ x.units) ∧ SameOn live s t ∧ t.pages = s.pages := by
  obtain ⟨hpath, hlast, hnext, hunits, hsizes⟩ := hopen
  have hmem : ∀ {x}, x ∈ ys ++ xs → x ∈ xs ++ ys := fun hx => (List.perm_append_comm.mem_iff).mp hx
  have hne : ∀ x ∈ ys ++ xs, x.start ≠ b.start := fun x hx =>
    hlayout.start_ne (hmem hx) List.mem_cons_self
  have hnodup : ((ys ++ xs).map start).Nodup :=
    (List.perm_append_comm.map start).nodup_iff.mp (nodup_starts hlayout.sorted)
  obtain ⟨c, hc, rfl⟩ := List.mem_map.mp (List.mem_of_getLast? hlast)
  have hkeep : ∀ {a : Nat}, (∃ x ∈ live, Mem SLOB_UNIT a x) → a ≠ c.start := by
    rintro a ⟨x, hx, ha⟩ rfl
    exact hlayout.start_not_mem (hmem hc) (List.mem_cons_of_mem b hx) ha
  have hcunits := hsizes c hc
  -- the block before `b`, if there is one, is `cur`
  have hprev : ∀ x ∈ xs.getLast?, x = c := by
    intro x hx
    apply List.inj_on_of_nodup_map hnodup (List.mem_append_right ys (List.mem_of_getLast? hx)) hc
    rw [List.getLast?_map, List.getLast?_append, Option.mem_def.mp hx] at hlast
    exact Option.some.inj hlast
  simp only [joinPrev, ends_bind, ends_get]
  split
  next hadj =>
    rw [ends_bind, ends_setUnits, ends_setNext]
    have hstop : c.stop SLOB_UNIT = b.start := by rw [← hadj, hcunits, plus, stop]
    have hcx : c ∈ xs := by
      rcases List.mem_append.mp hc with hcy | hcx
      · have hgap := habove c hcy
        have hle := Nat.le_trans (start_le_stop (w := SLOB_UNIT) (x := c)) (Nat.le_of_eq hstop)
        exact absurd (Nat.lt_of_lt_of_le hgap (Nat.le_trans hle start_le_stop)) (Nat.lt_irrefl _)
      · exact hcx
    obtain ⟨front, c', rfl⟩ := (List.eq_nil_or_concat' xs).resolve_left (List.ne_nil_of_mem hcx)
    obtain rfl : c' = c := hprev c' (by simp)
    rw [List.append_assoc] at hlayout
    have hstarts : (front ++ c'.fuse b :: ys).map start =
        (front ++ [c']).map start ++ ys.map start := by
      simp [fuse]
    -- `cur` ends where `b` starts, and takes it in
    refine ⟨front ++ c'.fuse b :: ys, ?_, ?_, ?_, hlayout.joinPrev hstop habove,
      ⟨c'.fuse b, by simp, Nat.le_add_left ..⟩, ?_, rfl⟩
    · rw [hstarts]
      apply Cycle.rotate
      rw [← List.map_append]
      exact Cycle.of_update hpath hnodup hlast hnext
    · intro x hx
      rw [List.mem_append, List.mem_cons, or_left_comm, ← List.mem_append] at hx
      rcases hx with rfl | hx
      · rw [hcunits, hunits]
        exact Function.update_self ..
      · have hin : x ∈ ys ++ (front ++ [c']) := by
          rw [List.mem_append] at hx
          simp only [List.mem_append]
          exact hx.symm.imp_right Or.inl
        have hneq : x.start ≠ c'.start := by
          obtain ⟨_, hys, hfront⟩ := List.pairwise_append.mp hlayout.sorted
          rcases List.mem_append.mp hx with hx | hx
          · exact Nat.ne_of_lt (hfront x hx c' List.mem_cons_self).start_lt
          · exact Nat.ne_of_gt ((List.pairwise_cons.mp hys).1 x hx).start_lt
        exact (Function.update_of_ne hneq ..).trans (hsizes x hin)
    · rw [hstarts]
      exact List.mem_append_left _ (List.mem_map_of_mem hcx)
    · apply SameOn.of_headers
      · exact fun a ha => Function.update_of_ne (hkeep ha) ..
      · exact fun a ha => Function.update_of_ne (hkeep ha) ..
  next hnot =>
    rw [ends_setNext]
    -- there is a gap: `b` becomes a block of its own behind `cur`
    refine ⟨xs ++ b :: ys, ?_, ?_, ?_, hlayout.link ?_ habove, ⟨b, by simp, Nat.le_refl _⟩, ?_, rfl⟩
    · have hb : b.start ∉ (ys ++ xs).map start := by
        intro hin
        obtain ⟨x, hx, heq⟩ := List.mem_map.mp hin
        exact hne x hx heq
      have hcycle := Cycle.of_insert hpath hnodup hlast hnext hb
      rw [List.map_append, List.append_assoc] at hcycle
      have hrotate := hcycle.rotate
      rw [List.append_assoc] at hrotate
      rw [List.map_append, List.map_cons]
      exact hrotate
    · intro x hx
      rcases List.mem_append.mp hx with hx | hx
      · exact hsizes x (List.mem_append_right ys hx)
      · rcases List.mem_cons.mp hx with rfl | hx
        · exact hunits
        · exact hsizes x (List.mem_append_left xs hx)
    · apply List.mem_map_of_mem
      have hin := List.mem_append.mp (hmem hc)
      exact List.mem_append.mpr (hin.imp_right (List.mem_cons_of_mem b))
    · apply hlayout.gap_below hbelow
      intro x hx heq
      obtain rfl := hprev x hx
      apply hnot
      rw [hcunits]
      exact heq
    · apply SameOn.of_headers
      · exact fun a _ => rfl
      · exact fun a ha => Function.update_of_ne (hkeep ha) ..

/-! ## Putting a block back -/

/-- `b` is free in `t`, alone or as a part of a larger block. -/
structure Freed (arena : Nat) (live : List Extent) (b : Extent) (s t : SlobState)
    (free : List Extent) :
    Prop where
  linked : Linked t free
  layout : Layout arena s.pages free live
  fits : ∃ x ∈ free, b.units ≤ x.units
  same : SameOn live s t
  pages : t.pages = s.pages

theorem insertBlock_spec (h : Linked s free) (hlayout : Layout arena s.pages free (b :: live))
    (hunits : s.units b.start = b.units) (hfuel : free.length ≤ fuel ∨ E .runaway) :
    Ends E (insertBlock fuel b.start) s fun _ t => ∃ free', Freed arena live b s t free' := by
  obtain ⟨xs, ys, rfl, hbelow, habove⟩ := exists_split hlayout.sorted fun x hx =>
    hlayout.start_ne hx List.mem_cons_self
  have hring : Cycle s.next ((ys ++ xs).map start) := by
    have hring := h.ring
    rw [List.map_append] at hring ⊢
    exact hring.rotate
  have hsizes : ∀ x ∈ ys ++ xs, s.units x.start = x.units := fun x hx =>
    h.sizes x ((List.perm_append_comm.mem_iff).mp hx)
  have hslobfree : s.slobfree ∈ (ys ++ xs).map start :=
    (List.perm_append_comm.map start).mem_iff.mp h.slobfree
  obtain ⟨front, rest, hcut⟩ := List.append_of_mem hslobfree
  obtain ⟨last, hlast⟩ := Option.isSome_iff_exists.mp
    (List.getLast?_isSome.mpr (List.ne_nil_of_mem hslobfree))
  have hsorted := List.pairwise_append.mp hlayout.sorted
  have hascending : ∀ {zs : List Extent}, zs.Pairwise (Before SLOB_UNIT) →
      (zs.map start).Pairwise (· < ·) := fun hzs =>
    List.pairwise_map.mpr (hzs.imp fun hbefore => hbefore.start_lt)
  obtain ⟨hskip, hpoint⟩ := point_chain (hascending hsorted.1) (hascending hsorted.2.1)
    (List.forall_mem_map.mpr hbelow) (List.forall_mem_map.mpr habove)
  rw [← List.map_append] at hskip hpoint
  have hlast' : (s.slobfree :: rest).getLast? = some last := by
    rw [← hlast, hcut, List.getLast?_append_cons]
  have hrest : rest.length < (xs ++ ys).length := by
    have hlen := congrArg List.length hcut
    rw [List.length_map, List.length_append, List.length_append, List.length_cons] at hlen
    rw [List.length_append]
    omega
  simp only [insertBlock, ends_bind, ends_get]
  have hfind :=
    findPoint_path (E := E) (hcut ▸ hring.path).right (hcut ▸ hskip).right_of_append hlast'
    (hpoint last hlast _ (hring.close last hlast)) (hfuel.imp_left (Nat.lt_of_lt_of_le hrest))
  apply hfind.imp
  rintro _ _ ⟨rfl, rfl⟩
  apply (joinNext_spec hlayout hring hsizes hunits hlast hbelow habove).imp
  rintro _ t ⟨ys', b', hopen, hlayout', hstart, hgap, hle, hsame, hpages⟩
  rw [← hstart]
  apply (joinPrev_spec hopen hlayout' (hstart ▸ hbelow) hgap).imp
  rintro _ u ⟨free, hcycle, hsizes, hmem, hlayout'', ⟨x, hx, hlex⟩, hsame', hpages'⟩
  refine ⟨free, ⟨hcycle, hsizes, hmem⟩, ?_, ⟨x, hx, Nat.le_trans hle hlex⟩, hsame.trans hsame',
    hpages'.trans hpages⟩
  rw [← hpages, ← hpages']
  exact hlayout''

/-- `size` is the size of the block, or 0 and the header has it. -/
theorem slobFree_spec (h : Linked s free) (hlayout : Layout arena s.pages free (b :: live))
    (size : Nat) (hsize : if size = 0 then s.units b.start = b.units else SLOB_UNITS size = b.units)
    (hfuel : free.length ≤ fuel ∨ E .runaway) :
    Ends E (slobFree fuel b.start size) s fun _ t => ∃ free', Freed arena live b s t free' := by
  have hpos : b.start ≠ 0 := Nat.pos_iff_ne_zero.mp
    (hlayout.spread.start_pos (List.mem_append_right free List.mem_cons_self) hlayout.live_ne_arena)
  simp only [slobFree, if_neg hpos]
  by_cases hzero : size = 0
  · rw [if_pos hzero] at hsize
    rw [if_neg (not_not_intro hzero)]
    exact insertBlock_spec h hlayout hsize hfuel
  · rw [if_neg hzero] at hsize
    rw [if_pos hzero, ends_bind, ends_setUnits, hsize]
    have hlinked : Linked { s with units := Function.update s.units b.start b.units } free := by
      refine ⟨h.ring, ?_, h.slobfree⟩
      intro x hx
      exact (Function.update_of_ne (hlayout.start_ne hx List.mem_cons_self) ..).trans (h.sizes x hx)
    apply (insertBlock_spec hlinked hlayout (Function.update_self ..) hfuel).imp
    rintro _ t ⟨free', hlinked', hlayout', hfits, hsame, hpages⟩
    refine ⟨free', hlinked', hlayout', hfits, SameOn.trans ?_ hsame, hpages⟩
    apply SameOn.of_headers
    · rintro a ⟨x, hx, ha⟩
      apply Function.update_of_ne
      rintro rfl
      exact hlayout.live_start_not_mem hx ha
    · exact fun a _ => rfl

end Ucore.Slob
