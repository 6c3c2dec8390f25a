import Mathlib.Logic.Relation
import Ucore.Paging.Policy

/-!
# Eviction

`Resident` is the invariant of the pages that can be swapped out: each of them is mapped
once, at its `pra_vaddr`. `swap_out` keeps it whatever the device does, and so does
`alloc_page`. What they do to the rest is `Evicts`: pages leave the list, and the entry
and the swap slot of each say where its contents have gone.
-/

namespace Ucore.Paging

open Mm Mmu Machine

/-- The entry for the slot of a page. -/
def slotEntry (v : Nat) : Pte := BitVec.ofNat 64 (v + 1) <<< 8

theorem swapEntry_eq (vaddr : Nat) : swapEntry vaddr = slotEntry (ppn vaddr) := by
  rw [swapEntry, slotEntry, ppn_eq]

theorem slotEntry_low (v : Nat) {i : Nat} (hi : i < 8) : (slotEntry v).getLsbD i = false := by
  simp [slotEntry, BitVec.getLsbD_shiftLeft, hi]

@[simp] theorem valid_slotEntry (v : Nat) : valid (slotEntry v) = false := by
  rw [valid_eq]
  exact slotEntry_low v (by decide)

theorem offset_slotEntry {v : Nat} (hv : v < userPages) : (slotEntry v >>> 8).toNat = v + 1 := by
  unfold userPages at hv
  rw [slotEntry, BitVec.toNat_ushiftRight, BitVec.toNat_shiftLeft, BitVec.toNat_ofNat,
    Nat.shiftLeft_eq, Nat.shiftRight_eq_div_pow]
  omega

theorem slotEntry_ne_zero {v : Nat} (hv : v < userPages) : slotEntry v ≠ 0#64 := by
  intro hzero
  have hoffset := offset_slotEntry hv
  rw [hzero] at hoffset
  exact absurd hoffset.symm (Nat.succ_ne_zero v)

/-! ## The invariant -/

/-- Every page that is mapped is mapped once and counted. -/
structure Single (role : Nat → Role) (s : Kern) : Prop where
  ref : ∀ d v, role d = .dir → v < userPages → valid (leaf s.mem d v) = true →
    s.ref (frame (leaf s.mem d v)) = 1
  once : ∀ d v d' v', role d = .dir → role d' = .dir → v < userPages → v' < userPages →
    valid (leaf s.mem d v) = true → valid (leaf s.mem d' v') = true →
    frame (leaf s.mem d v) = frame (leaf s.mem d' v') → d = d' ∧ v = v'

/-- The page number that a page is mapped at. -/
def place (s : Kern) (f : Nat) : Nat := ppn (s.swap.praVaddr f)

/-- The page is mapped where its `pra_vaddr` says. -/
structure Placed (pgdir : Nat) (s : Kern) (f : Nat) : Prop where
  user : place s f < userPages
  valid : valid (leaf s.mem pgdir (place s f)) = true
  frame : frame (leaf s.mem pgdir (place s f)) = f

/-- The pages `l` that the replacement manager holds are mapped in the directory `pgdir`,
at page numbers with `P`. -/
structure Resident {sm : SwapManager} (pol : Policy sm) (P : Nat → Prop) (pgdir : Nat)
    (role : Nat → Role) (s : Kern) (l : List Nat) : Prop where
  paged : Paged role s
  dir : role pgdir = .dir
  single : Single role s
  held : pol.Held s.swap l
  placed : ∀ f ∈ l, Placed pgdir s f
  slots : ∀ f ∈ l, P (place s f)

/-- The page at `v` in the directory `d` is one that has left the list. -/
structure Leaves (s : Kern) (l l' : List Nat) (d v : Nat) : Prop where
  valid : valid (leaf s.mem d v) = true
  mem : frame (leaf s.mem d v) ∈ l
  gone : frame (leaf s.mem d v) ∉ l'

/-- Pages have left the list for the swap device, and frames have been put to use. -/
structure Evicts (pgdir : Nat) (role role' : Nat → Role) (l l' : List Nat) (s t : Kern) : Prop where
  sub : ∀ f ∈ l', f ∈ l
  dir : ∀ f, role' f = .dir ↔ role f = .dir
  table : ∀ f, (role f).isTable = true → role' f = role f
  stays : ∀ f, role f = .data → (f ∈ l → f ∈ l') → role' f = .data ∧ t.mem f = s.mem f ∧
    t.ref f = s.ref f
  leaf : ∀ d v, role d = .dir → v < userPages → ¬Leaves s l l' d v → leaf t.mem d v = leaf s.mem d v
  out : ∀ d v, role d = .dir → v < userPages → Leaves s l l' d v →
    d = pgdir ∧ Mm.leaf t.mem d v = slotEntry v ∧
      t.swap.disk (v + 1) = s.mem (frame (Mm.leaf s.mem d v))
  disk : ∀ v, v < userPages → ¬Leaves s l l' pgdir v → t.swap.disk (v + 1) = s.swap.disk (v + 1)
  praVaddr : t.swap.praVaddr = s.swap.praVaddr

variable {role role' role'' : Nat → Role} {s t u : Kern} {l l' l'' : List Nat}
  {pgdir : Nat} {P : Nat → Prop}
  {sm : SwapManager} {pol : Policy sm} {E : Panic → Prop}

namespace Resident

theorem nodup (h : Resident pol P pgdir role s l) : l.Nodup := pol.nodup h.held

theorem data (h : Resident pol P pgdir role s l) {f : Nat} (hf : f ∈ l) : role f = .data := by
  have hplaced := h.placed f hf
  have hdata := h.paged.tree.data h.dir hplaced.user hplaced.valid
  rwa [hplaced.frame] at hdata

/-- There are no more pages on the list than there are frames. -/
theorem length_le (h : Resident pol P pgdir role s l) : l.length ≤ npage := by
  have hsub : l.toFinset ⊆ Finset.range npage := by
    intro f hf
    have hdata := h.data (List.mem_toFinset.mp hf)
    exact Finset.mem_range.mpr (h.paged.bound f (by simp [hdata]))
  have hcard := Finset.card_le_card hsub
  rwa [Finset.card_range, List.toFinset_card_of_nodup h.nodup] at hcard

end Resident

/-- Two different pages of the list are at different page numbers. -/
theorem Placed.inj {f g : Nat} (hf : Placed pgdir s f) (hg : Placed pgdir s g)
    (hplace : place s f = place s g) :
    f = g := by
  rw [← hf.frame, hplace, hg.frame]

theorem Evicts.refl (pgdir : Nat) (role : Nat → Role) (l : List Nat) (s : Kern) :
    Evicts pgdir role role l l s s where
  sub _ hf := hf
  dir _ := Iff.rfl
  table _ _ := rfl
  stays _ hdata _ := ⟨hdata, rfl, rfl⟩
  leaf _ _ _ _ _ := rfl
  out _ _ _ _ hleaves := absurd hleaves.mem hleaves.gone
  disk _ _ _ := rfl
  praVaddr := rfl

/-- A page that leaves in the second of two steps was as it is now before the first. -/
theorem Evicts.trans (h : Evicts pgdir role role' l l' s t)
    (h' : Evicts pgdir role' role'' l' l'' t u)
    (hpaged : Paged role s) (hpgdir : role pgdir = .dir) : Evicts pgdir role role'' l l'' s u := by
  have hfirst : ∀ d v, Leaves s l l' d v → Leaves s l l'' d v :=
    fun d v hleaves => ⟨hleaves.valid, hleaves.mem, fun hmem => hleaves.gone (h'.sub _ hmem)⟩
  -- the pages that leave in the first step are not mapped before the second
  have hsplit : ∀ d v, role d = .dir → v < userPages → Leaves s l l'' d v → ¬Leaves s l l' d v →
      Leaves t l' l'' d v ∧ Mm.leaf t.mem d v = Mm.leaf s.mem d v := by
    intro d v hd hv hleaves hnot
    have hsame := h.leaf d v hd hv hnot
    have hmem : frame (Mm.leaf s.mem d v) ∈ l' := by
      by_contra hgone
      exact hnot ⟨hleaves.valid, hleaves.mem, hgone⟩
    exact ⟨⟨hsame ▸ hleaves.valid, hsame ▸ hmem, hsame ▸ hleaves.gone⟩, hsame⟩
  have hstay : ∀ d v, role d = .dir → v < userPages → ¬Leaves s l l'' d v →
      ¬Leaves t l' l'' d v := by
    intro d v hd hv hnot hleaves
    have hsame := h.leaf d v hd hv fun hfirst' => hnot (hfirst d v hfirst')
    exact hnot ⟨hsame ▸ hleaves.valid, h.sub _ (hsame ▸ hleaves.mem), hsame ▸ hleaves.gone⟩
  have hlast : ∀ d v, role d = .dir → v < userPages → Leaves s l l' d v → ¬Leaves t l' l'' d v := by
    intro d v hd hv hleaves hleaves'
    have hvalid := hleaves'.valid
    rw [(h.out d v hd hv hleaves).2.1, valid_slotEntry] at hvalid
    cases hvalid
  have hdirs : ∀ d, role d = .dir → role' d = .dir := fun d hd => (h.dir d).mpr hd
  constructor
  · exact fun f hf => h.sub f (h'.sub f hf)
  · exact fun f => (h'.dir f).trans (h.dir f)
  · intro f hf
    rw [h'.table f ((h.table f hf).symm ▸ hf), h.table f hf]
  · intro f hdata hlist
    obtain ⟨hdata', hmem, href⟩ := h.stays f hdata fun hf => h'.sub f (hlist hf)
    obtain ⟨hdata'', hmem', href'⟩ := h'.stays f hdata' fun hf => hlist (h.sub f hf)
    exact ⟨hdata'', hmem'.trans hmem, href'.trans href⟩
  · intro d v hd hv hnot
    rw [h'.leaf d v (hdirs d hd) hv (hstay d v hd hv hnot),
      h.leaf d v hd hv fun hleaves => hnot (hfirst d v hleaves)]
  · intro d v hd hv hleaves
    by_cases hnow : Leaves s l l' d v
    · obtain ⟨rfl, hleaf, hdisk⟩ := h.out d v hd hv hnow
      have hnot := hlast d v hd hv hnow
      exact ⟨rfl, (h'.leaf d v (hdirs d hd) hv hnot).trans hleaf, (h'.disk v hv hnot).trans hdisk⟩
    · obtain ⟨hlater, hsame⟩ := hsplit d v hd hv hleaves hnow
      obtain ⟨hd', hleaf, hdisk⟩ := h'.out d v (hdirs d hd) hv hlater
      have hdata := hpaged.tree.data hd hv hleaves.valid
      have hmem := (h.stays _ hdata fun _ => hsame ▸ hlater.mem).2.1
      exact ⟨hd', hleaf, by rw [hdisk, hsame, hmem]⟩
  · intro v hv hnot
    rw [h'.disk v hv (hstay pgdir v hpgdir hv hnot), h.disk v hv fun hleaves =>
      hnot (hfirst pgdir v hleaves)]
  · exact h'.praVaddr.trans h.praVaddr

/-! ## One page -/

theorem ends_onSwap {α : Type} {x : SwapM α} {a : α} {w : Swap} {Q : α → Kern → Prop}
    (hx : x s.swap = .ok (a, w)) (hQ : Q a { s with swap := w }) : Ends E (onSwap x) s Q := by
  refine Ends.of_ok (a := a) (t := { s with swap := w }) ?_ hQ
  unfold onSwap
  rw [hx]
  rfl

theorem findPte_spec (hpaged : Paged role s) (hdir : role pgdir = .dir) {la : Nat}
    (hla : ppn la < userPages) :
    Ends E (findPte pgdir la) s fun p t => p = walk s.mem pgdir (ppn la) ∧ t = s :=
  getPte_false hpaged hdir hla

variable {b : Backing}

/-- The device has the contents of a frame. -/
def saved (s : Kern) (slot f : Nat) : Kern :=
  { s.nextTick with swap := { s.swap with disk := Function.update s.swap.disk slot (s.mem f) } }

@[simp] theorem saved_mem (s : Kern) (slot f : Nat) : (saved s slot f).mem = s.mem := rfl
@[simp] theorem saved_ref (s : Kern) (slot f : Nat) : (saved s slot f).ref = s.ref := rfl
@[simp] theorem saved_free (s : Kern) (slot f : Nat) : (saved s slot f).free = s.free := rfl

/-- A write to the slot of a page. -/
theorem swapfsWrite_spec {v f : Nat} (hv : v < userPages)
    (hslot : E .swapEntry ∨ v + 1 < max_swap_offset) (hf : f < npage) :
    Ends E (swapfsWrite b (slotEntry v) f) s fun r t => r = b.write s.tick ∧
      t = if b.write s.tick = 0 then saved s (v + 1) f else s.nextTick := by
  simp only [swapfsWrite, swapOffset, offset_slotEntry hv, ends_bind]
  by_cases hlt : v + 1 < max_swap_offset
  · rw [if_pos ⟨Nat.succ_pos v, hlt⟩]
    simp only [ends_pure]
    apply ends_kaddr hf
    simp only [ends_get, ends_modify]
    by_cases hok : b.write s.tick = 0
    · rw [if_pos hok, if_pos hok, ends_bind]
      apply ends_onSwap
      · rfl
      · exact ⟨rfl, rfl⟩
    · rw [if_neg hok, if_neg hok]
      exact ⟨rfl, rfl⟩
  · rw [if_neg fun h => hlt h.2]
    exact hslot.resolve_right hlt

/-- What the page table and the frames look like when a page has gone to the device. -/
structure SwappedOut (pgdir : Nat) (role : Nat → Role) (f : Nat) (s t : Kern) : Prop where
  leaf : LeafSet role s t pgdir (place s f) (slotEntry (place s f))
  mem : ∀ g, (∀ d k, role g ≠ .tab d k) → t.mem g = s.mem g
  ref : t.ref = Function.update s.ref f 0
  free : t.free = insert f s.free
  praVaddr : t.swap.praVaddr = s.swap.praVaddr
  disk : t.swap.disk = Function.update s.swap.disk (place s f + 1) (s.mem f)

/-- Nothing but the order of the list. -/
structure Unswapped (s t : Kern) : Prop where
  mem : t.mem = s.mem
  ref : t.ref = s.ref
  free : t.free = s.free
  swap : Relisted s.swap t.swap

/-- No page of the list is mapped otherwise than at its place. -/
theorem Resident.at_place (h : Resident pol P pgdir role s l) {f d v : Nat} (hf : f ∈ l)
    (hd : role d = .dir)
    (hv : v < userPages) (hvalid : valid (leaf s.mem d v) = true)
    (hframe : frame (leaf s.mem d v) = f) :
    d = pgdir ∧ v = place s f := by
  have hplaced := h.placed f hf
  exact h.single.once d v pgdir (place s f) hd h.dir hv hplaced.user hvalid hplaced.valid
    (hframe.trans hplaced.frame.symm)

/-- The invariant, when the page `f` has gone to the device. -/
theorem Resident.swappedOut (h : Resident pol P pgdir role s l) {f : Nat} {p : Ptr} (hf : f ∈ l)
    (hwalk : walk s.mem pgdir (place s f) = some p) (hperm : l.Perm (f :: l'))
    (hmem : t.mem = s.mem.write p (slotEntry (place s f))) (hout : SwappedOut pgdir role f s t)
    (hheld : pol.Held t.swap l') : Resident pol P pgdir (Function.update role f .free) t l' := by
  have hdata := h.data hf
  have hplaced := h.placed f hf
  have htab := (h.paged.tree.tab h.dir hplaced.user hwalk).1
  have hnotin : f ∉ l' := (List.nodup_cons.mp (hperm.nodup_iff.mp h.nodup)).1
  have hdirs : ∀ d, Function.update role f .free d = .dir → role d = .dir := by
    intro d hd
    by_cases hdf : d = f
    · rw [hdf, Function.update_self] at hd
      cases hd
    · rwa [Function.update_of_ne hdf] at hd
  -- the entries that are still valid are those of other pages
  have hleft : ∀ d v, role d = .dir → v < userPages → valid (leaf t.mem d v) = true →
      leaf t.mem d v = leaf s.mem d v ∧ frame (leaf s.mem d v) ≠ f := by
    intro d v hd hv hvalid
    have hleaf := hout.leaf d v hd hv
    by_cases hthere : d = pgdir ∧ v = place s f
    · rw [hleaf, if_pos hthere, valid_slotEntry] at hvalid
      cases hvalid
    · rw [if_neg hthere] at hleaf
      rw [hleaf] at hvalid
      exact ⟨hleaf, fun hframe => hthere (h.at_place hf hd hv hvalid hframe)⟩
  have hwritten : Paged role (s.write p (slotEntry (place s f))) := by
    refine h.paged.write htab (fun hvalid => ?_) rfl rfl fun _ _ => rfl
    rw [valid_slotEntry] at hvalid
    cases hvalid
  have hunmapped : mappings role (s.write p (slotEntry (place s f))).mem f = ∅ := by
    rw [Finset.eq_empty_iff_forall_notMem]
    intro q hq
    obtain ⟨_, hv, hd, hvalid, hframe⟩ := mem_mappings.mp hq
    rw [Kern.write_mem, ← hmem] at hvalid hframe
    obtain ⟨hsame, hne⟩ := hleft q.1 q.2 hd hv hvalid
    exact hne (hsame ▸ hframe)
  constructor
  · -- the frame is free, and its only entry leads to the swap device now
    refine hwritten.free_data hdata hunmapped ?_ ?_ ?_ ?_
    · rw [hmem, Kern.write_mem]
    · rw [hout.free, Kern.write_free]
    · rw [hout.ref, Function.update_self]
    · intro g hg
      have hgf : g ≠ f := by
        rintro rfl
        have hfree := (h.paged.free g).mpr hg
        rw [hdata] at hfree
        cases hfree
      rw [hout.ref, Function.update_of_ne hgf, Kern.write_ref]
  · have hne : pgdir ≠ f := by
      rintro rfl
      rw [h.dir] at hdata
      cases hdata
    rw [Function.update_of_ne hne, h.dir]
  · constructor
    · intro d v hd hv hvalid
      obtain ⟨hsame, hne⟩ := hleft d v (hdirs d hd) hv hvalid
      rw [hsame, hout.ref, Function.update_of_ne hne]
      exact h.single.ref d v (hdirs d hd) hv (hsame ▸ hvalid)
    · intro d v d' v' hd hd' hv hv' hvalid hvalid' hframe
      obtain ⟨hsame, _⟩ := hleft d v (hdirs d hd) hv hvalid
      obtain ⟨hsame', _⟩ := hleft d' v' (hdirs d' hd') hv' hvalid'
      rw [hsame] at hvalid hframe
      rw [hsame'] at hvalid' hframe
      exact h.single.once d v d' v' (hdirs d hd) (hdirs d' hd') hv hv' hvalid hvalid' hframe
  · exact hheld
  · intro g hg
    have hgl : g ∈ l := hperm.mem_iff.mpr (List.mem_cons_of_mem f hg)
    have hgplaced := h.placed g hgl
    have hplace : place t g = place s g := by rw [place, hout.praVaddr, place]
    have hne : ¬(pgdir = pgdir ∧ place s g = place s f) := by
      rintro ⟨_, heq⟩
      exact hnotin (hgplaced.inj hplaced heq ▸ hg)
    have hleaf := hout.leaf pgdir (place s g) h.dir hgplaced.user
    rw [if_neg hne] at hleaf
    constructor
    · rw [hplace]
      exact hgplaced.user
    · rw [hplace, hleaf]
      exact hgplaced.valid
    · rw [hplace, hleaf]
      exact hgplaced.frame
  · intro g hg
    rw [place, hout.praVaddr]
    exact h.slots g (hperm.mem_iff.mpr (List.mem_cons_of_mem f hg))

/-- The invariant does not depend on the order of the list. -/
theorem Resident.unswapped (h : Resident pol P pgdir role s l) (hsame : Unswapped s t)
    (hmem : ∀ f ∈ l', f ∈ l) (hheld : pol.Held t.swap l') : Resident pol P pgdir role t l' := by
  have hplace : ∀ f, place t f = place s f := fun f => by rw [place, hsame.swap.praVaddr, place]
  constructor
  · refine ⟨hsame.mem ▸ h.paged.tree, hsame.mem ▸ h.paged.linked, ?_, h.paged.bound, ?_⟩
    · rw [hsame.free]
      exact h.paged.free
    · rw [hsame.free, hsame.ref]
      exact h.paged.unref
  · exact h.dir
  · constructor
    · rw [hsame.mem, hsame.ref]
      exact h.single.ref
    · rw [hsame.mem]
      exact h.single.once
  · exact hheld
  · intro f hf
    have hplaced := h.placed f (hmem f hf)
    constructor
    · rw [hplace]
      exact hplaced.user
    · rw [hplace, hsame.mem]
      exact hplaced.valid
    · rw [hplace, hsame.mem]
      exact hplaced.frame
  · intro f hf
    rw [hplace]
    exact h.slots f (hmem f hf)

/-- How a round of `swap_out` ends: a page has gone, or it is back on the list. -/
inductive Turn (b : Backing) (pol : Policy sm) (P : Nat → Prop) (pgdir : Nat)
    (role : Nat → Role) (l : List Nat) (s t : Kern) : Prop
  | out (f : Nat) (l' : List Nat) (hok : b.write s.tick = 0) (hf : f ∈ l)
      (hchosen : pol.Chooses l f l')
      (hresident : Resident pol P pgdir (Function.update role f .free) t l')
      (hout : SwappedOut pgdir role f s t)
  | back (f : Nat) (l' l'' : List Nat) (hfail : b.write s.tick ≠ 0) (hchosen : pol.Chooses l f l')
      (hadds : pol.Adds l' f l'') (hresident : Resident pol P pgdir role t l'')
      (hsame : Unswapped s t)

theorem swapOutPage_spec {pol : Policy b.sm} {pgdir : Nat} (h : Resident pol P pgdir role s l)
    (hne : l ≠ []) (hslot : E .swapEntry ∨ ∀ v, P v → v + 1 < max_swap_offset) :
    Ends E (swapOutPage b pgdir 0) s fun more t => more = true ∧ t.tick = s.tick + 1 ∧
      Turn b pol P pgdir role l s t := by
  obtain ⟨f, w, l', hvictim, hheld, hchosen, hsame⟩ := pol.victim h.held hne h.length_le
  have hperm := pol.chooses hchosen
  have hf : f ∈ l := hperm.mem_iff.mpr List.mem_cons_self
  have hplaced := h.placed f hf
  have hdata := h.data hf
  have hlt : f < npage := h.paged.bound f (by simp [hdata])
  have hsub : ∀ g ∈ l', g ∈ l := fun g hg => hperm.mem_iff.mpr (List.mem_cons_of_mem f hg)
  have hnotin : f ∉ l' := (List.nodup_cons.mp (hperm.nodup_iff.mp h.nodup)).1
  rw [swapOutPage, ends_bind]
  refine ends_onSwap hvictim ?_
  have hmid : Resident pol P pgdir role { s with swap := w } l' :=
    h.unswapped ⟨rfl, rfl, rfl, hsame⟩ hsub hheld
  have hvaddr : w.praVaddr f = s.swap.praVaddr f := congrFun hsame.praVaddr f
  obtain ⟨p, hwalk⟩ := Tree.leaf_valid hplaced.valid
  have hleaf := leaf_of_walk hwalk
  simp only [ne_eq, not_true_eq_false, if_false, ends_bind, ends_get]
  rw [hvaddr]
  apply (findPte_spec hmid.paged hmid.dir hplaced.user).imp
  rintro r u ⟨rfl, rfl⟩
  rw [show ppn (s.swap.praVaddr f) = place s f from rfl, hwalk]
  simp only [ends_bind, ends_load]
  rw [ends_check (by rw [← hleaf]; exact hplaced.valid), swapEntry_eq]
  apply (swapfsWrite_spec hplaced.user (hslot.imp_right fun hP => hP _ (h.slots f hf)) hlt).imp
  rintro r u ⟨rfl, hu⟩
  by_cases hok : b.write s.tick = 0
  · rw [if_pos hok] at hu
    have hfree : f ∉ u.free := by
      intro hmem
      rw [hu] at hmem
      have hrole := (h.paged.free f).mpr hmem
      rw [hdata] at hrole
      cases hrole
    simp only [hok, not_true_eq_false, if_false, ends_bind, ends_store]
    apply ends_freePage (by exact hfree)
    have hout : SwappedOut pgdir role f s ((u.write p (slotEntry (place s f))).giveBack f) := by
      subst hu
      constructor
      · exact LeafSet.write h.paged h.dir hplaced.user hwalk rfl
      · intro g hg
        have hgp : g ≠ p.page :=
          fun heq => hg _ _ (heq ▸ (h.paged.tree.tab h.dir hplaced.user hwalk).1)
        exact Memory.write_of_ne _ _ _ hgp
      · rfl
      · rfl
      · exact hsame.praVaddr
      · exact congrArg (Function.update · (place s f + 1) (s.mem f)) hsame.disk
    refine ⟨rfl, by rw [hu]; rfl, .out f l' hok hf hchosen ?_ hout⟩
    refine h.swappedOut hf hwalk hperm ?_ hout (pol.congr hheld ?_ ?_)
    · rw [hu]
      rfl
    · rw [hu]
      rfl
    · rw [hu]
      rfl
  · rw [if_neg hok] at hu
    subst hu
    obtain ⟨w', l'', hrun, hheld', hadds, hsame'⟩ := pol.mapSwappable hheld hnotin
    rw [if_pos hok, ends_bind]
    refine ends_onSwap hrun ⟨rfl, rfl, .back f l' l'' hok hchosen hadds ?_ ?_⟩
    · refine h.unswapped ⟨rfl, rfl, rfl, hsame.trans hsame'⟩ (fun g hg => ?_) hheld'
      rcases List.mem_cons.mp ((pol.adds hadds).mem_iff.mp hg) with rfl | hg
      · exact hf
      · exact hsub g hg
    · exact ⟨rfl, rfl, rfl, hsame.trans hsame'⟩

/-- A page that goes to the device leaves its contents in the slot for its place. -/
theorem SwappedOut.evicts {f : Nat} (hout : SwappedOut pgdir role f s t)
    (h : Resident pol P pgdir role s l) (hf : f ∈ l)
    (hperm : l.Perm (f :: l')) : Evicts pgdir role (Function.update role f .free) l l' s t := by
  have hdata := h.data hf
  have hnotin : f ∉ l' := (List.nodup_cons.mp (hperm.nodup_iff.mp h.nodup)).1
  have hkeep : ∀ g, role g ≠ .data → Function.update role f .free g = role g := by
    intro g hg
    have hgf : g ≠ f := fun heq => hg (heq ▸ hdata)
    exact Function.update_of_ne hgf _ _
  have hplaced := h.placed f hf
  have hplace : Leaves s l l' pgdir (place s f) :=
    ⟨hplaced.valid, hplaced.frame.symm ▸ hf, hplaced.frame.symm ▸ hnotin⟩
  constructor
  · exact fun g hg => hperm.mem_iff.mpr (List.mem_cons_of_mem f hg)
  · intro g
    by_cases hgf : g = f
    · subst hgf
      simp [hdata]
    · rw [Function.update_of_ne hgf]
  · intro g hg
    apply hkeep
    intro hdata'
    rw [hdata'] at hg
    cases hg
  · intro g hg hlist
    have hgf : g ≠ f := by
      rintro rfl
      exact hnotin (hlist hf)
    refine ⟨by rw [Function.update_of_ne hgf, hg], hout.mem g (by simp [hg]), ?_⟩
    rw [hout.ref, Function.update_of_ne hgf]
  · intro d v hd hv hnot
    rw [hout.leaf d v hd hv, if_neg]
    rintro ⟨rfl, rfl⟩
    exact hnot hplace
  · intro d v hd hv hleaves
    have hframe : frame (Mm.leaf s.mem d v) = f :=
      (List.mem_cons.mp (hperm.mem_iff.mp hleaves.mem)).resolve_right hleaves.gone
    obtain ⟨rfl, rfl⟩ := h.at_place hf hd hv hleaves.valid hframe
    refine ⟨rfl, ?_, ?_⟩
    · rw [hout.leaf d _ hd hv, if_pos ⟨rfl, rfl⟩]
    · rw [hout.disk, Function.update_self, hframe]
  · intro v hv hnot
    have hne : v + 1 ≠ place s f + 1 := by
      intro heq
      obtain rfl := Nat.succ.inj heq
      exact hnot hplace
    rw [hout.disk, Function.update_of_ne hne]
  · exact hout.praVaddr

theorem Unswapped.evicts (hsame : Unswapped s t) (hmem : ∀ f, f ∈ l' ↔ f ∈ l) :
    Evicts pgdir role role l l' s t where
  sub f hf := (hmem f).mp hf
  dir _ := Iff.rfl
  table _ _ := rfl
  stays f hdata _ := ⟨hdata, by rw [hsame.mem], by rw [hsame.ref]⟩
  leaf _ _ _ _ _ := by rw [hsame.mem]
  out d v _ _ hleaves := absurd ((hmem _).mpr hleaves.mem) hleaves.gone
  disk _ _ _ := by rw [hsame.swap.disk]
  praVaddr := hsame.swap.praVaddr

/-! ## Allocation -/

/-- The list after some pages have been chosen. -/
def Shrinks (pol : Policy sm) : List Nat → List Nat → Prop :=
  Relation.ReflTransGen fun l l' => ∃ f, pol.Chooses l f l'

/-- The frame manager has a frame where one is free: it may choose among the free ones, and not
refuse. -/
def Complete (al : Allocator) : Prop := ∀ tick free, free.Nonempty → (al.choose tick free).isSome

/-- What an allocation leaves, when the frame `n` that it has handed out is still
counted as a free one. -/
structure Allocated (b : Backing) (pol : Policy b.sm) (P : Nat → Prop) (role role' : Nat → Role)
    (l l' : List Nat) (s t : Kern) (n : Nat) : Prop where
  fresh : n ∉ t.free
  ref : t.ref n = 0
  resident : Resident pol P b.checkMm role' (t.giveBack n) l'
  evicts : Evicts b.checkMm role role' l l' s (t.giveBack n)
  directory : ∀ f, (role f).isDirectory = true → t.mem f = s.mem f
  shrinks : (∀ tick, b.write tick = 0) → Shrinks pol l l'
  spare : s.free.card + l.length = t.free.card + l'.length + 1

/-- `swap_out` of one page. -/
theorem swapOut_one {Q : Kern → Prop}
    (hpage : Ends E (swapOutPage b pgdir 0) s fun more t => more = true ∧ Q t) :
    Ends E (swapOut b pgdir 1 0) s fun i t => i = 1 ∧ Q t := by
  have hfuel : (1 : Int).toNat + 1 = 2 := rfl
  rw [swapOut, hfuel, swapOutLoop, if_neg (by decide), ends_bind]
  apply hpage.imp
  rintro more t ⟨rfl, hQ⟩
  rw [if_pos rfl, swapOutLoop, if_pos (by decide)]
  exact ⟨by decide, hQ⟩

/-- With no page to swap out the code goes on without one. -/
theorem swapOutPage_empty {pol : Policy b.sm} {Q : Bool → Kern → Prop} (hempty : E .emptyList)
    (hheld : pol.Held s.swap []) : Ends E (swapOutPage b pgdir 0) s Q := by
  rw [swapOutPage, ends_bind]
  rcases pol.noVictim hheld with herror | ⟨w, hnone⟩
  · have hstop : onSwap (b.sm.swapOutVictim 0) s = .error .emptyList := by
      unfold onSwap
      rw [herror]
      rfl
    unfold Ends
    rw [hstop]
    exact hempty
  · exact ends_onSwap hnone hempty

/-- The rounds of `alloc_pages`. Where the device takes what is written, a page leaves the list
in each of them. -/
theorem allocLoop_spec {pol : Policy b.sm} {rounds : Nat}
    (hslot : E .swapEntry ∨ ∀ v, P v → v + 1 < max_swap_offset)
    (hrounds : E .runaway ∨ (∀ tick, b.write tick = 0) ∧ l.length < rounds)
    (hempty : E .emptyList ∨ Complete b.al ∧ 0 < s.free.card + l.length)
    (h : Resident pol P b.checkMm role s l) :
    Ends E (allocLoop b rounds) s fun r t => ∃ n role' l', r = some n ∧
      Allocated b pol P role role' l l' s t n := by
  induction rounds generalizing role s l with
  | zero => exact hrounds.resolve_right fun hlt => absurd hlt.2 (Nat.not_lt_zero _)
  | succ rounds ih =>
      rw [allocLoop, ends_bind]
      apply b.al.ends_allocPage_choose
      · -- no frame is free, so that one has to be freed by `swap_out`
        intro hnone
        rw [ends_bind]
        have htick : Resident pol P b.checkMm role s.nextTick l :=
          h.unswapped ⟨rfl, rfl, rfl, .refl _⟩ (fun _ hf => hf) h.held
        have hsame : Evicts b.checkMm role role l l s s.nextTick :=
          Unswapped.evicts ⟨rfl, rfl, rfl, .refl _⟩ fun _ => Iff.rfl
        -- an empty list of swappable pages is what the last hypothesis is about
        by_cases hne : l = []
        · subst hne
          have hstop : E .emptyList := by
            refine hempty.resolve_right fun henough => ?_
            have hfree : s.free.Nonempty := Finset.card_pos.mp henough.2
            have hsome := henough.1 s.tick s.free hfree
            rw [hnone] at hsome
            cases hsome
          apply (swapOut_one (Q := fun _ => False) (swapOutPage_empty hstop htick.held)).imp
          exact fun _ _ hfalse => hfalse.2.elim
        · apply (swapOut_one (swapOutPage_spec htick hne hslot)).imp
          rintro _ t ⟨_, _, hturn⟩
          cases hturn with
          | out f l' hok hf hchosen hresident hout =>
              have hperm := pol.chooses hchosen
              have hlength : l.length = l'.length + 1 := by rw [hperm.length_eq, List.length_cons]
              have hrounds' : E .runaway ∨ (∀ tick, b.write tick = 0) ∧ l'.length < rounds :=
                hrounds.imp_right fun hlt => ⟨hlt.1, by omega⟩
              have hused : f ∉ s.free := by
                intro hfree
                have hdata := h.data hf
                rw [(h.paged.free f).mpr hfree] at hdata
                cases hdata
              have hcard : t.free.card = s.free.card + 1 := by
                rw [hout.free]
                exact Finset.card_insert_of_notMem hused
              have hempty' : E .emptyList ∨ Complete b.al ∧ 0 < t.free.card + l'.length :=
                hempty.imp_right fun henough => ⟨henough.1, by omega⟩
              apply (ih hrounds' hempty' hresident).imp
              rintro r u ⟨n, role', l'', rfl, halloc⟩
              have hevicts := hsame.trans (hout.evicts htick hf hperm) h.paged h.dir
              refine ⟨n, role', l'', rfl, halloc.fresh, halloc.ref, halloc.resident, ?_, ?_, ?_, ?_⟩
              · exact hevicts.trans halloc.evicts h.paged h.dir
              · intro g hg
                have hgf : g ≠ f := by
                  rintro rfl
                  rw [h.data hf] at hg
                  cases hg
                rw [halloc.directory g (by rwa [Function.update_of_ne hgf]), hout.mem g]
                · rfl
                · intro d k htab
                  rw [htab] at hg
                  cases hg
              · exact fun hwrite => Relation.ReflTransGen.head ⟨f, hchosen⟩ (halloc.shrinks hwrite)
              · have hspare := halloc.spare
                omega
          | back f l' l'' hfail hchosen hadds hresident hunswapped =>
              have hperm := (pol.chooses hchosen).trans (pol.adds hadds).symm
              have hrunaway : E .runaway := hrounds.resolve_right fun hlt => hfail (hlt.1 _)
              have hspare : s.free.card + l.length = t.free.card + l''.length := by
                rw [hunswapped.free, hperm.length_eq]
                rfl
              have hempty' : E .emptyList ∨ Complete b.al ∧ 0 < t.free.card + l''.length :=
                hempty.imp_right fun henough => ⟨henough.1, hspare ▸ henough.2⟩
              apply (ih (Or.inl hrunaway) hempty' hresident).imp
              rintro r u ⟨n, role', l₂, rfl, halloc⟩
              have hevicts :=
                hsame.trans (hunswapped.evicts fun g => hperm.symm.mem_iff) h.paged h.dir
              refine ⟨n, role', l₂, rfl, halloc.fresh, halloc.ref, halloc.resident, ?_, ?_, ?_,
                hspare.trans halloc.spare⟩
              · exact hevicts.trans halloc.evicts h.paged h.dir
              · intro g hg
                rw [halloc.directory g hg, hunswapped.mem]
                rfl
              · exact fun hwrite => absurd (hwrite _) hfail
      · intro n hn
        have htick : Resident pol P b.checkMm role s.nextTick l :=
          h.unswapped ⟨rfl, rfl, rfl, .refl _⟩ (fun _ hf => hf) h.held
        have hback : (s.nextTick.take n).giveBack n = s.nextTick :=
          h.paged.nextTick.giveBack_take hn
        refine ⟨n, role, l, rfl, by simp, ?_, ?_, ?_, fun _ _ => rfl, fun _ => .refl, ?_⟩
        · exact h.paged.unref n hn
        · rw [hback]
          exact htick
        · rw [hback]
          exact Unswapped.evicts ⟨rfl, rfl, rfl, .refl _⟩ fun _ => Iff.rfl
        · rw [card_take hn]
          omega

theorem allocPage_spec {pol : Policy b.sm}
    (hslot : E .swapEntry ∨ ∀ v, P v → v + 1 < max_swap_offset)
    (hrounds : E .runaway ∨ (∀ tick, b.write tick = 0) ∧ npage < b.rounds)
    (hempty : E .emptyList ∨ Complete b.al ∧ 0 < s.free.card + l.length)
    (h : Resident pol P b.checkMm role s l) :
    Ends E (allocPage b) s fun r t => ∃ n role' l', r = some n ∧
      Allocated b pol P role role' l l' s t n :=
  allocLoop_spec hslot (hrounds.imp_right fun hlt => ⟨hlt.1, Nat.lt_of_le_of_lt h.length_le hlt.2⟩)
    hempty h

/-- Tables are made from free frames. -/
theorem Resident.grown (h : Resident pol P pgdir role s l) (hpaged : Paged role' t)
    (hgrown : Grown role role' s t) :
    Resident pol P pgdir role' t l := by
  have hdirs : ∀ d, role' d = .dir → role d = .dir := fun d => (hgrown.dir_iff d).mp
  have hplace : ∀ f, place t f = place s f := fun f => by rw [place, hgrown.swap, place]
  have href : ∀ d v, role d = .dir → v < userPages → valid (leaf s.mem d v) = true →
      t.ref (frame (leaf s.mem d v)) = s.ref (frame (leaf s.mem d v)) := by
    intro d v hd hv hvalid
    have hdata := h.paged.tree.data hd hv hvalid
    exact hgrown.ref _ (by simp [hdata])
  constructor
  · exact hpaged
  · exact (hgrown.dir_iff pgdir).mpr h.dir
  · constructor
    · intro d v hd hv
      rw [hgrown.leaf d v (hdirs d hd) hv]
      intro hvalid
      rw [href d v (hdirs d hd) hv hvalid]
      exact h.single.ref d v (hdirs d hd) hv hvalid
    · intro d v d' v' hd hd' hv hv'
      rw [hgrown.leaf d v (hdirs d hd) hv, hgrown.leaf d' v' (hdirs d' hd') hv']
      exact h.single.once d v d' v' (hdirs d hd) (hdirs d' hd') hv hv'
  · rw [hgrown.swap]
    exact h.held
  · intro f hf
    have hplaced := h.placed f hf
    have hleaf := hgrown.leaf pgdir (place s f) h.dir hplaced.user
    constructor
    · rw [hplace]
      exact hplaced.user
    · rw [hplace, hleaf]
      exact hplaced.valid
    · rw [hplace, hleaf]
      exact hplaced.frame
  · intro f hf
    rw [hplace]
    exact h.slots f hf

theorem Grown.evicts (hgrown : Grown role role' s t) : Evicts pgdir role role' l l s t where
  sub _ hf := hf
  dir := hgrown.dir_iff
  table := hgrown.steady.table
  stays f hdata _ :=
    ⟨(hgrown.data_iff f).mpr hdata, hgrown.data f hdata, hgrown.ref f (by simp [hdata])⟩
  leaf d v hd hv _ := hgrown.leaf d v hd hv
  out _ _ _ _ hleaves := absurd hleaves.mem hleaves.gone
  disk _ _ _ := by rw [hgrown.swap]
  praVaddr := by rw [hgrown.swap]

/-- What the tables grow from, when pages may have to leave meanwhile. -/
structure Reached (b : Backing) (pol : Policy b.sm) (P : Nat → Prop) (role : Nat → Role)
    (s : Kern) (l : List Nat) (role' : Nat → Role) (t : Kern) (l' : List Nat) : Prop where
  resident : Resident pol P b.checkMm role' t l'
  evicts : Evicts b.checkMm role role' l l' s t
  shrinks : (∀ tick, b.write tick = 0) → Shrinks pol l l'

theorem allocPage_steady {pol : Policy b.sm}
    (hslot : E .swapEntry ∨ ∀ v, P v → v + 1 < max_swap_offset)
    (hrounds : E .runaway ∨ (∀ tick, b.write tick = 0) ∧ npage < b.rounds)
    (h : Resident pol P b.checkMm role s l) :
    AllocSpec E (allocPage b) (fun k => E .emptyList ∨ Complete b.al ∧ 0 < k) fun k role' t =>
      ∃ l', Reached b pol P role s l role' t l' ∧ t.free.card + l'.length = k := by
  constructor
  · rintro k role' t ⟨l', hreached, _⟩
    exact hreached.resident.paged
  · rintro k role' role'' t u ⟨l', hreached, hk⟩ hpaged hgrown hcard
    refine ⟨u.free.card + l'.length, by omega, l', ⟨hreached.resident.grown hpaged hgrown, ?_,
      hreached.shrinks⟩, rfl⟩
    exact hreached.evicts.trans (Grown.evicts hgrown) h.paged h.dir
  · rintro k role' t henough ⟨l', hreached, rfl⟩
    apply (allocPage_spec hslot hrounds henough hreached.resident).imp
    rintro r u ⟨n, role'', l'', rfl, halloc⟩
    refine ⟨role'', halloc.evicts.table, halloc.directory, halloc.fresh, l'',
      ⟨halloc.resident, ?_, ?_⟩, ?_⟩
    · exact hreached.evicts.trans halloc.evicts h.paged h.dir
    · exact fun hwrite => (hreached.shrinks hwrite).trans (halloc.shrinks hwrite)
    · have hback : (u.giveBack n).free.card = u.free.card + 1 :=
        Finset.card_insert_of_notMem halloc.fresh
      have hspare := halloc.spare
      omega

/-- `alloc_pages` goes on until it has a frame. -/
theorem allocLoop_some (rounds : Nat) (s : Kern) :
    Ends (fun _ => True) (allocLoop b rounds) s fun r _ => r.isSome = true := by
  induction rounds generalizing s with
  | zero => trivial
  | succ rounds ih =>
      rw [allocLoop, ends_bind]
      apply b.al.ends_allocPage
      · rw [ends_bind]
        exact (Ends.self _ _).imp fun _ t _ => ih t
      · exact fun _ _ => rfl

theorem tableAt_some {alloc : KernM (Option Nat)}
    (halloc : ∀ s, Ends (fun _ => True) alloc s fun r _ => r.isSome = true)
    (pdep : Ptr) (s : Kern) :
    Ends (fun _ => True) (tableAt alloc true pdep) s fun r _ => r.isSome = true := by
  rw [tableAt, ends_bind, ends_load]
  split
  · rw [ends_bind, ends_load, ends_map]
    exact (Ends.self _ _).imp fun _ _ _ => rfl
  · rw [if_pos rfl, ends_bind]
    apply (halloc s).imp
    intro r t hr
    obtain ⟨n, rfl⟩ := Option.isSome_iff_exists.mp hr
    simp only [ends_bind, ends_setPageRef, ends_fillPage, ends_store, ends_load, ends_map]
    exact (Ends.self _ _).imp fun _ _ _ => (Ends.self _ _).imp fun _ _ _ => rfl

theorem getPte_some {alloc : KernM (Option Nat)}
    (halloc : ∀ s, Ends (fun _ => True) alloc s fun r _ => r.isSome = true)
    (d la : Nat) (s : Kern) :
    Ends (fun _ => True) (getPte alloc d la true) s fun r _ => r.isSome = true := by
  rw [getPte, ends_bind]
  apply (tableAt_some halloc _ s).imp
  intro r t hr
  obtain ⟨pd, rfl⟩ := Option.isSome_iff_exists.mp hr
  rw [ends_bind]
  apply (tableAt_some halloc _ t).imp
  intro r u hr
  obtain ⟨pt, rfl⟩ := Option.isSome_iff_exists.mp hr
  rfl

/-- `get_pte` with `create`: pages may have to leave for the tables, and each table that was
missing takes one of the frames that are free or are made so. -/
theorem getPte_create {pol : Policy b.sm} {d la : Nat}
    (hslot : E .swapEntry ∨ ∀ v, P v → v + 1 < max_swap_offset)
    (hrounds : E .runaway ∨ (∀ tick, b.write tick = 0) ∧ npage < b.rounds)
    (hempty : E .emptyList ∨ Complete b.al ∧ missing s.mem d (ppn la) ≤ s.free.card + l.length)
    (h : Resident pol P b.checkMm role s l) (hd : role d = .dir) (hla : ppn la < userPages) :
    Ends E (getPte (allocPage b) d la true) s fun p t => ∃ q role' l', p = some q ∧
      Reached b pol P role s l role' t l' ∧ walk t.mem d (ppn la) = some q ∧
      s.free.card + l.length = t.free.card + l'.length + missing s.mem d (ppn la) := by
  have hself : Reached b pol P role s l role s l := ⟨h, .refl _ _ _ _, fun _ => .refl⟩
  have hsome := getPte_some (allocLoop_some (b := b) b.rounds) d la s
  have hroom : ∀ j, s.free.card + l.length < j + missing s.mem d (ppn la) →
      E .emptyList ∨ Complete b.al ∧ 0 < j :=
    fun j hj => hempty.imp_right fun henough => ⟨henough.1, by omega⟩
  apply (((allocPage_steady hslot hrounds h).getPte ⟨l, hself, rfl⟩ hd hla hroom).and hsome).imp
  rintro p t ⟨⟨k, role', ⟨l', hreached, rfl⟩, _, hfound⟩, hp⟩
  obtain ⟨q, rfl⟩ := Option.isSome_iff_exists.mp hp
  obtain ⟨hwalk, hspare⟩ := hfound q rfl
  exact ⟨q, role', l', rfl, hreached, hwalk, hspare⟩

end Ucore.Paging
