import Ucore.Mm.MmMap
import Ucore.Paging.Evict

/-!
# Page faults in one address space

A frame that has been handed out is neither free nor on the list until it is mapped
(`Loose`). `pgdir_alloc_page` and `swap_in` keep the invariant of the list, and in an
address space of its own every page is on it (`Full`).
-/

namespace Ucore.Paging

open Mm Mmu Machine

variable {role role' role'' : Nat → Role} {s t u : Kern} {l l' l'' : List Nat} {P : Nat → Prop}
  {b : Backing} {pol : Policy b.sm} {E : Panic → Prop} {d v n : Nat}

/-! ## A frame that is not mapped yet -/

/-- The frame `n` is in use, not on the list, and nothing maps it. -/
structure Loose (role : Nat → Role) (s : Kern) (l : List Nat) (n : Nat) : Prop where
  data : role n = .data
  off : n ∉ l
  unmapped : ∀ d v, role d = .dir → v < userPages → valid (leaf s.mem d v) = true →
    frame (leaf s.mem d v) ≠ n
  ref : s.ref n = 0

/-- The frame `n` is none of the pages that have stayed. -/
def Fresh (role : Nat → Role) (l l' : List Nat) (n : Nat) : Prop :=
    ∀ f, role f = .data → (f ∈ l → f ∈ l') → f ≠ n

/-- A frame that has been handed out is put to use. -/
theorem Allocated.loose (h : Allocated b pol P role role' l l' s t n) :
    Resident pol P b.checkMm (Function.update role' n .data) t l' ∧
      Loose (Function.update role' n .data) t l' n ∧
      Evicts b.checkMm role (Function.update role' n .data) l l' s t ∧ Fresh role l l' n := by
  have hfree : role' n = .free := (h.resident.paged.free n).mpr (Finset.mem_insert_self n _)
  have hother : ∀ f, role' f ≠ .free → Function.update role' n .data f = role' f := by
    intro f hf
    have hne : f ≠ n := fun heq => hf (heq ▸ hfree)
    exact Function.update_of_ne hne _ _
  have hdirs : ∀ f, Function.update role' n .data f = .dir ↔ role' f = .dir := by
    intro f
    by_cases hf : role' f = .free
    · by_cases hfn : f = n
      · subst hfn
        simp [hfree]
      · rw [Function.update_of_ne hfn]
    · rw [hother f hf]
  -- a mapped frame is a page of data, and so is not the new one
  have hmapped : ∀ d v, Function.update role' n .data d = .dir → v < userPages →
      valid (leaf t.mem d v) = true → frame (leaf t.mem d v) ≠ n := by
    intro d v hd hv hvalid hframe
    have hdata := h.resident.paged.tree.data ((hdirs d).mp hd) hv hvalid
    rw [Kern.giveBack_mem, hframe, hfree] at hdata
    cases hdata
  have hoff : n ∉ l' := by
    intro hmem
    have hdata := h.resident.data hmem
    rw [hfree] at hdata
    cases hdata
  have hfresh : Fresh role l l' n := by
    rintro f hdata hlist rfl
    have hdata' := (h.evicts.stays f hdata hlist).1
    rw [hfree] at hdata'
    cases hdata'
  refine ⟨⟨h.resident.paged.use_data h.fresh, (hdirs _).mpr h.resident.dir, ⟨?_, ?_⟩,
    h.resident.held, ?_, h.resident.slots⟩,
    ⟨Function.update_self n _ _, hoff, hmapped, h.ref⟩, ?_, hfresh⟩
  · intro d v hd hv hvalid
    have href := h.resident.single.ref d v ((hdirs d).mp hd) hv hvalid
    rwa [Kern.giveBack_ref, Kern.giveBack_mem, Function.update_of_ne (hmapped d v hd hv hvalid)]
      at href
  · intro d v d' v' hd hd'
    exact h.resident.single.once d v d' v' ((hdirs d).mp hd) ((hdirs d').mp hd')
  · intro f hf
    have hplaced := h.resident.placed f hf
    exact ⟨hplaced.user, hplaced.valid, hplaced.frame⟩
  · constructor
    · exact h.evicts.sub
    · exact fun f => (hdirs f).trans (h.evicts.dir f)
    · intro f hf
      rw [hother f, h.evicts.table f hf]
      rw [h.evicts.table f hf]
      intro hfree'
      rw [hfree'] at hf
      cases hf
    · intro f hdata hlist
      obtain ⟨hdata', hmem, href⟩ := h.evicts.stays f hdata hlist
      have hne := hfresh f hdata hlist
      rw [Kern.giveBack_ref, Function.update_of_ne hne] at href
      exact ⟨by rw [Function.update_of_ne hne, hdata'], hmem, href⟩
    · exact h.evicts.leaf
    · exact h.evicts.out
    · exact h.evicts.disk
    · exact h.evicts.praVaddr

/-- A page of data gets new contents. -/
theorem Resident.fill {pgdir : Nat} (h : Resident pol P pgdir role s l) (hn : role n = .data)
    (words : Nat → Pte) :
    Resident pol P pgdir role (s.fill n words) l := by
  obtain ⟨hpaged, hleaf⟩ := h.paged.fill hn words
  constructor
  · exact hpaged
  · exact h.dir
  · constructor
    · intro d v hd hv
      rw [hleaf d v hd hv]
      exact h.single.ref d v hd hv
    · intro d v d' v' hd hd' hv hv'
      rw [hleaf d v hd hv, hleaf d' v' hd' hv']
      exact h.single.once d v d' v' hd hd' hv hv'
  · exact h.held
  · intro f hf
    have hplaced := h.placed f hf
    have hsame := hleaf pgdir (place s f) h.dir hplaced.user
    have hplace : place (s.fill n words) f = place s f := rfl
    constructor
    · exact hplaced.user
    · rw [hplace, hsame]
      exact hplaced.valid
    · rw [hplace, hsame]
      exact hplaced.frame
  · exact h.slots

theorem Loose.fill {pgdir : Nat} (h : Loose role s l n) (hresident : Resident pol P pgdir role s l)
    (words : Nat → Pte) : Loose role (s.fill n words) l n := by
  refine ⟨h.data, h.off, ?_, h.ref⟩
  intro d v hd hv
  rw [(hresident.paged.fill h.data words).2 d v hd hv]
  exact h.unmapped d v hd hv

theorem Evicts.fill {pgdir : Nat} (h : Evicts pgdir role role' l l' s t) (hpaged : Paged role' t)
    (hn : role' n = .data)
    (hfresh : Fresh role l l' n)
    (words : Nat → Pte) : Evicts pgdir role role' l l' s (t.fill n words) := by
  have hleaf := (hpaged.fill hn words).2
  constructor
  · exact h.sub
  · exact h.dir
  · exact h.table
  · intro f hdata hlist
    obtain ⟨hdata', hmem, href⟩ := h.stays f hdata hlist
    refine ⟨hdata', ?_, href⟩
    rw [Kern.fill_mem, Memory.fill, Function.update_of_ne (hfresh f hdata hlist), hmem]
  · intro d v hd hv hnot
    rw [hleaf d v ((h.dir d).mpr hd) hv, h.leaf d v hd hv hnot]
  · intro d v hd hv hleaves
    obtain ⟨hpgdir, hout, hdisk⟩ := h.out d v hd hv hleaves
    exact ⟨hpgdir, by rw [hleaf d v ((h.dir d).mpr hd) hv, hout], hdisk⟩
  · exact h.disk
  · exact h.praVaddr

/-- What mapping a loose frame at a page number, and on the list, leaves. -/
structure Brought (role : Nat → Role) (d v n : Nat) (perm : Pte) (s t : Kern) : Prop where
  leaf : LeafSet role s t d v (pteCreate n (PTE_V ||| perm))
  mem : ∀ g, (∀ d k, role g ≠ .tab d k) → t.mem g = s.mem g
  ref : t.ref = Function.update s.ref n 1
  free : t.free = s.free
  disk : t.swap.disk = s.swap.disk
  place : ∀ f, place t f = if f = n then v else place s f

theorem Resident.brought (h : Resident pol P d role s l) (hloose : Loose role s l n)
    (hv : v < userPages) (hP : P v)
    {perm : Pte} (hperm : IsPerm perm) (hinvalid : valid (leaf s.mem d v) = false)
    (hpaged : Paged role t)
    (hbrought : Brought role d v n perm s t) (hadds : pol.Adds l n l')
    (hheld : pol.Held t.swap l') :
    Resident pol P d role t l' := by
  have hlt : n < 2 ^ 44 := Nat.lt_trans (h.paged.bound n (by simp [hloose.data])) (by decide)
  have hframe : frame (pteCreate n (PTE_V ||| perm)) = n :=
    frame_pteCreate hlt (IsPerm.or (by decide) hperm)
  have hnew := hbrought.leaf d v h.dir hv
  rw [if_pos ⟨rfl, rfl⟩] at hnew
  -- every other entry that is valid is as before
  have hold : ∀ d' v', role d' = .dir → v' < userPages → ¬(d' = d ∧ v' = v) →
      leaf t.mem d' v' = leaf s.mem d' v' := by
    intro d' v' hd' hv' hne
    rw [hbrought.leaf d' v' hd' hv', if_neg hne]
  have hapart : ∀ d' v', role d' = .dir → v' < userPages → ¬(d' = d ∧ v' = v) →
      valid (leaf t.mem d' v') = true → frame (leaf t.mem d' v') ≠ n := by
    intro d' v' hd' hv' hne hvalid
    rw [hold d' v' hd' hv' hne] at hvalid ⊢
    exact hloose.unmapped d' v' hd' hv' hvalid
  constructor
  · exact hpaged
  · exact h.dir
  · constructor
    · intro d' v' hd' hv' hvalid
      by_cases hthere : d' = d ∧ v' = v
      · rw [hthere.1, hthere.2, hnew, hframe, hbrought.ref, Function.update_self]
      · rw [hbrought.ref, Function.update_of_ne (hapart d' v' hd' hv' hthere hvalid),
          hold d' v' hd' hv' hthere]
        rw [hold d' v' hd' hv' hthere] at hvalid
        exact h.single.ref d' v' hd' hv' hvalid
    · intro d₁ v₁ d₂ v₂ hd₁ hd₂ hv₁ hv₂ hvalid₁ hvalid₂ heq
      by_cases h₁ : d₁ = d ∧ v₁ = v
      · by_cases h₂ : d₂ = d ∧ v₂ = v
        · exact ⟨h₁.1.trans h₂.1.symm, h₁.2.trans h₂.2.symm⟩
        · rw [h₁.1, h₁.2, hnew, hframe] at heq
          exact absurd heq.symm (hapart d₂ v₂ hd₂ hv₂ h₂ hvalid₂)
      · by_cases h₂ : d₂ = d ∧ v₂ = v
        · rw [h₂.1, h₂.2, hnew, hframe] at heq
          exact absurd heq (hapart d₁ v₁ hd₁ hv₁ h₁ hvalid₁)
        · rw [hold d₁ v₁ hd₁ hv₁ h₁] at hvalid₁ heq
          rw [hold d₂ v₂ hd₂ hv₂ h₂] at hvalid₂ heq
          exact h.single.once d₁ v₁ d₂ v₂ hd₁ hd₂ hv₁ hv₂ hvalid₁ hvalid₂ heq
  · exact hheld
  · intro f hf
    rcases List.mem_cons.mp ((pol.adds hadds).mem_iff.mp hf) with rfl | hf
    · have hplace := hbrought.place f
      rw [if_pos rfl] at hplace
      constructor
      · rwa [hplace]
      · rw [hplace, hnew]
        exact valid_pteCreate _ _
      · rw [hplace, hnew, hframe]
    · have hplaced := h.placed f hf
      have hfn : f ≠ n := ne_of_mem_of_not_mem hf hloose.off
      have hplace := hbrought.place f
      rw [if_neg hfn] at hplace
      have hne : ¬(d = d ∧ place s f = v) := by
        rintro ⟨_, rfl⟩
        rw [hplaced.valid] at hinvalid
        cases hinvalid
      have hsame := hold d (place s f) h.dir hplaced.user hne
      constructor
      · rw [hplace]
        exact hplaced.user
      · rw [hplace, hsame]
        exact hplaced.valid
      · rw [hplace, hsame]
        exact hplaced.frame
  · intro f hf
    have hplace := hbrought.place f
    rcases List.mem_cons.mp ((pol.adds hadds).mem_iff.mp hf) with rfl | hf
    · rw [if_pos rfl] at hplace
      rwa [hplace]
    · rw [if_neg (ne_of_mem_of_not_mem hf hloose.off)] at hplace
      rw [hplace]
      exact h.slots f hf

/-- The entry for `la` maps the loose frame `n`, and the page is on the list. -/
def mapped (s : Kern) (q : Ptr) (n la : Nat) (perm : Pte) (w : Swap) : Kern :=
  { (s.setRef n (s.ref n + 1)).write q (pteCreate n (PTE_V ||| perm)) with
    swap := { w with praVaddr := Function.update w.praVaddr n la } }

theorem Resident.mapped (h : Resident pol P d role s l) (hloose : Loose role s l n) {q : Ptr}
    {la : Nat} {perm : Pte}
    {w : Swap} (hv : ppn la < userPages) (hP : P (ppn la)) (hperm : IsPerm perm)
    (hwalk : walk s.mem d (ppn la) = some q) (hinvalid : valid (leaf s.mem d (ppn la)) = false)
    (hadds : pol.Adds l n l') (hheld : pol.Held w l') (hsame : Relisted s.swap w) :
    Resident pol P d role (mapped s q n la perm w) l' ∧
      Brought role d (ppn la) n perm s (mapped s q n la perm w) := by
  obtain ⟨hpaged, hleaf, _⟩ := h.paged.map h.dir hv hwalk hloose.data hperm hinvalid
  have hpaged' : Paged role (Paging.mapped s q n la perm w) :=
    ⟨hpaged.tree, hpaged.linked, hpaged.free, hpaged.bound, hpaged.unref⟩
  have hbrought : Brought role d (ppn la) n perm s (Paging.mapped s q n la perm w) := by
    constructor
    · exact hleaf
    · intro g hg
      have hgq : g ≠ q.page := fun heq => hg _ _ (heq ▸ (h.paged.tree.tab h.dir hv hwalk).1)
      exact Memory.write_of_ne _ _ _ hgq
    · have hone : s.ref n + 1 = 1 := by rw [hloose.ref]; rfl
      exact congrArg (Function.update s.ref n) hone
    · rfl
    · exact hsame.disk
    · intro f
      change ppn (Function.update w.praVaddr n la f) = _
      by_cases hf : f = n
      · rw [if_pos hf, hf, Function.update_self]
      · rw [if_neg hf, Function.update_of_ne hf, hsame.praVaddr, place]
  exact ⟨h.brought hloose hv hP hperm hinvalid hpaged' hbrought hadds (pol.congr hheld rfl rfl),
    hbrought⟩

/-- `page_insert` of a loose frame where nothing is mapped: the tables are there, so no
frame is asked for. -/
theorem pageInsert_loose (h : Resident pol P b.checkMm role s l) (hd : role d = .dir) {la : Nat}
    {perm : Pte} {q : Ptr} (hv : ppn la < userPages) (hwalk : walk s.mem d (ppn la) = some q)
    (hinvalid : valid (leaf s.mem d (ppn la)) = false) :
    Ends E (pageInsert (allocPage b) d n la perm) s fun r t => r = 0 ∧
      t = (s.setRef n (s.ref n + 1)).write q (pteCreate n (PTE_V ||| perm)) := by
  have hentry : valid (s.mem q.page q.index) = false := by rw [← leaf_of_walk hwalk, hinvalid]
  exact pageInsert_walk h.paged hd hv hwalk (mapPage_fresh hentry)

/-! ## Bringing a page -/

/-- A page comes to the place of `addr`, in the frame `n`: evictions have made room for it
when it is mapped, in the state `u`. -/
structure Arrived (b : Backing) (pol : Policy b.sm) (P : Nat → Prop) (role : Nat → Role)
    (s : Kern) (l : List Nat)
    (v : Nat) (perm : Pte) (n : Nat) (u : Kern) (role' : Nat → Role) (l₁ l' : List Nat)
    (t : Kern) : Prop where
  evicts : Evicts b.checkMm role role' l l₁ s u
  shrinks : (∀ tick, b.write tick = 0) → Shrinks pol l l₁
  before : Resident pol P b.checkMm role' u l₁
  loose : Loose role' u l₁ n
  brought : Brought role' b.checkMm v n perm u t
  adds : pol.Adds l₁ n l'
  resident : Resident pol P b.checkMm role' t l'

/-- Any other page that is mapped then was mapped before. -/
theorem Arrived.entry {perm : Pte} {l₁ : List Nat}
    (h : Arrived b pol P role s l v perm n u role' l₁ l' t)
    (hdir : role b.checkMm = .dir) {v' : Nat} (hv' : v' < userPages) (hne : v' ≠ v)
    (hvalid : valid (leaf t.mem b.checkMm v') = true) : leaf t.mem b.checkMm v' =
      leaf s.mem b.checkMm v' := by
  have hleaf := h.brought.leaf b.checkMm v' h.before.dir hv'
  rw [if_neg fun hthere => hne hthere.2] at hleaf
  rw [hleaf] at hvalid ⊢
  refine h.evicts.leaf _ _ hdir hv' fun hleaves => ?_
  rw [(h.evicts.out _ _ hdir hv' hleaves).2.1, valid_slotEntry] at hvalid
  cases hvalid

theorem Reached.arrived {l₁ : List Nat} {u' : Kern} {perm : Pte}
    (h : Reached b pol P role s l role' u l') (hpaged : Paged role s)
    (hdir : role b.checkMm = .dir)
    (harrived : Arrived b pol P role' u l' v perm n u' role'' l₁ l'' t) :
    Arrived b pol P role s l v perm n u' role'' l₁ l'' t :=
  { harrived with
    evicts := h.evicts.trans harrived.evicts hpaged hdir
    shrinks := fun hwrite => (h.shrinks hwrite).trans (harrived.shrinks hwrite) }

/-- The page that comes is on the list in place of the frame that it has got. -/
theorem Arrived.spare {perm : Pte} {l₁ : List Nat}
    (h : Arrived b pol P role s l v perm n u role' l₁ l' t) :
    t.free.card + l'.length = u.free.card + l₁.length + 1 := by
  rw [h.brought.free, (pol.adds h.adds).length_eq, List.length_cons]
  rfl

section

variable (hslot : E .swapEntry ∨ ∀ v, P v → v + 1 < max_swap_offset)
  (hrounds : E .runaway ∨ (∀ tick, b.write tick = 0) ∧ npage < b.rounds)
  (hempty : E .emptyList ∨ Complete b.al ∧ 0 < s.free.card + l.length)

include hslot hrounds hempty

/-- `alloc_page`, with the frame put to use. -/
theorem allocPage_loose (h : Resident pol P b.checkMm role s l) :
    Ends E (allocPage b) s fun r t => ∃ n role' l', r = some n ∧
      Reached b pol P role s l role' t l' ∧ Loose role' t l' n ∧ Fresh role l l' n ∧
      (∀ v q, v < userPages → walk s.mem b.checkMm v = some q → walk t.mem b.checkMm v = some q) ∧
      s.free.card + l.length = t.free.card + l'.length + 1 := by
  apply (allocPage_spec hslot hrounds hempty h).imp
  rintro r t ⟨n, role', l', rfl, halloc⟩
  obtain ⟨hresident, hloose, hevicts, hfresh⟩ := halloc.loose
  have hsteady : Steady role role' s t :=
    ⟨halloc.evicts.table, fun f i hf _ => by rw [halloc.directory f hf]⟩
  exact ⟨n, _, l', rfl, ⟨hresident, hevicts, halloc.shrinks⟩, hloose, hfresh,
    fun v q hv hwalk => hsteady.walk h.paged.tree h.dir hv hwalk, halloc.spare⟩

theorem pgdirAllocPage_spec {la : Nat} {perm : Pte} {q : Ptr}
    (h : Resident pol P b.checkMm role s l)
    (hv : ppn la < userPages) (hP : P (ppn la)) (hperm : IsPerm perm)
    (hwalk : walk s.mem b.checkMm (ppn la) = some q)
    (hinvalid : valid (leaf s.mem b.checkMm (ppn la)) = false) :
    Ends E (pgdirAllocPage b b.checkMm la perm) s fun r t => ∃ n u role' l₁ l', r = some n ∧
      Arrived b pol P role s l (ppn la) perm n u role' l₁ l' t ∧
      s.free.card + l.length = t.free.card + l'.length := by
  rw [pgdirAllocPage, ends_bind]
  apply (allocPage_loose hslot hrounds hempty h).imp
  rintro r t ⟨n, role', l', rfl, hreached, hloose, _, hwalks, hspare⟩
  have hsame : leaf t.mem b.checkMm (ppn la) = leaf s.mem b.checkMm (ppn la) := by
    refine hreached.evicts.leaf _ _ h.dir hv fun hleaves => ?_
    have hvalid := hleaves.valid
    rw [hinvalid] at hvalid
    cases hvalid
  have hinvalid' : valid (leaf t.mem b.checkMm (ppn la)) = false := by rw [hsame, hinvalid]
  have hwalk' := hwalks _ _ hv hwalk
  simp only [ends_bind]
  apply (pageInsert_loose hreached.resident hreached.resident.dir hv hwalk' hinvalid').imp
  rintro r _ ⟨rfl, rfl⟩
  rw [if_neg (by decide), ends_bind]
  obtain ⟨w, l₃, hrun, hheld, hadds, hrelisted⟩ :=
    pol.mapSwappable hreached.resident.held hloose.off
  obtain ⟨hresident, hbrought⟩ := hreached.resident.mapped hloose hv hP hperm hwalk' hinvalid' hadds
    hheld hrelisted
  refine ends_onSwap hrun ?_
  have hone : (mapped t q n la perm w).ref n = 1 := by rw [hbrought.ref, Function.update_self]
  have harrived : Arrived b pol P role s l (ppn la) perm n t role' l' l₃ (mapped t q n la perm w) :=
    ⟨hreached.evicts, hreached.shrinks, hreached.resident, hloose, hbrought, hadds, hresident⟩
  simp only [setPraVaddr, ends_bind, ends_modify, ends_pageRef]
  exact (ends_check hone).mpr
    ⟨n, t, role', l', l₃, rfl, harrived, hspare.trans harrived.spare.symm⟩

/-- A page is read from the device, if that works. -/
theorem swapIn_spec {addr : Nat} (h : Resident pol P b.checkMm role s l) (hv : ppn addr < userPages)
    (hP : E .swapEntry ∨ ppn addr + 1 < max_swap_offset)
    (hentry : leaf s.mem b.checkMm (ppn addr) = slotEntry (ppn addr)) :
    Ends E (swapIn b b.checkMm addr) s fun r t => ∃ n role' l', r = (0, n) ∧
      Reached b pol P role s l role' t l' ∧
      Loose role' t l' n ∧ (b.read = 0 → t.mem n = s.swap.disk (ppn addr + 1)) ∧
      (∃ q, walk t.mem b.checkMm (ppn addr) = some q) ∧
      s.free.card + l.length = t.free.card + l'.length + 1 := by
  rw [swapIn, ends_bind]
  apply (allocPage_loose hslot hrounds hempty h).imp
  rintro r t ⟨n, role', l', rfl, hreached, hloose, hfresh, _, hspare⟩
  have hnot : ¬Leaves s l l' b.checkMm (ppn addr) := by
    intro hleaves
    have hvalid := hleaves.valid
    rw [hentry, valid_slotEntry] at hvalid
    cases hvalid
  have hsame := hreached.evicts.leaf _ _ h.dir hv hnot
  have hdisk := hreached.evicts.disk _ hv hnot
  have hn : n < npage := hreached.resident.paged.bound n (by simp [hloose.data])
  have hentry' : leaf t.mem b.checkMm (ppn addr) ≠ 0#64 := by
    rw [hsame, hentry]
    exact slotEntry_ne_zero hv
  obtain ⟨p, hwalk⟩ := walk_of_leaf_ne_zero hentry'
  simp only [ends_bind]
  apply (findPte_spec hreached.resident.paged hreached.resident.dir hv).imp
  rintro r u ⟨rfl, rfl⟩
  rw [hwalk]
  simp only [ends_bind, ends_load]
  rw [← leaf_of_walk hwalk, hsame, hentry]
  simp only [swapfsRead, swapOffset, offset_slotEntry hv, ends_bind]
  by_cases hlt : ppn addr + 1 < max_swap_offset
  · rw [if_pos ⟨Nat.succ_pos _, hlt⟩]
    simp only [ends_pure]
    apply ends_kaddr hn
    by_cases hread : b.read = 0
    · rw [if_pos hread]
      simp only [ends_bind, ends_get, ends_fillPage, ends_pure]
      refine ⟨n, role', l', rfl, ⟨hreached.resident.fill hloose.data _, ?_, hreached.shrinks⟩,
        hloose.fill hreached.resident _, fun _ => ?_, walk_of_leaf_ne_zero ?_, hspare⟩
      · exact hreached.evicts.fill hreached.resident.paged hloose.data hfresh _
      · rw [hdisk, Kern.fill_mem, Memory.fill, Function.update_self]
      · rw [(hreached.resident.paged.fill hloose.data _).2 _ _ hreached.resident.dir hv]
        exact hentry'
    · rw [if_neg hread]
      exact ⟨n, role', l', rfl, hreached, hloose, fun hzero => absurd hzero hread,
        ⟨p, hwalk⟩, hspare⟩
  · rw [if_neg fun hin => hlt hin.2]
    exact hP.resolve_right hlt

theorem faultIn_spec {addr : Nat} {perm : Pte} (h : Resident pol P b.checkMm role s l)
    (hv : ppn addr < userPages)
    (hP : P (ppn addr)) (hperm : IsPerm perm)
    (hentry : leaf s.mem b.checkMm (ppn addr) = slotEntry (ppn addr)) :
    Ends E (faultIn b b.checkMm addr perm) s fun r t => r = 0 ∧ ∃ n u role' l₁ l',
      Arrived b pol P role s l (ppn addr) perm n u role' l₁ l' t ∧
      s.free.card + l.length = t.free.card + l'.length ∧
      (b.read = 0 → u.mem n = s.swap.disk (ppn addr + 1)) := by
  rw [faultIn, ends_bind]
  apply (swapIn_spec hslot hrounds hempty h hv (hslot.imp_right fun hin => hin _ hP) hentry).imp
  rintro ⟨r, n⟩ t ⟨_, role', l', ⟨rfl, rfl⟩, hreached, hloose, hread, ⟨q, hwalk⟩, hspare⟩
  have hsame : leaf t.mem b.checkMm (ppn addr) = slotEntry (ppn addr) := by
    rw [hreached.evicts.leaf _ _ h.dir hv, hentry]
    intro hleaves
    have hvalid := hleaves.valid
    rw [hentry, valid_slotEntry] at hvalid
    cases hvalid
  simp only [ne_eq, not_true_eq_false, if_false, ends_bind]
  have hinvalid : valid (leaf t.mem b.checkMm (ppn addr)) = false := by
    rw [hsame, valid_slotEntry]
  apply (pageInsert_loose hreached.resident hreached.resident.dir hv hwalk hinvalid).imp
  rintro r _ ⟨_, rfl⟩
  obtain ⟨w, l₃, hrun, hheld, hadds, hrelisted⟩ :=
    pol.mapSwappable hreached.resident.held hloose.off
  obtain ⟨hresident, hbrought⟩ := hreached.resident.mapped hloose hv hP hperm hwalk hinvalid hadds
    hheld hrelisted
  have harrived : Arrived b pol P role s l (ppn addr) perm n t role' l' l₃
      (mapped t q n addr perm w) :=
    ⟨hreached.evicts, hreached.shrinks, hreached.resident, hloose, hbrought, hadds, hresident⟩
  exact ends_onSwap hrun
    ⟨rfl, n, t, role', l', l₃, harrived, hspare.trans harrived.spare.symm, hread⟩

end

/-! ## An address space of its own -/

/-- Every page that is mapped is on the list, and the entry of any other is 0 or that of
its slot. -/
structure Full (P : Nat → Prop) (pgdir : Nat) (s : Kern) (l : List Nat) : Prop where
  listed : ∀ v, v < userPages → valid (leaf s.mem pgdir v) = true → frame (leaf s.mem pgdir v) ∈ l
  entry : ∀ v, v < userPages → valid (leaf s.mem pgdir v) = false →
    leaf s.mem pgdir v = 0#64 ∨ leaf s.mem pgdir v = slotEntry v ∧ P v

theorem Full.evicts {pgdir : Nat} (h : Full P pgdir s l) (hresident : Resident pol P pgdir role s l)
    (hevicts : Evicts pgdir role role' l l' s t) : Full P pgdir t l' := by
  constructor
  · intro v hv hvalid
    by_cases hleaves : Leaves s l l' pgdir v
    · rw [(hevicts.out pgdir v hresident.dir hv hleaves).2.1, valid_slotEntry] at hvalid
      cases hvalid
    · have hsame := hevicts.leaf pgdir v hresident.dir hv hleaves
      rw [hsame] at hvalid ⊢
      by_contra hgone
      exact hleaves ⟨hvalid, h.listed v hv hvalid, hgone⟩
  · intro v hv hvalid
    by_cases hleaves : Leaves s l l' pgdir v
    · have hplace := hresident.at_place hleaves.mem hresident.dir hv hleaves.valid rfl
      refine Or.inr ⟨(hevicts.out pgdir v hresident.dir hv hleaves).2.1, ?_⟩
      rw [hplace.2]
      exact hresident.slots _ hleaves.mem
    · have hsame := hevicts.leaf pgdir v hresident.dir hv hleaves
      rw [hsame] at hvalid ⊢
      exact h.entry v hv hvalid

theorem Full.brought {pgdir : Nat} {perm : Pte} (h : Full P pgdir s l)
    (hresident : Resident pol P pgdir role s l)
    (hloose : Loose role s l n) (hperm : IsPerm perm) (hbrought : Brought role pgdir v n perm s t)
    (hadds : pol.Adds l n l') : Full P pgdir t l' := by
  have hlt : n < 2 ^ 44 := Nat.lt_trans (hresident.paged.bound n (by simp [hloose.data]))
    (by decide)
  have hframe : frame (pteCreate n (PTE_V ||| perm)) = n :=
    frame_pteCreate hlt (IsPerm.or (by decide) hperm)
  have hmem : ∀ f, f ∈ l' ↔ f ∈ n :: l := fun f => (pol.adds hadds).mem_iff
  constructor
  · intro v' hv' hvalid
    have hleaf := hbrought.leaf pgdir v' hresident.dir hv'
    rw [hmem]
    by_cases heq : v' = v
    · rw [if_pos ⟨rfl, heq⟩] at hleaf
      rw [hleaf, hframe]
      exact List.mem_cons_self
    · rw [if_neg fun hthere => heq hthere.2] at hleaf
      rw [hleaf] at hvalid ⊢
      exact List.mem_cons_of_mem n (h.listed v' hv' hvalid)
  · intro v' hv' hvalid
    have hleaf := hbrought.leaf pgdir v' hresident.dir hv'
    by_cases heq : v' = v
    · rw [if_pos ⟨rfl, heq⟩] at hleaf
      rw [hleaf, valid_pteCreate] at hvalid
      cases hvalid
    · rw [if_neg fun hthere => heq hthere.2] at hleaf
      rw [hleaf] at hvalid ⊢
      exact h.entry v' hv' hvalid

theorem Full.arrived {perm : Pte} {l₁ : List Nat} (h : Full P b.checkMm s l)
    (hresident : Resident pol P b.checkMm role s l)
    (hperm : IsPerm perm) (harrived : Arrived b pol P role s l v perm n u role' l₁ l' t) :
    Full P b.checkMm t l' :=
  (h.evicts hresident harrived.evicts).brought harrived.before harrived.loose hperm
    harrived.brought harrived.adds

/-- A page that is not mapped is not present. -/
theorem Full.absent {pgdir : Nat} (h : Full P pgdir s l) (hv : v < userPages)
    (hinvalid : valid (leaf s.mem pgdir v) = false) :
    leaf s.mem pgdir v &&& (PTE_V ||| PTE_R) = 0#64 := by
  rcases h.entry v hv hinvalid with hzero | ⟨hslot, _⟩
  · rw [hzero]
    exact BitVec.zero_and
  · rw [hslot]
    apply BitVec.eq_of_getLsbD_eq
    intro i hi
    by_cases hlow : i < 8
    · simp [slotEntry_low v hlow]
    · have hlt : 3 < 2 ^ i := Nat.lt_of_lt_of_le (by decide : 3 < 2 ^ 8)
        (Nat.pow_le_pow_right (by decide) (Nat.le_of_not_lt hlow))
      have hbits : PTE_V ||| PTE_R = BitVec.ofNat 64 3 := by decide
      rw [hbits, BitVec.getLsbD_and, BitVec.getLsbD_ofNat, Nat.testBit_lt_two_pow hlt]
      simp

theorem findVma_pgdir (mm : MmStruct) (addr : Nat) : (findVma mm addr).2.pgdir = mm.pgdir := by
  unfold findVma
  dsimp only
  split
  · rfl
  · rfl

theorem present_spec {pgdir addr : Nat} (hpaged : Paged role s) (hdir : role pgdir = .dir)
    (hv : ppn addr < userPages) :
    Ends E (present pgdir addr) s fun r t => t = s ∧
      r = (leaf s.mem pgdir (ppn addr) &&& (PTE_V ||| PTE_R) != 0) := by
  rw [present, ends_bind]
  apply (findPte_spec hpaged hdir hv).imp
  rintro r t ⟨rfl, rfl⟩
  cases hwalk : walk t.mem pgdir (ppn addr) with
  | none =>
      have hzero : leaf t.mem pgdir (ppn addr) = 0#64 := by rw [leaf, hwalk]
      refine ⟨rfl, ?_⟩
      rw [hzero]
      rfl
  | some p =>
      rw [leaf_of_walk hwalk]
      exact ⟨rfl, rfl⟩

section

variable (hslot : E .swapEntry ∨ ∀ v, P v → v + 1 < max_swap_offset)
  (hrounds : E .runaway ∨ (∀ tick, b.write tick = 0) ∧ npage < b.rounds)

include hslot hrounds

/-- A fault on a page that is not mapped brings it, from the device if it is there. It needs
a frame for the page, and one for each table that is missing. -/
theorem faultPage_spec {addr : Nat} {perm : Pte} (h : Resident pol P b.checkMm role s l)
    (hfull : Full P b.checkMm s l)
    (hv : ppn addr < userPages) (hP : P (ppn addr)) (hperm : IsPerm perm)
    (hinvalid : valid (leaf s.mem b.checkMm (ppn addr)) = false)
    (hempty : E .emptyList ∨
      Complete b.al ∧ missing s.mem b.checkMm (ppn addr) < s.free.card + l.length) :
    Ends E (faultPage b b.checkMm addr perm) s fun r t => r = 0 ∧ ∃ n u role' l₁ l',
      Arrived b pol P role s l (ppn addr) perm n u role' l₁ l' t ∧
      s.free.card + l.length = t.free.card + l'.length + missing s.mem b.checkMm (ppn addr) ∧
      (b.read = 0 → leaf s.mem b.checkMm (ppn addr) ≠ 0#64 →
        u.mem n = s.swap.disk (ppn addr + 1)) := by
  rw [faultPage, ends_bind]
  apply (getPte_create hslot hrounds
    (hempty.imp_right fun henough => ⟨henough.1, Nat.le_of_lt henough.2⟩) h h.dir hv).imp
  rintro r t ⟨q, role', l', rfl, hreached, hwalk, hspare⟩
  have hempty' : E .emptyList ∨ Complete b.al ∧ 0 < t.free.card + l'.length :=
    hempty.imp_right fun henough => ⟨henough.1, by omega⟩
  have hnot : ¬Leaves s l l' b.checkMm (ppn addr) := by
    intro hleaves
    have hvalid := hleaves.valid
    rw [hinvalid] at hvalid
    cases hvalid
  have hsame := hreached.evicts.leaf _ _ h.dir hv hnot
  have hdisk := hreached.evicts.disk _ hv hnot
  simp only [ends_bind, ends_load]
  rw [← leaf_of_walk hwalk, hsame]
  rcases hfull.entry _ hv hinvalid with hzero | ⟨hentry, _⟩
  · rw [if_pos hzero, ends_bind]
    apply (pgdirAllocPage_spec hslot hrounds hempty' hreached.resident hv hP hperm hwalk
      (by rw [hsame, hinvalid])).imp
    rintro r w ⟨n, u, role'', l₁, l'', rfl, harrived, hspare'⟩
    exact ⟨rfl, n, u, role'', l₁, l'', hreached.arrived h.paged h.dir harrived, hspare' ▸ hspare,
      fun _ hne => absurd hzero hne⟩
  · rw [if_neg (by rw [hentry]; exact slotEntry_ne_zero hv)]
    apply (faultIn_spec hslot hrounds hempty' hreached.resident hv hP hperm
      (by rw [hsame, hentry])).imp
    rintro r w ⟨rfl, n, u, role'', l₁, l'', harrived, hspare', hread⟩
    exact ⟨rfl, n, u, role'', l₁, l'', hreached.arrived h.paged h.dir harrived, hspare' ▸ hspare,
      fun hok _ => (hread hok).trans hdisk⟩

/-- The permissions of a page in an area. -/
def areaPerm (vma : VmaStruct) : Pte := if vma.writable then PTE_U ||| (PTE_R ||| PTE_W) else PTE_U

omit hslot hrounds in
theorem isPerm_area (vma : VmaStruct) : IsPerm (areaPerm vma) := by
  unfold areaPerm
  split
  · decide
  · decide

theorem doPgfault_spec {mm : MmStruct} {addr : Nat} {vma : VmaStruct} (hmm : mm.Apart)
    (hpgdir : mm.pgdir = b.checkMm)
    (hvma : vma ∈ mm.mmapList) (haddr : vma.contains addr) (h : Resident pol P b.checkMm role s l)
    (hfull : Full P b.checkMm s l) (hv : ppn addr < userPages) (hP : P (ppn addr))
    (hinvalid : valid (leaf s.mem b.checkMm (ppn addr)) = false)
    (hempty : E .emptyList ∨
      Complete b.al ∧ missing s.mem b.checkMm (ppn addr) < s.free.card + l.length) :
    Ends E (doPgfault b mm addr) s fun r t => r = (0, (findVma mm addr).2) ∧ ∃ n u role' l₁ l',
      Arrived b pol P role s l (ppn addr) (areaPerm vma) n u role' l₁ l' t ∧
      s.free.card + l.length = t.free.card + l'.length + missing s.mem b.checkMm (ppn addr) ∧
      (b.read = 0 → leaf s.mem b.checkMm (ppn addr) ≠ 0#64 →
        u.mem n = s.swap.disk (ppn addr + 1)) := by
  have hsome : (findVma mm addr).1 = some vma := hmm.findVma_some.mpr ⟨hvma, haddr⟩
  have hround := ppn_rounddown addr
  rw [doPgfault, hpgdir, ends_bind]
  apply (present_spec h.paged h.dir hv).imp
  rintro r t ⟨rfl, rfl⟩
  rw [hfull.absent hv hinvalid]
  rw [if_neg (by decide)]
  cases hfind : findVma mm addr with
  | mk found mm' =>
      rw [hfind] at hsome
      obtain rfl : found = some vma := hsome
      have hpgdir' : mm'.pgdir = b.checkMm := by
        have hsame := findVma_pgdir mm addr
        rwa [hfind, hpgdir] at hsame
      change Ends E (if addr < vma.vmStart then _ else _) t _
      rw [if_neg (Nat.not_lt_of_le haddr.1), ends_map, hpgdir']
      have hv' : ppn (rounddown addr PGSIZE) < userPages := by rwa [hround]
      apply (faultPage_spec hslot hrounds h hfull hv' (by rwa [hround]) (isPerm_area vma)
        (by rwa [hround]) (by rwa [hround])).imp
      rintro r u ⟨rfl, n, u', role', l₁, l', harrived, hspare, hread⟩
      rw [hround] at harrived hspare hread
      exact ⟨rfl, n, u', role', l₁, l', harrived, hspare, hread⟩

end

/-- A page directory without pages, and an empty list. -/
theorem resident_of_empty {sm : SwapManager} {pol : Policy sm} {pgdir : Nat}
    (hempty : EmptyDir pgdir s)
    (hheld : pol.Held s.swap []) : Resident pol P pgdir (emptyRole pgdir s) s [] ∧
      Full P pgdir s [] := by
  have hinv := hempty.inv
  have hzero : ∀ v, v < userPages → leaf s.mem pgdir v = 0#64 := hinv.entries
  have hinvalid : ∀ d v, emptyRole pgdir s d = .dir → v < userPages →
      ¬valid (leaf s.mem d v) = true := by
    intro d v hd hv hvalid
    rw [hinv.only d hd, hzero v hv] at hvalid
    cases hvalid
  refine ⟨⟨hinv.paged, hinv.dir, ⟨?_, ?_⟩, hheld, ?_, ?_⟩, ⟨?_, fun v hv _ => Or.inl (hzero v hv)⟩⟩
  · exact fun d v hd hv hvalid => absurd hvalid (hinvalid d v hd hv)
  · exact fun d v d' v' hd _ hv _ hvalid => absurd hvalid (hinvalid d v hd hv)
  · exact fun f hf => absurd hf List.not_mem_nil
  · exact fun f hf => absurd hf List.not_mem_nil
  · exact fun v hv hvalid => absurd hvalid (hinvalid pgdir v hinv.dir hv)

/-! ## One area, and frames for one page -/

/-- The clock, and as many frames as one page needs. -/
def clockBacking : Backing where
  al := .ofList [0x80501, 0x80502, 0x80503]
  sm := clockManager
  checkMm := 0x80500
  rounds := npage + 1
  write _ := 0
  read := 0

def oneWritable : MmStruct := ⟨[⟨0x1000, 0x6000, VM_WRITE⟩], none, 0x80500, 0⟩

theorem oneWritable_apart : oneWritable.Apart := ⟨by decide, by decide, nofun⟩

theorem clocked_boot (frames : Finset Nat) : Clocked (bootKern frames).swap [] [] :=
  ⟨Links.ring_nil_iff.mpr ⟨rfl, rfl⟩, rfl⟩

theorem clockHeld_boot (frames : Finset Nat) : clockPolicy.Held (bootKern frames).swap [] :=
  ⟨[], [], rfl, clocked_boot frames⟩

end Ucore.Paging
