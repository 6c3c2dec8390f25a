import Ucore.Mm.Dup
import Ucore.Mm.Exit
import Ucore.Mm.RefCount

/-!
# Reference counts without copy-on-write

Callers hold any number of page directories and map pages in them by hand, one at
a time, in ranges or by copying a range from one directory to another. The count
of a page is the number of entries that map it, and the page goes back to the
manager in the call that takes the last of them away.
-/

namespace Ucore.Mm

open Mmu Machine

variable {E : Panic → Prop} {role role' role'' : Nat → Role} {s t u : Kern} {al : Allocator}

/-! ## `copy_range` over pages that may be mapped -/

/-- One round of `copy_range`, whatever `toDir` maps at the page. -/
theorem copyRound_turnover {toDir fromDir v : Nat} {p : Ptr} (hnull : E .nullPage)
    (hpaged : Paged role s) (hcounted : Counted role s) (hto : role toDir = .dir)
    (hfrom : role fromDir = .dir) (hv : v < userPages) (hwalk : walk s.mem fromDir v = some p)
    (hvalid : valid (leaf s.mem fromDir v) = true) :
    Ends E (do
      match ← getPte al.allocPage toDir (PGSIZE * v) true with
      | none => pure (-E_NO_MEM)
      | some _ =>
          let perm := (← load p) &&& PTE_USER
          let page ← pte2page (← load p)
          match ← al.allocPage with
          | none => throw .nullPage
          | some npage =>
              copyPage page npage
              if (← pageInsert al.allocPage toDir npage (PGSIZE * v) perm) ≠ 0 then throw .mapFailed
              pure 0 : KernM Int) s fun _ t => ∃ role', Paged role' t ∧
                Turnover role role' s t := by
  have hdata := hpaged.tree.data hfrom hv hvalid
  rw [ends_bind]
  apply (getPte_true al hpaged hto (by rwa [ppn_mul])).imp
  rintro r t ⟨role₁, hpaged₁, hgrown, hfound⟩
  rw [ppn_mul] at hfound
  have hgrow := hgrown.settled.turnover hgrown.idle
  cases r with
  | none => exact ⟨role₁, hpaged₁, hgrow⟩
  | some q =>
      have hdir₁ := (hgrown.dir_iff toDir).mpr hto
      have hwalkTo := hfound q rfl
      have hwalkFrom := hgrown.steady.walk hpaged.tree hfrom hv hwalk
      have hleaf₁ : leaf t.mem fromDir v = leaf s.mem fromDir v := hgrown.leaf _ _ hfrom hv
      have hlt : frame (leaf s.mem fromDir v) < npage := hpaged.bound _ (by simp [hdata])
      simp only [ends_bind, ends_load, ← leaf_of_walk hwalkFrom, hleaf₁]
      apply ends_pte2page hvalid hlt
      apply al.ends_allocPage
      · exact hnull
      · intro n hn
        have hfree := (hpaged₁.free n).mpr hn
        have hnew : Function.update role₁ n .data n = .data := Function.update_self n _ _
        obtain ⟨hpaged₂, hkept₂, hsame⟩ :=
          hpaged₁.takeFill hn (t.mem (frame (leaf s.mem fromDir v)))
        simp only [ends_bind]
        apply ends_copyPage hlt (hpaged₁.bound n (by simp [hfree]))
        obtain ⟨u, hu⟩ : ∃ u,
            u = (t.nextTick.take n).fill n (t.mem (frame (leaf s.mem fromDir v))) :=
          ⟨_, rfl⟩
        simp only [Kern.take_mem, Kern.nextTick_mem, ← hu] at hpaged₂ hkept₂ hsame ⊢
        have hdir₂ := (hkept₂.dir toDir).mpr hdir₁
        have hwalk₂ : walk u.mem toDir v = some q := by
          have hne : ∀ f, role₁ f ≠ .free → f ≠ n := fun f hf heq => hf (heq ▸ hfree)
          rw [← hwalkTo]
          apply hpaged₁.tree.walk_congr hdir₁ hv
          · rw [hu]
            exact Function.update_of_ne (hne _ (by simp [hdir₁])) _ _
          · intro f i hf
            rw [hu]
            exact Function.update_of_ne (hne _ (by simp [hf])) _ _
        have hzero : excess (Function.update role₁ n .data) u n = 0 := by
          apply (hkept₂.fresh n hnew).resolve_left
          rw [hfree]
          exact Role.noConfusion
        have hcounted₂ : Counted (Function.update role₁ n .data) u :=
          hkept₂.nonneg (hgrow.evolves.counted hcounted)
        have hperm : IsPerm (leaf s.mem fromDir v &&& PTE_USER) := IsPerm.and (by decide) _
        apply pageInsert_walk hpaged₂ hdir₂ (by rwa [ppn_mul]) (by rwa [ppn_mul])
        apply (mapPage_spec hpaged₂ hcounted₂ hdir₂ hv hwalk₂ hnew hperm).imp
        rintro ret w ⟨rfl, role₃, hpaged₃, hsettled, hn₃, hset, hidle, _⟩
        have hdir₃ := (hsettled.dir toDir).mpr hdir₂
        have hleaf := hset toDir v hdir₂ hv
        rw [if_pos ⟨rfl, rfl⟩] at hleaf
        have hexcess := (hsettled.data n hn₃).2.2.trans hzero
        have hlive := ref_pos_set hpaged₃ hdir₃ hv hn₃ hperm hleaf hexcess.ge
        have href : u.ref = t.ref := by rw [hu]; rfl
        rw [if_neg (not_not.mpr rfl), ends_pure]
        exact ⟨role₃, hpaged₃,
          hgrow.trans (.insert hfree hkept₂ hzero href hsettled hlive hidle)⟩

theorem Turnover.refl (role : Nat → Role) (s : Kern) : Turnover role role s s :=
  .same (.refl role s) (LeafSame.refl role s) rfl

/-- `copy_range` between any two page directories. -/
theorem copyRange_turnover {toDir fromDir start stop : Nat} (hnull : E .nullPage)
    (hunaligned : E .unaligned) (huser : E .userAccess) (hpaged : Paged role s)
    (hcounted : Counted role s) (hto : role toDir = .dir) (hfrom : role fromDir = .dir) :
    Ends E (copyRange al.allocPage toDir fromDir start stop) s fun _ t => ∃ role', Paged role' t ∧
      Turnover role role' s t := by
  unfold copyRange checkRange
  rw [ends_bind]
  split
  next => exact hunaligned
  next halign =>
    split
    next => exact huser
    next haccess =>
      rw [not_not] at halign haccess
      obtain ⟨a, n, rfl, rfl, han, hn, hrounds⟩ := range_pages halign.1 halign.2 haccess
      rw [ends_pure]
      have hloop := @pageLoop_spec E al.allocPage (fun start => start ≠ 0 ∧ start < PGSIZE * n)
        fromDir n (fun start ptep => do
          if valid (← load ptep) then
            match ← getPte al.allocPage toDir start true with
            | none => pure (-E_NO_MEM)
            | some _ =>
                let perm := (← load ptep) &&& PTE_USER
                let page ← pte2page (← load ptep)
                match ← al.allocPage with
                | none => throw .nullPage
                | some npage =>
                    copyPage page npage
                    if (← pageInsert al.allocPage toDir npage start perm) ≠ 0 then throw .mapFailed
                    pure 0
          else pure 0)
        (fun _ t => ∃ role', Paged role' t ∧ Turnover role role' s t)
        (fun _ t => ∃ role', Paged role' t ∧ Turnover role role' s t)
        (fun start hstart => by simp [Nat.pos_iff_ne_zero.mp hstart]) hn ?_ ?_ ?_
        ((PGSIZE * n - PGSIZE * a) / PGSIZE) a s hrounds han ⟨role, hpaged, Turnover.refl role s⟩
      · apply hloop.imp
        rintro ret t (⟨_, hdone⟩ | ⟨_, hdone⟩)
        · exact hdone
        · exact hdone
      · rintro v t ⟨role', hpaged', hturnover⟩
        exact ⟨role', hpaged', (hturnover.evolves.dir fromDir).mpr hfrom⟩
      · intro v t _ hdone _
        exact hdone
      · rintro v t p hv ⟨role', hpaged', hturnover⟩ hwalk
        simp only [ends_bind, ends_load, ← leaf_of_walk hwalk]
        cases hvalid : valid (leaf t.mem fromDir v) with
        | false =>
            exact ⟨fun _ => ⟨role', hpaged', hturnover⟩, fun _ => ⟨role', hpaged', hturnover⟩⟩
        | true =>
            rw [if_pos rfl]
            apply (copyRound_turnover hnull hpaged' (hturnover.evolves.counted hcounted)
              ((hturnover.evolves.dir toDir).mpr hto) ((hturnover.evolves.dir fromDir).mpr hfrom)
              (Nat.lt_of_lt_of_le hv hn) hwalk hvalid).imp
            rintro ret u ⟨role'', hpaged'', hturnover'⟩
            have hboth := hturnover.trans hturnover'
            exact ⟨fun _ => ⟨role'', hpaged'', hboth⟩, fun _ => ⟨role'', hpaged'', hboth⟩⟩

/-! ## Runs on page directories -/

/-- The memory, and the page directories that have been set up. -/
structure Dirs where
  kern : Kern
  dirs : List Nat

/-- The calls on page directories. -/
inductive DirOp
  | setupPgdir
  | allocPage
  | pageInsert (pgdir page la : Nat) (perm : Pte)
  | pageRemove (pgdir la : Nat)
  | unmapRange (pgdir start stop : Nat)
  | pgdirAllocPage (pgdir la : Nat) (perm : Pte)
  | copyRange (toDir fromDir start stop : Nat)

/-- A call, with the page directory that it sets up. -/
def DirOp.call (al : Allocator) : DirOp → KernM (Option Nat)
  | .setupPgdir => do
      let (ret, mm) ← Mm.setupPgdir al ⟨[], none, 0, 0⟩
      pure (if ret = 0 then some mm.pgdir else none)
  | .allocPage => (fun _ => none) <$> al.allocPage
  | .pageInsert pgdir page la perm =>
      (fun _ => none) <$> Mm.pageInsert al.allocPage pgdir page la perm
  | .pageRemove pgdir la => (fun _ => none) <$> Mm.pageRemove al.allocPage pgdir la
  | .unmapRange pgdir start stop => (fun _ => none) <$> Mm.unmapRange al.allocPage pgdir start stop
  | .pgdirAllocPage pgdir la perm =>
      (fun _ => none) <$> Mm.pgdirAllocPage al.allocPage pgdir la perm
  | .copyRange toDir fromDir start stop =>
      (fun _ => none) <$> Mm.copyRange al.allocPage toDir fromDir start stop

/-- A call that returns. -/
def DirOp.step (al : Allocator) (st : Dirs) (op : DirOp) : Option Dirs :=
  match op.call al st.kern with
  | .ok (new, t) => some ⟨t, new.toList ++ st.dirs⟩
  | .error _ => none

namespace Dirs

/-- A frame is a page directory or a table below one. -/
def IsTable (st : Dirs) (f : Nat) : Prop :=
  ∃ pgdir ∈ st.dirs, ∃ n : Node, n.page st.kern.mem pgdir = some f

/-- The directories and page numbers of user addresses whose entry maps a frame. -/
def mapped (st : Dirs) (f : Nat) : Set (Nat × Nat) :=
  { p | p.2 < userPages ∧ p.1 ∈ st.dirs ∧ valid (leaf st.kern.mem p.1 p.2) = true ∧
    frame (leaf st.kern.mem p.1 p.2) = f }

/-- The count of a frame that holds no page table is the number of entries, over all the page
directories, that map it, and nothing maps a free frame. -/
structure CountsExact (st : Dirs) : Prop where
  finite : ∀ f, (st.mapped f).Finite
  ref : ∀ f, ¬ st.IsTable f → st.kern.ref f = (st.mapped f).ncard
  free : ∀ f ∈ st.kern.free, st.mapped f = ∅

/-- No page directories yet: the frames of the manager exist, and no frame has
references. -/
structure Initial (st : Dirs) : Prop where
  empty : st.dirs = []
  frames : ∀ f ∈ st.kern.free, f < npage
  refs : ∀ f, st.kern.ref f = 0

end Dirs

/-- What callers promise: the directories have been set up, addresses are user
addresses, and a page that is mapped by hand is one of the frames `pages` of the
manager, has been allocated and is no table. -/
def DirOp.Permitted (pages : Finset Nat) (st : Dirs) : DirOp → Prop
  | .setupPgdir => True
  | .allocPage => True
  | .pageInsert pgdir page la perm => pgdir ∈ st.dirs ∧ ppn la < userPages ∧ IsPerm perm ∧
      page ∈ pages ∧ page ∉ st.kern.free ∧ ¬ st.IsTable page
  | .pageRemove pgdir la => pgdir ∈ st.dirs ∧ ppn la < userPages
  | .unmapRange pgdir _ _ => pgdir ∈ st.dirs
  | .pgdirAllocPage pgdir la perm => pgdir ∈ st.dirs ∧ ppn la < userPages ∧ IsPerm perm
  | .copyRange toDir fromDir _ _ => toDir ∈ st.dirs ∧ fromDir ∈ st.dirs

/-- What a permitted call may stop for: no page for a copy, or a bad range. -/
def DirOp.MayStop (e : Panic) : Prop := e = .nullPage ∨ e = .unaligned ∨ e = .userAccess

/-- In one call, pages go back to the manager when the last entry that maps them
goes, and only then. While a range is copied such a page can be
handed out again, as a page table, before the call returns. -/
def DirOp.GivesBack (op : DirOp) (st st' : Dirs) : Prop :=
  ∀ f, f ∉ st.kern.free →
    (f ∈ st'.kern.free → (st.mapped f).Nonempty ∧ st'.mapped f = ∅) ∧
    ((st.mapped f).Nonempty → st'.mapped f = ∅ → f ∈ st'.kern.free ∨
      (∃ toDir fromDir start stop, op = .copyRange toDir fromDir start stop) ∧ st'.IsTable f)

/-! ## One call -/

/-- What a call does to the frames, whether or not it adds a page directory. -/
structure Accounted (role role' : Nat → Role) (s t : Kern) : Prop where
  table : ∀ f, (role f).isTable = true → role' f = role f
  other : ∀ f, role' f = .other → role f = .other
  rest : ∀ f, role f = .other → role' f = .other ∧ t.ref f = s.ref f
  zero : (∀ f, role f = .data → excess role s f = 0) → ∀ f, role' f = .data → excess role' t f = 0
  live : ∀ f, role f = .data → role' f = .data → 0 < s.ref f → 0 < t.ref f
  held : ∀ f, role f = .data → s.ref f = 0 → role' f = .data

theorem Turnover.accounted (h : Turnover role role' s t) : Accounted role role' s t :=
  ⟨h.evolves.table, h.evolves.other, h.evolves.rest, h.zero, h.live,
    fun f hf href => (h.idle f hf href).1⟩

/-- No page is new, and pages without references stay. -/
theorem Settled.accounted (h : Settled role role' s t)
    (hheld : ∀ f, role f = .data → s.ref f = 0 → role' f = .data) : Accounted role role' s t := by
  refine ⟨h.table, h.other, h.rest, fun hzero f hf => ?_, fun f _ hf' hlive => h.live f hf' hlive,
    hheld⟩
  obtain ⟨hdata, _, hexcess⟩ := h.data f hf
  exact hexcess.trans (hzero f hdata)

/-- No page is lost. -/
theorem Kept.accounted (h : Kept role role' s t) : Accounted role role' s t := by
  refine ⟨h.table, h.other, h.rest, fun hzero f hf => ?_, fun f hf _ hlive => h.live f hf hlive,
    fun f hf _ => (h.data f hf).1⟩
  rcases h.fresh f hf with hdata | hnew
  · rw [(h.data f hdata).2.2]
    exact hzero f hdata
  · exact hnew

/-- A new page directory. -/
theorem DirAdded.accounted {n : Nat} (h : DirAdded role s t n) (hpaged : Paged role s) :
    Accounted role (Function.update role n .dir) s t := by
  have hne : ∀ f, role f ≠ .free → Function.update role n .dir f = role f := by
    intro f hf
    apply Function.update_of_ne
    rintro rfl
    exact hf h.fresh
  refine ⟨fun f hf => hne f fun hfree => ?_, fun f hf => ?_, fun f hf => ⟨?_, ?_⟩,
    fun hzero f hf => ?_, fun f _ _ hlive => ?_, fun f hf _ => ?_⟩
  · rw [hfree] at hf
    cases hf
  · by_cases hfn : f = n
    · rw [hfn, Function.update_self] at hf
      cases hf
    · rwa [Function.update_of_ne hfn] at hf
  · rw [hne f (by simp [hf]), hf]
  · rw [h.ref]
  · rw [h.excess hpaged]
    exact hzero f ((h.data f).mp hf)
  · rw [h.ref]
    exact hlive
  · exact (h.data f).mpr hf

/-- The counts of all pages that callers hold are exact, and `role` tells the
page directories from other frames. -/
structure Dirs.Inv (pages : Finset Nat) (role : Nat → Role) (st : Dirs) : Prop where
  paged : Paged role st.kern
  zero : ∀ f, role f = .data → excess role st.kern f = 0
  dirs : ∀ f, role f = .dir ↔ f ∈ st.dirs
  managed : ∀ f ∈ pages, role f ≠ .other
  unref : ∀ f, role f = .other → st.kern.ref f = 0

namespace Dirs.Inv

variable {pages : Finset Nat} {st st' : Dirs} {op : DirOp}

theorem counted (hinv : st.Inv pages role) : Counted role st.kern :=
  fun f hf => (hinv.zero f hf).ge

theorem mapped_eq (hinv : st.Inv pages role) (f : Nat) :
    st.mapped f = ↑(mappings role st.kern.mem f) := by
  ext p
  rw [Finset.mem_coe, mem_mappings, hinv.dirs]
  constructor
  · rintro ⟨hv, hdir, hmaps⟩
    exact ⟨hinv.paged.bound p.1 (by simp [(hinv.dirs p.1).mpr hdir]), hv, hdir, hmaps⟩
  · rintro ⟨_, hv, hdir, hmaps⟩
    exact ⟨hv, hdir, hmaps⟩

theorem isTable_iff (hinv : st.Inv pages role) (f : Nat) :
    st.IsTable f ↔ (role f).isTable = true := by
  constructor
  · rintro ⟨pgdir, hpgdir, n, hn⟩
    rw [hinv.paged.tree.node ((hinv.dirs pgdir).mpr hpgdir) hn]
    exact n.isTable_role _
  · intro htable
    obtain ⟨pgdir, hdir, hplace⟩ := hinv.paged.linked.place htable
    exact ⟨pgdir, (hinv.dirs pgdir).mp hdir, hplace⟩

/-- Only pages of data are mapped. -/
theorem mapped_empty (hinv : st.Inv pages role) {f : Nat} (hf : role f ≠ .data) :
    st.mapped f = ∅ := by
  rw [hinv.mapped_eq, hinv.paged.unmapped hf, Finset.coe_empty]

/-- A page of data is mapped if it has references. -/
theorem mapped_iff (hinv : st.Inv pages role) {f : Nat} (hf : role f = .data) :
    (st.mapped f).Nonempty ↔ 0 < st.kern.ref f := by
  have hzero := hinv.zero f hf
  rw [hinv.mapped_eq, Finset.coe_nonempty, ← Finset.card_pos]
  unfold excess at hzero
  omega

theorem countsExact (hinv : st.Inv pages role) : st.CountsExact := by
  refine ⟨fun f => ?_, fun f hf => ?_, fun f hf => hinv.mapped_empty ?_⟩
  · rw [hinv.mapped_eq]
    exact Finset.finite_toSet _
  · cases hrole : role f with
    | data =>
        have hzero := hinv.zero f hrole
        rw [hinv.mapped_eq, Set.ncard_coe_finset]
        unfold excess at hzero
        omega
    | free =>
        rw [hinv.paged.unref f ((hinv.paged.free f).mp hrole), hinv.mapped_empty (by simp [hrole]),
          Set.ncard_empty]
        rfl
    | other =>
        rw [hinv.unref f hrole, hinv.mapped_empty (by simp [hrole]), Set.ncard_empty]
        rfl
    | _ => exact absurd ((hinv.isTable_iff f).mpr (by rw [hrole]; rfl)) hf
  · rw [(hinv.paged.free f).mpr hf]
    exact Role.noConfusion

/-- The invariant after a call. -/
theorem next (hinv : st.Inv pages role) (hpaged : Paged role' t)
    (hstep : Accounted role role' st.kern t) {dirs : List Nat}
    (hdirs : ∀ f, role' f = .dir ↔ f ∈ dirs) : Dirs.Inv pages role' ⟨t, dirs⟩ := by
  refine ⟨hpaged, hstep.zero hinv.zero, hdirs,
    fun f hf hother => hinv.managed f hf (hstep.other f hother), fun f hf => ?_⟩
  have hother := hstep.other f hf
  exact (hstep.rest f hother).2.trans (hinv.unref f hother)

/-- The pages that go back in a call. -/
theorem givesBack (hinv : st.Inv pages role) (hinv' : st'.Inv pages role')
    (hstep : Accounted role role' st.kern st'.kern)
    (hnew : (∃ toDir fromDir start stop, op = .copyRange toDir fromDir start stop) ∨
      TablesFresh role role') : op.GivesBack st st' := by
  intro f hfree
  have hused : role f ≠ .free := fun hf => hfree ((hinv.paged.free f).mp hf)
  constructor
  · intro hfree'
    have hrole' := (hinv'.paged.free f).mpr hfree'
    refine ⟨?_, hinv'.mapped_empty (by simp [hrole'])⟩
    cases hrole : role f with
    | data =>
        have hzero := hinv.zero f hrole
        have href : st.kern.ref f ≠ 0 := by
          intro href
          rw [hstep.held f hrole href] at hrole'
          cases hrole'
        rw [hinv.mapped_iff hrole]
        unfold excess at hzero
        omega
    | free => exact absurd hrole hused
    | other =>
        rw [(hstep.rest f hrole).1] at hrole'
        cases hrole'
    | _ =>
        rw [hstep.table f (by rw [hrole]; rfl), hrole] at hrole'
        cases hrole'
  · intro hmapped hempty
    have hrole : role f = .data := by
      by_contra hne
      rw [hinv.mapped_empty hne] at hmapped
      exact Set.not_nonempty_empty hmapped
    have htable : (role' f).isTable = true →
        (∃ toDir fromDir start stop, op = .copyRange toDir fromDir start stop) ∧ st'.IsTable f := by
      intro htable
      refine ⟨hnew.resolve_right fun hfresh => ?_, (hinv'.isTable_iff f).mpr htable⟩
      rcases hfresh f htable with hsame | hfree
      · rw [hsame, hrole] at htable
        cases htable
      · exact hused hfree
    cases hrole' : role' f with
    | free => exact Or.inl ((hinv'.paged.free f).mp hrole')
    | data =>
        have hlive := hstep.live f hrole hrole' ((hinv.mapped_iff hrole).mp hmapped)
        rw [← hinv'.mapped_iff hrole', hempty] at hlive
        exact absurd hlive Set.not_nonempty_empty
    | other =>
        rw [hstep.other f hrole'] at hrole
        cases hrole
    | _ => exact Or.inr (htable (by rw [hrole']; rfl))

/-- A call that leaves the page directories alone. -/
theorem done (hinv : st.Inv pages role) (hpaged : Paged role' t)
    (hstep : Accounted role role' st.kern t) (hdirs : ∀ f, role' f = .dir ↔ role f = .dir)
    (hnew : (∃ toDir fromDir start stop, op = .copyRange toDir fromDir start stop) ∨
      TablesFresh role role') :
    ∃ role', Dirs.Inv pages role' ⟨t, st.dirs⟩ ∧ op.GivesBack st ⟨t, st.dirs⟩ := by
  have hinv' := hinv.next hpaged hstep fun f => (hdirs f).trans (hinv.dirs f)
  exact ⟨role', hinv', hinv.givesBack hinv' hstep hnew⟩

/-- Every permitted call keeps the invariant, and gives back the pages that lose
their last mapping. -/
theorem call (hinv : st.Inv pages role) (al : Allocator) (hok : op.Permitted pages st) :
    Ends DirOp.MayStop (op.call al) st.kern fun new t => ∃ role',
      Dirs.Inv pages role' ⟨t, new.toList ++ st.dirs⟩ ∧
        op.GivesBack st ⟨t, new.toList ++ st.dirs⟩ := by
  have hdir : ∀ {pgdir}, pgdir ∈ st.dirs → role pgdir = .dir := (hinv.dirs _).mpr
  cases op with
  | setupPgdir =>
      unfold DirOp.call
      rw [ends_bind]
      apply (setupPgdir_spec hinv.paged).imp
      rintro r t (⟨rfl, rfl, _⟩ | ⟨n, rfl, hadded⟩)
      · exact hinv.done hinv.paged.nextTick (Kept.refl role st.kern).nextTick.accounted
          (fun _ => Iff.rfl) (Or.inr fun _ _ => Or.inl rfl)
      · have hstep := hadded.accounted hinv.paged
        have hinv' : Dirs.Inv pages (Function.update role n .dir) ⟨t, n :: st.dirs⟩ := by
          refine hinv.next hadded.paged hstep fun f => ?_
          by_cases hf : f = n
          · subst hf
            simp
          · rw [Function.update_of_ne hf, hinv.dirs]
            simp [hf]
        refine ⟨_, hinv', hinv.givesBack hinv' hstep (Or.inr fun f hf => ?_)⟩
        by_cases hfn : f = n
        · exact Or.inr (hfn ▸ hadded.fresh)
        · exact Or.inl (Function.update_of_ne hfn _ _)
  | allocPage =>
      unfold DirOp.call
      rw [ends_map]
      apply (al.allocPage_spec hinv.paged).imp
      rintro r t ⟨_, hr⟩
      cases r with
      | none => exact hinv.done hr.1 hr.2.accounted hr.2.dir (Or.inr fun _ _ => Or.inl rfl)
      | some n =>
          refine hinv.done hr.2.2.1 hr.2.2.2.accounted hr.2.2.2.dir (Or.inr fun f hf => Or.inl ?_)
          apply Function.update_of_ne
          rintro rfl
          simp [Role.isTable] at hf
  | pageInsert pgdir page la perm =>
      obtain ⟨hpgdir, hla, hperm, hmanaged, hused, htable⟩ := hok
      have hpage : role page = .data := by
        -- only a page of data may be mapped: it is in use and holds no page table
        cases hrole : role page with
        | data => rfl
        | free => exact absurd ((hinv.paged.free page).mp hrole) hused
        | other => exact absurd hrole (hinv.managed page hmanaged)
        | _ => exact absurd ((hinv.isTable_iff page).mpr (by rw [hrole]; rfl)) htable
      unfold DirOp.call
      rw [ends_map]
      apply (pageInsert_spec al hinv.paged hinv.counted (hdir hpgdir) hla hpage hperm).imp
      rintro ret t ⟨role', hpaged', hsettled, hpage', _, hidle, htables⟩
      refine hinv.done hpaged' (hsettled.accounted fun f hf href =>
        ?_) hsettled.dir (Or.inr htables)
      by_cases hfp : f = page
      · exact hfp ▸ hpage'
      · exact (hidle f hfp hf href).1
  | pageRemove pgdir la =>
      unfold DirOp.call
      rw [ends_map]
      apply (pageRemove_spec hinv.paged hinv.counted (hdir hok.1) hok.2).imp
      rintro _ t ⟨role', hpaged', hsettled, _, hidle, htables⟩
      exact hinv.done hpaged' (hsettled.turnover hidle).accounted hsettled.dir (Or.inr htables)
  | unmapRange pgdir start stop =>
      unfold DirOp.call
      rw [ends_map]
      apply (unmapRange_spec hinv.paged hinv.counted (hdir hok) (Or.inl (Or.inr (Or.inl rfl)))
        (Or.inl (Or.inr (Or.inr rfl)))).imp
      rintro _ t ⟨role', hpaged', hsettled, htables, hidle, _⟩
      exact hinv.done hpaged' (hsettled.turnover hidle).accounted hsettled.dir
        (Or.inr fun f hf => Or.inl (htables f hf))
  | pgdirAllocPage pgdir la perm =>
      obtain ⟨hpgdir, hla, hperm⟩ := hok
      unfold DirOp.call
      rw [ends_map]
      apply (pgdirAllocPage_spec hinv.paged hinv.counted (hdir hpgdir) hla hperm).imp
      rintro _ t ⟨role', hpaged', hturnover, htables, _⟩
      exact hinv.done hpaged' hturnover.accounted hturnover.evolves.dir (Or.inr htables)
  | copyRange toDir fromDir start stop =>
      unfold DirOp.call
      rw [ends_map]
      apply (copyRange_turnover (Or.inl rfl) (Or.inr (Or.inl rfl)) (Or.inr (Or.inr rfl)) hinv.paged
        hinv.counted (hdir hok.1) (hdir hok.2)).imp
      rintro _ t ⟨role', hpaged', hturnover⟩
      exact hinv.done hpaged' hturnover.accounted hturnover.evolves.dir (Or.inl ⟨_, _, _, _, rfl⟩)

theorem step (hinv : st.Inv pages role) (hok : op.Permitted pages st)
    (hstep : op.step al st = some st') : ∃ role', st'.Inv pages role' ∧ op.GivesBack st st' := by
  have hends := hinv.call al hok
  unfold Ends at hends
  unfold DirOp.step at hstep
  cases hcall : op.call al st.kern with
  | error e =>
      rw [hcall] at hstep
      cases hstep
  | ok r =>
      rw [hcall] at hends hstep
      obtain rfl := Option.some.inj hstep
      exact hends

end Dirs.Inv

theorem Dirs.Initial.inv {st : Dirs} (hinit : st.Initial) :
    st.Inv st.kern.free (bootRole st.kern) := by
  have hprocs : Procs.Initial ⟨st.kern, fun _ => none⟩ := ⟨fun _ => rfl, hinit.frames, hinit.refs⟩
  refine ⟨hprocs.inv.paged, fun f hf => absurd hf (bootRole_ne_data _ f), fun f => ?_,
    fun f hf hother => ?_, fun f _ => hinit.refs f⟩
  · rw [hinit.empty]
    apply iff_of_false _ (List.not_mem_nil)
    intro hf
    have hplain := bootRole_plain st.kern f
    rw [hf] at hplain
    cases hplain
  · rw [bootRole_free.mpr hf] at hother
    cases hother

/-- Without copy-on-write, in any run of calls on any number of page directories,
the count of every page that is no table is the number of entries that map it,
no entry maps a free page, and every further call gives back exactly the pages
that lose their last mapping in it. Calls stop only for lack of memory and for
ranges that are not page ranges of user addresses. -/
theorem eagerCount_exact (al : Allocator) {st₀ st : Dirs} (hinit : st₀.Initial)
    (hrun : RunsTo (fun st op => DirOp.step al st op)
      (fun st op => op.Permitted st₀.kern.free st) st₀ st) :
    st.CountsExact ∧ (∀ (op : DirOp) st', op.Permitted st₀.kern.free st →
      DirOp.step al st op = some st' →
      op.GivesBack st st') ∧ ∀ (op : DirOp) e, op.Permitted st₀.kern.free st →
        op.call al st.kern = .error e → DirOp.MayStop e := by
  have hinv : ∃ role, st.Inv st₀.kern.free role := by
    apply @RunsTo.invariant _ _ _ _ _ _ (fun st => ∃ role, Dirs.Inv st₀.kern.free role st) hrun
      ⟨_, hinit.inv⟩
    rintro t op u ⟨role, hinv⟩ hok hstep
    obtain ⟨role', hinv', _⟩ := hinv.step hok hstep
    exact ⟨role', hinv'⟩
  obtain ⟨role, hinv⟩ := hinv
  refine ⟨hinv.countsExact, fun op st' hok hstep => ?_, fun op e hok hcall => ?_⟩
  · obtain ⟨_, _, hback⟩ := hinv.step hok hstep
    exact hback
  · have hends := hinv.call al hok
    rwa [Ends, hcall] at hends

/-- Calls that are permitted as long as a page is mapped by hand only while the
page directories are empty. -/
def DirOp.early (pages : Finset Nat) (st : Dirs) : DirOp → Bool
  | .setupPgdir => true
  | .allocPage => true
  | .pageInsert pgdir page la perm => pgdir ∈ st.dirs ∧ ppn la < userPages ∧ IsPerm perm ∧
      page ∈ pages ∧ page ∉ st.kern.free ∧ page ∉ st.dirs ∧
      ∀ dir ∈ st.dirs, ∀ i : Fin 511, valid (st.kern.mem dir i) = false
  | .pageRemove pgdir la => pgdir ∈ st.dirs ∧ ppn la < userPages
  | .unmapRange pgdir _ _ => pgdir ∈ st.dirs
  | .pgdirAllocPage pgdir la perm => pgdir ∈ st.dirs ∧ ppn la < userPages ∧ IsPerm perm
  | .copyRange toDir fromDir _ _ => toDir ∈ st.dirs ∧ fromDir ∈ st.dirs

theorem DirOp.of_early {pages : Finset Nat} {st : Dirs} {op : DirOp}
    (hearly : op.early pages st = true) : op.Permitted pages st := by
  cases op with
  | setupPgdir | allocPage => trivial
  | pageInsert pgdir page la perm =>
      obtain ⟨hpgdir, hla, hperm, hpage, hused, hdir, hempty⟩ := of_decide_eq_true hearly
      refine ⟨hpgdir, hla, hperm, hpage, hused, ?_⟩
      rintro ⟨dir, hmem, n, hn⟩
      cases n with
      | root => exact hdir (Option.some.inj hn ▸ hmem)
      | mid i | tab i => simp [Node.page, hempty dir hmem i] at hn
  | unmapRange pgdir => exact (of_decide_eq_true hearly : pgdir ∈ st.dirs)
  | pageRemove pgdir la =>
      exact (of_decide_eq_true hearly : pgdir ∈ st.dirs ∧ ppn la < userPages)
  | pgdirAllocPage pgdir la perm =>
      exact (of_decide_eq_true hearly : pgdir ∈ st.dirs ∧ ppn la < userPages ∧ IsPerm perm)
  | copyRange toDir fromDir =>
      exact (of_decide_eq_true hearly : toDir ∈ st.dirs ∧ fromDir ∈ st.dirs)

/-- Two page directories; a page is mapped in the first and copied to the second. -/
def insertAndCopy : List DirOp :=
  [.setupPgdir, .setupPgdir, .allocPage,
    .pageInsert 0x80500 0x80502 0x200000 (PTE_U ||| READ_WRITE),
    .copyRange 0x80501 0x80500 0x200000 0x201000]

/-- The page and its copy have one reference each, and removing the page gives it back. -/
theorem eagerCount_exact_copy : ∃ st st' : Dirs, st.CountsExact ∧
    st.kern.ref 0x80502 = 1 ∧ frame (leaf st.kern.mem 0x80501 0x200) ≠ 0x80502 ∧
    0x80502 ∈ st'.kern.free ∧ st'.mapped 0x80502 = ∅ := by
  have hfold : (insertAndCopy.foldlM (fun st op =>
      if op.early {0x80500, 0x80501, 0x80502, 0x80503, 0x80504, 0x80505, 0x80506, 0x80507} st = true
      then DirOp.step (.ofList [0x80500, 0x80501, 0x80502, 0x80503, 0x80504, 0x80505, 0x80506,
        0x80507]) st op else none)
      ⟨bootKern {0x80500, 0x80501, 0x80502, 0x80503, 0x80504, 0x80505, 0x80506, 0x80507}, []⟩).map
        (fun st => (decide (st.kern.ref 0x80502 = 1) && decide (0x80502 ∉ st.kern.free) &&
          decide (frame (leaf st.kern.mem 0x80501 0x200) ≠ 0x80502) && decide (0x80500 ∈ st.dirs),
          (DirOp.step (.ofList [0x80500, 0x80501, 0x80502, 0x80503, 0x80504, 0x80505, 0x80506,
            0x80507]) st (.pageRemove 0x80500 0x200000)).map fun st' =>
              decide (0x80502 ∈ st'.kern.free))) = some (true, some true) := by
    decide +kernel
  obtain ⟨st, hst, hvalues⟩ := Option.map_eq_some_iff.mp hfold
  obtain ⟨hchecks, hnext⟩ := by simpa only [Prod.mk.injEq] using hvalues
  obtain ⟨st', hstep, hfree'⟩ := Option.map_eq_some_iff.mp hnext
  obtain ⟨⟨⟨href, hused⟩, hframe⟩,
      hdir⟩ := by simpa only [Bool.and_eq_true, decide_eq_true_eq] using hchecks
  have hinit :
      Dirs.Initial ⟨bootKern {0x80500, 0x80501, 0x80502, 0x80503, 0x80504, 0x80505, 0x80506,
      0x80507}, []⟩ := ⟨rfl, by decide, fun _ => rfl⟩
  obtain ⟨hexact, hback, _⟩ := eagerCount_exact (.ofList [0x80500, 0x80501, 0x80502, 0x80503,
    0x80504, 0x80505, 0x80506, 0x80507]) hinit
    ((RunsTo.of_foldlM hst).mono fun st op hearly => DirOp.of_early hearly)
  have hremoved :=
    (hback (.pageRemove 0x80500 0x200000) st' ⟨hdir, by decide⟩ hstep 0x80502 hused).1
    (of_decide_eq_true hfree')
  exact ⟨st, st', hexact, href, hframe, of_decide_eq_true hfree', hremoved.2⟩

end Ucore.Mm
