import Ucore.Mm.Vmm

/-!
# What a page fault changes

A fault maps a new page where none was, or, on a present page, replaces the page
by a copy. The copy is made without giving up the reference to the old page.
-/

namespace Ucore.Mm

open Mmu Machine Finset

variable {E : Panic → Prop} {role role' role'' : Nat → Role} {s t u : Kern}

/-! ## Changes that take down no table -/

/-- Tables and frames of the kernel stay what they are, and counts do not fall
short of the mappings. -/
structure Evolves (role role' : Nat → Role) (s t : Kern) : Prop where
  dir : ∀ f, role' f = .dir ↔ role f = .dir
  table : ∀ f, (role f).isTable = true → role' f = role f
  other : ∀ f, role' f = .other → role f = .other
  rest : ∀ f, role f = .other → role' f = .other ∧ t.ref f = s.ref f
  counted : Counted role s → Counted role' t

/-- The reference counts are exact, and every page of data is in use. `excess` is what the count of
a frame has beyond its mappings. -/
def Exact (role : Nat → Role) (s : Kern) : Prop :=
  ∀ f, role f = .data → excess role s f = 0 ∧ 0 < s.ref f

theorem Evolves.refl (role : Nat → Role) (s : Kern) : Evolves role role s s :=
  ⟨fun _ => Iff.rfl, fun _ _ => rfl, fun _ hf => hf, fun _ hf => ⟨hf, rfl⟩, fun h => h⟩

theorem Evolves.trans (h : Evolves role role' s t) (h' : Evolves role' role'' t u) :
    Evolves role role'' s u := by
  constructor
  · exact fun f => (h'.dir f).trans (h.dir f)
  · exact fun f hf => (h'.table f ((h.table f hf).symm ▸ hf)).trans (h.table f hf)
  · exact fun f hf => h.other f (h'.other f hf)
  · intro f hf
    obtain ⟨hother, href⟩ := h.rest f hf
    obtain ⟨hother', href'⟩ := h'.rest f hother
    exact ⟨hother', href'.trans href⟩
  · exact fun hcounted => h'.counted (h.counted hcounted)

theorem Kept.evolves (h : Kept role role' s t) : Evolves role role' s t :=
  ⟨h.dir, h.table, h.other, h.rest, fun hcounted => h.nonneg hcounted⟩

theorem Kept.nextTick (h : Kept role role' s t) : Kept role role' s t.nextTick :=
  ⟨h.dir, h.table, h.other, h.data, h.fresh, h.live, h.rest, h.swap⟩

theorem Settled.evolves (h : Settled role role' s t) : Evolves role role' s t :=
  ⟨h.dir, h.table, h.other, h.rest, fun hcounted => h.counted hcounted⟩

theorem Settled.exact (h : Settled role role' s t) (hexact : Exact role s) : Exact role' t := by
  intro f hf
  obtain ⟨hdata, _, hexcess⟩ := h.data f hf
  obtain ⟨hzero, hlive⟩ := hexact f hdata
  exact ⟨hexcess.trans hzero, h.live f hf hlive⟩

/-- Pages are given back when they lose their last reference: counts that are
exact stay so, pages in use keep a reference, new ones have one, and pages that
callers hold without references are left alone. -/
structure Turnover (role role' : Nat → Role) (s t : Kern) : Prop where
  evolves : Evolves role role' s t
  zero : (∀ f, role f = .data → excess role s f = 0) → ∀ f, role' f = .data → excess role' t f = 0
  live : ∀ f, role f = .data → role' f = .data → 0 < s.ref f → 0 < t.ref f
  fresh : ∀ f, role f = .free → role' f = .data → 0 < t.ref f
  idle : Idle role role' s t

/-- No page of data comes from a table or from the kernel. -/
theorem Evolves.data (h : Evolves role role' s t) {f : Nat} (hf : role' f = .data) :
    role f = .data ∨ role f = .free := by
  cases hrole : role f with
  | data => exact Or.inl rfl
  | free => exact Or.inr rfl
  | other =>
      rw [(h.rest f hrole).1] at hf
      cases hf
  | _ =>
      rw [h.table f (by rw [hrole]; rfl), hrole] at hf
      cases hf

namespace Turnover

/-- Nothing has changed but the number of requests. -/
theorem same (hevolves : Evolves role role s t) (hleaf : LeafSame role s t) (href : t.ref = s.ref) :
    Turnover role role s t := by
  refine ⟨hevolves, fun h f hf => ?_, fun f _ _ hlive => href ▸ hlive, fun f hf hf' => ?_,
    fun f hf hzero => ⟨hf, href ▸ hzero⟩⟩
  · rw [excess_congr hleaf (fun _ => Iff.rfl) (congrFun href f)]
    exact h f hf
  · rw [hf] at hf'
    cases hf'

theorem trans (h : Turnover role role' s t) (h' : Turnover role' role'' t u) :
    Turnover role role'' s u := by
  have hmid : ∀ f, role'' f = .data → (role f = .data ∨ role f = .free) →
      role' f = .data ∨ role' f = .free := by
    intro f hf hrole
    cases hrole' : role' f with
    | data => exact Or.inl rfl
    | free => exact Or.inr rfl
    | other =>
        rw [h.evolves.other f hrole'] at hrole
        simp at hrole
    | _ =>
        rw [h'.evolves.table f (by rw [hrole']; rfl), hrole'] at hf
        cases hf
  refine ⟨h.evolves.trans h'.evolves, fun hzero => h'.zero (h.zero hzero),
    fun f hf hf'' hlive => ?_, fun f hf hf'' => ?_, h.idle.trans h'.idle⟩
  · rcases hmid f hf'' (Or.inl hf) with hf' | hf'
    · exact h'.live f hf' hf'' (h.live f hf hf' hlive)
    · exact h'.fresh f hf' hf''
  · rcases hmid f hf'' (Or.inr hf) with hf' | hf'
    · exact h'.live f hf' hf'' (h.fresh f hf hf')
    · exact h'.fresh f hf' hf''

theorem exact (h : Turnover role role' s t) (hexact : Exact role s) : Exact role' t := by
  intro f hf
  refine ⟨h.zero (fun g hg => (hexact g hg).1) f hf, ?_⟩
  rcases h.evolves.data hf with hdata | hfree
  · exact h.live f hdata hf (hexact f hdata).2
  · exact h.fresh f hfree hf

end Turnover

theorem Settled.turnover (h : Settled role role' s t) (hidle : Idle role role' s t) :
    Turnover role role' s t := by
  refine ⟨h.evolves, fun hzero f hf => ?_, fun f _ hf' hlive => h.live f hf' hlive,
    fun f hf hf' => ?_, hidle⟩
  · obtain ⟨hdata, _, hexcess⟩ := h.data f hf
    exact hexcess.trans (hzero f hdata)
  · rw [(h.data f hf').1] at hf
    cases hf

/-! ## Mapping a new page -/

section

variable {al : Allocator} {pgdir la : Nat} {perm : Pte}

/-- A page that nothing maps goes back to the manager. -/
theorem freePage_data {n : Nat} (hpaged : Paged role s) (hn : role n = .data)
    (hunmapped : mappings role s.mem n = ∅) :
    Ends E (freePage n) s fun _ t => t = s.giveBack n ∧
      Paged (Function.update role n .free) t := by
  have hnotfree : n ∉ s.free := by
    rw [← hpaged.free, hn]
    exact Role.noConfusion
  refine ends_freePage hnotfree ⟨rfl, hpaged.free_data hn hunmapped rfl rfl (by simp) ?_⟩
  intro f hf
  have hne : f ≠ n := fun heq => hnotfree (heq ▸ hf)
  simp [hne]

theorem dir_free {n : Nat} (hn : role n = .data) (f : Nat) :
    Function.update role n .free f = .dir ↔ role f = .dir := by
  by_cases hf : f = n
  · subst hf
    simp [hn]
  · rw [Function.update_of_ne hf]

theorem dir_data {n : Nat} (hn : role n = .free) (f : Nat) :
    Function.update role n .data f = .dir ↔ role f = .dir := by
  by_cases hf : f = n
  · subst hf
    simp [hn]
  · rw [Function.update_of_ne hf]

/-- Giving back a page of data changes nothing for the others. -/
theorem excess_giveBack {n f : Nat} (hn : role n = .data) (hfn : f ≠ n) :
    excess (Function.update role n .free) (s.giveBack n) f = excess role s f := by
  have hsame : LeafSame role s (s.giveBack n) := fun _ _ _ _ => rfl
  exact excess_congr hsame (dir_free hn) (by simp [hfn])

/-- A page taken from the manager and given back: nothing has changed for others. -/
theorem Evolves.giveBack {n : Nat} (h : Evolves role role' s t) (hn : role n = .free)
    (hn' : role' n = .data) :
    Evolves role (Function.update role' n .free) s (t.giveBack n) := by
  have hne : ∀ f, f ≠ n → Function.update role' n .free f = role' f :=
    fun f hf => Function.update_of_ne hf _ _
  constructor
  · exact fun f => (dir_free hn' f).trans (h.dir f)
  · intro f hf
    have hfn : f ≠ n := by
      rintro rfl
      rw [hn] at hf
      cases hf
    exact (hne f hfn).trans (h.table f hf)
  · intro f hf
    by_cases hfn : f = n
    · subst hfn
      simp at hf
    · exact h.other f ((hne f hfn).symm.trans hf)
  · intro f hf
    have hfn : f ≠ n := by
      rintro rfl
      rw [hn] at hf
      cases hf
    obtain ⟨hother, href⟩ := h.rest f hf
    exact ⟨(hne f hfn).trans hother, by simpa [hfn] using href⟩
  · intro hcounted f hf
    have hfn : f ≠ n := by
      rintro rfl
      simp at hf
    rw [excess_giveBack hn' hfn]
    exact h.counted hcounted f ((hne f hfn).symm.trans hf)

/-- A page of data gets new contents. -/
theorem Paged.fill (hpaged : Paged role s) {n : Nat} (hn : role n = .data) (words : Nat → Pte) :
    Paged role (s.fill n words) ∧ LeafSame role s (s.fill n words) := by
  have hmem : ∀ f, role f ≠ .data → (s.fill n words).mem f = s.mem f := by
    intro f hf
    have hne : f ≠ n := fun heq => hf (heq ▸ hn)
    funext i
    simp [hne]
  refine ⟨⟨?_, ?_, hpaged.free, hpaged.bound, hpaged.unref⟩, ?_⟩
  · intro f i ρ hchild hvalid
    have hf : role f ≠ .data := by
      intro hf
      rw [hf] at hchild
      cases hchild
    rw [hmem f hf] at hvalid ⊢
    exact hpaged.tree f i ρ hchild hvalid
  · intro g hg hdir
    obtain ⟨f, i, hchild, hentry⟩ := hpaged.linked g hg hdir
    have hf : role f ≠ .data := by
      intro hf
      rw [hf] at hchild
      cases hchild
    exact ⟨f, i, hchild, by rwa [hmem f hf]⟩
  · intro pgdir v hdir hv
    apply hpaged.tree.leaf_congr hdir hv
    · exact hmem pgdir (by simp [hdir])
    · exact fun f i hf => hmem f (by simp [hf])
    · exact fun f k hf => hmem f (by simp [hf])

/-- A frame from the manager is filled and used as a page of data. -/
theorem Paged.takeFill (hpaged : Paged role s) {n : Nat} (hn : n ∈ s.free) (words : Nat → Pte) :
    let t := (s.nextTick.take n).fill n words
    Paged (Function.update role n .data) t ∧ Kept role (Function.update role n .data) s t ∧
      LeafSame role s t := by
  intro t
  have hfree := (hpaged.free n).mpr hn
  have hdirs := dir_data hfree
  have hkeep : ∀ f, role f ≠ .free → f ≠ n := fun f hf heq => hf (heq ▸ hfree)
  obtain ⟨hpaged', hleaves⟩ := (hpaged.take hn).fill (Function.update_self n _ _) words
  have hsame : LeafSame role s t :=
    fun pgdir v hdir hv => hleaves pgdir v ((hdirs pgdir).mpr hdir) hv
  refine ⟨hpaged', ⟨hdirs, fun f hf => ?_, fun f hf => ?_, fun f hf => ?_, fun f hf => ?_,
    fun _ _ hlive => hlive, fun f hf => ?_, rfl⟩, hsame⟩
  · apply Function.update_of_ne (hkeep f _)
    intro hno
    rw [hno] at hf
    cases hf
  · by_cases hfn : f = n
    · subst hfn
      simp at hf
    · rwa [Function.update_of_ne hfn] at hf
  · have hfn := hkeep f (by simp [hf])
    refine ⟨(Function.update_of_ne hfn _ _).trans hf, ?_, excess_congr hsame hdirs rfl⟩
    funext i
    simp [t, hfn]
  · by_cases hfn : f = n
    · right
      rw [excess_congr (t := t) hsame hdirs rfl, hfn, excess, hpaged.unref n hn,
        hpaged.unmapped (by simp [hfree])]
      rfl
    · rw [Function.update_of_ne hfn] at hf
      exact Or.inl hf
  · have hfn := hkeep f (by simp [hf])
    exact ⟨(Function.update_of_ne hfn _ _).trans hf, rfl⟩

/-- A frame taken from the manager that could not be mapped. -/
theorem Turnover.giveBack {n : Nat} (hn : role n = .free)
    (hkept : Kept role (Function.update role n .data) s t) (hrefs : t.ref = s.ref)
    (hsettled : Settled (Function.update role n .data) role' t u) (hn' : role' n = .data)
    (hidle : ∀ f, f ≠ n → Function.update role n .data f = .data → t.ref f = 0 →
      role' f = .data ∧ u.ref f = 0) :
    Turnover role (Function.update role' n .free) s (u.giveBack n) := by
  have hold : ∀ f, f ≠ n → Function.update role n .data f = role f :=
    fun f hf => Function.update_of_ne hf _ _
  have hnew : ∀ f, Function.update role' n .free f = .data → f ≠ n ∧ role' f = .data := by
    intro f hf
    have hfn : f ≠ n := by
      rintro rfl
      simp at hf
    exact ⟨hfn, by rwa [Function.update_of_ne hfn] at hf⟩
  refine ⟨(hkept.evolves.trans hsettled.evolves).giveBack hn hn', fun h f hf => ?_,
    fun f hf hf' href => ?_, fun f hf hf' => ?_, fun f hf href => ?_⟩
  · obtain ⟨hfn, hf'⟩ := hnew f hf
    obtain ⟨hdata, _, hexcess⟩ := hsettled.data f hf'
    have hrole := (hold f hfn).symm.trans hdata
    rw [excess_giveBack hn' hfn, hexcess, (hkept.data f hrole).2.2]
    exact h f hrole
  · obtain ⟨hfn, hf'⟩ := hnew f hf'
    simpa [hfn] using hsettled.live f hf' (hkept.live f hf href)
  · obtain ⟨hfn, hf'⟩ := hnew f hf'
    have hdata := (hsettled.data f hf').1
    rw [hold f hfn, hf] at hdata
    cases hdata
  · have hfn : f ≠ n := by
      rintro rfl
      rw [hn] at hf
      cases hf
    obtain ⟨hf', href'⟩ := hidle f hfn ((hold f hfn).trans hf) (hrefs ▸ href)
    exact ⟨(Function.update_of_ne hfn _ _).trans hf', by simpa [hfn] using href'⟩

/-- A frame taken from the manager and mapped. -/
theorem Turnover.insert {n : Nat} (hn : role n = .free)
    (hkept : Kept role (Function.update role n .data) s t)
    (hzero : excess (Function.update role n .data) t n = 0) (hrefs : t.ref = s.ref)
    (hsettled : Settled (Function.update role n .data) role' t u) (hlive : 0 < u.ref n)
    (hidle : ∀ f, f ≠ n → Function.update role n .data f = .data → t.ref f = 0 →
      role' f = .data ∧ u.ref f = 0) : Turnover role role' s u := by
  have hold : ∀ f, f ≠ n → Function.update role n .data f = role f :=
    fun f hf => Function.update_of_ne hf _ _
  have hne : ∀ f, role f = .data → f ≠ n := by
    rintro f hf rfl
    rw [hn] at hf
    cases hf
  refine ⟨hkept.evolves.trans hsettled.evolves, fun h f hf => ?_, fun f hf hf' href => ?_,
    fun f hf hf' => ?_, fun f hf href => ?_⟩
  · obtain ⟨hdata, _, hexcess⟩ := hsettled.data f hf
    rw [hexcess]
    by_cases hfn : f = n
    · exact hfn ▸ hzero
    · have hrole := (hold f hfn).symm.trans hdata
      rw [(hkept.data f hrole).2.2]
      exact h f hrole
  · exact hsettled.live f hf' (hkept.live f hf href)
  · by_cases hfn : f = n
    · exact hfn ▸ hlive
    · have hdata := (hsettled.data f hf').1
      rw [hold f hfn, hf] at hdata
      cases hdata
  · exact hidle f (hne f hf) ((hold f (hne f hf)).trans hf) (hrefs ▸ href)

/-- The count of a frame that has been mapped. -/
theorem ref_pos_set {n v : Nat} (hpaged : Paged role' t) (hdir : role' pgdir = .dir)
    (hv : v < userPages) (hn : role' n = .data) (hperm : IsPerm perm)
    (hleaf : leaf t.mem pgdir v = pteCreate n (PTE_V ||| perm)) (hexcess : 0 ≤ excess role' t n) :
    0 < t.ref n := by
  have hlt : n < npage := hpaged.bound n (by simp [hn])
  apply ref_pos hpaged hdir hv _ _ hexcess
  · rw [hleaf]
    exact valid_pteCreate _ _
  · rw [hleaf]
    exact frame_pteCreate (Nat.lt_trans hlt (by decide)) (IsPerm.or (by decide) hperm)

theorem pgdirAllocPage_spec (hpaged : Paged role s) (hcounted : Counted role s)
    (hdir : role pgdir = .dir) (hla : ppn la < userPages) (hperm : IsPerm perm) :
    Ends E (pgdirAllocPage al.allocPage pgdir la perm) s fun r t => ∃ role', Paged role' t ∧
      Turnover role role' s t ∧ TablesFresh role role' ∧ match r with
        | none => LeafSame role s t
        | some n => LeafSet role s t pgdir (ppn la) (pteCreate n (PTE_V ||| perm)) := by
  unfold pgdirAllocPage
  rw [ends_bind]
  apply al.ends_allocPage
  · exact ⟨role, hpaged.nextTick,
      .same (Kept.refl role s).nextTick.evolves (fun _ _ _ _ => rfl) rfl,
      fun _ _ => Or.inl rfl, fun _ _ _ _ => rfl⟩
  · intro n hn
    have hfree : role n = .free := (hpaged.free n).mpr hn
    obtain ⟨hpaged', hkept, hsame⟩ := hpaged.takeFill hn (s.mem n)
    have hfill : (s.nextTick.take n).fill n (s.mem n) = s.nextTick.take n := by
      unfold Kern.fill Memory.fill
      rw [Kern.take_mem, Kern.nextTick_mem, Function.update_eq_self]
      rfl
    rw [hfill] at hpaged' hkept hsame
    have hzero : excess (Function.update role n .data) (s.nextTick.take n) n = 0 := by
      rcases hkept.fresh n (by simp) with hdata | hzero
      · rw [hfree] at hdata
        cases hdata
      · exact hzero
    rw [ends_bind]
    apply (pageInsert_spec al hpaged' (hkept.nonneg hcounted) ((hkept.dir pgdir).mpr hdir) hla
      (by simp) hperm).imp
    rintro ret u ⟨role', hpaged'', hsettled, hn', hret, hidle, htables⟩
    have htables' : TablesFresh role role' := by
      intro f hf
      by_cases hfn : f = n
      · subst hfn
        exact Or.inr hfree
      · have hold := htables f hf
        rwa [Function.update_of_ne hfn] at hold
    have hexcess : excess role' u n = 0 := ((hsettled.data n hn').2.2).trans hzero
    rcases hret with ⟨rfl, hsame'⟩ | ⟨rfl, hset⟩
    · have hleaves := LeafSame.trans hsame hkept.dir hsame'
      have hunmapped : mappings role' u.mem n = ∅ := by
        rw [mappings_congr hleaves (fun f => (hsettled.dir f).trans (hkept.dir f)),
          hpaged.unmapped (by simp [hfree])]
      rw [if_pos (by decide), ends_bind]
      apply (freePage_data hpaged'' hn' hunmapped).imp
      rintro _ w ⟨rfl, hfreed⟩
      refine ⟨_, hfreed, .giveBack hfree hkept rfl hsettled hn' hidle, htables'.trans fun f hf =>
        ?_, hleaves⟩
      apply Function.update_of_ne
      rintro rfl
      simp [Role.isTable] at hf
    · rw [if_neg (by simp)]
      have hset' := LeafSame.set hsame hkept.dir hset
      have hdir' : role' pgdir = .dir := (hsettled.dir pgdir).mpr ((hkept.dir pgdir).mpr hdir)
      have hleaf := hset' pgdir (ppn la) hdir hla
      rw [if_pos ⟨rfl, rfl⟩] at hleaf
      exact ⟨role', hpaged'', .insert hfree hkept hzero rfl hsettled
        (ref_pos_set hpaged'' hdir' hla hn' hperm hleaf hexcess.ge) hidle, htables', hset'⟩

end

/-! ## Replacing a page by a copy -/

theorem ends_copyPage {src dst : Nat} {Q : PUnit → Kern → Prop} (hsrc : src < npage)
    (hdst : dst < npage) (hQ : Q ⟨⟩ (s.fill dst (s.mem src))) : Ends E (copyPage src dst) s Q := by
  unfold copyPage
  rw [ends_bind]
  apply ends_kaddr hdst
  rw [ends_bind, ends_get, ends_bind]
  apply ends_kaddr hsrc
  exact hQ

/-- `page_insert` where the tables exist. -/
theorem pageInsert_walk {alloc : KernM (Option Nat)} {pgdir la page : Nat} {perm : Pte} {p : Ptr}
    {Q : Int → Kern → Prop} (hpaged : Paged role s) (hdir : role pgdir = .dir)
    (hla : ppn la < userPages) (hwalk : walk s.mem pgdir (ppn la) = some p)
    (hQ : Ends E (mapPage p page perm) s Q) : Ends E (pageInsert alloc pgdir page la perm) s Q := by
  unfold pageInsert
  rw [ends_bind]
  apply (getPte_walk hpaged hdir hla hwalk).imp
  rintro r t ⟨rfl, rfl⟩
  exact hQ

theorem ppn_rounddown (addr : Nat) : ppn (rounddown addr PGSIZE) = ppn addr := by
  rw [ppn_eq, ppn_eq]
  unfold rounddown PGSIZE
  omega

/-- What becomes of the memory when the page that `pgdir` maps at `v` is
replaced by a copy: the frame `n` is used for it. -/
structure Copied (role : Nat → Role) (s t : Kern) (pgdir v n : Nat) : Prop where
  fresh : role n = .free
  paged : Paged (Function.update role n .data) t
  leaf : LeafSet role s t pgdir v
    (pteCreate n (PTE_V ||| (Mm.leaf s.mem pgdir v &&& PTE_USER ||| PTE_W)))
  ref : t.ref = Function.update s.ref n 1
  copy : t.mem n = s.mem (frame (Mm.leaf s.mem pgdir v))
  data : ∀ f, role f = .data → t.mem f = s.mem f
  swap : t.swap = s.swap

theorem isPerm_user (e : Pte) : IsPerm (e &&& PTE_USER ||| PTE_W) :=
  IsPerm.or (IsPerm.and (by decide) e) (by decide)

theorem cowPgfault_spec {al : Allocator} {mm : MmStruct} {errorCode addr : Nat}
    (hnull : E .nullPage ∨ ∀ tick, al.choose tick s.free ≠ none) (hpaged : Paged role s)
    (hdir : role mm.pgdir = .dir) (haddr : ppn addr < userPages)
    (hvalid : valid (leaf s.mem mm.pgdir (ppn addr)) = true) :
    Ends E (cowPgfault al mm errorCode addr) s fun ret t =>
      ret = 0 ∧ ∃ n, Copied role s t mm.pgdir (ppn addr) n := by
  obtain ⟨p, hwalk⟩ := Tree.leaf_valid hvalid
  have hleaf := leaf_of_walk hwalk
  have hdata := hpaged.tree.data hdir haddr hvalid
  have hlt : frame (leaf s.mem mm.pgdir (ppn addr)) < npage := hpaged.bound _ (by simp [hdata])
  have htab := (hpaged.tree.tab hdir haddr hwalk).1
  unfold cowPgfault
  rw [ends_bind]
  apply (getPte_walk hpaged hdir haddr hwalk).imp
  rintro r s ⟨rfl, rfl⟩
  simp only [ends_bind, ends_load, ← hleaf]
  apply ends_pte2page hvalid hlt
  apply al.ends_allocPage_choose
  · intro hnone
    exact hnull.resolve_right fun hsome => hsome _ hnone
  · intro n hn
    have hfree := (hpaged.free n).mpr hn
    have hsmall : n < npage := hpaged.bound n (by simp [hfree])
    have hne : ∀ f, role f ≠ .free → f ≠ n := fun f hf heq => hf (heq ▸ hfree)
    have hdirs := dir_data hfree
    have hkeep : ∀ f, role f ≠ .free → Function.update role n .data f = role f :=
      fun f hf => Function.update_of_ne (hne f hf) _ _
    have hdir' : Function.update role n .data mm.pgdir = .dir := (hdirs _).mpr hdir
    have hnew : Function.update role n .data n = .data := Function.update_self n _ _
    have htab' : Function.update role n .data p.page = .tab mm.pgdir (ppn addr / 512) := by
      rw [hkeep _ (by simp [htab]), htab]
    obtain ⟨words, hwords⟩ : ∃ words, words = s.mem (frame (leaf s.mem mm.pgdir (ppn addr))) :=
      ⟨_, rfl⟩
    obtain ⟨hfilled, hleaves⟩ := (hpaged.take hn).fill hnew words
    simp only [ends_bind]
    apply ends_copyPage hlt hsmall
    simp only [Kern.take_mem, Kern.nextTick_mem, ← hwords, ends_store]
    -- the entry is cleared; the reference of the old page stays
    obtain ⟨s₃, hs₃⟩ : ∃ s₃, s₃ = ((s.nextTick.take n).fill n words).write p 0#64 := ⟨_, rfl⟩
    rw [← hs₃]
    have hmem₃ : s₃.mem = (s.mem.fill n words).write p 0#64 := by rw [hs₃]; rfl
    have href₃ : s₃.ref = s.ref := by rw [hs₃]; rfl
    have hswap₃ : s₃.swap = s.swap := by rw [hs₃]; rfl
    have hcleared : Paged (Function.update role n .data) s₃ := by
      rw [hs₃]
      exact hfilled.write htab' (by simp) rfl rfl fun _ _ => rfl
    have hwalk' : walk (s.mem.fill n words) mm.pgdir (ppn addr) = some p := by
      rw [← hwalk]
      apply hpaged.tree.walk_congr hdir haddr
      · exact Function.update_of_ne (hne _ (by simp [hdir])) _ _
      · exact fun f i hf => Function.update_of_ne (hne _ (by simp [hf])) _ _
    have hwalk₃ : walk s₃.mem mm.pgdir (ppn addr) = some p := by
      rw [hmem₃, ← hwalk']
      exact hfilled.tree.walk_write_tab hdir' haddr htab' 0#64
    have hset₃ : LeafSet role s s₃ mm.pgdir (ppn addr) 0#64 := by
      apply LeafSame.set (t := (s.nextTick.take n).fill n words) ?_ hdirs ?_
      · exact fun pgdir v hrole hv => hleaves pgdir v ((hdirs pgdir).mpr hrole) hv
      · exact LeafSet.write hfilled hdir' haddr hwalk' (by rw [hs₃]; rfl)
    have hzero : valid (s₃.mem p.page p.index) = false := by simp [hmem₃]
    have hround := ppn_rounddown addr
    have hperm := isPerm_user (leaf s.mem mm.pgdir (ppn addr))
    apply pageInsert_walk hcleared hdir' (by rwa [hround]) (by rwa [hround])
    apply (mapPage_fresh hzero).imp
    rintro ret t ⟨rfl, ht⟩
    have hleaf₃ : valid (leaf s₃.mem mm.pgdir (ppn addr)) = false := by
      rw [leaf_of_walk hwalk₃, hzero]
    obtain ⟨hmapped, hset, hkept⟩ := hcleared.map hdir' haddr hwalk₃ hnew hperm hleaf₃
    rw [← ht] at hmapped hset hkept
    apply (getPte_false hmapped hdir' haddr).imp
    rintro _ t ⟨_, rfl⟩
    -- the page is at `n` now, with the contents it had
    refine ⟨rfl, n, hfree, hmapped, LeafSet.set hset₃ hdirs hset, ?_, ?_, ?_, ?_⟩
    · rw [ht]
      simp [href₃, hpaged.unref n hn]
    · have hnp : n ≠ p.page := (hne _ (by simp [htab])).symm
      rw [← hwords, (hkept.data n hnew).2.1]
      funext i
      simp [hmem₃, hnp]
    · intro f hf
      have hfn := hne f (by simp [hf])
      have hfp : f ≠ p.page := by
        rintro rfl
        rw [htab] at hf
        cases hf
      rw [(hkept.data f ((hkeep f (by simp [hf])).trans hf)).2.1]
      funext i
      simp [hmem₃, hfp, hfn]
    · rw [hkept.swap, hswap₃]

namespace Copied

variable {pgdir v n f : Nat}

theorem excess (h : Copied role s t pgdir v n) (hpaged : Paged role s) (hdir : role pgdir = .dir)
    (hv : v < userPages) (hvalid : valid (Mm.leaf s.mem pgdir v) = true) (f : Nat) :
    Mm.excess (Function.update role n .data) t f =
      Mm.excess role s f + if frame (Mm.leaf s.mem pgdir v) = f then 1 else 0 := by
  have hlt : n < npage := hpaged.bound n (by simp [h.fresh])
  have hold : maps (Mm.leaf s.mem pgdir v) f = true ↔ frame (Mm.leaf s.mem pgdir v) = f := by
    rw [maps_iff, hvalid]
    simp
  have hnew : maps (pteCreate n (PTE_V ||| (Mm.leaf s.mem pgdir v &&& PTE_USER ||| PTE_W))) f =
      true ↔
      n = f := by
    rw [maps_iff, frame_pteCreate (Nat.lt_trans hlt (by decide))
      (IsPerm.or (by decide) (isPerm_user _))]
    simp
  rw [excess_set hpaged hdir hv h.leaf (dir_data h.fresh), h.ref, Function.update_apply]
  simp only [hold, hnew]
  by_cases hf : f = n
  · subst hf
    have hunref := hpaged.unref f ((hpaged.free f).mp h.fresh)
    simp only [hunref, if_true]
    omega
  · rw [if_neg hf, if_neg (Ne.symm hf)]
    omega

theorem evolves (h : Copied role s t pgdir v n) (hpaged : Paged role s) (hdir : role pgdir = .dir)
    (hv : v < userPages) (hvalid : valid (Mm.leaf s.mem pgdir v) = true) :
    Evolves role (Function.update role n .data) s t := by
  have hkeep : ∀ f, role f ≠ .free → f ≠ n := fun f hf heq => hf (heq ▸ h.fresh)
  constructor
  · exact dir_data h.fresh
  · intro f hf
    apply Function.update_of_ne (hkeep f _)
    intro hfree
    rw [hfree] at hf
    cases hf
  · intro f hf
    by_cases hfn : f = n
    · subst hfn
      simp at hf
    · rwa [Function.update_of_ne hfn] at hf
  · intro f hf
    have hfn := hkeep f (by simp [hf])
    rw [Function.update_of_ne hfn, h.ref, Function.update_of_ne hfn]
    exact ⟨hf, rfl⟩
  · intro hcounted f hf
    rw [h.excess hpaged hdir hv hvalid]
    have hle : 0 ≤ Mm.excess role s f := by
      by_cases hfn : f = n
      · have hunref := hpaged.unref f (hfn ▸ (hpaged.free n).mp h.fresh)
        have hunmapped := hpaged.unmapped (n := f) (by simp [hfn, h.fresh])
        simp [Mm.excess, hunref, hunmapped]
      · rw [Function.update_of_ne hfn] at hf
        exact hcounted f hf
    split <;> omega

end Copied

/-! ## `do_pgfault` -/

/-- The test for a page that is valid and not writable holds for every valid page. -/
theorem cowTest_iff (e : Pte) :
    e &&& PTE_V &&& ~~~(e &&& PTE_W) ≠ 0#64 ↔ valid e = true := by
  have hmask : e &&& PTE_V &&& ~~~(e &&& PTE_W) = e &&& PTE_V := by
    apply BitVec.eq_of_getLsbD_eq
    intro i hi
    by_cases h0 : i = 0
    · subst h0
      simp [PTE_V, PTE_W]
    · simp [PTE_V, h0]
  rw [hmask, valid]
  simp

/-- The permissions of a page that is mapped on demand. -/
def faultPerm (vma : VmaStruct) : Pte := if vma.writable then PTE_U ||| READ_WRITE else PTE_U

theorem isPerm_fault (vma : VmaStruct) : IsPerm (faultPerm vma) := by
  unfold faultPerm
  split <;> decide

@[simp] theorem writable_fault (n : Nat) (vma : VmaStruct) :
    writable (pteCreate n (PTE_V ||| faultPerm vma)) = vma.writable := by
  rw [writable_pteCreate, faultPerm]
  cases vma.writable <;> decide

/-- What a fault that finds an area does to the memory. -/
inductive Faulted (role : Nat → Role) (s t : Kern) (pgdir v : Nat) (vma : VmaStruct) : Prop
  | copied {n : Nat} (hvalid : valid (leaf s.mem pgdir v) = true)
      (hcopied : Copied role s t pgdir v n)
  | mapped {role' : Nat → Role} {e : Pte} (hzero : leaf s.mem pgdir v = 0#64)
      (hpaged : Paged role' t) (hevolves : Evolves role role' s t)
      (hexact : Exact role s → Exact role' t) (hset : LeafSet role s t pgdir v e)
      (hentry : e = 0#64 ∨ ∃ n, e = pteCreate n (PTE_V ||| faultPerm vma))

theorem LeafSame.set_self (h : LeafSame role s t) (pgdir v : Nat) :
    LeafSet role s t pgdir v (leaf s.mem pgdir v) := by
  intro pgdir' v' hdir hv
  rw [h pgdir' v' hdir hv]
  split
  next heq => rw [heq.1, heq.2]
  next => rfl

theorem faultPage_spec {al : Allocator} {mm : MmStruct} {errorCode addr : Nat} {vma : VmaStruct}
    (hnull : E .nullPage ∨ ∀ tick, al.choose tick s.free ≠ none) (hpaged : Paged role s)
    (hcounted : Counted role s) (hdir : role mm.pgdir = .dir) (haddr : ppn addr < userPages)
    (hentry : leaf s.mem mm.pgdir (ppn addr) = 0#64 ∨
      valid (leaf s.mem mm.pgdir (ppn addr)) = true) :
    Ends E (faultPage al mm errorCode addr (faultPerm vma)) s fun _ t =>
      Faulted role s t mm.pgdir (ppn addr) vma := by
  unfold faultPage
  rcases hentry with hzero | hvalid
  · rw [ends_bind]
    apply (getPte_true al hpaged hdir haddr).imp
    rintro r t ⟨role', hpaged', hgrown, hfound⟩
    have hevolves := hgrown.kept.evolves
    cases r with
    | none =>
        refine .mapped hzero hpaged' hevolves hgrown.settled.exact ?_ (Or.inl rfl)
        have hset := LeafSame.set_self hgrown.leaf mm.pgdir (ppn addr)
        rwa [hzero] at hset
    | some q =>
        have hwalk := hfound q rfl
        have hdir' := (hevolves.dir _).mpr hdir
        have hzero' : t.mem q.page q.index = 0#64 := by
          rw [← leaf_of_walk hwalk, hgrown.leaf _ _ hdir haddr, hzero]
        rw [ends_bind]
        apply (getPte_walk hpaged' hdir' haddr hwalk).imp
        rintro r t ⟨rfl, rfl⟩
        simp only [ends_bind, ends_load, hzero']
        rw [if_neg (by simp), if_pos trivial, ends_bind]
        apply (pgdirAllocPage_spec hpaged' (hevolves.counted hcounted) hdir' haddr
          (isPerm_fault vma)).imp
        rintro r u ⟨role'', hpaged'', hturnover, _, hleaf⟩
        have hevolves' := hturnover.evolves
        have hexact' := fun h => hturnover.exact (hgrown.settled.exact h)
        cases r with
        | none =>
            refine .mapped hzero hpaged'' (hevolves.trans hevolves') hexact' ?_ (Or.inl rfl)
            have hset := (LeafSame.trans hgrown.leaf hgrown.dir_iff hleaf).set_self
              mm.pgdir (ppn addr)
            rwa [hzero] at hset
        | some n =>
            exact .mapped hzero hpaged'' (hevolves.trans hevolves') hexact'
              (LeafSame.set hgrown.leaf hgrown.dir_iff hleaf) (Or.inr ⟨n, rfl⟩)
  · obtain ⟨p, hwalk⟩ := Tree.leaf_valid hvalid
    rw [ends_bind]
    apply (getPte_walk hpaged hdir haddr hwalk).imp
    rintro r s ⟨rfl, rfl⟩
    simp only
    rw [ends_bind]
    apply (getPte_walk hpaged hdir haddr hwalk).imp
    rintro r s ⟨rfl, rfl⟩
    simp only [ends_bind, ends_load, ← leaf_of_walk hwalk]
    rw [if_pos ((cowTest_iff _).mpr hvalid)]
    apply (cowPgfault_spec hnull hpaged hdir haddr hvalid).imp
    rintro ret t ⟨_, n, hcopied⟩
    exact .copied hvalid hcopied

/-- `do_pgfault`: outside the areas nothing happens; inside an area the page is
mapped, or replaced if there is one. -/
theorem doPgfault_spec {al : Allocator} {mm : MmStruct} {errorCode addr : Nat}
    (hnull : E .nullPage ∨ ∀ tick, al.choose tick s.free ≠ none) (hmm : mm.Ok)
    (hpaged : Paged role s) (hcounted : Counted role s) (hdir : role mm.pgdir = .dir)
    (hentry : ∀ v, v < userPages → leaf s.mem mm.pgdir v = 0#64 ∨
      valid (leaf s.mem mm.pgdir v) = true) :
    Ends E (doPgfault al mm errorCode addr) s fun r t =>
      (r = (-E_INVAL, mm) ∧ t = s ∧ ∀ vma ∈ mm.mmapList, ¬ vma.contains addr) ∨
        ∃ vma ∈ mm.mmapList, vma.contains addr ∧ r.2 = { mm with mmapCache := some vma } ∧
          Faulted role s t mm.pgdir (ppn addr) vma := by
  unfold doPgfault
  rcases findVma_spec hmm addr with ⟨heq, hnone⟩ | ⟨vma, hvma, haddr, heq⟩
  · rw [heq]
    exact Or.inl ⟨rfl, rfl, hnone⟩
  · have huser := (hmm.areas vma hvma).user_page ((hmm.areas vma hvma).covers_ppn haddr)
    rw [heq]
    simp only
    rw [if_neg (Nat.not_lt_of_le haddr.1), ends_map]
    have hround := ppn_rounddown addr
    have hfault := @faultPage_spec E role s al { mm with mmapCache := some vma } errorCode
      (rounddown addr PGSIZE) vma hnull hpaged hcounted hdir (by rwa [hround])
      (by rw [hround]; exact hentry _ huser)
    apply hfault.imp
    intro ret t hfaulted
    rw [hround] at hfaulted
    exact Or.inr ⟨vma, hvma, haddr, rfl, hfaulted⟩

end Ucore.Mm
