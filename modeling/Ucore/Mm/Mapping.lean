import Mathlib.Data.Finset.Card
import Mathlib.Data.Finset.Prod
import Mathlib.Data.Finset.Range
import Ucore.Mm.Walk

/-!
# Mapping and unmapping pages

`mappings` are the page numbers, over all page directories, that map a frame.
`page_insert` and `page_remove_pte` change one entry and keep the reference
count of every frame in step with its mappings.
-/

namespace Ucore.Mm

open Mmu Machine Finset

variable {E : Panic → Prop} {role role' role'' : Nat → Role} {s t u : Kern}

/-! ## Counting mappings -/

/-- The directories and page numbers whose entry maps the frame `f`. -/
def mappings (role : Nat → Role) (m : Memory) (f : Nat) : Finset (Nat × Nat) :=
  (range npage ×ˢ range userPages).filter fun p =>
    role p.1 = .dir ∧ valid (leaf m p.1 p.2) = true ∧ frame (leaf m p.1 p.2) = f

/-- How far the count of a frame exceeds its mappings. -/
def excess (role : Nat → Role) (s : Kern) (f : Nat) : Int :=
  s.ref f - (mappings role s.mem f).card

/-- Whether an entry maps the frame `f`. -/
def maps (e : Pte) (f : Nat) : Bool := valid e && frame e == f

theorem mem_mappings {m : Memory} {f : Nat} {p : Nat × Nat} :
    p ∈ mappings role m f ↔ p.1 < npage ∧ p.2 < userPages ∧ role p.1 = .dir ∧
      valid (leaf m p.1 p.2) = true ∧ frame (leaf m p.1 p.2) = f := by
  simp [mappings, and_assoc]

attribute [irreducible] mappings

/-- The entry for one page number of one directory is now `e`, all others are as before. -/
def LeafSet (role : Nat → Role) (s t : Kern) (pgdir v : Nat) (e : Pte) : Prop :=
  ∀ pgdir' v', role pgdir' = .dir → v' < userPages →
    leaf t.mem pgdir' v' = if pgdir' = pgdir ∧ v' = v then e else leaf s.mem pgdir' v'

/-- No entry has changed. -/
def LeafSame (role : Nat → Role) (s t : Kern) : Prop :=
  ∀ pgdir v, role pgdir = .dir → v < userPages → leaf t.mem pgdir v = leaf s.mem pgdir v

theorem mappings_congr (hsame : LeafSame role s t) (hdir : ∀ f, role' f = .dir ↔ role f = .dir)
    (f : Nat) : mappings role' t.mem f = mappings role s.mem f := by
  ext p
  rw [mem_mappings, mem_mappings, hdir]
  constructor
  · rintro ⟨hp, hv, hrole, hmaps⟩
    exact ⟨hp, hv, hrole, hsame p.1 p.2 hrole hv ▸ hmaps⟩
  · rintro ⟨hp, hv, hrole, hmaps⟩
    exact ⟨hp, hv, hrole, (hsame p.1 p.2 hrole hv).symm ▸ hmaps⟩

/-- Setting an entry moves one mapping from the frame of the old entry to that
of the new one. -/
theorem card_mappings_set {pgdir v : Nat} {e : Pte} (hdir : role pgdir = .dir)
    (hpgdir : pgdir < npage) (hv : v < userPages) (hset : LeafSet role s t pgdir v e)
    (hdirs : ∀ f, role' f = .dir ↔ role f = .dir) (f : Nat) :
    ((mappings role' t.mem f).card : Int) = (mappings role s.mem f).card
      - (if maps (leaf s.mem pgdir v) f then 1 else 0) + (if maps e f then 1 else 0) := by
  have hrest : (mappings role' t.mem f).erase (pgdir, v) =
      (mappings role s.mem f).erase (pgdir, v) := by
    ext p
    rw [mem_erase, mem_erase, mem_mappings, mem_mappings, hdirs]
    refine and_congr_right fun hne => and_congr_right fun _ => and_congr_right fun hv' =>
      and_congr_right fun hrole => ?_
    rw [hset p.1 p.2 hrole hv', if_neg fun heq => hne (Prod.ext heq.1 heq.2)]
  have hold : (pgdir, v) ∈ mappings role s.mem f ↔ maps (leaf s.mem pgdir v) f = true := by
    simp [mem_mappings, maps, hpgdir, hv, hdir]
  have hnew : (pgdir, v) ∈ mappings role' t.mem f ↔ maps e f = true := by
    simp [mem_mappings, maps, hpgdir, hv, hdirs, hdir, hset pgdir v hdir hv]
  have hcard : ∀ A : Finset (Nat × Nat), (A.card : Int) =
      (A.erase (pgdir, v)).card + if (pgdir, v) ∈ A then 1 else 0 := by
    intro A
    split
    next hmem => rw [← card_erase_add_one hmem, Nat.cast_add, Nat.cast_one]
    next hmem => rw [erase_eq_of_notMem hmem, add_zero]
  rw [hcard (mappings role' t.mem f), hcard (mappings role s.mem f), hrest]
  simp only [hold, hnew]
  omega

/-! ## One entry, one frame -/

/-- Setting the entry for a page number. -/
theorem Paged.write (hpaged : Paged role s) {pgdir k : Nat} {p : Ptr} {e : Pte}
    (htab : role p.page = .tab pgdir k) (he : valid e = true → role (frame e) = .data)
    (hmem : t.mem = s.mem.write p e) (hfree : t.free = s.free)
    (href : ∀ f ∈ s.free, t.ref f = s.ref f) : Paged role t := by
  constructor
  · rw [hmem]
    exact hpaged.tree.write_tab htab he
  · rw [hmem]
    exact Tree.linked_write_tab hpaged.linked htab e
  · rw [hfree]
    exact hpaged.free
  · exact hpaged.bound
  · rw [hfree]
    intro f hf
    rw [href f hf, hpaged.unref f hf]

theorem LeafSet.write (hpaged : Paged role s) {pgdir v : Nat} {p : Ptr} {e : Pte}
    (hdir : role pgdir = .dir) (hv : v < userPages) (hwalk : walk s.mem pgdir v = some p)
    (hmem : t.mem = s.mem.write p e) : LeafSet role s t pgdir v e := by
  intro pgdir' v' hdir' hv'
  rw [hmem, hpaged.tree.leaf_write hdir hdir' hv hv' hwalk]

/-- A frame that no page number maps is no entry's target. -/
theorem Paged.not_target (hpaged : Paged role s) {n : Nat} (hn : role n = .data)
    (hunmapped : mappings role s.mem n = ∅) :
    ∀ f i ρ, (role f).child f i = some ρ → valid (s.mem f i) = true → frame (s.mem f i) ≠ n := by
  intro f i ρ hchild hvalid heq
  obtain rfl : ρ = .data := by rw [← hpaged.tree f i ρ hchild hvalid, heq, hn]
  obtain ⟨⟨pgdir, k, htab⟩, hi⟩ := Role.child_data hchild
  obtain ⟨hdir, hv, hwalk⟩ := Tree.walk_of_tab hpaged.linked htab hi
  have hmem : (pgdir, 512 * k + i) ∈ mappings role s.mem n := by
    rw [mem_mappings, leaf_of_walk hwalk]
    exact ⟨hpaged.bound pgdir (by simp [hdir]), hv, hdir, hvalid, heq⟩
  exact eq_empty_iff_forall_notMem.mp hunmapped _ hmem

theorem eq_empty_of_card {m : Memory} {n : Nat} (hcard : ((mappings role m n).card : Int) ≤ 0) :
    mappings role m n = ∅ := by
  rw [← card_eq_zero]
  omega

/-- A page of data that nothing maps goes back to the manager. -/
theorem Paged.free_data (hpaged : Paged role s) {n : Nat} (hn : role n = .data)
    (hunmapped : mappings role s.mem n = ∅) (hmem : t.mem = s.mem)
    (hfree : t.free = insert n s.free) (href : t.ref n = 0)
    (hrefs : ∀ f ∈ s.free, t.ref f = s.ref f) : Paged (Function.update role n .free) t := by
  constructor
  · rw [hmem]
    exact hpaged.tree.retag_plain rfl (hpaged.not_target hn hunmapped)
  · rw [hmem]
    exact Tree.linked_retag_plain hpaged.linked (by rw [hn]; rfl) rfl
  · intro f
    rw [hfree, mem_insert]
    by_cases hf : f = n
    · simp [hf]
    · rw [Function.update_of_ne hf, hpaged.free f]
      simp [hf]
  · intro f hf
    by_cases hfn : f = n
    · exact hfn ▸ hpaged.bound n (by simp [hn])
    · rw [Function.update_of_ne hfn] at hf
      exact hpaged.bound f hf
  · rw [hfree]
    intro f hf
    rcases mem_insert.mp hf with rfl | hf
    · exact href
    · rw [hrefs f hf, hpaged.unref f hf]

/-- A free frame that has been handed out is put to a use other than as a table. -/
theorem Paged.use_plain {n : Nat} {ρ : Role} (hpaged : Paged role (s.giveBack n)) (hn : n ∉ s.free)
    (hplain : ρ.isTable = false) (hused : ρ ≠ .free) : Paged (Function.update role n ρ) s := by
  have hfree : role n = .free := (hpaged.free n).mpr (mem_insert_self n _)
  constructor
  · exact hpaged.tree.retag_plain hplain (hpaged.tree.not_target hfree)
  · exact Tree.linked_retag_plain hpaged.linked (by rw [hfree]; rfl) hplain
  · intro f
    by_cases hf : f = n
    · subst hf
      simp [hn, hused]
    · rw [Function.update_of_ne hf, hpaged.free f]
      simp [hf]
  · intro f hf
    by_cases hfn : f = n
    · exact hfn ▸ hpaged.bound n (by simp [hfree])
    · rw [Function.update_of_ne hfn] at hf
      exact hpaged.bound f hf
  · intro f hf
    have hfn : f ≠ n := fun heq => hn (heq ▸ hf)
    have hunref := hpaged.unref f (mem_insert_of_mem hf)
    simpa [hfn] using hunref

/-- A free frame that has been handed out becomes a page of data. -/
theorem Paged.use_data {n : Nat} (hpaged : Paged role (s.giveBack n)) (hn : n ∉ s.free) :
    Paged (Function.update role n .data) s :=
  hpaged.use_plain hn rfl Role.noConfusion

/-- The manager hands out a free frame, to be used as a page of data. -/
theorem Paged.take {n : Nat} (hpaged : Paged role s) (hn : n ∈ s.free) :
    Paged (Function.update role n .data) (s.nextTick.take n) := by
  apply Paged.use_data
  · rw [hpaged.nextTick.giveBack_take hn]
    exact hpaged.nextTick
  · simp

/-- Nothing maps a free frame. -/
theorem Paged.unmapped (hpaged : Paged role s) {n : Nat} (hn : role n ≠ .data) :
    mappings role s.mem n = ∅ := by
  rw [eq_empty_iff_forall_notMem]
  intro p hp
  obtain ⟨_, hv, hdir, hvalid, hframe⟩ := mem_mappings.mp hp
  exact hn (hframe ▸ hpaged.tree.data hdir hv hvalid)

/-! ## What operations on mappings may do -/

/-- No page of data is lost: those there were keep their contents and the excess
of their counts; new ones have none. Pages with references keep some. -/
structure Kept (role role' : Nat → Role) (s t : Kern) : Prop where
  dir : ∀ f, role' f = .dir ↔ role f = .dir
  table : ∀ f, (role f).isTable = true → role' f = role f
  other : ∀ f, role' f = .other → role f = .other
  data : ∀ f, role f = .data →
    role' f = .data ∧ t.mem f = s.mem f ∧ excess role' t f = excess role s f
  fresh : ∀ f, role' f = .data → role f = .data ∨ excess role' t f = 0
  live : ∀ f, role f = .data → 0 < s.ref f → 0 < t.ref f
  rest : ∀ f, role f = .other → role' f = .other ∧ t.ref f = s.ref f
  swap : t.swap = s.swap

/-- No page of data is new: those that are left keep their contents and the
excess of their counts. -/
structure Settled (role role' : Nat → Role) (s t : Kern) : Prop where
  dir : ∀ f, role' f = .dir ↔ role f = .dir
  table : ∀ f, (role f).isTable = true → role' f = role f
  other : ∀ f, role' f = .other → role f = .other
  data : ∀ f, role' f = .data →
    role f = .data ∧ t.mem f = s.mem f ∧ excess role' t f = excess role s f
  live : ∀ f, role' f = .data → 0 < s.ref f → 0 < t.ref f
  rest : ∀ f, role f = .other → role' f = .other ∧ t.ref f = s.ref f
  swap : t.swap = s.swap

theorem Kept.refl (role : Nat → Role) (s : Kern) : Kept role role s s :=
  ⟨fun _ => Iff.rfl, fun _ _ => rfl, fun _ hf => hf, fun _ hf => ⟨hf, rfl, rfl⟩,
    fun _ hf => Or.inl hf, fun _ _ hlive => hlive, fun _ hf => ⟨hf, rfl⟩, rfl⟩

theorem Kept.trans (h : Kept role role' s t) (h' : Kept role' role'' t u) :
    Kept role role'' s u := by
  constructor
  · exact fun f => (h'.dir f).trans (h.dir f)
  · exact fun f hf => (h'.table f ((h.table f hf).symm ▸ hf)).trans (h.table f hf)
  · exact fun f hf => h.other f (h'.other f hf)
  · intro f hf
    obtain ⟨hdata, hmem, hexcess⟩ := h.data f hf
    obtain ⟨hdata', hmem', hexcess'⟩ := h'.data f hdata
    exact ⟨hdata', hmem'.trans hmem, hexcess'.trans hexcess⟩
  · intro f hf
    rcases h'.fresh f hf with hdata | hexcess
    · exact (h.fresh f hdata).imp_right fun hexcess => (h'.data f hdata).2.2.trans hexcess
    · exact Or.inr hexcess
  · exact fun f hf hlive => h'.live f (h.data f hf).1 (h.live f hf hlive)
  · intro f hf
    obtain ⟨hother, href⟩ := h.rest f hf
    obtain ⟨hother', href'⟩ := h'.rest f hother
    exact ⟨hother', href'.trans href⟩
  · exact h'.swap.trans h.swap

theorem Settled.refl (role : Nat → Role) (s : Kern) : Settled role role s s :=
  ⟨fun _ => Iff.rfl, fun _ _ => rfl, fun _ hf => hf, fun _ hf => ⟨hf, rfl, rfl⟩,
    fun _ _ hlive => hlive, fun _ hf => ⟨hf, rfl⟩, rfl⟩

theorem Settled.trans (h : Settled role role' s t) (h' : Settled role' role'' t u) :
    Settled role role'' s u := by
  constructor
  · exact fun f => (h'.dir f).trans (h.dir f)
  · exact fun f hf => (h'.table f ((h.table f hf).symm ▸ hf)).trans (h.table f hf)
  · exact fun f hf => h.other f (h'.other f hf)
  · intro f hf
    obtain ⟨hdata', hmem', hexcess'⟩ := h'.data f hf
    obtain ⟨hdata, hmem, hexcess⟩ := h.data f hdata'
    exact ⟨hdata, hmem'.trans hmem, hexcess'.trans hexcess⟩
  · exact fun f hf hlive => h'.live f hf (h.live f (h'.data f hf).1 hlive)
  · intro f hf
    obtain ⟨hother, href⟩ := h.rest f hf
    obtain ⟨hother', href'⟩ := h'.rest f hother
    exact ⟨hother', href'.trans href⟩
  · exact h'.swap.trans h.swap

theorem excess_congr (hsame : LeafSame role s t) (hdir : ∀ f, role' f = .dir ↔ role f = .dir)
    {f : Nat} (href : t.ref f = s.ref f) : excess role' t f = excess role s f := by
  rw [excess, excess, href, mappings_congr hsame hdir]

theorem Grown.kept (h : Grown role role' s t) : Kept role role' s t := by
  constructor
  · exact h.dir_iff
  · exact h.steady.table
  · exact h.other
  · intro f hf
    refine ⟨(h.data_iff f).mpr hf, h.data f hf, ?_⟩
    exact excess_congr h.leaf h.dir_iff (h.ref f (by simp [hf]))
  · intro f hf
    exact Or.inl ((h.data_iff f).mp hf)
  · exact fun f hf hlive => (h.ref f (by simp [hf])).symm ▸ hlive
  · exact fun f hf => ⟨(h.keep f (by simp [hf])).trans hf, h.ref f (by simp [hf])⟩
  · exact h.swap

theorem Grown.settled (h : Grown role role' s t) : Settled role role' s t := by
  constructor
  · exact h.dir_iff
  · exact h.steady.table
  · exact h.other
  · intro f hf
    have hdata := (h.data_iff f).mp hf
    exact ⟨hdata, h.data f hdata, excess_congr h.leaf h.dir_iff (h.ref f (by simp [hdata]))⟩
  · intro f hf hlive
    have hdata := (h.data_iff f).mp hf
    exact (h.ref f (by simp [hdata])).symm ▸ hlive
  · exact fun f hf => ⟨(h.keep f (by simp [hf])).trans hf, h.ref f (by simp [hf])⟩
  · exact h.swap

/-- The counts do not fall short of the mappings where none are lost. -/
theorem Kept.nonneg (h : Kept role role' s t)
    (hcounted : ∀ f, role f = .data → 0 ≤ excess role s f) :
    ∀ f, role' f = .data → 0 ≤ excess role' t f := by
  intro f hf
  rcases h.fresh f hf with hdata | hzero
  · rw [(h.data f hdata).2.2]
    exact hcounted f hdata
  · exact Int.le_of_eq hzero.symm

/-- The count of no page of data falls short of its mappings, so that no frame is freed while an
entry maps it. -/
def Counted (role : Nat → Role) (s : Kern) : Prop := ∀ f, role f = .data → 0 ≤ excess role s f

theorem Settled.counted (h : Settled role role' s t) (hcounted : Counted role s) :
    Counted role' t := by
  intro f hf
  obtain ⟨hdata, _, hexcess⟩ := h.data f hf
  rw [hexcess]
  exact hcounted f hdata

/-- How the excess of a frame changes with one entry and its count. -/
theorem excess_set (hpaged : Paged role s) {pgdir v : Nat} {e : Pte} (hdir : role pgdir = .dir)
    (hv : v < userPages) (hset : LeafSet role s t pgdir v e)
    (hdirs : ∀ f, role' f = .dir ↔ role f = .dir) (f : Nat) :
    excess role' t f = excess role s f + (t.ref f - s.ref f)
      + (if maps (leaf s.mem pgdir v) f then 1 else 0) - (if maps e f then 1 else 0) := by
  rw [excess, excess,
    card_mappings_set hdir (hpaged.bound pgdir (by simp [hdir])) hv hset hdirs]
  omega

theorem maps_iff {e : Pte} {f : Nat} : maps e f = true ↔ valid e = true ∧ frame e = f := by
  simp [maps]

/-- A frame from the manager, to be used as a page of data. -/
theorem Allocator.allocPage_spec (al : Allocator) (hpaged : Paged role s) :
    Ends E al.allocPage s fun r t => t.mem = s.mem ∧ match r with
      | none => Paged role t ∧ Kept role role s t
      | some n => n ∈ s.free ∧ t.ref n = 0 ∧ Paged (Function.update role n .data) t ∧
          Kept role (Function.update role n .data) s t := by
  apply al.ends_allocPage
  · exact ⟨rfl, hpaged.nextTick, fun _ => Iff.rfl, fun _ _ => rfl, fun _ hf => hf,
      fun _ hf => ⟨hf, rfl, rfl⟩, fun _ hf => Or.inl hf, fun _ _ hlive => hlive,
        fun _ hf => ⟨hf, rfl⟩, rfl⟩
  · intro n hn
    have hfree := (hpaged.free n).mpr hn
    have hpaged' := hpaged.take hn
    have hne : ∀ f, f ≠ n → Function.update role n .data f = role f :=
      fun f hf => Function.update_of_ne hf _ _
    have hdirs : ∀ f, Function.update role n .data f = .dir ↔ role f = .dir := by
      intro f
      by_cases hf : f = n
      · subst hf
        simp [hfree]
      · rw [hne f hf]
    have hexcess : ∀ f, excess (Function.update role n .data) (s.nextTick.take n) f =
        excess role s f := fun f => excess_congr (fun _ _ _ _ => rfl) hdirs rfl
    refine ⟨rfl, hn, hpaged.unref n hn, hpaged', hdirs, ?_, ?_, ?_, ?_, fun _ _ hlive => hlive, ?_,
      rfl⟩
    · intro f hf
      refine hne f ?_
      rintro rfl
      rw [hfree] at hf
      cases hf
    · intro f hf
      by_cases hfn : f = n
      · subst hfn
        simp at hf
      · rwa [hne f hfn] at hf
    · intro f hf
      have hfn : f ≠ n := by
        rintro rfl
        rw [hfree] at hf
        cases hf
      exact ⟨(hne f hfn).trans hf, rfl, hexcess f⟩
    · intro f hf
      by_cases hfn : f = n
      · right
        rw [hexcess, hfn, excess, hpaged.unref n hn, hpaged.unmapped (by simp [hfree])]
        rfl
      · rw [hne f hfn] at hf
        exact Or.inl hf
    · intro f hf
      have hfn : f ≠ n := by
        rintro rfl
        rw [hfree] at hf
        cases hf
      exact ⟨(hne f hfn).trans hf, rfl⟩

/-! ## `page_remove_pte` and `page_insert` -/

/-- A page that is mapped and has no excess is in use. -/
theorem ref_pos {pgdir v f : Nat} (hpaged : Paged role s) (hdir : role pgdir = .dir)
    (hv : v < userPages) (hvalid : valid (leaf s.mem pgdir v) = true)
    (hframe : frame (leaf s.mem pgdir v) = f) (hexcess : 0 ≤ excess role s f) : 0 < s.ref f := by
  have hmem : (pgdir, v) ∈ mappings role s.mem f := by
    rw [mem_mappings]
    exact ⟨hpaged.bound pgdir (by simp [hdir]), hv, hdir, hvalid, hframe⟩
  have hpos := card_pos.mpr ⟨_, hmem⟩
  unfold excess at hexcess
  omega

/-- Pages of data without references, which callers hold, are left alone. -/
def Idle (role role' : Nat → Role) (s t : Kern) : Prop :=
  ∀ f, role f = .data → s.ref f = 0 → role' f = .data ∧ t.ref f = 0

theorem Idle.refl (role : Nat → Role) (s : Kern) : Idle role role s s := fun _ hf href => ⟨hf, href⟩

theorem Idle.trans (h : Idle role role' s t) (h' : Idle role' role'' t u) :
    Idle role role'' s u := by
  intro f hf href
  obtain ⟨hf', href'⟩ := h f hf href
  exact h' f hf' href'

/-- New tables are made of free frames. -/
def TablesFresh (role role' : Nat → Role) : Prop :=
  ∀ f, (role' f).isTable = true → role' f = role f ∨ role f = .free

theorem Grown.tablesFresh (h : Grown role role' s t) : TablesFresh role role' := by
  intro f _
  by_cases hf : role f = .free
  · exact Or.inr hf
  · exact Or.inl (h.keep f hf)

theorem TablesFresh.of_freed (h : ∀ f, role' f = role f ∨ role' f = .free) :
    TablesFresh role role' := by
  intro f hf
  apply Or.inl ((h f).resolve_right _)
  intro hfree
  rw [hfree] at hf
  cases hf

theorem TablesFresh.trans (h : TablesFresh role role')
    (h' : ∀ f, (role'' f).isTable = true → role'' f = role' f) : TablesFresh role role'' := by
  intro f hf
  have heq := h' f hf
  rw [heq] at hf ⊢
  exact h f hf

theorem Grown.idle (h : Grown role role' s t) : Idle role role' s t :=
  fun f hf href => ⟨(h.data_iff f).mpr hf, (h.ref f (by simp [hf])).trans href⟩

/-- What the entry of a page number is after `page_remove_pte`. -/
def removed (e : Pte) : Pte := if valid e then 0#64 else e

theorem pageRemovePte_spec (hpaged : Paged role s) (hcounted : Counted role s) {pgdir v : Nat}
    {p : Ptr} (hdir : role pgdir = .dir) (hv : v < userPages)
    (hwalk : walk s.mem pgdir v = some p) :
    Ends E (pageRemovePte p) s fun _ t => ∃ role', Paged role' t ∧ Settled role role' s t ∧
      LeafSet role s t pgdir v (removed (leaf s.mem pgdir v)) ∧
      (∀ f, f ≠ frame (leaf s.mem pgdir v) → role' f = role f ∧ t.ref f = s.ref f) ∧
      (∀ f, role' f = role f ∨ role' f = .free) ∧
      (∀ f, (role f).isDirectory = true → t.mem f = s.mem f) ∧ Idle role role' s t := by
  have hleaf := leaf_of_walk hwalk
  have htab := (hpaged.tree.tab hdir hv hwalk).1
  unfold pageRemovePte
  cases hvalid : valid (leaf s.mem pgdir v) with
  | false =>
      simp only [ends_bind, ends_load, ← hleaf, hvalid, removed]
      refine ⟨role, hpaged, Settled.refl role s, ?_, fun _ _ => ⟨rfl, rfl⟩, fun _ => Or.inl rfl,
        fun _ _ => rfl, Idle.refl role s⟩
      intro pgdir' v' _ _
      split
      next heq => simp [heq]
      next => rfl
  | true =>
      have hdata := hpaged.tree.data hdir hv hvalid
      have hpos : 0 < s.ref (frame (leaf s.mem pgdir v)) :=
        ref_pos hpaged hdir hv hvalid rfl (hcounted _ hdata)
      have hlt : frame (leaf s.mem pgdir v) < npage := hpaged.bound _ (by simp [hdata])
      have hnotfree : frame (leaf s.mem pgdir v) ∉ s.free := by
        rw [← hpaged.free, hdata]
        exact Role.noConfusion
      simp only [ends_bind, ends_load, ← hleaf, hvalid, if_true, removed]
      apply ends_pte2page hvalid hlt
      generalize hpage : frame (leaf s.mem pgdir v) = page at *
      simp only [ends_pageRefDec, ends_pageRef, Kern.setRef_ref, Function.update_self]
      have hset : ∀ t : Kern, t.mem = s.mem.write p 0#64 → LeafSet role s t pgdir v 0#64 :=
        fun t hmem => LeafSet.write hpaged hdir hv hwalk hmem
      have hmem : ∀ f, (∀ pgdir k, role f ≠ .tab pgdir k) → s.mem.write p 0#64 f = s.mem f :=
        fun f hf => s.mem.write_of_ne p _ fun heq => hf _ _ (heq ▸ htab)
      have hdirectory : ∀ f, (role f).isDirectory = true → s.mem.write p 0#64 f = s.mem f :=
        fun f hf => hmem f fun pgdir k htab => by simp [htab, Role.isDirectory] at hf
      -- the frame loses one mapping and one reference
      have hexcess : ∀ (role' : Nat → Role) (t : Kern) (f : Nat), t.mem = s.mem.write p 0#64 →
          (∀ f, role' f = .dir ↔ role f = .dir) →
          excess role' t f = excess role s f + (t.ref f - s.ref f) + if f = page then 1 else 0 := by
        intro role' t f hmem hdirs
        have hold : maps (leaf s.mem pgdir v) f = true ↔ f = page := by
          rw [maps_iff, hpage, hvalid]
          simp [eq_comm]
        have hnew : maps 0#64 f = false := rfl
        rw [excess_set hpaged hdir hv (hset t hmem) hdirs]
        simp only [hold, hnew, Bool.false_eq_true, if_false, sub_zero]
      by_cases hlast : s.ref page - 1 = 0
      · -- it was the last reference: the frame is freed, and nothing maps it any more
        rw [if_pos hlast, ends_bind]
        refine ends_freePage (by exact hnotfree) ?_
        rw [ends_store]
        have hu : Paged role (s.write p 0#64) :=
          hpaged.write htab (by simp) rfl rfl fun _ _ => rfl
        have hunmapped : mappings role (s.mem.write p 0#64) page = ∅ := by
          have hnow := hexcess role (s.write p 0#64) page rfl fun _ => Iff.rfl
          have hle := hcounted page hdata
          rw [excess, if_pos rfl] at hnow
          simp only [Kern.write_mem, Kern.write_ref] at hnow
          apply eq_empty_of_card
          omega
        have hdirs : ∀ f, Function.update role page .free f = .dir ↔ role f = .dir := by
          intro f
          by_cases hf : f = page
          · subst hf
            simp [hdata]
          · rw [Function.update_of_ne hf]
        have hothers : ∀ f, Function.update role page .free f = .other → role f = .other := by
          intro f hf
          by_cases hfp : f = page
          · subst hfp
            simp at hf
          · rwa [Function.update_of_ne hfp] at hf
        have hne : ∀ f, f ≠ page → Function.update role page .free f = role f :=
          fun f hf => Function.update_of_ne hf _ _
        have hkeep : ∀ f, role f ≠ .data → Function.update role page .free f = role f :=
          fun f hf => hne f fun heq => hf (heq ▸ hdata)
        refine ⟨Function.update role page .free, ?_, ⟨hdirs, ?_, hothers, ?_, ?_, ?_, rfl⟩,
          hset _ rfl, ?_, fun f => ?_, hdirectory, fun f hf href => ?_⟩
        · refine hu.free_data hdata hunmapped rfl rfl (by simp) fun f hf => ?_
          have hne : f ≠ page := fun heq => hnotfree (heq ▸ hf)
          simp [hne]
        · intro f hf
          refine hkeep f ?_
          rintro hdata
          rw [hdata] at hf
          cases hf
        · intro f hf
          have hne : f ≠ page := by
            rintro rfl
            simp at hf
          rw [Function.update_of_ne hne] at hf
          refine ⟨hf, hmem f (by simp [hf]), ?_⟩
          rw [hexcess _ _ f rfl hdirs]
          simp [hne]
        · intro f hf hlive
          have hne : f ≠ page := by
            rintro rfl
            simp at hf
          simpa [hne] using hlive
        · intro f hf
          have hne : f ≠ page := by
            rintro rfl
            rw [hdata] at hf
            cases hf
          exact ⟨(hkeep f (by simp [hf])).trans hf, by simp [hne]⟩
        · intro f hf
          simp [hf]
        · by_cases hf : f = page
          · exact Or.inr (by simp [hf])
          · exact Or.inl (hne f hf)
        · have hfp : f ≠ page := by
            rintro rfl
            omega
          exact ⟨(hne f hfp).trans hf, by simpa [hfp] using href⟩
      · -- the frame stays in use, with one mapping less
        rw [if_neg hlast, ends_store]
        refine ⟨role, ?_, ⟨fun _ => Iff.rfl, fun _ _ => rfl, fun _ hf => hf, ?_, ?_, ?_, rfl⟩,
          hset _ rfl, ?_, fun _ => Or.inl rfl, hdirectory, fun f hf href => ⟨hf, ?_⟩⟩
        · refine hpaged.write htab (by simp) rfl rfl fun f hf => ?_
          have hne : f ≠ page := fun heq => hnotfree (heq ▸ hf)
          simp [hne]
        · intro f hf
          refine ⟨hf, hmem f (by simp [hf]), ?_⟩
          rw [hexcess role _ f rfl fun _ => Iff.rfl]
          by_cases hne : f = page
          · subst hne
            simp
          · simp [hne]
        · intro f hf hlive
          by_cases hne : f = page
          · subst hne
            simp only [Kern.write_ref, Kern.setRef_ref, Function.update_self]
            omega
          · simpa [hne] using hlive
        · intro f hf
          have hne : f ≠ page := by
            rintro rfl
            rw [hdata] at hf
            cases hf
          exact ⟨hf, by simp [hne]⟩
        · intro f hf
          simp [hf]
        · have hfp : f ≠ page := by
            rintro rfl
            omega
          simpa [hfp] using href

theorem LeafSame.refl (role : Nat → Role) (s : Kern) : LeafSame role s s := fun _ _ _ _ => rfl

theorem LeafSame.trans (h : LeafSame role s t) (hdir : ∀ f, role' f = .dir ↔ role f = .dir)
    (h' : LeafSame role' t u) : LeafSame role s u := by
  intro pgdir v hrole hv
  rw [h' pgdir v ((hdir pgdir).mpr hrole) hv, h pgdir v hrole hv]

/-- An entry is set after operations that change no entry. -/
theorem LeafSame.set (h : LeafSame role s t) (hdir : ∀ f, role' f = .dir ↔ role f = .dir)
    {pgdir v : Nat} {e : Pte} (h' : LeafSet role' t u pgdir v e) : LeafSet role s u pgdir v e := by
  intro pgdir' v' hrole hv
  rw [h' pgdir' v' ((hdir pgdir').mpr hrole) hv, h pgdir' v' hrole hv]

/-- An entry is set twice. -/
theorem LeafSet.set {pgdir v : Nat} {e e' : Pte} (h : LeafSet role s t pgdir v e)
    (hdir : ∀ f, role' f = .dir ↔ role f = .dir) (h' : LeafSet role' t u pgdir v e') :
    LeafSet role s u pgdir v e' := by
  intro pgdir' v' hrole hv
  rw [h' pgdir' v' ((hdir pgdir').mpr hrole) hv]
  split
  next => rfl
  next hne => rw [h pgdir' v' hrole hv, if_neg hne]

section

variable {alloc : KernM (Option Nat)} {pgdir v la page : Nat} {p : Ptr} {perm : Pte}

/-- `page_insert` where nothing was mapped. -/
theorem mapPage_fresh (hinvalid : valid (s.mem p.page p.index) = false) :
    Ends E (mapPage p page perm) s fun ret t =>
      ret = 0 ∧ t = (s.setRef page (s.ref page + 1)).write p (pteCreate page (PTE_V ||| perm)) := by
  unfold mapPage
  simp [hinvalid]

/-- A frame is mapped where nothing was, and gets one more reference. -/
theorem Paged.map (hpaged : Paged role s) (hdir : role pgdir = .dir) (hv : v < userPages)
    (hwalk : walk s.mem pgdir v = some p) (hpage : role page = .data) (hperm : IsPerm perm)
    (hinvalid : valid (leaf s.mem pgdir v) = false) :
    let e := pteCreate page (PTE_V ||| perm)
    let t := (s.setRef page (s.ref page + 1)).write p e
    Paged role t ∧ LeafSet role s t pgdir v e ∧ Kept role role s t := by
  intro e t
  have htab := (hpaged.tree.tab hdir hv hwalk).1
  have hlt : page < npage := hpaged.bound page (by simp [hpage])
  have htype : IsPerm (PTE_V ||| perm) := IsPerm.or (by decide) hperm
  have hframe : frame e = page := frame_pteCreate (Nat.lt_trans hlt (by decide)) htype
  have hset : LeafSet role s t pgdir v e := LeafSet.write hpaged hdir hv hwalk rfl
  refine ⟨?_, hset, fun _ => Iff.rfl, fun _ _ => rfl, fun _ hf => hf, ?_, fun f hf => Or.inl hf,
    ?_, ?_, rfl⟩
  · refine hpaged.write htab (fun _ => hframe.symm ▸ hpage) rfl rfl fun f hf => ?_
    have hne : f ≠ page := by
      rintro rfl
      rw [← hpaged.free, hpage] at hf
      cases hf
    simp [t, hne]
  · intro f hf
    refine ⟨hf, s.mem.write_of_ne p _ fun heq => ?_, ?_⟩
    · rw [heq, htab] at hf
      cases hf
    · have hold : maps (leaf s.mem pgdir v) f = false := by
        rw [maps, hinvalid]
        rfl
      have hnew : maps e f = true ↔ f = page := by
        rw [maps_iff, hframe, valid_pteCreate]
        simp [eq_comm]
      rw [excess_set hpaged hdir hv hset fun _ => Iff.rfl]
      simp only [hold, hnew, Bool.false_eq_true, if_false]
      by_cases hfp : f = page
      · subst hfp
        simp [t]
      · simp [t, hfp]
  · intro f hf hlive
    by_cases hfp : f = page
    · subst hfp
      simp only [t, Kern.write_ref, Kern.setRef_ref, Function.update_self]
      omega
    · simpa [t, hfp] using hlive
  · intro f hf
    have hfp : f ≠ page := by
      rintro rfl
      rw [hpage] at hf
      cases hf
    exact ⟨hf, by simp [t, hfp]⟩

theorem Kept.settled (h : Kept role role s t) : Settled role role s t :=
  ⟨h.dir, h.table, h.other, fun f hf => ⟨hf, (h.data f hf).2⟩, h.live, h.rest, h.swap⟩

/-- One more reference to a page of data. -/
theorem Paged.setRef (hpaged : Paged role s) (hpage : role page = .data) (val : Int) :
    Paged role (s.setRef page val) := by
  refine ⟨hpaged.tree, hpaged.linked, hpaged.free, hpaged.bound, fun f hf => ?_⟩
  have hne : f ≠ page := by
    rintro rfl
    rw [Kern.setRef_free, ← hpaged.free, hpage] at hf
    cases hf
  simpa [hne] using hpaged.unref f hf

/-- `page_insert` over an entry, of whatever kind. -/
theorem mapPage_spec (hpaged : Paged role s) (hcounted : Counted role s) (hdir : role pgdir = .dir)
    (hv : v < userPages) (hwalk : walk s.mem pgdir v = some p) (hpage : role page = .data)
    (hperm : IsPerm perm) :
    Ends E (mapPage p page perm) s fun ret t => ret = 0 ∧ ∃ role', Paged role' t ∧
      Settled role role' s t ∧ role' page = .data ∧
      LeafSet role s t pgdir v (pteCreate page (PTE_V ||| perm)) ∧
      (∀ f, f ≠ page → role f = .data → s.ref f = 0 → role' f = .data ∧ t.ref f = 0) ∧
      ∀ f, (role' f).isTable = true → role' f = role f := by
  have hleaf := leaf_of_walk hwalk
  have htab := (hpaged.tree.tab hdir hv hwalk).1
  cases hvalid : valid (leaf s.mem pgdir v) with
  | false =>
      apply (mapPage_fresh (hleaf ▸ hvalid)).imp
      rintro ret t ⟨rfl, rfl⟩
      obtain ⟨hpaged', hset, hkept⟩ := hpaged.map hdir hv hwalk hpage hperm hvalid
      refine ⟨rfl, role, hpaged', hkept.settled, hpage, hset, fun f hfp hf href => ⟨hf, ?_⟩,
        fun _ _ => rfl⟩
      simpa [hfp] using href
  | true =>
      -- an entry is there: the new page is counted first, and then the old entry is removed
      have hdata := hpaged.tree.data hdir hv hvalid
      have hlt : frame (leaf s.mem pgdir v) < npage := hpaged.bound _ (by simp [hdata])
      have hsmall : page < npage := hpaged.bound page (by simp [hpage])
      have htype : IsPerm (PTE_V ||| perm) := IsPerm.or (by decide) hperm
      have hframe : frame (pteCreate page (PTE_V ||| perm)) = page :=
        frame_pteCreate (Nat.lt_trans hsmall (by decide)) htype
      have hnew : ∀ f, maps (pteCreate page (PTE_V ||| perm)) f = true ↔ f = page := by
        intro f
        rw [maps_iff, hframe, valid_pteCreate]
        simp [eq_comm]
      have hmem : ∀ m : Memory, ∀ f, role f = .data →
          m.write p (pteCreate page (PTE_V ||| perm)) f = m f := by
        intro m f hf
        refine m.write_of_ne p _ fun heq => ?_
        rw [heq, htab] at hf
        cases hf
      unfold mapPage
      simp only [ends_bind, ends_pageRefInc, ends_load, Kern.setRef_mem, ← hleaf, hvalid, if_true]
      apply ends_pte2page hvalid hlt
      split
      next hsame =>
        -- the same page again: its count goes up and down
        simp only [ends_pageRefDec, ends_bind, ends_store, ends_pure]
        have hset : LeafSet role s
            (((s.setRef page (s.ref page + 1)).setRef page
              ((s.setRef page (s.ref page + 1)).ref page - 1)).write p
                (pteCreate page (PTE_V ||| perm)))
            pgdir v (pteCreate page (PTE_V ||| perm)) := LeafSet.write hpaged hdir hv hwalk rfl
        have hsameRef : ∀ f, ((s.setRef page (s.ref page + 1)).setRef page
            ((s.setRef page (s.ref page + 1)).ref page - 1)).ref f = s.ref f := by
          intro f
          by_cases hf : f = page
          · subst hf
            simp
          · simp [hf]
        refine ⟨trivial, role, ?_, ⟨fun _ => Iff.rfl, fun _ _ => rfl, fun _ hf => hf,
          fun f hf => ⟨hf, hmem _ f hf, ?_⟩, fun f _ hlive => (hsameRef f).symm ▸ hlive,
          fun f hf => ⟨hf, hsameRef f⟩, rfl⟩, hpage, hset,
          fun f _ hf href => ⟨hf, (hsameRef f).trans href⟩, fun _ _ => rfl⟩
        · exact ((hpaged.setRef hpage _).setRef hpage _).write htab
            (fun _ => hframe.symm ▸ hpage) rfl rfl fun _ _ => rfl
        · have hold : maps (leaf s.mem pgdir v) f = true ↔ f = page := by
            rw [maps_iff, hvalid, hsame]
            simp [eq_comm]
          rw [excess_set hpaged hdir hv hset fun _ => Iff.rfl]
          simp only [hold, hnew]
          by_cases hf : f = page
          · subst hf
            simp
          · simp [hf]
      next hother =>
        rw [ends_bind]
        -- another page: between the two steps the new one has a count of one too many
        have hpaged₁ := hpaged.setRef hpage (s.ref page + 1)
        have hexcess₁ : ∀ f, excess role (s.setRef page (s.ref page + 1)) f =
            excess role s f + if f = page then 1 else 0 := by
          intro f
          rw [excess, excess, Kern.setRef_mem, Kern.setRef_ref, Function.update_apply]
          split
          next hf =>
            subst hf
            omega
          next => omega
        have hcounted₁ : Counted role (s.setRef page (s.ref page + 1)) := by
          intro f hf
          rw [hexcess₁]
          have := hcounted f hf
          split <;> omega
        apply (pageRemovePte_spec hpaged₁ hcounted₁ hdir hv hwalk).imp
        rintro _ t ⟨role', hpaged', hsettled, hset, hrest, hfreed, hdirectory, hidle⟩
        have hpage' : role' page = .data := by
          rw [(hrest page (Ne.symm hother)).1, hpage]
        have hdir' : role' pgdir = .dir := (hsettled.dir pgdir).mpr hdir
        have hwalk' : walk t.mem pgdir v = some p := by
          rw [← hwalk]
          apply hpaged₁.tree.walk_congr hdir hv
          · exact hdirectory pgdir (by rw [hdir]; rfl)
          · intro f i hf
            exact hdirectory f (by rw [hf]; rfl)
        have htab' := (hpaged'.tree.tab hdir' hv hwalk').1
        simp only [ends_bind, ends_store, ends_pure]
        have hset' : LeafSet role' t (t.write p (pteCreate page (PTE_V ||| perm))) pgdir v
            (pteCreate page (PTE_V ||| perm)) := LeafSet.write hpaged' hdir' hv hwalk' rfl
        refine ⟨trivial, role', ?_,
          ⟨hsettled.dir, hsettled.table, hsettled.other, fun f hf => ?_, fun f hf hlive => ?_,
            fun f hf => ?_, hsettled.swap⟩, hpage', ?_, fun f hfp hf href => ?_, fun f hf => ?_⟩
        · exact hpaged'.write htab' (fun _ => hframe.symm ▸ hpage') rfl rfl fun _ _ => rfl
        · obtain ⟨hf₁, hmem₁, hexcess⟩ := hsettled.data f hf
          refine ⟨hf₁, (hmem _ f hf₁).trans hmem₁, ?_⟩
          have hgone : maps (leaf t.mem pgdir v) f = false := by
            rw [hset pgdir v hdir hv, if_pos ⟨rfl, rfl⟩]
            simp only [removed, Kern.setRef_mem, hvalid, if_true]
            rfl
          rw [excess_set hpaged' hdir' hv hset' fun _ => Iff.rfl, hexcess, hexcess₁]
          simp only [hgone, hnew, Kern.write_ref]
          split <;> simp
        · apply hsettled.live f hf
          rw [Kern.setRef_ref, Function.update_apply]
          split
          next hf =>
            subst hf
            omega
          next => exact hlive
        · have hfp : f ≠ page := by
            rintro rfl
            rw [hpage] at hf
            cases hf
          obtain ⟨hother, href⟩ := hsettled.rest f hf
          exact ⟨hother, by simpa [hfp] using href⟩
        · exact LeafSet.set hset hsettled.dir hset'
        · exact hidle f hf (by simpa [hfp] using href)
        · apply (hfreed f).resolve_right
          intro hfree
          rw [hfree] at hf
          cases hf

theorem pageInsert_spec (al : Allocator) (hpaged : Paged role s) (hcounted : Counted role s)
    (hdir : role pgdir = .dir) (hla : ppn la < userPages) (hpage : role page = .data)
    (hperm : IsPerm perm) :
    Ends E (pageInsert al.allocPage pgdir page la perm) s fun ret t => ∃ role', Paged role' t ∧
      Settled role role' s t ∧ role' page = .data ∧
      ((ret = -E_NO_MEM ∧ LeafSame role s t) ∨
        ret = 0 ∧ LeafSet role s t pgdir (ppn la) (pteCreate page (PTE_V ||| perm))) ∧
      (∀ f, f ≠ page → role f = .data → s.ref f = 0 → role' f = .data ∧ t.ref f = 0) ∧
      TablesFresh role role' := by
  unfold pageInsert
  rw [ends_bind]
  apply (getPte_true al hpaged hdir hla).imp
  rintro r t ⟨role', hpaged', hgrown, hfound⟩
  have hpage' := (hgrown.data_iff page).mpr hpage
  cases r with
  | none =>
      exact ⟨role', hpaged', hgrown.settled, hpage', Or.inl ⟨rfl, hgrown.leaf⟩,
        fun f _ => hgrown.idle f, hgrown.tablesFresh⟩
  | some p =>
      apply (mapPage_spec hpaged' (hgrown.settled.counted hcounted)
        ((hgrown.dir_iff pgdir).mpr hdir) hla (hfound p rfl) hpage' hperm).imp
      rintro ret u ⟨rfl, role'', hpaged'', hsettled, hpage'', hset, hidle, htables⟩
      refine ⟨role'', hpaged'', hgrown.settled.trans hsettled, hpage'',
        Or.inr ⟨rfl, LeafSame.set hgrown.leaf hgrown.dir_iff hset⟩, fun f hfp hf href => ?_,
        hgrown.tablesFresh.trans htables⟩
      obtain ⟨hf', href'⟩ := hgrown.idle f hf href
      exact hidle f hfp hf' href'

/-- `get_page` finds pages of data only. -/
theorem getPage_data (hpaged : Paged role s) (hdir : role pgdir = .dir) (hla : ppn la < userPages) :
    Ends E (getPage alloc pgdir la) s fun r t => t = s ∧ ∀ n, r = some n → role n = .data := by
  unfold getPage
  rw [ends_bind]
  apply (getPte_false hpaged hdir hla).imp
  rintro r t ⟨rfl, rfl⟩
  cases hwalk : walk t.mem pgdir (ppn la) with
  | none => exact ⟨rfl, fun n hn => by cases hn⟩
  | some p =>
      simp only [ends_bind, ends_load, ← leaf_of_walk hwalk]
      cases hvalid : valid (leaf t.mem pgdir (ppn la)) with
      | false => exact ⟨rfl, fun n hn => by cases hn⟩
      | true =>
          have hdata := hpaged.tree.data hdir hla hvalid
          simp only [if_true, ends_map]
          apply ends_pte2page hvalid (hpaged.bound _ (by simp [hdata]))
          exact ⟨rfl, fun n hn => Option.some.inj hn ▸ hdata⟩

theorem pageRemove_spec (hpaged : Paged role s) (hcounted : Counted role s)
    (hdir : role pgdir = .dir) (hla : ppn la < userPages) :
    Ends E (pageRemove alloc pgdir la) s fun _ t => ∃ role', Paged role' t ∧
      Settled role role' s t ∧
      LeafSet role s t pgdir (ppn la) (removed (leaf s.mem pgdir (ppn la))) ∧ Idle role role' s t ∧
      TablesFresh role role' := by
  unfold pageRemove
  rw [ends_bind]
  apply (getPte_false hpaged hdir hla).imp
  rintro r t ⟨rfl, rfl⟩
  cases hwalk : walk t.mem pgdir (ppn la) with
  | none =>
      refine ⟨role, hpaged, Settled.refl role t, fun pgdir' v' _ _ => ?_, Idle.refl role t,
        fun _ _ => Or.inl rfl⟩
      split
      next heq => simp [heq, leaf, hwalk, removed]
      next => rfl
  | some p =>
      apply (pageRemovePte_spec hpaged hcounted hdir hla hwalk).imp
      rintro _ u ⟨role', hpaged', hsettled, hset, _, hfreed, _, hidle⟩
      exact ⟨role', hpaged', hsettled, hset, hidle, .of_freed hfreed⟩

end

end Ucore.Mm
