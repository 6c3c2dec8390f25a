import Ucore.Mm.Kern

/-!
# Walking and growing page tables

`Paged role s` is the invariant of the kernel's memory. `getPte` finds the entry
that `walk` describes, or makes the tables it needs; nothing else changes
(`Grown`).
-/

namespace Ucore.Mm

open Mmu Machine

variable {E : Panic → Prop} {s t u : Kern}

/-! ## The primitive operations -/

@[simp] theorem ends_load {p : Ptr} {Q : Pte → Kern → Prop} :
    Ends E (load p) s Q ↔ Q (s.mem p.page p.index) s := Iff.rfl

@[simp] theorem ends_store {p : Ptr} {w : Pte} {Q : PUnit → Kern → Prop} :
    Ends E (store p w) s Q ↔ Q ⟨⟩ (s.write p w) := Iff.rfl

@[simp] theorem ends_fillPage {page : Nat} {words : Nat → Pte} {Q : PUnit → Kern → Prop} :
    Ends E (fillPage page words) s Q ↔ Q ⟨⟩ (s.fill page words) := Iff.rfl

@[simp] theorem ends_pageRef {page : Nat} {Q : Int → Kern → Prop} :
    Ends E (pageRef page) s Q ↔ Q (s.ref page) s := Iff.rfl

@[simp] theorem ends_setPageRef {page : Nat} {val : Int} {Q : PUnit → Kern → Prop} :
    Ends E (setPageRef page val) s Q ↔ Q ⟨⟩ (s.setRef page val) := Iff.rfl

@[simp] theorem ends_pageRefInc {page : Nat} {Q : PUnit → Kern → Prop} :
    Ends E (pageRefInc page) s Q ↔ Q ⟨⟩ (s.setRef page (s.ref page + 1)) := Iff.rfl

@[simp] theorem ends_pageRefDec {page : Nat} {Q : PUnit → Kern → Prop} :
    Ends E (pageRefDec page) s Q ↔ Q ⟨⟩ (s.setRef page (s.ref page - 1)) := Iff.rfl

theorem ends_freePage {page : Nat} {Q : PUnit → Kern → Prop} (hpage : page ∉ s.free)
    (hQ : Q ⟨⟩ (s.giveBack page)) : Ends E (freePage page) s Q := by
  unfold freePage
  simpa [hpage] using hQ

theorem ends_kaddr {page : Nat} {Q : Nat → Kern → Prop} (hpage : page < npage) (hQ : Q page s) :
    Ends E (kaddr page) s Q := by
  unfold kaddr
  rw [if_neg (Nat.not_le_of_lt hpage)]
  exact hQ

theorem ends_pte2page {pte : Pte} {Q : Nat → Kern → Prop} (hvalid : valid pte = true)
    (hpage : frame pte < npage) (hQ : Q (frame pte) s) : Ends E (pte2page pte) s Q := by
  unfold pte2page pa2page
  rw [if_pos hvalid, if_neg (Nat.not_le_of_lt hpage)]
  exact hQ

/-- The manager hands out a free frame, or chooses none. -/
theorem Allocator.ends_allocPage_choose (al : Allocator) {Q : Option Nat → Kern → Prop}
    (hnone : al.choose s.tick s.free = none → Q none s.nextTick)
    (hsome : ∀ page ∈ s.free, Q (some page) (s.nextTick.take page)) :
    Ends E al.allocPage s Q := by
  unfold Allocator.allocPage
  simp only [ends_bind, ends_get, ends_modify]
  cases hchoose : al.choose s.tick s.free with
  | none => exact hnone hchoose
  | some page => exact hsome page (al.sound _ _ _ hchoose)

theorem Allocator.ends_allocPage (al : Allocator) {Q : Option Nat → Kern → Prop}
    (hnone : Q none s.nextTick)
    (hsome : ∀ page ∈ s.free, Q (some page) (s.nextTick.take page)) :
    Ends E al.allocPage s Q :=
  al.ends_allocPage_choose (fun _ => hnone) hsome

/-! ## The invariant -/

/-- The entries of directories point to tables. -/
theorem Role.child_of_directory {ρ ρ' : Role} {f i : Nat} (hdir : ρ.isDirectory = true)
    (hchild : ρ.child f i = some ρ') :
    (∃ pgdir j, ρ' = .mid pgdir j) ∨ ∃ pgdir k, ρ' = .tab pgdir k := by
  cases ρ with
  | dir =>
      rw [Role.child, Option.ite_none_right_eq_some] at hchild
      exact Or.inl ⟨_, _, (Option.some.inj hchild.2).symm⟩
  | mid pgdir j =>
      rw [Role.child, Option.ite_none_right_eq_some] at hchild
      exact Or.inr ⟨_, _, (Option.some.inj hchild.2).symm⟩
  | _ => cases hdir

/-- The uses of the frames: the tables have the right shape, the manager has the
free frames, and all frames in use exist. -/
structure Paged (role : Nat → Role) (s : Kern) : Prop where
  tree : Tree role s.mem
  linked : Linked role s.mem
  free : ∀ f, role f = .free ↔ f ∈ s.free
  bound : ∀ f, role f ≠ .other → f < npage
  unref : ∀ f ∈ s.free, s.ref f = 0

/-- The tables stay where they are, and valid entries of directories stay. -/
structure Steady (role role' : Nat → Role) (s t : Kern) : Prop where
  table : ∀ f, (role f).isTable = true → role' f = role f
  entry : ∀ f i, (role f).isDirectory = true → valid (s.mem f i) = true →
    t.mem f i = s.mem f i

/-- Free frames have become page tables; no page number is mapped differently. -/
structure Grown (role role' : Nat → Role) (s t : Kern) : Prop where
  keep : ∀ f, role f ≠ .free → role' f = role f
  fresh : ∀ f, role f = .free → role' f = .free ∨ (∃ pgdir i, role' f = .mid pgdir i) ∨
    ∃ pgdir k, role' f = .tab pgdir k
  entry : ∀ f i, (role f).isDirectory = true → valid (s.mem f i) = true →
    t.mem f i = s.mem f i
  leaf : ∀ pgdir v, role pgdir = .dir → v < userPages → leaf t.mem pgdir v = leaf s.mem pgdir v
  data : ∀ f, role f = .data → t.mem f = s.mem f
  ref : ∀ f, role f ≠ .free → t.ref f = s.ref f
  swap : t.swap = s.swap

namespace Steady

variable {role role' role'' : Nat → Role}

theorem refl (role : Nat → Role) (s : Kern) : Steady role role s s :=
  ⟨fun _ _ => rfl, fun _ _ _ _ => rfl⟩

theorem trans (h : Steady role role' s t) (h' : Steady role' role'' t u) :
    Steady role role'' s u := by
  constructor
  · intro f hf
    rw [h'.table f (h.table f hf ▸ hf), h.table f hf]
  · intro f i hf hvalid
    have hrole := h.table f (by revert hf; cases role f <;> simp [Role.isDirectory, Role.isTable])
    rw [h'.entry f i (hrole ▸ hf) (h.entry f i hf hvalid ▸ hvalid), h.entry f i hf hvalid]

/-- Existing tables are found again. -/
theorem walk (hsteady : Steady role role' s t) (htree : Tree role s.mem) {pgdir v : Nat} {p : Ptr}
    (hdir : role pgdir = .dir) (hv : v < userPages) (hwalk : walk s.mem pgdir v = some p) :
    Mm.walk t.mem pgdir v = some p := by
  obtain ⟨h1, h0, rfl⟩ := walk_eq_some.mp hwalk
  have hpde1 := hsteady.entry _ _ (by rw [hdir]; rfl) h1
  have hpde0 := hsteady.entry _ _ (by rw [htree.mid hdir hv h1]; rfl) h0
  rw [walk_eq_some, hpde1, hpde0]
  exact ⟨h1, h0, rfl⟩

end Steady

namespace Grown

variable {role role' role'' : Nat → Role}

theorem refl (role : Nat → Role) (s : Kern) : Grown role role s s :=
  ⟨fun _ _ => rfl, fun _ hf => Or.inl hf, fun _ _ _ _ => rfl, fun _ _ _ _ => rfl,
    fun _ _ => rfl, fun _ _ => rfl, rfl⟩

theorem steady (h : Grown role role' s t) : Steady role role' s t :=
  ⟨fun f hf => h.keep f (by rintro heq; simp [heq, Role.isTable] at hf), h.entry⟩

theorem trans (h : Grown role role' s t) (h' : Grown role' role'' t u) : Grown role role'' s u := by
  constructor
  · intro f hf
    rw [h'.keep f (h.keep f hf ▸ hf), h.keep f hf]
  · intro f hf
    rcases h.fresh f hf with hfree | ⟨pgdir, i, hmid⟩ | ⟨pgdir, k, htab⟩
    · exact h'.fresh f hfree
    · exact Or.inr (Or.inl ⟨pgdir, i, by rw [h'.keep f (by simp [hmid]), hmid]⟩)
    · exact Or.inr (Or.inr ⟨pgdir, k, by rw [h'.keep f (by simp [htab]), htab]⟩)
  · exact (h.steady.trans h'.steady).entry
  · intro pgdir v hdir hv
    have hrole := h.keep pgdir (by simp [hdir])
    rw [h'.leaf pgdir v (hrole ▸ hdir) hv, h.leaf pgdir v hdir hv]
  · intro f hf
    have hrole := h.keep f (by simp [hf])
    rw [h'.data f (hrole ▸ hf), h.data f hf]
  · intro f hf
    rw [h'.ref f (h.keep f hf ▸ hf), h.ref f hf]
  · rw [h'.swap, h.swap]

/-- No other frame becomes a page directory or a page of data. -/
theorem dir_iff (h : Grown role role' s t) (f : Nat) : role' f = .dir ↔ role f = .dir := by
  by_cases hf : role f = .free
  · rcases h.fresh f hf with hfree | ⟨pgdir, i, hmid⟩ | ⟨pgdir, k, htab⟩ <;> simp [*]
  · rw [h.keep f hf]

theorem other (h : Grown role role' s t) (f : Nat) (hf : role' f = .other) : role f = .other := by
  by_cases hfree : role f = .free
  · rcases h.fresh f hfree with hfree | ⟨pgdir, i, hmid⟩ | ⟨pgdir, k, htab⟩ <;> simp_all
  · rwa [h.keep f hfree] at hf

theorem data_iff (h : Grown role role' s t) (f : Nat) : role' f = .data ↔ role f = .data := by
  by_cases hf : role f = .free
  · rcases h.fresh f hf with hfree | ⟨pgdir, i, hmid⟩ | ⟨pgdir, k, htab⟩ <;> simp [*]
  · rw [h.keep f hf]

end Grown

/-- A cleared frame, taken from the free ones, becomes the table that an
invalid entry of a directory calls for. -/
theorem Paged.install {role : Nat → Role} {n f i : Nat} {ρ : Role}
    (hpaged : Paged role (s.giveBack n))
    (hn : n ∉ s.free) (hchild : (role f).child f i = some ρ) (hf : (role f).isDirectory = true)
    (hinvalid : valid (s.mem f i) = false) {type : Pte} (htype : IsPerm type) :
    let t := ((s.setRef n 1).fill n fun _ => 0#64).write ⟨f, i⟩ (pteCreate n type)
    Paged (Function.update role n ρ) t ∧ Grown role (Function.update role n ρ)
    (s.giveBack n) t := by
  intro t
  have hfree : role n = .free := (hpaged.free n).mpr (Finset.mem_insert_self n _)
  have hsmall : n < 2 ^ 44 :=
    Nat.lt_trans (hpaged.bound n (by simp [hfree])) (by decide)
  have hfn : f ≠ n := by
    rintro rfl
    simp [hfree, Role.isDirectory] at hf
  have htable := Role.child_of_directory hf hchild
  have hdata : ρ ≠ .data := by
    rcases htable with ⟨_, _, rfl⟩ | ⟨_, _, rfl⟩ <;> simp
  constructor
  · refine ⟨hpaged.tree.install hfree hsmall hchild htype,
      Tree.linked_install hpaged.linked hfree hsmall hchild hinvalid htype, ?_, ?_, ?_⟩
    · intro g
      by_cases hg : g = n
      · subst hg
        rw [Function.update_self]
        exact iff_of_false (Role.child_ne_free hchild) hn
      · rw [Function.update_of_ne hg, hpaged.free g]
        simp [hg, t]
    · intro g hg
      by_cases hgn : g = n
      · exact hgn ▸ hpaged.bound n (by simp [hfree])
      · rw [Function.update_of_ne hgn] at hg
        exact hpaged.bound g hg
    · intro g hg
      have hgn : g ≠ n := fun heq => hn (heq ▸ hg)
      have hunref := hpaged.unref g (Finset.mem_insert_of_mem hg)
      simpa [hgn, t] using hunref
  · constructor
    · intro g hg
      have hgn : g ≠ n := fun heq => hg (heq ▸ hfree)
      exact Function.update_of_ne hgn _ _
    · intro g hg
      by_cases hgn : g = n
      · subst hgn
        rw [Function.update_self]
        exact Or.inr htable
      · rw [Function.update_of_ne hgn]
        exact Or.inl hg
    · intro g j hg hvalid
      have hgn : g ≠ n := by
        rintro rfl
        simp [hfree, Role.isDirectory] at hg
      have hne : ¬ (g = f ∧ j = i) := by
        rintro ⟨rfl, rfl⟩
        exact Bool.false_ne_true (hinvalid.symm.trans hvalid)
      simp [hgn, hne, t]
    · intro pgdir v hdir hv
      exact hpaged.tree.leaf_install hfree hsmall hchild hdata hinvalid htype hdir hv
    · intro g hg
      have hgn : g ≠ n := by
        rintro rfl
        simp [hfree] at hg
      have hgf : g ≠ f := by
        rintro rfl
        simp [hg, Role.isDirectory] at hf
      funext j
      simp [hgn, hgf, t]
    · intro g hg
      have hgn : g ≠ n := fun heq => hg (heq ▸ hfree)
      simp [hgn, t]
    · rfl

/-! ## Finding or making an entry -/

section

variable {alloc : KernM (Option Nat)} {create : Bool} {role : Nat → Role} {f i pgdir la : Nat}

theorem tableAt_valid (hvalid : valid (s.mem f i) = true) (hframe : frame (s.mem f i) < npage) :
    Ends E (tableAt alloc create ⟨f, i⟩) s fun r t => r = some (frame (s.mem f i)) ∧ t = s := by
  unfold tableAt
  simp only [ends_bind, ends_load, hvalid, if_true, ends_map]
  exact ends_kaddr hframe ⟨rfl, rfl⟩

theorem tableAt_invalid (hinvalid : valid (s.mem f i) = false) :
    Ends E (tableAt alloc false ⟨f, i⟩) s fun r t => r = none ∧ t = s := by
  unfold tableAt
  simp [hinvalid]

theorem frame_lt {ρ : Role} (hpaged : Paged role s) (hchild : (role f).child f i = some ρ)
    (hvalid : valid (s.mem f i) = true) : frame (s.mem f i) < npage := by
  apply hpaged.bound
  rw [hpaged.tree f i ρ hchild hvalid]
  exact Role.child_ne_other hchild

theorem idx1_lt {v : Nat} (hv : v < userPages) : idx1 v < 511 := by
  unfold userPages at hv
  unfold idx1
  omega

theorem idx0_lt (v : Nat) : idx0 v < 512 := Nat.mod_lt _ (by decide)

theorem child_dir {v : Nat} (hdir : role pgdir = .dir) (hv : v < userPages) :
    (role pgdir).child pgdir (idx1 v) = some (.mid pgdir (idx1 v)) := by
  simp only [hdir, Role.child, if_pos (idx1_lt hv)]

theorem child_mid {v j : Nat} (hmid : role f = .mid pgdir j) :
    (role f).child f (idx0 v) = some (.tab pgdir (512 * j + idx0 v)) := by
  simp only [hmid, Role.child, if_pos (idx0_lt v)]

/-- Where the entry exists, it is found. -/
theorem getPte_walk (hpaged : Paged role s) (hdir : role pgdir = .dir) (hla : ppn la < userPages)
    {q : Ptr} (hwalk : walk s.mem pgdir (ppn la) = some q) :
    Ends E (getPte alloc pgdir la create) s fun p t => p = some q ∧ t = s := by
  obtain ⟨h1, h0, rfl⟩ := walk_eq_some.mp hwalk
  have hmid := hpaged.tree.mid hdir hla h1
  have hlt1 := frame_lt hpaged (child_dir hdir hla) h1
  have hlt0 := frame_lt hpaged (child_mid hmid) h0
  unfold getPte
  rw [pdx1_eq, pdx0_eq, ptx_eq, ends_bind]
  apply (tableAt_valid h1 hlt1).imp
  rintro r t ⟨rfl, rfl⟩
  rw [ends_bind]
  apply (tableAt_valid h0 hlt0).imp
  rintro r t ⟨rfl, rfl⟩
  exact ⟨rfl, rfl⟩

/-- Without `create` nothing changes, and the entry that `walk` describes is found. -/
theorem getPte_false (hpaged : Paged role s) (hdir : role pgdir = .dir)
    (hla : ppn la < userPages) :
    Ends E (getPte alloc pgdir la false) s fun p t => p = walk s.mem pgdir (ppn la) ∧ t = s := by
  cases hwalk : walk s.mem pgdir (ppn la) with
  | some q => exact getPte_walk hpaged hdir hla hwalk
  | none =>
      unfold getPte
      rw [pdx1_eq, pdx0_eq, ptx_eq, ends_bind]
      cases h1 : valid (s.mem pgdir (idx1 (ppn la))) with
      | false =>
          apply (tableAt_invalid h1).imp
          rintro r t ⟨rfl, rfl⟩
          exact ⟨rfl, rfl⟩
      | true =>
          have h0 : valid (s.mem (frame (s.mem pgdir (idx1 (ppn la))))
              (idx0 (ppn la))) = false := by
            rw [← Bool.not_eq_true]
            intro h0
            rw [walk_eq_some.mpr ⟨h1, h0, rfl⟩] at hwalk
            cases hwalk
          apply (tableAt_valid h1 (frame_lt hpaged (child_dir hdir hla) h1)).imp
          rintro r t ⟨rfl, rfl⟩
          rw [ends_bind]
          apply (tableAt_invalid h0).imp
          rintro r t ⟨rfl, rfl⟩
          exact ⟨rfl, rfl⟩

end

/-- What `get_pte` needs from `alloc_page`, relative to an invariant that counts the
frames it may still use up: growing the tables keeps the invariant and takes one
frame for each table, and an allocation keeps it and leaves the tables where they
are; the frame handed out counts as free until it is used. -/
structure AllocSpec (E : Panic → Prop) (alloc : KernM (Option Nat)) (enough : Nat → Prop)
    (I : Nat → (Nat → Role) → Kern → Prop) : Prop where
  paged : ∀ k role s, I k role s → Paged role s
  grown : ∀ k role role' s t, I k role s → Paged role' t → Grown role role' s t →
    s.free.card = t.free.card + 1 → ∃ k', k = k' + 1 ∧ I k' role' t
  alloc : ∀ k role s, enough k → I k role s → Ends E alloc s fun r t => ∃ role',
    (∀ f, (role f).isTable = true → role' f = role f) ∧
    (∀ f, (role f).isDirectory = true → t.mem f = s.mem f) ∧
    match r with
    | none => I k role' t
    | some n => n ∉ t.free ∧ I k role' (t.giveBack n)

namespace AllocSpec

variable {alloc : KernM (Option Nat)} {enough : Nat → Prop} {I : Nat → (Nat → Role) → Kern → Prop}
  {role : Nat → Role} {f i k pgdir la : Nat} {ρ : Role}

/-- The table that an entry calls for, made if need be. -/
theorem tableAt (hspec : AllocSpec E alloc enough I) (hI : I k role s)
    (hroom : valid (s.mem f i) = false → enough k) (hchild : (role f).child f i = some ρ)
    (hf : (role f).isDirectory = true) :
    Ends E (tableAt alloc true ⟨f, i⟩) s fun r t => ∃ k' role', I k' role' t ∧
      Steady role role' s t ∧ ∀ g, r = some g →
        valid (t.mem f i) = true ∧ frame (t.mem f i) = g ∧
        (valid (s.mem f i) = true ∧ t = s ∧ k = k' ∨
          valid (s.mem f i) = false ∧ (t.mem g = fun _ => 0#64) ∧ k = k' + 1) := by
  have hpaged := hspec.paged _ _ _ hI
  cases hvalid : valid (s.mem f i) with
  | true =>
      apply (tableAt_valid hvalid (frame_lt hpaged hchild hvalid)).imp
      rintro r t ⟨rfl, rfl⟩
      exact ⟨k, role, hI, Steady.refl role _, fun g hg =>
        ⟨hvalid, Option.some.inj hg, Or.inl ⟨rfl, rfl, rfl⟩⟩⟩
  | false =>
      unfold Mm.tableAt
      simp only [ends_bind, ends_load, hvalid, Bool.false_eq_true, if_false, if_true]
      apply (hspec.alloc _ _ _ (hroom hvalid) hI).imp
      rintro r t ⟨role', hroles, hmem, halloc⟩
      have hsteady : Steady role role' s t := ⟨hroles, fun g j hg _ => by rw [hmem g hg]⟩
      cases r with
      | none => exact ⟨k, role', halloc, hsteady, fun g hg => by cases hg⟩
      | some n =>
          obtain ⟨hn, hI'⟩ := halloc
          have hpaged' := hspec.paged _ _ _ hI'
          have hrole := hroles f (Role.isTable_of_directory hf)
          have hchild' : (role' f).child f i = some ρ := hrole ▸ hchild
          have hinvalid : valid (t.mem f i) = false := by rw [hmem f hf, hvalid]
          have hfree : role' n = .free := (hpaged'.free n).mpr (Finset.mem_insert_self n _)
          have hlt : n < npage := hpaged'.bound n (by simp [hfree])
          have hfn : f ≠ n := by
            rintro rfl
            simp [hfree, Role.child] at hchild'
          have htype : IsPerm (PTE_U ||| PTE_V) := by decide
          obtain ⟨hpaged'', hgrown⟩ := hpaged'.install hn hchild' (hrole ▸ hf) hinvalid htype
          obtain ⟨k', hk, hI''⟩ := hspec.grown _ _ _ _ _ hI' hpaged'' hgrown
            (Finset.card_insert_of_notMem hn)
          simp only [ends_bind, ends_setPageRef, ends_fillPage, ends_store, ends_load, ends_map]
          apply ends_kaddr hlt
          have hentry : (t.mem.fill n fun _ => 0#64).write ⟨f, i⟩
              (pteCreate n (PTE_U ||| PTE_V)) f i = pteCreate n (PTE_U ||| PTE_V) := by simp
          have hframe := frame_pteCreate (Nat.lt_trans hlt (by decide)) htype
          simp only [Kern.write_mem, Kern.fill_mem, Kern.setRef_mem, hentry, hframe]
          apply ends_kaddr hlt
          refine ⟨k', _, hI'', hsteady.trans ⟨hgrown.steady.table, hgrown.steady.entry⟩, ?_⟩
          intro g hg
          obtain rfl := Option.some.inj hg
          simp only [Kern.write_mem, Kern.fill_mem, Kern.setRef_mem, hentry, hframe]
          refine ⟨valid_pteCreate _ _, trivial, Or.inr ⟨trivial, ?_, hk⟩⟩
          funext j
          simp [hfn.symm]

/-- `get_pte` with `create`: the tables grow, and an entry that is returned is
the one that `walk` describes. The tables that were missing have taken a frame each. -/
theorem getPte (hspec : AllocSpec E alloc enough I) (hI : I k role s) (hdir : role pgdir = .dir)
    (hla : ppn la < userPages) (hroom : ∀ j, k < j + missing s.mem pgdir (ppn la) → enough j) :
    Ends E (getPte alloc pgdir la true) s fun p t => ∃ k' role', I k' role' t ∧
      Steady role role' s t ∧ ∀ q, p = some q →
        walk t.mem pgdir (ppn la) = some q ∧ k = k' + missing s.mem pgdir (ppn la) := by
  unfold Mm.getPte
  rw [pdx1_eq, pdx0_eq, ptx_eq, ends_bind]
  have hroom1 : valid (s.mem pgdir (idx1 (ppn la))) = false → enough k := by
    intro hinvalid
    apply hroom
    simp [missing, hinvalid]
  apply (hspec.tableAt hI hroom1 (child_dir hdir hla) (by rw [hdir]; rfl)).imp
  rintro r t ⟨k₁, role', hI', hsteady, hfound⟩
  cases r with
  | none => exact ⟨k₁, role', hI', hsteady, fun q hq => by cases hq⟩
  | some g =>
      obtain ⟨h1, rfl, hcount⟩ := hfound g rfl
      have hdir' : role' pgdir = .dir := by rw [hsteady.table pgdir (by rw [hdir]; rfl), hdir]
      have hmid := (hspec.paged _ _ _ hI').tree.mid hdir' hla h1
      -- what the first table leaves to be made
      have hmissing : k + (if valid (t.mem (frame (t.mem pgdir (idx1 (ppn la)))) (idx0 (ppn la)))
          then 0 else 1) = k₁ + missing s.mem pgdir (ppn la) := by
        rcases hcount with ⟨hvalid, rfl, rfl⟩ | ⟨hinvalid, hzero, rfl⟩
        · rw [missing, if_pos hvalid]
        · rw [missing, hinvalid, hzero, valid_zero]
          simp
      have hroom0 : valid (t.mem (frame (t.mem pgdir (idx1 (ppn la)))) (idx0 (ppn la))) = false →
          enough k₁ := by
        intro hinvalid
        apply hroom
        rw [hinvalid, if_neg Bool.false_ne_true] at hmissing
        omega
      rw [ends_bind]
      apply (hspec.tableAt hI' hroom0 (child_mid hmid) (by rw [hmid]; rfl)).imp
      rintro r u ⟨k₂, role'', hI'', hsteady', hfound'⟩
      cases r with
      | none => exact ⟨k₂, role'', hI'', hsteady.trans hsteady', fun q hq => by cases hq⟩
      | some g' =>
          obtain ⟨h0, rfl, hcount'⟩ := hfound' g' rfl
          refine ⟨k₂, role'', hI'', hsteady.trans hsteady', fun q hq => ?_⟩
          obtain rfl := Option.some.inj hq
          have hpde1 := hsteady'.entry pgdir (idx1 (ppn la)) (by rw [hdir']; rfl) h1
          constructor
          · rw [walk_eq_some, hpde1]
            exact ⟨h1, h0, rfl⟩
          · rcases hcount' with ⟨hvalid, _, rfl⟩ | ⟨hinvalid, _, rfl⟩
            · rw [hvalid, if_pos rfl] at hmissing
              omega
            · rw [hinvalid, if_neg Bool.false_ne_true] at hmissing
              omega

end AllocSpec

/-! ## Without swapping -/

theorem Paged.nextTick {role : Nat → Role} (hpaged : Paged role s) : Paged role s.nextTick :=
  ⟨hpaged.tree, hpaged.linked, hpaged.free, hpaged.bound, hpaged.unref⟩

/-- A frame that is handed out and given back at once. -/
theorem Paged.giveBack_take {role : Nat → Role} (hpaged : Paged role s) {page : Nat}
    (hpage : page ∈ s.free) : (s.take page).giveBack page = s := by
  simp [Kern.giveBack, Kern.take, Finset.insert_erase hpage, ← hpaged.unref page hpage]

/-- Requests to the physical memory manager change nothing but its frames. -/
theorem allocPage_spec (al : Allocator) (role₀ : Nat → Role) (s₀ : Kern) :
    AllocSpec never al.allocPage (fun _ => True) fun k role s =>
      s.free.card = k ∧ Paged role s ∧ Grown role₀ role s₀ s := by
  constructor
  · exact fun _ _ _ hI => hI.2.1
  · rintro k role role' s t ⟨rfl, _, hold⟩ hpaged hgrown hcard
    exact ⟨t.free.card, hcard, rfl, hpaged, hold.trans hgrown⟩
  · rintro k role s _ ⟨rfl, hpaged, hgrown⟩
    have htick : Grown role₀ role s₀ s.nextTick :=
      ⟨hgrown.keep, hgrown.fresh, hgrown.entry, hgrown.leaf, hgrown.data, hgrown.ref, hgrown.swap⟩
    apply al.ends_allocPage
    · exact ⟨role, fun _ _ => rfl, fun _ _ => rfl, rfl, hpaged.nextTick, htick⟩
    · intro page hpage
      refine ⟨role, fun _ _ => rfl, fun _ _ => rfl, by simp, ?_⟩
      rw [hpaged.nextTick.giveBack_take hpage]
      exact ⟨rfl, hpaged.nextTick, htick⟩

/-- `get_pte` with `create`, without swapping. -/
theorem getPte_true (al : Allocator) {role : Nat → Role} (hpaged : Paged role s) {pgdir la : Nat}
    (hdir : role pgdir = .dir) (hla : ppn la < userPages) :
    Ends E (getPte al.allocPage pgdir la true) s fun p t => ∃ role', Paged role' t ∧
      Grown role role' s t ∧ ∀ q, p = some q → walk t.mem pgdir (ppn la) = some q := by
  apply ((allocPage_spec al role s).getPte ⟨rfl, hpaged, Grown.refl role s⟩ hdir hla
    fun _ _ => trivial).lift
  rintro p t ⟨_, role', ⟨_, hpaged', hgrown⟩, _, hfound⟩
  exact ⟨role', hpaged', hgrown, fun q hq => (hfound q hq).1⟩

end Ucore.Mm
