import Ucore.Mm.Range

/-!
# Taking page tables down

`exit_range` gives page tables back, and `put_pgdir` the page directory. Tables
below a table that is given back, if there are any, are lost: no page directory
leads to them, and they are not free either.
-/

namespace Ucore.Mm

open Mmu Machine Finset

variable {E : Panic → Prop} {s t u : Kern} {role role' role'' : Nat → Role}

/-! ## Giving back one table -/

/-- A frame in use `ρ'` is a table below the table `n` of use `ρ`. -/
def Role.below : Role → Nat → Role → Bool
  | .dir, n, .mid pgdir _ => pgdir == n
  | .dir, n, .tab pgdir _ => pgdir == n
  | .mid pgdir i, _, .tab pgdir' k => pgdir' == pgdir && k / 512 == i
  | _, _, _ => false

/-- The table `n` has been given back. -/
def prune (role : Nat → Role) (n f : Nat) : Role :=
  if f = n then .free else if (role n).below n (role f) then .other else role f

theorem Role.below_isTable {ρ ρ' : Role} {n : Nat} (hbelow : ρ.below n ρ' = true) :
    ρ'.isTable = true ∧ ρ' ≠ .dir := by
  cases ρ <;> cases ρ' <;> simp [Role.below, Role.isTable] at hbelow ⊢

/-- The tables that a table points to are below it. -/
theorem Role.below_child {ρ ρ' : Role} {n i : Nat} (hchild : ρ.child n i = some ρ')
    (htable : ρ'.isTable = true) : ρ.below n ρ' = true := by
  cases ρ with
  | dir =>
      rw [Role.child, Option.ite_none_right_eq_some, Option.some.injEq] at hchild
      rw [← hchild.2]
      simp [Role.below]
  | mid pgdir j =>
      rw [Role.child, Option.ite_none_right_eq_some, Option.some.injEq] at hchild
      rw [← hchild.2]
      simp only [Role.below, beq_self_eq_true, Bool.true_and, beq_iff_eq]
      omega
  | tab =>
      rw [Role.child, Option.ite_none_right_eq_some, Option.some.injEq] at hchild
      rw [← hchild.2] at htable
      cases htable
  | _ => cases hchild

theorem prune_self (role : Nat → Role) (n : Nat) : prune role n n = .free := if_pos rfl

theorem prune_below {n f : Nat} (hne : f ≠ n) (hbelow : (role n).below n (role f) = true) :
    prune role n f = .other := by
  rw [prune, if_neg hne, if_pos hbelow]

theorem prune_keep {n f : Nat} (hne : f ≠ n) (hbelow : ¬ (role n).below n (role f) = true) :
    prune role n f = role f := by
  rw [prune, if_neg hne, if_neg hbelow]

theorem prune_isTable {n f : Nat} (htable : (prune role n f).isTable = true) :
    f ≠ n ∧ ¬ (role n).below n (role f) = true ∧ prune role n f = role f := by
  have hne : f ≠ n := by
    rintro rfl
    rw [prune_self] at htable
    cases htable
  have hbelow : ¬ (role n).below n (role f) = true := by
    intro hbelow
    rw [prune_below hne hbelow] at htable
    cases htable
  exact ⟨hne, hbelow, prune_keep hne hbelow⟩

theorem prune_data {n f : Nat} (htable : (role n).isTable = true) :
    prune role n f = .data ↔ role f = .data := by
  by_cases hne : f = n
  · rw [hne, prune_self]
    exact iff_of_false Role.noConfusion fun hdata => by rw [hdata] at htable; cases htable
  · by_cases hbelow : (role n).below n (role f) = true
    · rw [prune_below hne hbelow]
      refine iff_of_false Role.noConfusion fun hdata => ?_
      have := (Role.below_isTable hbelow).1
      rw [hdata] at this
      cases this
    · rw [prune_keep hne hbelow]

/-- Two entries for the same table are one. -/
theorem Linked.unique {m : Memory} (hlinked : Linked role m) {f f' i i' : Nat} {ρ : Role}
    (hchild : (role f).child f i = some ρ) (hchild' : (role f').child f' i' = some ρ)
    (htable : ρ.isTable = true) : f = f' ∧ i = i' := by
  have hcases : ∀ g j, (role g).child g j = some ρ →
      (role g = .dir ∧ ρ = .mid g j) ∨
        ∃ pgdir k, role g = .mid pgdir k ∧ j < 512 ∧ ρ = .tab pgdir (512 * k + j) := by
    intro g j hg
    cases hrole : role g with
    | dir =>
        rw [hrole, Role.child, Option.ite_none_right_eq_some, Option.some.injEq] at hg
        exact Or.inl ⟨rfl, hg.2.symm⟩
    | mid pgdir k =>
        rw [hrole, Role.child, Option.ite_none_right_eq_some, Option.some.injEq] at hg
        exact Or.inr ⟨pgdir, k, rfl, hg.1, hg.2.symm⟩
    | tab pgdir k =>
        rw [hrole, Role.child, Option.ite_none_right_eq_some, Option.some.injEq] at hg
        rw [← hg.2] at htable
        cases htable
    | _ =>
        rw [hrole] at hg
        cases hg
  rcases hcases f i hchild with ⟨_, rfl⟩ | ⟨pgdir, k, hmid, hj, rfl⟩
  · rcases hcases f' i' hchild' with ⟨_, heq⟩ | ⟨_, _, _, _, heq⟩
    · rw [Role.mid.injEq] at heq
      exact heq
    · cases heq
  · rcases hcases f' i' hchild' with ⟨_, heq⟩ | ⟨pgdir', k', hmid', hj', heq⟩
    · cases heq
    · rw [Role.tab.injEq] at heq
      obtain ⟨rfl, heq⟩ := heq
      obtain rfl : k = k' := by omega
      have hf := (Tree.parent_mid hlinked hmid).2.2.2
      have hf' := (Tree.parent_mid hlinked hmid').2.2.2
      exact ⟨hf.symm.trans hf', by omega⟩

/-- What points to a table below `n` is `n` or is itself below `n`. -/
theorem Linked.below_parent {m : Memory} (hlinked : Linked role m) {f i n : Nat} {ρ : Role}
    (hchild : (role f).child f i = some ρ) (hbelow : (role n).below n ρ = true) :
    f = n ∨ (role n).below n (role f) = true := by
  cases hf : role f with
  | dir =>
      rw [hf, Role.child, Option.ite_none_right_eq_some, Option.some.injEq] at hchild
      rw [← hchild.2] at hbelow
      cases hn : role n with
      | dir =>
          rw [hn, Role.below, beq_iff_eq] at hbelow
          exact Or.inl hbelow
      | _ => simp [hn, Role.below] at hbelow
  | mid pgdir k =>
      rw [hf, Role.child, Option.ite_none_right_eq_some, Option.some.injEq] at hchild
      rw [← hchild.2] at hbelow
      cases hn : role n with
      | dir =>
          rw [hn] at hbelow
          exact Or.inr hbelow
      | mid pgdir' k' =>
          rw [hn, Role.below, Bool.and_eq_true, beq_iff_eq, beq_iff_eq] at hbelow
          obtain ⟨rfl, hk⟩ := hbelow
          obtain rfl : k = k' := by omega
          have hparent := (Tree.parent_mid hlinked hf).2.2.2
          have hparent' := (Tree.parent_mid hlinked hn).2.2.2
          exact Or.inl (hparent.symm.trans hparent')
      | _ => simp [hn, Role.below] at hbelow
  | tab pgdir k =>
      rw [hf, Role.child, Option.ite_none_right_eq_some, Option.some.injEq] at hchild
      rw [← hchild.2] at hbelow
      have := (Role.below_isTable hbelow).1
      cases this
  | _ =>
      rw [hf] at hchild
      cases hchild

/-- The entries of `t` are those of `s`, but for the one that led to the table `n`. -/
structure Unlinked (role : Nat → Role) (s t : Kern) (n : Nat) : Prop where
  entry : ∀ f i, t.mem f i = s.mem f i ∨
    (role f).child f i = some (role n) ∧ frame (s.mem f i) = n ∧ t.mem f i = 0#64
  gone : ∀ f i, (role f).child f i = some (role n) → valid (t.mem f i) = false

/-- A table that no entry leads to any more is given back. -/
theorem Paged.prune (hpaged : Paged role s) {n : Nat} (htable : (role n).isTable = true)
    (hentry : Unlinked role s t n) (hfree : t.free = insert n s.free)
    (href : t.ref = Function.update s.ref n 0) : Paged (prune role n) t := by
  have hkeep : ∀ f i, valid (t.mem f i) = true → t.mem f i = s.mem f i := by
    intro f i hvalid
    rcases hentry.entry f i with heq | ⟨_, _, hzero⟩
    · exact heq
    · rw [hzero, valid_zero] at hvalid
      cases hvalid
  constructor
  · -- what is still linked was linked, and is not below `n`
    intro f i ρ hchild hvalid
    have hf : (Mm.prune role n f).isTable = true := by
      by_contra hno
      rw [Bool.not_eq_true] at hno
      rw [Role.child_eq_none hno] at hchild
      cases hchild
    obtain ⟨hfn, hfbelow, hfrole⟩ := prune_isTable hf
    rw [hfrole] at hchild
    have hrole := hpaged.tree f i ρ hchild (hkeep f i hvalid ▸ hvalid)
    rw [← hkeep f i hvalid] at hrole
    have hne : frame (t.mem f i) ≠ n := by
      rintro heq
      rw [heq] at hrole
      rw [hentry.gone f i (hrole ▸ hchild)] at hvalid
      cases hvalid
    have hbelow : ¬ (role n).below n (role (frame (t.mem f i))) = true := by
      rw [hrole]
      intro hbelow
      rcases hpaged.linked.below_parent hchild hbelow with heq | hbelow'
      · exact hfn heq
      · exact hfbelow hbelow'
    rw [prune_keep hne hbelow, hrole]
  · -- who is left still has its entry: only that of `n` was cleared
    intro g hg hgdir
    obtain ⟨hgn, hgbelow, hgrole⟩ := prune_isTable hg
    rw [hgrole] at hg hgdir ⊢
    obtain ⟨f, i, hchild, hvalid, hframe⟩ := hpaged.linked g hg hgdir
    have hfn : f ≠ n := by
      rintro rfl
      exact hgbelow (Role.below_child hchild hg)
    have hfbelow : ¬ (role n).below n (role f) = true := by
      intro hbelow
      cases hn : role n with
      | dir =>
          obtain ⟨pgdir, k, hf⟩ | ⟨pgdir, k, hf⟩ :
              (∃ pgdir k, role f = .mid pgdir k) ∨ ∃ pgdir k, role f = .tab pgdir k := by
            rw [hn] at hbelow
            cases hf : role f <;> simp [hf, Role.below] at hbelow ⊢
          · rw [hn, hf] at hbelow
            rw [hf, Role.child, Option.ite_none_right_eq_some, Option.some.injEq] at hchild
            rw [hn, ← hchild.2] at hgbelow
            exact hgbelow hbelow
          · rw [hf, Role.child, Option.ite_none_right_eq_some, Option.some.injEq] at hchild
            rw [← hchild.2] at hg
            cases hg
      | mid pgdir' k' =>
          obtain ⟨pgdir, k, hf⟩ : ∃ pgdir k, role f = .tab pgdir k := by
            rw [hn] at hbelow
            cases hf : role f <;> simp [hf, Role.below] at hbelow ⊢
          rw [hf, Role.child, Option.ite_none_right_eq_some, Option.some.injEq] at hchild
          rw [← hchild.2] at hg
          cases hg
      | _ => simp [hn, Role.below] at hbelow
    have hsame : t.mem f i = s.mem f i := by
      rcases hentry.entry f i with heq | ⟨_, heq, _⟩
      · exact heq
      · exact absurd (hframe.symm.trans heq) hgn
    exact ⟨f, i, by rwa [prune_keep hfn hfbelow], hsame.symm ▸ hvalid, hsame.symm ▸ hframe⟩
  · -- the free frames are those that have no role any more: `n` is one now
    intro f
    rw [hfree, mem_insert]
    by_cases hfn : f = n
    · simp [hfn, prune_self]
    · by_cases hbelow : (role n).below n (role f) = true
      · rw [prune_below hfn hbelow, ← hpaged.free f]
        have hf := (Role.below_isTable hbelow).1
        refine iff_of_false Role.noConfusion fun hno => ?_
        rcases hno with heq | hfree
        · exact hfn heq
        · rw [hfree] at hf
          cases hf
      · rw [prune_keep hfn hbelow, hpaged.free f]
        simp [hfn]
  · intro f hf
    apply hpaged.bound
    intro hother
    by_cases hfn : f = n
    · rw [← hfn, hother] at htable
      cases htable
    · by_cases hbelow : (role n).below n (role f) = true
      · exact hf (prune_below hfn hbelow)
      · exact hf ((prune_keep hfn hbelow).trans hother)
  · intro f hf
    rw [hfree, mem_insert] at hf
    rw [href, Function.update_apply]
    split
    next => rfl
    next hfn => exact hpaged.unref f (hf.resolve_left hfn)

/-! ## A directory without pages -/

/-- No user page is mapped by the page directory. -/
def DirEmpty (m : Memory) (pgdir : Nat) : Prop :=
  ∀ v, v < userPages → valid (leaf m pgdir v) = false

/-- Tables of `pgdir`, which maps no page, have been taken down. -/
structure Pruned (pgdir : Nat) (role role' : Nat → Role) (s t : Kern) : Prop where
  data : ∀ f, role' f = .data ↔ role f = .data
  contents : ∀ f, role f = .data → t.mem f = s.mem f ∧ t.ref f = s.ref f
  leaf : ∀ pgdir' v, role pgdir' = .dir → pgdir' ≠ pgdir → v < userPages →
    leaf t.mem pgdir' v = leaf s.mem pgdir' v
  empty : DirEmpty s.mem pgdir → DirEmpty t.mem pgdir
  dir : ∀ f, f ≠ pgdir → (role' f = .dir ↔ role f = .dir)
  rest : ∀ f, role f = .other → role' f = .other ∧ t.ref f = s.ref f
  free : ∀ f, role f = .free → role' f = .free
  swap : t.swap = s.swap

theorem Pruned.refl (pgdir : Nat) (role : Nat → Role) (s : Kern) : Pruned pgdir role role s s :=
  ⟨fun _ => Iff.rfl, fun _ _ => ⟨rfl, rfl⟩, fun _ _ _ _ _ => rfl, fun h => h, fun _ _ => Iff.rfl,
    fun _ hf => ⟨hf, rfl⟩, fun _ hf => hf, rfl⟩

theorem Pruned.trans {pgdir : Nat} (h : Pruned pgdir role role' s t)
    (h' : Pruned pgdir role' role'' t u) : Pruned pgdir role role'' s u := by
  constructor
  · exact fun f => (h'.data f).trans (h.data f)
  · intro f hf
    obtain ⟨hmem, href⟩ := h.contents f hf
    obtain ⟨hmem', href'⟩ := h'.contents f ((h.data f).mpr hf)
    exact ⟨hmem'.trans hmem, href'.trans href⟩
  · intro pgdir' v hdir hne hv
    rw [h'.leaf pgdir' v ((h.dir pgdir' hne).mpr hdir) hne hv, h.leaf pgdir' v hdir hne hv]
  · exact fun hempty => h'.empty (h.empty hempty)
  · exact fun f hf => (h'.dir f hf).trans (h.dir f hf)
  · intro f hf
    obtain ⟨hother, href⟩ := h.rest f hf
    obtain ⟨hother', href'⟩ := h'.rest f hother
    exact ⟨hother', href'.trans href⟩
  · exact fun f hf => h'.free f (h.free f hf)
  · exact h'.swap.trans h.swap

/-- No mapping is lost. -/
theorem Pruned.mappings {pgdir : Nat} (h : Pruned pgdir role role' s t)
    (hempty : DirEmpty s.mem pgdir) (f : Nat) :
    mappings role' t.mem f = mappings role s.mem f := by
  ext p
  rw [mem_mappings, mem_mappings]
  by_cases hp : p.1 = pgdir
  · rw [hp]
    constructor
    · rintro ⟨_, hv, _, hvalid, _⟩
      rw [h.empty hempty p.2 hv] at hvalid
      cases hvalid
    · rintro ⟨_, hv, _, hvalid, _⟩
      rw [hempty p.2 hv] at hvalid
      cases hvalid
  · rw [h.dir p.1 hp]
    constructor
    · rintro ⟨hlt, hv, hdir, hmaps⟩
      exact ⟨hlt, hv, hdir, h.leaf p.1 p.2 hdir hp hv ▸ hmaps⟩
    · rintro ⟨hlt, hv, hdir, hmaps⟩
      exact ⟨hlt, hv, hdir, (h.leaf p.1 p.2 hdir hp hv).symm ▸ hmaps⟩

theorem Pruned.excess {pgdir : Nat} (h : Pruned pgdir role role' s t)
    (hempty : DirEmpty s.mem pgdir) {f : Nat} (hf : role f = .data) :
    excess role' t f = excess role s f := by
  rw [Mm.excess, Mm.excess, h.mappings hempty, (h.contents f hf).2]

/-- Clearing an entry of a directory takes entries for page numbers away. -/
theorem Tree.leaf_clear {m : Memory} (htree : Tree role m) {p : Ptr} {pgdir v : Nat}
    (hp : (role p.page).isDirectory = true) (hdir : role pgdir = .dir) (hv : v < userPages) :
    leaf (m.write p 0#64) pgdir v = leaf m pgdir v ∨ leaf (m.write p 0#64) pgdir v = 0#64 := by
  have hkeep : ∀ f i, valid (m.write p 0#64 f i) = true → m.write p 0#64 f i = m f i := by
    intro f i hvalid
    rw [Memory.write_apply] at hvalid ⊢
    split at hvalid
    next => cases hvalid
    next hne => rw [if_neg hne]
  cases hwalk : walk (m.write p 0#64) pgdir v with
  | none =>
      right
      rw [leaf, hwalk]
  | some q =>
      left
      obtain ⟨h1, h0, hq⟩ := walk_eq_some.mp hwalk
      have h1' := hkeep _ _ h1
      rw [h1'] at h0 hq
      have h0' := hkeep _ _ h0
      rw [h0'] at hq
      have hwalk' : walk m pgdir v = some q := walk_eq_some.mpr ⟨h1' ▸ h1, h0' ▸ h0, hq⟩
      rw [leaf_of_walk hwalk, leaf_of_walk hwalk', m.write_of_ne]
      rintro heq
      rw [← heq, (htree.tab hdir hv hwalk').1] at hp
      cases hp

/-- A lower directory or page table of a page directory that maps no page is
given back, and its entry is cleared. -/
theorem Paged.giveBack_table (hpaged : Paged role s) {pgdir n f i : Nat}
    (hdir : role pgdir = .dir) (hf : f = pgdir ∨ ∃ j, role f = .mid pgdir j)
    (hchild : (role f).child f i = some (role n)) (htable : (role n).isTable = true)
    (hframe : frame (s.mem f i) = n) :
    let t := (s.giveBack n).write ⟨f, i⟩ 0#64
    Paged (Mm.prune role n) t ∧ Pruned pgdir role (Mm.prune role n) s t := by
  intro t
  have hdirectory : (role f).isDirectory = true := by
    rcases hf with rfl | ⟨j, hf⟩
    · rw [hdir]
      rfl
    · rw [hf]
      rfl
  have hne : role n ≠ .dir := Role.child_ne_dir hchild
  have hentry : Unlinked role s t n := by
    constructor
    · intro g j
      by_cases heq : g = f ∧ j = i
      · obtain ⟨rfl, rfl⟩ := heq
        exact Or.inr ⟨hchild, hframe, by simp [t]⟩
      · left
        simp [t, heq]
    · intro g j hg
      obtain ⟨rfl, rfl⟩ := hpaged.linked.unique hg hchild htable
      simp [t]
  have hmem : ∀ g, g ≠ f → t.mem g = s.mem g := fun g hg => s.mem.write_of_ne _ _ hg
  have hplain : ∀ g, (role g).isTable = false → Mm.prune role n g = role g := by
    intro g hg
    apply prune_keep
    · rintro rfl
      rw [hg] at htable
      cases htable
    · intro hbelow
      rw [(Role.below_isTable hbelow).1] at hg
      cases hg
  have href : ∀ g, (role g).isTable = false → t.ref g = s.ref g := by
    intro g hg
    have hgn : g ≠ n := by
      rintro rfl
      rw [hg] at htable
      cases htable
    simp [t, hgn]
  refine ⟨hpaged.prune htable hentry rfl rfl, fun g => prune_data htable, fun g hg => ⟨?_, ?_⟩, ?_,
    ?_, ?_, ?_, ?_, rfl⟩
  · apply hmem
    rintro rfl
    rw [hg] at hdirectory
    cases hdirectory
  · exact href g (by rw [hg]; rfl)
  · intro pgdir' v hdir' hother hv
    have howner : ∀ g, (role g = .dir ∧ g = pgdir') ∨ (∃ j, role g = .mid pgdir' j) ∨
        (∃ k, role g = .tab pgdir' k) → g ≠ f := by
      rintro g hg rfl
      rcases hf with rfl | ⟨j, hf⟩
      · rcases hg with ⟨_, rfl⟩ | ⟨j, hg⟩ | ⟨k, hg⟩
        · exact hother rfl
        · rw [hdir] at hg
          cases hg
        · rw [hdir] at hg
          cases hg
      · rcases hg with ⟨hg, _⟩ | ⟨j', hg⟩ | ⟨k, hg⟩
        · rw [hf] at hg
          cases hg
        · rw [hf, Role.mid.injEq] at hg
          exact hother hg.1.symm
        · rw [hf] at hg
          cases hg
    apply hpaged.tree.leaf_congr hdir' hv
    · exact hmem pgdir' (howner pgdir' (Or.inl ⟨hdir', rfl⟩))
    · exact fun g j hg => hmem g (howner g (Or.inr (Or.inl ⟨j, hg⟩)))
    · exact fun g k hg => hmem g (howner g (Or.inr (Or.inr ⟨k, hg⟩)))
  · intro hempty v hv
    have hclear := hpaged.tree.leaf_clear (p := ⟨f, i⟩) hdirectory hdir hv
    rw [show t.mem = s.mem.write ⟨f, i⟩ 0#64 from rfl]
    rcases hclear with heq | hzero
    · rw [heq, hempty v hv]
    · rw [hzero, valid_zero]
  · intro g _
    by_cases hgn : g = n
    · subst hgn
      rw [prune_self]
      exact iff_of_false Role.noConfusion hne
    · by_cases hbelow : (role n).below n (role g) = true
      · rw [prune_below hgn hbelow]
        exact iff_of_false Role.noConfusion (Role.below_isTable hbelow).2
      · rw [prune_keep hgn hbelow]
  · exact fun g hg => ⟨(hplain g (by rw [hg]; rfl)).trans hg, href g (by rw [hg]; rfl)⟩
  · exact fun g hg => (hplain g (by rw [hg]; rfl)).trans hg

/-- The page directory itself is given back. -/
theorem Paged.giveBack_dir (hpaged : Paged role s) {pgdir : Nat} (hdir : role pgdir = .dir) :
    Paged (Mm.prune role pgdir) (s.giveBack pgdir) ∧
      Pruned pgdir role (Mm.prune role pgdir) s (s.giveBack pgdir) := by
  have htable : (role pgdir).isTable = true := by
    rw [hdir]
    rfl
  have hentry : Unlinked role s (s.giveBack pgdir) pgdir := by
    refine ⟨fun _ _ => Or.inl rfl, fun f i hchild => ?_⟩
    exact absurd hdir (Role.child_ne_dir hchild)
  have hplain : ∀ g, (role g).isTable = false → Mm.prune role pgdir g = role g ∧
      (s.giveBack pgdir).ref g = s.ref g := by
    intro g hg
    have hne : g ≠ pgdir := by
      rintro rfl
      rw [hg] at htable
      cases htable
    refine ⟨prune_keep hne fun hbelow => ?_, by simp [hne]⟩
    rw [(Role.below_isTable hbelow).1] at hg
    cases hg
  refine ⟨hpaged.prune htable hentry rfl rfl, fun g => prune_data htable,
    fun g hg => ⟨rfl, (hplain g (by rw [hg]; rfl)).2⟩, fun _ _ _ _ _ => rfl, fun h => h, ?_, ?_, ?_,
    rfl⟩
  · intro g hg
    by_cases hbelow : (role pgdir).below pgdir (role g) = true
    · rw [prune_below hg hbelow]
      exact iff_of_false Role.noConfusion (Role.below_isTable hbelow).2
    · rw [prune_keep hg hbelow]
  · intro g hg
    obtain ⟨hrole, href⟩ := hplain g (by rw [hg]; rfl)
    exact ⟨hrole.trans hg, href⟩
  · exact fun g hg => ((hplain g (by rw [hg]; rfl)).1).trans hg

/-! ## `exit_range` -/

theorem ends_pa2page {page : Nat} {Q : Nat → Kern → Prop} (hpage : page < npage) (hQ : Q page s) :
    Ends E (pa2page page) s Q := by
  unfold pa2page
  rw [if_neg (Nat.not_le_of_lt hpage)]
  exact hQ

/-- The addresses at which a lower directory starts. -/
theorem mul_PDSIZE (i : Nat) : PDSIZE * i = PTSIZE * (512 * i) := Nat.mul_assoc PTSIZE 512 i

theorem Role.below_tab {pgdir k n : Nat} (ρ : Role) : Role.below (.tab pgdir k) n ρ = false := rfl

theorem exitPt_spec {pgdir pd0 i j : Nat} (hpaged : Paged role s) (hmid : role pd0 = .mid pgdir i)
    (hle : 512 * i ≤ j) (hlt : j < 512 * (i + 1)) :
    Ends E (exitPt pd0 (PTSIZE * j)) s fun _ t => ∃ role', Paged role' t ∧
      Pruned pgdir role role' s t ∧ role' pd0 = .mid pgdir i ∧ t.mem pgdir = s.mem pgdir := by
  have hindex : pdx0 (PTSIZE * j) = j - 512 * i := by
    rw [pdx0_eq, ppn_eq]
    unfold PTSIZE PGSIZE
    omega
  have hchild : (role pd0).child pd0 (j - 512 * i) = some (.tab pgdir j) := by
    have hj : j - 512 * i < 512 := by omega
    have hsum : 512 * i + (j - 512 * i) = j := by omega
    rw [hmid, Role.child, if_pos hj, hsum]
  have hdir := (Tree.parent_mid hpaged.linked hmid).1
  have hsame : ∃ role', Paged role' s ∧ Pruned pgdir role role' s s ∧ role' pd0 = .mid pgdir i ∧
      s.mem pgdir = s.mem pgdir := ⟨role, hpaged, Pruned.refl pgdir role s, hmid, rfl⟩
  unfold exitPt
  rw [hindex]
  simp only [ends_bind, ends_load]
  split
  next hvalid =>
    have htab := hpaged.tree _ _ _ hchild hvalid
    have hbound : frame (s.mem pd0 (j - 512 * i)) < npage := hpaged.bound _ (by simp [htab])
    simp only [ends_bind]
    apply ends_pa2page hbound
    apply ends_kaddr hbound
    refine ends_ptEmpty fun empty => ?_
    split
    next =>
      rw [ends_bind]
      apply ends_pa2page hbound
      have hnotfree : frame (s.mem pd0 (j - 512 * i)) ∉ s.free := by
        rw [← hpaged.free, htab]
        exact Role.noConfusion
      rw [ends_bind]
      apply ends_freePage hnotfree
      obtain ⟨hpaged', hpruned⟩ := hpaged.giveBack_table hdir (Or.inr ⟨i, hmid⟩)
        (by rw [hchild, htab]) (by rw [htab]; rfl) rfl
      refine ⟨_, hpaged', hpruned, ?_, ?_⟩
      · rw [prune_keep, hmid]
        · rintro heq
          rw [heq, htab] at hmid
          cases hmid
        · rw [htab, Role.below_tab]
          exact Bool.false_ne_true
      · apply Memory.write_of_ne
        rintro rfl
        rw [hdir] at hmid
        cases hmid
    next => exact hsame
  next => exact hsame

theorem exitPd0_spec {pgdir pd0 i j stop : Nat} (hpaged : Paged role s)
    (hmid : role pd0 = .mid pgdir i) (hle : 512 * i ≤ j) (hlt : j < 512 * (i + 1)) :
    Ends E (exitPd0 pd0 (PDSIZE * i) (PTSIZE * j) stop) s fun _ t => ∃ role', Paged role' t ∧
      Pruned pgdir role role' s t ∧ role' pd0 = .mid pgdir i ∧ t.mem pgdir = s.mem pgdir := by
  unfold exitPd0
  have hloop := @rangeLoop_spec E Bool PTSIZE (512 * (i + 1))
    (fun d0start => d0start ≠ 0 ∧ d0start < PDSIZE * i + PDSIZE ∧ d0start < stop)
    (fun d0start freePd0 => (freePd0 && ·) <$> exitPt pd0 d0start)
    (fun j _ t => 512 * i ≤ j ∧ ∃ role', Paged role' t ∧ Pruned pgdir role role' s t ∧
      role' pd0 = .mid pgdir i ∧ t.mem pgdir = s.mem pgdir) ?_ ?_ 512 j true s hlt (by omega)
    ⟨hle, role, hpaged, Pruned.refl pgdir role s, hmid, rfl⟩
  · apply hloop.imp
    rintro _ t ⟨_, _, _, _, _, hdone⟩
    exact hdone
  · intro j hmore
    rw [decide_eq_true_eq] at hmore
    have hbehind := hmore.2.1
    rw [← Nat.mul_succ, mul_PDSIZE] at hbehind
    exact Nat.lt_of_mul_lt_mul_left hbehind
  · rintro j _ t hj ⟨hle', role', hpaged', hpruned, hmid', hmem⟩
    rw [ends_map]
    apply (exitPt_spec hpaged' hmid' hle' hj).imp
    rintro _ u ⟨role'', hpaged'', hpruned', hmid'', hmem'⟩
    exact ⟨Nat.le_succ_of_le hle', role'', hpaged'', hpruned.trans hpruned', hmid'',
      hmem'.trans hmem⟩

theorem exitPd1_spec {pgdir i j stop : Nat} (hi : i < 511) (hpaged : Paged role s)
    (hdir : role pgdir = .dir) (hle : 512 * i ≤ j) (hlt : j < 512 * (i + 1)) :
    Ends E (exitPd1 pgdir stop (PDSIZE * i) (PTSIZE * j)) s fun next t =>
      next = PTSIZE * (512 * (i + 1)) ∧ ∃ role', Paged role' t ∧ Pruned pgdir role role' s t ∧
        role' pgdir = .dir := by
  have hindex : pdx1 (PDSIZE * i) = i := by
    rw [pdx1_eq, ppn_eq]
    unfold PDSIZE PTSIZE PGSIZE
    omega
  have hchild : (role pgdir).child pgdir i = some (.mid pgdir i) := by
    rw [hdir, Role.child, if_pos hi]
  have hnext : PDSIZE * i + PDSIZE = PTSIZE * (512 * (i + 1)) := by
    rw [← Nat.mul_succ, mul_PDSIZE]
  unfold exitPd1
  rw [hindex, hnext]
  simp only [ends_bind, ends_load]
  split
  next hvalid =>
    have hmid := hpaged.tree _ _ _ hchild hvalid
    have hbound : frame (s.mem pgdir i) < npage := hpaged.bound _ (by simp [hmid])
    simp only [ends_bind]
    apply ends_pa2page hbound
    apply ends_kaddr hbound
    apply (exitPd0_spec hpaged hmid hle hlt).imp
    rintro freePd0 t ⟨role', hpaged', hpruned, hmid', hmem⟩
    have hdir' := (Tree.parent_mid hpaged'.linked hmid').1
    split
    next =>
      have hnotfree : frame (s.mem pgdir i) ∉ t.free := by
        rw [← hpaged'.free, hmid']
        exact Role.noConfusion
      rw [ends_bind]
      apply ends_pa2page hbound
      rw [ends_bind]
      apply ends_freePage hnotfree
      obtain ⟨hpaged'', hpruned'⟩ := hpaged'.giveBack_table (n := frame (s.mem pgdir i)) (i := i)
        hdir' (Or.inl rfl) (by rw [hdir', hmid', Role.child, if_pos hi]) (by rw [hmid']; rfl)
        (by rw [hmem])
      refine ⟨rfl, _, hpaged'', hpruned.trans hpruned', ?_⟩
      rw [prune_keep, hdir']
      · rintro heq
        rw [← heq, hdir'] at hmid'
        cases hmid'
      · rw [hmid', hdir']
        exact Bool.false_ne_true
    next => exact ⟨rfl, role', hpaged', hpruned, hdir'⟩
  next => exact ⟨rfl, role, hpaged, Pruned.refl pgdir role s, hdir⟩

/-- `exit_range` on a range of user addresses. -/
theorem exitRange_spec (hpaged : Paged role s) {vma : VmaStruct} (hvma : vma.Ok) {pgdir : Nat}
    (hdir : role pgdir = .dir) :
    Ends E (exitRange pgdir vma.vmStart vma.vmEnd) s fun _ t => ∃ role', Paged role' t ∧
      Pruned pgdir role role' s t ∧ role' pgdir = .dir := by
  unfold exitRange checkRange
  rw [if_neg (not_not.mpr hvma.aligned), if_neg (not_not.mpr hvma.user), ends_bind, ends_pure,
    ends_bind]
  obtain ⟨_, hlt, htop⟩ := hvma.user
  have hd1 : rounddown vma.vmStart PDSIZE = PDSIZE * (vma.vmStart / PDSIZE) := by
    unfold rounddown
    have := Nat.div_add_mod vma.vmStart PDSIZE
    omega
  have hd0 : rounddown vma.vmStart PTSIZE = PTSIZE * (vma.vmStart / PTSIZE) := by
    unfold rounddown
    have := Nat.div_add_mod vma.vmStart PTSIZE
    omega
  have hquot : vma.vmStart / PDSIZE = vma.vmStart / PTSIZE / 512 := by
    have hsize : PDSIZE = PTSIZE * 512 := rfl
    rw [hsize, Nat.div_div_eq_div_mul]
  have hmono : vma.vmStart / PDSIZE ≤ vma.vmEnd / PDSIZE := Nat.div_le_div_right hlt.le
  have hlast : vma.vmEnd / PDSIZE < 511 := by
    unfold USERTOP at htop
    unfold PDSIZE PTSIZE PGSIZE
    omega
  rw [hd1, hd0]
  have hloop := @rangeLoop_spec E Nat PDSIZE (vma.vmEnd / PDSIZE + 1)
    (fun d1start => d1start ≠ 0 ∧ d1start < vma.vmEnd) (exitPd1 pgdir vma.vmEnd)
    (fun i d0start t => ∃ j, d0start = PTSIZE * j ∧ 512 * i ≤ j ∧ j < 512 * (i + 1) ∧
      ∃ role', Paged role' t ∧ Pruned pgdir role role' s t ∧ role' pgdir = .dir) ?_ ?_
    (vma.vmEnd / PDSIZE + 1) (vma.vmStart / PDSIZE) (PTSIZE * (vma.vmStart / PTSIZE)) s
    (Nat.lt_succ_of_le hmono) (Nat.sub_le _ _)
    ⟨_, rfl, by omega, by omega, role, hpaged, Pruned.refl pgdir role s, hdir⟩
  · apply hloop.imp
    rintro _ t ⟨_, _, _, _, _, _, _, _, hdone⟩
    exact hdone
  · intro i hmore
    rw [decide_eq_true_eq] at hmore
    have hle : i + 1 ≤ vma.vmEnd / PDSIZE := by
      rw [Nat.le_div_iff_mul_le (by decide), Nat.mul_comm]
      exact hmore.2.le
    exact Nat.lt_succ_of_le hle
  · rintro i _ t hi ⟨j, rfl, hle, hlt', role', hpaged', hpruned, hdir'⟩
    apply (exitPd1_spec (by omega) hpaged' hdir' hle hlt').imp
    rintro next u ⟨rfl, role'', hpaged'', hpruned', hdir''⟩
    exact ⟨_, rfl, Nat.le_refl _, by omega, role'', hpaged'', hpruned.trans hpruned', hdir''⟩

end Ucore.Mm
