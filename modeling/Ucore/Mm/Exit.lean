import Ucore.Mm.Fault
import Ucore.Mm.Plenty
import Ucore.Mm.Prune

/-!
# Making and taking down an address space

A new page directory maps no user page. `exit_mmap` and `put_pgdir` give up all
mappings of an address space, and then its tables.
-/

namespace Ucore.Mm

open Mmu Machine Finset

variable {E : Panic → Prop} {role role' role'' : Nat → Role} {s t u : Kern}

/-! ## A new address space -/

theorem bootPgdir_user {i : Nat} (hi : i < 511) : bootPgdir i = 0#64 := if_neg (by omega)

/-- A frame from the manager becomes a page directory without user pages. -/
structure DirAdded (role : Nat → Role) (s t : Kern) (n : Nat) : Prop where
  fresh : role n = .free
  paged : Paged (Function.update role n .dir) t
  mem : ∀ f, f ≠ n → t.mem f = s.mem f
  entries : ∀ i, i < 511 → t.mem n i = 0#64
  ref : t.ref = s.ref
  swap : t.swap = s.swap

namespace DirAdded

variable {n : Nat}

/-- The new directory maps nothing. -/
theorem leaf_new (h : DirAdded role s t n) {v : Nat} (hv : v < userPages) :
    leaf t.mem n v = 0#64 := by
  rw [leaf, walk, h.entries _ (idx1_lt hv)]
  rfl

theorem leaf_old (h : DirAdded role s t n) (hpaged : Paged role s) {pgdir v : Nat}
    (hdir : role pgdir = .dir) (hv : v < userPages) : leaf t.mem pgdir v = leaf s.mem pgdir v := by
  have hne : ∀ f, role f ≠ .free → f ≠ n := fun f hf heq => hf (heq ▸ h.fresh)
  apply hpaged.tree.leaf_congr hdir hv
  · exact h.mem pgdir (hne pgdir (by simp [hdir]))
  · exact fun f i hf => h.mem f (hne f (by simp [hf]))
  · exact fun f k hf => h.mem f (hne f (by simp [hf]))

theorem mappings (h : DirAdded role s t n) (hpaged : Paged role s) (f : Nat) :
    mappings (Function.update role n .dir) t.mem f = mappings role s.mem f := by
  ext p
  rw [mem_mappings, mem_mappings]
  by_cases hp : p.1 = n
  · rw [hp, h.fresh]
    constructor
    · rintro ⟨_, hv, _, hvalid, _⟩
      rw [h.leaf_new hv] at hvalid
      cases hvalid
    · rintro ⟨_, _, hno, _⟩
      cases hno
  · rw [Function.update_of_ne hp]
    constructor
    · rintro ⟨hlt, hv, hdir, hmaps⟩
      exact ⟨hlt, hv, hdir, h.leaf_old hpaged hdir hv ▸ hmaps⟩
    · rintro ⟨hlt, hv, hdir, hmaps⟩
      exact ⟨hlt, hv, hdir, (h.leaf_old hpaged hdir hv).symm ▸ hmaps⟩

theorem excess (h : DirAdded role s t n) (hpaged : Paged role s) (f : Nat) :
    excess (Function.update role n .dir) t f = excess role s f := by
  rw [Mm.excess, Mm.excess, h.mappings hpaged, h.ref]

theorem data (h : DirAdded role s t n) (f : Nat) :
    Function.update role n .dir f = .data ↔ role f = .data := by
  by_cases hf : f = n
  · subst hf
    simp [h.fresh]
  · rw [Function.update_of_ne hf]

end DirAdded

theorem setupPgdir_spec {al : Allocator} {mm : MmStruct} (hpaged : Paged role s) :
    Ends E (setupPgdir al mm) s fun r t =>
      (r = (-E_NO_MEM, mm) ∧ t = s.nextTick ∧ al.choose s.tick s.free = none) ∨
        ∃ n, r = (0, { mm with pgdir := n }) ∧ DirAdded role s t n := by
  unfold setupPgdir
  rw [ends_bind]
  apply al.ends_allocPage_choose
  · exact fun hnone => Or.inl ⟨rfl, rfl, hnone⟩
  · intro n hn
    have hfree := (hpaged.free n).mpr hn
    have hlt := hpaged.bound n (by simp [hfree])
    simp only [ends_bind]
    apply ends_kaddr hlt
    rw [ends_fillPage, ends_pure]
    refine Or.inr ⟨n, rfl, hfree, ?_, ?_, ?_, rfl, rfl⟩
    · have hne : ∀ f i ρ, (role f).child f i = some ρ → f ≠ n := by
        rintro f i ρ hchild rfl
        rw [hfree] at hchild
        cases hchild
      constructor
      · apply hpaged.tree.retag
        · exact fun f i ρ _ => hpaged.tree.not_target hfree f i ρ
        · intro i ρ hchild hvalid
          rw [Role.child, Option.ite_none_right_eq_some] at hchild
          simp [bootPgdir_user hchild.1] at hvalid
        · intro f hf
          funext i
          simp [hf]
      · intro g hg hdir
        have hgn : g ≠ n := by
          rintro rfl
          simp at hdir
        rw [Function.update_of_ne hgn] at hg hdir ⊢
        obtain ⟨f, i, hchild, hentry⟩ := hpaged.linked g hg hdir
        have hfn := hne f i _ hchild
        exact ⟨f, i, by rwa [Function.update_of_ne hfn], by simpa [hfn] using hentry⟩
      · intro f
        by_cases hf : f = n
        · subst hf
          simp
        · rw [Function.update_of_ne hf, hpaged.free f]
          simp [hf]
      · intro f hf
        by_cases hfn : f = n
        · exact hfn ▸ hlt
        · rw [Function.update_of_ne hfn] at hf
          exact hpaged.bound f hf
      · exact fun f hf => hpaged.unref f (mem_of_mem_erase hf)
    · intro f hf
      funext i
      simp [hf]
    · intro i hi
      simp [bootPgdir_user hi]

theorem DirAdded.counted {n : Nat} (h : DirAdded role s t n) (hpaged : Paged role s)
    (hcounted : Counted role s) : Counted (Function.update role n .dir) t := by
  intro f hf
  rw [h.excess hpaged]
  exact hcounted f ((h.data f).mp hf)

theorem MmStruct.Ok.empty (pgdir : Nat) (mmCount : Int) : MmStruct.Ok ⟨[], none, pgdir, mmCount⟩ :=
  ⟨List.Pairwise.nil, fun _ hvma => by simp at hvma, fun _ hcache => by simp at hcache⟩

theorem newMm_spec {al : Allocator} (hpaged : Paged role s) :
    Ends E (newMm al) s fun r t =>
      (r = none ∧ (t = s.nextTick ∨ t = s.nextTick.nextTick) ∧ ¬ Plenty al 1 s) ∨
        ∃ n, r = some ⟨[], none, n, 1⟩ ∧ DirAdded role s.nextTick t n := by
  unfold newMm mmCreate
  rw [ends_bind, ends_bind]
  apply al.ends_kmalloc_heap
  cases hgot : al.heap s.tick with
  | false =>
      refine Or.inl ⟨rfl, Or.inl rfl, fun hplenty => ?_⟩
      rw [hplenty.generous.heap] at hgot
      cases hgot
  | true =>
      simp only [if_true, ends_pure]
      rw [ends_bind]
      apply (setupPgdir_spec hpaged.nextTick).imp
      rintro r t (⟨rfl, rfl, hnone⟩ | ⟨n, rfl, hadded⟩)
      · unfold mmDestroy E_NO_MEM
        exact Or.inl ⟨rfl, Or.inr rfl, fun hplenty => hplenty.some _ hnone⟩
      · exact Or.inr ⟨n, rfl, hadded⟩

/-! ## `exit_mmap` and `put_pgdir` -/

/-- All pages of an address space are unmapped. -/
theorem unmapAreas_spec {al : Allocator} {mm : MmStruct} (hmm : mm.Ok) (hpaged : Paged role s)
    (hcounted : Counted role s) (hdir : role mm.pgdir = .dir)
    (hentry : ∀ v, v < userPages → valid (leaf s.mem mm.pgdir v) = true →
      ∃ vma ∈ mm.mmapList, vma.covers v) :
    Ends E (mm.mmapList.forM fun vma => unmapRange al.allocPage mm.pgdir vma.vmStart vma.vmEnd) s
      fun _ t => ∃ role', Paged role' t ∧ Settled role role' s t ∧
        (∀ f, (role' f).isTable = true → role' f = role f) ∧ DirEmpty t.mem mm.pgdir ∧
        ∀ pgdir v, role pgdir = .dir → pgdir ≠ mm.pgdir → v < userPages →
          leaf t.mem pgdir v = leaf s.mem pgdir v := by
  have hloop := @ends_forM _ _ _ E
    (fun vma => unmapRange al.allocPage mm.pgdir vma.vmStart vma.vmEnd)
    (fun rest t => (∀ vma ∈ rest, vma.Ok) ∧ ∃ role', Paged role' t ∧ Settled role role' s t ∧
      (∀ f, (role' f).isTable = true → role' f = role f) ∧
      (∀ v, v < userPages → valid (leaf t.mem mm.pgdir v) = true → ∃ vma ∈ rest, vma.covers v) ∧
      ∀ pgdir v, role pgdir = .dir → pgdir ≠ mm.pgdir → v < userPages →
        leaf t.mem pgdir v = leaf s.mem pgdir v) ?_ mm.mmapList s
    ⟨hmm.areas, role, hpaged, Settled.refl role s, fun _ _ => rfl, hentry,
      fun _ _ _ _ _ => rfl⟩
  · apply hloop.imp
    rintro _ t ⟨_, role', hpaged', hsettled, htables, hleaf, hrest⟩
    refine ⟨role', hpaged', hsettled, htables, fun v hv => ?_, hrest⟩
    rw [Bool.eq_false_iff]
    intro hvalid
    obtain ⟨vma, hvma, _⟩ := hleaf v hv hvalid
    cases hvma
  · rintro vma rest t ⟨hok, role', hpaged', hsettled, htables, hleaf, hrest⟩
    have hvma := hok vma (by simp)
    have hdir' := (hsettled.dir _).mpr hdir
    apply (unmapRange_spec hpaged' (hsettled.counted hcounted) hdir' (Or.inr hvma.aligned)
      (Or.inr hvma.user)).imp
    rintro _ u ⟨role'', hpaged'', hsettled', htables', _, hcleared⟩
    refine ⟨fun a ha => hok a (List.mem_cons_of_mem _ ha), role'', hpaged'',
      hsettled.trans hsettled', fun f hf => ?_, fun v hv hvalid => ?_,
      fun pgdir v hrole hne hv => ?_⟩
    · have hkeep := htables' f hf
      rw [hkeep] at hf ⊢
      exact htables f hf
    · obtain ⟨hin, hout⟩ := hcleared mm.pgdir v hdir' hv
      by_cases hcovers : vma.covers v
      · rw [hin ⟨rfl, hcovers⟩, removed] at hvalid
        split at hvalid
        next => cases hvalid
        next hno => exact absurd hvalid hno
      · rw [hout fun hyes => hcovers hyes.2] at hvalid
        obtain ⟨a, ha, hav⟩ := hleaf v hv hvalid
        refine ⟨a, (List.mem_cons.mp ha).resolve_left ?_, hav⟩
        rintro rfl
        exact hcovers hav
    · rw [(hcleared pgdir v ((hsettled.dir _).mpr hrole) hv).2 fun hyes => hne hyes.1,
        hrest pgdir v hrole hne hv]

/-- The tables of an address space without pages are taken down. -/
theorem exitAreas_spec {mm : MmStruct} (hmm : mm.Ok) (hpaged : Paged role s)
    (hdir : role mm.pgdir = .dir) :
    Ends E (mm.mmapList.forM fun vma => exitRange mm.pgdir vma.vmStart vma.vmEnd) s
      fun _ t => ∃ role', Paged role' t ∧ Pruned mm.pgdir role role' s t ∧
        role' mm.pgdir = .dir := by
  have hloop := @ends_forM _ _ _ E (fun vma => exitRange mm.pgdir vma.vmStart vma.vmEnd)
    (fun rest t => (∀ vma ∈ rest, vma.Ok) ∧ ∃ role', Paged role' t ∧
      Pruned mm.pgdir role role' s t ∧ role' mm.pgdir = .dir) ?_ mm.mmapList s
    ⟨hmm.areas, role, hpaged, Pruned.refl _ role s, hdir⟩
  · apply hloop.imp
    rintro _ t ⟨_, hdone⟩
    exact hdone
  · rintro vma rest t ⟨hok, role', hpaged', hpruned, hdir'⟩
    apply (exitRange_spec hpaged' (hok vma (by simp)) hdir').imp
    rintro _ u ⟨role'', hpaged'', hpruned', hdir''⟩
    exact ⟨fun a ha => hok a (List.mem_cons_of_mem _ ha), role'', hpaged'',
      hpruned.trans hpruned', hdir''⟩

/-- Taking an address space down: what is left of the memory `s`. -/
structure Removed (pgdir : Nat) (role role' : Nat → Role) (s t : Kern) : Prop where
  paged : Paged role' t
  dir : ∀ f, role' f = .dir ↔ role f = .dir ∧ f ≠ pgdir
  data : ∀ f, role' f = .data → role f = .data
  other : ∀ f, role' f = .other → role f = .other ∨ (role f).isTable = true
  rest : ∀ f, role f = .other → role' f = .other ∧ t.ref f = s.ref f
  counted : Counted role' t
  exact : Exact role s → Exact role' t
  leaf : ∀ pgdir' v, role pgdir' = .dir → pgdir' ≠ pgdir → v < userPages →
    Mm.leaf t.mem pgdir' v = Mm.leaf s.mem pgdir' v

theorem exitMm_spec {al : Allocator} {mm : MmStruct} (hmm : mm.Ok) (hcount : mm.mmCount = 1)
    (hpaged : Paged role s) (hcounted : Counted role s) (hdir : role mm.pgdir = .dir)
    (hentry : ∀ v, v < userPages → valid (leaf s.mem mm.pgdir v) = true →
      ∃ vma ∈ mm.mmapList, vma.covers v) :
    Ends E (exitMm al mm) s fun r t => r = none ∧ ∃ role', Removed mm.pgdir role role' s t := by
  unfold exitMm exitMmap
  simp only [hcount, sub_self, if_true, ne_eq, not_true_eq_false, if_false, ends_bind, ends_pure]
  apply (unmapAreas_spec hmm hpaged hcounted hdir hentry).imp
  rintro _ t ⟨role₁, hpaged₁, hsettled, htables, hempty, hleaf₁⟩
  have hdir₁ := (hsettled.dir _).mpr hdir
  apply (exitAreas_spec hmm hpaged₁ hdir₁).imp
  rintro _ u ⟨role₂, hpaged₂, hpruned, hdir₂⟩
  have hbound := hpaged₂.bound mm.pgdir (by simp [hdir₂])
  have hnotfree : mm.pgdir ∉ u.free := by
    rw [← hpaged₂.free, hdir₂]
    exact Role.noConfusion
  unfold putPgdir mmDestroy
  rw [ends_bind]
  apply ends_pa2page hbound
  apply ends_freePage hnotfree
  simp only [ne_eq, not_true_eq_false, if_false, ends_pure]
  obtain ⟨hpaged₃, hpruned'⟩ := hpaged₂.giveBack_dir hdir₂
  have hall := hpruned.trans hpruned'
  have hexcess : ∀ f, prune role₂ mm.pgdir f = .data →
      excess (prune role₂ mm.pgdir) (u.giveBack mm.pgdir) f = excess role s f ∧ role f = .data ∧
        role₁ f = .data := by
    intro f hf
    have hf₁ := (hall.data f).mp hf
    obtain ⟨hf₀, _, hexcess₁⟩ := hsettled.data f hf₁
    exact ⟨(hall.excess hempty hf₁).trans hexcess₁, hf₀, hf₁⟩
  refine ⟨trivial, prune role₂ mm.pgdir, hpaged₃, ?_, ?_, ?_, ?_, ?_, ?_, ?_⟩
  · intro f
    by_cases hf : f = mm.pgdir
    · subst hf
      simp [prune_self]
    · rw [hall.dir f hf, hsettled.dir f]
      simp [hf]
  · exact fun f hf => (hexcess f hf).2.1
  · intro f hf
    cases hrole₁ : role₁ f with
    | other => exact Or.inl (hsettled.other f hrole₁)
    | free => exact Role.noConfusion (hf.symm.trans (hall.free f hrole₁))
    | data => exact Role.noConfusion (hf.symm.trans ((hall.data f).mpr hrole₁))
    | _ =>
        have htable : (role₁ f).isTable = true := by
          rw [hrole₁]
          rfl
        exact Or.inr (htables f htable ▸ htable)
  · intro f hf
    obtain ⟨hother, href⟩ := hsettled.rest f hf
    obtain ⟨hother', href'⟩ := hall.rest f hother
    exact ⟨hother', href'.trans href⟩
  · intro f hf
    obtain ⟨heq, hdata, _⟩ := hexcess f hf
    rw [heq]
    exact hcounted f hdata
  · intro hexact f hf
    obtain ⟨heq, hdata, hdata₁⟩ := hexcess f hf
    obtain ⟨hzero, hlive⟩ := hexact f hdata
    refine ⟨heq.trans hzero, ?_⟩
    rw [(hall.contents f hdata₁).2]
    exact hsettled.live f hdata₁ hlive
  · intro pgdir v hrole hne hv
    rw [hall.leaf pgdir v ((hsettled.dir _).mpr hrole) hne hv, hleaf₁ pgdir v hrole hne hv]

end Ucore.Mm
