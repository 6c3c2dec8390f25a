import Ucore.Mm.Fork

/-!
# Copying pages at a fork

`copy_range` and `dup_mmap` give the second address space pages of its own: for
every valid page of the areas a frame that was free, with the same contents.
-/

namespace Ucore.Mm

open Mmu Machine Finset

variable {E : Panic → Prop} {role role' role'' : Nat → Role} {s t u : Kern}

/-- No frame in use becomes free. -/
theorem Kept.free (h : Kept role role' s t) {f : Nat} (hf : role' f = .free) : role f = .free := by
  cases hrole : role f with
  | free => rfl
  | data =>
      rw [(h.data f hrole).1] at hf
      cases hf
  | other =>
      rw [(h.rest f hrole).1] at hf
      cases hf
  | _ =>
      rw [h.table f (by rw [hrole]; rfl), hrole] at hf
      cases hf

/-- Frames in use stay what they are. -/
theorem Kept.used (h : Kept role role' s t) {f : Nat} (hf : role f ≠ .free) : role' f = role f := by
  cases hrole : role f with
  | free => exact absurd hrole hf
  | data => exact (h.data f hrole).1
  | other => exact (h.rest f hrole).1
  | _ => rw [h.table f (by rw [hrole]; rfl), hrole]

/-! ## What `get_pte` writes -/

/-- The frame `f`, which is used so, is a table of the page directory `pgdir`. -/
def Role.TableOf (ρ : Role) (f pgdir : Nat) : Prop :=
  match ρ with
  | .dir => f = pgdir
  | .mid pgdir' _ | .tab pgdir' _ => pgdir' = pgdir
  | _ => False

/-- Making a table writes to the new frame and to the entry for it. -/
theorem tableAt_writes {al : Allocator} {p : Ptr} :
    Ends (fun _ => True) (tableAt al.allocPage true p) s fun r t =>
      (∀ f, f ≠ p.page → f ∉ s.free → t.mem f = s.mem f) ∧ t.free ⊆ s.free ∧
      ∀ g, r = some g → (valid (s.mem p.page p.index) = true ∧ g = frame (s.mem p.page p.index)) ∨
        g ∈ s.free := by
  unfold tableAt kaddr
  simp only [ends_bind, ends_load, if_true]
  split
  next hvalid =>
    rw [ends_bind, ends_load, ends_map]
    split
    next => trivial
    next => exact ⟨fun _ _ _ => rfl, Subset.refl _, fun g hg =>
        Or.inl ⟨hvalid, (Option.some.inj hg).symm⟩⟩
  next =>
    rw [ends_bind]
    apply al.ends_allocPage
    · exact ⟨fun _ _ _ => rfl, Subset.refl _, fun g hg => by cases hg⟩
    · intro page hpage
      simp only [ends_bind, ends_setPageRef]
      split
      next => trivial
      next hlt =>
        have hframe : frame (pteCreate page (PTE_U ||| PTE_V)) = page :=
          frame_pteCreate (Nat.lt_trans (Nat.lt_of_not_le hlt) (by decide)) (by decide)
        simp only [ends_pure, ends_fillPage, ends_store, ends_load, ends_map]
        split
        next => trivial
        next =>
          refine ⟨fun f hf hfree => ?_, erase_subset _ _, fun g hg => ?_⟩
          · have hne : f ≠ page := fun heq => hfree (heq ▸ hpage)
            funext i
            simp [hne, hf]
          · right
            simp only [Kern.write_mem, Memory.write_apply, and_self, if_true, hframe] at hg
            exact Option.some.inj hg ▸ hpage

/-- Of the frames in use only tables of the page directory are written. -/
theorem getPte_writes {al : Allocator} {pgdir la : Nat} (hpaged : Paged role s)
    (hdir : role pgdir = .dir) (hla : ppn la < userPages) :
    Ends (fun _ => True) (getPte al.allocPage pgdir la true) s fun _ t =>
      ∀ f, role f ≠ .free → ¬ (role f).TableOf f pgdir → t.mem f = s.mem f := by
  have hused : ∀ f, role f ≠ .free → f ∉ s.free := fun f hf hfree => hf ((hpaged.free f).mpr hfree)
  have hroot : ∀ f, ¬ (role f).TableOf f pgdir → f ≠ pgdir := by
    rintro f hf rfl
    rw [hdir] at hf
    exact hf rfl
  unfold getPte
  rw [pdx1_eq, ends_bind]
  apply tableAt_writes.imp
  rintro r t ⟨hkeep, hsub, hfound⟩
  cases r with
  | none => exact fun f hf hother => hkeep f (hroot f hother) (hused f hf)
  | some pd0 =>
      rw [ends_bind]
      apply tableAt_writes.imp
      rintro r u ⟨hkeep', _, _⟩
      have hboth : ∀ f, role f ≠ .free → ¬ (role f).TableOf f pgdir → u.mem f = s.mem f := by
        intro f hf hother
        rw [hkeep' f ?_ fun hfree => hused f hf (hsub hfree), hkeep f (hroot f hother) (hused f hf)]
        rintro rfl
        rcases hfound _ rfl with ⟨hvalid, rfl⟩ | hfree
        · have hmid := hpaged.tree.mid hdir hla hvalid
          change ¬ (role (frame (s.mem pgdir (idx1 (ppn la))))).TableOf _ _ at hother
          rw [hmid] at hother
          exact hother rfl
        · exact hused _ hf hfree
      cases r with
      | none => exact hboth
      | some pt => exact hboth

/-- The copy of an entry grants what the entry grants. -/
theorem pteCreate_user {pte : Pte} (n : Nat) (hvalid : valid pte = true) :
    pteCreate n (PTE_V ||| (pte &&& PTE_USER)) &&& PTE_USER = pte &&& PTE_USER := by
  apply BitVec.eq_of_getLsbD_eq
  intro i h64
  by_cases hi : i < 10
  · by_cases hzero : i = 0
    · subst hzero
      have hbit : pte.getLsbD 0 = true := by rwa [valid_eq] at hvalid
      simp [pteCreate, PTE_V, hbit]
    · simp [pteCreate, PTE_V, hi, hzero]
  · have huser : PTE_USER.getLsbD i = false :=
      (isPerm_iff PTE_USER).mp (by decide) i (Nat.le_of_not_lt hi)
    simp [huser]

/-! ## Duplicated ranges -/

/-- The valid pages of `fromDir` in `pages` have copies in `toDir`, in frames that
were free. -/
structure Duplicated (role role' : Nat → Role) (s t : Kern) (toDir fromDir : Nat)
    (pages : Nat → Prop) : Prop where
  valid : ∀ v, v < userPages → pages v → valid (leaf s.mem fromDir v) = true →
    Mmu.valid (leaf t.mem toDir v) = true
  fresh : ∀ v, v < userPages → pages v → Mmu.valid (leaf s.mem fromDir v) = true →
    role (frame (leaf t.mem toDir v)) = .free ∧ role' (frame (leaf t.mem toDir v)) = .data
  copy : ∀ v, v < userPages → pages v → Mmu.valid (leaf s.mem fromDir v) = true →
    t.mem (frame (leaf t.mem toDir v)) = s.mem (frame (leaf s.mem fromDir v))
  perm : ∀ v, v < userPages → pages v → Mmu.valid (leaf s.mem fromDir v) = true →
    leaf t.mem toDir v &&& PTE_USER = leaf s.mem fromDir v &&& PTE_USER
  still : ∀ f, role f ≠ .free → ¬ (role f).TableOf f toDir → t.mem f = s.mem f
  apart : ∀ v v', v < userPages → v' < userPages → pages v → pages v' →
    Mmu.valid (leaf s.mem fromDir v) = true → Mmu.valid (leaf s.mem fromDir v') = true →
    frame (leaf t.mem toDir v) = frame (leaf t.mem toDir v') → v = v'
  rest : ∀ pgdir v, role pgdir = .dir → v < userPages →
    (pages v → Mmu.valid (leaf s.mem fromDir v) = true → pgdir ≠ toDir) →
    leaf t.mem pgdir v = leaf s.mem pgdir v

namespace Duplicated

variable {toDir fromDir v : Nat} {pages pages' : Nat → Prop}

/-- Nothing valid to copy. -/
theorem none (hsame : LeafSame role s t) (hmem : t.mem = s.mem)
    (hnone : ∀ v, pages v → Mmu.valid (leaf s.mem fromDir v) = false) :
    Duplicated role role' s t toDir fromDir pages := by
  have hno : ∀ {v : Nat}, pages v → ¬ Mmu.valid (leaf s.mem fromDir v) = true := by
    intro v hv hvalid
    rw [hnone v hv] at hvalid
    cases hvalid
  exact ⟨fun _ _ hv hvalid => absurd hvalid (hno hv), fun _ _ hv hvalid => absurd hvalid (hno hv),
    fun _ _ hv hvalid => absurd hvalid (hno hv), fun _ _ hv hvalid => absurd hvalid (hno hv),
    fun _ _ _ => by rw [hmem], fun _ _ _ _ hv _ hvalid => absurd hvalid (hno hv),
    fun pgdir v hdir hv _ => hsame pgdir v hdir hv⟩

theorem congr (h : Duplicated role role' s t toDir fromDir pages)
    (hpages : ∀ v, pages v ↔ pages' v) : Duplicated role role' s t toDir fromDir pages' := by
  rwa [show pages' = pages from funext fun v => propext (hpages v).symm]

/-- Copying some pages and then others. -/
theorem trans (h : Duplicated role role' s t toDir fromDir pages) (hpaged : Paged role s)
    (hkept : Kept role role' s t) (hto : role toDir = .dir) (hfrom : role fromDir = .dir)
    (hne : toDir ≠ fromDir) (hkept' : Kept role' role'' t u)
    (hdisjoint : ∀ v, pages v → ¬ pages' v)
    (h' : Duplicated role' role'' t u toDir fromDir pages') :
    Duplicated role role'' s u toDir fromDir fun v => pages v ∨ pages' v := by
  have hsource : ∀ v, v < userPages → leaf t.mem fromDir v = leaf s.mem fromDir v :=
    fun v hv => h.rest fromDir v hfrom hv fun _ _ heq => hne heq.symm
  have hold : ∀ v, v < userPages → pages v → leaf u.mem toDir v = leaf t.mem toDir v :=
    fun v hv hp => h'.rest toDir v ((hkept.dir _).mpr hto) hv fun hno => absurd hno (hdisjoint v hp)
  constructor
  · rintro v hv (hp | hp) hvalid
    · rw [hold v hv hp]
      exact h.valid v hv hp hvalid
    · exact h'.valid v hv hp (by rwa [hsource v hv])
  · rintro v hv (hp | hp) hvalid
    · rw [hold v hv hp]
      obtain ⟨hfree, hdata⟩ := h.fresh v hv hp hvalid
      exact ⟨hfree, (hkept'.data _ hdata).1⟩
    · obtain ⟨hfree', hdata'⟩ := h'.fresh v hv hp (by rwa [hsource v hv])
      exact ⟨hkept.free hfree', hdata'⟩
  · rintro v hv (hp | hp) hvalid
    · rw [hold v hv hp, (hkept'.data _ (h.fresh v hv hp hvalid).2).2.1]
      exact h.copy v hv hp hvalid
    · rw [h'.copy v hv hp (by rwa [hsource v hv]), hsource v hv]
      exact (hkept.data _ (hpaged.tree.data hfrom hv hvalid)).2.1
  · rintro v hv (hp | hp) hvalid
    · rw [hold v hv hp]
      exact h.perm v hv hp hvalid
    · rw [h'.perm v hv hp (by rwa [hsource v hv]), hsource v hv]
  · intro f hf hother
    have hrole := hkept.used hf
    rw [h'.still f (hrole ▸ hf) (hrole ▸ hother), h.still f hf hother]
  · rintro v v' hv hv' (hp | hp) (hp' | hp') hvalid hvalid' heq
    · rw [hold v hv hp, hold v' hv' hp'] at heq
      exact h.apart v v' hv hv' hp hp' hvalid hvalid' heq
    · have hdata := (h.fresh v hv hp hvalid).2
      rw [← hold v hv hp, heq, (h'.fresh v' hv' hp' (by rwa [hsource v' hv'])).1] at hdata
      cases hdata
    · have hdata := (h.fresh v' hv' hp' hvalid').2
      rw [← hold v' hv' hp', ← heq, (h'.fresh v hv hp (by rwa [hsource v hv])).1] at hdata
      cases hdata
    · exact h'.apart v v' hv hv' hp hp' (by rwa [hsource v hv]) (by rwa [hsource v' hv']) heq
  · intro pgdir v hdir hv hother
    rw [h'.rest pgdir v ((hkept.dir pgdir).mpr hdir) hv fun hp hvalid =>
        hother (Or.inr hp) (by rwa [hsource v hv] at hvalid),
      h.rest pgdir v hdir hv fun hp => hother (Or.inl hp)]

end Duplicated

/-- One round of `copy_range`, on a valid page. -/
theorem copyRound_spec {al : Allocator} {toDir fromDir v : Nat} {p : Ptr}
    (hnull : E .nullPage ∨ Plenty al 3 s) (hpaged : Paged role s) (hto : role toDir = .dir)
    (hfrom : role fromDir = .dir)
    (hv : v < userPages) (hwalk : walk s.mem fromDir v = some p)
    (hvalid : valid (leaf s.mem fromDir v) = true) (hempty : valid (leaf s.mem toDir v) = false) :
    Ends E (do
      match ← getPte al.allocPage toDir (PGSIZE * v) true with
      | none => pure (-E_NO_MEM)
      | some _ =>
          let perm := (← load p) &&& PTE_USER
          let page ← pte2page (← load p)
          match ← al.allocPage with
          | none => throw .nullPage
          | some npage =>
              copyPage page npage
              if (← pageInsert al.allocPage toDir npage (PGSIZE * v) perm) ≠ 0 then throw .mapFailed
              pure 0 : KernM Int) s fun ret t => (ret ≠ 0 → ret = -E_NO_MEM ∧ ¬ Plenty al 3 s) ∧
        (ret = 0 → s.free.card ≤ t.free.card + 3 ∧ ∃ role', Paged role' t ∧ Kept role role' s t ∧
          Duplicated role role' s t toDir fromDir fun w => w = v) := by
  have hdata := hpaged.tree.data hfrom hv hvalid
  rw [ends_bind]
  apply (((getPte_true al hpaged hto (by rwa [ppn_mul])).and getPte_plenty).and
    (getPte_writes hpaged hto (by rwa [ppn_mul]))).imp
  rintro r t ⟨⟨⟨role₁, hpaged₁, hgrown, hfound⟩, hcard, hsome⟩, hwrites⟩
  rw [ppn_mul] at hfound
  cases r with
  | none =>
      refine ⟨fun _ => ⟨rfl, fun hplenty => ?_⟩, fun hret => by simp [E_NO_MEM] at hret⟩
      exact absurd (hsome (hplenty.mono (by decide))) Bool.false_ne_true
  | some q =>
      have hdir₁ := (hgrown.dir_iff toDir).mpr hto
      have hwalkTo := hfound q rfl
      have hwalkFrom := hgrown.steady.walk hpaged.tree hfrom hv hwalk
      have hleaf₁ : leaf t.mem fromDir v = leaf s.mem fromDir v := hgrown.leaf _ _ hfrom hv
      have hempty₁ : valid (leaf t.mem toDir v) = false := by rwa [hgrown.leaf _ _ hto hv]
      have hdata₁ : role₁ (frame (leaf s.mem fromDir v)) = .data := (hgrown.data_iff _).mpr hdata
      have hlt : frame (leaf s.mem fromDir v) < npage := hpaged.bound _ (by simp [hdata])
      simp only [ends_bind, ends_load, ← leaf_of_walk hwalkFrom, hleaf₁]
      apply ends_pte2page hvalid hlt
      apply al.ends_allocPage_choose
      · -- no frame is left for the copy
        intro hnone
        apply hnull.resolve_right
        intro hplenty
        exact (hplenty.rest hcard : Plenty al (0 + 1) t).some _ hnone
      · intro n hn
        have hfree := (hpaged₁.free n).mpr hn
        have hnew : Function.update role₁ n .data n = .data := Function.update_self n _ _
        obtain ⟨hpaged₂, hkept₂, hsame⟩ :=
          hpaged₁.takeFill hn (t.mem (frame (leaf s.mem fromDir v)))
        simp only [ends_bind]
        apply ends_copyPage hlt (hpaged₁.bound n (by simp [hfree]))
        obtain ⟨u, hu⟩ : ∃ u,
            u = (t.nextTick.take n).fill n (t.mem (frame (leaf s.mem fromDir v))) :=
          ⟨_, rfl⟩
        simp only [Kern.take_mem, Kern.nextTick_mem, ← hu] at hpaged₂ hkept₂ hsame ⊢
        have hdir₂ := (hkept₂.dir toDir).mpr hdir₁
        -- the table that `get_pte` has made is still there
        have hwalk₂ : walk u.mem toDir v = some q := by
          have hne : ∀ f, role₁ f ≠ .free → f ≠ n := fun f hf heq => hf (heq ▸ hfree)
          rw [← hwalkTo]
          apply hpaged₁.tree.walk_congr hdir₁ hv
          · rw [hu]
            exact Function.update_of_ne (hne _ (by simp [hdir₁])) _ _
          · intro f i hf
            rw [hu]
            exact Function.update_of_ne (hne _ (by simp [hf])) _ _
        have hempty₂ : valid (leaf u.mem toDir v) = false := by rwa [hsame _ _ hdir₁ hv]
        have hperm : IsPerm (leaf s.mem fromDir v &&& PTE_USER) := IsPerm.and (by decide) _
        apply pageInsert_walk hpaged₂ hdir₂ (by rwa [ppn_mul]) (by rwa [ppn_mul])
        apply (mapPage_fresh (leaf_of_walk hwalk₂ ▸ hempty₂)).imp
        rintro ret w ⟨rfl, hw⟩
        obtain ⟨hpaged₃, hset, hkept₃⟩ := hpaged₂.map hdir₂ hv hwalk₂ hnew hperm hempty₂
        rw [← hw] at hpaged₃ hset hkept₃
        have hused : s.free.card ≤ w.free.card + 3 := by
          have htake := card_take hn
          rw [hw, hu]
          simp only [Kern.write_free, Kern.setRef_free, Kern.fill_free]
          omega
        refine ⟨fun h => absurd rfl h, fun _ => ⟨hused, _, hpaged₃,
          (hgrown.kept.trans hkept₂).trans hkept₃, ?_⟩⟩
        have hleaf : ∀ pgdir v', role pgdir = .dir → v' < userPages → leaf w.mem pgdir v' =
            if pgdir = toDir ∧ v' = v then
              pteCreate n (PTE_V ||| (leaf s.mem fromDir v &&& PTE_USER))
            else leaf s.mem pgdir v' := by
          intro pgdir v' hdir hv'
          have hdir₁' := (hgrown.dir_iff pgdir).mpr hdir
          rw [hset pgdir v' ((hkept₂.dir pgdir).mpr hdir₁') hv', hsame pgdir v' hdir₁' hv',
            hgrown.leaf pgdir v' hdir hv']
        have hframe : frame (leaf w.mem toDir v) = n := by
          rw [hleaf toDir v hto hv, if_pos ⟨rfl, rfl⟩]
          have hlt : n < npage := hpaged₁.bound n (by simp [hfree])
          exact frame_pteCreate (Nat.lt_trans hlt (by decide)) (IsPerm.or (by decide) hperm)
        constructor
        · rintro _ _ rfl _
          rw [hleaf toDir _ hto hv, if_pos ⟨rfl, rfl⟩]
          exact valid_pteCreate _ _
        · rintro _ _ rfl _
          rw [hframe]
          exact ⟨hgrown.kept.free hfree, hnew⟩
        · rintro _ _ rfl _
          rw [hframe, (hkept₃.data n hnew).2.1, hu]
          funext i
          simp [hgrown.data _ hdata]
        · rintro _ _ rfl _
          rw [hleaf toDir _ hto hv, if_pos ⟨rfl, rfl⟩]
          exact pteCreate_user n hvalid
        · intro f hf hother
          have hrole := hgrown.keep f hf
          have hfn : f ≠ n := by
            rintro rfl
            exact hf (hrole ▸ hfree)
          have hfq : f ≠ q.page := by
            rintro rfl
            rw [← hrole, (hpaged₁.tree.tab hdir₁ hv hwalkTo).1] at hother
            exact hother rfl
          rw [← hwrites f hf hother, hw, hu]
          funext i
          simp [hfn, hfq]
        · rintro _ _ _ _ rfl rfl _ _ _
          rfl
        · intro pgdir v' hdir hv' hother
          rw [hleaf pgdir v' hdir hv']
          split
          next heq => exact absurd heq.1 (hother heq.2 (heq.2 ▸ hvalid))
          next => rfl

/-- `copy_range` over the pages of an area, in which `toDir` maps nothing yet. -/
theorem copyRange_spec {al : Allocator} {toDir fromDir : Nat} {vma : VmaStruct} {rest : Finset Nat}
    {done : Nat → Prop} [DecidablePred done] (hnull : E .nullPage ∨ Supply al rest done s)
    (hpaged : Paged role s) (hvma : vma.Ok) (hto : role toDir = .dir) (hfrom : role fromDir = .dir)
    (hne : toDir ≠ fromDir) (hempty : ∀ v, vma.covers v → valid (leaf s.mem toDir v) = false)
    (hrest : ∀ v, vma.covers v → valid (leaf s.mem fromDir v) = true → v ∈ rest ∧ ¬ done v) :
    Ends E (copyRange al.allocPage toDir fromDir vma.vmStart vma.vmEnd) s fun ret t =>
      (ret ≠ 0 → ret = -E_NO_MEM ∧ ¬ Supply al rest done s) ∧
      (ret = 0 → (Supply al rest done s → Supply al rest (fun v => done v ∨ vma.covers v) t) ∧
        ∃ role', Paged role' t ∧ Kept role role' s t ∧
          Duplicated role role' s t toDir fromDir vma.covers) := by
  obtain ⟨a, n, hstart, hstop, han, hn, hcovers⟩ := hvma.pages
  unfold copyRange checkRange
  rw [if_neg (not_not.mpr hvma.aligned), if_neg (not_not.mpr hvma.user), ends_bind, ends_pure,
    hstart, hstop, ← Nat.mul_sub, Nat.mul_div_cancel_left _ (by decide)]
  -- the invariant: the pages below `v` are duplicated, and no frame of the others is used up
  have hloop :=
    @pageLoop_spec E al.allocPage (fun start => start ≠ 0 ∧ start < PGSIZE * n) fromDir n
    (fun start ptep => do
      if valid (← load ptep) then
        match ← getPte al.allocPage toDir start true with
        | none => pure (-E_NO_MEM)
        | some _ =>
            let perm := (← load ptep) &&& PTE_USER
            let page ← pte2page (← load ptep)
            match ← al.allocPage with
            | none => throw .nullPage
            | some npage =>
                copyPage page npage
                if (← pageInsert al.allocPage toDir npage start perm) ≠ 0 then throw .mapFailed
                pure 0
      else pure 0)
    (fun v t => a ≤ v ∧
      (Supply al rest done s → Supply al rest (fun w => done w ∨ (a ≤ w ∧ w < v)) t) ∧
      ∃ role', Paged role' t ∧ Kept role role' s t ∧
        Duplicated role role' s t toDir fromDir fun w => a ≤ w ∧ w < v)
    (fun ret _ => ret = -E_NO_MEM ∧ ¬ Supply al rest done s)
    (fun start hstart => by simp [Nat.pos_iff_ne_zero.mp hstart]) hn ?_ ?_ ?_ (n - a) a s
    (Nat.le_refl _) han ?_
  · apply hloop.imp
    rintro ret t (⟨hret, _, hsupply, role', hpaged', hkept, hdup⟩ | ⟨hret, hmem⟩)
    · exact ⟨fun h => absurd hret h,
        fun _ => ⟨fun h => (hsupply h).more fun v => Or.imp_right (hcovers v).mpr,
          role', hpaged', hkept, hdup.congr fun v => (hcovers v).symm⟩⟩
    · exact ⟨fun _ => hmem, fun h => absurd h hret⟩
  · rintro v t ⟨_, _, role', hpaged', hkept, _⟩
    exact ⟨role', hpaged', (hkept.dir fromDir).mpr hfrom⟩
  · -- there is no table for the page, so there is nothing to copy
    rintro v t hv ⟨hav, hsupply, role', hpaged', hkept, hdup⟩ hwalk
    have hinvalid : valid (leaf t.mem fromDir v) = false := by
      rw [leaf, hwalk]
      exact valid_zero
    refine ⟨Nat.le_succ_of_le hav, fun h => (hsupply h).more fun w hw => ?_, role',
      hpaged', hkept, ?_⟩
    · exact hw.imp_right fun hw => ⟨hw.1, Nat.lt_succ_of_lt hw.2⟩
    · have hnext : Duplicated role' role' t t toDir fromDir fun w => w = v :=
        .none (LeafSame.refl _ _) rfl fun w hw => hw ▸ hinvalid
      exact (hdup.trans hpaged hkept hto hfrom hne (.refl role' t) (fun w hw hwv => by omega)
        hnext).congr fun w => by omega
  · rintro v t p hv ⟨hav, hsupply, role', hpaged', hkept, hdup⟩ hwalk
    have hvu : v < userPages := Nat.lt_of_lt_of_le hv hn
    have hto' := (hkept.dir toDir).mpr hto
    have hsource : leaf t.mem fromDir v = leaf s.mem fromDir v :=
      hdup.rest fromDir v hfrom hvu fun _ _ heq => hne heq.symm
    simp only [ends_bind, ends_load, ← leaf_of_walk hwalk]
    -- one round: the page is copied if its entry is valid
    have hround : Ends E (if valid (leaf t.mem fromDir v) = true then do
        match ← getPte al.allocPage toDir (PGSIZE * v) true with
        | none => pure (-E_NO_MEM)
        | some _ =>
            let perm := (← load p) &&& PTE_USER
            let page ← pte2page (← load p)
            match ← al.allocPage with
            | none => throw .nullPage
            | some npage =>
                copyPage page npage
                if (← pageInsert al.allocPage toDir npage (PGSIZE * v) perm) ≠ 0 then
                  throw .mapFailed
                pure 0
        else pure 0) t fun ret u => (ret ≠ 0 → ret = -E_NO_MEM ∧ ¬ Supply al rest done s) ∧
          (ret = 0 → (Supply al rest done s →
            Supply al rest (fun w => done w ∨ (a ≤ w ∧ w < v + 1)) u) ∧
            ∃ role'', Paged role'' u ∧ Kept role' role'' t u ∧
              Duplicated role' role'' t u toDir fromDir fun w => w = v) := by
      cases hvalid : valid (leaf t.mem fromDir v) with
      | false =>
          refine ⟨fun hne => absurd rfl hne, fun _ => ⟨fun h => (hsupply h).more fun w hw => ?_,
            role', hpaged', .refl role' t, ?_⟩⟩
          · exact hw.imp_right fun hw => ⟨hw.1, Nat.lt_succ_of_lt hw.2⟩
          · exact .none (LeafSame.refl _ _) rfl fun w hw => hw ▸ hvalid
      | true =>
          obtain ⟨hin, hnew⟩ := hrest v ((hcovers v).mpr ⟨hav, hv⟩) (hsource ▸ hvalid)
          have hstep : ∀ {u : Kern}, t.free.card ≤ u.free.card + 3 → Supply al rest done s →
              Supply al rest (fun w => done w ∨ (a ≤ w ∧ w < v + 1)) u ∧ Plenty al 3 t := by
            intro u hused h
            apply (hsupply h).step hin (fun hdone => hdone.elim hnew fun hw => by omega)
              (fun w => ?_)
              hused
            rw [or_assoc]
            exact or_congr_right (by omega)
          have hempty' : valid (leaf t.mem toDir v) = false := by
            rw [hdup.rest toDir v hto hvu fun hin => by omega]
            exact hempty v ((hcovers v).mpr ⟨hav, hv⟩)
          have hcopy := copyRound_spec (hnull.imp_right fun h => (hstep (Nat.le_add_right _ 3) h).2)
            hpaged' hto' ((hkept.dir fromDir).mpr hfrom) hvu hwalk hvalid hempty'
          apply hcopy.imp
          rintro ret u ⟨hmem, hcopied⟩
          refine ⟨fun hret => (hmem hret).imp_right fun hno h => ?_, fun hret => ?_⟩
          · exact hno (hstep (Nat.le_add_right _ 3) h).2
          · exact (hcopied hret).imp_left fun hused h => (hstep hused h).1
    apply hround.imp
    rintro ret u ⟨hmem, hcopied⟩
    refine ⟨fun hret => ?_, hmem⟩
    obtain ⟨hsupply', role'', hpaged'', hkept', hdup'⟩ := hcopied hret
    exact ⟨Nat.le_succ_of_le hav, hsupply', role'', hpaged'', hkept.trans hkept',
      (hdup.trans hpaged hkept hto hfrom hne hkept' (fun w hw hwv => by omega) hdup').congr
        fun w => by omega⟩
  · refine ⟨Nat.le_refl a, fun h => h.more fun w hw => Or.inl hw, role, hpaged,
      Kept.refl role s, ?_⟩
    exact .none (LeafSame.refl _ _) rfl fun w hw => by omega

theorem Duplicated.nextTick {toDir fromDir : Nat} {pages : Nat → Prop}
    (h : Duplicated role role' s t toDir fromDir pages) :
    Duplicated role role' s t.nextTick toDir fromDir pages :=
  ⟨h.valid, h.fresh, h.copy, h.perm, h.still, h.apart, h.rest⟩

/-- `dup_mmap` into a new address space. -/
theorem dupMmap_spec {al : Allocator} {toMm fromMm : MmStruct} {rest : Finset Nat}
    (hnull : E .nullPage ∨ Plenty al (3 * rest.card) s)
    (hnew : toMm.mmapList = []) (htoOk : toMm.Ok) (hfromOk : fromMm.Ok)
    (hpaged : Paged role s) (hto : role toMm.pgdir = .dir) (hfrom : role fromMm.pgdir = .dir)
    (hne : toMm.pgdir ≠ fromMm.pgdir)
    (hempty : ∀ v, v < userPages → valid (leaf s.mem toMm.pgdir v) = false)
    (hrest : ∀ v, v < userPages → valid (leaf s.mem fromMm.pgdir v) = true → v ∈ rest) :
    Ends E (dupMmap al toMm fromMm) s fun r t =>
      (r.1 ≠ 0 → r.1 = -E_NO_MEM ∧ ¬ Plenty al (3 * rest.card) s) ∧ (r.1 = 0 →
        AreasCopied toMm r.2 fromMm.mmapList ∧
        (E .vmaOverlap ∨ r.2.mmapList = fromMm.mmapList) ∧
        (Plenty al (3 * rest.card) s →
          Supply al rest (fun v => ∃ vma ∈ fromMm.mmapList, vma.covers v) t) ∧
        ∃ role', Paged role' t ∧ Kept role role' s t ∧
          Duplicated role role' s t toMm.pgdir fromMm.pgdir fun v =>
            ∃ vma ∈ fromMm.mmapList, vma.covers v) := by
  unfold dupMmap
  apply copyAreas_spec (P := fun todo mm t => ∃ done,
    done ++ todo = fromMm.mmapList.reverse ∧ AreasCopied toMm mm done ∧
    (E .vmaOverlap ∨ mm.mmapList = done.reverse) ∧
    (Plenty al (3 * rest.card) s → Supply al rest (fun v => ∃ vma ∈ done, vma.covers v) t) ∧
    ∃ role', Paged role' t ∧ Kept role role' s t ∧
      Duplicated role role' s t toMm.pgdir fromMm.pgdir fun v => ∃ vma ∈ done, vma.covers v)
  · rintro mm t ⟨done, hlist, hcopied, hareas, hsupply, role', hpaged', hkept, hdup⟩
    rw [List.append_nil] at hlist
    have hall : ∀ vma, vma ∈ done ↔ vma ∈ fromMm.mmapList := by
      intro vma
      rw [hlist, List.mem_reverse]
    refine ⟨fun h => absurd rfl h, fun _ => ⟨hcopied.congr hall, hareas.imp_right fun heq => ?_,
      fun hplenty => (hsupply hplenty).more fun v => ?_, role', hpaged', hkept,
      hdup.congr fun v => ?_⟩⟩
    · rw [heq, hlist, List.reverse_reverse]
    · simp only [hall, imp_self]
    · simp only [hall]
  · rintro todo mm t hheap ⟨done, _, _, _, hsupply, _⟩
    refine ⟨fun _ => ⟨rfl, fun hplenty => ?_⟩, fun hret => by simp [E_NO_MEM] at hret⟩
    rw [(hsupply hplenty).generous.heap] at hheap
    cases hheap
  · rintro vma todo mm t ⟨done, hlist, hcopied, hdone, hsupply, role', hpaged', hkept, hdup⟩
    have hmem : vma ∈ fromMm.mmapList := by
      rw [← List.mem_reverse, ← hlist]
      simp
    have hvma := hfromOk.areas vma hmem
    apply (hcopied.insert hfromOk hlist hdone).imp
    rintro mm' _ ⟨rfl, hcopied', hdone', happart⟩
    rw [hcopied'.pgdir]
    have hout : ∀ v, vma.covers v → ¬ ∃ a ∈ done, a.covers v := by
      rintro v hv ⟨a, ha, hav⟩
      exact happart v hv a ((hcopied.areas a).mpr (Or.inl ha)) hav
    have hsupply' : Plenty al (3 * rest.card) s →
        Supply al rest (fun v => ∃ a ∈ done, a.covers v) t.nextTick :=
      fun h => ⟨(hsupply h).generous, (hsupply h).room⟩
    apply (copyRange_spec (hnull.imp_right hsupply') hpaged'.nextTick hvma ((hkept.dir _).mpr hto)
      ((hkept.dir _).mpr hfrom) hne ?_ ?_).imp
    · rintro ret u ⟨hmemory, hnext⟩
      refine ⟨fun hret => ?_, fun hret => ⟨fun _ => ⟨rfl, fun hplenty =>
        (hmemory hret).2 (hsupply' hplenty)⟩, fun h => by simp [E_NO_MEM] at h⟩⟩
      obtain ⟨hleft, role'', hpaged'', hkept', hdup'⟩ := hnext hret
      have hmore : ∀ v, (∃ a ∈ done ++ [vma], a.covers v) ↔ (∃ a ∈ done, a.covers v) ∨
          vma.covers v := by
        intro v
        simp only [List.mem_append, List.mem_singleton, or_and_right, exists_or, exists_eq_left]
      refine ⟨done ++ [vma], by simp [hlist], hcopied', hdone', fun hplenty =>
        (hleft (hsupply' hplenty)).more fun v hv => (hmore v).mpr hv, role'', hpaged'',
        hkept.nextTick.trans hkept', ?_⟩
      have hboth := hdup.nextTick.trans hpaged hkept.nextTick hto hfrom hne hkept'
        (fun v hv hvma => hout v hvma hv) hdup'
      exact hboth.congr fun v => (hmore v).symm
    · intro v hv
      have hvu := hvma.user_page hv
      rw [Kern.nextTick_mem, hdup.rest _ v hto hvu fun hin => absurd hin (hout v hv)]
      exact hempty v hvu
    · intro v hv hvalid
      have hvu := hvma.user_page hv
      rw [Kern.nextTick_mem, hdup.rest _ v hfrom hvu fun _ _ heq => hne heq.symm] at hvalid
      exact ⟨hrest v hvu hvalid, hout v hv⟩
  · refine ⟨[], rfl, ⟨htoOk, rfl, rfl, by simp⟩, Or.inr hnew, fun h => ?_, role, hpaged,
      Kept.refl role s, .none (LeafSame.refl _ _) rfl fun v hv => by simp at hv⟩
    exact h.mono (Nat.mul_le_mul_left 3 (card_filter_le _ _))

end Ucore.Mm
