import Mathlib.Order.Interval.Finset.Nat
import Ucore.Mm.Access
import Ucore.Mm.Dup

/-!
# Two ways to fork

After `dup_mmap` parent and child have pages of their own, after `cow_copy_mmap`
they share them read-only until one of them writes. No sequence of accesses can
tell the two apart, unless the parent itself maps a page it may write to twice.
-/

namespace Ucore.Mm

open Mmu Machine Finset

/-- The address spaces of a fork. -/
def twins (mm child : MmStruct) : Who → MmStruct
  | .parent => mm
  | .child => child

/-- Makes the child's address space with `copy`. A fork that fails is not
followed any further. -/
def fork (al : Allocator) (copy : MmStruct → MmStruct → KernM (Int × MmStruct)) (mm : MmStruct) :
    KernM (Int × (Who → MmStruct)) := do
  match ← newMm al with
  | none => pure (-E_NO_MEM, fun _ => mm)
  | some child =>
      let (ret, child) ← copy child mm
      pure (ret, twins mm child)

/-- A fork and then accesses by parent and child. -/
def forkRun (al : Allocator) (copy : MmStruct → MmStruct → KernM (Int × MmStruct)) (mm : MmStruct)
    (accesses : List Access) : KernM (Int × List (BitVec 8)) := do
  let (ret, mms) ← fork al copy mm
  if ret ≠ 0 then pure (ret, [])
  else (0, ·) <$> runAccesses al accesses mms

/-! ## The parent -/

/-- A user address space without pages on the swap device: each entry of its page directory for a
user address is zero or valid. -/
def UserSpace (s : Kern) (mm : MmStruct) : Prop :=
  ∃ role, Paged role s ∧ Counted role s ∧ role mm.pgdir = .dir ∧ mm.Ok ∧
    ∀ v, v < userPages → leaf s.mem mm.pgdir v = 0#64 ∨ valid (leaf s.mem mm.pgdir v) = true

/-- The pages of the areas that are mapped. Those that were never touched are not, in the parent or
in the child. -/
def Present (s : Kern) (mm : MmStruct) (v : Nat) : Prop :=
  valid (leaf s.mem mm.pgdir v) = true ∧ ∃ vma ∈ mm.mmapList, vma.covers v

/-- No page that may be written through one entry is mapped by another entry of
the address space. -/
def NoAlias (s : Kern) (mm : MmStruct) : Prop :=
  ∀ v v', Present s mm v → Present s mm v' →
    (∃ vma ∈ mm.mmapList, vma.covers v ∧ vma.writable = true) →
    writable (leaf s.mem mm.pgdir v) = true →
    frame (leaf s.mem mm.pgdir v') = frame (leaf s.mem mm.pgdir v) → v' = v

/-- Allocations that fail where the code asserts that they do not: that of a frame for a copy, and
that of a page table to enter it in. -/
def outOfMemory (e : Panic) : Prop := e = .nullPage ∨ e = .mapFailed

section

variable {E : Panic → Prop} {role role' : Nat → Role} {s t u : Kern} {al : Allocator}
  {mm : MmStruct}

theorem Procs.Inv.userSpace {st : Procs} (hinv : st.Inv role) {id : Nat}
    (hmm : st.mm id = some mm) : UserSpace st.kern mm :=
  ⟨role, hinv.paged, hinv.counted, hinv.dir hmm, (hinv.mms id mm hmm).1,
    fun _ hv => hinv.entry hmm hv⟩

theorem MmStruct.Ok.present_user (hmm : mm.Ok) {v : Nat} (hv : Present s mm v) : v < userPages := by
  obtain ⟨_, vma, hvma, hcovers⟩ := hv
  exact (hmm.areas vma hvma).user_page hcovers

/-- The child's address space is new. -/
structure Forking (role : Nat → Role) (s : Kern) (mm child : MmStruct) : Prop where
  paged : Paged role s
  counted : Counted role s
  dir : role mm.pgdir = .dir
  childDir : role child.pgdir = .dir
  distinct : child.pgdir ≠ mm.pgdir
  ok : mm.Ok
  childOk : child.Ok
  childNew : child.mmapList = []
  entry : ∀ v, v < userPages → leaf s.mem mm.pgdir v = 0#64 ∨ valid (leaf s.mem mm.pgdir v) = true
  empty : ∀ v, v < userPages → leaf s.mem child.pgdir v = 0#64

namespace Forking

variable {child child' : MmStruct}

/-- What both ways to copy have to achieve: the child maps the same pages with
the same contents, and pages that may be written have one entry. -/
theorem twins (h : Forking role s mm child) (hcopied : AreasCopied child child' mm.mmapList)
    (hpaged : Paged role' t) (hkept : Kept role role' s t)
    (hentry : ∀ who v, v < userPages → leaf t.mem (twins mm child' who).pgdir v = 0#64 ∨
      valid (leaf t.mem (Mm.twins mm child' who).pgdir v) = true)
    (hmapped : ∀ who v, Present s mm v → valid (leaf t.mem (Mm.twins mm child' who).pgdir v) = true)
    (hcopy : ∀ who v, Present s mm v →
      t.mem (frame (leaf t.mem (Mm.twins mm child' who).pgdir v)) =
        s.mem (frame (leaf s.mem mm.pgdir v)))
    (hexclusive : ∀ who v who' v', Present s mm v → Present s mm v' →
      (∃ vma ∈ mm.mmapList, vma.covers v ∧ vma.writable = true) →
      writable (leaf t.mem (Mm.twins mm child' who).pgdir v) = true →
      frame (leaf t.mem (Mm.twins mm child' who').pgdir v') =
        frame (leaf t.mem (Mm.twins mm child' who).pgdir v) → who' = who ∧ v' = v) :
    Twins role' t (Mm.twins mm child') mm.mmapList (Present s mm) ∧
      ∀ who addr, Present s mm (ppn addr) →
        contents t.mem (Mm.twins mm child' who).pgdir addr = contents s.mem mm.pgdir addr := by
  refine ⟨⟨hpaged, hkept.nonneg h.counted, fun who => ?_, fun who who' heq => ?_, fun who => ?_,
    fun who vma => ?_, hentry, fun v hv => h.ok.present_user hv, hmapped, hexclusive⟩,
    fun who addr hpresent => ?_⟩
  · rw [hkept.dir]
    cases who with
    | parent => exact h.dir
    | child => exact hcopied.pgdir ▸ h.childDir
  · have hne := hcopied.pgdir ▸ h.distinct
    cases who <;> cases who'
    · rfl
    · exact absurd heq.symm hne
    · exact absurd heq hne
    · rfl
  · cases who with
    | parent => exact h.ok
    | child => exact hcopied.ok
  · cases who with
    | parent => exact Iff.rfl
    | child =>
        show vma ∈ child'.mmapList ↔ _
        rw [hcopied.areas, h.childNew]
        simp
  · unfold contents
    rw [hcopy who _ hpresent]

/-- After `cow_copy_mmap` no page that both map is writable. -/
theorem shared (h : Forking role s mm child) (hcopied : AreasCopied child child' mm.mmapList)
    (hpaged : Paged role' t) (hkept : Kept role role' s t)
    (hshared : Shared role s t child.pgdir mm.pgdir fun v => ∃ vma ∈ mm.mmapList, vma.covers v) :
    Twins role' t (Mm.twins mm child') mm.mmapList (Present s mm) ∧
      ∀ who addr, Present s mm (ppn addr) →
        contents t.mem (Mm.twins mm child' who).pgdir addr = contents s.mem mm.pgdir addr := by
  have hleaf : ∀ who v, Present s mm v → leaf t.mem (Mm.twins mm child' who).pgdir v =
      readOnly (leaf s.mem mm.pgdir v) ∨
        leaf t.mem (Mm.twins mm child' who).pgdir v = sharedPte (leaf s.mem mm.pgdir v) := by
    intro who v hv
    have hvu := h.ok.present_user hv
    cases who with
    | parent => exact Or.inl (hshared.source v hvu hv.2)
    | child =>
        right
        show leaf t.mem child'.pgdir v = _
        rw [hcopied.pgdir, hshared.target v hvu hv.2, shareOver, if_pos hv.1]
  have hdata : ∀ v, Present s mm v → role (frame (leaf s.mem mm.pgdir v)) = .data :=
    fun v hv => h.paged.tree.data h.dir (h.ok.present_user hv) hv.1
  have hframe : ∀ v, Present s mm v →
      frame (sharedPte (leaf s.mem mm.pgdir v)) = frame (leaf s.mem mm.pgdir v) := by
    intro v hv
    have hlt := h.paged.bound (frame (leaf s.mem mm.pgdir v)) (by simp [hdata v hv])
    exact frame_pteCreate (Nat.lt_trans hlt (by decide)) (IsPerm.or (by decide) (isPerm_shared _))
  apply h.twins hcopied hpaged hkept
  · intro who v hv
    cases who with
    | parent =>
        show leaf t.mem mm.pgdir v = 0#64 ∨ valid (leaf t.mem mm.pgdir v) = true
        by_cases hcovered : ∃ vma ∈ mm.mmapList, vma.covers v
        · rw [hshared.source v hv hcovered, valid_readOnly]
          apply (h.entry v hv).imp_left
          intro hzero
          rw [hzero]
          rfl
        · rw [hshared.rest _ v h.dir hv fun hno => absurd hno hcovered]
          exact h.entry v hv
    | child =>
        show leaf t.mem child'.pgdir v = 0#64 ∨ valid (leaf t.mem child'.pgdir v) = true
        rw [hcopied.pgdir]
        by_cases hcovered : ∃ vma ∈ mm.mmapList, vma.covers v
        · rw [hshared.target v hv hcovered, shareOver]
          split
          next => exact Or.inr (valid_pteCreate _ _)
          next => exact Or.inl (h.empty v hv)
        · rw [hshared.rest _ v h.childDir hv fun hno => absurd hno hcovered]
          exact Or.inl (h.empty v hv)
  · intro who v hv
    rcases hleaf who v hv with heq | heq
    · rw [heq, valid_readOnly]
      exact hv.1
    · rw [heq]
      exact valid_pteCreate _ _
  · intro who v hv
    have hkeep := (hkept.data _ (hdata v hv)).2.1
    rcases hleaf who v hv with heq | heq
    · rw [heq, frame_readOnly, hkeep]
    · rw [heq, hframe v hv, hkeep]
  · intro who v who' v' hv _ _ hW
    rcases hleaf who v hv with heq | heq
    · rw [heq, readOnly, if_pos hv.1, writable_clearW] at hW
      cases hW
    · rw [heq, writable_shared] at hW
      cases hW

/-- After `dup_mmap` the child's pages are its own. -/
theorem duplicated (h : Forking role s mm child) (hcopied : AreasCopied child child' mm.mmapList)
    (halias : NoAlias s mm) (hpaged : Paged role' t) (hkept : Kept role role' s t)
    (hdup : Duplicated role role' s t child.pgdir mm.pgdir fun v =>
      ∃ vma ∈ mm.mmapList, vma.covers v) :
    Twins role' t (Mm.twins mm child') mm.mmapList (Present s mm) ∧
      ∀ who addr, Present s mm (ppn addr) →
        contents t.mem (Mm.twins mm child' who).pgdir addr = contents s.mem mm.pgdir addr := by
  have hparent : ∀ v, v < userPages → leaf t.mem mm.pgdir v = leaf s.mem mm.pgdir v :=
    fun v hv => hdup.rest _ v h.dir hv fun _ _ => h.distinct.symm
  have hdata : ∀ v, Present s mm v → role (frame (leaf s.mem mm.pgdir v)) = .data :=
    fun v hv => h.paged.tree.data h.dir (h.ok.present_user hv) hv.1
  have hfresh : ∀ v, Present s mm v → role (frame (leaf t.mem child.pgdir v)) = .free :=
    fun v hv => (hdup.fresh v (h.ok.present_user hv) hv.2 hv.1).1
  have hchild : (Mm.twins mm child' .child).pgdir = child.pgdir := hcopied.pgdir
  apply h.twins hcopied hpaged hkept
  · intro who v hv
    cases who with
    | parent =>
        show leaf t.mem mm.pgdir v = 0#64 ∨ valid (leaf t.mem mm.pgdir v) = true
        rw [hparent v hv]
        exact h.entry v hv
    | child =>
        rw [hchild]
        by_cases hpresent : Present s mm v
        · exact Or.inr (hdup.valid v hv hpresent.2 hpresent.1)
        · rw [hdup.rest _ v h.childDir hv fun hcovered hvalid => absurd ⟨hvalid, hcovered⟩ hpresent]
          exact Or.inl (h.empty v hv)
  · intro who v hv
    cases who with
    | parent =>
        show valid (leaf t.mem mm.pgdir v) = true
        rw [hparent v (h.ok.present_user hv)]
        exact hv.1
    | child =>
        rw [hchild]
        exact hdup.valid v (h.ok.present_user hv) hv.2 hv.1
  · intro who v hv
    cases who with
    | parent =>
        show t.mem (frame (leaf t.mem mm.pgdir v)) = _
        rw [hparent v (h.ok.present_user hv), (hkept.data _ (hdata v hv)).2.1]
    | child =>
        rw [hchild]
        exact hdup.copy v (h.ok.present_user hv) hv.2 hv.1
  · intro who v who' v' hv hv' hwritable hW hframe
    have hvu := h.ok.present_user hv
    have hvu' := h.ok.present_user hv'
    -- the frames of the child were free when the parent's were in use
    cases who <;> cases who'
    · refine ⟨rfl, halias v v' hv hv' hwritable ?_ ?_⟩
      · exact hparent v hvu ▸ hW
      · exact hparent v hvu ▸ hparent v' hvu' ▸ hframe
    · have hno := hfresh v' hv'
      rw [hchild] at hframe
      rw [hframe] at hno
      have hyes := hdata v hv
      rw [← hparent v hvu] at hyes
      exact Role.noConfusion (hyes.symm.trans hno)
    · have hno := hfresh v hv
      rw [hchild] at hframe
      rw [← hframe] at hno
      have hyes := hdata v' hv'
      rw [← hparent v' hvu'] at hyes
      exact Role.noConfusion (hyes.symm.trans hno)
    · rw [hchild] at hframe
      exact ⟨rfl, hdup.apart v' v hvu' hvu hv'.2 hv.2 hv'.1 hv.1 hframe⟩

end Forking

/-- The pages `pages` of the user, and `n` more that no area covers: the frames for these
are left when those for the pages have been used. -/
def spared (pages : Finset Nat) (n : Nat) : Finset Nat :=
  {v ∈ pages | v < userPages} ∪ Ico userPages (userPages + n)

theorem mem_spared {pages : Finset Nat} {n v : Nat} (hv : v < userPages) (hpages : v ∈ pages) :
    v ∈ spared pages n :=
  mem_union_left _ (mem_filter.mpr ⟨hpages, hv⟩)

theorem card_spared (pages : Finset Nat) (n : Nat) : (spared pages n).card ≤ pages.card + n := by
  calc (spared pages n).card
      ≤ {v ∈ pages | v < userPages}.card + (Ico userPages (userPages + n)).card :=
        card_union_le _ _
    _ ≤ pages.card + n := by
        rw [Nat.card_Ico, Nat.add_sub_cancel_left]
        exact Nat.add_le_add_right (card_filter_le _ _) n

/-- The frames that are left for the accesses. -/
theorem Supply.spared {pages : Finset Nat} {done : Nat → Prop} [DecidablePred done] {n : Nat}
    (h : Supply al (Mm.spared pages n) done s) (hdone : ∀ v, done v → v < userPages) :
    Plenty al n s := by
  apply h.mono
  have hsub : Ico userPages (userPages + n) ⊆ {v ∈ Mm.spared pages n | ¬ done v} := by
    intro v hv
    have hge := (mem_Ico.mp hv).1
    exact mem_filter.mpr ⟨mem_union_right _ hv, fun hd => absurd (hdone v hd) (Nat.not_lt.mpr hge)⟩
  have hcard := card_le_card hsub
  rw [Nat.card_Ico, Nat.add_sub_cancel_left] at hcard
  omega

/-- A fork by either way, up to the copy. -/
theorem fork_spec {copy : MmStruct → MmStruct → KernM (Int × MmStruct)} {n : Nat}
    {Q : Int × (Who → MmStruct) → Kern → Prop} (hpaged : Paged role s) (hcounted : Counted role s)
    (hdir : role mm.pgdir = .dir) (hok : mm.Ok)
    (hentry : ∀ v, v < userPages → leaf s.mem mm.pgdir v = 0#64 ∨
      valid (leaf s.mem mm.pgdir v) = true)
    (hnone : ∀ t, ¬ Plenty al (n + 1) s → Q (-E_NO_MEM, fun _ => mm) t)
    (hcopy : ∀ role' t child, Forking role' t mm child → (Plenty al (n + 1) s → Plenty al n t) →
      (∀ v, v < userPages → leaf t.mem mm.pgdir v = leaf s.mem mm.pgdir v) →
      (∀ f, role f = .data → t.mem f = s.mem f) →
      Ends E (copy child mm) t fun r u => Q (r.1, twins mm r.2) u) :
    Ends E (fork al copy mm) s Q := by
  unfold fork
  rw [ends_bind]
  apply (newMm_spec hpaged).imp
  rintro r t (⟨rfl, _, hpoor⟩ | ⟨f, rfl, hadded⟩)
  · exact hnone t fun hplenty => hpoor (hplenty.mono (Nat.le_add_left 1 n))
  · have hmmDir : mm.pgdir ≠ f := by
      rintro rfl
      rw [hadded.fresh] at hdir
      cases hdir
    have hleaf : ∀ v, v < userPages → leaf t.mem mm.pgdir v = leaf s.mem mm.pgdir v :=
      fun v hv => hadded.leaf_old hpaged.nextTick hdir hv
    have hcard := hpaged.nextTick.card_free hadded.paged hadded.fresh (by simp)
    simp only
    rw [ends_bind]
    apply (hcopy (Function.update role f .dir) t ⟨[], none, f, 1⟩ ?_
      (fun hplenty => hplenty.rest (Nat.le_of_eq hcard)) hleaf ?_).imp
    · rintro ⟨ret, child⟩ u hQ
      exact hQ
    · refine ⟨hadded.paged, hadded.counted hpaged.nextTick hcounted,
        (Function.update_of_ne hmmDir _ _).trans hdir, Function.update_self .., hmmDir.symm, hok,
        .empty f 1, rfl, fun v hv => ?_, fun v hv => hadded.leaf_new hv⟩
      rw [hleaf v hv]
      exact hentry v hv
    · intro g hg
      apply hadded.mem g
      rintro rfl
      rw [hadded.fresh] at hg
      cases hg

/-- What is to be shown of either way to copy: it makes two memories, and leaves a frame
for each access when there are `n` for the copy. -/
theorem forkRun_spec {copy : MmStruct → MmStruct → KernM (Int × MmStruct)} {accesses : List Access}
    {n : Nat} (hnull : E .nullPage ∨ Plenty al (n + 1) s) (hspace : UserSpace s mm)
    (hpermitted : ∀ access ∈ accesses, access.Permitted mm.mmapList (Present s mm))
    (hcopy : ∀ role t child, Forking role t mm child → (NoAlias s mm → NoAlias t mm) →
      (∀ v, v < userPages → leaf t.mem mm.pgdir v = leaf s.mem mm.pgdir v) →
      (Plenty al (n + 1) s → Plenty al n t) →
      Ends E (copy child mm) t fun r u => (r.1 ≠ 0 → r.1 = -E_NO_MEM ∧ ¬ Plenty al n t) ∧
        (r.1 = 0 → (Plenty al n t → Plenty al accesses.length u) ∧ ∃ role',
          Twins role' u (twins mm r.2) mm.mmapList (Present t mm) ∧
            ∀ who addr, Present t mm (ppn addr) →
              contents u.mem (twins mm r.2 who).pgdir addr = contents t.mem mm.pgdir addr)) :
    Ends E (forkRun al copy mm accesses) s fun r _ =>
      (r.1 = -E_NO_MEM ∧ ¬ Plenty al (n + 1) s) ∨
        r = (0, privateReads accesses fun _ addr => contents s.mem mm.pgdir addr) := by
  obtain ⟨role, hpaged, hcounted, hdir, hok, hentry⟩ := hspace
  unfold forkRun
  rw [ends_bind]
  apply fork_spec hpaged hcounted hdir hok hentry
  · exact fun _ hpoor => Or.inl ⟨rfl, hpoor⟩
  · intro role' t child hforking hplenty hleaf hmem
    have hpresent : ∀ v, Present t mm v ↔ Present s mm v := by
      intro v
      constructor
      · intro hv
        have hvu := hok.present_user hv
        exact ⟨hleaf v hvu ▸ hv.1, hv.2⟩
      · intro hv
        have hvu := hok.present_user hv
        exact ⟨(hleaf v hvu).symm ▸ hv.1, hv.2⟩
    have halias : NoAlias s mm → NoAlias t mm := by
      intro halias v v' hv hv'
      rw [hleaf v (hok.present_user hv), hleaf v' (hok.present_user hv')]
      exact halias v v' ((hpresent v).mp hv) ((hpresent v').mp hv')
    apply (hcopy role' t child hforking halias hleaf hplenty).imp
    rintro ⟨ret, child'⟩ u ⟨hmemory, htwins⟩
    simp only
    split
    next hret => exact Or.inl ((hmemory hret).imp_right fun hpoor h => hpoor (hplenty h))
    next hret =>
      rw [not_not] at hret
      obtain ⟨hleft, role'', htwins, hcontents⟩ := htwins hret
      rw [ends_map]
      apply (htwins.run accesses (hnull.imp_right fun h => hleft (hplenty h))
        (m := fun _ addr => contents s.mem mm.pgdir addr) ?_ ?_).imp
      · rintro reads _ rfl
        exact Or.inr rfl
      · intro who addr haddr
        have hvu := hok.present_user haddr
        rw [hcontents who addr haddr]
        unfold contents
        rw [hleaf _ hvu, hmem _ (hpaged.tree.data hdir hvu ((hpresent _).mp haddr).1)]
      · intro access haccess
        have hper := hpermitted access haccess
        cases access with
        | read who addr => exact ⟨(hpresent _).mpr hper.1, hper.2⟩
        | write who errorCode addr b => exact ⟨(hpresent _).mpr hper.1, hper.2⟩

section

variable {accesses : List Access} {pages : Finset Nat}

/-- A fork with `dup_mmap`, when `pages` are the pages that the parent maps. -/
theorem eagerRun_spec
    (hnull : E .nullPage ∨ Plenty al (3 * (spared pages accesses.length).card + 1) s)
    (hspace : UserSpace s mm) (halias : NoAlias s mm)
    (hpermitted : ∀ access ∈ accesses, access.Permitted mm.mmapList (Present s mm))
    (hpages : ∀ v, v < userPages → valid (leaf s.mem mm.pgdir v) = true → v ∈ pages) :
    Ends E (forkRun al (dupMmap al) mm accesses) s fun r _ =>
      (r.1 = -E_NO_MEM ∧ ¬ Plenty al (3 * (spared pages accesses.length).card + 1) s) ∨
        r = (0, privateReads accesses fun _ addr => contents s.mem mm.pgdir addr) := by
  apply forkRun_spec hnull hspace hpermitted
  intro role t child hforking halias' hleaf hplenty
  apply (dupMmap_spec (hnull.imp_right hplenty) hforking.childNew hforking.childOk hforking.ok
    hforking.paged hforking.childDir hforking.dir hforking.distinct (fun v hv => ?_)
    fun v hv hvalid => mem_spared hv (hpages v hv (hleaf v hv ▸ hvalid))).imp
  · rintro r u ⟨hmemory, hdone⟩
    refine ⟨hmemory, fun hret => ?_⟩
    obtain ⟨hcopied, _, hleft, role', hpaged', hkept, hdup⟩ := hdone hret
    refine ⟨fun h => (hleft h).spared fun v hv => ?_, role',
      hforking.duplicated hcopied (halias' halias) hpaged' hkept hdup⟩
    obtain ⟨vma, hvma, hcovers⟩ := hv
    exact (hforking.ok.areas vma hvma).user_page hcovers
  · rw [hforking.empty v hv, valid_zero]

/-- A fork with `cow_copy_mmap`. -/
theorem cowRun_spec
    (hnull : E .nullPage ∨ Plenty al (3 * (spared pages accesses.length).card + 1) s)
    (hmap : E .mapFailed ∨ Plenty al (3 * (spared pages accesses.length).card + 1) s)
    (hspace : UserSpace s mm)
    (hpermitted : ∀ access ∈ accesses, access.Permitted mm.mmapList (Present s mm))
    (hpages : ∀ v, v < userPages → valid (leaf s.mem mm.pgdir v) = true → v ∈ pages) :
    Ends E (forkRun al (cowCopyMmap al) mm accesses) s fun r _ =>
      (r.1 = -E_NO_MEM ∧ ¬ Plenty al (3 * (spared pages accesses.length).card + 1) s) ∨
        r = (0, privateReads accesses fun _ addr => contents s.mem mm.pgdir addr) := by
  apply forkRun_spec hnull hspace hpermitted
  intro role t child hforking _ hleaf hplenty
  apply (cowCopyMmap_spec (hmap.imp_right hplenty) (Or.inr hforking.childNew) hforking.childOk
    hforking.ok hforking.paged hforking.childDir hforking.dir hforking.distinct
    (fun v hv hvalid => ?_)
    fun v hv hvalid => mem_spared hv (hpages v hv (hleaf v hv ▸ hvalid))).imp
  · rintro r u ⟨hmemory, done, hdone, hall, hcopied, hleft, role', hpaged', hkept, _, hshared⟩
    refine ⟨hmemory, fun hret => ?_⟩
    have hsame : ∀ vma, vma ∈ done ↔ vma ∈ mm.mmapList := fun vma => ⟨hdone vma, hall hret vma⟩
    refine ⟨fun h => (hleft h).spared fun v hv => ?_, role',
      hforking.shared (hcopied.congr hsame) hpaged' hkept (hshared.congr fun v => ?_)⟩
    · obtain ⟨vma, hvma, hcovers⟩ := hv
      exact (hforking.ok.areas vma (hdone vma hvma)).user_page hcovers
    · simp only [hsame]
  · rw [hforking.empty v hv, valid_zero] at hvalid
    cases hvalid

end

end

/-- Copy-on-write fork and eager fork give parent and child the same memories:
whatever they read and write after the fork, every read returns what it would if
each process had a memory of its own, with the contents of the parent's at the fork.
With a frame for the page directory and three for each page that the parent maps and
for each access, both forks succeed and every access is made. -/
theorem fork_equiv (al al' : Allocator) {s : Kern} {mm : MmStruct} {accesses : List Access}
    (hspace : UserSpace s mm) (halias : NoAlias s mm)
    (hpermitted : ∀ access ∈ accesses, access.Permitted mm.mmapList (Present s mm)) :
    (Ends outOfMemory (forkRun al (dupMmap al) mm accesses) s fun r _ => r.1 = -E_NO_MEM ∨
      r = (0, privateReads accesses fun _ addr => contents s.mem mm.pgdir addr)) ∧
    (Ends outOfMemory (forkRun al' (cowCopyMmap al') mm accesses) s fun r _ => r.1 = -E_NO_MEM ∨
      r = (0, privateReads accesses fun _ addr => contents s.mem mm.pgdir addr)) ∧
    (∀ reads reads' t t', forkRun al (dupMmap al) mm accesses s = .ok ((0, reads), t) →
      forkRun al' (cowCopyMmap al') mm accesses s = .ok ((0, reads'), t') → reads = reads') ∧
    ∀ pages : Finset Nat,
      (∀ v, v < userPages → valid (leaf s.mem mm.pgdir v) = true → v ∈ pages) →
      (Plenty al (3 * (pages.card + accesses.length) + 1) s →
        Ends never (forkRun al (dupMmap al) mm accesses) s fun r _ =>
          r = (0, privateReads accesses fun _ addr => contents s.mem mm.pgdir addr)) ∧
      (Plenty al' (3 * (pages.card + accesses.length) + 1) s →
        Ends never (forkRun al' (cowCopyMmap al') mm accesses) s fun r _ =>
          r = (0, privateReads accesses fun _ addr => contents s.mem mm.pgdir addr)) := by
  have hnull : outOfMemory .nullPage := Or.inl rfl
  have hmap : outOfMemory .mapFailed := Or.inr rfl
  have huser : ∀ v, v < userPages → valid (leaf s.mem mm.pgdir v) = true → v ∈ range userPages :=
    fun v hv _ => mem_range.mpr hv
  have heager : Ends outOfMemory (forkRun al (dupMmap al) mm accesses) s fun r _ =>
      r.1 = -E_NO_MEM ∨ r = (0, privateReads accesses fun _ addr => contents s.mem mm.pgdir addr) :=
    (eagerRun_spec (Or.inl hnull) hspace halias hpermitted huser).imp fun r _ h =>
      h.imp_left And.left
  have hcow : Ends outOfMemory (forkRun al' (cowCopyMmap al') mm accesses) s fun r _ =>
      r.1 = -E_NO_MEM ∨ r = (0, privateReads accesses fun _ addr => contents s.mem mm.pgdir addr) :=
    (cowRun_spec (Or.inl hnull) (Or.inl hmap) hspace hpermitted huser).imp fun r _ h =>
      h.imp_left And.left
  refine ⟨heager, hcow, fun reads reads' t t' hrun hrun' => ?_, fun pages hpages => ?_⟩
  · unfold Ends at heager hcow
    rw [hrun] at heager
    rw [hrun'] at hcow
    have hreads : ∀ {r : List (BitVec 8)}, ((0 : Int), r).1 = -E_NO_MEM ∨ ((0 : Int), r) =
        (0, privateReads accesses fun _ addr => contents s.mem mm.pgdir addr) →
        r = privateReads accesses fun _ addr => contents s.mem mm.pgdir addr := by
      rintro r (hno | heq)
      · simp [E_NO_MEM] at hno
      · exact (Prod.mk.inj heq).2
    rw [hreads heager, hreads hcow]
  · have hle : 3 * (spared pages accesses.length).card + 1 ≤
        3 * (pages.card + accesses.length) + 1 :=
      Nat.succ_le_succ (Nat.mul_le_mul_left 3 (card_spared _ _))
    constructor
    · intro hplenty
      have hplenty' := hplenty.mono hle
      apply (eagerRun_spec (Or.inr hplenty') hspace halias hpermitted hpages).imp
      exact fun r _ h => h.resolve_left fun hno => hno.2 hplenty'
    · intro hplenty
      have hplenty' := hplenty.mono hle
      apply (cowRun_spec (Or.inr hplenty') (Or.inr hplenty') hspace hpermitted hpages).imp
      exact fun r _ h => h.resolve_left fun hno => hno.2 hplenty'

/-- An address space with one area, whose first page is mapped. -/
def touchOne (len : Nat) : List ProcOp :=
  [.create 1, .mmMap 1 0x200000 len (VM_READ ||| VM_WRITE), .doPgfault 1 0 0x200000]

/-- The frames of the examples, in the order in which they are handed out. -/
def exampleFrames : List Nat :=
  [0x80500, 0x80501, 0x80502, 0x80503, 0x80504, 0x80505, 0x80506, 0x80507, 0x80508, 0x80509]

/-- The memory after `touchOne`. -/
theorem touchOne_inv {len : Nat} {st : Procs}
    (hfold : (touchOne len).foldlM (fun st op => if op.firstTouch st = true then
      ProcOp.step (.ofList exampleFrames) st op else none) (bootProcs exampleFrames.toFinset) =
      some st) : ∃ role, st.Inv role := by
  have hinit : (bootProcs exampleFrames.toFinset).Initial := bootProcs_initial (by decide)
  exact hinit.run ((RunsTo.of_foldlM hfold).mono fun st op hfirst =>
    ⟨(ProcOp.of_firstTouch hfirst).1, fun vma hfault =>
      absurd hfault ((ProcOp.of_firstTouch hfirst).2 vma)⟩)

/-- The child writes to a page, and both read it. -/
def childWrites : List Access :=
  [.write .child 0 0x200008 7, .read .parent 0x200008, .read .child 0x200008]

/-- Frames for the page, the tables and a fork with three accesses. -/
def roomyFrames : Finset Nat := (List.range 20).toFinset.image (0x80500 + ·)

/-- Both ways to fork succeed: the parent still reads 0 after the child has written 7. -/
theorem fork_equiv_write : ∃ s mm,
    Ends never (forkRun .lowest (dupMmap .lowest) mm childWrites) s (fun r _ => r = (0, [0, 7])) ∧
    Ends never (forkRun .lowest (cowCopyMmap .lowest) mm childWrites) s
      (fun r _ => r = (0, [0, 7])) := by
  have hfold : ((touchOne 0x1000).foldlM (fun st op => if op.firstTouch st = true then
      ProcOp.step .lowest st op else none) (bootProcs roomyFrames)).map (fun st =>
        (decide (13 ≤ st.kern.free.card), (st.mm 1).map fun mm =>
          (mm.mmapList, valid (leaf st.kern.mem mm.pgdir 0x200),
            contents st.kern.mem mm.pgdir 0x200008))) =
      some (true, some ([⟨0x200000, 0x201000, VM_READ ||| VM_WRITE⟩], true, 0)) := by
    decide +kernel
  obtain ⟨st, hst, hvalues⟩ := Option.map_eq_some_iff.mp hfold
  simp only [Prod.mk.injEq, decide_eq_true_eq, Option.map_eq_some_iff] at hvalues
  obtain ⟨hroom, mm, hmm, hlist, hvalid, hbyte⟩ := hvalues
  have hinit : (bootProcs roomyFrames).Initial := bootProcs_initial (by decide)
  obtain ⟨role, hinv⟩ := hinit.run ((RunsTo.of_foldlM hst).mono fun st op hfirst =>
    ⟨(ProcOp.of_firstTouch hfirst).1,
      fun vma hfault => absurd hfault ((ProcOp.of_firstTouch hfirst).2 vma)⟩)
  have harea : (⟨0x200000, 0x201000, VM_READ ||| VM_WRITE⟩ : VmaStruct) ∈ mm.mmapList := by
    simp [hlist]
  -- the area has one page
  have honly : ∀ v, (∃ vma ∈ mm.mmapList, vma.covers v) → v = 0x200 := by
    rintro v ⟨vma, hvma, hcovers⟩
    rw [hlist, List.mem_singleton] at hvma
    subst hvma
    unfold VmaStruct.covers VmaStruct.contains PGSIZE at hcovers
    simp only at hcovers
    omega
  have halias : NoAlias st.kern mm :=
    fun v v' hv hv' _ _ _ => (honly v' hv'.2).trans (honly v hv.2).symm
  have hpresent : Present st.kern mm 0x200 := ⟨hvalid, _, harea, by decide⟩
  have hpermitted : ∀ access ∈ childWrites,
      access.Permitted mm.mmapList (Present st.kern mm) := by
    intro access haccess
    simp only [childWrites, List.mem_cons, List.not_mem_nil, or_false] at haccess
    rcases haccess with rfl | rfl | rfl
    · exact ⟨hpresent, _, harea, by decide, by decide⟩
    · exact ⟨hpresent, _, harea, by decide⟩
    · exact ⟨hpresent, _, harea, by decide⟩
  have hpages : ∀ v, v < userPages → valid (leaf st.kern.mem mm.pgdir v) = true →
      v ∈ ({0x200} : Finset Nat) := by
    intro v hv hvalid
    rcases hinv.entries 1 mm v hmm hv with hzero | ⟨_, vma, hvma, hcovers, _⟩
    · rw [hzero, valid_zero] at hvalid
      cases hvalid
    · exact mem_singleton.mpr (honly v ⟨vma, hvma, hcovers⟩)
  have hplenty : Plenty .lowest (3 * (({0x200} : Finset Nat).card + childWrites.length) + 1)
      st.kern :=
    ⟨Allocator.lowest_generous, hroom⟩
  have hreads : privateReads childWrites (fun _ addr => contents st.kern.mem mm.pgdir addr) =
      [0, 7] := by
    show [contents st.kern.mem mm.pgdir 0x200008, 7] = [0, 7]
    rw [hbyte]
  obtain ⟨heager, hcow⟩ := (fork_equiv .lowest .lowest (hinv.userSpace hmm) halias
    hpermitted).2.2.2 {0x200} hpages
  refine ⟨st.kern, mm, (heager hplenty).imp ?_, (hcow hplenty).imp ?_⟩
  · exact fun r _ hr => hr.trans (by rw [hreads])
  · exact fun r _ hr => hr.trans (by rw [hreads])

/-- The parent writes to one of two addresses of a page, and reads the other. -/
def aliasWrites : List Access := [.write .parent 0 0x200008 7, .read .parent 0x201008]

/-- A parent that maps a page twice loses the second mapping when it writes after
a copy-on-write fork, and keeps it after an eager one. -/
theorem fork_differs : ¬ ∀ (al al' : Allocator) (s : Kern) (mm : MmStruct) (accesses : List Access),
    UserSpace s mm → (∀ access ∈ accesses, access.Permitted mm.mmapList (Present s mm)) →
    ∀ reads reads' t t', forkRun al (dupMmap al) mm accesses s = .ok ((0, reads), t) →
      forkRun al' (cowCopyMmap al') mm accesses s = .ok ((0, reads'), t') → reads = reads' := by
  intro hclaim
  have hfold : ((touchOne 0x2000).foldlM (fun st op => if op.firstTouch st = true then
      ProcOp.step (.ofList exampleFrames) st op else none)
      (bootProcs exampleFrames.toFinset)).map (fun st => ((st.mm 1).map MmStruct.mmapList,
        ((ProcOp.insertPage 1 0x201000 (PTE_U ||| READ_WRITE) 1 0x200000).step
          (.ofList exampleFrames) st).map fun st => (st.mm 1).map fun mm =>
            decide (mm.mmapList = [⟨0x200000, 0x202000, VM_READ ||| VM_WRITE⟩]) &&
            valid (leaf st.kern.mem mm.pgdir 0x200) && valid (leaf st.kern.mem mm.pgdir 0x201) &&
            decide (result (forkRun (.ofList exampleFrames) (dupMmap (.ofList exampleFrames)) mm
              aliasWrites) st.kern = some (0, [7])) &&
            decide (result (forkRun (.ofList exampleFrames) (cowCopyMmap (.ofList exampleFrames)) mm
              aliasWrites) st.kern = some (0, [0])))) =
      some (some [⟨0x200000, 0x202000, VM_READ ||| VM_WRITE⟩], some (some true)) := by
    decide +kernel
  obtain ⟨st, hst, hvalues⟩ := Option.map_eq_some_iff.mp hfold
  obtain ⟨hlist, hnext⟩ := by simpa only [Prod.mk.injEq] using hvalues
  obtain ⟨st', hstep, hmm'⟩ := Option.map_eq_some_iff.mp hnext
  obtain ⟨mm', hmm', hvalues'⟩ := Option.map_eq_some_iff.mp hmm'
  simp only [Bool.and_eq_true, decide_eq_true_eq] at hvalues'
  obtain ⟨⟨⟨⟨hlist', hvalid⟩, hvalid'⟩, heager⟩, hcow⟩ := hvalues'
  obtain ⟨role, hinv⟩ := touchOne_inv hst
  have hallows : ∀ mm, st.mm 1 = some mm → mm.Allows 0x201000 (PTE_U ||| READ_WRITE) := by
    intro mm hmm
    rw [hmm, Option.map_some, Option.some.injEq] at hlist
    exact ⟨by decide, ⟨0x200000, 0x202000, VM_READ ||| VM_WRITE⟩, by simp [hlist], by decide,
      fun _ => by decide⟩
  have hnofault : ∀ vma,
      (ProcOp.insertPage 1 0x201000 (PTE_U ||| READ_WRITE) 1 0x200000).FaultsOnPresent
      st vma → vma.writable = true := by
    rintro vma ⟨id, errorCode, addr, mm, hop, _⟩
    cases hop
  have hok : (ProcOp.insertPage 1 0x201000 (PTE_U ||| READ_WRITE) 1 0x200000).Permitted st :=
    ⟨hallows, by decide⟩
  obtain ⟨role', hinv', _⟩ := hinv.next_of_step hok hnofault hstep
  have harea : (⟨0x200000, 0x202000, VM_READ ||| VM_WRITE⟩ : VmaStruct) ∈ mm'.mmapList := by
    simp [hlist']
  have hpermitted : ∀ access ∈ aliasWrites,
      access.Permitted mm'.mmapList (Present st'.kern mm') := by
    intro access haccess
    simp only [aliasWrites, List.mem_cons, List.not_mem_nil, or_false] at haccess
    rcases haccess with rfl | rfl
    · exact ⟨⟨hvalid, _, harea, by decide⟩, _, harea, by decide, by decide⟩
    · exact ⟨⟨hvalid', _, harea, by decide⟩, _, harea, by decide⟩
  obtain ⟨t, ht⟩ := of_result heager
  obtain ⟨t', ht'⟩ := of_result hcow
  have hsame := hclaim _ _ _ _ _ (hinv'.userSpace hmm') hpermitted [7] [0] t t' ht ht'
  exact absurd hsame (by decide)

end Ucore.Mm
