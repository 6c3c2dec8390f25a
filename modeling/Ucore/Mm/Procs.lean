import Ucore.Foundation.Runs
import Ucore.Mm.Exit
import Ucore.Mm.Fork

/-!
# Address spaces side by side

The memory system of lab5 as a whole: any number of address spaces over one set
of page frames, and the operations on them in any order.
-/

namespace Ucore.Mm

open Mmu Machine Finset

/-- The kernel and the address spaces, by the addresses of their `mm_struct`. -/
structure Procs where
  kern : Kern
  mm : Nat → Option MmStruct

/-- The operations on address spaces. `insertPage` maps the page that another
address maps, `allocPage` a new one. -/
inductive ProcOp
  | create (id : Nat)
  | mmMap (id addr len : Nat) (vmFlags : BitVec 32)
  | allocPage (id la : Nat) (perm : Pte)
  | insertPage (id la : Nat) (perm : Pte) (id' la' : Nat)
  | cowCopyMmap (id id' : Nat)
  | doPgfault (id errorCode addr : Nat)
  | pageRemove (id la : Nat)
  | unmapRange (id start stop : Nat)
  | exit (id : Nat)

/-- The address space that an operation is on. -/
def ProcOp.target : ProcOp → Nat
  | .create id | .mmMap id _ _ _ | .allocPage id _ _ | .insertPage id _ _ _ _ | .cowCopyMmap id _
  | .doPgfault id _ _ | .pageRemove id _ | .unmapRange id _ _ | .exit id => id

section

variable (al : Allocator)

/-- A `struct mm_struct *` that must not be `NULL`. -/
def getMm (mms : Nat → Option MmStruct) (id : Nat) : KernM MmStruct :=
  match mms id with
  | none => throw .nullPointer
  | some mm => pure mm

/-- Runs an operation; returns what becomes of the address space that it is on. -/
def ProcOp.call (mms : Nat → Option MmStruct) : ProcOp → KernM (Option MmStruct)
  | .create _ => newMm al
  | .mmMap id addr len vmFlags => do
      let mm ← getMm mms id
      let (_, mm) ← Mm.mmMap al mm addr len vmFlags
      pure (some mm)
  | .allocPage id la perm => do
      let mm ← getMm mms id
      let _ ← pgdirAllocPage al.allocPage mm.pgdir la perm
      pure (some mm)
  | .insertPage id la perm id' la' => do
      let mm ← getMm mms id
      let mm' ← getMm mms id'
      match ← getPage al.allocPage mm'.pgdir la' with
      | none => pure (some mm)
      | some page =>
          let _ ← pageInsert al.allocPage mm.pgdir page la perm
          pure (some mm)
  | .cowCopyMmap id id' => do
      let mm ← getMm mms id
      let (_, mm) ← Mm.cowCopyMmap al mm (← getMm mms id')
      pure (some mm)
  | .doPgfault id errorCode addr => do
      let mm ← getMm mms id
      let (_, mm) ← Mm.doPgfault al mm errorCode addr
      pure (some mm)
  | .pageRemove id la => do
      let mm ← getMm mms id
      Mm.pageRemove al.allocPage mm.pgdir la
      pure (some mm)
  | .unmapRange id start stop => do
      let mm ← getMm mms id
      Mm.unmapRange al.allocPage mm.pgdir start stop
      pure (some mm)
  | .exit id => do exitMm al (← getMm mms id)

def ProcOp.step (st : Procs) (op : ProcOp) : Option Procs :=
  match op.call al st.mm st.kern with
  | .error _ => none
  | .ok (mm, t) => some ⟨t, Function.update st.mm op.target mm⟩

end

/-- A page may be mapped with these permissions: it lies in an area, and is not
writable unless the area is. -/
def MmStruct.Allows (mm : MmStruct) (la : Nat) (perm : Pte) : Prop :=
  IsPerm perm ∧ ∃ vma ∈ mm.mmapList, vma.contains la ∧ (writable perm = true → vma.writable = true)

/-- What callers owe: a new address space is none that exists, pages are mapped
with the permissions of their area, an address space is copied to another one,
and pages are removed from user addresses. -/
def ProcOp.Permitted (st : Procs) : ProcOp → Prop
  | .create id => st.mm id = none
  | .allocPage id la perm => ∀ mm, st.mm id = some mm → mm.Allows la perm
  | .insertPage id la perm _ la' =>
      (∀ mm, st.mm id = some mm → mm.Allows la perm) ∧ ppn la' < userPages
  | .cowCopyMmap id id' => id ≠ id'
  | .pageRemove _ la => ppn la < userPages
  | _ => True

/-- A fault on a page that is present, in the area `vma`. Only such a fault gets to `cow_pgfault`.
-/
def ProcOp.FaultsOnPresent (st : Procs) (op : ProcOp) (vma : VmaStruct) : Prop :=
  ∃ id errorCode addr mm, op = .doPgfault id errorCode addr ∧ st.mm id = some mm ∧
    vma ∈ mm.mmapList ∧ vma.contains addr ∧ valid (leaf st.kern.mem mm.pgdir (ppn addr)) = true

/-! ## The invariant -/

/-- What an entry may be: 0, or that of a page in an area, writable only if the
area is. -/
def MmStruct.EntryOk (mm : MmStruct) (v : Nat) (e : Pte) : Prop :=
  e = 0#64 ∨ valid e = true ∧ ∃ vma ∈ mm.mmapList, vma.covers v ∧
    (writable e = true → vma.writable = true)

structure Procs.Inv (role : Nat → Role) (st : Procs) : Prop where
  paged : Paged role st.kern
  counted : Counted role st.kern
  dirs : ∀ f, role f = .dir ↔ ∃ id mm, st.mm id = some mm ∧ mm.pgdir = f
  distinct : ∀ id id' mm mm', st.mm id = some mm → st.mm id' = some mm' →
    mm.pgdir = mm'.pgdir → id = id'
  mms : ∀ id mm, st.mm id = some mm → mm.Ok ∧ mm.mmCount = 1
  entries : ∀ id mm v, st.mm id = some mm → v < userPages →
    mm.EntryOk v (leaf st.kern.mem mm.pgdir v)

/-- What a step may do with frames: pages of data come from free frames, and
frames that are lost were tables. -/
structure Transition (role role' : Nat → Role) (s t : Kern) : Prop where
  data : ∀ f, role' f = .data → role f = .data ∨ role f = .free
  other : ∀ f, role' f = .other → role f = .other ∨ (role f).isTable = true
  rest : ∀ f, role f = .other → role' f = .other ∧ t.ref f = s.ref f

theorem Evolves.transition {role role' : Nat → Role} {s t : Kern} (h : Evolves role role' s t) :
    Transition role role' s t :=
  ⟨fun _ hf => h.data hf, fun f hf => Or.inl (h.other f hf), h.rest⟩

theorem Transition.same {role : Nat → Role} {s t : Kern} (href : t.ref = s.ref) :
    Transition role role s t :=
  ⟨fun _ hf => Or.inl hf, fun _ hf => Or.inl hf, fun _ hf => ⟨hf, by rw [href]⟩⟩

namespace MmStruct.EntryOk

variable {mm mm' : MmStruct} {v : Nat} {e : Pte}

theorem mono (h : mm.EntryOk v e) (hareas : ∀ vma ∈ mm.mmapList, vma ∈ mm'.mmapList) :
    mm'.EntryOk v e := by
  apply h.imp_right
  rintro ⟨hvalid, vma, hvma, hallowed⟩
  exact ⟨hvalid, vma, hareas vma hvma, hallowed⟩

theorem removed (h : mm.EntryOk v e) : mm.EntryOk v (removed e) := by
  rcases h with rfl | ⟨hvalid, _⟩
  · exact Or.inl rfl
  · left
    rw [Mm.removed, if_pos hvalid]

theorem readOnly (h : mm.EntryOk v e) : mm.EntryOk v (readOnly e) := by
  rcases h with rfl | ⟨hvalid, vma, hvma, hcovers, _⟩
  · exact Or.inl rfl
  · refine Or.inr ⟨by rwa [valid_readOnly], vma, hvma, hcovers, fun hw => ?_⟩
    rw [Mm.readOnly, if_pos hvalid, writable_clearW] at hw
    cases hw

theorem shared {vma : VmaStruct} (hvma : vma ∈ mm.mmapList) (hcovers : vma.covers v) :
    mm.EntryOk v (sharedPte e) := by
  refine Or.inr ⟨valid_pteCreate _ _, vma, hvma, hcovers, fun hw => ?_⟩
  rw [writable_shared] at hw
  cases hw

/-- The entry of a page that is mapped with permissions that the areas allow. -/
theorem created (hmm : mm.Ok) {la : Nat} {perm : Pte} (hallows : mm.Allows la perm) (page : Nat) :
    mm.EntryOk (ppn la) (pteCreate page (PTE_V ||| perm)) := by
  obtain ⟨_, vma, hvma, hla, hperm⟩ := hallows
  refine Or.inr ⟨valid_pteCreate _ _, vma, hvma, (hmm.areas vma hvma).covers_ppn hla, fun hw => ?_⟩
  apply hperm
  rw [writable_pteCreate] at hw
  simpa [writable_eq, PTE_V] using hw

end MmStruct.EntryOk

/-! ## Steps -/

/-- What a step leaves: the invariant, for uses of the frames that have changed
as they may, and exact counts unless the step is a fault on a present page. -/
def Procs.Next (role : Nat → Role) (st : Procs) (op : ProcOp) (st' : Procs) : Prop :=
  ∃ role', st'.Inv role' ∧ Transition role role' st.kern st'.kern ∧
    ((∀ vma, ¬ op.FaultsOnPresent st vma) → Exact role st.kern → Exact role' st'.kern)

namespace Procs.Inv

variable {E : Panic → Prop} {role role' : Nat → Role} {st : Procs} {t : Kern} {al : Allocator}
  {op : ProcOp} {id : Nat} {mm mm' : MmStruct}

theorem dir (hinv : st.Inv role) (hmm : st.mm id = some mm) : role mm.pgdir = .dir :=
  (hinv.dirs mm.pgdir).mpr ⟨id, mm, hmm, rfl⟩

/-- The entries, as page faults find them. -/
theorem entry (hinv : st.Inv role) (hmm : st.mm id = some mm) {v : Nat} (hv : v < userPages) :
    leaf st.kern.mem mm.pgdir v = 0#64 ∨ valid (leaf st.kern.mem mm.pgdir v) = true :=
  (hinv.entries id mm v hmm hv).imp_right And.left

/-- The page directories after an address space has changed in other respects. -/
theorem exists_pgdir_update {mms : Nat → Option MmStruct} (hmm : mms id = some mm)
    (hpgdir : mm'.pgdir = mm.pgdir) (f : Nat) :
    (∃ id' mm₁, Function.update mms id (some mm') id' = some mm₁ ∧ mm₁.pgdir = f) ↔
      ∃ id' mm₁, mms id' = some mm₁ ∧ mm₁.pgdir = f := by
  constructor
  · rintro ⟨id', mm₁, hmm₁, rfl⟩
    by_cases hid : id' = id
    · subst hid
      rw [Function.update_self, Option.some.injEq] at hmm₁
      exact ⟨id', mm, hmm, hmm₁ ▸ hpgdir.symm⟩
    · rw [Function.update_of_ne hid] at hmm₁
      exact ⟨id', mm₁, hmm₁, rfl⟩
  · rintro ⟨id', mm₁, hmm₁, rfl⟩
    by_cases hid : id' = id
    · subst hid
      obtain rfl := Option.some.inj (hmm.symm.trans hmm₁)
      exact ⟨id', mm', Function.update_self .., hpgdir⟩
    · exact ⟨id', mm₁, (Function.update_of_ne hid _ _).trans hmm₁, rfl⟩

/-- The invariant after a step on one address space that keeps its page directory. -/
theorem update (hinv : st.Inv role) (hmm : st.mm id = some mm) (hok : mm'.Ok)
    (hpgdir : mm'.pgdir = mm.pgdir) (hcount : mm'.mmCount = mm.mmCount) (hpaged : Paged role' t)
    (hevolves : Evolves role role' st.kern t)
    (hself : ∀ v, v < userPages → mm'.EntryOk v (leaf t.mem mm.pgdir v))
    (hothers : ∀ id' mm₁ v, id' ≠ id → st.mm id' = some mm₁ → v < userPages →
      mm₁.EntryOk v (leaf t.mem mm₁.pgdir v)) :
    Procs.Inv role' ⟨t, Function.update st.mm id (some mm')⟩ := by
  have hcases : ∀ {id' mm₁}, Function.update st.mm id (some mm') id' = some mm₁ →
      (id' = id ∧ mm₁ = mm') ∨ (id' ≠ id ∧ st.mm id' = some mm₁) := by
    intro id' mm₁ h
    by_cases hid : id' = id
    · subst hid
      rw [Function.update_self, Option.some.injEq] at h
      exact Or.inl ⟨rfl, h.symm⟩
    · rw [Function.update_of_ne hid] at h
      exact Or.inr ⟨hid, h⟩
  refine ⟨hpaged, hevolves.counted hinv.counted, fun f => ?_, ?_, ?_, ?_⟩
  · rw [hevolves.dir, hinv.dirs, exists_pgdir_update hmm hpgdir]
  · intro id₁ id₂ mm₁ mm₂ hmm₁ hmm₂ heq
    rcases hcases hmm₁ with ⟨hid₁, rfl⟩ | ⟨hid₁, hold₁⟩ <;>
      rcases hcases hmm₂ with ⟨hid₂, rfl⟩ | ⟨hid₂, hold₂⟩
    · rw [hid₁, hid₂]
    · exact absurd (hinv.distinct _ _ _ _ hmm hold₂ (hpgdir.symm.trans heq)).symm hid₂
    · exact absurd (hinv.distinct _ _ _ _ hold₁ hmm (heq.trans hpgdir)) hid₁
    · exact hinv.distinct _ _ _ _ hold₁ hold₂ heq
  · intro id' mm₁ hmm₁
    rcases hcases hmm₁ with ⟨rfl, rfl⟩ | ⟨_, hmm₁⟩
    · exact ⟨hok, hcount.trans (hinv.mms _ _ hmm).2⟩
    · exact hinv.mms _ _ hmm₁
  · intro id' mm₁ v hmm₁ hv
    rcases hcases hmm₁ with ⟨rfl, rfl⟩ | ⟨hid, hmm₁⟩
    · rw [hpgdir]
      exact hself v hv
    · exact hothers _ _ v hid hmm₁ hv

/-- The same, where no other page directory changes. -/
theorem updateOne (hinv : st.Inv role) (hmm : st.mm id = some mm) (hok : mm'.Ok)
    (hpgdir : mm'.pgdir = mm.pgdir) (hcount : mm'.mmCount = mm.mmCount) (hpaged : Paged role' t)
    (hevolves : Evolves role role' st.kern t)
    (hself : ∀ v, v < userPages → mm'.EntryOk v (leaf t.mem mm.pgdir v))
    (hsame : ∀ pgdir v, role pgdir = .dir → pgdir ≠ mm.pgdir → v < userPages →
      leaf t.mem pgdir v = leaf st.kern.mem pgdir v) :
    Procs.Inv role' ⟨t, Function.update st.mm id (some mm')⟩ := by
  refine hinv.update hmm hok hpgdir hcount hpaged hevolves hself fun id' mm₁ v hid hmm₁ hv => ?_
  have hne : mm₁.pgdir ≠ mm.pgdir := fun heq => hid (hinv.distinct _ _ _ _ hmm₁ hmm heq)
  rw [hsame mm₁.pgdir v (hinv.dir hmm₁) hne hv]
  exact hinv.entries _ _ v hmm₁ hv

/-- The same, where one entry is set. -/
theorem updateEntry (hinv : st.Inv role) (hmm : st.mm id = some mm) (hok : mm'.Ok)
    (hpgdir : mm'.pgdir = mm.pgdir) (hcount : mm'.mmCount = mm.mmCount)
    (hareas : ∀ vma ∈ mm.mmapList, vma ∈ mm'.mmapList) (hpaged : Paged role' t)
    (hevolves : Evolves role role' st.kern t) {v : Nat} {e : Pte}
    (hset : LeafSet role st.kern t mm.pgdir v e) (he : mm'.EntryOk v e) :
    Procs.Inv role' ⟨t, Function.update st.mm id (some mm')⟩ := by
  refine hinv.updateOne hmm hok hpgdir hcount hpaged hevolves (fun w hw => ?_)
    fun pgdir w hdir hne hw => ?_
  · rw [hset _ w (hinv.dir hmm) hw]
    split
    next heq => exact heq.2 ▸ he
    next => exact (hinv.entries _ _ w hmm hw).mono hareas
  · rw [hset pgdir w hdir hw, if_neg fun heq => hne heq.1]

/-- The same, where no entry changes. -/
theorem updateNone (hinv : st.Inv role) (hmm : st.mm id = some mm) (hok : mm'.Ok)
    (hpgdir : mm'.pgdir = mm.pgdir) (hcount : mm'.mmCount = mm.mmCount)
    (hareas : ∀ vma ∈ mm.mmapList, vma ∈ mm'.mmapList) (hpaged : Paged role' t)
    (hevolves : Evolves role role' st.kern t) (hsame : LeafSame role st.kern t) :
    Procs.Inv role' ⟨t, Function.update st.mm id (some mm')⟩ := by
  refine hinv.updateOne hmm hok hpgdir hcount hpaged hevolves (fun w hw => ?_)
    fun pgdir w hdir _ hw => hsame pgdir w hdir hw
  rw [hsame _ w (hinv.dir hmm) hw]
  exact (hinv.entries _ _ w hmm hw).mono hareas

/-- Operations on an address space that exists. -/
theorem ends_getMm {mms : Nat → Option MmStruct} {s : Kern} {Q : MmStruct → Kern → Prop}
    (hnull : E .nullPointer) (hQ : ∀ mm, mms id = some mm → Q mm s) :
    Ends E (getMm mms id) s Q := by
  unfold getMm
  cases hmm : mms id with
  | none => exact hnull
  | some mm => exact hQ mm hmm

/-! ## One operation -/

/-- What a step leaves where exact counts stay exact. -/
theorem next (hinv' : Procs.Inv role' ⟨t, Function.update st.mm id (some mm')⟩)
    (htransition : Transition role role' st.kern t)
    (hexact : Exact role st.kern → Exact role' t) :
    st.Next role op ⟨t, Function.update st.mm id (some mm')⟩ :=
  ⟨role', hinv', htransition, fun _ => hexact⟩

/-- A new address space. -/
theorem added (hinv : st.Inv role) (hid : st.mm id = none) {n : Nat} (hmm : mm'.Ok)
    (hcount : mm'.mmCount = 1) (hpgdir : mm'.pgdir = n) (hadded : DirAdded role st.kern t n) :
    Procs.Inv (Function.update role n .dir) ⟨t, Function.update st.mm id (some mm')⟩ := by
  have hcases : ∀ {id' mm₁}, Function.update st.mm id (some mm') id' = some mm₁ →
      (id' = id ∧ mm₁ = mm') ∨ (st.mm id' = some mm₁ ∧ mm₁.pgdir ≠ n) := by
    intro id' mm₁ h
    by_cases heq : id' = id
    · rw [heq, Function.update_self, Option.some.injEq] at h
      exact Or.inl ⟨heq, h.symm⟩
    · rw [Function.update_of_ne heq] at h
      refine Or.inr ⟨h, fun hn => ?_⟩
      have hdir := hinv.dir h
      rw [hn, hadded.fresh] at hdir
      cases hdir
  refine ⟨hadded.paged, hadded.counted hinv.paged hinv.counted, fun f => ?_, ?_, ?_, ?_⟩
  · by_cases hf : f = n
    · subst hf
      exact iff_of_true (by simp) ⟨id, mm', Function.update_self .., hpgdir⟩
    · rw [Function.update_of_ne hf, hinv.dirs]
      constructor
      · rintro ⟨id', mm₁, hmm₁, rfl⟩
        have hne : id' ≠ id := by
          rintro rfl
          rw [hid] at hmm₁
          cases hmm₁
        exact ⟨id', mm₁, (Function.update_of_ne hne _ _).trans hmm₁, rfl⟩
      · rintro ⟨id', mm₁, hmm₁, rfl⟩
        rcases hcases hmm₁ with ⟨_, rfl⟩ | ⟨hold, _⟩
        · exact absurd hpgdir hf
        · exact ⟨id', mm₁, hold, rfl⟩
  · intro id₁ id₂ mm₁ mm₂ hmm₁ hmm₂ heq
    rcases hcases hmm₁ with ⟨hid₁, rfl⟩ | ⟨hold₁, hne₁⟩ <;>
      rcases hcases hmm₂ with ⟨hid₂, rfl⟩ | ⟨hold₂, hne₂⟩
    · rw [hid₁, hid₂]
    · exact absurd (heq.symm.trans hpgdir) hne₂
    · exact absurd (heq.trans hpgdir) hne₁
    · exact hinv.distinct _ _ _ _ hold₁ hold₂ heq
  · intro id' mm₁ hmm₁
    rcases hcases hmm₁ with ⟨_, rfl⟩ | ⟨hold, _⟩
    · exact ⟨hmm, hcount⟩
    · exact hinv.mms _ _ hold
  · intro id' mm₁ v hmm₁ hv
    rcases hcases hmm₁ with ⟨_, rfl⟩ | ⟨hold, _⟩
    · exact Or.inl (hpgdir ▸ hadded.leaf_new hv)
    · show mm₁.EntryOk v (leaf t.mem mm₁.pgdir v)
      rw [hadded.leaf_old hinv.paged (hinv.dir hold) hv]
      exact hinv.entries _ _ v hold hv

theorem nextTick (hinv : st.Inv role) : Procs.Inv role ⟨st.kern.nextTick, st.mm⟩ :=
  ⟨hinv.paged.nextTick, hinv.counted, hinv.dirs, hinv.distinct, hinv.mms, hinv.entries⟩

theorem create (hinv : st.Inv role) (hid : st.mm id = none) :
    Ends E ((ProcOp.create id).call al st.mm) st.kern fun mm' t =>
      st.Next role (.create id) ⟨t, Function.update st.mm id mm'⟩ := by
  have hnone : Function.update st.mm id none = st.mm := by
    rw [← hid, Function.update_eq_self]
  unfold ProcOp.call
  apply (newMm_spec hinv.paged).imp
  rintro r t (⟨rfl, rfl | rfl, _⟩ | ⟨n, rfl, hadded⟩)
  · refine ⟨role, ?_, .same rfl, fun _ hexact => hexact⟩
    rw [hnone]
    exact hinv.nextTick
  · refine ⟨role, ?_, .same rfl, fun _ hexact => hexact⟩
    rw [hnone]
    exact hinv.nextTick.nextTick
  · refine ⟨Function.update role n .dir, hinv.nextTick.added hid (.empty n 1) rfl rfl hadded,
      ⟨fun f hf => Or.inl ((hadded.data f).mp hf), fun f hf => ?_, fun f hf => ?_⟩,
      fun _ hexact f hf => ?_⟩
    · by_cases hfn : f = n
      · subst hfn
        simp at hf
      · exact Or.inl (by rwa [Function.update_of_ne hfn] at hf)
    · have hfn : f ≠ n := fun heq => by simp [heq, hadded.fresh] at hf
      exact ⟨(Function.update_of_ne hfn _ _).trans hf, by rw [hadded.ref]; rfl⟩
    · rw [hadded.excess hinv.paged.nextTick, hadded.ref]
      exact hexact f ((hadded.data f).mp hf)

theorem mmMap (hinv : st.Inv role) {addr len : Nat} {vmFlags : BitVec 32}
    (hnull : E .nullPointer) (hoverlap : E .vmaOverlap) :
    Ends E ((ProcOp.mmMap id addr len vmFlags).call al st.mm) st.kern fun mm' t =>
      st.Next role (.mmMap id addr len vmFlags) ⟨t, Function.update st.mm id mm'⟩ := by
  unfold ProcOp.call
  rw [ends_bind]
  apply ends_getMm hnull
  intro mm hmm
  rw [ends_bind]
  apply (mmMap_spec al hoverlap (hinv.mms id mm hmm).1 addr len vmFlags).imp
  rintro ⟨ret, mm'⟩ t ⟨ht, hok, hpgdir, hcount, hareas⟩
  rcases ht with rfl | rfl
  · have hinv' := hinv.updateNone hmm hok hpgdir hcount hareas hinv.paged (Evolves.refl role _)
      (LeafSame.refl role _)
    exact hinv'.next (.same rfl) fun hexact => hexact
  · have hinv' := hinv.updateNone hmm hok hpgdir hcount hareas hinv.paged.nextTick
      (Kept.refl role _).nextTick.evolves (LeafSame.refl role _)
    exact hinv'.next (.same rfl) fun hexact => hexact

/-- The page that an area allows is one of user addresses. -/
theorem user (hinv : st.Inv role) (hmm : st.mm id = some mm) {la : Nat} {perm : Pte}
    (hallows : mm.Allows la perm) : ppn la < userPages := by
  obtain ⟨_, vma, hvma, hla, _⟩ := hallows
  have hok := (hinv.mms id mm hmm).1.areas vma hvma
  exact hok.user_page (hok.covers_ppn hla)

theorem allocPage (hinv : st.Inv role) {la : Nat} {perm : Pte} (hnull : E .nullPointer)
    (hallows : ∀ mm, st.mm id = some mm → mm.Allows la perm) :
    Ends E ((ProcOp.allocPage id la perm).call al st.mm) st.kern fun mm' t =>
      st.Next role (.allocPage id la perm) ⟨t, Function.update st.mm id mm'⟩ := by
  unfold ProcOp.call
  rw [ends_bind]
  apply ends_getMm hnull
  intro mm hmm
  have hok := (hinv.mms id mm hmm).1
  have hallow := hallows mm hmm
  rw [ends_bind]
  apply (pgdirAllocPage_spec hinv.paged hinv.counted (hinv.dir hmm) (hinv.user hmm hallow)
    hallow.1).imp
  rintro r t ⟨role', hpaged', hturnover, _, hleaf⟩
  have hevolves := hturnover.evolves
  have hexact := fun h => hturnover.exact h
  cases r with
  | none =>
      have hinv' := hinv.updateNone hmm hok rfl rfl (fun _ h => h) hpaged' hevolves hleaf
      exact hinv'.next hevolves.transition hexact
  | some n =>
      have hinv' := hinv.updateEntry hmm hok rfl rfl (fun _ h => h) hpaged' hevolves hleaf
        (.created hok hallow n)
      exact hinv'.next hevolves.transition hexact

theorem insertPage (hinv : st.Inv role) {la id' la' : Nat} {perm : Pte} (hnull : E .nullPointer)
    (hallows : ∀ mm, st.mm id = some mm → mm.Allows la perm) (hla' : ppn la' < userPages) :
    Ends E ((ProcOp.insertPage id la perm id' la').call al st.mm) st.kern fun mm' t =>
      st.Next role (.insertPage id la perm id' la') ⟨t, Function.update st.mm id mm'⟩ := by
  unfold ProcOp.call
  rw [ends_bind]
  apply ends_getMm hnull
  intro mm hmm
  rw [ends_bind]
  apply ends_getMm hnull
  intro mm' hmm'
  have hok := (hinv.mms id mm hmm).1
  have hallow := hallows mm hmm
  rw [ends_bind]
  apply (getPage_data hinv.paged (hinv.dir hmm') hla').imp
  rintro r _ ⟨rfl, hdata⟩
  cases r with
  | none =>
      have hinv' := hinv.updateNone hmm hok rfl rfl (fun _ h => h) hinv.paged (.refl role _)
        (LeafSame.refl role _)
      exact hinv'.next (.same rfl) fun hexact => hexact
  | some n =>
      simp only
      rw [ends_bind]
      apply (pageInsert_spec al hinv.paged hinv.counted (hinv.dir hmm) (hinv.user hmm hallow)
        (hdata n rfl) hallow.1).imp
      rintro ret t ⟨role', hpaged', hsettled, _, hret, _⟩
      rcases hret with ⟨_, hsame⟩ | ⟨_, hset⟩
      · have hinv' := hinv.updateNone hmm hok rfl rfl (fun _ h => h) hpaged' hsettled.evolves hsame
        exact hinv'.next hsettled.evolves.transition hsettled.exact
      · have hinv' := hinv.updateEntry hmm hok rfl rfl (fun _ h => h) hpaged' hsettled.evolves hset
          (.created hok hallow n)
        exact hinv'.next hsettled.evolves.transition hsettled.exact

theorem pageRemove (hinv : st.Inv role) {la : Nat} (hnull : E .nullPointer)
    (hla : ppn la < userPages) :
    Ends E ((ProcOp.pageRemove id la).call al st.mm) st.kern fun mm' t =>
      st.Next role (.pageRemove id la) ⟨t, Function.update st.mm id mm'⟩ := by
  unfold ProcOp.call
  rw [ends_bind]
  apply ends_getMm hnull
  intro mm hmm
  have hok := (hinv.mms id mm hmm).1
  rw [ends_bind]
  apply (pageRemove_spec hinv.paged hinv.counted (hinv.dir hmm) hla).imp
  rintro _ t ⟨role', hpaged', hsettled, hset, _⟩
  have hinv' := hinv.updateEntry hmm hok rfl rfl (fun _ h => h) hpaged' hsettled.evolves hset
    (hinv.entries _ _ _ hmm hla).removed
  exact hinv'.next hsettled.evolves.transition hsettled.exact

theorem unmapRange (hinv : st.Inv role) {start stop : Nat} (hnull : E .nullPointer)
    (hunaligned : E .unaligned) (huser : E .userAccess) :
    Ends E ((ProcOp.unmapRange id start stop).call al st.mm) st.kern fun mm' t =>
      st.Next role (.unmapRange id start stop) ⟨t, Function.update st.mm id mm'⟩ := by
  unfold ProcOp.call
  rw [ends_bind]
  apply ends_getMm hnull
  intro mm hmm
  have hok := (hinv.mms id mm hmm).1
  rw [ends_bind]
  apply (unmapRange_spec hinv.paged hinv.counted (hinv.dir hmm) (Or.inl hunaligned)
    (Or.inl huser)).imp
  rintro _ t ⟨role', hpaged', hsettled, _, _, hcleared⟩
  have hinv' := hinv.updateOne hmm hok rfl rfl hpaged' hsettled.evolves (fun v hv => ?_)
    fun pgdir v hdir hne hv => (hcleared pgdir v hdir hv).2 fun hyes => hne hyes.1
  · exact hinv'.next hsettled.evolves.transition hsettled.exact
  · obtain ⟨hin, hout⟩ := hcleared _ v (hinv.dir hmm) hv
    have hold := hinv.entries _ _ v hmm hv
    by_cases hpages : start ≤ PGSIZE * v ∧ PGSIZE * v < stop
    · rw [hin ⟨rfl, hpages⟩]
      exact hold.removed
    · rw [hout fun hyes => hpages hyes.2]
      exact hold

/-- The entries of an address space whose pages are shared with another one. -/
theorem sharedEntry (hinv : st.Inv role) {id' : Nat} {toMm fromMm : MmStruct}
    (hto : st.mm id = some toMm) (hfrom : st.mm id' = some fromMm) (hne : id ≠ id')
    {done : List VmaStruct} (hcopied : AreasCopied toMm mm done)
    (hshared : Shared role st.kern t toMm.pgdir fromMm.pgdir fun v => ∃ vma ∈ done, vma.covers v) :
    (∀ v, v < userPages → mm.EntryOk v (leaf t.mem toMm.pgdir v)) ∧
      ∀ id₁ mm₁ v, id₁ ≠ id → st.mm id₁ = some mm₁ → v < userPages →
        mm₁.EntryOk v (leaf t.mem mm₁.pgdir v) := by
  constructor
  · intro v hv
    have hold := (hinv.entries _ _ v hto hv).mono fun vma h => (hcopied.areas vma).mpr (Or.inr h)
    by_cases hdone : ∃ vma ∈ done, vma.covers v
    · rw [hshared.target v hv hdone, shareOver]
      split
      next =>
        obtain ⟨vma, hvma, hcovers⟩ := hdone
        exact .shared ((hcopied.areas vma).mpr (Or.inl hvma)) hcovers
      next => exact hold
    · rw [hshared.rest _ v (hinv.dir hto) hv fun h => absurd h hdone]
      exact hold
  · intro id₁ mm₁ v hid hmm₁ hv
    have hold := hinv.entries _ _ v hmm₁ hv
    have hnotTo : mm₁.pgdir ≠ toMm.pgdir := fun heq => hid (hinv.distinct _ _ _ _ hmm₁ hto heq)
    by_cases hsource : id₁ = id'
    · subst hsource
      obtain rfl := Option.some.inj (hmm₁.symm.trans hfrom)
      by_cases hdone : ∃ vma ∈ done, vma.covers v
      · rw [hshared.source v hv hdone]
        exact hold.readOnly
      · rw [hshared.rest _ v (hinv.dir hmm₁) hv fun h => absurd h hdone]
        exact hold
    · rw [hshared.rest _ v (hinv.dir hmm₁) hv fun _ =>
        ⟨hnotTo, fun heq => hsource (hinv.distinct _ _ _ _ hmm₁ hfrom heq)⟩]
      exact hold

theorem cowCopyMmap (hinv : st.Inv role) {id' : Nat} (hnull : E .nullPointer) (hmap : E .mapFailed)
    (hoverlap : E .vmaOverlap) (hne : id ≠ id') :
    Ends E ((ProcOp.cowCopyMmap id id').call al st.mm) st.kern fun mm' t =>
      st.Next role (.cowCopyMmap id id') ⟨t, Function.update st.mm id mm'⟩ := by
  unfold ProcOp.call
  rw [ends_bind]
  apply ends_getMm hnull
  intro toMm hto
  rw [ends_bind]
  apply ends_getMm hnull
  intro fromMm hfrom
  have hpgdirs : toMm.pgdir ≠ fromMm.pgdir := fun heq => hne (hinv.distinct _ _ _ _ hto hfrom heq)
  rw [ends_bind]
  apply (cowCopyMmap_spec (Or.inl hmap) (Or.inl hoverlap) (hinv.mms _ _ hto).1
    (hinv.mms _ _ hfrom).1 hinv.paged (hinv.dir hto) (hinv.dir hfrom) hpgdirs ?_
    fun v hv _ => mem_range.mpr hv).imp
  · rintro ⟨ret, mm'⟩ t ⟨_, done, _, _, hcopied, _, role', hpaged', hkept, hdata, hshared⟩
    obtain ⟨hself, hothers⟩ := hinv.sharedEntry hto hfrom hne hcopied hshared
    have hinv' := hinv.update hto hcopied.ok hcopied.pgdir hcopied.mmCount hpaged' hkept.evolves
      hself hothers
    refine hinv'.next hkept.evolves.transition fun hexact f hf => ?_
    obtain ⟨hzero, hlive⟩ := hexact f ((hdata f).mp hf)
    obtain ⟨_, _, hexcess⟩ := hkept.data f ((hdata f).mp hf)
    exact ⟨hexcess.trans hzero, hkept.live f ((hdata f).mp hf) hlive⟩
  · intro v hv hvalid
    rcases hinv.entries _ _ v hto hv with hzero | ⟨_, vma, hvma, hcovers, _⟩
    · rw [hzero, valid_zero] at hvalid
      cases hvalid
    · exact ⟨vma, hvma, hcovers⟩

/-- A copy of a page may be mapped writable where the area is. -/
theorem copied (hmm : mm.Ok) {vma : VmaStruct} {addr n : Nat} (hvma : vma ∈ mm.mmapList)
    (haddr : vma.contains addr) (hwritable : vma.writable = true) (perm : Pte) :
    mm.EntryOk (ppn addr) (pteCreate n (PTE_V ||| perm)) :=
  Or.inr ⟨valid_pteCreate _ _, vma, hvma, (hmm.areas vma hvma).covers_ppn haddr, fun _ => hwritable⟩

theorem doPgfault (hinv : st.Inv role) {errorCode addr : Nat} (hnull : E .nullPointer)
    (hpage : E .nullPage) (hwrite : ∀ vma,
      (ProcOp.doPgfault id errorCode addr).FaultsOnPresent st vma → vma.writable = true) :
    Ends E ((ProcOp.doPgfault id errorCode addr).call al st.mm) st.kern fun mm' t =>
      st.Next role (.doPgfault id errorCode addr) ⟨t, Function.update st.mm id mm'⟩ := by
  unfold ProcOp.call
  rw [ends_bind]
  apply ends_getMm hnull
  intro mm hmm
  have hok := (hinv.mms id mm hmm).1
  rw [ends_bind]
  apply (doPgfault_spec (Or.inl hpage) hok hinv.paged hinv.counted (hinv.dir hmm)
    fun v hv => hinv.entry hmm hv).imp
  rintro ⟨ret, mm'⟩ t (⟨heq, rfl, _⟩ | ⟨vma, hvma, haddr, rfl, hfaulted⟩)
  · obtain ⟨_, rfl⟩ := Prod.mk.inj heq
    have hinv' := hinv.updateNone hmm hok rfl rfl (fun _ h => h) hinv.paged (.refl role _)
      (LeafSame.refl role _)
    exact hinv'.next (.same rfl) fun hexact => hexact
  · have hok' := hok.setCache hvma
    have huser := (hok.areas vma hvma).user_page ((hok.areas vma hvma).covers_ppn haddr)
    cases hfaulted with
    | copied hvalid hcopied =>
        have hpresent : (ProcOp.doPgfault id errorCode addr).FaultsOnPresent st vma :=
          ⟨id, errorCode, addr, mm, rfl, hmm, hvma, haddr, hvalid⟩
        have hevolves := hcopied.evolves hinv.paged (hinv.dir hmm) huser hvalid
        have hinv' := hinv.updateEntry hmm hok' rfl rfl (fun _ h => h) hcopied.paged hevolves
          hcopied.leaf (copied hok' hvma haddr (hwrite vma hpresent) _)
        exact ⟨_, hinv', hevolves.transition, fun hno => absurd hpresent (hno vma)⟩
    | mapped _ hpaged' hevolves hexact hset hentry =>
        have hinv' := hinv.updateEntry hmm hok' rfl rfl (fun _ h => h) hpaged' hevolves hset ?_
        · exact hinv'.next hevolves.transition hexact
        · rcases hentry with rfl | ⟨n, rfl⟩
          · exact Or.inl rfl
          · refine Or.inr ⟨valid_pteCreate _ _, vma, hvma, (hok.areas vma hvma).covers_ppn haddr,
              ?_⟩
            rw [writable_fault]
            exact fun hw => hw

theorem exit (hinv : st.Inv role) (hnull : E .nullPointer) :
    Ends E ((ProcOp.exit id).call al st.mm) st.kern fun mm' t =>
      st.Next role (.exit id) ⟨t, Function.update st.mm id mm'⟩ := by
  unfold ProcOp.call
  rw [ends_bind]
  apply ends_getMm hnull
  intro mm hmm
  obtain ⟨hok, hcount⟩ := hinv.mms id mm hmm
  apply (exitMm_spec hok hcount hinv.paged hinv.counted (hinv.dir hmm) fun v hv => ?_).imp
  · rintro r t ⟨rfl, role', hremoved⟩
    have hcases : ∀ {id' mm₁}, Function.update st.mm id none id' = some mm₁ →
        id' ≠ id ∧ st.mm id' = some mm₁ := by
      intro id' mm₁ h
      by_cases heq : id' = id
      · rw [heq, Function.update_self] at h
        cases h
      · rw [Function.update_of_ne heq] at h
        exact ⟨heq, h⟩
    refine ⟨role', ⟨hremoved.paged, hremoved.counted, fun f => ?_, ?_, ?_, ?_⟩,
      ⟨fun f hf => Or.inl (hremoved.data f hf), hremoved.other, hremoved.rest⟩,
      fun _ => hremoved.exact⟩
    · rw [hremoved.dir, hinv.dirs]
      constructor
      · rintro ⟨⟨id', mm₁, hmm₁, rfl⟩, hne⟩
        refine ⟨id', mm₁, (Function.update_of_ne ?_ _ _).trans hmm₁, rfl⟩
        rintro rfl
        exact hne (congrArg MmStruct.pgdir (Option.some.inj (hmm₁.symm.trans hmm)))
      · rintro ⟨id', mm₁, hmm₁, rfl⟩
        obtain ⟨hid, hold⟩ := hcases hmm₁
        exact ⟨⟨id', mm₁, hold, rfl⟩, fun heq => hid (hinv.distinct _ _ _ _ hold hmm heq)⟩
    · intro id₁ id₂ mm₁ mm₂ hmm₁ hmm₂ heq
      exact hinv.distinct _ _ _ _ (hcases hmm₁).2 (hcases hmm₂).2 heq
    · exact fun id' mm₁ hmm₁ => hinv.mms _ _ (hcases hmm₁).2
    · intro id' mm₁ v hmm₁ hv
      obtain ⟨hid, hold⟩ := hcases hmm₁
      show mm₁.EntryOk v (leaf t.mem mm₁.pgdir v)
      rw [hremoved.leaf _ v (hinv.dir hold)
        (fun heq => hid (hinv.distinct _ _ _ _ hold hmm heq)) hv]
      exact hinv.entries _ _ v hold hv
  · intro hvalid
    rcases hinv.entries _ _ v hmm hv with hzero | ⟨_, vma, hvma, hcovers, _⟩
    · rw [hzero] at hvalid
      cases hvalid
    · exact ⟨vma, hvma, hcovers⟩

/-- Every operation that returns keeps the invariant, and none comes to an entry
that belongs to swapping. -/
theorem step (hinv : st.Inv role) (al : Allocator) (op : ProcOp) (hok : op.Permitted st)
    (hwrite : ∀ vma, op.FaultsOnPresent st vma → vma.writable = true) :
    Ends (· ≠ .swapEntry) (op.call al st.mm) st.kern fun mm' t =>
      st.Next role op ⟨t, Function.update st.mm op.target mm'⟩ := by
  cases op with
  | create id => exact hinv.create hok
  | mmMap id addr len vmFlags => exact hinv.mmMap (by simp) (by simp)
  | allocPage id la perm => exact hinv.allocPage (by simp) hok
  | insertPage id la perm id' la' => exact hinv.insertPage (by simp) hok.1 hok.2
  | cowCopyMmap id id' => exact hinv.cowCopyMmap (by simp) (by simp) (by simp) hok
  | doPgfault id errorCode addr => exact hinv.doPgfault (by simp) (by simp) hwrite
  | pageRemove id la => exact hinv.pageRemove (by simp) hok
  | unmapRange id start stop => exact hinv.unmapRange (by simp) (by simp) (by simp)
  | exit id => exact hinv.exit (by simp)

end Procs.Inv

/-! ## Runs -/

/-- Before the first address space: the frames of the manager exist, and no frame
has references. -/
structure Procs.Initial (st : Procs) : Prop where
  none : ∀ id, st.mm id = none
  frames : ∀ f ∈ st.kern.free, f < npage
  refs : ∀ f, st.kern.ref f = 0

/-- The uses of the frames while there is no address space. -/
def bootRole (s : Kern) (f : Nat) : Role := if f ∈ s.free then .free else .other

theorem bootRole_free {s : Kern} {f : Nat} : bootRole s f = .free ↔ f ∈ s.free := by
  rw [bootRole]
  split <;> simp_all

theorem bootRole_plain (s : Kern) (f : Nat) : (bootRole s f).isTable = false := by
  rw [bootRole]
  split <;> rfl

theorem bootRole_ne_data (s : Kern) (f : Nat) : bootRole s f ≠ .data := by
  rw [bootRole]
  split <;> simp

theorem Procs.Initial.inv {st : Procs} (hinit : st.Initial) : st.Inv (bootRole st.kern) := by
  have hdir : ∀ f, bootRole st.kern f ≠ .dir := by
    intro f hf
    have hplain := bootRole_plain st.kern f
    rw [hf] at hplain
    cases hplain
  have hnone : ∀ {id mm}, st.mm id ≠ some mm := fun {id mm} h => by simp [hinit.none id] at h
  refine ⟨⟨?_, ?_, fun f => bootRole_free, ?_, fun f _ => hinit.refs f⟩,
    fun f hf => absurd hf (bootRole_ne_data _ f), fun f => iff_of_false (hdir f) ?_,
    fun _ _ _ _ h => absurd h hnone, fun _ _ h => absurd h hnone, fun _ _ _ h => absurd h hnone⟩
  · intro f i ρ hchild
    rw [Role.child_eq_none (bootRole_plain _ f)] at hchild
    cases hchild
  · intro f htable
    rw [bootRole_plain] at htable
    cases htable
  · intro f hf
    rw [bootRole] at hf
    split at hf
    next hfree => exact hinit.frames f hfree
    next => exact absurd rfl hf
  · rintro ⟨id, mm, hmm, _⟩
    exact hnone hmm

section

variable {role : Nat → Role} {st st' : Procs} {al : Allocator} {op : ProcOp}

/-- A step that has a next state. -/
theorem ProcOp.of_step {E : Panic → Prop} {Q : Option MmStruct → Kern → Prop}
    (hends : Ends E (op.call al st.mm) st.kern Q) (hstep : op.step al st = some st') :
    ∃ mm t, Q mm t ∧ st' = ⟨t, Function.update st.mm op.target mm⟩ := by
  unfold Ends at hends
  unfold ProcOp.step at hstep
  cases hcall : op.call al st.mm st.kern with
  | error e =>
      rw [hcall] at hstep
      cases hstep
  | ok r =>
      rw [hcall] at hends hstep
      exact ⟨r.1, r.2, hends, (Option.some.inj hstep).symm⟩

theorem Procs.Inv.next_of_step (hinv : st.Inv role) (hok : op.Permitted st)
    (hwrite : ∀ vma, op.FaultsOnPresent st vma → vma.writable = true)
    (hstep : op.step al st = some st') : st.Next role op st' := by
  obtain ⟨mm, t, hnext, rfl⟩ := ProcOp.of_step (hinv.step al op hok hwrite) hstep
  exact hnext

/-- A fault on a present page that returns has replaced the page. -/
theorem Procs.Inv.replaced (hinv : st.Inv role) {vma : VmaStruct}
    (hfault : op.FaultsOnPresent st vma) (hstep : op.step al st = some st') :
    ∃ id mm v n, st.mm id = some mm ∧ vma ∈ mm.mmapList ∧ vma.covers v ∧
      valid (leaf st.kern.mem mm.pgdir v) = true ∧
      st'.mm = Function.update st.mm id (some { mm with mmapCache := some vma }) ∧
      Copied role st.kern st'.kern mm.pgdir v n := by
  obtain ⟨id, errorCode, addr, mm, rfl, hmm, hvma, haddr, hvalid⟩ := hfault
  have hok := (hinv.mms id mm hmm).1
  have hends : Ends (fun _ => True) ((ProcOp.doPgfault id errorCode addr).call al st.mm) st.kern
      fun mm' t => mm' = some { mm with mmapCache := some vma } ∧
        ∃ n, Copied role st.kern t mm.pgdir (ppn addr) n := by
    unfold ProcOp.call
    rw [ends_bind]
    apply Procs.Inv.ends_getMm trivial
    intro mm' hmm'
    obtain rfl := Option.some.inj (hmm'.symm.trans hmm)
    rw [ends_bind]
    apply (doPgfault_spec (Or.inl trivial) hok hinv.paged hinv.counted (hinv.dir hmm)
      fun v hv => hinv.entry hmm hv).imp
    rintro ⟨ret, mm₁⟩ t (⟨_, _, hnone⟩ | ⟨vma', hvma', haddr', rfl, hfaulted⟩)
    · exact absurd haddr (hnone vma hvma)
    · obtain rfl := hok.unique hvma hvma' haddr haddr'
      cases hfaulted with
      | copied _ hcopied => exact ⟨rfl, _, hcopied⟩
      | mapped hzero =>
          rw [hzero, valid_zero] at hvalid
          cases hvalid
  obtain ⟨_, t, ⟨rfl, n, hcopied⟩, rfl⟩ := ProcOp.of_step hends hstep
  exact ⟨id, mm, ppn addr, n, hmm, hvma, (hok.areas vma hvma).covers_ppn haddr,
    hvalid, rfl, hcopied⟩

/-- Runs without faults on present pages of areas that forbid writes. -/
theorem Procs.Initial.run {st₀ : Procs} (hinit : st₀.Initial)
    (hrun : RunsTo (fun st op => ProcOp.step al st op) (fun st op => op.Permitted st ∧
      ∀ vma, op.FaultsOnPresent st vma → vma.writable = true) st₀ st) : ∃ role, st.Inv role := by
  apply @RunsTo.invariant _ _ _ _ _ _ (fun st => ∃ role, st.Inv role) hrun ⟨_, hinit.inv⟩
  rintro t op u ⟨role, hinv⟩ ⟨hok, hwrite⟩ hstep
  obtain ⟨role', hinv', _⟩ := hinv.next_of_step hok hwrite hstep
  exact ⟨role', hinv'⟩

end

/-! ## Runs that only touch new pages -/

/-- Operations that map areas and fork, and faults on pages that are not present. -/
def ProcOp.firstTouch (st : Procs) : ProcOp → Bool
  | .create id => (st.mm id).isNone
  | .mmMap _ _ _ _ => true
  | .cowCopyMmap id id' => id ≠ id'
  | .doPgfault id _ addr => (st.mm id).all fun mm => !valid (leaf st.kern.mem mm.pgdir (ppn addr))
  | _ => false

theorem ProcOp.of_firstTouch {st : Procs} {op : ProcOp} (hfirst : op.firstTouch st = true) :
    op.Permitted st ∧ ∀ vma, ¬ op.FaultsOnPresent st vma := by
  constructor
  · cases op with
    | create id => exact Option.isNone_iff_eq_none.mp hfirst
    | cowCopyMmap id id' => exact (of_decide_eq_true hfirst : id ≠ id')
    | mmMap | doPgfault => trivial
    | _ => cases hfirst
  · rintro vma ⟨id, errorCode, addr, mm, rfl, hmm, _, _, hvalid⟩
    simp [ProcOp.firstTouch, hmm, hvalid] at hfirst

/-- All memory zero, and no address space. -/
def bootProcs (pages : Finset Nat) : Procs := ⟨bootKern pages, fun _ => none⟩

theorem bootProcs_initial {pages : Finset Nat} (hpages : ∀ f ∈ pages, f < npage) :
    (bootProcs pages).Initial :=
  ⟨fun _ => rfl, hpages, fun _ => rfl⟩

end Ucore.Mm
