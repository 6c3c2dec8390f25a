import Ucore.Vfs.Accounts

/-!
# Tables that come and go

`fork` copies a table with all that it refers to, and the last process of a table gives all
of it back.
-/

namespace Ucore.Vfs

open Machine
open Fs (File FilesM Slot Status)
open Fs.Inode (give take)

variable {sys sys' : Sys} {f g : Filesp} {s : Slot} {file : File} {node : Node} {calm : Prop}
  {held : Finset Filesp} {current : Nat} {α : Type}

/-! ## Creation -/

theorem ask_kept {inodes : Inodes} (h : Sound (anyInode calm) inodes) :
    Ends countsChecked ask inodes fun _ t => Kept (anyInode calm) inodes t ∧
      t.counts = inodes.counts := by
  rw [ends_ask]
  exact ⟨h.asked, rfl⟩

/-- The new table is empty. -/
structure NewTable (sys : Sys) (f : Filesp) (sys' : Sys) : Prop where
  new : f ∉ sys.filesHeap
  heap : sys'.filesHeap = insert f sys.filesHeap
  pwd : (sys'.table f).pwd = none
  slot : ∀ s, ((sys'.table f).fdArray s).status = .fdNone
  other : ∀ g, g ≠ f → sys'.table g = sys.table g

theorem NewTable.balanced (h : Balanced calm sys.filesHeap sys) (hnew : NewTable sys f sys')
    (hkept : Kept (anyInode calm) sys.inodes sys'.inodes)
    (hcounts : sys'.inodes.counts = sys.inodes.counts)
    (hcount : ∀ s, ((sys'.table f).fdArray s).openCount = 0) :
    Balanced calm sys'.filesHeap sys' := by
  obtain ⟨hrefs, hopens⟩ := Prod.mk.inj hcounts
  have hne : ∀ g ∈ sys.filesHeap, g ≠ f := fun g hg => ne_of_mem_of_not_mem hg hnew.new
  have hmem : ∀ {g}, g ∈ sys'.filesHeap → g ≠ f → g ∈ sys.filesHeap := by
    intro g hg hgf
    rw [hnew.heap] at hg
    exact (Finset.mem_insert.mp hg).resolve_left hgf
  have hclosed : ∀ s, ((sys'.table f).fdArray s).status ≠ .fdOpened := by
    intro s
    rw [hnew.slot]
    decide
  have hopeners : sys'.openers = sys.openers := by
    have hsub : sys.slots ⊆ sys'.slots := by
      refine Finset.product_subset_product ?_ (Finset.Subset.refl _)
      rw [hnew.heap]
      exact Finset.subset_insert f _
    refine (tally_subset hsub ?_).trans (tally_congr ?_)
    · intro slot hin hout
      have hslot : slot.1 = f := by
        by_contra hgf
        exact hout (Finset.mem_product.mpr ⟨hmem (Finset.mem_product.mp hin).1 hgf,
          Finset.mem_univ _⟩)
      unfold Sys.opener
      rw [hslot]
      exact holds_none (hclosed slot.2)
    · intro slot hin
      unfold Sys.opener
      rw [hnew.other slot.1 (hne slot.1 (Finset.mem_product.mp hin).1)]
  have hdwellers : sys'.dwellers sys'.filesHeap = sys.dwellers sys.filesHeap := by
    have hsub : sys.filesHeap ⊆ sys'.filesHeap := by
      rw [hnew.heap]
      exact Finset.subset_insert f _
    refine (tally_subset hsub ?_).trans (tally_congr ?_)
    · intro g hin hout
      have hgf : g = f := by
        by_contra hgf
        exact hout (hmem hin hgf)
      exact hgf ▸ hnew.pwd
    · intro g hg
      rw [hnew.other g (hne g hg)]
  refine h.next hkept ?_ ?_ ?_ ?_
  · intro g hg s
    by_cases hgf : g = f
    · subst hgf
      refine ⟨?_, ?_, fun hopened => absurd hopened (hclosed s)⟩
      · rw [hnew.slot]
        decide
      · rw [hcount, if_neg (hclosed s)]
    · rw [hnew.other g hgf]
      exact h.slot g (hmem hg hgf) s
  · intro n
    rw [hopens, hopeners, h.opens]
  · intro n
    rw [hrefs, hopeners, hdwellers, h.refs]
  · intro g hg n hn
    by_cases hgf : g = f
    · subst hgf
      exact nomatch hn.symm.trans hnew.pwd
    · rw [hnew.other g hgf] at hn
      exact Or.inl (h.pwd g (hmem hg hgf) n hn)

theorem filesCreate_balanced (memory : Slot → File) (h : Balanced calm sys.filesHeap sys) :
    Ends checked (filesCreate memory) sys fun created sys' => Balanced calm sys'.filesHeap sys' ∧
      match created with
      | none => True
      | some f => NewTable sys f sys' := by
  rw [filesCreate, ends_bind]
  apply onInodes_checked
  apply (ask_kept h.sound).imp
  rintro answer inodes ⟨hkept, hcounts⟩
  obtain ⟨hrefs, hopens⟩ := Prod.mk.inj hcounts
  split
  · refine ⟨?_, trivial⟩
    refine h.dwell ⟨rfl, fun _ => rfl⟩ hkept hopens (fun n => ?_) fun g hg n hn =>
      Or.inl (h.pwd g hg n hn)
    change inodes.refs n + sys.dwellers sys.filesHeap n = sys.inodes.refs n +
      sys.dwellers sys.filesHeap n
    rw [hrefs]
  · rw [ends_bind, ends_get, ends_bind, ends_modify, ends_pure]
    have hfresh := answer.fresh sys.filesHeap
    change Balanced calm _ _ ∧ NewTable sys (answer.place sys.filesHeap) _
    generalize answer.place sys.filesHeap = f at hfresh ⊢
    have hnew : NewTable sys f { Sys.setTable { sys with inodes := inodes } f
        { Fs.filesCreate memory with pwd := none } with
          filesHeap := insert f sys.filesHeap
          created := Function.update sys.created f (sys.created f + 1) } := by
      refine ⟨hfresh, rfl, ?_, ?_, ?_⟩
      · simp [Sys.setTable]
      · simp [Sys.setTable, Fs.filesCreate, Fs.fdArrayInit]
      · intro g hg
        simp [Sys.setTable, hg]
    refine ⟨hnew.balanced h hkept hcounts ?_, hnew⟩
    simp [Sys.setTable, Fs.filesCreate, Fs.fdArrayInit]

/-! ## Copies -/

theorem dupFrom_balanced {target source : Filesp} (slots : List Slot) (h : Balanced calm held sys)
    (htarget : target ∈ sys.filesHeap) (hsource : source ∈ sys.filesHeap) (hne : source ≠ target)
    (hnodup : slots.Nodup)
    (hclosed : ∀ s ∈ slots, ((sys.table target).fdArray s).status ≠ .fdOpened) :
    Ends checked (dupFrom target source slots) sys fun _ sys' => Balanced calm held sys' ∧
      sys'.filesHeap = sys.filesHeap := by
  induction slots generalizing sys with
  | nil => exact ⟨h, rfl⟩
  | cons s rest ih =>
      obtain ⟨hnot, hnodup⟩ := List.nodup_cons.mp hnodup
      have hs := hclosed s List.mem_cons_self
      have hrest : ∀ r ∈ rest, ((sys.table target).fdArray r).status ≠ .fdOpened :=
        fun r hr => hclosed r (List.mem_cons_of_mem s hr)
      rw [dupFrom, ends_bind]
      apply onFiles_load
      split
      · next hopened =>
        obtain ⟨node, hnode, hholds, _⟩ := (h.slot source hsource s).holds hopened
        rw [ends_bind]
        apply onFiles_load
        rw [ends_bind]
        apply onFiles_checked
        rw [Fs.ends_store]
        have h₁ : Balanced calm held
            (sys.setFile target s { (sys.table target).fdArray s with status := .fdInit }) :=
          claim_balanced h htarget hs rfl rfl nofun nofun
        have hinit : ((sys.setFile target s { (sys.table target).fdArray s with
            status := .fdInit }).table target).fdArray s =
              { (sys.table target).fdArray s with status := .fdInit } := setFile_same
        have hother : ∀ r, r ≠ s → ((sys.setFile target s { (sys.table target).fdArray s with
            status := .fdInit }).table target).fdArray r = (sys.table target).fdArray r :=
              fun _ hr => setFile_other hr
        have hkeep : (sys.setFile target s { (sys.table target).fdArray s with
            status := .fdInit }).table source = sys.table source := by
          simp [Sys.setFile, Sys.setTable, hne]
        have hheap : (sys.setFile target s { (sys.table target).fdArray s with
            status := .fdInit }).filesHeap = sys.filesHeap := rfl
        change Ends checked (_ >>= _)
          (sys.setFile target s { (sys.table target).fdArray s with status := .fdInit }) _
        generalize sys.setFile target s { (sys.table target).fdArray s with status := .fdInit } =
          sys₁
          at h₁ hinit hother hkeep hheap ⊢
        have hstatus : ((sys₁.table target).fdArray s).status = .fdInit :=
          congrArg Fs.File.status hinit
        have hopen : 0 < sys₁.inodes.opens node := by
          refine h₁.openers_pos (f := source) (s := s) (hheap ▸ hsource) ?_
          rw [hkeep]
          exact hholds
        rw [ends_bind]
        apply (fdArrayDup_balanced h₁ (hheap ▸ htarget) hstatus hnode hopen).imp
        rintro _ sys₂ ⟨h₂, hheap₂, hother₂⟩
        have hheap₂ : sys₂.filesHeap = sys.filesHeap := hheap₂.trans hheap
        refine (ih h₂ (hheap₂ ▸ htarget) (hheap₂ ▸ hsource) hnodup ?_).imp
          fun _ _ hdone => ⟨hdone.1, hdone.2.trans hheap₂⟩
        intro r hr
        have hrs : r ≠ s := fun heq => hnot (heq ▸ hr)
        rw [hother₂ r hrs, hother r hrs]
        exact hrest r hr
      · exact ih h htarget hsource hnodup hrest

/-- `dup_files` to a table that is empty. -/
theorem dupFiles_balanced {target source : Filesp} (h : Balanced calm sys.filesHeap sys)
    (htarget : target ∈ sys.filesHeap) (hsource : source ∈ sys.filesHeap)
    (hpwd : (sys.table target).pwd = none)
    (hclosed : ∀ s, ((sys.table target).fdArray s).status ≠ .fdOpened) :
    Ends checked (dupFiles target source) sys fun _ sys' => Balanced calm sys'.filesHeap sys' := by
  rw [dupFiles, ends_bind, ends_get, ends_bind]
  refine Ends.check_or (Or.inr nofun) fun hcounts => ?_
  have hne : source ≠ target := by
    rintro rfl
    omega
  rw [ends_bind, ends_modify]
  have hrest : ∀ {sys₁ : Sys}, Balanced calm sys.filesHeap sys₁ → SameFiles sys sys₁ →
      Ends checked (dupFrom target source (List.finRange Fs.FILES_STRUCT_NENTRY)) sys₁ fun _ sys' =>
        Balanced calm sys'.filesHeap sys' := by
    intro sys₁ h₁ hsame
    have hclosed₁ : ∀ s ∈ List.finRange Fs.FILES_STRUCT_NENTRY,
        ((sys₁.table target).fdArray s).status ≠ .fdOpened := by
      intro s _
      rw [hsame.fdArray]
      exact hclosed s
    apply (dupFrom_balanced _ h₁ (hsame.heap ▸ htarget)
      (hsame.heap ▸ hsource) hne (List.nodup_finRange _) hclosed₁).imp
    rintro _ sys' ⟨h', hheap'⟩
    rw [hheap', hsame.heap]
    exact h'
  cases hcur : (sys.table source).pwd with
  | none =>
      have hset :
          Balanced calm sys.filesHeap { sys.setPwd target none with inodes := sys.inodes } := by
        refine h.setPwd htarget ⟨h.sound, Steady.refl _⟩ rfl ?_ nofun
        intro n
        rw [hpwd]
      change Ends checked (dupFrom target source _) (sys.setPwd target none) _
      exact hrest hset setPwd_files
  | some node =>
      have hheld : 0 < sys.inodes.refs node := ((h.rooted hsource).pwd node hcur).1
      change Ends checked (onInodes (inodeRefInc node) >>= _) (sys.setPwd target (some node)) _
      rw [ends_bind]
      apply onInodes_checked
      apply (inodeRefInc_kept h.sound hheld).imp
      rintro _ inodes ⟨hkept, hcounts', _⟩
      obtain ⟨hrefs, hopens⟩ := Prod.mk.inj hcounts'
      refine hrest (h.setPwd htarget hkept hopens ?_ ?_) (setPwd_files.of_inodes inodes)
      · intro n
        rw [hrefs, give_apply, hpwd]
        simp
      · intro n hn
        obtain rfl := Option.some.inj hn
        exact Or.inl (h.pwd source hsource node hcur)

/-! ## The end of a table -/

/-- A table gives its current directory back. -/
theorem releaseDir_balanced (h : Balanced calm sys.filesHeap sys) (hf : f ∈ sys.filesHeap) :
    ∀ node, (sys.table f).pwd = some node →
      Ends countsChecked (inodeRefDec node) sys.inodes fun _ inodes =>
      Balanced calm (sys.filesHeap.erase f) { sys with inodes := inodes } := by
  intro node hnode
  obtain ⟨hheld, sin, hsin⟩ := (h.rooted hf).pwd node hnode
  have hlive := mem_heap_of_refs hheld
  have hlt := h.open_lt hf hnode
  rw [opens_of_mem hlive, refs_of_mem hlive] at hlt
  apply ((inodeRefDec_spec h.sound ⟨hlive, hlt, fun dev hdev => nomatch hdev.symm.trans hsin⟩).and
    inodeRefDec_counts).imp
  rintro _ inodes ⟨hkept, hcounts⟩
  obtain ⟨hrefs, hopens⟩ := Prod.mk.inj hcounts
  refine h.dwell ⟨rfl, fun _ => rfl⟩ hkept hopens ?_ ?_
  · intro n
    have herase : sys.dwellers sys.filesHeap n = sys.dwellers (sys.filesHeap.erase f) n +
        if (sys.table f).pwd = some n then 1 else 0 := tally_erase hf
    change inodes.refs n + _ = _ + sys.dwellers (sys.filesHeap.erase f) n
    rw [hrefs, take_apply, herase, hnode]
    simp only [Option.some.injEq]
    split
    · next heq =>
      subst heq
      omega
    · omega
  · exact fun g hg n hn => Or.inl (h.pwd g (Finset.mem_of_mem_erase hg) n hn)

/-- A table whose slots are all free goes. -/
theorem erase_balanced (h : Balanced calm (sys.filesHeap.erase f) sys)
    (hfree : ∀ s, ((sys.table f).fdArray s).status = .fdNone) {destroyed : Filesp → Nat} :
    Balanced calm (sys.filesHeap.erase f)
    { sys with filesHeap := sys.filesHeap.erase f, destroyed := destroyed } := by
  have hopeners : tally sys.slots sys.opener =
      tally ((sys.filesHeap.erase f) ×ˢ Finset.univ) sys.opener := by
    refine tally_subset (Finset.product_subset_product (Finset.erase_subset _ _)
      (Finset.Subset.refl _)) ?_
    intro slot hin hout
    have hslot : slot.1 = f := by
      by_contra hne
      have hmem := Finset.mem_erase_of_ne_of_mem hne (Finset.mem_product.mp hin).1
      exact hout (Finset.mem_product.mpr ⟨hmem, Finset.mem_univ _⟩)
    unfold Sys.opener
    rw [hslot]
    refine holds_none ?_
    rw [hfree]
    decide
  refine h.next ⟨h.sound, Steady.refl _⟩ ?_ ?_ ?_ ?_
  · exact fun g hg s => h.slot g (Finset.mem_of_mem_erase hg) s
  · exact fun n => (h.opens n).trans (congrFun hopeners n)
  · intro n
    have hopen : sys.openers n = tally ((sys.filesHeap.erase f) ×ˢ Finset.univ) sys.opener n :=
      congrFun hopeners n
    exact (h.refs n).trans (by rw [hopen]; rfl)
  · exact fun g hg n hn => Or.inl (h.pwd g hg n hn)

theorem filesDestroy_balanced (h : Balanced calm sys.filesHeap sys) (hf : f ∈ sys.filesHeap) :
    Ends checked (filesDestroy f) sys fun _ sys' => Balanced calm sys'.filesHeap sys' := by
  rw [filesDestroy, ends_bind, ends_get, ends_bind]
  refine Ends.check_or (Or.inr fun hno => by cases hno) fun _ => ?_
  have hrest : ∀ {sys₁ : Sys}, Balanced calm (sys.filesHeap.erase f) sys₁ →
      sys₁.filesHeap = sys.filesHeap → Ends checked (do
        closeFrom f (List.finRange Fs.FILES_STRUCT_NENTRY)
        let sys ← get
        check .filesDestroy (∀ s, ((sys.table f).fdArray s).status = .fdNone)
        modify fun sys => { sys with
          filesHeap := sys.filesHeap.erase f
          destroyed := Function.update sys.destroyed f (sys.destroyed f + 1) }) sys₁ fun _ sys' =>
        Balanced calm sys'.filesHeap sys' := by
    intro sys₁ h₁ hheap
    rw [ends_bind]
    apply (closeFrom_balanced _ h₁ (hheap ▸ hf)).imp
    rintro _ sys₂ ⟨h₂, hheap₂⟩
    have hheap₂ : sys₂.filesHeap = sys.filesHeap := hheap₂.trans hheap
    rw [ends_bind, ends_get, ends_bind]
    refine Ends.check_or (Or.inr fun hno => by cases hno) fun hfree => ?_
    rw [← hheap₂] at h₂
    exact erase_balanced h₂ hfree
  split
  · next node hnode =>
    rw [ends_bind]
    apply onInodes_checked
    apply (releaseDir_balanced h hf node hnode).imp
    exact fun _ inodes h₁ => hrest h₁ rfl
  · next hnone =>
    refine hrest (h.dwell ⟨rfl, fun _ => rfl⟩ ⟨h.sound, Steady.refl _⟩ rfl ?_ ?_) rfl
    · intro n
      have herase : sys.dwellers sys.filesHeap n = sys.dwellers (sys.filesHeap.erase f) n +
          if (sys.table f).pwd = some n then 1 else 0 := tally_erase hf
      rw [herase, hnone]
      rfl
    · exact fun g hg n hn => Or.inl (h.pwd g (Finset.mem_of_mem_erase hg) n hn)

end Ucore.Vfs
