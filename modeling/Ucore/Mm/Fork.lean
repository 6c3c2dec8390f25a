import Ucore.Mm.Fault
import Ucore.Mm.Plenty

/-!
# Sharing pages at a fork

`cow_copy_range` and `cow_copy_mmap` enter the valid pages of an address space
in a second page directory and make both entries read-only.
-/

namespace Ucore.Mm

open Mmu Machine Finset

variable {E : Panic → Prop} {role role' role'' : Nat → Role} {s t u : Kern}

/-- `page_insert` where nothing was mapped: no page of data comes or goes. -/
theorem pageInsert_fresh {al : Allocator} {pgdir page la : Nat} {perm : Pte} (hpaged : Paged role s)
    (hdir : role pgdir = .dir) (hla : ppn la < userPages) (hpage : role page = .data)
    (hperm : IsPerm perm) (hinvalid : valid (leaf s.mem pgdir (ppn la)) = false) :
    Ends E (pageInsert al.allocPage pgdir page la perm) s fun ret t => ∃ role', Paged role' t ∧
      Kept role role' s t ∧ (∀ f, role' f = .data ↔ role f = .data) ∧
      (ret = 0 → LeafSet role s t pgdir (ppn la) (pteCreate page (PTE_V ||| perm))) ∧
      s.free.card ≤ t.free.card + 2 ∧ (Plenty al 2 s → ret = 0) := by
  unfold pageInsert
  rw [ends_bind]
  apply ((getPte_true al hpaged hdir hla).and getPte_plenty).imp
  rintro r t ⟨⟨role', hpaged', hgrown, hfound⟩, hcard, hsome⟩
  cases r with
  | none =>
      refine ⟨role', hpaged', hgrown.kept, hgrown.data_iff, fun hret => by simp [E_NO_MEM] at hret,
        hcard, fun hplenty => ?_⟩
      exact absurd (hsome hplenty) Bool.false_ne_true
  | some p =>
      have hwalk := hfound p rfl
      have hdir' := (hgrown.dir_iff pgdir).mpr hdir
      have hinvalid' : valid (leaf t.mem pgdir (ppn la)) = false := by
        rw [hgrown.leaf pgdir _ hdir hla, hinvalid]
      apply (mapPage_fresh (leaf_of_walk hwalk ▸ hinvalid')).imp
      rintro ret u ⟨rfl, rfl⟩
      obtain ⟨hpaged'', hset, hkept⟩ :=
        hpaged'.map hdir' hla hwalk ((hgrown.data_iff page).mpr hpage) hperm hinvalid'
      exact ⟨role', hpaged'', hgrown.kept.trans hkept, hgrown.data_iff,
        fun _ => LeafSame.set hgrown.leaf hgrown.dir_iff hset, hcard, fun _ => rfl⟩

/-! ## Entries of shared pages -/

/-- What becomes of the entry of a page that is shared. -/
def readOnly (e : Pte) : Pte := if valid e then e &&& ~~~PTE_W else e

/-- The entry of a shared page in the other page directory. -/
def sharedPte (e : Pte) : Pte :=
  pteCreate (frame e) (PTE_V ||| (readOnly e &&& PTE_USER &&& ~~~PTE_W))

/-- What becomes of the entry `old` of the other page directory. -/
def shareOver (old e : Pte) : Pte := if valid e then sharedPte e else old

theorem getLsbD_clearW (e : Pte) (i : Nat) :
    (e &&& ~~~PTE_W).getLsbD i = (e.getLsbD i && !decide (i = 2)) := by
  have hW : PTE_W = BitVec.twoPow 64 2 := rfl
  by_cases h64 : i < 64
  · simp only [hW, BitVec.getLsbD_and, BitVec.getLsbD_not, BitVec.getLsbD_twoPow, h64]
    by_cases hi : i = 2
    · simp [hi]
    · simp [hi, Ne.symm hi]
  · simp [BitVec.getLsbD_of_ge _ _ (Nat.le_of_not_lt h64)]

theorem valid_clearW (e : Pte) : valid (e &&& ~~~PTE_W) = valid e := by
  rw [valid_eq, valid_eq, getLsbD_clearW]
  exact Bool.and_true _

theorem frame_clearW (e : Pte) : frame (e &&& ~~~PTE_W) = frame e := by
  apply frame_congr
  intro i hi
  have hne : i ≠ 2 := by omega
  rw [getLsbD_clearW, decide_eq_false hne]
  exact Bool.and_true _

theorem writable_clearW (e : Pte) : writable (e &&& ~~~PTE_W) = false := by
  rw [writable_eq, getLsbD_clearW]
  exact Bool.and_false _

@[simp] theorem valid_readOnly (e : Pte) : valid (readOnly e) = valid e := by
  unfold readOnly
  split
  next => exact valid_clearW e
  next => rfl

@[simp] theorem frame_readOnly (e : Pte) : frame (readOnly e) = frame e := by
  unfold readOnly
  split
  next => exact frame_clearW e
  next => rfl

theorem readOnly_readOnly (e : Pte) : readOnly (readOnly e) = readOnly e := by
  have hvalid := valid_readOnly e
  cases he : valid e with
  | false => simp [readOnly, he]
  | true =>
      rw [he] at hvalid
      rw [readOnly, if_pos hvalid, readOnly, if_pos he, BitVec.and_assoc, BitVec.and_self]

theorem sharedPte_readOnly (e : Pte) : sharedPte (readOnly e) = sharedPte e := by
  rw [sharedPte, sharedPte, readOnly_readOnly, frame_readOnly]

theorem isPerm_shared (e : Pte) : IsPerm (e &&& PTE_USER &&& ~~~PTE_W) := by
  rw [isPerm_iff]
  intro i hi
  have huser : PTE_USER.getLsbD i = false := (isPerm_iff PTE_USER).mp (by decide) i hi
  simp [huser]

theorem writable_shared (e : Pte) : writable (sharedPte e) = false := by
  rw [sharedPte, writable_pteCreate]
  simp [writable_eq, PTE_W, PTE_V]

/-! ## Shared ranges -/

/-- The pages of `fromDir` in `pages` are shared with `toDir`. -/
structure Shared (role : Nat → Role) (s t : Kern) (toDir fromDir : Nat) (pages : Nat → Prop) :
    Prop where
  source : ∀ v, v < userPages → pages v → leaf t.mem fromDir v = readOnly (leaf s.mem fromDir v)
  target : ∀ v, v < userPages → pages v →
    leaf t.mem toDir v = shareOver (leaf s.mem toDir v) (leaf s.mem fromDir v)
  rest : ∀ pgdir v, role pgdir = .dir → v < userPages →
    (pages v → pgdir ≠ toDir ∧ pgdir ≠ fromDir) → leaf t.mem pgdir v = leaf s.mem pgdir v

namespace Shared

variable {toDir fromDir v : Nat} {pages pages' : Nat → Prop}

theorem none (role : Nat → Role) (s : Kern) (toDir fromDir : Nat) :
    Shared role s s toDir fromDir fun _ => False :=
  ⟨fun _ _ hno => hno.elim, fun _ _ hno => hno.elim, fun _ _ _ _ _ => rfl⟩

theorem congr (h : Shared role s t toDir fromDir pages) (hpages : ∀ v, pages v ↔ pages' v) :
    Shared role s t toDir fromDir pages' := by
  rwa [show pages' = pages from funext fun v => propext (hpages v).symm]

/-- Sharing some pages and then others; a page may be shared twice. -/
theorem trans (h : Shared role s t toDir fromDir pages) (hto : role toDir = .dir)
    (hfrom : role fromDir = .dir) (hdirs : ∀ f, role' f = .dir ↔ role f = .dir)
    (h' : Shared role' t u toDir fromDir pages') :
    Shared role s u toDir fromDir fun v => pages v ∨ pages' v := by
  constructor
  · intro v hv hpages
    by_cases hnew : pages' v
    · rw [h'.source v hv hnew]
      by_cases hold : pages v
      · rw [h.source v hv hold, readOnly_readOnly]
      · rw [h.rest fromDir v hfrom hv fun hp => absurd hp hold]
    · rw [h'.rest fromDir v ((hdirs _).mpr hfrom) hv fun hp => absurd hp hnew,
        h.source v hv (hpages.resolve_right hnew)]
  · intro v hv hpages
    by_cases hnew : pages' v
    · rw [h'.target v hv hnew]
      by_cases hold : pages v
      · rw [h.source v hv hold, h.target v hv hold, shareOver, shareOver, valid_readOnly,
          sharedPte_readOnly]
        split <;> rfl
      · rw [h.rest fromDir v hfrom hv fun hp => absurd hp hold,
          h.rest toDir v hto hv fun hp => absurd hp hold]
    · rw [h'.rest toDir v ((hdirs _).mpr hto) hv fun hp => absurd hp hnew,
        h.target v hv (hpages.resolve_right hnew)]
  · intro pgdir v hdir hv hother
    rw [h'.rest pgdir v ((hdirs _).mpr hdir) hv fun hp => hother (Or.inr hp),
      h.rest pgdir v hdir hv fun hp => hother (Or.inl hp)]

theorem nextTick (h : Shared role s t toDir fromDir pages) :
    Shared role s t.nextTick toDir fromDir pages := ⟨h.source, h.target, h.rest⟩

/-- A page that is not valid. -/
theorem invalid (hinvalid : valid (leaf s.mem fromDir v) = false) :
    Shared role s s toDir fromDir fun w => w = v := by
  constructor
  · rintro w _ rfl
    rw [readOnly, hinvalid]
    rfl
  · rintro w _ rfl
    rw [shareOver, hinvalid]
    rfl
  · exact fun _ _ _ _ _ => rfl

/-- One valid page. -/
theorem single (hto : role toDir = .dir) (hfrom : role fromDir = .dir) (hne : toDir ≠ fromDir)
    (hvalid : valid (leaf s.mem fromDir v) = true)
    (hclear : LeafSet role s t fromDir v (readOnly (leaf s.mem fromDir v)))
    (hdirs : ∀ f, role' f = .dir ↔ role f = .dir)
    (hset : LeafSet role' t u toDir v (sharedPte (leaf s.mem fromDir v))) :
    Shared role s u toDir fromDir fun w => w = v := by
  constructor
  · rintro w hw rfl
    rw [hset fromDir w ((hdirs _).mpr hfrom) hw, if_neg fun heq => hne heq.1.symm,
      hclear fromDir w hfrom hw, if_pos ⟨rfl, rfl⟩]
  · rintro w hw rfl
    rw [hset toDir w ((hdirs _).mpr hto) hw, if_pos ⟨rfl, rfl⟩, shareOver, if_pos hvalid]
  · intro pgdir w hdir hw hother
    rw [hset pgdir w ((hdirs _).mpr hdir) hw, if_neg fun heq => (hother heq.2).1 heq.1,
      hclear pgdir w hdir hw, if_neg fun heq => (hother heq.2).2 heq.1]

end Shared

/-- The entry of a page loses the permission to write. -/
theorem Paged.clearW (hpaged : Paged role s) {pgdir v : Nat} {p : Ptr} (hdir : role pgdir = .dir)
    (hv : v < userPages) (hwalk : walk s.mem pgdir v = some p)
    (hvalid : valid (leaf s.mem pgdir v) = true) :
    let t := s.write p (leaf s.mem pgdir v &&& ~~~PTE_W)
    Paged role t ∧ LeafSet role s t pgdir v (readOnly (leaf s.mem pgdir v)) ∧
      Kept role role s t := by
  intro t
  have htab := (hpaged.tree.tab hdir hv hwalk).1
  have hset : LeafSet role s t pgdir v (leaf s.mem pgdir v &&& ~~~PTE_W) :=
    LeafSet.write hpaged hdir hv hwalk rfl
  have hdata := hpaged.tree.data hdir hv hvalid
  refine ⟨?_, ?_, fun _ => Iff.rfl, fun _ _ => rfl, fun _ hf => hf, ?_, fun f hf => Or.inl hf,
    fun _ _ hlive => hlive, fun _ hf => ⟨hf, rfl⟩, rfl⟩
  · refine hpaged.write htab (fun _ => ?_) rfl rfl fun _ _ => rfl
    rw [frame_clearW, hdata]
  · rwa [readOnly, if_pos hvalid]
  · intro f hf
    refine ⟨hf, s.mem.write_of_ne p _ fun heq => ?_, ?_⟩
    · rw [heq, htab] at hf
      cases hf
    · have hmaps : maps (leaf s.mem pgdir v &&& ~~~PTE_W) f = maps (leaf s.mem pgdir v) f := by
        rw [maps, maps, valid_clearW, frame_clearW]
      rw [excess_set hpaged hdir hv hset fun _ => Iff.rfl, hmaps]
      simp [t]

/-- `cow_copy_range` over the pages of an area, in which `toDir` maps nothing yet. -/
theorem cowCopyRange_spec {al : Allocator} {toDir fromDir : Nat} {vma : VmaStruct}
    {pages : Finset Nat} {done : Nat → Prop} [DecidablePred done]
    (hmap : E .mapFailed ∨ Supply al pages done s) (hpaged : Paged role s) (hvma : vma.Ok)
    (hto : role toDir = .dir) (hfrom : role fromDir = .dir) (hne : toDir ≠ fromDir)
    (hempty : ∀ v, vma.covers v → valid (leaf s.mem toDir v) = false)
    (hpages : ∀ v, vma.covers v → valid (leaf s.mem fromDir v) = true → v ∈ pages ∧ ¬ done v) :
    Ends E (cowCopyRange al toDir fromDir vma.vmStart vma.vmEnd) s fun ret t => ret = 0 ∧
      (Supply al pages done s → Supply al pages (fun v => done v ∨ vma.covers v) t) ∧
        ∃ role', Paged role' t ∧ Kept role role' s t ∧ (∀ f, role' f = .data ↔ role f = .data) ∧
        Shared role s t toDir fromDir vma.covers := by
  obtain ⟨a, n, hstart, hstop, han, hn, hcovers⟩ := hvma.pages
  unfold cowCopyRange checkRange
  rw [if_neg (not_not.mpr hvma.aligned), if_neg (not_not.mpr hvma.user), ends_bind, ends_pure,
    if_pos hvma.lt, hstart, hstop, ← Nat.mul_sub, Nat.mul_div_cancel_left _ (by decide)]
  -- the invariant: the pages below `v` are shared, without the right to write
  have hloop := @pageLoop_spec E al.allocPage (fun start => start < PGSIZE * n) fromDir n
    (fun start ptep => do
      if valid (← load ptep) then
        store ptep ((← load ptep) &&& ~~~PTE_W)
        let perm := (← load ptep) &&& PTE_USER &&& ~~~PTE_W
        let page ← pte2page (← load ptep)
        if (← pageInsert al.allocPage toDir page start perm) ≠ 0 then throw .mapFailed
      pure 0)
    (fun v t => a ≤ v ∧
      (Supply al pages done s → Supply al pages (fun w => done w ∨ (a ≤ w ∧ w < v)) t) ∧
      ∃ role', Paged role' t ∧ Kept role role' s t ∧ (∀ f, role' f = .data ↔ role f = .data) ∧
        Shared role s t toDir fromDir fun w => a ≤ w ∧ w < v) (fun _ _ => False)
    (fun start _ => by simp) hn ?_ ?_ ?_ (n - a) a s (Nat.le_refl _) han ?_
  · apply hloop.imp
    rintro ret t (⟨hret, _, hsupply, role', hpaged', hkept, hdata, hshared⟩ | ⟨_, hno⟩)
    · exact ⟨hret, fun h => (hsupply h).more fun v => Or.imp_right (hcovers v).mpr,
        role', hpaged', hkept, hdata, hshared.congr fun v => (hcovers v).symm⟩
    · exact hno.elim
  · rintro v t ⟨_, _, role', hpaged', hkept, _⟩
    exact ⟨role', hpaged', (hkept.dir fromDir).mpr hfrom⟩
  · rintro v t hv ⟨hav, hsupply, role', hpaged', hkept, hdata, hshared⟩ hwalk
    have hinvalid : valid (leaf t.mem fromDir v) = false := by
      rw [leaf, hwalk]
      exact valid_zero
    refine ⟨Nat.le_succ_of_le hav, fun h => (hsupply h).more fun w hw => ?_, role', hpaged', hkept,
      hdata, ?_⟩
    · exact hw.imp_right fun hw => ⟨hw.1, Nat.lt_succ_of_lt hw.2⟩
    have hnext := hshared.trans hto hfrom hkept.dir (Shared.invalid hinvalid)
    exact hnext.congr fun w => by omega
  · rintro v t p hv ⟨hav, hsupply, role', hpaged', hkept, hdata, hshared⟩ hwalk
    have hvu : v < userPages := Nat.lt_of_lt_of_le hv hn
    have hfrom' := (hkept.dir fromDir).mpr hfrom
    have hto' := (hkept.dir toDir).mpr hto
    simp only [ends_bind, ends_load, ← leaf_of_walk hwalk]
    cases hvalid : valid (leaf t.mem fromDir v) with
    | false =>
        simp only [Bool.false_eq_true, if_false, ends_pure]
        refine ⟨fun _ => ⟨Nat.le_succ_of_le hav, fun h => (hsupply h).more fun w hw => ?_, role',
          hpaged', hkept, hdata, ?_⟩, fun hne => hne rfl⟩
        · exact hw.imp_right fun hw => ⟨hw.1, Nat.lt_succ_of_lt hw.2⟩
        have hnext := hshared.trans hto hfrom hkept.dir (Shared.invalid hvalid)
        exact hnext.congr fun w => by omega
    | true =>
        obtain ⟨hpaged₁, hclear, hkept₁⟩ := hpaged'.clearW hfrom' hvu hwalk hvalid
        have hframe := hpaged'.tree.data hfrom' hvu hvalid
        have hlt : frame (leaf t.mem fromDir v) < npage := hpaged'.bound _ (by simp [hframe])
        have hinvalid : valid (leaf (t.write p (leaf t.mem fromDir v &&& ~~~PTE_W)).mem toDir v) =
            false := by
          rw [hclear toDir v hto' hvu, if_neg fun heq => hne heq.1,
            hshared.rest toDir v hto hvu fun hin => by omega]
          exact hempty v ((hcovers v).mpr ⟨hav, hv⟩)
        have hsource : leaf t.mem fromDir v = leaf s.mem fromDir v :=
          hshared.rest fromDir v hfrom hvu fun hin => by omega
        obtain ⟨hin, hnew⟩ := hpages v ((hcovers v).mpr ⟨hav, hv⟩) (hsource ▸ hvalid)
        have hstep : ∀ {u : Kern}, t.free.card ≤ u.free.card + 3 → Supply al pages done s →
            Supply al pages (fun w => done w ∨ (a ≤ w ∧ w < v + 1)) u ∧ Plenty al 3 t := by
          intro u hused h
          apply (hsupply h).step hin (fun hdone => hdone.elim hnew fun hw => by omega) (fun w => ?_)
            hused
          rw [or_assoc]
          exact or_congr_right (by omega)
        have hword : (t.mem.write p (leaf t.mem fromDir v &&& ~~~PTE_W)) p.page p.index =
            leaf t.mem fromDir v &&& ~~~PTE_W := by simp
        simp only [if_true, ends_bind, ends_store, ends_load, ← leaf_of_walk hwalk, Kern.write_mem,
          hword]
        apply ends_pte2page (by rw [valid_clearW, hvalid]) (by rwa [frame_clearW])
        rw [frame_clearW]
        have hinsert := @pageInsert_fresh E role'
          (t.write p (leaf t.mem fromDir v &&& ~~~PTE_W)) al toDir (frame (leaf t.mem fromDir v))
          (PGSIZE * v) (leaf t.mem fromDir v &&& ~~~PTE_W &&& PTE_USER &&& ~~~PTE_W) hpaged₁ hto'
          (by rwa [ppn_mul]) hframe (isPerm_shared _) (by rwa [ppn_mul])
        apply hinsert.imp
        rintro ret u ⟨role'', hpaged'', hkept₂, hdata₂, hset, hused, hroom⟩
        split
        next hret =>
          refine hmap.resolve_right fun h => hret (hroom ?_)
          have hplenty := (hstep (Nat.le_add_right _ 3) h).2
          exact ⟨hplenty.generous, Nat.le_of_succ_le hplenty.room⟩
        next hret =>
          rw [not_not] at hret
          refine ⟨fun _ => ⟨Nat.le_succ_of_le hav, fun h => (hstep (Nat.le_succ_of_le hused) h).1,
            role'', hpaged'', (hkept.trans hkept₁).trans hkept₂,
            fun f => (hdata₂ f).trans (hdata f), ?_⟩, fun hne => hne rfl⟩
          have hsetv := hset hret
          rw [ppn_mul] at hsetv
          have hentry : pteCreate (frame (leaf t.mem fromDir v)) (PTE_V |||
              (leaf t.mem fromDir v &&& ~~~PTE_W &&& PTE_USER &&& ~~~PTE_W)) =
              sharedPte (leaf t.mem fromDir v) := by
            rw [sharedPte, readOnly, if_pos hvalid]
          rw [hentry] at hsetv
          have hpage := Shared.single hto' hfrom' hne hvalid hclear
            (fun _ => Iff.rfl) hsetv
          exact (hshared.trans hto hfrom hkept.dir hpage).congr fun w => by omega
  · exact ⟨Nat.le_refl a, fun h => h.more fun w hw => Or.inl hw, role, hpaged, Kept.refl role s,
      fun _ => Iff.rfl, (Shared.none role s toDir fromDir).congr fun w =>
        ⟨False.elim, fun hw => by omega⟩⟩

/-! ## The areas of an address space -/

/-- The rule for the loop over the areas: `P rest` holds when `rest` is still to be copied. -/
theorem copyAreas_spec {al : Allocator} {copy : Nat → Nat → Nat → Nat → KernM Int}
    {fromMm : MmStruct} {P : List VmaStruct → MmStruct → Kern → Prop}
    {Q : Int × MmStruct → Kern → Prop} (hdone : ∀ mm s, P [] mm s → Q (0, mm) s)
    (hnone : ∀ rest mm s, al.heap s.tick = false → P rest mm s → Q (-E_NO_MEM, mm) s.nextTick)
    (hstep : ∀ vma rest mm s, P (vma :: rest) mm s →
      Ends E (insertVmaStruct mm vma) s.nextTick fun mm' t =>
        Ends E (copy mm'.pgdir fromMm.pgdir vma.vmStart vma.vmEnd) t fun ret u =>
          (ret = 0 → P rest mm' u) ∧ (ret ≠ 0 → Q (-E_NO_MEM, mm') u)) :
    ∀ areas mm s, P areas mm s → Ends E (copyAreas al copy fromMm areas mm) s Q := by
  intro areas
  induction areas with
  | nil => exact hdone
  | cons vma rest ih =>
      intro mm s hP
      unfold copyAreas vmaCreate
      rw [ends_bind, ends_bind]
      apply al.ends_kmalloc_heap
      cases hgot : al.heap s.tick with
      | false => exact hnone _ _ _ hgot hP
      | true =>
          simp only [if_true, ends_pure, ends_bind]
          apply (hstep vma rest mm s hP).imp
          intro mm' t hcopy
          apply hcopy.imp
          rintro ret u ⟨hzero, hother⟩
          split
          next hret => exact hother hret
          next hret => exact ih mm' u (hzero (not_not.mp hret))

/-- The areas `done` of `fromMm` have been copied to `toMm`, which is now `mm`. -/
structure AreasCopied (toMm mm : MmStruct) (done : List VmaStruct) : Prop where
  ok : mm.Ok
  pgdir : mm.pgdir = toMm.pgdir
  mmCount : mm.mmCount = toMm.mmCount
  areas : ∀ vma, vma ∈ mm.mmapList ↔ vma ∈ done ∨ vma ∈ toMm.mmapList

theorem AreasCopied.congr {toMm mm : MmStruct} {done done' : List VmaStruct}
    (h : AreasCopied toMm mm done) (hdone : ∀ vma, vma ∈ done ↔ vma ∈ done') :
    AreasCopied toMm mm done' :=
  ⟨h.ok, h.pgdir, h.mmCount, fun vma => by rw [h.areas, hdone]⟩

/-- The next area is inserted. Where the child is new the areas come in
descending order, and none overlaps. -/
theorem AreasCopied.insert {toMm fromMm mm : MmStruct} {done rest : List VmaStruct}
    {vma : VmaStruct} (h : AreasCopied toMm mm done) (hfrom : fromMm.Ok)
    (hlist : done ++ vma :: rest = fromMm.mmapList.reverse)
    (hnew : E .vmaOverlap ∨ mm.mmapList = done.reverse) :
    Ends E (insertVmaStruct mm vma) s fun mm' t => t = s ∧ AreasCopied toMm mm' (done ++ [vma]) ∧
      (E .vmaOverlap ∨ mm'.mmapList = (done ++ [vma]).reverse) ∧
      ∀ v, vma.covers v → ∀ vma' ∈ mm.mmapList, ¬ vma'.covers v := by
  have hmem : vma ∈ fromMm.mmapList := by
    rw [← List.mem_reverse, ← hlist]
    simp
  have hvma := hfrom.areas vma hmem
  have happart : (∀ a ∈ mm.mmapList, a.vmEnd ≤ vma.vmStart ∨ vma.vmEnd ≤ a.vmStart) →
      ∀ v, vma.covers v → ∀ a ∈ mm.mmapList, ¬ a.covers v := by
    intro happart v hv a ha hav
    have := happart a ha
    unfold VmaStruct.covers VmaStruct.contains at hv hav
    omega
  rcases hnew with hoverlap | hnew
  · apply (insertVmaStruct_spec hoverlap h.ok hvma).imp
    rintro mm' t ⟨ht, hok, hpgdir, hcount, hareas, hdisjoint⟩
    refine ⟨ht, ⟨hok, hpgdir.trans h.pgdir, hcount.trans h.mmCount, fun a => ?_⟩, Or.inl hoverlap,
      happart hdisjoint⟩
    rw [hareas, h.areas, List.mem_append, List.mem_singleton]
    tauto
  · have hfront : ∀ a ∈ mm.mmapList, vma.vmEnd ≤ a.vmStart := by
      have hsorted := hfrom.sorted
      rw [← List.reverse_reverse fromMm.mmapList, ← hlist, List.reverse_append,
        List.reverse_cons, List.append_assoc, List.pairwise_append] at hsorted
      rw [hnew]
      exact fun a ha => (List.pairwise_cons.mp hsorted.2.1).1 a ha
    apply (insertVmaStruct_front h.ok hvma hfront).imp
    rintro mm' t ⟨ht, hok, rfl⟩
    refine ⟨ht, ⟨hok, h.pgdir, h.mmCount, fun a => ?_⟩, Or.inr (by simp [hnew]),
      happart fun a ha => Or.inr (hfront a ha)⟩
    rw [List.mem_cons, h.areas, List.mem_append, List.mem_singleton]
    tauto

/-- `cow_copy_mmap`: the pages of the areas that have been copied are shared. With
three free frames for each page that `fromMm` maps it does not fail. -/
theorem cowCopyMmap_spec {al : Allocator} {toMm fromMm : MmStruct} {pages : Finset Nat}
    (hmap : E .mapFailed ∨ Plenty al (3 * pages.card) s)
    (hoverlap : E .vmaOverlap ∨ toMm.mmapList = []) (htoOk : toMm.Ok) (hfromOk : fromMm.Ok)
    (hpaged : Paged role s) (hto : role toMm.pgdir = .dir) (hfrom : role fromMm.pgdir = .dir)
    (hne : toMm.pgdir ≠ fromMm.pgdir)
    (hcovered : ∀ v, v < userPages → valid (leaf s.mem toMm.pgdir v) = true →
      ∃ vma ∈ toMm.mmapList, vma.covers v)
    (hpages : ∀ v, v < userPages → valid (leaf s.mem fromMm.pgdir v) = true → v ∈ pages) :
    Ends E (cowCopyMmap al toMm fromMm) s fun r t =>
      (r.1 ≠ 0 → r.1 = -E_NO_MEM ∧ ¬ Plenty al (3 * pages.card) s) ∧ ∃ done,
      (∀ vma ∈ done, vma ∈ fromMm.mmapList) ∧
      (r.1 = 0 → ∀ vma ∈ fromMm.mmapList, vma ∈ done) ∧ AreasCopied toMm r.2 done ∧
      (Plenty al (3 * pages.card) s → Supply al pages (fun v => ∃ vma ∈ done, vma.covers v) t) ∧
      ∃ role', Paged role' t ∧ Kept role role' s t ∧ (∀ f, role' f = .data ↔ role f = .data) ∧
        Shared role s t toMm.pgdir fromMm.pgdir fun v => ∃ vma ∈ done, vma.covers v := by
  unfold cowCopyMmap
  -- the invariant: of the areas that are `done` the child shares the pages
  apply copyAreas_spec (P := fun rest mm t => ∃ done,
    done ++ rest = fromMm.mmapList.reverse ∧ AreasCopied toMm mm done ∧
    (E .vmaOverlap ∨ mm.mmapList = done.reverse) ∧
    (Plenty al (3 * pages.card) s → Supply al pages (fun v => ∃ vma ∈ done, vma.covers v) t) ∧
    ∃ role', Paged role' t ∧ Kept role role' s t ∧ (∀ f, role' f = .data ↔ role f = .data) ∧
      Shared role s t toMm.pgdir fromMm.pgdir fun v => ∃ vma ∈ done, vma.covers v)
  · rintro mm t ⟨done, hlist, hcopied, _, hsupply, hshared⟩
    rw [List.append_nil] at hlist
    have hall : ∀ vma, vma ∈ done ↔ vma ∈ fromMm.mmapList := by
      intro vma
      rw [hlist, List.mem_reverse]
    exact ⟨fun h => absurd rfl h, done, fun vma => (hall vma).mp, fun _ vma => (hall vma).mpr,
      hcopied, hsupply, hshared⟩
  · rintro rest mm t hheap ⟨done, hlist, hcopied, _, hsupply, role', hpaged', hkept, hdata, hshared⟩
    have hpoor : ¬ Plenty al (3 * pages.card) s := by
      intro hplenty
      rw [(hsupply hplenty).generous.heap] at hheap
      cases hheap
    refine ⟨fun _ => ⟨rfl, hpoor⟩, done, fun vma hvma => ?_, fun hret => by simp [E_NO_MEM] at hret,
      hcopied, fun hplenty => absurd hplenty hpoor, role', hpaged'.nextTick, hkept.nextTick, hdata,
      hshared.nextTick⟩
    rw [← List.mem_reverse, ← hlist]
    exact List.mem_append_left _ hvma
  · rintro vma rest mm t ⟨done, hlist, hcopied, hnew, hsupply, role', hpaged',
      hkept, hdata, hshared⟩
    have hmem : vma ∈ fromMm.mmapList := by
      rw [← List.mem_reverse, ← hlist]
      simp
    have hvma := hfromOk.areas vma hmem
    apply (hcopied.insert hfromOk hlist hnew).imp
    rintro mm' _ ⟨rfl, hcopied', hnew', happart⟩
    rw [hcopied'.pgdir]
    have hout : ∀ v, vma.covers v → ¬ ∃ a ∈ done, a.covers v := by
      rintro v hv ⟨a, ha, hav⟩
      exact happart v hv a ((hcopied.areas a).mpr (Or.inl ha)) hav
    have hsupply' : Plenty al (3 * pages.card) s →
        Supply al pages (fun v => ∃ a ∈ done, a.covers v) t.nextTick :=
      fun h => ⟨(hsupply h).generous, (hsupply h).room⟩
    apply (cowCopyRange_spec (hmap.imp_right hsupply') hpaged'.nextTick hvma
      ((hkept.dir _).mpr hto) ((hkept.dir _).mpr hfrom) hne ?_ ?_).imp
    · rintro ret u ⟨rfl, hleft, role'', hpaged'', hkept', hdata', hshared'⟩
      have hmore : ∀ v, (∃ a ∈ done ++ [vma], a.covers v) ↔
          (∃ a ∈ done, a.covers v) ∨ vma.covers v := by
        intro v
        simp only [List.mem_append, List.mem_singleton, or_and_right, exists_or, exists_eq_left]
      refine ⟨fun _ => ⟨done ++ [vma], by simp [hlist], hcopied', hnew', fun hplenty =>
        (hleft (hsupply' hplenty)).more fun v hv => (hmore v).mpr hv, role'', hpaged'',
        hkept.nextTick.trans hkept', fun f => (hdata' f).trans (hdata f), ?_⟩,
        fun h => absurd rfl h⟩
      have hboth := hshared.nextTick.trans hto hfrom hkept.dir hshared'
      exact hboth.congr fun v => (hmore v).symm
    · intro v hv
      have hvu := hvma.user_page hv
      -- neither an area copied before nor one that was there covers the page
      rw [Kern.nextTick_mem, hshared.rest _ v hto hvu fun hin => absurd hin (hout v hv),
        ← Bool.not_eq_true]
      intro hvalid
      obtain ⟨a, ha, hav⟩ := hcovered v hvu hvalid
      exact happart v hv a ((hcopied.areas a).mpr (Or.inr ha)) hav
    · intro v hv hvalid
      have hvu := hvma.user_page hv
      rw [Kern.nextTick_mem, hshared.rest _ v hfrom hvu fun hin => absurd hin (hout v hv)] at hvalid
      exact ⟨hpages v hvu hvalid, hout v hv⟩
  · refine ⟨[], rfl, ⟨htoOk, rfl, rfl, by simp⟩, hoverlap, fun h => ?_, role, hpaged,
      Kept.refl role s, fun _ => Iff.rfl, (Shared.none role s _ _).congr fun v => by simp⟩
    exact h.mono (Nat.mul_le_mul_left 3 (card_filter_le _ _))

end Ucore.Mm
