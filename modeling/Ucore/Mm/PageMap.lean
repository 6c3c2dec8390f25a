import Ucore.Foundation.Runs
import Ucore.Mm.Mapping

/-!
# A page directory as a finite map

What `page_insert`, `page_remove` and `get_pte` are for: a page directory is a
map from page numbers to frames and permissions. `MapState` runs the code next
to such a map, and `Refines` says that the two agree.
-/

namespace Ucore.Mm

open Mmu Machine Finset

/-- Page numbers with the frames they are mapped to and the permissions. -/
abbrev PageMap := Nat → Option (Nat × Pte)

/-- The page table entry for what a page number is mapped to. -/
def entryOf : Option (Nat × Pte) → Pte
  | none => 0#64
  | some (page, perm) => pteCreate page (PTE_V ||| perm)

/-- The kernel, and the map obtained by replaying the successful calls. -/
structure MapState where
  kern : Kern
  map : PageMap

/-- The calls on one page directory; `alloc` is a caller of `page_insert`
getting hold of a page. -/
inductive MapCall
  | alloc
  | insert (page la : Nat) (perm : Pte)
  | remove (la : Nat)
  | getPte (la : Nat)

def MapCall.step (al : Allocator) (pgdir : Nat) (st : MapState) : MapCall → Option MapState
  | .alloc => (exec al.allocPage st.kern).map fun t => { st with kern := t }
  | .insert page la perm =>
      match Mm.pageInsert al.allocPage pgdir page la perm st.kern with
      | .error _ => none
      | .ok (ret, t) =>
          some ⟨t, if ret = 0 then Function.update st.map (ppn la) (some (page, perm)) else st.map⟩
  | .remove la =>
      (exec (Mm.pageRemove al.allocPage pgdir la) st.kern).map fun t =>
        ⟨t, Function.update st.map (ppn la) none⟩
  | .getPte la =>
      (exec (Mm.getPte al.allocPage pgdir la true) st.kern).map fun t => { st with kern := t }

/-! ## The pages that make up a page table -/

/-- The places for tables in a page table: the page directory, the lower
directories and the page tables. -/
inductive Node
  | root
  | mid (i : Fin 511)
  | tab (i : Fin 511) (j : Fin 512)
  deriving DecidableEq

/-- The table at a place, if there is one. -/
def Node.page (m : Memory) (pgdir : Nat) : Node → Option Nat
  | .root => some pgdir
  | .mid i => if valid (m pgdir i) then some (frame (m pgdir i)) else none
  | .tab i j =>
      if valid (m pgdir i) then
        if valid (m (frame (m pgdir i)) j) then some (frame (m (frame (m pgdir i)) j)) else none
      else none

/-- What the table at a place is used for. -/
def Node.role (pgdir : Nat) : Node → Role
  | .root => .dir
  | .mid i => .mid pgdir i
  | .tab i j => .tab pgdir (512 * i + j)

theorem Node.role_inj (pgdir : Nat) {n n' : Node} (hrole : n.role pgdir = n'.role pgdir) :
    n = n' := by
  cases n with
  | root => cases n' <;> first | rfl | cases hrole
  | mid i =>
      cases n' with
      | mid i' =>
          rw [Node.role, Node.role, Role.mid.injEq] at hrole
          rw [Fin.ext hrole.2]
      | _ => cases hrole
  | tab i j =>
      cases n' with
      | tab i' j' =>
          rw [Node.role, Node.role, Role.tab.injEq] at hrole
          have hi : i = i' := Fin.ext (by omega)
          have hj : j = j' := Fin.ext (by omega)
          rw [hi, hj]
      | _ => cases hrole

section

variable {role : Nat → Role} {m : Memory} {pgdir page : Nat}

theorem Tree.node (htree : Tree role m) (hdir : role pgdir = .dir) {n : Node}
    (hpage : n.page m pgdir = some page) : role page = n.role pgdir := by
  have hmid : ∀ i : Fin 511, valid (m pgdir i) = true → role (frame (m pgdir i)) = .mid pgdir i :=
    fun i hvalid => htree pgdir i _ (by simp [hdir, Role.child]) hvalid
  cases n with
  | root =>
      obtain rfl := Option.some.inj hpage
      exact hdir
  | mid i =>
      rw [Node.page, Option.ite_none_right_eq_some, Option.some.injEq] at hpage
      exact hpage.2 ▸ hmid i hpage.1
  | tab i j =>
      rw [Node.page, Option.ite_none_right_eq_some, Option.ite_none_right_eq_some,
        Option.some.injEq] at hpage
      obtain ⟨hvalid1, hvalid0, rfl⟩ := hpage
      exact htree _ j (.tab pgdir (512 * i + j)) (by simp [hmid i hvalid1, Role.child]) hvalid0

/-- Every table is at one of the places of some page directory. -/
theorem Linked.place (hlinked : Linked role m) (htable : (role page).isTable = true) :
    ∃ pgdir, role pgdir = .dir ∧ ∃ n : Node, n.page m pgdir = some page := by
  cases hrole : role page with
  | dir => exact ⟨page, hrole, .root, rfl⟩
  | mid r i =>
      obtain ⟨hr, hi, hvalid, hframe⟩ := Tree.parent_mid hlinked hrole
      exact ⟨r, hr, .mid ⟨i, hi⟩, by simp [Node.page, hvalid, hframe]⟩
  | tab r k =>
      obtain ⟨i, g, j, hg, hj, _, hvalid0, hframe0⟩ := Tree.parent_tab hlinked hrole
      obtain ⟨hr, hi, hvalid1, hframe1⟩ := Tree.parent_mid hlinked hg
      exact ⟨r, hr, .tab ⟨i, hi⟩ ⟨j, hj⟩, by simp [Node.page, hvalid1, hframe1, hvalid0, hframe0]⟩
  | _ =>
      rw [hrole] at htable
      cases htable

theorem Linked.node (hlinked : Linked role m) (honly : ∀ f, role f = .dir → f = pgdir)
    (htable : (role page).isTable = true) : ∃ n : Node, n.page m pgdir = some page := by
  obtain ⟨r, hr, hplace⟩ := hlinked.place htable
  rwa [honly r hr] at hplace

theorem Node.isTable_role (n : Node) (pgdir : Nat) : (n.role pgdir).isTable = true := by
  cases n <;> rfl

end

/-! ## The refinement -/

/-- A page directory without user pages, as the code finds it: the frames of the
manager exist and have no references, and no frame has a negative count. -/
structure EmptyDir (pgdir : Nat) (s : Kern) : Prop where
  empty : ∀ i, i < 511 → valid (s.mem pgdir i) = false
  allocated : pgdir < npage ∧ pgdir ∉ s.free
  frames : ∀ f ∈ s.free, f < npage ∧ s.ref f = 0
  refs : ∀ f, 0 ≤ s.ref f

/-- What a caller owes: user addresses; permission bits; and a page that it has
allocated, so neither a free one nor part of the page table. -/
def MapCall.Permitted (pgdir : Nat) (st : MapState) : MapCall → Prop
  | .alloc => True
  | .insert page la perm =>
      ppn la < userPages ∧ IsPerm perm ∧ page < npage ∧ page ∉ st.kern.free ∧
        ∀ n : Node, n.page st.kern.mem pgdir ≠ some page
  | .remove la => ppn la < userPages
  | .getPte la => ppn la < userPages

/-- The page directory agrees with the map: `get_page` and the entry found by
`get_pte` are those of the map, and the tables are distinct pages. -/
structure Refines (al : Allocator) (pgdir : Nat) (st : MapState) : Prop where
  getPage : ∀ la, ppn la < userPages → Mm.getPage al.allocPage pgdir la st.kern =
    .ok ((st.map (ppn la)).map Prod.fst, st.kern)
  getPte : ∀ la, ppn la < userPages → ∃ p, Mm.getPte al.allocPage pgdir la false st.kern =
    .ok (p, st.kern) ∧
      match p with
      | none => st.map (ppn la) = none
      | some q => st.kern.mem q.page q.index = entryOf (st.map (ppn la))
  tables : ∀ (n n' : Node) (page : Nat), n.page st.kern.mem pgdir = some page →
    n'.page st.kern.mem pgdir = some page → n = n'

/-- What the code keeps true, for the uses `role` of the frames. -/
structure MapState.Inv (role : Nat → Role) (pgdir : Nat) (st : MapState) : Prop where
  paged : Paged role st.kern
  counted : Counted role st.kern
  dir : role pgdir = .dir
  only : ∀ f, role f = .dir → f = pgdir
  used : ∀ f, f < npage → role f ≠ .other
  entries : ∀ v, v < userPages → leaf st.kern.mem pgdir v = entryOf (st.map v)
  perms : ∀ v page perm, v < userPages → st.map v = some (page, perm) → page < npage ∧ IsPerm perm

namespace MapState.Inv

variable {al : Allocator} {role role' : Nat → Role} {pgdir : Nat}
  {st : MapState} {t : Kern}

/-- A page that a caller may insert is a page of data. -/
theorem insertable (hinv : st.Inv role pgdir) {page la : Nat} {perm : Pte}
    (hok : (MapCall.insert page la perm).Permitted pgdir st) : role page = .data := by
  obtain ⟨_, _, hlt, hfree, htable⟩ := hok
  have hnot : ¬ (role page).isTable = true := by
    intro hyes
    obtain ⟨n, hn⟩ := hinv.paged.linked.node hinv.only hyes
    exact htable n hn
  cases hrole : role page with
  | data => rfl
  | other => exact absurd hrole (hinv.used page hlt)
  | free => exact absurd ((hinv.paged.free page).mp hrole) hfree
  | _ => simp [hrole, Role.isTable] at hnot

/-- The invariant after changes to the mappings only. -/
theorem settled (hinv : st.Inv role pgdir) (hpaged : Paged role' t)
    (hsettled : Settled role role' st.kern t)
    {map : PageMap} (hentries : ∀ v, v < userPages → leaf t.mem pgdir v = entryOf (map v))
    (hperms : ∀ v page perm, v < userPages → map v = some (page, perm) →
      page < npage ∧ IsPerm perm) :
    MapState.Inv role' pgdir ⟨t, map⟩ where
  paged := hpaged
  counted := hsettled.counted hinv.counted
  dir := (hsettled.dir pgdir).mpr hinv.dir
  only := fun f hf => hinv.only f ((hsettled.dir f).mp hf)
  used := fun f hf hother => hinv.used f hf (hsettled.other f hother)
  entries := hentries
  perms := hperms

/-- Every call that a caller may make returns and keeps the invariant. -/
theorem step (al : Allocator) (hinv : st.Inv role pgdir) {call : MapCall}
    (hok : call.Permitted pgdir st) :
    ∃ st' role', call.step al pgdir st = some st' ∧ st'.Inv role' pgdir := by
  cases call with
  | alloc =>
      have hspec := al.allocPage_spec (E := never) hinv.paged
      obtain ⟨t, hexec⟩ := hspec.exec_some
      obtain ⟨r, hmem, hr⟩ := hspec.of_exec hexec
      have hleaf : ∀ v, v < userPages → leaf t.mem pgdir v = entryOf (st.map v) := by
        rw [hmem]
        exact hinv.entries
      obtain ⟨role', hpaged', hkept⟩ : ∃ role', Paged role' t ∧ Kept role role' st.kern t := by
        cases r with
        | none => exact ⟨role, hr⟩
        | some n => exact ⟨_, hr.2.2⟩
      refine ⟨{ st with kern := t }, role', by simp [MapCall.step, hexec], hpaged',
        hkept.nonneg hinv.counted, (hkept.dir pgdir).mpr hinv.dir,
        fun f hf => hinv.only f ((hkept.dir f).mp hf),
        fun f hf hother => hinv.used f hf (hkept.other f hother), hleaf, hinv.perms⟩
  | insert page la perm =>
      have hpage := hinv.insertable hok
      obtain ⟨hla, hperm, hlt, _⟩ := hok
      obtain ⟨ret, t, hrun, role', hpaged', hsettled, _, hret, _⟩ :=
        (pageInsert_spec (E := never) al hinv.paged hinv.counted hinv.dir hla hpage hperm).ok
      rcases hret with ⟨rfl, hsame⟩ | ⟨rfl, hset⟩
      · refine ⟨⟨t, st.map⟩, role', by simp [MapCall.step, hrun, E_NO_MEM], ?_⟩
        refine hinv.settled hpaged' hsettled (fun v hv => ?_) hinv.perms
        rw [hsame pgdir v hinv.dir hv, hinv.entries v hv]
      · refine ⟨⟨t, Function.update st.map (ppn la) (some (page, perm))⟩, role',
          by simp [MapCall.step, hrun], ?_⟩
        refine hinv.settled hpaged' hsettled (fun v hv => ?_) fun v page' perm' hv hmap => ?_
        · rw [hset pgdir v hinv.dir hv, Function.update_apply]
          by_cases hne : v = ppn la
          · simp [hne, entryOf]
          · simp [hne, hinv.entries v hv]
        · rw [Function.update_apply] at hmap
          split at hmap
          next =>
            obtain ⟨rfl, rfl⟩ := Prod.mk.inj (Option.some.inj hmap)
            exact ⟨hlt, hperm⟩
          next => exact hinv.perms v page' perm' hv hmap
  | remove la =>
      have hspec := @pageRemove_spec never role st.kern al.allocPage pgdir la hinv.paged
        hinv.counted hinv.dir hok
      obtain ⟨t, hexec⟩ := hspec.exec_some
      obtain ⟨_, role', hpaged', hsettled, hset, _⟩ := hspec.of_exec hexec
      refine ⟨⟨t, Function.update st.map (ppn la) none⟩, role', by simp [MapCall.step, hexec], ?_⟩
      refine hinv.settled hpaged' hsettled (fun v hv => ?_) fun v page' perm' hv hmap => ?_
      · rw [hset pgdir v hinv.dir hv, Function.update_apply]
        by_cases hne : v = ppn la
        · subst hne
          rw [if_pos ⟨rfl, rfl⟩, if_pos rfl, hinv.entries _ hok, removed]
          cases st.map (ppn la) with
          | none => rfl
          | some q => simp [entryOf]
        · simp [hne, hinv.entries v hv]
      · rw [Function.update_apply] at hmap
        split at hmap
        next => cases hmap
        next => exact hinv.perms v page' perm' hv hmap
  | getPte la =>
      have hspec := getPte_true (E := never) al hinv.paged hinv.dir hok
      obtain ⟨t, hexec⟩ := hspec.exec_some
      obtain ⟨_, role', hpaged', hgrown, _⟩ := hspec.of_exec hexec
      refine ⟨{ st with kern := t }, role', by simp [MapCall.step, hexec], ?_⟩
      refine hinv.settled hpaged' hgrown.settled (fun v hv => ?_) hinv.perms
      rw [hgrown.leaf pgdir v hinv.dir hv, hinv.entries v hv]

theorem refines (hinv : st.Inv role pgdir) : Refines al pgdir st where
  getPage := by
    intro la hla
    apply Ends.eq_ok
    unfold Mm.getPage
    rw [ends_bind]
    apply (getPte_false hinv.paged hinv.dir hla).imp
    rintro p t ⟨rfl, rfl⟩
    have hentry := hinv.entries (ppn la) hla
    cases hwalk : walk st.kern.mem pgdir (ppn la) with
    | none =>
        rw [leaf, hwalk] at hentry
        cases hmap : st.map (ppn la) with
        | none => exact ⟨rfl, rfl⟩
        | some q =>
            have hvalid := congrArg valid hentry
            simp [hmap, entryOf] at hvalid
    | some p =>
        rw [leaf_of_walk hwalk] at hentry
        simp only [ends_bind, ends_load, hentry]
        cases hmap : st.map (ppn la) with
        | none => exact ⟨rfl, rfl⟩
        | some q =>
            obtain ⟨hlt, hperm⟩ := hinv.perms _ q.1 q.2 hla hmap
            have hframe : frame (pteCreate q.1 (PTE_V ||| q.2)) = q.1 :=
              frame_pteCreate (Nat.lt_trans hlt (by decide)) (IsPerm.or (by decide) hperm)
            simp only [entryOf, valid_pteCreate, if_true, ends_map]
            apply ends_pte2page (valid_pteCreate _ _) (by rw [hframe]; exact hlt)
            rw [hframe]
            exact ⟨rfl, rfl⟩
  getPte := by
    intro la hla
    refine ⟨walk st.kern.mem pgdir (ppn la), Ends.eq_ok (getPte_false hinv.paged hinv.dir hla), ?_⟩
    have hentry := hinv.entries (ppn la) hla
    cases hwalk : walk st.kern.mem pgdir (ppn la) with
    | none =>
        rw [leaf, hwalk] at hentry
        cases hmap : st.map (ppn la) with
        | none => rfl
        | some q =>
            have hvalid := congrArg valid hentry
            simp [hmap, entryOf] at hvalid
    | some p => rwa [leaf_of_walk hwalk] at hentry
  tables := by
    intro n n' page hn hn'
    apply Node.role_inj pgdir
    rw [← hinv.paged.tree.node hinv.dir hn, ← hinv.paged.tree.node hinv.dir hn']

/-- A `page_insert` that fails for lack of memory changes no translation and not
the count of the page. -/
theorem insert_noMem (hinv : st.Inv role pgdir) {page la : Nat} {perm : Pte} {ret : Int}
    (hok : (MapCall.insert page la perm).Permitted pgdir st)
    (hrun : pageInsert al.allocPage pgdir page la perm st.kern = .ok (ret, t)) (hret : ret ≠ 0) :
    ret = -E_NO_MEM ∧ t.ref page = st.kern.ref page ∧
      ∀ v, v < userPages → leaf t.mem pgdir v = leaf st.kern.mem pgdir v := by
  have hpage := hinv.insertable hok
  obtain ⟨hla, hperm, _⟩ := hok
  obtain ⟨ret', t', hrun', role', _, hsettled, hpage', hcases, _⟩ :=
    (pageInsert_spec (E := never) al hinv.paged hinv.counted hinv.dir hla hpage hperm).ok
  obtain ⟨rfl, rfl⟩ := Prod.mk.inj (Except.ok.inj (hrun'.symm.trans hrun))
  rcases hcases with ⟨rfl, hsame⟩ | ⟨rfl, _⟩
  · refine ⟨rfl, ?_, fun v hv => hsame pgdir v hinv.dir hv⟩
    have hexcess := (hsettled.data page hpage').2.2
    rw [excess, excess, mappings_congr hsame hsettled.dir] at hexcess
    omega
  · exact absurd rfl hret

end MapState.Inv

/-- The uses of the frames while the page directory is empty. -/
def emptyRole (pgdir : Nat) (s : Kern) (f : Nat) : Role :=
  if f = pgdir then .dir else if f ∈ s.free then .free else if f < npage then .data else .other

theorem EmptyDir.inv {pgdir : Nat} {s : Kern} (hempty : EmptyDir pgdir s) :
    MapState.Inv (emptyRole pgdir s) pgdir ⟨s, fun _ => none⟩ := by
  obtain ⟨hentries, ⟨hlt, hnotfree⟩, hframes, hrefs⟩ := hempty
  have hdir : emptyRole pgdir s pgdir = .dir := if_pos rfl
  have hplain : ∀ f, f ≠ pgdir → (emptyRole pgdir s f).isTable = false := by
    intro f hf
    rw [emptyRole, if_neg hf]
    split
    next => rfl
    next => split <;> rfl
  have honly : ∀ f, emptyRole pgdir s f = .dir → f = pgdir := by
    intro f hf
    by_contra hne
    have hno := hplain f hne
    rw [hf] at hno
    cases hno
  have hnone : ∀ v, v < userPages → leaf s.mem pgdir v = 0#64 := by
    intro v hv
    unfold leaf walk
    rw [hentries _ (idx1_lt hv)]
    rfl
  have hpaged : Paged (emptyRole pgdir s) s := by
    constructor
    · intro f i ρ hchild hvalid
      by_cases hf : f = pgdir
      · subst hf
        rw [hdir, Role.child, Option.ite_none_right_eq_some] at hchild
        rw [hentries i hchild.1] at hvalid
        cases hvalid
      · rw [Role.child_eq_none (hplain f hf)] at hchild
        cases hchild
    · intro f htable hne
      by_cases hf : f = pgdir
      · exact absurd (hf ▸ hdir) hne
      · rw [hplain f hf] at htable
        cases htable
    · intro f
      rw [emptyRole]
      by_cases hf : f = pgdir
      · subst hf
        simp [hnotfree]
      · by_cases hfree : f ∈ s.free
        · simp [hf, hfree]
        · by_cases hsmall : f < npage <;> simp [hf, hfree, hsmall]
    · intro f hf
      rw [emptyRole] at hf
      by_cases hroot : f = pgdir
      · exact hroot ▸ hlt
      · by_cases hfree : f ∈ s.free
        · exact (hframes f hfree).1
        · by_contra hlarge
          simp [hroot, hfree, hlarge] at hf
    · exact fun f hf => (hframes f hf).2
  refine ⟨hpaged, fun f _ => ?_, hdir, honly, fun f hf => ?_, hnone, fun v page perm _ hmap => ?_⟩
  · have hunmapped : mappings (emptyRole pgdir s) s.mem f = ∅ := by
      rw [eq_empty_iff_forall_notMem]
      intro p hp
      obtain ⟨_, hv, hrole, hvalid, _⟩ := mem_mappings.mp hp
      rw [honly p.1 hrole, hnone p.2 hv] at hvalid
      cases hvalid
    rw [excess, hunmapped]
    simpa using hrefs f
  · rw [emptyRole, if_pos hf]
    split
    next => exact Role.noConfusion
    next => split <;> exact Role.noConfusion
  · cases hmap

/-- A page directory refines the map from page numbers to frames and
permissions: after any calls on it, starting from an empty one, every
translation is that of the map and the tables are distinct pages; every further
call returns; and a `page_insert` that fails changes no translation and no count. -/
theorem pageTable_refines (al : Allocator) {pgdir : Nat} {s₀ : Kern} (hempty : EmptyDir pgdir s₀)
    {st : MapState} (hrun : RunsTo (fun st (call : MapCall) => call.step al pgdir st)
      (fun st call => call.Permitted pgdir st) ⟨s₀, fun _ => none⟩ st) :
    Refines al pgdir st ∧
      (∀ call : MapCall, call.Permitted pgdir st → ∃ st', call.step al pgdir st = some st') ∧
      ∀ page la perm ret t, (MapCall.insert page la perm).Permitted pgdir st →
        pageInsert al.allocPage pgdir page la perm st.kern = .ok (ret, t) → ret ≠ 0 →
          ret = -E_NO_MEM ∧ t.ref page = st.kern.ref page ∧
            ∀ v, v < userPages → leaf t.mem pgdir v = leaf st.kern.mem pgdir v := by
  have hinv : ∃ role, st.Inv role pgdir := by
    refine @RunsTo.invariant _ _ _ _ _ _ (fun st => ∃ role, st.Inv role pgdir) hrun
      ⟨_, hempty.inv⟩ ?_
    rintro t call u ⟨role, ht⟩ hok hstep
    obtain ⟨u', role', hstep', hu⟩ := ht.step al hok
    obtain rfl := Option.some.inj (hstep'.symm.trans hstep)
    exact ⟨role', hu⟩
  obtain ⟨role, hinv⟩ := hinv
  refine ⟨hinv.refines, fun call hok => ?_, fun page la perm ret t hok hins hret => ?_⟩
  · obtain ⟨st', _, hstep, _⟩ := hinv.step al hok
    exact ⟨st', hstep⟩
  · exact hinv.insert_noMem hok hins hret

/-- A caller gets a page and maps it. -/
theorem pageTable_refines_insert : ∃ st, EmptyDir 0x80500 (bootKern {0x80501, 0x80502, 0x80503}) ∧
    Refines (Allocator.ofList [0x80501, 0x80502, 0x80503]) 0x80500 st ∧
    st.map 0x200 = some (0x80501, PTE_U ||| READ_WRITE) := by
  have hempty : EmptyDir 0x80500 (bootKern {0x80501, 0x80502, 0x80503}) := by
    refine ⟨fun i _ => valid_zero, by decide, by decide, fun f => ?_⟩
    exact Int.le_refl 0
  have hinsert : (MapCall.insert 0x80501 0x200000 (PTE_U ||| READ_WRITE)).Permitted 0x80500
      ⟨((bootKern {0x80501, 0x80502, 0x80503}).nextTick).take 0x80501, fun _ => none⟩ := by
    refine ⟨by decide, by decide, by decide, by decide, fun n => ?_⟩
    cases n <;> simp [Node.page, bootKern]
  have hmap : ((MapCall.insert 0x80501 0x200000 (PTE_U ||| READ_WRITE)).step
      (Allocator.ofList [0x80501, 0x80502, 0x80503]) 0x80500
      ⟨((bootKern {0x80501, 0x80502, 0x80503}).nextTick).take 0x80501, fun _ => none⟩).map
        (fun st => st.map 0x200) = some (some (0x80501, PTE_U ||| READ_WRITE)) := by
    decide
  have halloc : MapCall.alloc.step (Allocator.ofList [0x80501, 0x80502, 0x80503]) 0x80500
      ⟨bootKern {0x80501, 0x80502, 0x80503}, fun _ => none⟩ =
        some ⟨((bootKern {0x80501, 0x80502, 0x80503}).nextTick).take 0x80501, fun _ => none⟩ := by
    rfl
  obtain ⟨st, hstep, hst⟩ := Option.map_eq_some_iff.mp hmap
  have hrun := (RunsTo.refl.tail (i := MapCall.alloc) trivial halloc).tail hinsert hstep
  exact ⟨st, hempty, (pageTable_refines _ hempty hrun).1, hst⟩

end Ucore.Mm
