import Mathlib.Logic.Function.Basic
import Ucore.Mm.Mmu

/-!
# The shape of page tables

Memory as the page-table code sees it: pages of 512 words. `leaf` reads the
entry for a page number off a page directory. `Tree` says what each page frame
is used for, and is what keeps the tables of different addresses and of
different directories apart.
-/

namespace Ucore.Mm

open Mmu

/-- The words of each page frame. -/
abbrev Memory := Nat → Nat → Pte

/-- A `pte_t *`: a word of a page frame. -/
structure Ptr where
  page : Nat
  index : Nat
  deriving DecidableEq, Repr

namespace Memory

def write (m : Memory) (p : Ptr) (w : Pte) : Memory :=
  Function.update m p.page (Function.update (m p.page) p.index w)

def fill (m : Memory) (page : Nat) (words : Nat → Pte) : Memory := Function.update m page words

@[simp] theorem write_apply (m : Memory) (p : Ptr) (w : Pte) (page index : Nat) :
    m.write p w page index = if page = p.page ∧ index = p.index then w else m page index := by
  by_cases hpage : page = p.page
  · subst hpage
    simp [write, Function.update_apply]
  · simp [write, hpage]

theorem write_of_ne (m : Memory) (p : Ptr) (w : Pte) {page : Nat} (hne : page ≠ p.page) :
    m.write p w page = m page := Function.update_of_ne hne _ _

@[simp] theorem fill_apply (m : Memory) (page : Nat) (words : Nat → Pte) (page' : Nat) :
    m.fill page words page' = if page' = page then words else m page' := by
  simp [fill, Function.update_apply]

end Memory

/-- Page numbers below the last entry of the page directory, which maps the kernel. -/
def userPages : Nat := 511 * 2 ^ 18

/-- The level 1 index of a page number. -/
def idx1 (v : Nat) : Nat := v / 2 ^ 18 % 512

/-- The level 0 index of a page number. -/
def idx0 (v : Nat) : Nat := v / 2 ^ 9 % 512

/-- The place of the entry for the page number `v`, if its tables exist. -/
def walk (m : Memory) (pgdir v : Nat) : Option Ptr :=
  if valid (m pgdir (idx1 v)) then
    if valid (m (frame (m pgdir (idx1 v))) (idx0 v)) then
      some ⟨frame (m (frame (m pgdir (idx1 v))) (idx0 v)), v % 512⟩
    else none
  else none

theorem walk_eq_some {m : Memory} {pgdir v : Nat} {p : Ptr} :
    walk m pgdir v = some p ↔ valid (m pgdir (idx1 v)) = true ∧
      valid (m (frame (m pgdir (idx1 v))) (idx0 v)) = true ∧
      p = ⟨frame (m (frame (m pgdir (idx1 v))) (idx0 v)), v % 512⟩ := by
  unfold walk
  constructor
  · intro hwalk
    split at hwalk
    next h1 =>
      split at hwalk
      next h0 => exact ⟨h1, h0, (Option.some.inj hwalk).symm⟩
      next => cases hwalk
    next => cases hwalk
  · rintro ⟨h1, h0, rfl⟩
    rw [if_pos h1, if_pos h0]

/-- How many of the two tables for the page number `v` do not exist. -/
def missing (m : Memory) (pgdir v : Nat) : Nat :=
  if valid (m pgdir (idx1 v)) then
    if valid (m (frame (m pgdir (idx1 v))) (idx0 v)) then 0 else 1
  else 2

/-- The entry for the page number `v`; 0 where there is none. -/
def leaf (m : Memory) (pgdir v : Nat) : Pte :=
  match walk m pgdir v with
  | none => 0#64
  | some p => m p.page p.index

theorem leaf_of_walk {m : Memory} {pgdir v : Nat} {p : Ptr} (hwalk : walk m pgdir v = some p) :
    leaf m pgdir v = m p.page p.index := by
  rw [leaf, hwalk]

/-- What a page frame is used for: the lower directory for index `i` of a page
directory, the page table for the pages `512 * k + t`, a page of data. Frames of
the kernel itself are `other`. -/
inductive Role
  | other
  | free
  | dir
  | mid (pgdir i : Nat)
  | tab (pgdir k : Nat)
  | data
  deriving DecidableEq, Repr

/-- What the entry `i` of the frame `f`, used as a table, points to when it is valid. -/
def Role.child : Role → Nat → Nat → Option Role
  | .dir, f, i => if i < 511 then some (.mid f i) else none
  | .mid pgdir i, _, j => if j < 512 then some (.tab pgdir (512 * i + j)) else none
  | .tab _ _, _, t => if t < 512 then some .data else none
  | _, _, _ => none

theorem Role.child_ne_free {ρ ρ' : Role} {f i : Nat} (hchild : ρ.child f i = some ρ') :
    ρ' ≠ .free := by
  unfold Role.child at hchild
  split at hchild <;> (try split at hchild) <;> cases hchild <;> exact Role.noConfusion

theorem Role.child_ne_dir {ρ ρ' : Role} {f i : Nat} (hchild : ρ.child f i = some ρ') :
    ρ' ≠ .dir := by
  unfold Role.child at hchild
  split at hchild <;> (try split at hchild) <;> cases hchild <;> exact Role.noConfusion

theorem Role.child_ne_other {ρ ρ' : Role} {f i : Nat} (hchild : ρ.child f i = some ρ') :
    ρ' ≠ .other := by
  unfold Role.child at hchild
  split at hchild <;> (try split at hchild) <;> cases hchild <;> exact Role.noConfusion

/-- Each valid entry points to a frame in the use that its place calls for. -/
def Tree (role : Nat → Role) (m : Memory) : Prop :=
  ∀ f i ρ, (role f).child f i = some ρ → valid (m f i) = true → role (frame (m f i)) = ρ

def Role.isTable : Role → Bool
  | .dir | .mid _ _ | .tab _ _ => true
  | _ => false

/-- The page directories of the two upper levels. -/
def Role.isDirectory : Role → Bool
  | .dir | .mid _ _ => true
  | _ => false

theorem Role.isTable_of_directory {ρ : Role} (hdir : ρ.isDirectory = true) : ρ.isTable = true := by
  cases ρ <;> first | rfl | cases hdir

/-- Only page tables point to pages of data. -/
theorem Role.child_data {ρ : Role} {f i : Nat} (hchild : ρ.child f i = some .data) :
    (∃ pgdir k, ρ = .tab pgdir k) ∧ i < 512 := by
  cases ρ with
  | tab pgdir k =>
      rw [Role.child, Option.ite_none_right_eq_some] at hchild
      exact ⟨⟨pgdir, k, rfl⟩, hchild.1⟩
  | dir | mid =>
      rw [Role.child, Option.ite_none_right_eq_some, Option.some.injEq] at hchild
      cases hchild.2
  | _ => cases hchild

theorem Role.child_eq_none {ρ : Role} (hrole : ρ.isTable = false) (f i : Nat) :
    ρ.child f i = none := by
  cases ρ <;> first | rfl | cases hrole

/-- The tables below a page directory are pointed to by the entry for them. -/
def Linked (role : Nat → Role) (m : Memory) : Prop :=
  ∀ n, (role n).isTable = true → role n ≠ .dir →
    ∃ f i, (role f).child f i = some (role n) ∧ valid (m f i) = true ∧ frame (m f i) = n

namespace Tree

variable {role : Nat → Role} {m m' : Memory} {pgdir v f i n : Nat} {ρ : Role} {p : Ptr}

/-- The lower directory of a page number. -/
theorem mid (htree : Tree role m) (hdir : role pgdir = .dir) (hv : v < userPages)
    (hvalid : valid (m pgdir (idx1 v)) = true) :
    role (frame (m pgdir (idx1 v))) = .mid pgdir (idx1 v) := by
  have hi : idx1 v < 511 := by
    unfold userPages at hv
    unfold idx1
    omega
  exact htree pgdir _ _ (by simp [hdir, Role.child, hi]) hvalid

theorem index_eq (hv : v < userPages) : 512 * idx1 v + idx0 v = v / 512 := by
  unfold userPages at hv
  unfold idx1 idx0
  omega

/-- The page table of a page number belongs to its directory and to it. -/
theorem tab (htree : Tree role m) (hdir : role pgdir = .dir) (hv : v < userPages)
    (hwalk : walk m pgdir v = some p) :
    role p.page = .tab pgdir (v / 512) ∧ p.index = v % 512 := by
  obtain ⟨h1, h0, rfl⟩ := walk_eq_some.mp hwalk
  have hmid := htree.mid hdir hv h1
  have hj : idx0 v < 512 := Nat.mod_lt _ (by decide)
  have htab := htree _ _ (.tab pgdir (512 * idx1 v + idx0 v))
    (by simp only [hmid, Role.child, if_pos hj]) h0
  rw [index_eq hv] at htab
  exact ⟨htab, rfl⟩

theorem leaf_valid (hvalid : valid (leaf m pgdir v) = true) : ∃ p, walk m pgdir v = some p := by
  cases hwalk : walk m pgdir v with
  | none =>
      rw [leaf, hwalk, valid_zero] at hvalid
      cases hvalid
  | some p => exact ⟨p, rfl⟩

/-- A valid entry maps a page of data. -/
theorem data (htree : Tree role m) (hdir : role pgdir = .dir) (hv : v < userPages)
    (hvalid : valid (leaf m pgdir v) = true) : role (frame (leaf m pgdir v)) = .data := by
  obtain ⟨p, hwalk⟩ := leaf_valid hvalid
  rw [leaf_of_walk hwalk] at hvalid ⊢
  obtain ⟨htab, hindex⟩ := htree.tab hdir hv hwalk
  have hlt : p.index < 512 := hindex ▸ Nat.mod_lt v (by decide)
  exact htree _ _ _ (by rw [htab, Role.child, if_pos hlt]) hvalid

/-- Different page numbers, and different directories, have different entries. -/
theorem walk_inj (htree : Tree role m) {pgdir' v' : Nat} (hdir : role pgdir = .dir)
    (hdir' : role pgdir' = .dir) (hv : v < userPages) (hv' : v' < userPages)
    (hwalk : walk m pgdir v = some p) (hwalk' : walk m pgdir' v' = some p) :
    pgdir' = pgdir ∧ v' = v := by
  obtain ⟨htab, hindex⟩ := htree.tab hdir hv hwalk
  obtain ⟨htab', hindex'⟩ := htree.tab hdir' hv' hwalk'
  rw [htab, Role.tab.injEq] at htab'
  exact ⟨htab'.1.symm, by omega⟩

/-- Memory outside the tables does not matter to a walk. -/
theorem walk_congr (htree : Tree role m) (hdir : role pgdir = .dir) (hv : v < userPages)
    (hrest : m' pgdir = m pgdir) (hmid : ∀ f i, role f = .mid pgdir i → m' f = m f) :
    walk m' pgdir v = walk m pgdir v := by
  unfold walk
  rw [hrest]
  cases hvalid : valid (m pgdir (idx1 v)) with
  | false => rfl
  | true => rw [hmid _ _ (htree.mid hdir hv hvalid)]

theorem leaf_congr (htree : Tree role m) (hdir : role pgdir = .dir) (hv : v < userPages)
    (hrest : m' pgdir = m pgdir) (hmid : ∀ f i, role f = .mid pgdir i → m' f = m f)
    (htab : ∀ f k, role f = .tab pgdir k → m' f = m f) :
    leaf m' pgdir v = leaf m pgdir v := by
  unfold leaf
  rw [htree.walk_congr hdir hv hrest hmid]
  cases hwalk : walk m pgdir v with
  | none => rfl
  | some p =>
      show m' p.page p.index = m p.page p.index
      rw [htab _ _ (htree.tab hdir hv hwalk).1]

/-- The entry that points to a lower directory. -/
theorem parent_mid (hlinked : Linked role m) (hmid : role n = .mid pgdir i) :
    role pgdir = .dir ∧ i < 511 ∧ valid (m pgdir i) = true ∧ frame (m pgdir i) = n := by
  obtain ⟨r, i', hchild, hentry⟩ :=
    hlinked n (by rw [hmid]; rfl) (by rw [hmid]; exact Role.noConfusion)
  rw [hmid] at hchild
  cases hr : role r with
  | dir =>
      rw [hr, Role.child, Option.ite_none_right_eq_some, Option.some.injEq,
        Role.mid.injEq] at hchild
      obtain ⟨hi, rfl, rfl⟩ := hchild
      exact ⟨hr, hi, hentry⟩
  | _ => simp [hr, Role.child] at hchild

/-- The entry that points to a page table. -/
theorem parent_tab (hlinked : Linked role m) {k : Nat} (htab : role n = .tab pgdir k) :
    ∃ i g j, role g = .mid pgdir i ∧ j < 512 ∧ k = 512 * i + j ∧ valid (m g j) = true ∧
      frame (m g j) = n := by
  obtain ⟨g, j, hchild, hentry⟩ :=
    hlinked n (by rw [htab]; rfl) (by rw [htab]; exact Role.noConfusion)
  rw [htab] at hchild
  cases hg : role g with
  | mid pgdir' i =>
      rw [hg, Role.child, Option.ite_none_right_eq_some, Option.some.injEq,
        Role.tab.injEq] at hchild
      obtain ⟨hj, rfl, rfl⟩ := hchild
      exact ⟨i, g, j, hg, hj, rfl, hentry⟩
  | _ => simp [hg, Role.child] at hchild

/-- Every word of a page table is the entry for a page number. -/
theorem walk_of_tab (hlinked : Linked role m) {k j : Nat}
    (htab : role n = .tab pgdir k) (hj : j < 512) :
    role pgdir = .dir ∧ 512 * k + j < userPages ∧
      walk m pgdir (512 * k + j) = some ⟨n, j⟩ := by
  obtain ⟨i1, g, i0, hg, hi0, rfl, hvalid0, hframe0⟩ := parent_tab hlinked htab
  obtain ⟨hdir, hi1, hvalid1, hframe1⟩ := parent_mid hlinked hg
  have h1 : idx1 (512 * (512 * i1 + i0) + j) = i1 := by
    unfold idx1
    omega
  have h0 : idx0 (512 * (512 * i1 + i0) + j) = i0 := by
    unfold idx0
    omega
  refine ⟨hdir, by unfold userPages; omega, ?_⟩
  rw [walk_eq_some, h1, h0, hframe1, hframe0]
  refine ⟨hvalid1, hvalid0, ?_⟩
  rw [Ptr.mk.injEq]
  exact ⟨rfl, by omega⟩

/-! ## Changing an entry -/

/-- An entry of a page table is replaced. -/
theorem write_tab (htree : Tree role m) {k : Nat} (hp : role p.page = .tab pgdir k) {e : Pte}
    (he : valid e = true → role (frame e) = .data) : Tree role (m.write p e) := by
  intro f i ρ hchild hvalid
  rw [Memory.write_apply] at hvalid ⊢
  split at hvalid
  next heq =>
    rw [if_pos heq]
    rw [heq.1, hp, Role.child, Option.ite_none_right_eq_some, Option.some.injEq] at hchild
    exact hchild.2 ▸ he hvalid
  next hne =>
    rw [if_neg hne]
    exact htree f i ρ hchild hvalid

theorem walk_write_tab (htree : Tree role m) {pgdir' k : Nat} (hdir : role pgdir = .dir)
    (hv : v < userPages) (hp : role p.page = .tab pgdir' k) (e : Pte) :
    walk (m.write p e) pgdir v = walk m pgdir v := by
  have hne : ∀ f, role f ≠ .tab pgdir' k → m.write p e f = m f :=
    fun f hf => m.write_of_ne p e fun heq => hf (heq ▸ hp)
  exact htree.walk_congr hdir hv (hne _ (by simp [hdir])) fun f i hf => hne f (by simp [hf])

/-- Replacing the entry of a page number changes that entry only. -/
theorem leaf_write (htree : Tree role m) {pgdir' v' : Nat} (hdir : role pgdir = .dir)
    (hdir' : role pgdir' = .dir) (hv : v < userPages) (hv' : v' < userPages)
    (hwalk : walk m pgdir v = some p) (e : Pte) :
    leaf (m.write p e) pgdir' v' = if pgdir' = pgdir ∧ v' = v then e else leaf m pgdir' v' := by
  have htab := (htree.tab hdir hv hwalk).1
  unfold leaf
  rw [htree.walk_write_tab hdir' hv' htab]
  split
  next hwalk' =>
    rw [if_neg]
    rintro ⟨rfl, rfl⟩
    rw [hwalk] at hwalk'
    cases hwalk'
  next q hwalk' =>
    rw [Memory.write_apply]
    by_cases heq : q.page = p.page ∧ q.index = p.index
    · obtain rfl : q = p := by
        cases q
        cases p
        simpa using heq
      rw [if_pos ⟨rfl, rfl⟩, if_pos (htree.walk_inj hdir hdir' hv hv' hwalk hwalk')]
    · rw [if_neg heq, if_neg]
      rintro ⟨rfl, rfl⟩
      rw [hwalk] at hwalk'
      obtain rfl := Option.some.inj hwalk'
      exact heq ⟨rfl, rfl⟩

/-! ## Changing the use of a frame -/

/-- A frame that no entry points to is put to another use, with new contents. -/
theorem retag (htree : Tree role m)
    (hfree : ∀ f i ρ, f ≠ n → (role f).child f i = some ρ → valid (m f i) = true →
      frame (m f i) ≠ n)
    (hwords : ∀ i ρ', ρ.child n i = some ρ' → valid (m' n i) = true →
      frame (m' n i) ≠ n ∧ role (frame (m' n i)) = ρ')
    (hrest : ∀ f, f ≠ n → m' f = m f) : Tree (Function.update role n ρ) m' := by
  intro f i ρ' hchild hvalid
  by_cases hf : f = n
  · subst hf
    rw [Function.update_self] at hchild
    obtain ⟨hne, hrole⟩ := hwords i ρ' hchild hvalid
    rw [Function.update_of_ne hne, hrole]
  · rw [Function.update_of_ne hf] at hchild
    rw [hrest f hf] at hvalid ⊢
    rw [Function.update_of_ne (hfree f i ρ' hf hchild hvalid)]
    exact htree f i ρ' hchild hvalid

theorem not_target (htree : Tree role m) (hn : role n = .free) :
    ∀ f i ρ, (role f).child f i = some ρ → valid (m f i) = true → frame (m f i) ≠ n := by
  intro f i ρ hchild hvalid heq
  have hrole := htree f i ρ hchild hvalid
  rw [heq, hn] at hrole
  exact Role.child_ne_free hchild hrole.symm

/-- A frame that is not a table and that no entry points to is put to another
use, not as a table. -/
theorem retag_plain (htree : Tree role m) (hrole : ρ.isTable = false)
    (hfree : ∀ f i ρ, (role f).child f i = some ρ → valid (m f i) = true → frame (m f i) ≠ n) :
    Tree (Function.update role n ρ) m :=
  htree.retag (fun f i ρ _ => hfree f i ρ)
    (fun i ρ' hchild => by rw [Role.child_eq_none hrole] at hchild; cases hchild) fun _ _ => rfl

theorem linked_retag_plain (hlinked : Linked role m) (hold : (role n).isTable = false)
    (hnew : ρ.isTable = false) : Linked (Function.update role n ρ) m := by
  intro g hg hne
  by_cases hgn : g = n
  · subst hgn
    rw [Function.update_self, hnew] at hg
    cases hg
  · rw [Function.update_of_ne hgn] at hg hne ⊢
    obtain ⟨f, i, hchild, hentry⟩ := hlinked g hg hne
    have hfn : f ≠ n := by
      rintro rfl
      rw [Role.child_eq_none hold] at hchild
      cases hchild
    exact ⟨f, i, by rwa [Function.update_of_ne hfn], hentry⟩

theorem linked_write_tab (hlinked : Linked role m) {k : Nat} (hp : role p.page = .tab pgdir k)
    (e : Pte) : Linked role (m.write p e) := by
  intro g hg hne
  obtain ⟨f, i, hchild, hentry⟩ := hlinked g hg hne
  have hfp : f ≠ p.page := by
    rintro rfl
    rw [hp] at hchild
    rw [Role.child, Option.ite_none_right_eq_some, Option.some.injEq] at hchild
    rw [← hchild.2] at hg
    cases hg
  exact ⟨f, i, hchild, by rwa [m.write_of_ne p e hfp]⟩

/-- A cleared frame becomes the table that an entry of the frame `f` calls for. -/
theorem install (htree : Tree role m) (hn : role n = .free) (hsmall : n < 2 ^ 44)
    (hchild : (role f).child f i = some ρ) {type : Pte} (htype : IsPerm type) :
    Tree (Function.update role n ρ) ((m.fill n fun _ => 0#64).write ⟨f, i⟩ (pteCreate n type)) := by
  have hf : f ≠ n := by
    rintro rfl
    simp [hn, Role.child] at hchild
  have hclear : Tree (Function.update role n ρ) (m.fill n fun _ => 0#64) :=
    htree.retag (fun f i ρ _ => htree.not_target hn f i ρ) (fun i ρ' _ hvalid => by simp at hvalid)
      fun g hg => by simp [hg]
  intro g j ρ' hchild' hvalid
  rw [Memory.write_apply] at hvalid ⊢
  split at hvalid
  next heq =>
    obtain ⟨rfl, rfl⟩ := heq
    rw [Function.update_of_ne hf, hchild] at hchild'
    rw [if_pos ⟨rfl, rfl⟩, frame_pteCreate hsmall htype, Function.update_self]
    exact Option.some.inj hchild'
  next hne =>
    rw [if_neg hne]
    exact hclear g j ρ' hchild' hvalid

theorem linked_install (hlinked : Linked role m) (hn : role n = .free) (hsmall : n < 2 ^ 44)
    (hchild : (role f).child f i = some ρ) (hinvalid : valid (m f i) = false) {type : Pte}
    (htype : IsPerm type) :
    Linked (Function.update role n ρ)
      ((m.fill n fun _ => 0#64).write ⟨f, i⟩ (pteCreate n type)) := by
  have hfn : f ≠ n := by
    rintro rfl
    simp [hn, Role.child] at hchild
  intro g hg hne
  by_cases hgn : g = n
  · subst hgn
    rw [Function.update_self]
    refine ⟨f, i, by rwa [Function.update_of_ne hfn], ?_⟩
    simp [frame_pteCreate hsmall htype]
  · rw [Function.update_of_ne hgn] at hg hne ⊢
    obtain ⟨f', i', hchild', hvalid', hframe'⟩ := hlinked g hg hne
    have hfn' : f' ≠ n := by
      rintro rfl
      simp [hn, Role.child] at hchild'
    have hother : ¬ (f' = f ∧ i' = i) := by
      rintro ⟨rfl, rfl⟩
      rw [hinvalid] at hvalid'
      cases hvalid'
    refine ⟨f', i', by rwa [Function.update_of_ne hfn'], ?_⟩
    simpa [hfn', hother] using ⟨hvalid', hframe'⟩

/-- A new table changes no entry for any page number. -/
theorem leaf_install (htree : Tree role m) (hn : role n = .free) (hsmall : n < 2 ^ 44)
    (hchild : (role f).child f i = some ρ) (htable : ρ ≠ .data)
    (hinvalid : valid (m f i) = false) {type : Pte} (htype : IsPerm type)
    (hdir : role pgdir = .dir) (hv : v < userPages) :
    leaf ((m.fill n fun _ => 0#64).write ⟨f, i⟩ (pteCreate n type)) pgdir v = leaf m pgdir v := by
  have hpn : pgdir ≠ n := by
    rintro rfl
    simp [hn] at hdir
  have hfn : f ≠ n := by
    rintro rfl
    simp [hn, Role.child] at hchild
  obtain ⟨m', hm'⟩ : ∃ m', m' = (m.fill n fun _ => 0#64).write ⟨f, i⟩ (pteCreate n type) := ⟨_, rfl⟩
  rw [← hm']
  have hside : ∀ g j, ¬ (g = f ∧ j = i) → g ≠ n → m' g j = m g j := by
    intro g j hne hgn
    rw [hm', Memory.write_apply, if_neg hne, Memory.fill_apply, if_neg hgn]
  have hnew : m' f i = pteCreate n type := by
    rw [hm', Memory.write_apply, if_pos ⟨rfl, rfl⟩]
  have hzero : ∀ j, m' n j = 0#64 := by
    intro j
    rw [hm', Memory.write_apply, if_neg (fun heq => hfn heq.1.symm), Memory.fill_apply, if_pos rfl]
  clear hm'
  by_cases h1 : pgdir = f ∧ idx1 v = i
  · -- the new entry is the one of the page directory
    obtain ⟨rfl, rfl⟩ := h1
    simp [leaf, walk, hnew, frame_pteCreate hsmall htype, hzero, hinvalid]
  have hpde1 := hside _ _ h1 hpn
  cases hvalid1 : valid (m pgdir (idx1 v)) with
  | false => simp [leaf, walk, hpde1, hvalid1]
  | true =>
      have hmid := htree.mid hdir hv hvalid1
      by_cases h0 : frame (m pgdir (idx1 v)) = f ∧ idx0 v = i
      · -- the new entry is the one of the lower directory
        obtain ⟨rfl, rfl⟩ := h0
        simp [leaf, walk, hpde1, hvalid1, hnew, frame_pteCreate hsmall htype, hzero, hinvalid]
      · have hmn : frame (m pgdir (idx1 v)) ≠ n := by
          intro heq
          rw [heq, hn] at hmid
          cases hmid
        have hpde0 := hside _ _ h0 hmn
        cases hwalk : walk m pgdir v with
        | none =>
            have hwalk' : walk m' pgdir v = none := by
              rw [← hwalk]
              simp only [walk, hpde1, hpde0]
            rw [leaf, leaf, hwalk, hwalk']
        | some p =>
            have hwalk' : walk m' pgdir v = some p := by
              rw [← hwalk]
              simp only [walk, hpde1, hpde0]
            have htab := (htree.tab hdir hv hwalk).1
            rw [leaf_of_walk hwalk, leaf_of_walk hwalk']
            apply hside
            · rintro ⟨rfl, rfl⟩
              rw [htab, Role.child, Option.ite_none_right_eq_some, Option.some.injEq] at hchild
              exact htable hchild.2.symm
            · rintro rfl
              rw [htab] at hn
              cases hn

end Tree

end Ucore.Mm
