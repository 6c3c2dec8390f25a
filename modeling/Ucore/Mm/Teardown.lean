import Ucore.Mm.PageMap
import Ucore.Mm.Procs

/-!
# Which tables `exit_mmap` gives back

`exit_range` gives a lower directory back when every entry that it has looked at
led to a page table. Entries outside the area it is called for are not looked at,
and an entry without a page table keeps the directory from being given back.
-/

namespace Ucore.Mm

open Mmu Machine

variable {E : Panic → Prop} {role role' : Nat → Role} {s t u : Kern} {pgdir : Nat}

/-! ## Places of tables -/

/-- The area overlaps the addresses of a page table, counted over all of memory. -/
def VmaStruct.inBlock (vma : VmaStruct) (k : Nat) : Prop :=
  vma.vmStart < PTSIZE * (k + 1) ∧ PTSIZE * k < vma.vmEnd

/-- The area overlaps the addresses of a lower directory, the `i`-th gigabyte of user addresses. -/
def VmaStruct.inRegion (vma : VmaStruct) (i : Nat) : Prop :=
  vma.vmStart < PDSIZE * (i + 1) ∧ PDSIZE * i < vma.vmEnd

/-- The number of a page table, over all of memory. -/
def blockOf (i : Fin 511) (j : Fin 512) : Nat := 512 * i + j

/-- The table is for addresses of the area. -/
def VmaStruct.needs (vma : VmaStruct) : Node → Prop
  | .root => False
  | .mid i => vma.inRegion i
  | .tab i j => vma.inBlock (blockOf i j)

/-- There is a table at the place. -/
def Node.Present (m : Memory) (pgdir : Nat) (n : Node) : Prop := ∃ f, n.page m pgdir = some f

/-- A page directory below which nothing is mapped. -/
structure Bare (pgdir : Nat) (s : Kern) : Prop where
  inj : ∀ (n n' : Node) f, n.page s.mem pgdir = some f → n'.page s.mem pgdir = some f → n = n'
  bound : ∀ (n : Node) f, n.page s.mem pgdir = some f → f < npage
  used : ∀ (n : Node) f, n.page s.mem pgdir = some f → f ∉ s.free
  blank : ∀ i j f, (Node.tab i j).page s.mem pgdir = some f → ∀ k < 512, valid (s.mem f k) = false

theorem Node.page_mid {m : Memory} {i : Fin 511} {f : Nat} :
    (Node.mid i).page m pgdir = some f ↔ valid (m pgdir i) = true ∧ frame (m pgdir i) = f := by
  rw [Node.page, Option.ite_none_right_eq_some, Option.some.injEq]

theorem Node.page_tab {m : Memory} {i : Fin 511} {j : Fin 512} {f : Nat} :
    (Node.tab i j).page m pgdir = some f ↔ ∃ pd0, (Node.mid i).page m pgdir = some pd0 ∧
      valid (m pd0 j) = true ∧ frame (m pd0 j) = f := by
  simp only [Node.page_mid]
  constructor
  · intro hf
    rw [Node.page, Option.ite_none_right_eq_some, Option.ite_none_right_eq_some,
      Option.some.injEq] at hf
    exact ⟨_, ⟨hf.1, rfl⟩, hf.2⟩
  · rintro ⟨_, ⟨h1, rfl⟩, h0, hf⟩
    rw [Node.page, if_pos h1, if_pos h0, hf]

/-- The entries of a page table are those of page numbers. -/
theorem Node.leaf_tab {m : Memory} {i : Fin 511} {j : Fin 512} {f k : Nat}
    (hf : (Node.tab i j).page m pgdir = some f) (hk : k < 512) :
    ∃ v, v < userPages ∧ leaf m pgdir v = m f k := by
  obtain ⟨pd0, hmid, h0, rfl⟩ := Node.page_tab.mp hf
  obtain ⟨h1, rfl⟩ := Node.page_mid.mp hmid
  obtain ⟨i, hi⟩ := i
  obtain ⟨j, hj⟩ := j
  have hidx1 : idx1 (2 ^ 18 * i + 512 * j + k) = i := by
    unfold idx1
    omega
  have hidx0 : idx0 (2 ^ 18 * i + 512 * j + k) = j := by
    unfold idx0
    omega
  have hlow : (2 ^ 18 * i + 512 * j + k) % 512 = k := by omega
  have hwalk : walk m pgdir (2 ^ 18 * i + 512 * j + k) =
      some ⟨frame (m (frame (m pgdir i)) j), k⟩ := by
    rw [walk_eq_some, hidx1, hidx0, hlow]
    exact ⟨h1, h0, rfl⟩
  exact ⟨_, by unfold userPages; omega, leaf_of_walk hwalk⟩

theorem Paged.bare (hpaged : Paged role s) (hdir : role pgdir = .dir)
    (hempty : DirEmpty s.mem pgdir) : Bare pgdir s := by
  have hrole : ∀ {n : Node} {f}, n.page s.mem pgdir = some f → role f = n.role pgdir :=
    fun hn => hpaged.tree.node hdir hn
  constructor
  · intro n n' f hn hn'
    exact Node.role_inj pgdir ((hrole hn).symm.trans (hrole hn'))
  · intro n f hn
    apply hpaged.bound
    rw [hrole hn]
    cases n <;> exact Role.noConfusion
  · intro n f hn
    rw [← hpaged.free, hrole hn]
    cases n <;> exact Role.noConfusion
  · intro i j f hf k hk
    obtain ⟨v, hv, hleaf⟩ := Node.leaf_tab hf hk
    rw [← hleaf, hempty v hv]

/-- The tables are at the same places when they have the same uses. -/
theorem Node.page_eq (hpaged : Paged role s) (hpaged' : Paged role' t)
    (hold : ∀ f, (role f).isTable = true → role' f = role f)
    (hnew : ∀ f, (role' f).isTable = true → role' f = role f) (hdir : role pgdir = .dir)
    (n : Node) : n.page t.mem pgdir = n.page s.mem pgdir := by
  have hone : ∀ {role role' : Nat → Role} {s t : Kern}, Paged role s → Paged role' t →
      (∀ f, (role f).isTable = true → role' f = role f) → role pgdir = .dir →
      ∀ f, n.page s.mem pgdir = some f → n.page t.mem pgdir = some f := by
    intro role role' s t hpaged hpaged' hsame hdir f hf
    have hrole := hpaged.tree.node hdir hf
    have htable : (role f).isTable = true := by
      rw [hrole]
      exact n.isTable_role pgdir
    have hrole' := (hsame f htable).trans hrole
    obtain ⟨pgdir', hdir', n', hn'⟩ := hpaged'.linked.place (hsame f htable ▸ htable)
    have heq := (hpaged'.tree.node hdir' hn').symm.trans hrole'
    cases n with
    | root =>
        exact hf
    | mid i | tab i j =>
        obtain rfl : pgdir' = pgdir := by
          cases n' <;> simp [Node.role] at heq
          exact heq.1
        rwa [← Node.role_inj pgdir' heq]
  ext f
  constructor
  · apply hone hpaged' hpaged (fun f hf => (hnew f hf).symm)
    rw [hold pgdir (by rw [hdir]; rfl), hdir]
  · exact hone hpaged hpaged' hold hdir f

/-! ## Tables that have been given back -/

/-- What is left of the bare directory of `s` when the tables at the places `gone`
have been given back: their entries are cleared, all others are as they were. -/
structure Torn (pgdir : Nat) (s t : Kern) (gone : Node → Prop) : Prop where
  placed : ∀ n, gone n → n ≠ .root ∧ n.Present s.mem pgdir
  free : ∀ f, f ∈ t.free ↔ f ∈ s.free ∨ ∃ n, gone n ∧ n.page s.mem pgdir = some f
  mid : ∀ i : Fin 511, (gone (.mid i) → t.mem pgdir i = 0#64) ∧
    (¬ gone (.mid i) → t.mem pgdir i = s.mem pgdir i)
  tab : ∀ i pd0, (Node.mid i).page s.mem pgdir = some pd0 → ∀ j : Fin 512,
    (gone (.tab i j) → t.mem pd0 j = 0#64) ∧ (¬ gone (.tab i j) → t.mem pd0 j = s.mem pd0 j)
  blank : ∀ i j f, (Node.tab i j).page s.mem pgdir = some f → t.mem f = s.mem f

namespace Torn

variable {gone gone' : Node → Prop} {i : Fin 511} {j : Fin 512} {pd0 f : Nat}

theorem refl (pgdir : Nat) (s : Kern) : Torn pgdir s s fun _ => False :=
  ⟨fun _ h => h.elim, by simp, by simp, by simp, fun _ _ _ _ => rfl⟩

theorem congr (h : Torn pgdir s t gone) (hgone : ∀ n, gone n ↔ gone' n) : Torn pgdir s t gone' := by
  rwa [show gone' = gone from funext fun n => propext (hgone n).symm]

/-- A page table is given back. -/
theorem clearTab (h : Torn pgdir s t gone) (hbare : Bare pgdir s)
    (hmid : (Node.mid i).page s.mem pgdir = some pd0)
    (htab : (Node.tab i j).page s.mem pgdir = some f) :
    Torn pgdir s ((t.giveBack f).write ⟨pd0, j⟩ 0#64) fun n => gone n ∨ n = .tab i j := by
  constructor
  · rintro n (hn | rfl)
    · exact h.placed n hn
    · exact ⟨Node.noConfusion, f, htab⟩
  · intro g
    rw [Kern.write_free, Kern.giveBack_free, Finset.mem_insert, h.free]
    constructor
    · rintro (rfl | hfree | ⟨n, hn, hg⟩)
      · exact Or.inr ⟨_, Or.inr rfl, htab⟩
      · exact Or.inl hfree
      · exact Or.inr ⟨n, Or.inl hn, hg⟩
    · rintro (hfree | ⟨n, hn | rfl, hg⟩)
      · exact Or.inr (Or.inl hfree)
      · exact Or.inr (Or.inr ⟨n, hn, hg⟩)
      · exact Or.inl (Option.some.inj (hg.symm.trans htab))
  · intro i'
    have hne : pgdir ≠ pd0 := by
      rintro rfl
      exact Node.noConfusion (hbare.inj .root (.mid i) pgdir rfl hmid)
    rw [Kern.write_mem, Memory.write_of_ne _ _ _ hne]
    simpa using h.mid i'
  · intro i' pd0' hmid' j'
    rw [Kern.write_mem, Memory.write_apply]
    by_cases hsame : pd0' = pd0 ∧ (j' : Nat) = j
    · obtain ⟨rfl, hj⟩ := hsame
      obtain rfl := Fin.ext hj
      obtain rfl := Node.mid.inj (hbare.inj _ _ _ hmid hmid')
      simp
    · rw [if_neg hsame]
      have hother : (Node.tab i' j') ≠ .tab i j := by
        intro heq
        obtain ⟨rfl, rfl⟩ := Node.tab.inj heq
        exact hsame ⟨Option.some.inj (hmid'.symm.trans hmid), rfl⟩
      simpa [hother] using h.tab i' pd0' hmid' j'
  · intro i' j' g hg
    have hne : g ≠ pd0 := by
      rintro rfl
      exact Node.noConfusion (hbare.inj _ _ _ hg hmid)
    rw [Kern.write_mem, Memory.write_of_ne _ _ _ hne]
    exact h.blank i' j' g hg

/-- A lower directory is given back. -/
theorem clearMid (h : Torn pgdir s t gone) (hbare : Bare pgdir s)
    (hmid : (Node.mid i).page s.mem pgdir = some pd0) :
    Torn pgdir s ((t.giveBack pd0).write ⟨pgdir, i⟩ 0#64) fun n => gone n ∨ n = .mid i := by
  have hne : ∀ (n : Node) f, n ≠ .root → n.page s.mem pgdir = some f → f ≠ pgdir := by
    rintro n f hn hf rfl
    exact hn (hbare.inj n .root f hf rfl)
  constructor
  · rintro n (hn | rfl)
    · exact h.placed n hn
    · exact ⟨Node.noConfusion, pd0, hmid⟩
  · intro g
    rw [Kern.write_free, Kern.giveBack_free, Finset.mem_insert, h.free]
    constructor
    · rintro (rfl | hfree | ⟨n, hn, hg⟩)
      · exact Or.inr ⟨_, Or.inr rfl, hmid⟩
      · exact Or.inl hfree
      · exact Or.inr ⟨n, Or.inl hn, hg⟩
    · rintro (hfree | ⟨n, hn | rfl, hg⟩)
      · exact Or.inr (Or.inl hfree)
      · exact Or.inr (Or.inr ⟨n, hn, hg⟩)
      · exact Or.inl (Option.some.inj (hg.symm.trans hmid))
  · intro i'
    rw [Kern.write_mem, Memory.write_apply]
    by_cases hsame : i' = i
    · subst hsame
      simp
    · have hval : ¬ (i' : Nat) = i := fun heq => hsame (Fin.ext heq)
      simpa [hsame, hval] using h.mid i'
  · intro i' pd0' hmid' j'
    rw [Kern.write_mem, Memory.write_of_ne _ _ _ (hne _ _ Node.noConfusion hmid')]
    simpa using h.tab i' pd0' hmid' j'
  · intro i' j' g hg
    rw [Kern.write_mem, Memory.write_of_ne _ _ _ (hne _ _ Node.noConfusion hg)]
    exact h.blank i' j' g hg

end Torn

/-! ## `exit_range` -/

/-- Whether all entries of a table are invalid. -/
theorem ends_ptEmpty_iff {pt : Nat} {Q : Bool → Kern → Prop}
    (hQ : ∀ b, (b = true ↔ ∀ k < 512, valid (s.mem pt k) = false) → Q b s) :
    Ends E (ptEmpty pt) s Q := by
  unfold ptEmpty
  rw [ends_map, ends_get]
  apply hQ
  simp

section

variable {gone : Node → Prop} {i : Fin 511} {j : Fin 512} {pd0 : Nat}

/-- One entry of a lower directory. -/
theorem exitPt_torn (hbare : Bare pgdir s) (htorn : Torn pgdir s t gone)
    (hmid : (Node.mid i).page s.mem pgdir = some pd0) :
    Ends E (exitPt pd0 (PTSIZE * blockOf i j)) t fun b u =>
      Torn pgdir s u (fun n => gone n ∨ n = .tab i j ∧ n.Present s.mem pgdir) ∧
        (b = true ↔ (Node.tab i j).Present s.mem pgdir ∧ ¬ gone (.tab i j)) := by
  have hindex : pdx0 (PTSIZE * blockOf i j) = j := by
    have hj := j.isLt
    rw [pdx0_eq, ppn_eq]
    unfold PTSIZE PGSIZE blockOf
    omega
  obtain ⟨hgone, hkept⟩ := htorn.tab i pd0 hmid j
  unfold exitPt
  rw [hindex]
  simp only [ends_bind, ends_load]
  by_cases hj : gone (.tab i j)
  · rw [hgone hj, if_neg (by simp), ends_pure]
    refine ⟨htorn.congr fun n => ⟨Or.inl, ?_⟩, by simp [hj]⟩
    rintro (hn | ⟨rfl, _⟩)
    · exact hn
    · exact hj
  · rw [hkept hj]
    cases hvalid : valid (s.mem pd0 j) with
    | false =>
        have habsent : ¬ (Node.tab i j).Present s.mem pgdir := by
          rintro ⟨f, hf⟩
          obtain ⟨pd0', hmid', hvalid', _⟩ := Node.page_tab.mp hf
          obtain rfl := Option.some.inj (hmid.symm.trans hmid')
          rw [hvalid] at hvalid'
          cases hvalid'
        rw [if_neg (by simp), ends_pure]
        refine ⟨htorn.congr fun n => ⟨Or.inl, ?_⟩, by simp [habsent]⟩
        rintro (hn | ⟨rfl, hpresent⟩)
        · exact hn
        · exact absurd hpresent habsent
    | true =>
        have htab : (Node.tab i j).page s.mem pgdir = some (frame (s.mem pd0 j)) :=
          Node.page_tab.mpr ⟨pd0, hmid, hvalid, rfl⟩
        have hbound := hbare.bound _ _ htab
        rw [if_pos rfl]
        simp only [ends_bind]
        apply ends_pa2page hbound
        apply ends_kaddr hbound
        refine ends_ptEmpty_iff fun b hb => ?_
        have hempty : b = true := by
          rw [hb, htorn.blank i j _ htab]
          exact hbare.blank i j _ htab
        rw [if_pos hempty, ends_bind]
        apply ends_pa2page hbound
        have hnotfree : frame (s.mem pd0 j) ∉ t.free := by
          rw [htorn.free]
          rintro (hfree | ⟨n, hn, hf⟩)
          · exact hbare.used _ _ htab hfree
          · exact hj (hbare.inj _ _ _ hf htab ▸ hn)
        rw [ends_bind]
        apply ends_freePage hnotfree
        rw [ends_bind, ends_store, ends_pure]
        refine ⟨(htorn.clearTab hbare hmid htab).congr fun n => or_congr_right ?_, ?_⟩
        · constructor
          · rintro rfl
            exact ⟨rfl, _, htab⟩
          · exact fun h => h.1
        · exact iff_of_true rfl ⟨⟨_, htab⟩, hj⟩

/-- The entries of a lower directory from `lo` on, below `n`. -/
theorem exitPd0_torn (hbare : Bare pgdir s) (htorn : Torn pgdir s t gone)
    (hmid : (Node.mid i).page s.mem pgdir = some pd0) {lo n stop : Nat} (hle : 512 * i ≤ lo)
    (hlt : lo < n) (hn : n ≤ 512 * (i + 1))
    (hagain : ∀ k, lo < k → (PTSIZE * k < PDSIZE * i + PDSIZE ∧ PTSIZE * k < stop ↔ k < n)) :
    Ends E (exitPd0 pd0 (PDSIZE * i) (PTSIZE * lo) stop) t fun b u =>
      Torn pgdir s u (fun m => gone m ∨ ∃ j : Fin 512, m = .tab i j ∧ m.Present s.mem pgdir ∧
        lo ≤ blockOf i j ∧ blockOf i j < n) ∧
      (b = true ↔ ∀ j : Fin 512, lo ≤ blockOf i j → blockOf i j < n →
        (Node.tab i j).Present s.mem pgdir ∧ ¬ gone (.tab i j)) := by
  unfold exitPd0
  have hmore : ∀ k, lo < k → (decide (PTSIZE * k ≠ 0 ∧ PTSIZE * k < PDSIZE * i + PDSIZE ∧
      PTSIZE * k < stop) = true ↔ k < n) := by
    intro k hk
    rw [decide_eq_true_eq, ← hagain k hk]
    have hpos : PTSIZE * k ≠ 0 := by
      unfold PTSIZE PGSIZE
      omega
    simp [hpos]
  have hloop := @rangeLoop_spec E Bool PTSIZE n
    (fun d0start => d0start ≠ 0 ∧ d0start < PDSIZE * i + PDSIZE ∧ d0start < stop)
    (fun d0start freePd0 => (freePd0 && ·) <$> exitPt pd0 d0start)
    (fun k acc u => lo ≤ k ∧
      Torn pgdir s u (fun m => gone m ∨ ∃ j : Fin 512, m = .tab i j ∧ m.Present s.mem pgdir ∧
        lo ≤ blockOf i j ∧ blockOf i j < k) ∧
      (acc = true ↔ ∀ j : Fin 512, lo ≤ blockOf i j → blockOf i j < k →
        (Node.tab i j).Present s.mem pgdir ∧
          ¬ gone (.tab i j))) ?_ ?_ 512 lo true t hlt (by omega) ?_
  · apply hloop.imp
    rintro acc u ⟨k, hlo, hk, hend, _, htorn', hacc⟩
    have hkn : ¬ k < n := by
      rw [← hmore k hlo]
      simpa using hend
    obtain rfl : k = n := by omega
    exact ⟨htorn', hacc⟩
  · intro k hk
    by_cases hbehind : lo < k + 1
    · exact (hmore (k + 1) hbehind).mp hk
    · omega
  · rintro k acc u hk ⟨hlo, htorn', hacc⟩
    have hblock : k - 512 * i < 512 := by omega
    obtain ⟨j, hj⟩ : ∃ j : Fin 512, blockOf i j = k :=
      ⟨⟨k - 512 * i, hblock⟩, by unfold blockOf; simp only; omega⟩
    have hother : ∀ j' : Fin 512, blockOf i j' < k + 1 → j' = j ∨ blockOf i j' < k := by
      intro j' hj'
      by_cases heq : j' = j
      · exact Or.inl heq
      · refine Or.inr (Nat.lt_of_le_of_ne (Nat.le_of_lt_succ hj') fun hk' => heq (Fin.ext ?_))
        unfold blockOf at hj hk'
        omega
    rw [ends_map, ← hj]
    -- one entry of the lower directory: its table is freed if there is one left
    apply (exitPt_torn hbare htorn' hmid).imp
    rintro b w ⟨htorn'', hb⟩
    refine ⟨by omega, htorn''.congr fun m => ?_, ?_⟩
    · constructor
      · rintro ((hm | ⟨j', rfl, hpresent, hlo', hlt'⟩) | ⟨rfl, hpresent⟩)
        · exact Or.inl hm
        · exact Or.inr ⟨j', rfl, hpresent, hlo', Nat.lt_succ_of_lt (hj ▸ hlt')⟩
        · exact Or.inr ⟨j, rfl, hpresent, hj ▸ hlo, Nat.lt_succ_self _⟩
      · rintro (hm | ⟨j', rfl, hpresent, hlo', hlt'⟩)
        · exact Or.inl (Or.inl hm)
        · rcases hother j' (hj ▸ hlt') with rfl | hlt''
          · exact Or.inr ⟨rfl, hpresent⟩
          · exact Or.inl (Or.inr ⟨j', rfl, hpresent, hlo', hj ▸ hlt''⟩)
    · have hnew : ¬ ∃ j' : Fin 512, Node.tab i j = .tab i j' ∧
          (Node.tab i j).Present s.mem pgdir ∧ lo ≤ blockOf i j' ∧ blockOf i j' < k := by
        rintro ⟨j', heq, _, _, hlt'⟩
        obtain ⟨_, rfl⟩ := Node.tab.inj heq
        exact absurd hj (Nat.ne_of_lt hlt')
      rw [Bool.and_eq_true, hacc, hb, or_iff_left hnew, hj]
      constructor
      · rintro ⟨hall, hlast⟩ j' hlo' hlt'
        rcases hother j' hlt' with rfl | hlt''
        · exact hlast
        · exact hall j' hlo' hlt''
      · intro hall
        exact ⟨fun j' hlo' hlt' => hall j' hlo' (Nat.lt_succ_of_lt hlt'),
          hall j (hj ▸ hlo) (hj ▸ Nat.lt_succ_self _)⟩
  · refine ⟨Nat.le_refl lo, htorn.congr fun m => ⟨Or.inl, ?_⟩, ?_⟩
    · rintro (hm | ⟨j, _, _, hlo, hlt⟩)
      · exact hm
      · omega
    · exact iff_of_true rfl fun j hlo hlt => by omega

/-- The part of the directory that a table belongs to. -/
def Node.region : Node → Nat
  | .root => 0
  | .mid i => i
  | .tab i _ => i

/-- The tables that are gone after `exit_range` for an area: a page table of the
area that can be reached, and a lower directory in which every block of the area
has a page table that is still there. -/
def tornBy (present : Node → Prop) (vma : VmaStruct) (gone : Node → Prop) : Node → Prop
  | .root => gone .root
  | .mid i => gone (.mid i) ∨ present (.mid i) ∧ vma.inRegion i ∧
      ∀ j, vma.inBlock (blockOf i j) → present (.tab i j) ∧ ¬ gone (.tab i j)
  | .tab i j => gone (.tab i j) ∨
      present (.tab i j) ∧ ¬ gone (.mid i) ∧ vma.inBlock (blockOf i j)

theorem tornBy_mid {present : Node → Prop} {vma : VmaStruct} :
    tornBy present vma gone (.mid i) ↔ gone (.mid i) ∨ present (.mid i) ∧ vma.inRegion i ∧
      ∀ j, vma.inBlock (blockOf i j) → present (.tab i j) ∧ ¬ gone (.tab i j) := Iff.rfl

theorem tornBy_tab {present : Node → Prop} {vma : VmaStruct} :
    tornBy present vma gone (.tab i j) ↔ gone (.tab i j) ∨
      present (.tab i j) ∧ ¬ gone (.mid i) ∧ vma.inBlock (blockOf i j) := Iff.rfl

/-- A block of the area is in a region of the area. -/
theorem VmaStruct.inBlock.region {vma : VmaStruct} (h : vma.inBlock (blockOf i j)) :
    vma.inRegion i := by
  obtain ⟨hstart, hstop⟩ := h
  have hj := j.isLt
  constructor
  · unfold PDSIZE
    unfold blockOf PTSIZE PGSIZE at *
    omega
  · unfold PDSIZE
    unfold blockOf PTSIZE PGSIZE at *
    omega

variable {gone' present : Node → Prop} {m : Node} {vma : VmaStruct}

/-- Other parts of the directory stay. -/
theorem tornBy_off (hregion : ¬ vma.inRegion m.region) : tornBy present vma gone m ↔ gone m := by
  cases m with
  | root => exact Iff.rfl
  | mid i => exact or_iff_left fun h => hregion h.2.1
  | tab i j => exact or_iff_left fun h => hregion h.2.2.region

theorem tornBy_congr (h : ∀ m', m'.region = m.region → (gone m' ↔ gone' m')) :
    tornBy present vma gone m ↔ tornBy present vma gone' m := by
  cases m with
  | root => exact h _ rfl
  | mid i =>
      have htab : ∀ j, gone (.tab i j) ↔ gone' (.tab i j) := fun j => h (.tab i j) rfl
      simp only [tornBy, h (.mid i) rfl, htab]
  | tab i j =>
      simp only [tornBy, h (.tab i j) rfl, h (.mid i) rfl]

/-- One entry of the page directory. -/
theorem exitPd1_torn (hbare : Bare pgdir s) (htorn : Torn pgdir s t gone) {vma : VmaStruct}
    (hregion : vma.inRegion i) {lo n : Nat} (hle : 512 * i ≤ lo) (hlt : lo < n)
    (hn : n ≤ 512 * (i + 1))
    (hagain : ∀ k, lo < k → (PTSIZE * k < PDSIZE * i + PDSIZE ∧ PTSIZE * k < vma.vmEnd ↔ k < n))
    (hblocks : ∀ j, vma.inBlock (blockOf i j) ↔ lo ≤ blockOf i j ∧ blockOf i j < n) :
    Ends E (exitPd1 pgdir vma.vmEnd (PDSIZE * i) (PTSIZE * lo)) t fun next u =>
      next = PTSIZE * (512 * (i + 1)) ∧ Torn pgdir s u fun m =>
        if m.region = i then tornBy (fun n => n.Present s.mem pgdir) vma gone m else gone m := by
  have hindex : pdx1 (PDSIZE * i) = i := by
    have hi := i.isLt
    rw [pdx1_eq, ppn_eq]
    unfold PDSIZE PTSIZE PGSIZE
    omega
  have hnext : PDSIZE * i + PDSIZE = PTSIZE * (512 * (i + 1)) := by
    rw [← Nat.mul_succ, mul_PDSIZE]
  have hroot : ¬ gone .root := fun hgone => (htorn.placed _ hgone).1 rfl
  obtain ⟨hgone, hkept⟩ := htorn.mid i
  unfold exitPd1
  rw [hindex, hnext]
  simp only [ends_bind, ends_load]
  -- without a lower directory there is nothing to do
  have hnone : (gone (.mid i) ∨ ¬ (Node.mid i).Present s.mem pgdir) → ∀ m, gone m ↔
      if m.region = i then tornBy (fun n => n.Present s.mem pgdir) vma gone m else gone m := by
    intro habsent m
    split
    next hm =>
      cases m with
      | root => exact Iff.rfl
      | mid i' =>
          obtain rfl := Fin.ext hm
          refine ⟨Or.inl, fun h => ?_⟩
          rcases habsent with hmid | hno
          · exact hmid
          · exact h.resolve_right fun h => hno h.1
      | tab i' j =>
          obtain rfl := Fin.ext hm
          refine ⟨Or.inl, fun h => h.resolve_right ?_⟩
          rintro ⟨⟨f, hf⟩, hmid, _⟩
          obtain ⟨pd0, hpd0, _⟩ := Node.page_tab.mp hf
          exact habsent.elim hmid fun hno => hno ⟨pd0, hpd0⟩
    next => exact Iff.rfl
  -- the lower directory was freed before, was never there, or is gone through now
  by_cases hmid : gone (.mid i)
  · rw [hgone hmid, if_neg (by simp), ends_pure]
    exact ⟨rfl, htorn.congr (hnone (Or.inl hmid))⟩
  · rw [hkept hmid]
    cases hvalid : valid (s.mem pgdir i) with
    | false =>
        rw [if_neg (by simp), ends_pure]
        refine ⟨rfl, htorn.congr (hnone (Or.inr ?_))⟩
        rintro ⟨f, hf⟩
        rw [(Node.page_mid.mp hf).1] at hvalid
        cases hvalid
    | true =>
        have hpage : (Node.mid i).page s.mem pgdir = some (frame (s.mem pgdir i)) :=
          Node.page_mid.mpr ⟨hvalid, rfl⟩
        have hbound := hbare.bound _ _ hpage
        rw [if_pos rfl]
        simp only [ends_bind]
        apply ends_pa2page hbound
        apply ends_kaddr hbound
        rw [← hnext]
        apply (exitPd0_torn hbare htorn hpage hle hlt hn hagain).imp
        rintro b u ⟨htorn', hb⟩
        have hall : ∀ m, ((gone m ∨ ∃ j : Fin 512, m = .tab i j ∧ m.Present s.mem pgdir ∧
            lo ≤ blockOf i j ∧ blockOf i j < n) ∨ m = .mid i ∧ b = true) ↔
            if m.region = i then tornBy (fun n => n.Present s.mem pgdir) vma gone m
            else gone m := by
          intro m
          split
          next hm =>
            cases m with
            | root => simp [tornBy]
            | mid i' =>
                obtain rfl := Fin.ext hm
                have hpresent : (Node.mid i').Present s.mem pgdir := ⟨_, hpage⟩
                simp [tornBy, hmid, hb, hblocks, hpresent, hregion]
            | tab i' j =>
                obtain rfl := Fin.ext hm
                simp [tornBy, hmid, hblocks]
          next hm =>
            refine ⟨?_, fun h => Or.inl (Or.inl h)⟩
            rintro ((h | ⟨j, rfl, _⟩) | ⟨rfl, _⟩)
            · exact h
            · exact absurd rfl hm
            · exact absurd rfl hm
        cases b with
        | false =>
            refine ⟨rfl, htorn'.congr fun m => ?_⟩
            rw [← hall m]
            simp
        | true =>
            have hnotfree : frame (s.mem pgdir i) ∉ u.free := by
              rw [htorn'.free]
              rintro (hfree | ⟨m, hm, hf⟩)
              · exact hbare.used _ _ hpage hfree
              · obtain rfl := hbare.inj _ _ _ hf hpage
                simp [hmid] at hm
            rw [if_pos rfl, ends_bind]
            apply ends_pa2page hbound
            rw [ends_bind]
            apply ends_freePage hnotfree
            refine ⟨rfl, (htorn'.clearMid hbare hpage).congr fun m => ?_⟩
            rw [← hall m]
            simp

/-- `exit_range` for an area. -/
theorem exitRange_torn (hbare : Bare pgdir s) (htorn : Torn pgdir s t gone) {vma : VmaStruct}
    (hvma : vma.Ok) :
    Ends E (exitRange pgdir vma.vmStart vma.vmEnd) t fun _ u =>
      Torn pgdir s u (tornBy (fun n => n.Present s.mem pgdir) vma gone) := by
  have hroot : ¬ gone .root := fun hgone => (htorn.placed _ hgone).1 rfl
  obtain ⟨_, hlt, htop⟩ := hvma.user
  unfold exitRange checkRange
  rw [if_neg (not_not.mpr hvma.aligned), if_neg (not_not.mpr hvma.user), ends_bind, ends_pure,
    ends_bind]
  have hd1 : rounddown vma.vmStart PDSIZE = PDSIZE * (vma.vmStart / PDSIZE) := by
    unfold rounddown
    have := Nat.div_add_mod vma.vmStart PDSIZE
    omega
  have hd0 : rounddown vma.vmStart PTSIZE = PTSIZE * (vma.vmStart / PTSIZE) := by
    unfold rounddown
    have := Nat.div_add_mod vma.vmStart PTSIZE
    omega
  have hbefore : ∀ i, i < vma.vmStart / PDSIZE → ¬ vma.inRegion i := by
    rintro i hi ⟨hstart, _⟩
    unfold PDSIZE PTSIZE PGSIZE at *
    omega
  have hafter : ∀ i k, vma.vmEnd ≤ PDSIZE * i → i ≤ k → ¬ vma.inRegion k := by
    rintro i k hi hk ⟨_, hstop⟩
    unfold PDSIZE PTSIZE PGSIZE at *
    omega
  rw [hd1, hd0]
  -- the invariant: the regions below the `i`-th are torn down, the others as they were
  have hloop := @rangeLoop_spec E Nat PDSIZE ((vma.vmEnd - 1) / PDSIZE + 1)
    (fun d1start => d1start ≠ 0 ∧ d1start < vma.vmEnd) (exitPd1 pgdir vma.vmEnd)
    (fun i d0start u => vma.vmStart / PDSIZE ≤ i ∧
      d0start = PTSIZE * max (512 * i) (vma.vmStart / PTSIZE) ∧ Torn pgdir s u fun m =>
        if m.region < i then tornBy (fun n => n.Present s.mem pgdir) vma gone m else gone m) ?_ ?_
    (vma.vmEnd / PDSIZE + 1) (vma.vmStart / PDSIZE) (PTSIZE * (vma.vmStart / PTSIZE)) t ?_ ?_ ?_
  · apply hloop.imp
    rintro _ u ⟨i, hlast, _, hend, _, _, htorn'⟩
    have hstop : vma.vmEnd ≤ PDSIZE * i := by
      have hpos : PDSIZE * i ≠ 0 :=
        Nat.mul_ne_zero (by decide) (Nat.ne_of_gt (Nat.zero_lt_of_lt hlast))
      simpa [hpos] using hend
    refine htorn'.congr fun m => ?_
    split
    next => exact Iff.rfl
    next hm => exact (tornBy_off (hafter i m.region hstop (Nat.le_of_not_lt hm))).symm
  · intro i hmore
    rw [decide_eq_true_eq] at hmore
    have hstop := hmore.2
    unfold PDSIZE PTSIZE PGSIZE at *
    omega
  · rintro i _ u hi ⟨hfirst, rfl, htorn'⟩
    have hregion : vma.inRegion i := by
      constructor
      · unfold PDSIZE PTSIZE PGSIZE at *
        omega
      · unfold PDSIZE PTSIZE PGSIZE at *
        omega
    have hsmall : i < 511 := by
      unfold USERTOP at htop
      unfold PDSIZE PTSIZE PGSIZE at *
      omega
    have hpd1 := @exitPd1_torn E s u pgdir _ ⟨i, hsmall⟩ hbare htorn' vma hregion
      (max (512 * i) (vma.vmStart / PTSIZE)) (min (512 * (i + 1)) ((vma.vmEnd - 1) / PTSIZE + 1))
      (Nat.le_max_left _ _) ?_ (Nat.min_le_left _ _) ?_ ?_
    · apply hpd1.imp
      rintro _ w ⟨rfl, htorn''⟩
      refine ⟨Nat.le_succ_of_le hfirst, ?_, htorn''.congr fun m => ?_⟩
      · rw [Nat.max_eq_left]
        unfold PDSIZE PTSIZE PGSIZE at *
        omega
      · rcases Nat.lt_trichotomy m.region i with hlt | heq | hgt
        · rw [if_neg (Nat.ne_of_lt hlt), if_pos hlt, if_pos (Nat.lt_succ_of_lt hlt)]
        · rw [if_pos heq, if_pos (heq ▸ Nat.lt_succ_self _)]
          apply tornBy_congr
          intro m' hm'
          rw [if_neg (by omega)]
        · rw [if_neg (Nat.ne_of_gt hgt), if_neg (by omega), if_neg (by omega)]
    · unfold PDSIZE PTSIZE PGSIZE at *
      omega
    · intro k hk
      dsimp only at hk ⊢
      unfold PDSIZE PTSIZE PGSIZE at *
      omega
    · intro j
      have hj := j.isLt
      unfold VmaStruct.inBlock blockOf
      dsimp only
      unfold PDSIZE PTSIZE PGSIZE at *
      omega
  · unfold PDSIZE PTSIZE PGSIZE at *
    omega
  · unfold PDSIZE PTSIZE PGSIZE at *
    omega
  · refine ⟨Nat.le_refl _, ?_, htorn.congr fun m => ?_⟩
    · rw [Nat.max_eq_right]
      unfold PDSIZE PTSIZE PGSIZE at *
      omega
    · split
      next hm => exact (tornBy_off (hbefore _ hm)).symm
      next => exact Iff.rfl

end

/-! ## All areas -/

section

variable {present gone : Node → Prop} {vma : VmaStruct} {before after areas : List VmaStruct}
  {i : Fin 511} {j : Fin 512}

/-- The tables that are gone after `exit_range` for each of the areas. -/
def goneAfter (present : Node → Prop) (areas : List VmaStruct) : Node → Prop :=
  areas.foldl (fun gone vma => tornBy present vma gone) fun _ => False

theorem goneAfter_concat : goneAfter present (areas ++ [vma]) =
    tornBy present vma (goneAfter present areas) := by
  rw [goneAfter, List.foldl_append]
  rfl

/-- In this region each block of the area has a page table, and is a block of no
area before it. -/
def Closes (present : Node → Prop) (before : List VmaStruct) (vma : VmaStruct) (i : Fin 511) :
    Prop :=
  vma.inRegion i ∧ ∀ j, vma.inBlock (blockOf i j) →
    present (.tab i j) ∧ ∀ a ∈ before, ¬ a.inBlock (blockOf i j)

/-- Some area closes the region. -/
def Closed (present : Node → Prop) (areas : List VmaStruct) (i : Fin 511) : Prop :=
  ∃ before vma after, areas = before ++ vma :: after ∧ Closes present before vma i

/-- The first area that closes the region is the last one with page tables of its own: when
`exit_range` frees the directory, every table below it has been freed. -/
def ClosedInTime (present : Node → Prop) (areas : List VmaStruct) (i : Fin 511) : Prop :=
  ∃ before vma after, areas = before ++ vma :: after ∧ ¬ Closed present before i ∧
    Closes present before vma i ∧
    ∀ j, present (.tab i j) → ∃ a ∈ before ++ [vma], a.inBlock (blockOf i j)

/-- Splitting a list at its last element or before. -/
theorem split_concat {α : Type} {xs before after : List α} {x y : α}
    (h : xs ++ [y] = before ++ x :: after) :
    (before = xs ∧ x = y ∧ after = []) ∨ ∃ rest, after = rest ++ [y] ∧
      xs = before ++ x :: rest := by
  rcases List.eq_nil_or_concat after with rfl | ⟨rest, z, rfl⟩
  · obtain ⟨rfl, hxy⟩ := List.append_inj' h rfl
    exact Or.inl ⟨rfl, (List.singleton_inj.mp hxy).symm, rfl⟩
  · right
    rw [List.concat_eq_append, ← List.cons_append, ← List.append_assoc] at h
    obtain ⟨rfl, hyz⟩ := List.append_inj' h rfl
    refine ⟨rest, ?_, rfl⟩
    rw [List.concat_eq_append, List.singleton_inj.mp hyz]

theorem closed_concat : Closed present (areas ++ [vma]) i ↔
    Closed present areas i ∨ Closes present areas vma i := by
  constructor
  · rintro ⟨before, a, after, h, hcloses⟩
    rcases split_concat h with ⟨rfl, rfl, _⟩ | ⟨rest, _, rfl⟩
    · exact Or.inr hcloses
    · exact Or.inl ⟨before, a, rest, rfl, hcloses⟩
  · rintro (⟨before, a, after, rfl, hcloses⟩ | hcloses)
    · exact ⟨before, a, after ++ [vma], by simp, hcloses⟩
    · exact ⟨areas, vma, [], rfl, hcloses⟩

/-- The first area that closes a region. -/
theorem Closed.first (h : Closed present areas i) : ∃ before vma after,
    areas = before ++ vma :: after ∧ ¬ Closed present before i ∧ Closes present before vma i := by
  induction areas using List.reverseRecOn with
  | nil =>
      obtain ⟨before, a, after, h, _⟩ := h
      simp at h
  | append_singleton areas vma ih =>
      by_cases hclosed : Closed present areas i
      · obtain ⟨before, a, after, rfl, hfirst⟩ := ih hclosed
        exact ⟨before, a, after ++ [vma], by simp, hfirst⟩
      · exact ⟨areas, vma, [], rfl, hclosed, (closed_concat.mp h).resolve_left hclosed⟩

theorem VmaStruct.inRegion.block (h : vma.inRegion i) (hlt : vma.vmStart < vma.vmEnd) :
    ∃ j, vma.inBlock (blockOf i j) := by
  obtain ⟨hstart, hstop⟩ := h
  refine ⟨⟨max (512 * i.val) (vma.vmStart / PTSIZE) - 512 * i.val, ?_⟩, ?_⟩
  · unfold PDSIZE PTSIZE PGSIZE at *
    omega
  · unfold VmaStruct.inBlock blockOf
    dsimp only
    unfold PDSIZE PTSIZE PGSIZE at *
    omega

/-- A lower directory goes with the first area that closes its region; until then
the page tables of all areas go. -/
theorem goneAfter_iff (hmid : ∀ i j, present (.tab i j) → present (.mid i))
    (hareas : ∀ a ∈ areas, a.vmStart < a.vmEnd) :
    (goneAfter present areas (.mid i) ↔ Closed present areas i) ∧
      (¬ Closed present areas i → ∀ j, goneAfter present areas (.tab i j) ↔
        present (.tab i j) ∧ ∃ a ∈ areas, a.inBlock (blockOf i j)) := by
  induction areas using List.reverseRecOn with
  | nil =>
      refine ⟨iff_of_false (fun h => h) ?_, fun _ j => iff_of_false (fun h => h) ?_⟩
      · rintro ⟨before, a, after, h, _⟩
        simp at h
      · rintro ⟨_, a, ha, _⟩
        cases ha
  | append_singleton areas vma ih =>
      obtain ⟨ihmid, ihtab⟩ := ih fun a ha => hareas a (List.mem_append_left _ ha)
      rw [goneAfter_concat, closed_concat]
      constructor
      · rw [tornBy_mid, ihmid]
        by_cases hclosed : Closed present areas i
        · exact iff_of_true (Or.inl hclosed) (Or.inl hclosed)
        · simp only [hclosed, false_or, Closes, ihtab hclosed]
          constructor
          · rintro ⟨_, hregion, hall⟩
            refine ⟨hregion, fun j hj => ⟨(hall j hj).1, fun a ha haj => ?_⟩⟩
            exact (hall j hj).2 ⟨(hall j hj).1, a, ha, haj⟩
          · rintro ⟨hregion, hall⟩
            obtain ⟨j, hj⟩ := hregion.block (hareas vma (by simp))
            refine ⟨hmid i j (hall j hj).1, hregion, fun j hj => ⟨(hall j hj).1, ?_⟩⟩
            rintro ⟨_, a, ha, haj⟩
            exact (hall j hj).2 a ha haj
      · intro hopen j
        rw [not_or] at hopen
        rw [tornBy_tab, ihtab hopen.1, ihmid]
        simp only [hopen.1, not_false_eq_true, true_and, List.mem_append, List.mem_singleton]
        constructor
        · rintro (⟨hpresent, a, ha, haj⟩ | ⟨hpresent, hj⟩)
          · exact ⟨hpresent, a, Or.inl ha, haj⟩
          · exact ⟨hpresent, vma, Or.inr rfl, hj⟩
        · rintro ⟨hpresent, a, ha | rfl, haj⟩
          · exact Or.inl ⟨hpresent, a, ha, haj⟩
          · exact Or.inr ⟨hpresent, haj⟩

/-- Tables that are gone stay so. -/
theorem goneAfter_mono {n : Node} (h : goneAfter present before n) (after : List VmaStruct) :
    goneAfter present (before ++ after) n := by
  induction after using List.reverseRecOn with
  | nil => rwa [List.append_nil]
  | append_singleton after vma ih =>
      rw [← List.append_assoc, goneAfter_concat]
      cases n with
      | root => exact ih
      | mid | tab => exact Or.inl ih

/-- Below a lower directory that is gone no page table goes. -/
theorem goneAfter_sealed (h : goneAfter present before (.mid i)) (after : List VmaStruct) :
    goneAfter present (before ++ after) (.tab i j) ↔ goneAfter present before (.tab i j) := by
  induction after using List.reverseRecOn with
  | nil => rw [List.append_nil]
  | append_singleton after vma ih =>
      rw [← List.append_assoc, goneAfter_concat, tornBy_tab, ih]
      exact or_iff_left fun hnew => hnew.2.1 (goneAfter_mono h after)

/-- All page tables of a region go, and the lower directory, exactly if the first
area that closes it is the last one with page tables of its own. -/
theorem closedInTime_iff (hmid : ∀ i j, present (.tab i j) → present (.mid i))
    (hareas : ∀ a ∈ areas, a.vmStart < a.vmEnd) :
    ClosedInTime present areas i ↔ goneAfter present areas (.mid i) ∧
      ∀ j, present (.tab i j) → goneAfter present areas (.tab i j) := by
  constructor
  · rintro ⟨before, vma, after, rfl, hopen, hcloses, hlast⟩
    have hbefore : ∀ a ∈ before, a.vmStart < a.vmEnd :=
      fun a ha => hareas a (List.mem_append_left _ ha)
    refine ⟨(goneAfter_iff hmid hareas).1.mpr ⟨before, vma, after, rfl, hcloses⟩, fun j hj => ?_⟩
    rw [List.append_cons]
    apply goneAfter_mono
    obtain ⟨hmidGone, htabGone⟩ := goneAfter_iff (i := i) hmid hbefore
    rw [goneAfter_concat, tornBy_tab, htabGone hopen, hmidGone]
    obtain ⟨a, ha, haj⟩ := hlast j hj
    rcases List.mem_append.mp ha with ha | ha
    · exact Or.inl ⟨hj, a, ha, haj⟩
    · obtain rfl := List.mem_singleton.mp ha
      exact Or.inr ⟨hj, hopen, haj⟩
  · rintro ⟨hgone, hall⟩
    obtain ⟨before, vma, after, rfl, hopen, hcloses⟩ :=
      ((goneAfter_iff hmid hareas).1.mp hgone).first
    refine ⟨before, vma, after, rfl, hopen, hcloses, fun j hj => ?_⟩
    have hupto : ∀ a ∈ before ++ [vma], a.vmStart < a.vmEnd := by
      intro a ha
      apply hareas
      rw [List.append_cons]
      exact List.mem_append_left _ ha
    have hsealed : goneAfter present (before ++ [vma]) (.mid i) :=
      (goneAfter_iff hmid hupto).1.mpr ⟨before, vma, [], rfl, hcloses⟩
    have hj' := hall j hj
    rw [List.append_cons, goneAfter_sealed hsealed, goneAfter_concat, tornBy_tab,
      (goneAfter_iff hmid fun a ha => hupto a (List.mem_append_left _ ha)).2 hopen] at hj'
    rcases hj' with ⟨_, a, ha, haj⟩ | ⟨_, _, haj⟩
    · exact ⟨a, List.mem_append_left _ ha, haj⟩
    · exact ⟨vma, by simp, haj⟩

end

/-! ## `exit_mmap` -/

/-- An address space that nobody uses any more, in a memory whose page tables are
trees: its page directory maps pages of its areas only. -/
structure MmStruct.Unused (mm : MmStruct) (s : Kern) : Prop where
  ok : mm.Ok
  count : mm.mmCount = 0
  tables : ∃ role, Paged role s ∧ Counted role s ∧ role mm.pgdir = .dir
  inside : ∀ v, v < userPages → valid (leaf s.mem mm.pgdir v) = true →
    ∃ vma ∈ mm.mmapList, vma.covers v

/-- Every table for addresses of the areas has been given back, no table with a
valid entry has, and the page directory leads to no table that has been. A second
`free_page` of the same frame would have been a panic. -/
structure TornDown (mm : MmStruct) (s t : Kern) : Prop where
  freed : ∀ (n : Node) f vma, vma ∈ mm.mmapList → vma.needs n →
    n.page s.mem mm.pgdir = some f → f ∉ s.free ∧ f ∈ t.free
  empty : ∀ (n : Node) f, n ≠ .root → n.page s.mem mm.pgdir = some f → f ∈ t.free →
    ∀ k < 512, valid (t.mem f k) = false
  top : ∀ i < 511, valid (t.mem mm.pgdir i) = true → frame (t.mem mm.pgdir i) ∉ t.free

/-- What `exit_mmap` gives back, on a bare directory. -/
theorem exitAreas_torn {mm : MmStruct} (hmm : mm.Ok) (hbare : Bare mm.pgdir s) :
    Ends E (mm.mmapList.forM fun vma => exitRange mm.pgdir vma.vmStart vma.vmEnd) s fun _ t =>
      Torn mm.pgdir s t (goneAfter (fun n => n.Present s.mem mm.pgdir) mm.mmapList) := by
  have hloop := @ends_forM _ _ _ E (fun vma => exitRange mm.pgdir vma.vmStart vma.vmEnd)
    (fun rest t => ∃ done, done ++ rest = mm.mmapList ∧
      Torn mm.pgdir s t (goneAfter (fun n => n.Present s.mem mm.pgdir) done)) ?_ mm.mmapList s
    ⟨[], rfl, Torn.refl mm.pgdir s⟩
  · apply hloop.imp
    rintro _ t ⟨done, hdone, htorn⟩
    rw [List.append_nil] at hdone
    exact hdone ▸ htorn
  · rintro vma rest t ⟨done, hdone, htorn⟩
    apply (exitRange_torn hbare htorn (hmm.areas vma (by simp [← hdone]))).imp
    intro _ u htorn'
    refine ⟨done ++ [vma], by simp [hdone], ?_⟩
    rw [goneAfter_concat]
    exact htorn'

/-- Each region of the page directory is taken down as it should be, or not,
by itself. -/
theorem Torn.tornDown_iff {mm : MmStruct} (hmm : mm.Ok) (hbare : Bare mm.pgdir s)
    (htorn : Torn mm.pgdir s t (goneAfter (fun n => n.Present s.mem mm.pgdir) mm.mmapList))
    (hpage : ∀ n : Node, n.page u.mem mm.pgdir = n.page s.mem mm.pgdir)
    (hused : ∀ (n : Node) f, n.page u.mem mm.pgdir = some f → f ∉ u.free) :
    TornDown mm u t ↔ ∀ i : Fin 511, (∃ vma ∈ mm.mmapList, vma.inRegion i) →
      (Node.mid i).Present u.mem mm.pgdir →
      ClosedInTime (fun n => n.Present u.mem mm.pgdir) mm.mmapList i := by
  have hpresent : (fun n : Node => n.Present u.mem mm.pgdir) = fun n =>
      n.Present s.mem mm.pgdir := by
    funext n
    rw [Node.Present, Node.Present, hpage]
  have hmid : ∀ i j, (Node.tab i j).Present s.mem mm.pgdir →
      (Node.mid i).Present s.mem mm.pgdir := by
    rintro i j ⟨f, hf⟩
    obtain ⟨pd0, hpd0, _⟩ := Node.page_tab.mp hf
    exact ⟨pd0, hpd0⟩
  have hareas : ∀ a ∈ mm.mmapList, a.vmStart < a.vmEnd := fun a ha => (hmm.areas a ha).user.2.1
  have hfree : ∀ {n : Node} {f}, n.page s.mem mm.pgdir = some f →
      (f ∈ t.free ↔ goneAfter (fun n => n.Present s.mem mm.pgdir) mm.mmapList n) := by
    intro n f hf
    rw [htorn.free]
    constructor
    · rintro (hin | ⟨m, hm, hmf⟩)
      · exact absurd hin (hbare.used n f hf)
      · exact hbare.inj m n f hmf hf ▸ hm
    · exact fun hn => Or.inr ⟨n, hn, hf⟩
  rw [hpresent]
  constructor
  · -- all is freed: then the lower directory of the region was, and none of its tables later
    rintro ⟨hfreed, hempty, _⟩ i ⟨vma, hvma, hregion⟩ ⟨pd0, hpd0⟩
    rw [closedInTime_iff hmid hareas]
    have hgone := (hfreed (.mid i) pd0 vma hvma hregion hpd0).2
    refine ⟨(hfree ((hpage _).symm.trans hpd0)).mp hgone, fun j hj => ?_⟩
    -- otherwise the directory still leads to the page table
    by_contra hleft
    rw [hpage] at hpd0
    obtain ⟨f, hf⟩ := hj
    obtain ⟨pd0', hpd0', hvalid, _⟩ := Node.page_tab.mp hf
    obtain rfl := Option.some.inj (hpd0.symm.trans hpd0')
    have hno := hempty (.mid i) pd0 Node.noConfusion ((hpage _).trans hpd0) hgone j j.isLt
    rw [(htorn.tab i pd0 hpd0 j).2 hleft, hvalid] at hno
    cases hno
  · -- all regions are closed in time: each page is gone, and each entry cleared or with its page
    intro hall
    have hclosed : ∀ {i : Fin 511} {vma}, vma ∈ mm.mmapList → vma.inRegion i →
        (Node.mid i).Present s.mem mm.pgdir →
        goneAfter (fun n => n.Present s.mem mm.pgdir) mm.mmapList (.mid i) ∧
          ∀ j, (Node.tab i j).Present s.mem mm.pgdir →
            goneAfter (fun n => n.Present s.mem mm.pgdir) mm.mmapList (.tab i j) := by
      intro i vma hvma hregion hi
      rw [← closedInTime_iff hmid hareas]
      rw [← congrFun hpresent (.mid i)] at hi
      exact hall i ⟨vma, hvma, hregion⟩ hi
    refine ⟨fun n f vma hvma hneeds hf => ⟨hused n f hf, ?_⟩, fun n f hn hf hgone k hk => ?_, ?_⟩
    · rw [hpage] at hf
      rw [hfree hf]
      cases n with
      | root => exact hneeds.elim
      | mid i => exact (hclosed hvma hneeds ⟨f, hf⟩).1
      | tab i j => exact (hclosed hvma hneeds.region (hmid i j ⟨f, hf⟩)).2 j ⟨f, hf⟩
    · rw [hpage] at hf
      rw [hfree hf] at hgone
      cases n with
      | root => exact absurd rfl hn
      | tab i j =>
          rw [htorn.blank i j f hf]
          exact hbare.blank i j f hf k hk
      | mid i =>
          obtain ⟨before, vma, after, hlist, hregion, _⟩ := (goneAfter_iff hmid hareas).1.mp hgone
          have hvma : vma ∈ mm.mmapList := by
            rw [hlist]
            simp
          have htabs := (hclosed hvma hregion ⟨f, hf⟩).2
          obtain ⟨hcleared, hkept⟩ := htorn.tab i f hf ⟨k, hk⟩
          by_cases hk' : goneAfter (fun n => n.Present s.mem mm.pgdir) mm.mmapList (.tab i ⟨k, hk⟩)
          · rw [hcleared hk', valid_zero]
          · rw [hkept hk', Bool.eq_false_iff]
            intro hvalid
            exact hk' (htabs ⟨k, hk⟩ ⟨_, Node.page_tab.mpr ⟨f, hf, hvalid, rfl⟩⟩)
    · intro i hi hvalid
      obtain ⟨hcleared, hkept⟩ := htorn.mid ⟨i, hi⟩
      by_cases hgone : goneAfter (fun n => n.Present s.mem mm.pgdir) mm.mmapList (.mid ⟨i, hi⟩)
      · rw [hcleared hgone] at hvalid
        cases hvalid
      · rw [hkept hgone] at hvalid ⊢
        rwa [hfree (Node.page_mid.mpr ⟨hvalid, rfl⟩)]

/-- `exit_mmap` returns; and the tables of the areas are given back, once and
empty, exactly if in each region with a lower directory the first area all of
whose blocks there have page tables that no earlier area has given back exists, and
is the last one with page tables of its own. -/
theorem exitMmap_tornDown_iff (al : Allocator) {mm : MmStruct} {s : Kern} (hmm : mm.Unused s) :
    ∃ t, exec (exitMmap al mm) s = some t ∧
      (TornDown mm s t ↔ ∀ i : Fin 511, (∃ vma ∈ mm.mmapList, vma.inRegion i) →
        (Node.mid i).Present s.mem mm.pgdir →
        ClosedInTime (fun n => n.Present s.mem mm.pgdir) mm.mmapList i) := by
  obtain ⟨role, hpaged, hcounted, hdir⟩ := hmm.tables
  have hends : Ends never (exitMmap al mm) s fun _ t =>
      (TornDown mm s t ↔ ∀ i : Fin 511, (∃ vma ∈ mm.mmapList, vma.inRegion i) →
        (Node.mid i).Present s.mem mm.pgdir →
        ClosedInTime (fun n => n.Present s.mem mm.pgdir) mm.mmapList i) := by
    unfold exitMmap
    rw [if_neg (not_not.mpr hmm.count)]
    simp only [ends_bind]
    apply (unmapAreas_spec hmm.ok hpaged hcounted hdir hmm.inside).imp
    rintro _ t ⟨role', hpaged', hsettled, htables, hempty, _⟩
    have hbare := hpaged'.bare ((hsettled.dir _).mpr hdir) hempty
    have hpage := Node.page_eq hpaged hpaged' hsettled.table htables hdir
    apply (exitAreas_torn hmm.ok hbare).imp
    intro _ u htorn
    refine htorn.tornDown_iff hmm.ok hbare (fun n => (hpage n).symm) fun n f hf => ?_
    rw [← hpaged.free, hpaged.tree.node hdir hf]
    cases n <;> exact Role.noConfusion
  obtain ⟨t, hexec⟩ := hends.exec_some
  obtain ⟨_, hiff⟩ := hends.of_exec hexec
  exact ⟨t, hexec, hiff⟩

/-- The last user of an address space gives it up. -/
theorem Procs.Inv.unused {st : Procs} {id : Nat} {mm : MmStruct} (hinv : st.Inv role)
    (hmm : st.mm id = some mm) : MmStruct.Unused { mm with mmCount := mm.mmCount - 1 } st.kern := by
  obtain ⟨hok, hcount⟩ := hinv.mms id mm hmm
  refine ⟨⟨hok.sorted, hok.areas, hok.cache⟩, by simp [hcount],
    ⟨role, hinv.paged, hinv.counted, (hinv.dirs mm.pgdir).mpr ⟨id, mm, hmm, rfl⟩⟩,
    fun v hv hvalid => ?_⟩
  rcases hinv.entries id mm v hmm hv with hzero | ⟨_, vma, hvma, hcovers, _⟩
  · rw [hzero] at hvalid
    cases hvalid
  · exact ⟨vma, hvma, hcovers⟩

/-- One area with one page. -/
def touchOneArea : List ProcOp :=
  [.create 1, .mmMap 1 0x200000 0x1000 (VM_READ ||| VM_WRITE), .doPgfault 1 0 0x200000]

/-- Two areas in the same region, with a page each. -/
def touchTwoAreas : List ProcOp :=
  [.create 1, .mmMap 1 0x200000 0x1000 (VM_READ ||| VM_WRITE),
    .mmMap 1 0x600000 0x1000 (VM_READ ||| VM_WRITE), .doPgfault 1 0 0x200000,
    .doPgfault 1 0 0x600000]

/-- A region with a single page is taken down. -/
theorem exitMmap_tornDown_one : ∃ mm s t, MmStruct.Unused mm s ∧
    mm.mmapList = [⟨0x200000, 0x201000, VM_READ ||| VM_WRITE⟩] ∧
    exec (exitMmap (.ofList [0x80500, 0x80501, 0x80502, 0x80503]) mm) s = some t ∧
    TornDown mm s t := by
  have hfold : (touchOneArea.foldlM (fun st op => if op.firstTouch st = true then
      ProcOp.step (.ofList [0x80500, 0x80501, 0x80502, 0x80503]) st op else none)
      (bootProcs {0x80500, 0x80501, 0x80502, 0x80503})).map
        (fun st => (st.mm 1).map (fun mm => (mm.mmapList, decide (∀ j : Fin 512,
          ((Node.tab 0 j).page st.kern.mem mm.pgdir).isSome = decide (j = 1))))) =
      some (some ([⟨0x200000, 0x201000, VM_READ ||| VM_WRITE⟩], true)) := by
    decide +kernel
  obtain ⟨st, hst, hmm⟩ := Option.map_eq_some_iff.mp hfold
  obtain ⟨mm, hmm, hvalues⟩ := Option.map_eq_some_iff.mp hmm
  obtain ⟨hlist, htabs⟩ := by simpa only [Prod.mk.injEq] using hvalues
  obtain ⟨role, hinv⟩ := (bootProcs_initial (by decide)).run
    ((RunsTo.of_foldlM hst).mono fun st op hfirst =>
      ⟨(ProcOp.of_firstTouch hfirst).1, fun vma h =>
        absurd h ((ProcOp.of_firstTouch hfirst).2 vma)⟩)
  have hunused := hinv.unused hmm
  obtain ⟨t, hexec, hiff⟩ :=
    exitMmap_tornDown_iff (.ofList [0x80500, 0x80501, 0x80502, 0x80503]) hunused
  refine ⟨_, st.kern, t, hunused, hlist, hexec, hiff.mpr fun i hi _ => ?_⟩
  have htab : ∀ j : Fin 512, (Node.tab 0 j).Present st.kern.mem mm.pgdir ↔ j = 1 := by
    intro j
    have hj := of_decide_eq_true htabs j
    rw [Node.Present, ← Option.isSome_iff_exists, hj, decide_eq_true_eq]
  have hblock : ∀ j : Fin 512, VmaStruct.inBlock ⟨0x200000, 0x201000, VM_READ ||| VM_WRITE⟩
      (blockOf 0 j) ↔ j = 1 := by
    intro j
    rw [Fin.ext_iff]
    unfold VmaStruct.inBlock blockOf PTSIZE PGSIZE
    simp only [Fin.val_zero, Fin.val_one]
    omega
  simp only [hlist, List.mem_singleton, exists_eq_left] at hi ⊢
  obtain rfl : i = 0 := by
    obtain ⟨_, hi⟩ := hi
    rw [Fin.ext_iff, Fin.val_zero]
    unfold PDSIZE PTSIZE PGSIZE at hi
    dsimp only at hi
    omega
  refine ⟨[], _, [], rfl, ?_, ⟨hi, fun j hj => ⟨?_, by simp⟩⟩, fun j hj => ?_⟩
  · rintro ⟨before, vma, after, h, _⟩
    simp at h
  · exact (htab j).mpr ((hblock j).mp hj)
  · exact ⟨_, List.mem_singleton_self _, (hblock j).mpr ((htab j).mp hj)⟩

/-- The first of two areas in a region gives the lower directory back while it
still leads to the page table of the second. -/
theorem exitMmap_loses_table : ¬ ∀ (al : Allocator) (mm : MmStruct) (s : Kern), mm.Unused s →
    ∃ t, exec (exitMmap al mm) s = some t ∧ TornDown mm s t := by
  intro hclaim
  have hfold : (touchTwoAreas.foldlM (fun st op => if op.firstTouch st = true then
      ProcOp.step (.ofList [0x80500, 0x80501, 0x80502, 0x80503, 0x80504, 0x80505]) st op else none)
      (bootProcs {0x80500, 0x80501, 0x80502, 0x80503, 0x80504, 0x80505})).map
        (fun st => (st.mm 1).map (fun mm => ((Node.mid 0).page st.kern.mem mm.pgdir,
          (exec (exitMmap (.ofList [0x80500, 0x80501, 0x80502, 0x80503, 0x80504, 0x80505])
            { mm with mmCount := mm.mmCount - 1 }) st.kern).map fun t =>
              decide (0x80501 ∈ t.free) && valid (t.mem 0x80501 3)))) =
      some (some (some 0x80501, some true)) := by
    decide +kernel
  obtain ⟨st, hst, hmm⟩ := Option.map_eq_some_iff.mp hfold
  obtain ⟨mm, hmm, hvalues⟩ := Option.map_eq_some_iff.mp hmm
  obtain ⟨hpage, hexit⟩ := by simpa only [Prod.mk.injEq] using hvalues
  obtain ⟨t, hexec, hchecks⟩ := Option.map_eq_some_iff.mp hexit
  obtain ⟨hfree, hvalid⟩ := by simpa only [Bool.and_eq_true, decide_eq_true_eq] using hchecks
  obtain ⟨role, hinv⟩ := (bootProcs_initial (by decide)).run
    ((RunsTo.of_foldlM hst).mono fun st op hfirst =>
      ⟨(ProcOp.of_firstTouch hfirst).1, fun vma h =>
        absurd h ((ProcOp.of_firstTouch hfirst).2 vma)⟩)
  obtain ⟨t', hexec', htorn⟩ := hclaim _ _ _ (hinv.unused hmm)
  obtain rfl := Option.some.inj (hexec.symm.trans hexec')
  have hempty := htorn.empty (.mid 0) _ Node.noConfusion hpage hfree 3 (by decide)
  rw [hvalid] at hempty
  cases hempty

end Ucore.Mm
