import Ucore.Mm.MmMap

/-!
# Checking user pointers

`user_mem_check` of `kern/mm/vmm.c`. It looks at one address of each area that the range
meets. The loop gets a bound on its rounds.
-/

namespace Ucore.Mm

def KERNBASE : Nat := 0xffffffffc0200000

def KMEMSIZE : Nat := 0x7e00000

def KERNTOP : Nat := KERNBASE + KMEMSIZE

/-- `KERN_ACCESS`. -/
def kernAccess (start stop : Nat) : Prop := KERNBASE ≤ start ∧ start < stop ∧ stop ≤ KERNTOP

instance (start stop : Nat) : Decidable (kernAccess start stop) :=
  inferInstanceAs (Decidable (_ ∧ _ ∧ _))

/-- The flag that an access needs. -/
def accessFlag (write : Bool) : BitVec 32 := if write then VM_WRITE else VM_READ

/-- The loop of `user_mem_check`; `none` when it takes more rounds than it is given. -/
def userMemLoop (stop : Nat) (write : Bool) : Nat → Nat → MmStruct → Option (Bool × MmStruct)
  | 0, _, _ => none
  | fuel + 1, start, mm =>
      if start < stop then
        match findVma mm start with
        | (none, mm) => some (false, mm)
        | (some vma, mm) =>
            if start < vma.vmStart then some (false, mm)
            else if vma.vmFlags &&& accessFlag write = 0 then some (false, mm)
            else if write ∧ vma.vmFlags &&& VM_STACK ≠ 0 ∧
              start < (vma.vmStart + PGSIZE) % 2 ^ 64 then
              some (false, mm)
            else userMemLoop stop write fuel vma.vmEnd mm
      else some (true, mm)

/-- `user_mem_check`, where `addr` and `len` are 64 bits wide. -/
def userMemCheck (fuel : Nat) (mm : Option MmStruct) (addr len : BitVec 64) (write : Bool) :
    Option (Bool × Option MmStruct) :=
  match mm with
  | some mm =>
      if ¬userAccess addr.toNat (addr + len).toNat then some (false, some mm)
      else (userMemLoop (addr + len).toNat write fuel addr.toNat mm).map fun r => (r.1, some r.2)
  | none => some (decide (kernAccess addr.toNat (addr + len).toNat), none)

/-! ## What it answers -/

variable {mm : MmStruct} {vma : VmaStruct} {start stop a : Nat} {write : Bool}

/-- The byte is in an area that permits the access: `VM_WRITE` for a write, `VM_READ` for a read. -/
def MmStruct.Permits (mm : MmStruct) (write : Bool) (a : Nat) : Prop :=
  ∃ vma ∈ mm.mmapList, vma.contains a ∧ vma.vmFlags &&& accessFlag write ≠ 0

/-- The byte is in the first page of a stack, where `user_mem_check` lets nobody write. -/
def MmStruct.Guarded (mm : MmStruct) (a : Nat) : Prop :=
  ∃ vma ∈ mm.mmapList, vma.contains a ∧ vma.vmFlags &&& VM_STACK ≠ 0 ∧ a < vma.vmStart + PGSIZE

/-- The access is in order for every byte of a range. -/
def MmStruct.Approves (mm : MmStruct) (write : Bool) (start stop : Nat) : Prop :=
  ∀ a, start ≤ a → a < stop → mm.Permits write a ∧ (write = true → ¬mm.Guarded a)

/-- The areas that end behind an address. -/
def MmStruct.behind (mm : MmStruct) (start : Nat) : Nat :=
  mm.mmapList.countP (start < ·.vmEnd)

/-- Behind an area there is one area less. -/
theorem MmStruct.behind_lt (hvma : vma ∈ mm.mmapList) (hstart : vma.contains start) :
    mm.behind vma.vmEnd < mm.behind start := by
  unfold MmStruct.behind
  obtain ⟨front, rest, hlist⟩ := List.append_of_mem hvma
  have hle : ∀ l : List VmaStruct, l.countP (vma.vmEnd < ·.vmEnd) ≤ l.countP (start < ·.vmEnd) := by
    intro l
    apply List.countP_mono_left
    intro b _ hb
    have hlt := of_decide_eq_true hb
    exact decide_eq_true (hstart.2.trans hlt)
  rw [hlist, List.countP_append, List.countP_append, List.countP_cons, List.countP_cons]
  have hself : decide (vma.vmEnd < vma.vmEnd) = false := decide_eq_false (Nat.lt_irrefl _)
  have hnow : decide (start < vma.vmEnd) = true := decide_eq_true hstart.2
  rw [hself, hnow]
  have hfront := hle front
  have hrest := hle rest
  simp only [Bool.false_eq_true, if_false, if_true]
  omega

/-- The loop looks at the area of `start`, and goes on behind it. -/
theorem MmStruct.Apart.approves_iff (hmm : mm.Apart) (hvma : vma ∈ mm.mmapList)
    (hstart : vma.contains start) (hlt : start < stop) :
    mm.Approves write start stop ↔
      vma.vmFlags &&& accessFlag write ≠ 0 ∧
      (write = true → vma.vmFlags &&& VM_STACK ≠ 0 → vma.vmStart + PGSIZE ≤ start) ∧
      mm.Approves write vma.vmEnd stop := by
  constructor
  · intro happroves
    obtain ⟨⟨vma', hvma', hcontains, hflag⟩, hguard⟩ := happroves start (le_refl _) hlt
    obtain rfl := hmm.unique hvma' hvma hcontains hstart
    refine ⟨hflag, ?_, ?_⟩
    · intro hwrite hstack
      by_contra hnot
      exact hguard hwrite ⟨vma', hvma', hstart, hstack, by omega⟩
    · intro a ha
      exact happroves a (hstart.2.le.trans ha)
  · intro ⟨hflag, hstack, hrest⟩ a ha hstop
    by_cases hin : a < vma.vmEnd
    · have hcontains : vma.contains a := ⟨hstart.1.trans ha, hin⟩
      refine ⟨⟨vma, hvma, hcontains, hflag⟩, ?_⟩
      intro hwrite ⟨vma', hvma', hcontains', hguard, hfirst⟩
      obtain rfl := hmm.unique hvma' hvma hcontains' hcontains
      have hle := hstack hwrite hguard
      omega
    · exact hrest a (not_lt.mp hin) hstop

/-- The loop ends after a round for each area at most, with the answer for every byte. -/
theorem userMemLoop_spec (hmm : mm.Apart) (hstop : stop ≤ USERTOP) {fuel : Nat}
    (hfuel : mm.behind start < fuel) :
    ∃ ok mm', userMemLoop stop write fuel start mm = some (ok, mm') ∧ mm'.Apart ∧
      mm'.mmapList = mm.mmapList ∧ (ok = true ↔ mm.Approves write start stop) := by
  induction fuel generalizing start mm with
  | zero => exact absurd hfuel (Nat.not_lt_zero _)
  | succ fuel ih =>
      rw [userMemLoop]
      by_cases hlt : start < stop
      · obtain ⟨hmm', hlist⟩ := hmm.findVma_snd start
        rw [if_pos hlt]
        rcases hfind : findVma mm start with ⟨found, mm'⟩
        rw [hfind] at hmm' hlist
        cases found with
        | none =>
            have hnone : (findVma mm start).1 = none ↔ ¬mm.Covers start := hmm.findVma_none
            rw [hfind] at hnone
            refine ⟨false, mm', rfl, hmm', hlist, iff_of_false Bool.false_ne_true ?_⟩
            intro happroves
            obtain ⟨⟨vma, hvma, hcontains, _⟩, _⟩ := happroves start (le_refl _) hlt
            exact hnone.mp rfl ⟨vma, hvma, hcontains⟩
        | some vma =>
            have hsome : (findVma mm start).1 = some vma ↔ _ := hmm.findVma_some
            rw [hfind] at hsome
            obtain ⟨hvma, hcontains⟩ := hsome.mp rfl
            have hiff : mm.Approves write start stop ↔ _ := hmm.approves_iff hvma hcontains hlt
            have hround : (vma.vmStart + PGSIZE) % 2 ^ 64 = vma.vmStart + PGSIZE := by
              apply Nat.mod_eq_of_lt
              have hle := hcontains.1
              unfold USERTOP at hstop
              unfold PGSIZE
              omega
            dsimp only
            rw [if_neg (not_lt.mpr hcontains.1), hround]
            by_cases hflag : vma.vmFlags &&& accessFlag write = 0
            · rw [if_pos hflag]
              refine ⟨false, mm', rfl, hmm', hlist, iff_of_false Bool.false_ne_true ?_⟩
              exact fun happroves => (hiff.mp happroves).1 hflag
            · rw [if_neg hflag]
              by_cases hstack : write = true ∧ vma.vmFlags &&& VM_STACK ≠ 0 ∧
                  start < vma.vmStart + PGSIZE
              · rw [if_pos hstack]
                refine ⟨false, mm', rfl, hmm', hlist, iff_of_false Bool.false_ne_true ?_⟩
                intro happroves
                have hle := (hiff.mp happroves).2.1 hstack.1 hstack.2.1
                exact absurd hstack.2.2 (not_lt.mpr hle)
              · rw [if_neg hstack]
                have hbehind : mm'.behind vma.vmEnd < fuel := by
                  have hless := mm.behind_lt hvma hcontains
                  unfold MmStruct.behind at hless hfuel ⊢
                  rw [hlist]
                  omega
                obtain ⟨ok, mm'', hloop, hmm'', hlist', hok⟩ := ih hmm' hbehind
                have hsame : mm'.Approves write vma.vmEnd stop ↔
                    mm.Approves write vma.vmEnd stop := by
                  unfold MmStruct.Approves MmStruct.Permits MmStruct.Guarded
                  rw [hlist]
                refine ⟨ok, mm'', hloop, hmm'', hlist'.trans hlist, ?_⟩
                rw [hok, hsame, hiff]
                refine ⟨fun hrest => ⟨hflag, ?_, hrest⟩, fun hall => hall.2.2⟩
                intro hwrite hguard
                by_contra hnot
                exact hstack ⟨hwrite, hguard, not_le.mp hnot⟩
      · rw [if_neg hlt]
        refine ⟨true, mm, rfl, hmm, rfl, iff_of_true rfl ?_⟩
        intro a ha hstop
        exact absurd (ha.trans_lt hstop) hlt

/-- The range is one of user addresses, does not wrap around, and every byte of it may be
accessed. -/
def MmStruct.UserRange (mm : MmStruct) (addr len : BitVec 64) (write : Bool) : Prop :=
  0 < len.toNat ∧ addr.toNat + len.toNat < 2 ^ 64 ∧ USERBASE ≤ addr.toNat ∧
  addr.toNat + len.toNat ≤ USERTOP ∧
  (∀ a, addr.toNat ≤ a → a < addr.toNat + len.toNat → mm.Permits write a) ∧
  (write = true → ∀ a, addr.toNat ≤ a → a < addr.toNat + len.toNat → ¬mm.Guarded a)

/-- A sum that wraps around is below its summands. -/
theorem userAccess_add (addr len : BitVec 64) : userAccess addr.toNat (addr + len).toNat ↔
    0 < len.toNat ∧ addr.toNat + len.toNat < 2 ^ 64 ∧ USERBASE ≤ addr.toNat ∧
    addr.toNat + len.toNat ≤ USERTOP := by
  have haddr := addr.isLt
  have hlen := len.isLt
  rw [userAccess, BitVec.toNat_add]
  by_cases hwrap : addr.toNat + len.toNat < 2 ^ 64
  · rw [Nat.mod_eq_of_lt hwrap]
    omega
  · have hmod : (addr.toNat + len.toNat) % 2 ^ 64 = addr.toNat + len.toNat - 2 ^ 64 := by
      rw [Nat.mod_eq_sub_mod (not_lt.mp hwrap), Nat.mod_eq_of_lt (by omega)]
    rw [hmod]
    omega

theorem userMemCheck_spec (hmm : mm.Apart) (addr len : BitVec 64) (write : Bool) {fuel : Nat}
    (hfuel : mm.mmapList.length < fuel) :
    ∃ ok mm', userMemCheck fuel (some mm) addr len write = some (ok, some mm') ∧ mm'.Apart ∧
      mm'.mmapList = mm.mmapList ∧ (ok = true ↔ mm.UserRange addr len write) := by
  have haccess := userAccess_add addr len
  rw [userMemCheck]
  by_cases huser : userAccess addr.toNat (addr + len).toNat
  · obtain ⟨hpos, hwrap, hbase, htop⟩ := haccess.mp huser
    have hstop : (addr + len).toNat = addr.toNat + len.toNat := by
      rw [BitVec.toNat_add, Nat.mod_eq_of_lt hwrap]
    have hbehind : mm.behind addr.toNat < fuel := lt_of_le_of_lt List.countP_le_length hfuel
    obtain ⟨ok, mm', hloop, hmm', hlist, hok⟩ := userMemLoop_spec hmm (hstop ▸ htop) hbehind
    refine ⟨ok, mm', ?_, hmm', hlist, ?_⟩
    · rw [if_neg (not_not.mpr huser), hloop, Option.map_some]
    · rw [hok, hstop]
      constructor
      · intro happroves
        refine ⟨hpos, hwrap, hbase, htop, fun a ha hlt => (happroves a ha hlt).1, ?_⟩
        exact fun hwrite a ha hlt => (happroves a ha hlt).2 hwrite
      · intro ⟨_, _, _, _, hpermits, hguarded⟩ a ha hlt
        exact ⟨hpermits a ha hlt, fun hwrite => hguarded hwrite a ha hlt⟩
  · refine ⟨false, mm, if_pos huser, hmm, rfl, iff_of_false Bool.false_ne_true ?_⟩
    intro ⟨hpos, hwrap, hbase, htop, _⟩
    exact huser (haccess.mpr ⟨hpos, hwrap, hbase, htop⟩)

/-- `user_mem_check` returns, after a round for each area at most, with the answer for every
byte of the range; what the cache holds makes no difference. -/
theorem userMemCheck_exact (hmm : mm.Apart) (addr len : BitVec 64) (write : Bool) {fuel : Nat}
    (hfuel : mm.mmapList.length < fuel) :
    ∃ ok mm', userMemCheck fuel (some mm) addr len write = some (ok, some mm') ∧
      mm'.mmapList = mm.mmapList ∧
      (ok = true ↔ 0 < len.toNat ∧ addr.toNat + len.toNat < 2 ^ 64 ∧ USERBASE ≤ addr.toNat ∧
        addr.toNat + len.toNat ≤ USERTOP ∧
        (∀ a, addr.toNat ≤ a → a < addr.toNat + len.toNat → mm.Permits write a) ∧
        (write = true → ∀ a, addr.toNat ≤ a → a < addr.toNat + len.toNat → ¬mm.Guarded a)) ∧
      ∀ cache, MmStruct.Apart { mm with mmapCache := cache } →
        ∃ mm'', userMemCheck fuel (some { mm with mmapCache := cache }) addr len write =
          some (ok, mm'') := by
  obtain ⟨ok, mm', hcheck, _, hlist, hok⟩ := userMemCheck_spec hmm addr len write hfuel
  refine ⟨ok, mm', hcheck, hlist, hok, ?_⟩
  intro cache hcache
  obtain ⟨ok', mm'', hcheck', _, _, hok'⟩ := userMemCheck_spec hcache addr len write hfuel
  have heq : ok' = ok := Bool.eq_iff_iff.mpr (hok'.trans hok.symm)
  exact ⟨some mm'', heq ▸ hcheck'⟩

/-- Two adjacent areas; only the lower one may be written. -/
def adjacentAreas : MmStruct :=
  ⟨[⟨0x400000, 0x401000, VM_READ ||| VM_WRITE⟩, ⟨0x401000, 0x402000, VM_READ⟩], none, 1, 1⟩

theorem userMemCheck_exact_adjacent :
    ∃ mm', userMemCheck 3 (some adjacentAreas) 0x400f00 0x200 false =
      some (true, mm') ∧
    ∀ a, 0x400f00 ≤ a → a < 0x400f00 + 0x200 → adjacentAreas.Permits false a := by
  have hmm : adjacentAreas.Apart := ⟨by decide, by decide, nofun⟩
  obtain ⟨ok, mm', hcheck, _, hok, _⟩ :=
    @userMemCheck_exact adjacentAreas hmm 0x400f00 0x200 false 3 (by decide)
  have htrue : (userMemCheck 3 (some adjacentAreas) 0x400f00 0x200 false).map Prod.fst =
      some true := by
    decide
  rw [hcheck] at htrue
  have hyes : ok = true := Option.some.inj htrue
  exact ⟨some mm', hyes ▸ hcheck, (hok.mp hyes).2.2.2.2.1⟩

end Ucore.Mm
