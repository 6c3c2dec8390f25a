import Ucore.Foundation.Words
import Ucore.Mm.UserCheck

/-!
# Copying strings from user memory

`copy_string` of `kern/mm/vmm.c` in lab 8, which copies page by page, and `strnlen` of
`libs/string.c`. `user_mem_check` is the same there as in lab 5. Loops get a bound on their
rounds.
-/

namespace Ucore.Mm

open Mmu

/-- What `copy_string` does with user memory. -/
inductive Touch
  /-- `user_mem_check` has said yes to a range. -/
  | approved (addr len : BitVec 64)
  | read (addr : BitVec 64)
  deriving DecidableEq

/-- The kernel memory behind `dst`, how many bytes were written to it, and what was done
with user memory, the latest first. -/
structure Copy where
  mm : MmStruct
  dst : Nat → Byte
  written : Nat
  log : List Touch

namespace Copy

def read (s : Copy) (addr : BitVec 64) : Copy := { s with log := .read addr :: s.log }

end Copy

section

variable (mem : BitVec 64 → Byte)

/-- `strnlen`, from the byte `cnt` on, with `len - cnt` bytes to go. -/
def strnlen (src : BitVec 64) : Nat → Nat → Copy → Nat × Copy
  | 0, cnt, s => (cnt, s)
  | togo + 1, cnt, s =>
      let addr := src + BitVec.ofNat 64 cnt
      if mem addr ≠ 0 then strnlen src togo (cnt + 1) (s.read addr) else (cnt, s.read addr)

/-- `memcpy` to the offset `offset` of `dst`. -/
def memcpy (offset : Nat) (src : BitVec 64) (n : Nat) (s : Copy) : Copy :=
  { s with
    dst := fun k =>
      if offset ≤ k ∧ k < offset + n then mem (src + BitVec.ofNat 64 (k - offset)) else s.dst k
    written := s.written + n
    log := ((List.range n).map fun i => .read (src + BitVec.ofNat 64 i)) ++ s.log }

/-- The loop of `copy_string`, with bounds on its rounds and on those of `user_mem_check`. -/
def copyLoop (areas : Nat) : Nat → Nat → BitVec 64 → BitVec 64 → BitVec 64 → Copy →
    Option (Bool × Copy)
  | 0, _, _, _, _, _ => none
  | rounds + 1, offset, src, part, maxn, s =>
      let part := if maxn < part then maxn else part
      match userMemCheck areas (some s.mm) src part false with
      | some (true, some mm) =>
          let s := { s with mm := mm, log := .approved src part :: s.log }
          let (alen, s) := strnlen mem src part.toNat 0 s
          if alen < part.toNat then some (true, memcpy mem offset src (alen + 1) s)
          else if part = maxn then some (false, s)
          else
            copyLoop areas rounds (offset + part.toNat) (src + part) (BitVec.ofNat 64 PGSIZE)
              (maxn - part) (memcpy mem offset src part.toNat s)
      | some (_, some mm) => some (false, { s with mm := mm })
      | _ => none

/-- `copy_string`. -/
def copyString (areas rounds : Nat) (src maxn : BitVec 64) (s : Copy) : Option (Bool × Copy) :=
  let part := BitVec.ofNat 64 (rounddown (src + BitVec.ofNat 64 PGSIZE).toNat PGSIZE) - src
  copyLoop mem areas rounds 0 src part maxn s

end

/-! ## What it is to do -/

/-- The string at `src` is `i` bytes long: the first NUL byte is `i` bytes behind `src`. -/
def FirstNul (mem : BitVec 64 → Byte) (src : BitVec 64) (i : Nat) : Prop :=
  mem (src + BitVec.ofNat 64 i) = 0 ∧ ∀ j < i, mem (src + BitVec.ofNat 64 j) ≠ 0

/-- The pages from that of `src` up to that of the byte `i` are in areas that may be read. -/
def MmStruct.ReadablePages (mm : MmStruct) (src : BitVec 64) (i : Nat) : Prop :=
  ∀ v, src.toNat / PGSIZE ≤ v → v ≤ (src.toNat + i) / PGSIZE → mm.Permits false (PGSIZE * v)

/-- Every byte was in a range that `user_mem_check` had approved before it was read. The log has the
latest event first. -/
def ReadsApproved : List Touch → Prop
  | [] => True
  | .approved _ _ :: log => ReadsApproved log
  | .read a :: log =>
      (∃ addr len, .approved addr len ∈ log ∧ addr.toNat ≤ a.toNat ∧
        a.toNat < addr.toNat + len.toNat) ∧ ReadsApproved log

variable {mem : BitVec 64 → Byte} {mm : MmStruct} {src part : BitVec 64} {s s' : Copy}

/-- An address that is not far from the first one. -/
theorem toNat_add_ofNat {j : Nat} (hj : src.toNat + j < 2 ^ 64) :
    (src + BitVec.ofNat 64 j).toNat = src.toNat + j := by
  rw [BitVec.toNat_add, BitVec.toNat_ofNat, Nat.mod_eq_of_lt (by omega : j < 2 ^ 64),
    Nat.mod_eq_of_lt hj]

/-- Reads of an approved range. -/
theorem ReadsApproved.append {l log : List Touch} {addr len : BitVec 64} (h : ReadsApproved log)
    (happroved : .approved addr len ∈ log)
    (hreads : ∀ e ∈ l, ∃ a, e = .read a ∧ addr.toNat ≤ a.toNat ∧ a.toNat < addr.toNat + len.toNat) :
    ReadsApproved (l ++ log) := by
  induction l with
  | nil => exact h
  | cons e l ih =>
      obtain ⟨a, rfl, hlow, hup⟩ := hreads e List.mem_cons_self
      refine ⟨⟨addr, len, List.mem_append_right _ happroved, hlow, hup⟩, ?_⟩
      exact ih fun e he => hreads e (List.mem_cons_of_mem _ he)

/-- `strnlen` stops at the first NUL byte, or else at the end. -/
theorem strnlen_spec {togo cnt n : Nat} (h : strnlen mem src togo cnt s = (n, s')) :
    (cnt ≤ n ∧ n ≤ cnt + togo) ∧
    (∀ j, cnt ≤ j → j < n → mem (src + BitVec.ofNat 64 j) ≠ 0) ∧
    (n < cnt + togo → mem (src + BitVec.ofNat 64 n) = 0) ∧
    ∃ l, s' = { s with log := l ++ s.log } ∧
      ∀ e ∈ l, ∃ j, j < cnt + togo ∧ e = .read (src + BitVec.ofNat 64 j) := by
  induction togo generalizing cnt s with
  | zero =>
      obtain ⟨rfl, rfl⟩ := Prod.mk.inj h
      refine ⟨⟨le_refl _, le_refl _⟩, ?_, ?_, [], rfl, nofun⟩
      · intro j hle hlt
        omega
      · intro hlt
        omega
  | succ togo ih =>
      rw [strnlen] at h
      split at h
      next hbyte =>
        obtain ⟨⟨hle, hup⟩, hbefore, hnul, l, hlog, hreads⟩ := ih h
        refine ⟨⟨by omega, by omega⟩, ?_, ?_, l ++ [.read (src + BitVec.ofNat 64 cnt)], ?_, ?_⟩
        · intro j hj hlt
          by_cases heq : j = cnt
          · rw [heq]
            exact hbyte
          · exact hbefore j (by omega) hlt
        · intro hlt
          exact hnul (by omega)
        · rw [hlog, List.append_assoc]
          rfl
        · intro e he
          rcases List.mem_append.mp he with he | he
          · obtain ⟨j, hj, hread⟩ := hreads e he
            exact ⟨j, by omega, hread⟩
          · exact ⟨cnt, by omega, List.mem_singleton.mp he⟩
      next hbyte =>
        obtain ⟨rfl, rfl⟩ := Prod.mk.inj h
        refine ⟨⟨le_refl _, by omega⟩, ?_, fun _ => not_not.mp hbyte,
          [.read (src + BitVec.ofNat 64 cnt)], rfl, ?_⟩
        · intro j hle hlt
          omega
        · intro e he
          exact ⟨cnt, by omega, List.mem_singleton.mp he⟩

/-! ## Pages -/

/-- A page is in an area, or no byte of it is. -/
theorem MmStruct.Ok.permits_iff (hmm : mm.Ok) {write : Bool} (a : Nat) :
    mm.Permits write (PGSIZE * (a / PGSIZE)) ↔ mm.Permits write a := by
  have hiff : ∀ vma ∈ mm.mmapList, (vma.contains (PGSIZE * (a / PGSIZE)) ↔ vma.contains a) := by
    intro vma hvma
    obtain ⟨⟨hstart, hstop⟩, _⟩ := hmm.areas vma hvma
    unfold VmaStruct.contains
    unfold PGSIZE at hstart hstop ⊢
    omega
  unfold MmStruct.Permits
  constructor
  · intro ⟨vma, hvma, hcontains, hflag⟩
    exact ⟨vma, hvma, (hiff vma hvma).mp hcontains, hflag⟩
  · intro ⟨vma, hvma, hcontains, hflag⟩
    exact ⟨vma, hvma, (hiff vma hvma).mpr hcontains, hflag⟩

/-- Bytes that may be accessed are user memory. -/
theorem MmStruct.Ok.lt_usertop (hmm : mm.Ok) {write : Bool} {a : Nat} (ha : mm.Permits write a) :
    USERBASE ≤ a ∧ a < USERTOP := by
  obtain ⟨vma, hvma, hcontains, _⟩ := ha
  obtain ⟨_, hbase, _, htop⟩ := hmm.areas vma hvma
  exact ⟨hbase.trans hcontains.1, hcontains.2.trans_le htop⟩

/-- A part of one page may be read if its page may. -/
theorem MmStruct.Ok.userRange_iff (hmm : mm.Ok) (hpos : 0 < part.toNat)
    (hpage : src.toNat % PGSIZE + part.toNat ≤ PGSIZE) :
    mm.UserRange src part false ↔ mm.Permits false (PGSIZE * (src.toNat / PGSIZE)) := by
  constructor
  · intro ⟨_, _, _, _, hpermits, _⟩
    rw [hmm.permits_iff]
    exact hpermits src.toNat (le_refl _) (by omega)
  · intro hpermits
    have hbytes : ∀ a, src.toNat ≤ a → a < src.toNat + part.toNat → mm.Permits false a := by
      intro a ha hlt
      have hsame : a / PGSIZE = src.toNat / PGSIZE := by
        unfold PGSIZE at hpage ⊢
        omega
      rw [← hmm.permits_iff, hsame]
      exact hpermits
    have hfirst := hmm.lt_usertop (hbytes src.toNat (le_refl _) (by omega))
    have hlast := hmm.lt_usertop (hbytes (src.toNat + part.toNat - 1) (by omega) (by omega))
    unfold USERTOP at hlast
    refine ⟨hpos, by omega, hfirst.1, ?_, hbytes, nofun⟩
    unfold USERTOP
    omega

/-! ## Strings -/

/-- The first NUL byte seen from a later byte. -/
theorem firstNul_add {n : Nat} (hnone : ∀ j < n, mem (src + BitVec.ofNat 64 j) ≠ 0) (i : Nat) :
    FirstNul mem (src + BitVec.ofNat 64 n) i ↔ FirstNul mem src (n + i) := by
  have hadd : ∀ j, src + BitVec.ofNat 64 n + BitVec.ofNat 64 j = src + BitVec.ofNat 64 (n + j) := by
    intro j
    rw [BitVec.add_assoc, ← BitVec.ofNat_add]
  unfold FirstNul
  rw [hadd]
  constructor
  · intro ⟨hnul, hbefore⟩
    refine ⟨hnul, ?_⟩
    intro j hj
    by_cases hlt : j < n
    · exact hnone j hlt
    · have hbyte := hbefore (j - n) (by omega)
      rw [hadd, Nat.add_sub_of_le (not_lt.mp hlt)] at hbyte
      exact hbyte
  · intro ⟨hnul, hbefore⟩
    refine ⟨hnul, ?_⟩
    intro j hj
    rw [hadd]
    exact hbefore (n + j) (by omega)

theorem FirstNul.unique {i j : Nat} (hi : FirstNul mem src i) (hj : FirstNul mem src j) :
    i = j := by
  rcases Nat.lt_trichotomy i j with hlt | heq | hlt
  · exact absurd hi.1 (hj.2 i hlt)
  · exact heq
  · exact absurd hj.1 (hi.2 j hlt)

/-- The pages of a string whose first page ends behind `n` bytes. -/
theorem MmStruct.readablePages_add {n : Nat} (hwrap : src.toNat + n < 2 ^ 64)
    (hpage : src.toNat % PGSIZE + n = PGSIZE) (i : Nat) :
    mm.ReadablePages src (n + i) ↔ mm.Permits false (PGSIZE * (src.toNat / PGSIZE)) ∧
      mm.ReadablePages (src + BitVec.ofNat 64 n) i := by
  have hnext : (src.toNat + n) / PGSIZE = src.toNat / PGSIZE + 1 := by
    unfold PGSIZE at hpage ⊢
    omega
  have hle : (src.toNat + n) / PGSIZE ≤ (src.toNat + n + i) / PGSIZE :=
    Nat.div_le_div_right (Nat.le_add_right _ _)
  unfold MmStruct.ReadablePages
  rw [toNat_add_ofNat hwrap, hnext, ← Nat.add_assoc]
  constructor
  · intro hall
    exact ⟨hall _ (le_refl _) (by omega), fun v hv hup => hall v (by omega) hup⟩
  · intro ⟨hfirst, hrest⟩ v hv hup
    by_cases heq : v = src.toNat / PGSIZE
    · rw [heq]
      exact hfirst
    · exact hrest v (by omega) hup

/-- A string that ends on its first page. -/
theorem MmStruct.readablePages_first {i : Nat} (hpage : src.toNat % PGSIZE + i < PGSIZE) :
    mm.ReadablePages src i ↔ mm.Permits false (PGSIZE * (src.toNat / PGSIZE)) := by
  have hsame : (src.toNat + i) / PGSIZE = src.toNat / PGSIZE := by
    unfold PGSIZE at hpage ⊢
    omega
  unfold MmStruct.ReadablePages
  rw [hsame]
  constructor
  · intro hall
    exact hall _ (le_refl _) (le_refl _)
  · intro hfirst v hv hup
    rw [Nat.le_antisymm hup hv]
    exact hfirst

/-- What `copy_string` is to do, from the offset `offset` of `dst` on. -/
structure CopiesString (mem : BitVec 64 → Byte) (offset maxn : Nat) (src : BitVec 64)
    (s : Copy) (ok : Bool) (s' : Copy) : Prop where
  ok_iff : ok = true ↔ ∃ i < maxn, FirstNul mem src i ∧ s.mm.ReadablePages src i
  string : ok = true → ∀ i, FirstNul mem src i → ∀ k, s'.dst k =
    if offset ≤ k ∧ k < offset + (i + 1) then mem (src + BitVec.ofNat 64 (k - offset)) else s.dst k
  outside : ∀ k, k < offset ∨ offset + maxn ≤ k → s'.dst k = s.dst k
  written : s'.written ≤ s.written + maxn
  approved : ReadsApproved s.log → ReadsApproved s'.log

/-- Nothing is copied when the page of `src` cannot be read. -/
theorem CopiesString.of_unreadable {offset maxn : Nat} {mm' : MmStruct}
    (hno : ¬s.mm.Permits false (PGSIZE * (src.toNat / PGSIZE))) :
    CopiesString mem offset maxn src s false { s with mm := mm' } where
  ok_iff := by
    refine iff_of_false Bool.false_ne_true ?_
    intro ⟨i, _, _, hpages⟩
    exact hno (hpages _ (le_refl _) (Nat.div_le_div_right (Nat.le_add_right _ _)))
  string := nofun
  outside := fun _ _ => rfl
  written := Nat.le_add_right _ _
  approved := id

/-- The reads of a part that has been approved. -/
theorem approved_part {n : Nat} (hwrap : src.toNat + part.toNat < 2 ^ 64) (hn : n ≤ part.toNat)
    {l log : List Touch} (hlog : ReadsApproved log) (happroved : .approved src part ∈ log)
    (hl : ∀ e ∈ l, ∃ j < n, e = .read (src + BitVec.ofNat 64 j)) : ReadsApproved (l ++ log) := by
  apply hlog.append happroved
  intro e he
  obtain ⟨j, hj, rfl⟩ := hl e he
  refine ⟨_, rfl, ?_⟩
  rw [toNat_add_ofNat (by omega)]
  omega

/-- The reads of `memcpy`. -/
theorem mem_reads {n : Nat} {e : Touch}
    (he : e ∈ (List.range n).map fun i => Touch.read (src + BitVec.ofNat 64 i)) :
    ∃ j < n, e = .read (src + BitVec.ofNat 64 j) := by
  obtain ⟨j, hj, rfl⟩ := List.mem_map.mp he
  exact ⟨j, List.mem_range.mp hj, rfl⟩

theorem MmStruct.ReadablePages.congr {mm' : MmStruct} (hlist : mm'.mmapList = mm.mmapList)
    {i : Nat} :
    mm'.ReadablePages src i ↔ mm.ReadablePages src i := by
  unfold MmStruct.ReadablePages MmStruct.Permits
  rw [hlist]

/-- The string ends in this part. -/
theorem CopiesString.of_last {offset maxn n : Nat} {s₁ : Copy} {l : List Touch} {mm' : MmStruct}
    (hs₁ : s₁ = { s with mm := mm', log := l ++ .approved src part :: s.log })
    (hwrap : src.toNat + part.toNat < 2 ^ 64) (hlt : n < part.toNat) (hmax : part.toNat ≤ maxn)
    (hnul : FirstNul mem src n) (hpages : s.mm.ReadablePages src n)
    (hl : ReadsApproved s.log → ReadsApproved s₁.log) :
    CopiesString mem offset maxn src s true (memcpy mem offset src (n + 1) s₁) where
  ok_iff := iff_of_true rfl ⟨n, by omega, hnul, hpages⟩
  string := by
    intro _ i hi k
    rw [hi.unique hnul, hs₁]
    rfl
  outside := by
    intro k hk
    change (if offset ≤ k ∧ k < offset + (n + 1) then _ else s₁.dst k) = s.dst k
    rw [if_neg (by omega), hs₁]
  written := by
    change s₁.written + (n + 1) ≤ s.written + maxn
    rw [hs₁]
    dsimp only
    omega
  approved := by
    intro happroved
    have hmem : Touch.approved src part ∈ s₁.log := by
      rw [hs₁]
      exact List.mem_append_right _ List.mem_cons_self
    exact approved_part hwrap hlt (hl happroved) hmem fun _ he => mem_reads he

/-- The rest of the string, behind a part without a NUL byte. -/
theorem CopiesString.of_part {offset maxn n : Nat} {s₁ : Copy} {l : List Touch} {mm' : MmStruct}
    {ok : Bool}
    (hs₁ : s₁ = { s with mm := mm', log := l ++ .approved src part :: s.log })
    (hn : n = part.toNat) (hmax : n < maxn)
    (hlist : mm'.mmapList = s.mm.mmapList) (hwrap : src.toNat + n < 2 ^ 64)
    (hpage : src.toNat % PGSIZE + n = PGSIZE)
    (hreadable : s.mm.Permits false (PGSIZE * (src.toNat / PGSIZE)))
    (hnone : ∀ j < n, mem (src + BitVec.ofNat 64 j) ≠ 0)
    (hl : ReadsApproved s.log → ReadsApproved s₁.log)
    (hrest : CopiesString mem (offset + n) (maxn - n) (src + BitVec.ofNat 64 n)
      (memcpy mem offset src n s₁) ok s') : CopiesString mem offset maxn src s ok s' := by
  have hfirst : ∀ i, FirstNul mem src i → n ≤ i := by
    intro i hi
    by_contra hlt
    exact hnone i (by omega) hi.1
  have hdst : ∀ k, (memcpy mem offset src n s₁).dst k =
      if offset ≤ k ∧ k < offset + n then mem (src + BitVec.ofNat 64 (k - offset))
      else s.dst k := by
    intro k
    rw [hs₁]
    rfl
  have hpages : ∀ i, (memcpy mem offset src n s₁).mm.ReadablePages (src + BitVec.ofNat 64 n) i ↔
      s.mm.ReadablePages src (n + i) := by
    intro i
    have hsame : (memcpy mem offset src n s₁).mm.mmapList = s.mm.mmapList := by
      rw [hs₁]
      exact hlist
    rw [MmStruct.ReadablePages.congr hsame, MmStruct.readablePages_add hwrap hpage]
    exact (and_iff_right hreadable).symm
  refine ⟨?_, ?_, ?_, ?_, ?_⟩
  · rw [hrest.ok_iff]
    constructor
    · intro ⟨i, hi, hnul, hread⟩
      exact ⟨n + i, by omega, (firstNul_add hnone i).mp hnul, (hpages i).mp hread⟩
    · intro ⟨i, hi, hnul, hread⟩
      obtain ⟨j, rfl⟩ := Nat.exists_eq_add_of_le (hfirst i hnul)
      exact ⟨j, by omega, (firstNul_add hnone j).mpr hnul, (hpages j).mpr hread⟩
  · intro hok i hi k
    obtain ⟨j, rfl⟩ := Nat.exists_eq_add_of_le (hfirst i hi)
    rw [hrest.string hok j ((firstNul_add hnone j).mpr hi) k, hdst]
    by_cases hlater : offset + n ≤ k ∧ k < offset + n + (j + 1)
    · have hk : n + (k - (offset + n)) = k - offset := by omega
      rw [if_pos hlater, if_pos (by omega), BitVec.add_assoc, ← BitVec.ofNat_add, hk]
    · rw [if_neg hlater]
      by_cases hnow : offset ≤ k ∧ k < offset + n
      · rw [if_pos hnow, if_pos (by omega)]
      · rw [if_neg hnow, if_neg (by omega)]
  · intro k hk
    rw [hrest.outside k (by omega), hdst, if_neg (by omega)]
  · have hwritten := hrest.written
    have hcopied : (memcpy mem offset src n s₁).written = s.written + n := by
      rw [hs₁]
      rfl
    omega
  · intro happroved
    apply hrest.approved
    have hmem : Touch.approved src part ∈ s₁.log := by
      rw [hs₁]
      exact List.mem_append_right _ List.mem_cons_self
    exact approved_part (hn ▸ hwrap) hn.le (hl happroved) hmem fun _ he => mem_reads he

/-- The loop of `copy_string`, on a part that ends with the page of `src`. -/
theorem copyLoop_spec {areas rounds offset : Nat} {maxn : BitVec 64} (hmm : s.mm.Ok)
    (hareas : s.mm.mmapList.length < areas) (hpos : 0 < maxn.toNat)
    (hpage : src.toNat % PGSIZE + part.toNat = PGSIZE)
    (hrounds : maxn.toNat + src.toNat % PGSIZE ≤ rounds * PGSIZE) :
    ∃ ok s', copyLoop mem areas rounds offset src part maxn s = some (ok, s') ∧
      CopiesString mem offset maxn.toNat src s ok s' := by
  induction rounds generalizing offset src part maxn s with
  | zero => omega
  | succ rounds ih =>
      have hoff : src.toNat % PGSIZE < PGSIZE := Nat.mod_lt _ (by decide)
      rw [copyLoop]
      dsimp only
      -- the part that is clipped to `maxn`
      obtain ⟨n, hn⟩ : ∃ n, n = if maxn < part then maxn else part := ⟨_, rfl⟩
      rw [← hn]
      have hclip : n.toNat = min part.toNat maxn.toNat := by
        rw [hn]
        split
        next hlt =>
          have hlt' := BitVec.lt_def.mp hlt
          omega
        next hnot =>
          have hle := not_lt.mp fun hlt => hnot (BitVec.lt_def.mpr hlt)
          omega
      have hnpos : 0 < n.toNat := by omega
      have hnpage : src.toNat % PGSIZE + n.toNat ≤ PGSIZE := by omega
      obtain ⟨yes, mm', hcheck, hmm', hlist, hyes⟩ :=
        userMemCheck_spec hmm.toApart src n false hareas
      rw [hcheck]
      rw [hmm.userRange_iff hnpos hnpage] at hyes
      cases yes with
      | false =>
          have hno : ¬s.mm.Permits false (PGSIZE * (src.toNat / PGSIZE)) :=
            fun hpermits => Bool.false_ne_true (hyes.mpr hpermits)
          exact ⟨false, _, rfl, .of_unreadable hno⟩
      | true =>
          have hreadable := hyes.mp rfl
          have hrange := (hmm.userRange_iff hnpos hnpage).mpr hreadable
          have hwrap := hrange.2.1
          dsimp only
          rcases hstrnlen :
            strnlen mem src n.toNat 0 { s with mm := mm', log := .approved src n :: s.log }
            with ⟨alen, s₁⟩
          obtain ⟨⟨_, halen⟩, hbefore, hnul, l, hs₁, hl⟩ := strnlen_spec hstrnlen
          rw [Nat.zero_add] at halen hnul hl
          have hreads : ReadsApproved s.log → ReadsApproved s₁.log := by
            intro happroved
            rw [hs₁]
            exact approved_part hwrap (le_refl _) happroved List.mem_cons_self hl
          have hnone : ∀ j < alen, mem (src + BitVec.ofNat 64 j) ≠ 0 :=
            fun j hj => hbefore j (Nat.zero_le j) hj
          dsimp only
          by_cases hlast : alen < n.toNat
          · -- the string ends in this part
            rw [if_pos hlast]
            refine ⟨true, _, rfl, .of_last hs₁ hwrap hlast (by omega) ⟨hnul hlast, hnone⟩ ?_ hreads⟩
            exact (MmStruct.readablePages_first (by omega)).mpr hreadable
          · obtain rfl : alen = n.toNat := by omega
            rw [if_neg hlast]
            by_cases hend : n = maxn
            · -- `maxn` bytes are through, and no NUL was among them
              rw [if_pos hend]
              refine ⟨false, s₁, rfl, ?_, nofun, ?_, ?_, hreads⟩
              · refine iff_of_false Bool.false_ne_true ?_
                intro ⟨i, hi, hfirst, _⟩
                exact hnone i (hend ▸ hi) hfirst.1
              · intro k _
                rw [hs₁]
              · rw [hs₁]
                exact Nat.le_add_right _ _
            · -- the rest begins on a page border
              have hne : n.toNat ≠ maxn.toNat := fun heq => hend (BitVec.eq_of_toNat_eq heq)
              have hwhole : src.toNat % PGSIZE + n.toNat = PGSIZE := by omega
              have hsrc : (src + n).toNat = src.toNat + n.toNat := by
                rw [BitVec.toNat_add, Nat.mod_eq_of_lt hwrap]
              have haligned : (src + n).toNat % PGSIZE = 0 := by
                rw [hsrc]
                unfold PGSIZE at hwhole ⊢
                omega
              have hleft : (maxn - n).toNat = maxn.toNat - n.toNat :=
                BitVec.toNat_sub_of_le (BitVec.le_def.mpr (by omega))
              have hmm'' : mm'.Ok := ⟨hlist ▸ hmm.sorted, hlist ▸ hmm.areas, hmm'.cache⟩
              have hstate : (memcpy mem offset src n.toNat s₁).mm = mm' := by
                rw [hs₁]
                rfl
              rw [if_neg hend]
              have hpart : (src + n).toNat % PGSIZE + (BitVec.ofNat 64 PGSIZE).toNat = PGSIZE := by
                rw [haligned]
                rfl
              obtain ⟨ok, s', hloop, hcopies⟩ : ∃ ok s',
                  copyLoop mem areas rounds (offset + n.toNat) (src + n) (BitVec.ofNat 64 PGSIZE)
                    (maxn - n) (memcpy mem offset src n.toNat s₁) = some (ok, s') ∧
                  CopiesString mem (offset + n.toNat) (maxn - n).toNat (src + n)
                    (memcpy mem offset src n.toNat s₁) ok s' := by
                refine ih (hstate ▸ hmm'') (hstate ▸ hlist ▸ hareas) (by omega) hpart ?_
                rw [haligned, hleft]
                rw [Nat.succ_mul] at hrounds
                omega
              refine ⟨ok, s', hloop, .of_part hs₁ rfl (by omega) hlist hwrap hwhole hreadable hnone
                hreads ?_⟩
              rw [BitVec.ofNat_toNat, BitVec.setWidth_eq, ← hleft]
              exact hcopies

/-- The first part ends with the page of `src`, also for the last page of all. -/
theorem firstPart_toNat (src : BitVec 64) : src.toNat % PGSIZE +
    (BitVec.ofNat 64 (rounddown (src + BitVec.ofNat 64 PGSIZE).toNat PGSIZE) - src).toNat =
      PGSIZE := by
  have hsrc := src.isLt
  rw [BitVec.toNat_sub, BitVec.toNat_ofNat, BitVec.toNat_add, BitVec.toNat_ofNat]
  unfold rounddown PGSIZE
  omega

/-- `copy_string` returns, and says yes exactly if there is a NUL byte among the first `maxn`
bytes and every page up to it can be read; `dst` then holds the string. It writes no more
than `maxn` bytes and reads only what has been approved. -/
theorem copyString_exact {areas rounds : Nat} {maxn : BitVec 64} (hmm : s.mm.Ok)
    (hareas : s.mm.mmapList.length < areas) (hpos : 1 ≤ maxn.toNat)
    (hrounds : maxn.toNat / PGSIZE + 2 ≤ rounds) (hlog : s.log = []) :
    ∃ ok s', copyString mem areas rounds src maxn s = some (ok, s') ∧
      (ok = true ↔ ∃ i < maxn.toNat, FirstNul mem src i ∧ s.mm.ReadablePages src i) ∧
      (ok = true → ∀ i, FirstNul mem src i → ∀ k, s'.dst k =
        if k ≤ i then mem (src + BitVec.ofNat 64 k) else s.dst k) ∧
      (∀ k, maxn.toNat ≤ k → s'.dst k = s.dst k) ∧
      s'.written ≤ s.written + maxn.toNat ∧
      ReadsApproved s'.log := by
  have hpage := firstPart_toNat src
  have hbound : maxn.toNat + src.toNat % PGSIZE ≤ rounds * PGSIZE := by
    have hoff : src.toNat % PGSIZE < PGSIZE := Nat.mod_lt _ (by decide)
    have hmul := Nat.mul_le_mul_right PGSIZE hrounds
    unfold PGSIZE at hoff hmul ⊢
    omega
  obtain ⟨ok, s', hloop, hcopies⟩ : ∃ ok s', copyString mem areas rounds src maxn s =
      some (ok, s') ∧
      CopiesString mem 0 maxn.toNat src s ok s' := copyLoop_spec hmm hareas hpos hpage hbound
  refine ⟨ok, s', hloop, hcopies.ok_iff, ?_, ?_, hcopies.written, ?_⟩
  · intro hok i hi k
    rw [hcopies.string hok i hi k, Nat.zero_add, Nat.sub_zero]
    by_cases hle : k ≤ i
    · rw [if_pos hle, if_pos ⟨Nat.zero_le k, Nat.lt_succ_of_le hle⟩]
    · rw [if_neg hle, if_neg fun hin => hle (Nat.le_of_lt_succ hin.2)]
  · intro k hk
    exact hcopies.outside k (Or.inr (by omega))
  · apply hcopies.approved
    rw [hlog]
    trivial

/-- Two pages that may be read, and the letter `a` up to the end of the first one. -/
def twoPages : Copy :=
  ⟨⟨[⟨0x400000, 0x402000, VM_READ⟩], none, 1, 1⟩, fun _ => 1, 0, []⟩

def acrossPages (addr : BitVec 64) : Byte := if addr.toNat < 0x401000 then 97 else 0

theorem copyString_exact_acrossPages :
    ∃ s', copyString acrossPages 2 2 0x400ffe 3 twoPages = some (true, s') ∧
      ReadsApproved s'.log ∧ s'.written ≤ 3 := by
  have hareas : ∀ vma ∈ twoPages.mm.mmapList, vma.Ok := by
    intro vma hvma
    rw [List.mem_singleton.mp hvma]
    exact ⟨by decide, by decide⟩
  have hmm : twoPages.mm.Ok := ⟨by decide, hareas, nofun⟩
  obtain ⟨ok, s', hcopy, _, _, _, hwritten, happroved⟩ :=
    @copyString_exact acrossPages 0x400ffe twoPages 2 2 3 hmm (by decide)
    (by decide) (by decide) rfl
  have htrue : (copyString acrossPages 2 2 0x400ffe 3 twoPages).map Prod.fst = some true := by
    decide
  rw [hcopy] at htrue
  exact ⟨s', Option.some.inj htrue ▸ hcopy, happroved, hwritten⟩

end Ucore.Mm
