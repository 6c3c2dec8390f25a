import Mathlib.Data.BitVec

/-!
# Addresses and page table entries

`kern/mm/mmu.h` and the conversions of `kern/mm/pmm.h`. A linear address is a
number; a page table entry is the 64-bit word that the code builds and takes
apart. A page of memory is named by its physical page number.
-/

namespace Ucore.Mm

def PGSIZE : Nat := 4096

/-- Bytes mapped by an entry of the lower directory. -/
def PTSIZE : Nat := PGSIZE * 512

/-- Bytes mapped by an entry of the page directory. -/
def PDSIZE : Nat := PTSIZE * 512

/-- Page directory index, level 1. -/
def pdx1 (la : Nat) : Nat := (la >>> 30) &&& 0x1FF

/-- Page directory index, level 0. -/
def pdx0 (la : Nat) : Nat := (la >>> 21) &&& 0x1FF

/-- Page table index. -/
def ptx (la : Nat) : Nat := (la >>> 12) &&& 0x1FF

/-- Page number field of an address. -/
def ppn (la : Nat) : Nat := la >>> 12

def rounddown (a n : Nat) : Nat := a - a % n

abbrev Pte := BitVec 64

def PTE_V : Pte := 0x001
def PTE_R : Pte := 0x002
def PTE_W : Pte := 0x004
def PTE_X : Pte := 0x008
def PTE_U : Pte := 0x010

def READ_WRITE : Pte := PTE_R ||| PTE_W ||| PTE_V

def PTE_USER : Pte := PTE_R ||| PTE_W ||| PTE_X ||| PTE_U ||| PTE_V

/-- Construct an entry from a page number and permission bits. -/
def pteCreate (ppn : Nat) (type : Pte) : Pte := (BitVec.ofNat 64 ppn <<< 10) ||| PTE_V ||| type

/-- The bits of an entry below the page number. -/
def flagBits : Pte := 0x3FF

/-- Address in an entry. -/
def pteAddr (pte : Pte) : BitVec 64 := (pte &&& ~~~flagBits) <<< 2

namespace Mmu

/-- An entry is valid. -/
def valid (pte : Pte) : Bool := pte &&& PTE_V != 0

def writable (pte : Pte) : Bool := pte &&& PTE_W != 0

/-- The page number that an entry points to, `PPN(PTE_ADDR(pte))`. -/
def frame (pte : Pte) : Nat := ppn (pteAddr pte).toNat

/-- Permission bits lie below the page number. -/
def IsPerm (perm : Pte) : Prop := perm &&& ~~~flagBits = 0

instance (perm : Pte) : Decidable (IsPerm perm) :=
  inferInstanceAs (Decidable (perm &&& ~~~flagBits = 0))

theorem getLsbD_flagBits (i : Nat) : flagBits.getLsbD i = decide (i < 10) := by
  have hmask : flagBits = BitVec.ofNat 64 (2 ^ 10 - 1) := rfl
  rw [hmask, BitVec.getLsbD_ofNat, Nat.testBit_two_pow_sub_one]
  simp
  omega

theorem and_bit_ne_zero (pte : Pte) {n : Nat} (hn : n < 64) :
    (pte &&& BitVec.twoPow 64 n != 0) = pte.getLsbD n := by
  rw [BitVec.and_twoPow]
  cases pte.getLsbD n with
  | false => simp
  | true =>
      have hne : BitVec.twoPow 64 n ≠ 0 := by
        intro hzero
        have hbit := congrArg (BitVec.getLsbD · n) hzero
        simp [hn] at hbit
      simpa using hne

theorem valid_eq (pte : Pte) : valid pte = pte.getLsbD 0 :=
  @and_bit_ne_zero pte 0 (by decide)

theorem writable_eq (pte : Pte) : writable pte = pte.getLsbD 2 :=
  @and_bit_ne_zero pte 2 (by decide)

theorem isPerm_iff (perm : Pte) : IsPerm perm ↔ ∀ i, 10 ≤ i → perm.getLsbD i = false := by
  unfold IsPerm
  constructor
  · intro hperm i hi
    have hbit := congrArg (BitVec.getLsbD · i) hperm
    by_cases h64 : i < 64
    · simp only [BitVec.getLsbD_and, BitVec.getLsbD_not, getLsbD_flagBits, h64, Nat.not_lt.mpr hi,
        BitVec.ofNat_eq_ofNat, BitVec.getLsbD_zero] at hbit
      simpa using hbit
    · exact BitVec.getLsbD_of_ge _ _ (Nat.le_of_not_lt h64)
  · intro hperm
    apply BitVec.eq_of_getLsbD_eq
    intro i h64
    by_cases hi : i < 10
    · simp [getLsbD_flagBits, hi]
    · simp [hperm i (Nat.le_of_not_lt hi)]

/-- Entries that agree above the permission bits point to the same page. -/
theorem frame_congr {pte pte' : Pte} (hbits : ∀ i, 10 ≤ i → pte.getLsbD i = pte'.getLsbD i) :
    frame pte = frame pte' := by
  have haddr : pteAddr pte = pteAddr pte' := by
    unfold pteAddr
    apply BitVec.eq_of_getLsbD_eq
    intro i h64
    by_cases hi : i - 2 < 10
    · simp [getLsbD_flagBits, hi]
    · simp [getLsbD_flagBits, hi, hbits (i - 2) (Nat.le_of_not_lt hi)]
  rw [frame, haddr, ← frame]

theorem frame_pteCreate {n : Nat} {type : Pte} (hn : n < 2 ^ 44) (htype : IsPerm type) :
    frame (pteCreate n type) = n := by
  rw [isPerm_iff] at htype
  have hplain : frame (pteCreate n type) = frame (BitVec.ofNat 64 n <<< 10) := by
    apply frame_congr
    intro i hi
    have hV : PTE_V.getLsbD i = false := by
      have hne : i ≠ 0 := by omega
      simp [PTE_V, hne]
    simp [pteCreate, htype i hi, hV]
  have haddr : pteAddr (BitVec.ofNat 64 n <<< 10) = BitVec.ofNat 64 n <<< 12 := by
    unfold pteAddr
    apply BitVec.eq_of_getLsbD_eq
    intro i h64
    by_cases hi : i < 12
    · have hlow : i - 2 < 10 := by omega
      simp [hi, hlow]
    · have hhigh : ¬ i - 2 < 10 := by omega
      have hsub : i - 2 - 10 = i - 12 := by omega
      have h2 : ¬ i < 2 := by omega
      have h62 : i - 2 < 64 := by omega
      simp only [BitVec.getLsbD_shiftLeft, BitVec.getLsbD_and, BitVec.getLsbD_not,
        getLsbD_flagBits, hhigh, hi, h64, hsub, h2, h62]
      simp
  rw [hplain, frame, haddr, ppn, BitVec.toNat_shiftLeft, BitVec.toNat_ofNat, Nat.shiftLeft_eq,
    Nat.shiftRight_eq_div_pow]
  omega

@[simp] theorem valid_pteCreate (n : Nat) (type : Pte) : valid (pteCreate n type) = true := by
  simp [valid_eq, pteCreate, PTE_V]

@[simp] theorem writable_pteCreate (n : Nat) (type : Pte) :
    writable (pteCreate n type) = writable type := by
  simp [writable_eq, pteCreate, PTE_V]

@[simp] theorem valid_zero : valid 0#64 = false := rfl

@[simp] theorem writable_zero : writable 0#64 = false := rfl

theorem IsPerm.or {perm perm' : Pte} (h : IsPerm perm) (h' : IsPerm perm') :
    IsPerm (perm ||| perm') := by
  rw [isPerm_iff] at *
  intro i hi
  simp [h i hi, h' i hi]

theorem IsPerm.and {perm : Pte} (h : IsPerm perm) (pte : Pte) : IsPerm (pte &&& perm) := by
  rw [isPerm_iff] at *
  intro i hi
  simp [h i hi]

/-! ## Indexes -/

theorem and_511 (n : Nat) : n &&& 0x1FF = n % 512 := Nat.and_two_pow_sub_one_eq_mod n 9

theorem pdx1_eq (la : Nat) : pdx1 la = ppn la / 2 ^ 18 % 512 := by
  unfold pdx1 ppn
  rw [and_511, Nat.shiftRight_eq_div_pow, Nat.shiftRight_eq_div_pow, Nat.div_div_eq_div_mul,
    ← Nat.pow_add]

theorem pdx0_eq (la : Nat) : pdx0 la = ppn la / 2 ^ 9 % 512 := by
  unfold pdx0 ppn
  rw [and_511, Nat.shiftRight_eq_div_pow, Nat.shiftRight_eq_div_pow, Nat.div_div_eq_div_mul,
    ← Nat.pow_add]

theorem ptx_eq (la : Nat) : ptx la = ppn la % 512 := and_511 _

theorem ppn_eq (la : Nat) : ppn la = la / PGSIZE := Nat.shiftRight_eq_div_pow la 12

end Mmu

end Ucore.Mm
