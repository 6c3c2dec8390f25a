import Ucore.Mm.Procs

/-!
# Reading and writing bytes

Two processes access bytes of their address spaces. A write to a present page
that is not writable faults, and is made again when `do_pgfault` has returned.
As long as no page that may be written through one entry is mapped by another
one, each process has a memory of its own.
-/

namespace Ucore.Mm

open Mmu Machine Finset

/-! ## Bytes of words -/

def byteAt (w : Pte) (i : Nat) : BitVec 8 := (w >>> (8 * i)).setWidth 8

def setByte (w : Pte) (i : Nat) (b : BitVec 8) : Pte :=
  (w &&& ~~~(0xFF#64 <<< (8 * i))) ||| (b.setWidth 64 <<< (8 * i))

theorem byteAt_setByte (w : Pte) (b : BitVec 8) {i j : Nat} (hi : i < 8) (hj : j < 8) :
    byteAt (setByte w i b) j = if j = i then b else byteAt w j := by
  have hmask : ∀ k, (0xFF#64).getLsbD k = decide (k < 8) := by
    intro k
    by_cases hk : k < 8
    · have : k = 0 ∨ k = 1 ∨ k = 2 ∨ k = 3 ∨ k = 4 ∨ k = 5 ∨ k = 6 ∨ k = 7 := by omega
      rcases this with rfl | rfl | rfl | rfl | rfl | rfl | rfl | rfl <;> rfl
    · rw [decide_eq_false hk]
      have h256 : (0xFF#64) = (0xFF#8).setWidth 64 := rfl
      rw [h256, BitVec.getLsbD_setWidth, BitVec.getLsbD_of_ge _ _ (Nat.le_of_not_lt hk),
        Bool.and_false]
  apply BitVec.eq_of_getLsbD_eq
  intro k hk
  have hin : 8 * j + k < 64 := by omega
  simp only [byteAt, setByte, BitVec.getLsbD_setWidth, BitVec.getLsbD_ushiftRight,
    BitVec.getLsbD_or,
    BitVec.getLsbD_and, BitVec.getLsbD_not, BitVec.getLsbD_shiftLeft, hmask, hk, hin]
  split
  next heq =>
    subst heq
    have hge : ¬ 8 * j + k < 8 * j := by omega
    have hsub : 8 * j + k - 8 * j = k := by omega
    have h64 : k < 64 := by omega
    simp [hge, hsub, hk, h64]
  next hne =>
    by_cases hlt : 8 * j + k < 8 * i
    · simp [hlt, hk]
    · have hout : ¬ 8 * j + k - 8 * i < 8 := by omega
      have hzero : b.getLsbD (8 * j + k - 8 * i) = false := BitVec.getLsbD_of_ge _ _ (by omega)
      simp [hlt, hout, hzero, hk]

/-! ## Accesses -/

def loadByte (page addr : Nat) : KernM (BitVec 8) :=
  (fun s => byteAt (s.mem page (addr % PGSIZE / 8)) (addr % 8)) <$> get

def storeByte (page addr : Nat) (b : BitVec 8) : KernM PUnit :=
  modify fun s => s.write ⟨page, addr % PGSIZE / 8⟩
    (setByte (s.mem page (addr % PGSIZE / 8)) (addr % 8) b)

section

variable (al : Allocator)

/-- What the MMU finds for an address. Pages that are not present are not part of this. -/
def translate (pgdir addr : Nat) : KernM Pte := do
  match ← getPte al.allocPage pgdir addr false with
  | none => throw .notPresent
  | some ptep =>
      let pte ← load ptep
      if valid pte then pure pte else throw .notPresent

def readByte (mm : MmStruct) (addr : Nat) : KernM (BitVec 8) := do
  loadByte (frame (← translate al mm.pgdir addr)) addr

def writeByte (mm : MmStruct) (errorCode addr : Nat) (b : BitVec 8) : KernM MmStruct := do
  let pte ← translate al mm.pgdir addr
  if writable pte then
    storeByte (frame pte) addr b
    pure mm
  else
    let (_, mm) ← doPgfault al mm errorCode addr
    let pte ← translate al mm.pgdir addr
    if writable pte then
      storeByte (frame pte) addr b
      pure mm
    else throw .notPresent

end

/-- The two processes of a fork. -/
inductive Who
  | parent
  | child
  deriving DecidableEq

inductive Access
  | read (who : Who) (addr : Nat)
  | write (who : Who) (errorCode addr : Nat) (b : BitVec 8)

/-- Makes the accesses in turn; returns what the reads have read. -/
def runAccesses (al : Allocator) : List Access → (Who → MmStruct) → KernM (List (BitVec 8))
  | [], _ => pure []
  | .read who addr :: rest, mms => do
      let b ← readByte al (mms who) addr
      (b :: ·) <$> runAccesses al rest mms
  | .write who errorCode addr b :: rest, mms => do
      let mm ← writeByte al (mms who) errorCode addr b
      runAccesses al rest (Function.update mms who mm)

/-- What the reads read if each process has a memory of its own. -/
def privateReads : List Access → (Who → Nat → BitVec 8) → List (BitVec 8)
  | [], _ => []
  | .read who addr :: rest, m => m who addr :: privateReads rest m
  | .write who _ addr b :: rest, m =>
      privateReads rest (Function.update m who (Function.update (m who) addr b))

/-- The byte at an address of an address space. -/
def contents (m : Memory) (pgdir addr : Nat) : BitVec 8 :=
  byteAt (m (frame (leaf m pgdir (ppn addr))) (addr % PGSIZE / 8)) (addr % 8)

/-! ## Two address spaces -/

/-- The address spaces have the areas `areas` and map the pages `present`. A page
that may be written through an entry is mapped by no other entry. -/
structure Twins (role : Nat → Role) (s : Kern) (mms : Who → MmStruct) (areas : List VmaStruct)
    (present : Nat → Prop) : Prop where
  paged : Paged role s
  counted : Counted role s
  dir : ∀ who, role (mms who).pgdir = .dir
  distinct : ∀ who who', (mms who).pgdir = (mms who').pgdir → who = who'
  ok : ∀ who, (mms who).Ok
  mem_areas : ∀ who vma, vma ∈ (mms who).mmapList ↔ vma ∈ areas
  entry : ∀ who v, v < userPages → leaf s.mem (mms who).pgdir v = 0#64 ∨
    valid (leaf s.mem (mms who).pgdir v) = true
  user : ∀ v, present v → v < userPages
  mapped : ∀ who v, present v → valid (leaf s.mem (mms who).pgdir v) = true
  exclusive : ∀ who v who' v', present v → present v' →
    (∃ vma ∈ areas, vma.covers v ∧ vma.writable = true) →
    writable (leaf s.mem (mms who).pgdir v) = true →
    frame (leaf s.mem (mms who').pgdir v') = frame (leaf s.mem (mms who).pgdir v) →
    who' = who ∧ v' = v

/-- An access that the areas permit, to a page that is present. A write needs an area with
`VM_WRITE`. -/
def Access.Permitted (areas : List VmaStruct) (present : Nat → Prop) : Access → Prop
  | .read _ addr => present (ppn addr) ∧ ∃ vma ∈ areas, vma.contains addr
  | .write _ _ addr _ =>
      present (ppn addr) ∧ ∃ vma ∈ areas, vma.contains addr ∧ vma.writable = true

variable {E : Panic → Prop} {role role' : Nat → Role} {s t : Kern} {al : Allocator}

theorem ends_translate {pgdir addr : Nat} {Q : Pte → Kern → Prop} (hpaged : Paged role s)
    (hdir : role pgdir = .dir) (haddr : ppn addr < userPages)
    (hvalid : valid (leaf s.mem pgdir (ppn addr)) = true) (hQ : Q (leaf s.mem pgdir (ppn addr)) s) :
    Ends E (translate al pgdir addr) s Q := by
  obtain ⟨p, hwalk⟩ := Tree.leaf_valid hvalid
  have hleaf := leaf_of_walk hwalk
  unfold translate
  rw [ends_bind]
  apply (getPte_walk hpaged hdir haddr hwalk).imp
  rintro r s ⟨rfl, rfl⟩
  simp only [ends_bind, ends_load, ← hleaf, hvalid, if_true]
  exact hQ

theorem write_eq_fill (s : Kern) (page index : Nat) (w : Pte) :
    s.write ⟨page, index⟩ w = s.fill page (Function.update (s.mem page) index w) := by
  have hmem : s.mem.write ⟨page, index⟩ w =
      s.mem.fill page (Function.update (s.mem page) index w) := by
    funext f i
    by_cases hf : f = page
    · subst hf
      by_cases hi : i = index
      · subst hi
        simp
      · simp [hi]
    · simp [hf]
  unfold Kern.write Kern.fill
  rw [hmem]

/-- What an update of one of the address spaces does not change. -/
theorem update_field {α : Type} {mms : Who → MmStruct} {who : Who} {mm : MmStruct}
    (g : MmStruct → α)
    (h : g mm = g (mms who)) (who' : Who) : g (Function.update mms who mm who') = g (mms who') := by
  by_cases hwho : who' = who
  · subst hwho
    rw [Function.update_self, h]
  · rw [Function.update_of_ne hwho]

/-- Addresses of a page are told apart by the word and the byte in it. -/
theorem addr_eq {a b : Nat} (hpage : ppn a = ppn b) (hword : a % PGSIZE / 8 = b % PGSIZE / 8)
    (hbyte : a % 8 = b % 8) : a = b := by
  rw [ppn_eq, ppn_eq] at hpage
  unfold PGSIZE at hpage hword
  omega

namespace Twins

variable {mms : Who → MmStruct} {areas : List VmaStruct} {present : Nat → Prop}

/-- Writing a byte of a page that is mapped writable. -/
theorem store (h : Twins role s mms areas present) {who : Who} {addr : Nat} (b : BitVec 8)
    (hpresent : present (ppn addr)) (hwritable : ∃ vma ∈ areas, vma.covers (ppn addr) ∧
      vma.writable = true)
    (hW : writable (leaf s.mem (mms who).pgdir (ppn addr)) = true) :
    Ends E (storeByte (frame (leaf s.mem (mms who).pgdir (ppn addr))) addr b) s fun _ t =>
      Twins role t mms areas present ∧ s.free.card ≤ t.free.card ∧
        ∀ who' addr', present (ppn addr') →
        contents t.mem (mms who').pgdir addr' = if who' = who ∧ addr' = addr then b
          else contents s.mem (mms who').pgdir addr' := by
  have hdata := h.paged.tree.data (h.dir who) (h.user _ hpresent) (h.mapped who _ hpresent)
  unfold storeByte
  rw [ends_modify]
  generalize hf : frame (leaf s.mem (mms who).pgdir (ppn addr)) = f at hdata
  generalize hw : setByte (s.mem f (addr % PGSIZE / 8)) (addr % 8) b = w
  obtain ⟨hpaged, hsame⟩ := h.paged.fill hdata (Function.update (s.mem f) (addr % PGSIZE / 8) w)
  rw [← write_eq_fill] at hpaged hsame
  have hleaf : ∀ who' v, v < userPages →
      leaf (s.write ⟨f, addr % PGSIZE / 8⟩ w).mem (mms who').pgdir v =
        leaf s.mem (mms who').pgdir v :=
    fun who' v hv => hsame _ v (h.dir who') hv
  refine ⟨⟨hpaged, fun g hg => ?_, h.dir, h.distinct, h.ok, h.mem_areas, ?_, h.user, ?_, ?_⟩,
    Nat.le_refl _, ?_⟩
  · rw [excess_congr hsame (fun _ => Iff.rfl) rfl]
    exact h.counted g hg
  · intro who' v hv
    rw [hleaf who' v hv]
    exact h.entry who' v hv
  · intro who' v hv
    rw [hleaf who' v (h.user v hv)]
    exact h.mapped who' v hv
  · intro who₁ v₁ who₂ v₂ hv₁ hv₂
    rw [hleaf who₁ v₁ (h.user v₁ hv₁), hleaf who₂ v₂ (h.user v₂ hv₂)]
    exact h.exclusive who₁ v₁ who₂ v₂ hv₁ hv₂
  · intro who' addr' hpresent'
    unfold contents
    rw [hleaf who' _ (h.user _ hpresent'), Kern.write_mem, Memory.write_apply]
    by_cases hframe : frame (leaf s.mem (mms who').pgdir (ppn addr')) = f
    · -- only one entry maps the page
      obtain ⟨rfl, hpage⟩ :=
        h.exclusive who _ who' _ hpresent hpresent' hwritable hW (hframe.trans hf.symm)
      have hlt : addr % 8 < 8 := Nat.mod_lt _ (by decide)
      have hlt' : addr' % 8 < 8 := Nat.mod_lt _ (by decide)
      by_cases hword : addr' % PGSIZE / 8 = addr % PGSIZE / 8
      · rw [if_pos ⟨hframe, hword⟩, ← hw, byteAt_setByte _ _ hlt hlt', hframe, hword]
        by_cases hbyte : addr' % 8 = addr % 8
        · rw [if_pos hbyte, if_pos ⟨rfl, addr_eq hpage hword hbyte⟩]
        · rw [if_neg hbyte, if_neg fun heq => hbyte (by rw [heq.2])]
      · rw [if_neg fun heq => hword heq.2, if_neg fun heq => hword (by rw [heq.2])]
    · rw [if_neg fun heq => hframe heq.1, if_neg]
      rintro ⟨rfl, rfl⟩
      exact hframe hf

/-- The page is replaced by a copy, which no other entry maps. -/
theorem fault (h : Twins role s mms areas present) {who : Who} {v n : Nat} {vma : VmaStruct}
    (hpresent : present v) (hvma : vma ∈ (mms who).mmapList)
    (hcopied : Copied role s t (mms who).pgdir v n) :
    Twins (Function.update role n .data) t
        (Function.update mms who { mms who with mmapCache := some vma }) areas present ∧
      ∀ who' addr', present (ppn addr') →
        contents t.mem (mms who').pgdir addr' = contents s.mem (mms who').pgdir addr' := by
  have hv := h.user v hpresent
  have hdir := h.dir who
  have hvalid := h.mapped who v hpresent
  have hevolves := hcopied.evolves h.paged hdir hv hvalid
  have hpgdir : ∀ who',
      (Function.update mms who { mms who with mmapCache := some vma } who').pgdir =
      (mms who').pgdir := update_field MmStruct.pgdir rfl
  have hlist : ∀ who',
      (Function.update mms who { mms who with mmapCache := some vma } who').mmapList =
      (mms who').mmapList := update_field MmStruct.mmapList rfl
  -- the entries, with the frame of the copy
  have hself : frame (leaf t.mem (mms who).pgdir v) = n := by
    have hlt : n < npage := h.paged.bound n (by simp [hcopied.fresh])
    rw [hcopied.leaf _ v hdir hv, if_pos ⟨rfl, rfl⟩]
    exact frame_pteCreate (Nat.lt_trans hlt (by decide)) (IsPerm.or (by decide) (isPerm_user _))
  have hother : ∀ who' v', v' < userPages → ¬ (who' = who ∧ v' = v) →
      leaf t.mem (mms who').pgdir v' = leaf s.mem (mms who').pgdir v' := by
    intro who' v' hv' hne
    rw [hcopied.leaf _ v' (h.dir who') hv', if_neg]
    rintro ⟨heq, rfl⟩
    exact hne ⟨h.distinct _ _ heq, rfl⟩
  have hold : ∀ who' v', present v' → role (frame (leaf s.mem (mms who').pgdir v')) = .data :=
    fun who' v' hv' => h.paged.tree.data (h.dir who') (h.user v' hv') (h.mapped who' v' hv')
  have hnew : ∀ who' v', present v' → frame (leaf s.mem (mms who').pgdir v') ≠ n := by
    intro who' v' hv' heq
    have hdata := hold who' v' hv'
    rw [heq, hcopied.fresh] at hdata
    cases hdata
  refine ⟨⟨hcopied.paged, hevolves.counted h.counted, ?_, ?_, ?_, ?_, ?_, h.user, ?_, ?_⟩, ?_⟩
  · intro who'
    rw [hpgdir, hevolves.dir]
    exact h.dir who'
  · intro who₁ who₂ heq
    rw [hpgdir, hpgdir] at heq
    exact h.distinct _ _ heq
  · intro who'
    by_cases hwho : who' = who
    · subst hwho
      rw [Function.update_self]
      exact (h.ok who').setCache hvma
    · rw [Function.update_of_ne hwho]
      exact h.ok who'
  · intro who' a
    rw [hlist]
    exact h.mem_areas who' a
  · intro who' v' hv'
    rw [hpgdir]
    by_cases heq : who' = who ∧ v' = v
    · obtain ⟨rfl, rfl⟩ := heq
      right
      rw [hcopied.leaf _ _ hdir hv, if_pos ⟨rfl, rfl⟩]
      exact valid_pteCreate _ _
    · rw [hother who' v' hv' heq]
      exact h.entry who' v' hv'
  · intro who' v' hv'
    rw [hpgdir]
    by_cases heq : who' = who ∧ v' = v
    · obtain ⟨rfl, rfl⟩ := heq
      rw [hcopied.leaf _ _ hdir hv, if_pos ⟨rfl, rfl⟩]
      exact valid_pteCreate _ _
    · rw [hother who' v' (h.user v' hv') heq]
      exact h.mapped who' v' hv'
  · -- the copy is new, so that no other page has its frame
    intro who₁ v₁ who₂ v₂ hv₁ hv₂ hwritable hW hframe
    rw [hpgdir] at hW
    rw [hpgdir, hpgdir] at hframe
    by_cases h₁ : who₁ = who ∧ v₁ = v
    · by_cases h₂ : who₂ = who ∧ v₂ = v
      · exact ⟨h₂.1.trans h₁.1.symm, h₂.2.trans h₁.2.symm⟩
      · rw [hother who₂ v₂ (h.user v₂ hv₂) h₂, h₁.1, h₁.2, hself] at hframe
        exact absurd hframe (hnew who₂ v₂ hv₂)
    · rw [hother who₁ v₁ (h.user v₁ hv₁) h₁] at hW hframe
      by_cases h₂ : who₂ = who ∧ v₂ = v
      · rw [h₂.1, h₂.2, hself] at hframe
        exact absurd hframe.symm (hnew who₁ v₁ hv₁)
      · rw [hother who₂ v₂ (h.user v₂ hv₂) h₂] at hframe
        exact h.exclusive who₁ v₁ who₂ v₂ hv₁ hv₂ hwritable hW hframe
  · intro who' addr' hpresent'
    unfold contents
    by_cases heq : who' = who ∧ ppn addr' = v
    · obtain ⟨rfl, rfl⟩ := heq
      rw [hself, hcopied.copy]
    · rw [hother who' _ (h.user _ hpresent') heq, hcopied.data _ (hold who' _ hpresent')]

/-- A write that the areas permit changes one byte of one of the memories. It needs one
frame at most. -/
theorem write (h : Twins role s mms areas present) (hnull : E .nullPage ∨ Plenty al 1 s) {who : Who}
    {errorCode addr : Nat} {b : BitVec 8}
    (hpermitted : (Access.write who errorCode addr b).Permitted areas present) :
    Ends E (writeByte al (mms who) errorCode addr b) s fun mm t => mm.pgdir = (mms who).pgdir ∧
      s.free.card ≤ t.free.card + 1 ∧
        ∃ role', Twins role' t (Function.update mms who mm) areas present ∧
        ∀ who' addr', present (ppn addr') → contents t.mem (mms who').pgdir addr' =
          if who' = who ∧ addr' = addr then b else contents s.mem (mms who').pgdir addr' := by
  obtain ⟨hpresent, vma, hvma, haddr, hvmaW⟩ := hpermitted
  have hv := h.user _ hpresent
  have hmem := (h.mem_areas who vma).mpr hvma
  have hwritable : ∃ vma ∈ areas, vma.covers (ppn addr) ∧ vma.writable = true :=
    ⟨vma, hvma, ((h.ok who).areas vma hmem).covers_ppn haddr, hvmaW⟩
  unfold writeByte
  rw [ends_bind]
  apply ends_translate h.paged (h.dir who) hv (h.mapped who _ hpresent)
  split
  next hW =>
    rw [ends_bind]
    apply (h.store b hpresent hwritable hW).imp
    rintro _ t ⟨htwins, hcard, hcontents⟩
    refine ⟨rfl, by omega, role, ?_, hcontents⟩
    rwa [Function.update_eq_self]
  next hW =>
    rw [ends_bind]
    apply (doPgfault_spec (hnull.imp_right fun hplenty => hplenty.some)
      (h.ok who) h.paged h.counted (h.dir who) (h.entry who)).imp
    rintro ⟨ret, mm⟩ t (⟨_, _, hnone⟩ | ⟨vma', hvma', _, rfl, hfaulted⟩)
    · exact absurd haddr (hnone vma hmem)
    · cases hfaulted with
      | mapped hzero =>
          have hvalid := h.mapped who _ hpresent
          rw [hzero, valid_zero] at hvalid
          cases hvalid
      | @copied n _ hcopied =>
          obtain ⟨htwins, hsame⟩ := h.fault hpresent hvma' hcopied
          have hdir := htwins.dir who
          have hmapped := htwins.mapped who _ hpresent
          have hnewW : writable (leaf t.mem (mms who).pgdir (ppn addr)) = true := by
            rw [hcopied.leaf _ _ (h.dir who) hv, if_pos ⟨rfl, rfl⟩, writable_pteCreate]
            simp [writable_eq, PTE_W]
          rw [Function.update_self] at hdir hmapped
          simp only
          rw [ends_bind]
          apply ends_translate htwins.paged hdir hv hmapped
          rw [if_pos hnewW, ends_bind]
          have hstore := @store E _ t _ areas present htwins who addr b hpresent hwritable
            (by rw [Function.update_self]; exact hnewW)
          rw [Function.update_self] at hstore
          apply hstore.imp
          rintro _ u ⟨htwins', hcard, hcontents⟩
          have hused := h.paged.card_free hcopied.paged hcopied.fresh (by simp)
          refine ⟨rfl, by omega, _, htwins', fun who' addr' hpresent' => ?_⟩
          have hpgdir : (Function.update mms who
              { mms who with mmapCache := some vma' } who').pgdir = (mms who').pgdir :=
            @update_field _ mms who { mms who with mmapCache := some vma' } MmStruct.pgdir rfl who'
          have hnow := hcontents who' addr' hpresent'
          rw [hpgdir] at hnow
          rw [hnow, hsame who' addr' hpresent']

/-- Any accesses that the areas permit read what they would in two memories. No access
needs more than one frame. -/
theorem run (accesses : List Access) (hnull : E .nullPage ∨ Plenty al accesses.length s)
    (h : Twins role s mms areas present) {m : Who → Nat → BitVec 8}
    (hm : ∀ who addr, present (ppn addr) → contents s.mem (mms who).pgdir addr = m who addr)
    (hpermitted : ∀ access ∈ accesses, access.Permitted areas present) :
    Ends E (runAccesses al accesses mms) s fun reads _ => reads = privateReads accesses m := by
  induction accesses generalizing role s mms m with
  | nil => rfl
  | cons access rest ih =>
      have hrest := fun a ha => hpermitted a (List.mem_cons_of_mem _ ha)
      have hfirst := hpermitted access List.mem_cons_self
      cases access with
      | read who addr =>
          unfold runAccesses readByte loadByte privateReads
          rw [ends_bind, ends_bind]
          apply ends_translate h.paged (h.dir who) (h.user _ hfirst.1) (h.mapped who _ hfirst.1)
          simp only [ends_map, ends_get]
          apply (ih (hnull.imp_right fun hplenty => hplenty.mono (Nat.le_succ _)) h hm hrest).imp
          rintro reads _ rfl
          rw [← hm who addr hfirst.1]
          rfl
      | write who errorCode addr b =>
          unfold runAccesses privateReads
          rw [ends_bind]
          apply (h.write (hnull.imp_right fun hplenty => hplenty.mono (Nat.le_add_left 1 _))
            hfirst).imp
          rintro mm t ⟨hpgdir, hused, role', htwins, hcontents⟩
          apply ih (hnull.imp_right fun hplenty => hplenty.rest hused) htwins _ hrest
          intro who' addr' hpresent'
          have hsame := update_field MmStruct.pgdir hpgdir who'
          rw [hsame, hcontents who' addr' hpresent', hm who' addr' hpresent']
          by_cases hwho : who' = who
          · subst hwho
            rw [Function.update_self]
            by_cases haddr : addr' = addr
            · subst haddr
              rw [if_pos ⟨rfl, rfl⟩, Function.update_self]
            · rw [if_neg fun heq => haddr heq.2, Function.update_of_ne haddr]
          · rw [if_neg fun heq => hwho heq.1, Function.update_of_ne hwho]

end Twins

end Ucore.Mm
