import Ucore.Foundation.Runs
import Ucore.Fs.InodeSpec

/-!
# Processes that share the inode cache

Between a reference count of zero and the reclaim that follows, a lookup may take the
inode up again. `reclaim_count` tells the last reclaim: it is the number of reclaims to
come, and one more while there are references.
-/

namespace Ucore.Fs.Inode

open Machine Links

section Steps

variable {nodes : List Node} {chains : Fin SFS_HLIST_SIZE → List Node} {c c' : Cache}
  {pending held opened pending' held' opened' : Node → Nat} {node : Node}

/-- The cache with the inodes `nodes` is in order. Callers hold `held` references and
`opened` open files, and `pending` reclaims are to come. -/
structure Inv (nodes : List Node) (chains : Fin SFS_HLIST_SIZE → List Node) (c : Cache)
    (pending held opened : Node → Nat) : Prop where
  linked : Linked nodes chains c.toLists
  counted : ∀ n ∈ nodes, Counted c.toCounts n (pending n) (held n) (opened n)
  unused : ∀ n, n ∉ nodes → pending n = 0 ∧ held n = 0 ∧ opened n = 0

/-- A step from `c` to `c'` keeps the cache in order, and gives an inode back only when
it is not used. -/
structure Kept (c c' : Cache) (pending held opened : Node → Nat) : Prop where
  inv : ∃ nodes chains, Inv nodes chains c' pending held opened
  freed : ∀ n ∈ c.heap, n ∉ c'.heap → held n = 0 ∧ pending n = 0

@[simp] theorem give_same (f : Node → Nat) : give f node node = f node + 1 :=
  Function.update_self ..

theorem give_of_ne (f : Node → Nat) {n : Node} (hn : n ≠ node) : give f node n = f n :=
  Function.update_of_ne hn ..

@[simp] theorem take_same (f : Node → Nat) : take f node node = f node - 1 :=
  Function.update_self ..

theorem take_of_ne (f : Node → Nat) {n : Node} (hn : n ≠ node) : take f node n = f n :=
  Function.update_of_ne hn ..

namespace Inv

/-- An inode that is not on the lists is not used. -/
theorem mem (h : Inv nodes chains c pending held opened)
    (hused : 0 < pending node ∨ 0 < held node ∨ 0 < opened node) : node ∈ nodes := by
  by_contra hout
  obtain ⟨hpending, hheld, hopened⟩ := h.unused node hout
  rw [hpending, hheld, hopened] at hused
  simp at hused

/-- The counters of one inode change, and what they count. -/
theorem change (h : Inv nodes chains c pending held opened) (hnode : node ∈ nodes)
    (hlists : c'.toLists = c.toLists) (hagree : ∀ n, n ≠ node → Agree c.toCounts c'.toCounts n)
    (hpending : ∀ n, n ≠ node → pending' n = pending n) (hheld : ∀ n, n ≠ node → held' n = held n)
    (hopened : ∀ n, n ≠ node → opened' n = opened n)
    (hcounted : Counted c'.toCounts node (pending' node) (held' node) (opened' node)) :
    Kept c c' pending' held' opened' := by
  refine ⟨⟨nodes, chains, ?_, ?_, ?_⟩, ?_⟩
  · rw [hlists]
    exact h.linked
  · intro n hn
    by_cases hne : n = node
    · rw [hne]
      exact hcounted
    · rw [hpending n hne, hheld n hne, hopened n hne]
      exact (h.counted n hn).congr (hagree n hne)
  · intro n hn
    have hne : n ≠ node := fun heq => hn (heq ▸ hnode)
    rw [hpending n hne, hheld n hne, hopened n hne]
    exact h.unused n hn
  · intro n hn hout
    have hheap : c'.heap = c.heap := congrArg Lists.heap hlists
    exact absurd hn (hheap ▸ hout)

/-- Fields that nothing counts change. -/
theorem frame (h : Inv nodes chains c pending held opened) (hlists : c'.toLists = c.toLists)
    (hagree : ∀ n, Agree c.toCounts c'.toCounts n) : Kept c c' pending held opened := by
  refine ⟨⟨nodes, chains, ?_, fun n hn => (h.counted n hn).congr (hagree n), h.unused⟩, ?_⟩
  · rw [hlists]
    exact h.linked
  · intro n hn hout
    have hheap : c'.heap = c.heap := congrArg Lists.heap hlists
    exact absurd hn (hheap ▸ hout)

/-! ## Steps -/

theorem load (h : Inv nodes chains c pending held opened) (ino : BitVec 32) {io : LoadIo}
    (hnew : ∀ node, io.node = some node → node ∉ c.heap) :
    Ends MayStop (sfsLoadInode ino io) c fun r c' =>
      match r with
      | .error _ => Kept c c' pending held opened
      | .ok node => Kept c c' pending (give held node) opened := by
  apply (sfsLoadInode_spec h.linked ino hnew).imp
  intro r c' hload
  cases r with
  | error ret =>
      subst hload
      exact h.frame rfl fun _ => ⟨rfl, rfl, rfl⟩
  | ok node =>
      obtain ⟨hagree, ⟨hnode, hlists, hcounted⟩ | ⟨hout, ⟨chains', hlinked⟩, hcounted⟩⟩ := hload
      · refine h.change hnode hlists hagree (fun _ _ => rfl) (fun n hn => give_of_ne _ hn)
          (fun _ _ => rfl) ?_
        rw [give_same]
        exact hcounted _ _ _ (h.counted node hnode)
      · obtain ⟨hpending, hheld, hopened⟩ := h.unused node hout
        refine ⟨⟨node :: nodes, chains', hlinked, ?_, ?_⟩, ?_⟩
        · intro n hn
          by_cases hne : n = node
          · rw [hne, give_same, hheld, hpending, hopened]
            exact hcounted
          · have hmem := (List.mem_cons.mp hn).resolve_left hne
            rw [give_of_ne _ hne]
            exact (h.counted n hmem).congr (hagree n hne)
        · intro n hn
          obtain ⟨hne, hmem⟩ := not_or.mp (mt List.mem_cons.mpr hn)
          rw [give_of_ne _ hne]
          exact h.unused n hmem
        · intro n hn hgone
          rw [h.linked.heap] at hn
          exact absurd ((hlinked.heap n).mpr (List.mem_cons_of_mem _ hn)) hgone

theorem refInc (h : Inv nodes chains c pending held opened) (hheld : 0 < held node) :
    Ends MayStop (inodeRefInc node) c fun _ c' => Kept c c' pending (give held node) opened := by
  have hnode := h.mem (Or.inr (Or.inl hheld))
  obtain ⟨hrefs, hopens, hle, hreclaims⟩ := h.counted node hnode
  rw [ends_inodeRefInc ((h.linked.heap node).mpr hnode)]
  refine h.change hnode rfl (fun n hn => ⟨Function.update_of_ne hn .., rfl, rfl⟩) (fun _ _ => rfl)
    (fun n hn => give_of_ne _ hn) (fun _ _ => rfl) ?_
  rw [give_same]
  constructor
  · simp [hrefs]
  · exact hopens
  · exact Nat.le_succ_of_le hle
  · simp [hreclaims, hheld]

/-- The last reference goes, and a reclaim is to come. -/
theorem refDec (h : Inv nodes chains c pending held opened) (hfree : opened node < held node) :
    Ends MayStop (inodeRefDec node) c fun reclaims c' =>
      Kept c c' (if reclaims then give pending node else pending) (take held node) opened := by
  have hheld : 0 < held node := Nat.zero_lt_of_lt hfree
  have hnode := h.mem (Or.inr (Or.inl hheld))
  have hlive := (h.linked.heap node).mpr hnode
  obtain ⟨hrefs, hopens, hle, hreclaims⟩ := h.counted node hnode
  have hpos : c.refCount node > 0 := hrefs ▸ hheld
  simp only [inodeRefDec, ends_bind, ends_live hlive, ends_get, ends_check hpos, ends_modify,
    Function.update_self]
  split
  next hlast =>
    have hzero : opened node = 0 := by omega
    have hcheck : c.openCount node ≤
        Function.update c.refCount node (c.refCount node - 1) node := by
      simp [hopens, hzero]
    simp only [ends_bind]
    apply (inodeCheck_spec (c := { c with
      refCount := Function.update c.refCount node (c.refCount node - 1) }) hlive hcheck).imp
    rintro _ c' rfl
    simp only [ends_pure, if_true]
    refine h.change hnode rfl (fun n hn => ⟨Function.update_of_ne hn .., rfl, rfl⟩)
      (fun n hn => give_of_ne _ hn) (fun n hn => take_of_ne _ hn) (fun _ _ => rfl) ?_
    rw [take_same, give_same]
    constructor
    · simp [hrefs]
    · exact hopens
    · omega
    · simp only [hreclaims, if_pos hheld]
      rw [if_neg (by omega)]
  next hmore =>
    simp only [ends_pure]
    refine h.change hnode rfl (fun n hn => ⟨Function.update_of_ne hn .., rfl, rfl⟩)
      (fun _ _ => rfl) (fun n hn => take_of_ne _ hn) (fun _ _ => rfl) ?_
    rw [take_same]
    constructor
    · simp [hrefs]
    · exact hopens
    · omega
    · simp only [hreclaims, if_pos hheld]
      rw [if_neg Bool.false_ne_true, if_pos (by omega)]

theorem reclaim (h : Inv nodes chains c pending held opened) (hpending : 0 < pending node)
    (io : ReclaimIo) :
    Ends MayStop (sfsReclaim node io) c fun _ c' => Kept c c' (take pending node) held opened := by
  have hnode := h.mem (Or.inl hpending)
  obtain ⟨hrefs, hopens, hle, hreclaims⟩ := h.counted node hnode
  have hcheck : c.openCount node ≤ c.refCount node := by rw [hrefs, hopens]; exact hle
  have hcount : 0 < c.reclaimCount node := by omega
  apply (sfsReclaim_spec h.linked hnode hcheck hcount).imp
  intro _ c' ⟨hagree, hstep⟩
  rcases hstep with ⟨hlists, hrefs', hopens', hreclaims'⟩ | ⟨hnoref, hone, chains', hlinked⟩
  · refine h.change hnode hlists hagree (fun n hn => take_of_ne _ hn) (fun _ _ => rfl)
      (fun _ _ => rfl) ?_
    rw [take_same]
    exact ⟨hrefs'.trans hrefs, hopens'.trans hopens, hle, by omega⟩
  · -- this was the last reclaim, and there are no references
    have hheld : held node = 0 := hrefs ▸ hnoref
    rw [hheld, if_neg (Nat.lt_irrefl 0)] at hreclaims
    have hlast : pending node - 1 = 0 := by omega
    have hmem : ∀ n, n ∈ nodes.erase node ↔ n ≠ node ∧ n ∈ nodes :=
      fun n => h.linked.nodup.mem_erase_iff
    refine ⟨⟨nodes.erase node, chains', hlinked, ?_, ?_⟩, ?_⟩
    · intro n hn
      obtain ⟨hne, hn⟩ := (hmem n).mp hn
      rw [take_of_ne _ hne]
      exact (h.counted n hn).congr (hagree n hne)
    · intro n hn
      by_cases hne : n = node
      · rw [hne, take_same]
        exact ⟨hlast, hheld, by omega⟩
      · rw [take_of_ne _ hne]
        exact h.unused n fun hin => hn ((hmem n).mpr ⟨hne, hin⟩)
    · intro n hn hgone
      rw [hlinked.heap, hmem] at hgone
      have hne : n = node := by
        by_contra hne
        exact hgone ⟨hne, (h.linked.heap n).mp hn⟩
      rw [hne, take_same]
      exact ⟨hheld, hlast⟩

theorem openInc (h : Inv nodes chains c pending held opened) (hfree : opened node < held node) :
    Ends MayStop (inodeOpenInc node) c fun _ c' => Kept c c' pending held (give opened node) := by
  have hnode := h.mem (Or.inr (Or.inl (Nat.zero_lt_of_lt hfree)))
  obtain ⟨hrefs, hopens, hle, hreclaims⟩ := h.counted node hnode
  simp only [inodeOpenInc, ends_bind, ends_live ((h.linked.heap node).mpr hnode), ends_modify]
  refine h.change hnode rfl (fun n hn => ⟨rfl, Function.update_of_ne hn .., rfl⟩) (fun _ _ => rfl)
    (fun _ _ => rfl) (fun n hn => give_of_ne _ hn) ?_
  rw [give_same]
  exact ⟨hrefs, by simp [hopens], hfree, hreclaims⟩

theorem openDec (h : Inv nodes chains c pending held opened) (hopen : 0 < opened node)
    (written : Int) :
    Ends MayStop (inodeOpenDec node written) c fun _ c' =>
      Kept c c' pending held (take opened node) := by
  have hnode := h.mem (Or.inr (Or.inr hopen))
  have hlive := (h.linked.heap node).mpr hnode
  obtain ⟨hrefs, hopens, hle, hreclaims⟩ := h.counted node hnode
  have hpos : c.openCount node > 0 := hopens ▸ hopen
  have hkept : ∀ dirty, Kept c { c with
      openCount := Function.update c.openCount node (c.openCount node - 1)
      dirty := dirty } pending held (take opened node) := by
    intro dirty
    refine h.change hnode rfl (fun n hn => ⟨rfl, Function.update_of_ne hn .., rfl⟩) (fun _ _ => rfl)
      (fun _ _ => rfl) (fun n hn => take_of_ne _ hn) ?_
    rw [take_same]
    exact ⟨hrefs, by simp [hopens], by omega, hreclaims⟩
  simp only [inodeOpenDec, ends_bind, ends_live hlive, ends_get, ends_check hpos, ends_modify,
    Function.update_self]
  split
  next hlast =>
    have hcheck : Function.update c.openCount node (c.openCount node - 1) node ≤
        c.refCount node := by
      simp [hlast]
    simp only [ends_bind]
    apply (inodeCheck_spec (c := { c with
      openCount := Function.update c.openCount node (c.openCount node - 1) }) hlive hcheck).imp
    rintro _ c' rfl
    apply (sfsFsync_spec (c := { c with
      openCount :=
        Function.update c.openCount node (c.openCount node - 1) }) hlive hcheck written).imp
    rintro _ c' ⟨dirty, rfl⟩
    exact hkept dirty
  next => exact hkept c.dirty

end Inv

end Steps

/-! ## Runs -/

variable {nodes : List Node} {chains : Fin SFS_HLIST_SIZE → List Node} {node : Node}
  {Proc : Type} [Fintype Proc] [DecidableEq Proc] {sys sys' sys₀ : Shared Proc} {p : Proc}

/-- The number of processes that are about to reclaim an inode. -/
def Shared.pending (sys : Shared Proc) (node : Node) : Nat :=
  (Finset.univ.filter fun p => sys.reclaiming p = some node).card

/-- The reclaims to come by `p`, and those by the others. -/
theorem Shared.pending_split (sys : Shared Proc) (p : Proc) (node : Node) :
    sys.pending node =
      (sys.reclaiming p).toList.count node + (others id sys.reclaiming p).count node := by
  have hcount : sys.pending node = (census id sys.reclaiming).count node := by
    apply card_filter_census (fun m => node = m) (fun b => b = some node)
    intro b
    constructor
    · rintro rfl
      exact ⟨node, rfl, rfl⟩
    · rintro ⟨m, hm, rfl⟩
      exact hm
  rw [hcount, census_eq id sys.reclaiming p, Multiset.count_add, Multiset.coe_count, id]

/-- A process is about to reclaim one inode more. -/
theorem pending_give (hidle : sys.reclaiming p = none) :
    { sys with reclaiming := Function.update sys.reclaiming p (some node) }.pending =
      give sys.pending node := by
  funext n
  rw [Shared.pending_split _ p, others_update]
  simp only [Function.update_self]
  by_cases hn : n = node
  · rw [hn, give_same, sys.pending_split p, hidle]
    simp [Nat.add_comm]
  · rw [give_of_ne _ hn, sys.pending_split p, hidle]
    simp [Ne.symm hn]

theorem pending_take (hbusy : sys.reclaiming p = some node) :
    { sys with reclaiming := Function.update sys.reclaiming p none }.pending =
      take sys.pending node := by
  funext n
  rw [Shared.pending_split _ p, others_update]
  simp only [Function.update_self]
  by_cases hn : n = node
  · rw [hn, take_same, sys.pending_split p, hbusy]
    simp
  · rw [take_of_ne _ hn, sys.pending_split p, hbusy]
    simp [Ne.symm hn]

def Shared.Ordered (sys : Shared Proc) : Prop :=
  ∃ nodes chains, Inv nodes chains sys.cache sys.pending sys.held sys.opened

/-- A step keeps the order, unless the kernel stops. -/
def Steps (sys : Shared Proc) : Except Stop (Shared Proc) → Prop
  | .ok sys' => Kept sys.cache sys'.cache sys'.pending sys'.held sys'.opened
  | .error e => MayStop e

omit [Fintype Proc] [DecidableEq Proc] in
/-- Code that runs on the cache. -/
theorem Shared.after_spec {α : Type} {x : CacheM α} {next : α → Shared Proc}
    {P : Except Stop (Shared Proc) → Prop}
    (hends : Ends (fun e => P (.error e)) x sys.cache fun a c =>
      P (.ok { next a with cache := c })) :
    P (sys.after x next) := by
  unfold Ends at hends
  unfold Shared.after
  cases hx : x sys.cache with
  | error e =>
      rw [hx] at hends
      exact hends
  | ok r =>
      rw [hx] at hends
      exact hends

theorem act_spec (h : sys.Ordered) (a : Action Proc) (hok : Permitted sys a) :
    Steps sys (act sys a) := by
  obtain ⟨nodes, chains, hinv⟩ := h
  cases a with
  | load p ino io =>
      apply Shared.after_spec
      apply (hinv.load ino hok.2).imp
      intro r c' hkept
      cases r with
      | error ret => exact hkept
      | ok node => exact hkept
  | refInc p node => exact Shared.after_spec (hinv.refInc hok.2)
  | refDec p node =>
      apply Shared.after_spec
      apply (hinv.refDec hok.2).imp
      intro reclaims c' hkept
      cases reclaims with
      | true =>
          change Kept sys.cache c'
            { sys with reclaiming := Function.update sys.reclaiming p (some node) }.pending _ _
          rw [pending_give hok.1]
          exact hkept
      | false => exact hkept
  | reclaim p node io =>
      have hpending : 0 < sys.pending node :=
        Finset.card_pos.mpr ⟨p, Finset.mem_filter.mpr ⟨Finset.mem_univ p, hok⟩⟩
      apply Shared.after_spec
      apply (hinv.reclaim hpending io).imp
      intro ret c' hkept
      change Kept sys.cache c'
        { sys with reclaiming := Function.update sys.reclaiming p none }.pending _ _
      rw [pending_take hok]
      exact hkept
  | openInc p node => exact Shared.after_spec (hinv.openInc hok.2)
  | openDec p node written => exact Shared.after_spec (hinv.openDec hok.2 written)
  | change p node nlinks dirty => exact hinv.frame rfl fun _ => ⟨rfl, rfl, rfl⟩

omit [DecidableEq Proc] in
theorem Started.ordered (h : Started sys) : sys.Ordered := by
  obtain ⟨⟨c, hcache⟩, hheld, hopened, hidle⟩ := h
  have hpending : sys.pending = fun _ => 0 := by
    funext n
    simp [Shared.pending, hidle]
  refine ⟨[], fun _ => [], ?_, nofun, fun n _ => ⟨congrFun hpending n, hheld n, hopened n⟩⟩
  rw [hcache]
  refine ⟨listInit_ring _ _, ⟨fun i => ?_, nofun⟩, by simp [Buckets.Holds], ?_, List.nodup_nil⟩
  · apply listInitAll_ring
    exact List.mem_map_of_mem (List.mem_finRange i)
  · simp [Cache.mounted]

theorem step_ordered (h : sys.Ordered) (a : Action Proc) (hok : Permitted sys a)
    (hstep : step sys a = some sys') : Kept sys.cache sys'.cache sys'.pending sys'.held
      sys'.opened := by
  have hact := act_spec h a hok
  unfold step at hstep
  cases hr : act sys a with
  | error e =>
      rw [hr] at hstep
      cases hstep
  | ok next =>
      rw [hr] at hstep hact
      obtain rfl : next = sys' := Option.some.inj hstep
      exact hact

theorem run_ordered (hstart : Started sys₀) (hrun : RunsTo step Permitted sys₀ sys) : sys.Ordered :=
  hrun.invariant hstart.ordered fun _ a _ hordered hok hstep =>
    (step_ordered hordered a hok hstep).inv

/-- What a caller may rely on between two steps: one inode for each number, found on both lists,
with the counts that its users account for. -/
structure Consistent (sys : Shared Proc) : Prop where
  unique : ∀ m ∈ sys.cache.heap, ∀ n ∈ sys.cache.heap, sys.cache.ino m = sys.cache.ino n → m = n
  listed : ∃ nodes : List Node, sys.cache.inodeList.Ring .inodeList (nodes.map .inodeLink) ∧
    ∀ n, n ∈ nodes ↔ n ∈ sys.cache.heap
  hashed : ∀ i, ∃ chain : List Node, sys.cache.hashList.Ring (.hashList i) (chain.map .hashLink) ∧
    ∀ n, n ∈ chain ↔ n ∈ sys.cache.heap ∧ sinHashfn (sys.cache.ino n) = i
  refs : ∀ n ∈ sys.cache.heap, sys.cache.refCount n = sys.held n
  reclaims : ∀ n ∈ sys.cache.heap,
    sys.cache.reclaimCount n = sys.pending n + if 0 < sys.cache.refCount n then 1 else 0
  /-- What is referred to, or about to be reclaimed, is allocated. -/
  live : ∀ n, 0 < sys.held n ∨ 0 < sys.pending n → n ∈ sys.cache.heap

omit [DecidableEq Proc] in
theorem Inv.consistent
    (h : Inv nodes chains sys.cache sys.pending sys.held sys.opened) : Consistent sys where
  unique m hm n hn := h.linked.ino_inj ((h.linked.heap m).mp hm) ((h.linked.heap n).mp hn)
  listed := ⟨nodes, h.linked.list, fun n => (h.linked.heap n).symm⟩
  hashed i := ⟨chains i, h.linked.table.ring i, fun n => by
    rw [h.linked.heap]
    exact h.linked.holds i n⟩
  refs n hn := (h.counted n ((h.linked.heap n).mp hn)).refs
  reclaims n hn := by
    have hcounted := h.counted n ((h.linked.heap n).mp hn)
    rw [hcounted.refs]
    exact hcounted.reclaims
  live n hused := (h.linked.heap n).mpr (h.mem (hused.elim (fun hp => Or.inr (Or.inl hp)) Or.inl))

/-- The inode cache stays consistent over every run: one inode for each number, on each
list once, with a `reclaim_count` of the reclaims to come and one more while there are
references. No assertion fails but those on what is read from the disk and on the number
of references, no inode is used or given back when it is not allocated, and one that is
given back has no reference and no reclaim to come. -/
theorem inodeCache_consistent (hstart : Started sys₀) (hrun : RunsTo step Permitted sys₀ sys) :
    Consistent sys ∧ ∀ a, Permitted sys a →
      (∀ e, act sys a = .error e → e = .blockInuse ∨ e = .noLinks ∨ e = .tooMany) ∧
      ∀ sys', step sys a = some sys' → ∀ n ∈ sys.cache.heap, n ∉ sys'.cache.heap →
        sys'.held n = 0 ∧ ∀ p, sys'.reclaiming p ≠ some n := by
  have hordered := run_ordered hstart hrun
  constructor
  · obtain ⟨nodes, chains, hinv⟩ := hordered
    exact hinv.consistent
  · intro a hok
    constructor
    · intro e herror
      have hact := act_spec hordered a hok
      rw [herror] at hact
      exact hact
    · intro sys' hstep n hn hgone
      obtain ⟨hheld, hpending⟩ := (step_ordered hordered a hok hstep).freed n hn hgone
      refine ⟨hheld, fun p hp => ?_⟩
      have hempty := Finset.card_eq_zero.mp hpending
      have hmem : p ∈ Finset.univ.filter fun p => sys'.reclaiming p = some n := by simpa using hp
      rw [hempty] at hmem
      exact absurd hmem (Finset.notMem_empty p)

/-- A file system that has just been mounted, in zeroed memory. -/
def mountedSys : Shared Bool where
  cache := Cache.mounted {
    inodeList := ⟨fun _ => .inodeList, fun _ => .inodeList⟩
    hashList := ⟨fun e => e, fun e => e⟩
    ino := fun _ => 0
    heap := ∅
    reclaimCount := fun _ => 0
    refCount := fun _ => 0
    openCount := fun _ => 0
    dirty := fun _ => false
    nlinks := fun _ => 0 }
  held := fun _ => 0
  opened := fun _ => 0
  reclaiming := fun _ => none

/-- A process drops the last reference, and another one looks the inode up before the
reclaim has run. -/
def resurrect : List (Action Bool) :=
  [.load true 5 ⟨true, true, 0, 1, some 100⟩, .refDec true 100,
    .load false 5 ⟨true, true, 0, 1, none⟩]

theorem inodeCache_consistent_resurrect : ∃ sys : Shared Bool, 100 ∈ sys.cache.heap ∧
    sys.reclaiming true = some 100 ∧ sys.cache.reclaimCount 100 = 2 ∧ Consistent sys := by
  have hfold : (resurrect.foldlM (fun sys a => if Permitted sys a then step sys a else none)
      mountedSys).map (fun sys => (decide (100 ∈ sys.cache.heap), sys.reclaiming true,
        sys.cache.reclaimCount 100)) = some (true, some 100, 2) := by
    decide +kernel
  obtain ⟨sys, hrun, hvalues⟩ := Option.map_eq_some_iff.mp hfold
  simp only [Prod.mk.injEq, decide_eq_true_eq] at hvalues
  have hstart : Started mountedSys := ⟨⟨_, rfl⟩, fun _ => rfl, fun _ => rfl, fun _ => rfl⟩
  exact ⟨sys, hvalues.1, hvalues.2.1, hvalues.2.2,
    (inodeCache_consistent hstart (RunsTo.of_foldlM hrun)).1⟩

end Ucore.Fs.Inode
