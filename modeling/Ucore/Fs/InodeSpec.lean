import Ucore.Fs.InodeCache
import Ucore.Libs.Buckets

/-!
# What the functions of the inode cache do

`Linked` says which inodes are on the lists, and `Counted` what the counters of an inode
count. Every action keeps both.
-/

namespace Ucore.Fs.Inode

open Machine Links

/-- The inodes `nodes` are on the inode list and in the hash table, one for each number. -/
structure Linked (nodes : List Node) (chains : Fin SFS_HLIST_SIZE → List Node) (l : Lists) :
    Prop where
  list : l.inodeList.Ring .inodeList (nodes.map .inodeLink)
  table : l.hashList.Buckets .hashList .hashLink (fun n => sinHashfn (l.ino n)) chains
  holds : Buckets.Holds (fun n => sinHashfn (l.ino n)) chains nodes
  heap : ∀ n, n ∈ l.heap ↔ n ∈ nodes
  inos : (nodes.map l.ino).Nodup

/-- The counters of an inode to which callers hold `held` references, `opened` of them
open files, and which is about to be reclaimed `pending` times. -/
structure Counted (k : Counts) (node : Node) (pending held opened : Nat) : Prop where
  refs : k.refCount node = held
  opens : k.openCount node = opened
  le : opened ≤ held
  reclaims : k.reclaimCount node = pending + if 0 < held then 1 else 0

variable {nodes : List Node} {chains : Fin SFS_HLIST_SIZE → List Node} {l : Lists} {c : Cache}
  {k : Counts} {node : Node} {ino : BitVec 32} {pending held opened : Nat} {E : Stop → Prop}

/-! ## The lists -/

namespace Linked

theorem nodup (h : Linked nodes chains l) : nodes.Nodup := by
  have hlist := (List.nodup_cons.mp h.list.nodup).2
  exact List.Nodup.of_map _ hlist

theorem ino_inj (h : Linked nodes chains l) {m n : Node} (hm : m ∈ nodes) (hn : n ∈ nodes)
    (heq : l.ino m = l.ino n) : m = n :=
  List.inj_on_of_nodup_map h.inos hm hn heq

theorem lookupFrom_visits {i : Fin SFS_HLIST_SIZE} {le : HashEntry} {xs : List Node} {fuel : Nat}
    (hwalk : Visits l.hashList.next (.hashList i) le (xs.map .hashLink))
    (hfuel : xs.length < fuel) :
    lookupFrom l ino i fuel le = some (xs.find? fun n => l.ino n = ino) := by
  induction xs generalizing le fuel with
  | nil =>
      obtain ⟨m, rfl⟩ := Nat.exists_eq_add_one.mpr hfuel
      have hend : l.hashList.next le = .hashList i := hwalk
      simp [lookupFrom, hend]
  | cons x xs ih =>
      obtain ⟨m, rfl⟩ := Nat.exists_eq_add_one.mpr (Nat.zero_lt_of_lt hfuel)
      obtain ⟨hstep, _, hrest⟩ := hwalk
      have hih := ih hrest (by simpa using hfuel)
      by_cases hx : l.ino x = ino
      · simp [lookupFrom, hstep, hx]
      · simp [lookupFrom, hstep, hx, hih]

/-- The loop over a list of the hash table finds the inode with a number. -/
theorem lookupFrom_eq (h : Linked nodes chains l) (ino : BitVec 32) :
    ∃ r, lookupFrom l ino (sinHashfn ino) (l.heap.card + 1) (.hashList (sinHashfn ino)) = some r ∧
      (∀ n, r = some n → n ∈ nodes ∧ l.ino n = ino) ∧ (r = none → ino ∉ nodes.map l.ino) := by
  have hsub : chains (sinHashfn ino) ⊆ nodes := fun n hn => ((h.holds _ n).mp hn).1
  have hcard : nodes.length = l.heap.card := by
    have hheap : l.heap = nodes.toFinset := by
      ext n
      rw [h.heap, List.mem_toFinset]
    rw [hheap, List.toFinset_card_of_nodup h.nodup]
  have hlen := h.table.length_le hsub
  refine ⟨_, lookupFrom_visits (h.table.ring (sinHashfn ino)).visits_next
    (Nat.lt_succ_of_le (hcard ▸ hlen)), ?_, ?_⟩
  · intro n hn
    exact ⟨hsub (List.mem_of_find?_eq_some hn), by simpa using List.find?_some hn⟩
  · intro hnone hmem
    obtain ⟨n, hn, rfl⟩ := List.mem_map.mp hmem
    have hne := List.find?_eq_none.mp hnone n ((h.holds _ n).mpr ⟨hn, rfl⟩)
    simp at hne

theorem hashList_injective : Function.Injective HashEntry.hashList :=
    fun _ _ => HashEntry.hashList.inj

theorem hashLink_injective : Function.Injective HashEntry.hashLink :=
    fun _ _ => HashEntry.hashLink.inj

/-- A new inode with a number that no other one has goes on the lists. -/
theorem push (h : Linked nodes chains l) (hnew : node ∉ l.heap) (hino : ino ∉ nodes.map l.ino) :
    ∃ chains', Linked (node :: nodes) chains' {
      inodeList := l.inodeList.listAdd .inodeList (.inodeLink node)
      hashList := l.hashList.listAdd (.hashList (sinHashfn ino)) (.hashLink node)
      ino := Function.update l.ino node ino
      heap := insert node l.heap } := by
  have hout : node ∉ nodes := fun hmem => hnew ((h.heap node).mpr hmem)
  have hsame : ∀ n ∈ nodes, Function.update l.ino node ino n = l.ino n :=
    fun n hn => Function.update_of_ne (ne_of_mem_of_not_mem hn hout) _ _
  have hchain : ∀ i, ∀ n ∈ chains i, n ∈ nodes := fun i n hn => ((h.holds i n).mp hn).1
  have hself : Function.update l.ino node ino node = ino := Function.update_self ..
  have htable : l.hashList.Buckets .hashList .hashLink
      (fun n => sinHashfn (Function.update l.ino node ino n)) chains :=
    h.table.congr fun i n hn => by rw [hsame n (hchain i n hn)]
  have hholds : Buckets.Holds (fun n => sinHashfn (Function.update l.ino node ino n))
      chains nodes := by
    intro i n
    rw [h.holds i n]
    exact and_congr_right fun hn => by simp only [hsame n hn]
  have hring : l.inodeList.Ring .inodeList ([] ++ nodes.map .inodeLink) := h.list
  have hadd := htable.add hashList_injective hashLink_injective nofun
    fun i hmem => hout (hchain i node hmem)
  simp only [hself] at hadd
  have hmap : (node :: nodes).map (Function.update l.ino node ino) = ino :: nodes.map l.ino := by
    rw [List.map_cons, hself, List.map_congr_left hsame]
  refine ⟨_, hring.listAdd (by simpa using hout), hadd, ?_, ?_, ?_⟩
  · have hhold := hholds.add (a := node)
    simp only [hself] at hhold
    exact hhold
  · intro n
    rw [Finset.mem_insert, List.mem_cons, h.heap]
  · rw [hmap]
    exact List.nodup_cons.mpr ⟨hino, h.inos⟩

/-- An inode goes off the lists. -/
theorem remove (h : Linked nodes chains l) (hnode : node ∈ nodes) :
    ∃ chains', Linked (nodes.erase node) chains' {
      inodeList := l.inodeList.listDel (.inodeLink node)
      hashList := l.hashList.listDel (.hashLink node)
      ino := l.ino
      heap := l.heap.erase node } := by
  obtain ⟨xs, ys, hsplit⟩ := List.append_of_mem hnode
  have hnodup := h.nodup
  rw [hsplit, List.nodup_append] at hnodup
  have hxs : node ∉ xs := fun hmem => hnodup.2.2 _ hmem _ List.mem_cons_self rfl
  have hring := h.list
  rw [hsplit, List.map_append, List.map_cons] at hring
  refine ⟨_, ?_, h.table.remove hashList_injective hashLink_injective nofun (h.holds.mem hnode),
    h.holds.remove h.nodup (h.table.nodup _), ?_, ?_⟩
  · rw [hsplit, List.erase_append_right _ hxs, List.erase_cons_head, List.map_append]
    exact hring.listDel
  · intro n
    rw [Finset.mem_erase, h.nodup.mem_erase_iff, h.heap]
  · exact h.inos.sublist (List.erase_sublist.map l.ino)

end Linked

/-! ## The functions -/

theorem ends_live (hnode : node ∈ c.heap) {Q : PUnit → Cache → Prop} :
    Ends E (live node) c Q ↔ Q ⟨⟩ c := by
  simp only [live, ends_bind, ends_get, ends_check hnode]

theorem ends_inodeRefInc (hnode : node ∈ c.heap) {Q : Nat → Cache → Prop} :
    Ends E (inodeRefInc node) c Q ↔ Q (c.refCount node + 1)
      { c with refCount := Function.update c.refCount node (c.refCount node + 1) } := by
  simp only [inodeRefInc, ends_bind, ends_live hnode, ends_modify, ends_get, ends_pure,
    Function.update_self]

/-- The ways in which the kernel may stop: what `sfs_load_inode` reads is not an inode,
or there are too many references. -/
def MayStop (e : Stop) : Prop := e = .blockInuse ∨ e = .noLinks ∨ e = .tooMany

theorem inodeCheck_spec (hnode : node ∈ c.heap) (hopen : c.openCount node ≤ c.refCount node) :
    Ends MayStop (inodeCheck node) c fun _ c' => c' = c := by
  simp only [inodeCheck, ends_bind, ends_live hnode, ends_get, ends_check hopen]
  unfold check
  split
  · exact rfl
  · exact Or.inr (Or.inr rfl)

/-- Writing an inode changes its `dirty` flag only. -/
theorem sfsFsync_spec (hnode : node ∈ c.heap) (hopen : c.openCount node ≤ c.refCount node)
    (written : Int) :
    Ends MayStop (sfsFsync node written) c fun _ c' => ∃ dirty, c' = { c with dirty := dirty } := by
  simp only [sfsFsync, ends_bind, ends_get]
  apply (inodeCheck_spec hnode hopen).imp
  intro _ c' hsame
  subst hsame
  split
  · exact ⟨_, rfl⟩
  · exact ⟨_, rfl⟩

/-- What the counters say after `lookup_sfs_nolock` has found an inode. -/
theorem Counted.lookup (h : Counted k node pending held opened) :
    Counted { k with
      refCount := Function.update k.refCount node (k.refCount node + 1)
      reclaimCount := if k.refCount node + 1 = 1 then
        Function.update k.reclaimCount node (k.reclaimCount node + 1) else k.reclaimCount }
      node pending (held + 1) opened := by
  obtain ⟨hrefs, hopens, hle, hreclaims⟩ := h
  constructor
  · simp [hrefs]
  · exact hopens
  · exact Nat.le_succ_of_le hle
  · -- the first reference counts for the reclaim that its end will cause
    by_cases hzero : held = 0
    · simp [hrefs, hzero, hreclaims]
    · simp [hrefs, hzero, hreclaims, Nat.pos_of_ne_zero hzero]

/-- Two states of the counters agree about an inode. -/
structure Agree (k k' : Counts) (n : Node) : Prop where
  refs : k'.refCount n = k.refCount n
  opens : k'.openCount n = k.openCount n
  reclaims : k'.reclaimCount n = k.reclaimCount n

theorem Counted.congr (h : Counted k node pending held opened) {k' : Counts}
    (hk : Agree k k' node) :
    Counted k' node pending held opened :=
  ⟨hk.refs.trans h.refs, hk.opens.trans h.opens, h.le, hk.reclaims.trans h.reclaims⟩

/-- The state after `sfs_load_inode` has returned `node`: it was in memory, or it has
been created. -/
def Loaded (nodes : List Node) (c : Cache) (node : Node) (c' : Cache) : Prop :=
  (∀ n, n ≠ node → Agree c.toCounts c'.toCounts n) ∧
    (node ∈ nodes ∧ c'.toLists = c.toLists ∧ (∀ pending held opened,
        Counted c.toCounts node pending held opened →
          Counted c'.toCounts node pending (held + 1) opened) ∨
      node ∉ nodes ∧ (∃ chains', Linked (node :: nodes) chains' c'.toLists) ∧
        Counted c'.toCounts node 0 1 0)

theorem lookupSfsNolock_spec (h : Linked nodes chains c.toLists) (ino : BitVec 32) :
    Ends never (lookupSfsNolock ino) c fun r c' =>
      match r with
      | none => c' = c ∧ ino ∉ nodes.map c.ino
      | some node => Loaded nodes c node c' := by
  obtain ⟨r, hr, hsome, hnone⟩ := h.lookupFrom_eq ino
  simp only [lookupSfsNolock, ends_bind, ends_get, hr]
  cases r with
  | none => exact ⟨rfl, hnone rfl⟩
  | some node =>
      have hmem := (hsome node rfl).1
      simp only [ends_bind, ends_inodeRefInc ((h.heap node).mpr hmem)]
      have hother : ∀ n, n ≠ node → ∀ v : Nat, Function.update c.refCount node v n = c.refCount n :=
        fun n hn v => Function.update_of_ne hn ..
      split
      next hone =>
        simp only [ends_bind, ends_modify, ends_pure]
        refine ⟨fun n hn => ⟨hother n hn _, rfl, Function.update_of_ne hn ..⟩,
          Or.inl ⟨hmem, rfl, fun pending held opened hcounted => ?_⟩⟩
        have hlookup := hcounted.lookup
        rw [if_pos hone] at hlookup
        exact hlookup
      next hmore =>
        refine ⟨fun n hn => ⟨hother n hn _, rfl, rfl⟩,
          Or.inl ⟨hmem, rfl, fun pending held opened hcounted => ?_⟩⟩
        have hlookup := hcounted.lookup
        rw [if_neg hmore] at hlookup
        exact hlookup

/-- A new inode, once `sfs_create_inode` and `sfs_set_links` have run. -/
theorem sfsCreateInode_spec (h : Linked nodes chains c.toLists) (hnew : node ∉ c.heap)
    (hino : ino ∉ nodes.map c.ino) (nlinks : Nat) :
    Ends never (do sfsCreateInode node ino nlinks; sfsSetLinks node) c fun _ c' =>
      Loaded nodes c node c' := by
  have hmem : node ∈ insert node c.heap := Finset.mem_insert_self ..
  have hlive : ∀ Q : Nat → Cache → Prop, Ends never (inodeRefInc node) { c with
      heap := insert node c.heap
      refCount := Function.update c.refCount node 0
      openCount := Function.update c.openCount node 0 } Q ↔ _ := fun Q => ends_inodeRefInc hmem
  simp only [sfsCreateInode, sfsSetLinks, ends_bind, ends_modify, hlive, Function.update_self,
    Function.update_idem]
  have hout : node ∉ nodes := fun hnode => hnew ((h.heap node).mpr hnode)
  refine ⟨fun n hn => ⟨Function.update_of_ne hn .., Function.update_of_ne hn ..,
    Function.update_of_ne hn ..⟩, Or.inr ⟨hout, h.push hnew hino, ?_⟩⟩
  constructor
  · exact Function.update_self ..
  · exact Function.update_self ..
  · exact Nat.zero_le 1
  · exact Function.update_self ..

theorem sfsLoadInode_spec (h : Linked nodes chains c.toLists) (ino : BitVec 32) {io : LoadIo}
    (hnew : ∀ node, io.node = some node → node ∉ c.heap) :
    Ends MayStop (sfsLoadInode ino io) c fun r c' =>
      match r with
      | .error _ => c' = c
      | .ok node => Loaded nodes c node c' := by
  simp only [sfsLoadInode, ends_bind]
  apply (lookupSfsNolock_spec h ino).lift
  intro r c' hlookup
  cases r with
  | some node => exact hlookup
  | none =>
      obtain ⟨rfl, hino⟩ := hlookup
      dsimp only
      split
      · exact rfl
      · simp only [ends_bind, check]
        split
        · simp only [ends_pure]
          split
          · exact rfl
          · simp only [ends_bind]
            split
            · simp only [ends_pure]
              split
              next => exact rfl
              next node hnode =>
                have hcreate := sfsCreateInode_spec h (hnew node hnode) hino io.nlinks
                simp only [ends_bind] at hcreate ⊢
                exact hcreate.lift fun _ _ hset => hset.lift fun _ _ hloaded => hloaded
            · exact Or.inr (Or.inl rfl)
        · exact Or.inl rfl

/-- What `sfs_reclaim` does: it leaves the inode, with one pending reclaim less, or gives
it back. -/
def Reclaimed (nodes : List Node) (c : Cache) (node : Node) (c' : Cache) : Prop :=
  (∀ n, n ≠ node → Agree c.toCounts c'.toCounts n) ∧
    (c'.toLists = c.toLists ∧ c'.refCount node = c.refCount node ∧
        c'.openCount node = c.openCount node ∧ c'.reclaimCount node = c.reclaimCount node - 1 ∨
      c.refCount node = 0 ∧ c.reclaimCount node = 1 ∧
        ∃ chains', Linked (nodes.erase node) chains' c'.toLists)

theorem sfsDiscard_spec (h : Linked nodes chains c.toLists) (hnode : node ∈ nodes)
    (hrefs : c.refCount node = 0) (hopens : c.openCount node = 0) :
    Ends never (sfsDiscard node) c fun _ c' => c'.toCounts = c.toCounts ∧
      ∃ chains', Linked (nodes.erase node) chains' c'.toLists := by
  simp only [sfsDiscard, sfsRemoveLinks, ends_bind, ends_modify, inodeKill]
  have hlive : node ∈ ({ c with
      inodeList := c.inodeList.listDel (.inodeLink node)
      hashList := c.hashList.listDel (.hashLink node) } : Cache).heap := (h.heap node).mpr hnode
  rw [ends_live (E := never) hlive]
  simp only [ends_get, ends_check hrefs, ends_check hopens, ends_pure, true_and]
  exact h.remove hnode

/-- Neither `vop_truncate` nor `vop_fsync` changes a counter or a list. -/
theorem sfsFlush_spec {io : ReclaimIo} (h : Linked nodes chains c.toLists) (hnode : node ∈ nodes)
    (hrefs : c.refCount node = 0) (hopens : c.openCount node = 0) :
    Ends MayStop (sfsFlush node io) c fun _ c' => (∀ n, Agree c.toCounts c'.toCounts n) ∧
      (c'.toLists = c.toLists ∨ ∃ chains', Linked (nodes.erase node) chains' c'.toLists) := by
  have hle : c.openCount node ≤ c.refCount node := by rw [hopens, hrefs]
  have hdiscard : ∀ dirty, Ends MayStop (sfsDiscard node) { c with dirty := dirty } fun _ c' =>
      (∀ n, Agree c.toCounts c'.toCounts n) ∧
        (c'.toLists = c.toLists ∨ ∃ chains', Linked (nodes.erase node) chains' c'.toLists) := by
    intro dirty
    have hlinked : Linked nodes chains ({ c with dirty := dirty } : Cache).toLists := h
    apply (sfsDiscard_spec hlinked hnode hrefs hopens).lift
    intro _ c' ⟨hcounts, hremoved⟩
    refine ⟨fun n => ?_, Or.inr hremoved⟩
    rw [hcounts]
    exact ⟨rfl, rfl, rfl⟩
  simp only [sfsFlush, ends_bind, ends_get]
  split
  · simp only [ends_bind]
    apply (sfsFsync_spec ((h.heap node).mpr hnode) hle io.written).imp
    rintro ret c' ⟨dirty, rfl⟩
    split
    · exact ⟨fun n => ⟨rfl, rfl, rfl⟩, Or.inl rfl⟩
    · exact hdiscard dirty
  · exact hdiscard c.dirty

theorem sfsReclaim_spec {io : ReclaimIo} (h : Linked nodes chains c.toLists) (hnode : node ∈ nodes)
    (hopen : c.openCount node ≤ c.refCount node) (hpending : 0 < c.reclaimCount node) :
    Ends MayStop (sfsReclaim node io) c fun _ c' => Reclaimed nodes c node c' := by
  have hlive := (h.heap node).mpr hnode
  have hother : ∀ n, n ≠ node → ∀ v : Nat, Function.update c.reclaimCount node v n =
      c.reclaimCount n :=
    fun n hn v => Function.update_of_ne hn ..
  simp only [sfsReclaim, ends_bind, ends_live hlive, ends_get, ends_check hpending, ends_modify,
    Function.update_self]
  split
  next =>
    exact ⟨fun n hn => ⟨rfl, rfl, hother n hn _⟩, Or.inl ⟨rfl, rfl, rfl, Function.update_self ..⟩⟩
  next hlast =>
    simp only [not_or, not_not] at hlast
    obtain ⟨hcount, hrefs⟩ := hlast
    have hopens : c.openCount node = 0 := by omega
    have hone : c.reclaimCount node = 1 := by omega
    -- whatever happens to the file, the counters are those after the decrement
    have hflush : ∀ dirty, Ends MayStop (sfsFlush node io) { c with
        reclaimCount := Function.update c.reclaimCount node (c.reclaimCount node - 1)
        dirty := dirty } fun _ c' => Reclaimed nodes c node c' := by
      intro dirty
      have hlinked : Linked nodes chains ({ c with
        reclaimCount := Function.update c.reclaimCount node (c.reclaimCount node - 1)
        dirty := dirty } : Cache).toLists := h
      apply (sfsFlush_spec hlinked hnode hrefs hopens).imp
      rintro _ c' ⟨hagree, hlists⟩
      refine ⟨fun n hn =>
        ⟨(hagree n).refs, (hagree n).opens, (hagree n).reclaims.trans (hother n hn _)⟩, ?_⟩
      rcases hlists with hlists | hremoved
      · exact Or.inl ⟨hlists, (hagree node).refs, (hagree node).opens,
          (hagree node).reclaims.trans (Function.update_self ..)⟩
      · exact Or.inr ⟨hrefs, hone, hremoved⟩
    split
    · simp only [ends_bind, vopTruncate]
      apply (inodeCheck_spec (c := { c with
        reclaimCount :=
          Function.update c.reclaimCount node (c.reclaimCount node - 1) }) hlive hopen).imp
      rintro _ c' rfl
      simp only [ends_modify, ends_pure]
      split
      · exact ⟨fun n hn => ⟨rfl, rfl, hother n hn _⟩,
          Or.inl ⟨rfl, rfl, rfl, Function.update_self ..⟩⟩
      · exact hflush _
    · exact hflush c.dirty

end Ucore.Fs.Inode
