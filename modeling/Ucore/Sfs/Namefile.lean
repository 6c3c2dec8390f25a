import Ucore.Sfs.InMemory

/-!
# The path of a directory

`sfs_namefile` of `kern/fs/sfs/sfs_inode.c` in lab 8. It climbs from a directory to the
root, looks every directory up in its parent and writes the names into the buffer of the
caller from the end on, each before those it has; then it moves them to the front.
-/

namespace Ucore.Sfs

open Machine

/-- The names of the two entries that every directory has. -/
def dotName : List Byte := [46]

def dotdotName : List Byte := [46, 46]

def slash : Byte := 47

section Model

variable (heap : Nat → Bool) (io : Nat → Int)

/-- The loop of `sfs_dirent_findino_nolock`, from slot `i` on. -/
def findinoSlots (node ino : BitVec 32) : Nat → Nat → SfsM (Except Int DiskEntry)
  | 0, _ => return .error (-E_NOENT)
  | left + 1, i => do
      match ← sfsDirentReadNolock io node i with
      | .error ret => return .error ret
      | .ok entry =>
          if entry.ino = ino then return .ok entry else findinoSlots node ino left (i + 1)

/-- `nslots` is an `int`. -/
def sfsDirentFindinoNolock (node ino : BitVec 32) : SfsM (Except Int DiskEntry) := do
  let nslots := ((← get).sin node).din.blocks.toInt
  findinoSlots io node ino nslots.toNat 0

/-- The pointer into the buffer, as an index of it, the room that is left before it, and the
contents of the buffer. -/
structure Cursor where
  ptr : Nat
  resid : Nat
  base : Bytes

/-- A name with a slash behind it goes before what is written already. -/
def Cursor.prepend (c : Cursor) (entry : DiskEntry) : Cursor :=
  let alen := entry.string.length + 1
  let ptr := c.ptr - alen
  let base := splice ptr (alen - 1) entry.name c.base
  { ptr, resid := c.resid - alen, base := Function.update base (ptr + (alen - 1)) slash }

/-- The loop of `sfs_namefile`; at the end a reference to the directory is given back. -/
def namefileLoop : Nat → BitVec 32 → Cursor → StoreM (Int × Cursor)
  | 0, _, _ => throw .runaway
  | rounds + 1, node, c => do
      match ← sfsLookupOnce heap io node dotdotName with
      | .error ret =>
          let _ ← inodeRefDec io node
          return (ret, c)
      | .ok parent =>
          let _ ← inodeRefDec io node
          if node = parent then
            let _ ← inodeRefDec io node
            return (0, c)
          else
            let din := ((← get).volume.sin parent).din
            check .sfsNamefile (node ≠ parent ∧ din.type = SFS_TYPE_DIR)
            match ← onVolume (sfsDirentFindinoNolock io parent node) with
            | .error ret =>
                let _ ← inodeRefDec io parent
                return (ret, c)
            | .ok entry =>
                if c.resid < entry.string.length + 1 then
                  let _ ← inodeRefDec io parent
                  return (-E_NO_MEM, c)
                else namefileLoop rounds parent (c.prepend entry)

/-- `iobuf_skip`. -/
def iobufSkip (iob : Iobuf) (n : Nat) : StoreM Iobuf := do
  check .iobufSkip (n ≤ iob.resid)
  return { iob with
    done := iob.done + n
    offset := iob.offset + BitVec.ofNat 64 n
    resid := iob.resid - n }

/-- Every round takes room for one byte or more. -/
def sfsNamefile (node : BitVec 32) (iob : Iobuf) : StoreM (Int × Iobuf) := do
  if iob.resid ≤ 2 then return (-E_NO_MEM, iob)
  else if (← kmallocOk heap) = false then return (-E_NO_MEM, iob)
  else
    let _ ← inodeRefInc node
    let (ret, c) ← namefileLoop heap io iob.resid node
      ⟨iob.done + iob.resid, iob.resid - 2, iob.base⟩
    if ret ≠ 0 then return (ret, { iob with base := c.base })
    else
      let alen := iob.resid - c.resid - 2
      let base := splice (iob.done + 1) alen (fun k => c.base (c.ptr + k)) c.base
      let base := Function.update base iob.done slash
      let base := Function.update base (iob.done + 1 + alen) 0
      return (0, ← iobufSkip { iob with base } alen)

end Model

variable {heap : Nat → Bool} {io : Nat → Int} {own : Nat → Owner} {s t u : Store} {v w : Volume}
  {node n ino root d p : BitVec 32} {parent : BitVec 32 → BitVec 32} {isDir : BitVec 32 → Prop}
  {names : List (List Byte)}

/-! ## Searching a directory -/

/-- What a search gives that finds `entry`. -/
def lookedUp (entry : Option DiskEntry) (r : Except Int (BitVec 32 × Nat)) : Prop :=
  match entry with
  | some entry => ∃ j, r = .ok (entry.ino, j)
  | none => r = .error (-E_NOENT)

theorem searchSlots_spec {name : List Byte} : ∀ (left i empty : Nat) (v : Volume),
    Directory own v node → i + left ≤ (v.din node).blocks.toNat →
    Ends never (searchSlots io node name left i empty) v fun r t => (∃ k, t = v.tick k) ∧
      (lookedUp ((v.entriesFrom node i left).find? fun entry => name = entry.string) r.1 ∨
        ∃ ret, r.1 = .error ret ∧ DeviceError io ret) := by
  intro left
  induction left with
  | zero => exact fun i empty v _ _ => ⟨⟨0, rfl⟩, .inl rfl⟩
  | succ left ih =>
      intro i empty v hdir hle
      rw [searchSlots, ends_bind]
      apply (sfsDirentReadNolock_spec hdir (by omega)).imp
      rintro r t ⟨⟨k, rfl⟩, rfl | ⟨ret, rfl, herror⟩⟩
      · have hrest := fun empty => ih (i + 1) empty (v.tick k) (hdir.tick k) (by
          show i + 1 + left ≤ (v.din node).blocks.toNat
          omega)
        have htick : ∀ {r : Except Int (BitVec 32 × Nat) × Option Nat} {t : Volume},
            (∃ k', t = (v.tick k).tick k') → ∃ k', t = v.tick k' := by
          rintro _ _ ⟨k', rfl⟩
          exact ⟨k + k', tick_tick v k k'⟩
        rw [entriesFrom_succ]
        simp only
        split
        next hempty =>
          rw [if_neg (not_not.mpr hempty)]
          apply (hrest i).imp
          exact fun r t ht => ht.imp_left (@htick r t)
        next hused =>
          rw [List.find?_cons]
          split
          next hname =>
            rw [decide_eq_true hname]
            exact ⟨⟨k, rfl⟩, .inl ⟨i, rfl⟩⟩
          next hname =>
            rw [decide_eq_false hname]
            apply (hrest empty).imp
            exact fun r t ht => ht.imp_left (@htick r t)
      · exact ⟨⟨k, rfl⟩, .inr ⟨ret, rfl, herror⟩⟩

/-- The entry with a name. -/
def Volume.named (v : Volume) (node : BitVec 32) (name : List Byte) : Option DiskEntry :=
  (v.entries node).find? fun entry => name = entry.string

theorem sfsDirentSearchNolock_spec {name : List Byte} (h : Directory own v node)
    (hname : name.length ≤ SFS_MAX_FNAME_LEN) :
    Ends never (sfsDirentSearchNolock io false node name) v fun r t => (∃ k, t = v.tick k) ∧
      (lookedUp (v.named node name) r.1 ∨ ∃ ret, r.1 = .error ret ∧ DeviceError io ret) := by
  rw [sfsDirentSearchNolock, ends_bind, ends_check hname, if_neg Bool.false_ne_true,
    ends_bind, ends_get, ← din_cached h.cached]
  exact searchSlots_spec _ 0 _ v h (by omega)

theorem findinoSlots_spec (hino : ino ≠ 0) : ∀ (left i : Nat) (v : Volume),
    Directory own v node → i + left ≤ (v.din node).blocks.toNat →
    Ends never (findinoSlots io node ino left i) v fun r t => (∃ k, t = v.tick k) ∧
      (r = found ((v.entriesFrom node i left).find? fun entry => entry.ino = ino) ∨
        ∃ ret, r = .error ret ∧ DeviceError io ret) := by
  intro left
  induction left with
  | zero => exact fun i v _ _ => ⟨⟨0, rfl⟩, .inl rfl⟩
  | succ left ih =>
      intro i v hdir hle
      rw [findinoSlots, ends_bind]
      apply (sfsDirentReadNolock_spec hdir (by omega)).imp
      rintro r t ⟨⟨k, rfl⟩, rfl | ⟨ret, rfl, herror⟩⟩
      · rw [entriesFrom_succ]
        simp only
        split
        next heq =>
          rw [if_pos (by rwa [heq]), List.find?_cons, decide_eq_true heq]
          exact ⟨⟨k, rfl⟩, .inl rfl⟩
        next hne =>
          have hskip : (if (v.entryAt node i).ino ≠ 0 then
              v.entryAt node i :: v.entriesFrom node (i + 1) left
              else v.entriesFrom node (i + 1) left).find? (fun entry => entry.ino = ino) =
              (v.entriesFrom node (i + 1) left).find? fun entry => entry.ino = ino := by
            split
            next => rw [List.find?_cons, decide_eq_false hne]
            next => rfl
          rw [hskip]
          apply (ih (i + 1) (v.tick k) (hdir.tick k) (by
            show i + 1 + left ≤ (v.din node).blocks.toNat
            omega)).imp
          rintro r t ⟨⟨k', rfl⟩, hr⟩
          exact ⟨⟨k + k', tick_tick v k k'⟩, hr⟩
      · exact ⟨⟨k, rfl⟩, .inr ⟨ret, rfl, herror⟩⟩

theorem sfsDirentFindinoNolock_spec (hino : ino ≠ 0) (h : Directory own v node) :
    Ends never (sfsDirentFindinoNolock io node ino) v fun r t => (∃ k, t = v.tick k) ∧
      (r = found ((v.entries node).find? fun entry => entry.ino = ino) ∨
        ∃ ret, r = .error ret ∧ DeviceError io ret) := by
  have hle := h.blocks_le
  have hmax : maxBlocks = 1036 := rfl
  have hnslots : (v.din node).blocks.toInt.toNat = (v.din node).blocks.toNat := by
    rw [BitVec.toInt_eq_toNat_of_lt (by omega), Int.toNat_natCast]
  rw [sfsDirentFindinoNolock, ends_bind, ends_get, ← din_cached h.cached]
  simp only
  rw [hnslots]
  exact findinoSlots_spec hino _ 0 v h (by omega)

/-- The directory of a store. -/
theorem Store.Ok.directory (h : s.Ok own) (hpos : 0 < s.refCount node)
    (htype : (s.volume.din node).type = SFS_TYPE_DIR) : Directory own s.volume node :=
  ⟨h.seated.mapped, h.seated.list _ (h.cached hpos), h.cached hpos, htype⟩

/-- `sfs_lookup_once` in a directory whose entry names an inode. -/
theorem sfsLookupOnce_spec {name : List Byte} (h : s.Ok own) (hdir : Directory own s.volume node)
    (hname : name.length ≤ SFS_MAX_FNAME_LEN)
    (hinode : ∀ entry, s.volume.named node name = some entry → own entry.ino.toNat = .inode) :
    Ends never (sfsLookupOnce heap io node name) s fun r t => Undisturbed own s t ∧
      match r with
      | .ok ino => (∃ entry, s.volume.named node name = some entry ∧ entry.ino = ino) ∧
          Taken heap s t ino
      | .error ret => t.refCount = s.refCount ∧
          (ret = -E_NOENT ∧ s.volume.named node name = none ∨
            ret = -E_NO_MEM ∧ Denied heap s t ∨ DeviceError io ret) := by
  rw [sfsLookupOnce, ends_bind, ends_kmallocOk, ends_bind, ends_onVolume]
  cases hheap : heap s.requests with
  | false =>
      rw [sfsDirentSearchNolock, ends_bind, ends_check hname, Bool.not_false, if_pos rfl]
      exact ⟨⟨h.request, .refl own _, rfl, Nat.le_succ _⟩, rfl,
        .inr (.inl ⟨rfl, s.requests, Nat.le_refl _, Nat.lt_succ_self _, hheap⟩)⟩
  | true =>
      rw [Bool.not_true]
      apply (sfsDirentSearchNolock_spec hdir hname).lift
      rintro ⟨r, empty⟩ v ⟨⟨k, rfl⟩, hr⟩
      obtain ⟨w, hw⟩ : ∃ w : Store, w = { s.request with volume := s.volume.tick k } := ⟨_, rfl⟩
      have hwok : w.Ok own := hw ▸ h.request.tick k
      have hwreq : w.requests = s.requests + 1 := by rw [hw]; rfl
      have hwref : w.refCount = s.refCount := by rw [hw]; rfl
      have hundisturbed : Undisturbed own s w :=
        ⟨hwok, hw ▸ .tick own s.volume k, by rw [hw]; rfl, by omega⟩
      have hgranted : Granted heap s w := by
        intro j hle hlt
        rw [show j = s.requests by omega]
        exact hheap
      show Ends never _ ({ s.request with volume := s.volume.tick k } : Store) _
      rw [← hw]
      rcases hr with hr | ⟨ret, rfl, herror⟩
      · cases hentry : s.volume.named node name with
        | none =>
            rw [hentry] at hr
            obtain rfl : r = .error (-E_NOENT) := hr
            exact ⟨hundisturbed, hwref, .inl ⟨rfl, rfl⟩⟩
        | some entry =>
            rw [hentry] at hr
            obtain ⟨j, rfl⟩ : ∃ j, r = .ok (entry.ino, j) := hr
            simp only
            rw [ends_bind]
            apply (sfsLoadInode_spec hwok (hinode entry hentry)).imp
            rintro r t ⟨hmore, hr⟩
            cases r with
            | ok _ =>
                refine ⟨hundisturbed.trans hmore, ⟨entry, rfl, rfl⟩, ?_, hgranted.trans hr.granted⟩
                rw [hr.refs, hwref]
            | error ret =>
                refine ⟨hundisturbed.trans hmore, hr.1.trans hwref,
                  .inr (hr.2.imp_left fun hdenied => ⟨hdenied.1, ?_⟩)⟩
                exact hdenied.2.before hundisturbed.requests
      · exact ⟨hundisturbed, hwref, .inr (.inr herror)⟩

/-! ## Trees and paths -/

/-- Slot `i` of the directory `p` has an entry for `d` under a name of its own, neither `.` nor
`..`. -/
structure Volume.Names (v : Volume) (p : BitVec 32) (i : Nat) (d : BitVec 32) : Prop where
  lt : i < (v.din p).blocks.toNat
  ino : (v.entryAt p i).ino = d
  dot : (v.entryAt p i).string ≠ dotName
  dotdot : (v.entryAt p i).string ≠ dotdotName

/-- The directories of a volume form a tree: `.` and `..` of each directory name itself and its
parent, and each directory but the root has one other entry, in its parent. -/
structure DirTree (own : Nat → Owner) (v : Volume) (root : BitVec 32)
    (parent : BitVec 32 → BitVec 32) (isDir : BitVec 32 → Prop) : Prop where
  inode : ∀ d, isDir d → own d.toNat = .inode ∧ (v.din d).type = SFS_TYPE_DIR
  top : isDir root ∧ parent root = root
  up : ∀ d, isDir d → isDir (parent d)
  reach : ∀ d, isDir d → ∃ k, parent^[k] d = root
  dot : ∀ d, isDir d → (∃ entry ∈ v.entries d, entry.string = dotName) ∧
    ∀ entry ∈ v.entries d, entry.string = dotName → entry.ino = d
  dotdot : ∀ d, isDir d → (∃ entry ∈ v.entries d, entry.string = dotdotName) ∧
    ∀ entry ∈ v.entries d, entry.string = dotdotName → entry.ino = parent d
  named : ∀ d, isDir d → d ≠ root → ∃ i, v.Names (parent d) i d ∧
    ∀ p i', isDir p → v.Names p i' d → p = parent d ∧ i' = i

/-- The names of the directories on the way from the root to `d`, each of them in the directory
above. -/
inductive Path (v : Volume) (root : BitVec 32) (parent : BitVec 32 → BitVec 32) :
    BitVec 32 → List (List Byte) → Prop
  | root : Path v root parent root []
  | child (d : BitVec 32) (i : Nat) (names : List (List Byte)) : d ≠ root →
      v.Names (parent d) i d → Path v root parent (parent d) names →
      Path v root parent d (names ++ [(v.entryAt (parent d) i).string])

/-- The names, each with a slash behind it. -/
def pathString (names : List (List Byte)) : List Byte := names.flatMap fun name => name ++ [slash]

theorem pathString_concat (names : List (List Byte)) (name : List Byte) :
    pathString (names ++ [name]) = pathString names ++ (name ++ [slash]) := by
  simp [pathString]

theorem mem_entriesFrom {entry : DiskEntry} {i count : Nat} :
    entry ∈ v.entriesFrom node i count ↔
      entry.ino ≠ 0 ∧ ∃ j, i ≤ j ∧ j < i + count ∧ v.entryAt node j = entry := by
  unfold Volume.entriesFrom
  simp only [List.mem_filter, List.mem_map, List.mem_range'_1, decide_eq_true_eq]
  constructor
  · rintro ⟨⟨j, hj, heq⟩, hne⟩
    exact ⟨hne, j, hj.1, hj.2, heq⟩
  · rintro ⟨hne, j, hle, hlt, heq⟩
    exact ⟨⟨j, ⟨hle, hlt⟩, heq⟩, hne⟩

theorem mem_entries {entry : DiskEntry} : entry ∈ v.entries node ↔
    entry.ino ≠ 0 ∧ ∃ j, j < (v.din node).blocks.toNat ∧ v.entryAt node j = entry := by
  rw [Volume.entries, mem_entriesFrom]
  simp only [Nat.zero_le, true_and, Nat.zero_add]

/-- The entries of a directory are contents of its blocks. -/
theorem Same.entryAt (h : Same own v w) (hv : Mapped own v) (hn : own n.toNat = .inode) {i : Nat}
    (hi : i < (v.din n).blocks.toNat) : w.entryAt n i = v.entryAt n i := by
  rw [Volume.entryAt, Volume.entryAt, h.contents hv.sound hn (((hv.sized n hn).slot i).mpr hi)]

theorem Same.mem_entries (h : Same own v w) (hv : Mapped own v) (hn : own n.toNat = .inode)
    (entry : DiskEntry) : entry ∈ w.entries n ↔ entry ∈ v.entries n := by
  rw [Sfs.mem_entries, Sfs.mem_entries, h.din n hn]
  refine and_congr_right fun _ => exists_congr fun j => and_congr_right fun hj => ?_
  rw [h.entryAt hv hn hj]

theorem Same.names_iff (h : Same own v w) (hv : Mapped own v) (hp : own p.toNat = .inode)
    (i : Nat) :
    w.Names p i d ↔ v.Names p i d := by
  constructor
  · rintro ⟨hlt, hino, hdot, hdotdot⟩
    rw [h.din p hp] at hlt
    rw [h.entryAt hv hp hlt] at hino hdot hdotdot
    exact ⟨hlt, hino, hdot, hdotdot⟩
  · rintro ⟨hlt, hino, hdot, hdotdot⟩
    have hentry := h.entryAt hv hp hlt
    rw [← hentry] at hino hdot hdotdot
    exact ⟨by rwa [h.din p hp], hino, hdot, hdotdot⟩

namespace DirTree

theorem same (h : DirTree own v root parent isDir) (hv : Mapped own v) (hsame : Same own v w) :
    DirTree own w root parent isDir := by
  have hmem : ∀ d, isDir d → ∀ entry, entry ∈ w.entries d ↔ entry ∈ v.entries d :=
    fun d hd => hsame.mem_entries hv (h.inode d hd).1
  have hnames : ∀ p i d, isDir p → (w.Names p i d ↔ v.Names p i d) :=
    fun p i d hp => hsame.names_iff hv (h.inode p hp).1 i
  refine ⟨fun d hd => ?_, h.top, h.up, h.reach, fun d hd => ?_, fun d hd => ?_, fun d hd hne => ?_⟩
  · rw [hsame.din d (h.inode d hd).1]
    exact h.inode d hd
  · simp only [hmem d hd]
    exact h.dot d hd
  · simp only [hmem d hd]
    exact h.dotdot d hd
  · obtain ⟨i, hname, honly⟩ := h.named d hd hne
    exact ⟨i, (hnames _ i d (h.up d hd)).mpr hname,
      fun p i' hp hname' => honly p i' hp ((hnames p i' d hp).mp hname')⟩

/-- Every directory has a path. -/
theorem path (h : DirTree own v root parent isDir) (hd : isDir d) :
    ∃ names, Path v root parent d names := by
  obtain ⟨k, hk⟩ := h.reach d hd
  induction k generalizing d with
  | zero => exact ⟨[], (show d = root from hk) ▸ .root⟩
  | succ k ih =>
      by_cases hroot : d = root
      · exact ⟨[], hroot ▸ .root⟩
      · rw [Function.iterate_succ_apply] at hk
        obtain ⟨names, hpath⟩ := ih (h.up d hd) hk
        obtain ⟨i, hname, _⟩ := h.named d hd hroot
        exact ⟨_, .child d i names hroot hname hpath⟩

/-- No directory but the root is above itself. -/
theorem acyclic (h : DirTree own v root parent isDir) (hd : isDir d)
    (hloop : parent (parent d) = d) :
    d = root := by
  obtain ⟨k, hk⟩ := h.reach d hd
  have hback : ∀ k, parent^[k] d = d ∨ parent^[k] d = parent d := by
    intro k
    induction k with
    | zero => exact .inl rfl
    | succ k ih =>
        rw [Function.iterate_succ_apply']
        rcases ih with heq | heq
        · rw [heq]
          exact .inr rfl
        · rw [heq, hloop]
          exact .inl rfl
  rcases hback k with heq | heq
  · exact heq.symm.trans hk
  · have hup : parent d = root := heq.symm.trans hk
    rw [← hloop, hup, h.top.2]

theorem parent_ne (h : DirTree own v root parent isDir) (hd : isDir d) (hroot : d ≠ root) :
    parent d ≠ d := fun heq => hroot (h.acyclic hd (by rw [heq, heq]))

/-- The entry `..` leads to the parent. -/
theorem named_dotdot (h : DirTree own v root parent isDir) (hd : isDir d) :
    ∃ entry, v.named d dotdotName = some entry ∧ entry.ino = parent d := by
  obtain ⟨⟨entry, hmem, hname⟩, hall⟩ := h.dotdot d hd
  cases hfind : v.named d dotdotName with
  | none =>
      have hno := List.find?_eq_none.mp hfind entry hmem
      exact absurd (decide_eq_true hname.symm) hno
  | some entry' =>
      have hname' : dotdotName = entry'.string := by simpa using List.find?_some hfind
      exact ⟨entry', rfl, hall entry' (List.mem_of_find?_eq_some hfind) hname'.symm⟩

/-- The first entry for a directory in its parent is the one that names it. -/
theorem find_ino (h : DirTree own v root parent isDir) (hv : Mapped own v) (hd : isDir d)
    (hroot : d ≠ root) {i : Nat} (hname : v.Names (parent d) i d) :
    (v.entries (parent d)).find? (fun entry => entry.ino = d) = some (v.entryAt (parent d) i) := by
  have hup := h.up d hd
  have hpos := (hv.sound.range d.toNat (by simp [(h.inode d hd).1])).1
  have hne : d ≠ 0 := ne_zero_of_toNat (by omega)
  have hmem : v.entryAt (parent d) i ∈ v.entries (parent d) :=
    mem_entries.mpr ⟨by rwa [hname.ino], i, hname.lt, rfl⟩
  cases hfind : (v.entries (parent d)).find? fun entry => entry.ino = d with
  | none => exact absurd (decide_eq_true hname.ino) (List.find?_eq_none.mp hfind _ hmem)
  | some entry =>
      have hino : entry.ino = d := by simpa using List.find?_some hfind
      have hentry := List.mem_of_find?_eq_some hfind
      obtain ⟨_, j, hj, hat⟩ := mem_entries.mp hentry
      have hdot : entry.string ≠ dotName := by
        intro hdot
        have hself := (h.dot _ hup).2 entry hentry hdot
        exact h.parent_ne hd hroot (hself.symm.trans hino)
      have hdotdot : entry.string ≠ dotdotName := by
        intro hdotdot
        have habove := (h.dotdot _ hup).2 entry hentry hdotdot
        exact hroot (h.acyclic hd (habove.symm.trans hino))
      obtain ⟨i', _, honly⟩ := h.named d hd hroot
      have hj' := (honly _ j hup ⟨hj, by rwa [hat], by rwa [hat], by rwa [hat]⟩).2
      have hi' := (honly _ i hup hname).2
      rw [← hat, hj', hi']

end DirTree

/-! ## The buffer -/

/-- The bytes at an index are those of a list. -/
def Spells (b : Bytes) (start : Nat) (l : List Byte) : Prop :=
  ∀ k (hk : k < l.length), b (start + k) = l[k]

theorem Spells.append {b : Bytes} {start : Nat} {l l' : List Byte} (h : Spells b start l)
    (h' : Spells b (start + l.length) l') : Spells b start (l ++ l') := by
  intro k hk
  rw [List.length_append] at hk
  rw [List.getElem_append]
  split
  next hlt => exact h k hlt
  next hge =>
    have hrest := h' (k - l.length) (by omega)
    rw [show start + l.length + (k - l.length) = start + k by omega] at hrest
    exact hrest

theorem Spells.congr {b b' : Bytes} {start : Nat} {l : List Byte} (h : Spells b start l)
    (hsame : ∀ k, start ≤ k → k < start + l.length → b' k = b k) : Spells b' start l := by
  intro k hk
  rw [hsame _ (by omega) (by omega)]
  exact h k hk

theorem spells_singleton {b : Bytes} {start : Nat} {c : Byte} :
    Spells b start [c] ↔ b start = c := by
  constructor
  · exact fun h => h 0 Nat.zero_lt_one
  · intro h k hk
    obtain rfl : k = 0 := Nat.lt_one_iff.mp hk
    exact h

/-- The bytes of a string. -/
theorem spells_cString (size : Nat) (b : Bytes) : Spells b 0 (cString size b) := by
  intro k hk
  have hprefix : cString size b <+: (List.range size).map b := List.takeWhile_prefix _
  have hget := hprefix.getElem hk
  rw [hget, List.getElem_map, List.getElem_range, Nat.zero_add]

theorem Cursor.prepend_spells {c : Cursor} {entry : DiskEntry} {suffix : List Byte}
    (h : Spells c.base c.ptr suffix) (hroom : entry.string.length + 1 ≤ c.ptr) :
    Spells (c.prepend entry).base (c.prepend entry).ptr (entry.string ++ [slash] ++ suffix) ∧
      ∀ k, k < (c.prepend entry).ptr ∨ c.ptr ≤ k → (c.prepend entry).base k = c.base k := by
  obtain ⟨at', hat⟩ : ∃ at', at' = c.ptr - (entry.string.length + 1) := ⟨_, rfl⟩
  have hptr : (c.prepend entry).ptr = at' := hat.symm
  have hbase : ∀ k, (c.prepend entry).base k = if k = at' + entry.string.length then slash
      else if at' ≤ k ∧ k < at' + entry.string.length then entry.name (k - at') else c.base k := by
    intro k
    rw [Cursor.prepend, ← hat, Nat.add_sub_cancel]
    exact Function.update_apply _ _ _ _
  have hother : ∀ k, k < at' ∨ c.ptr ≤ k → (c.prepend entry).base k = c.base k := by
    intro k hk
    rw [hbase, if_neg (by omega), if_neg (by omega)]
  rw [hptr]
  refine ⟨Spells.append (Spells.append (fun k hk => ?_) ?_) ?_, hother⟩
  · have hname := spells_cString (SFS_MAX_FNAME_LEN + 1) entry.name k hk
    rw [Nat.zero_add] at hname
    rw [hbase, if_neg (by omega), if_pos ⟨Nat.le_add_right _ _, by omega⟩, Nat.add_sub_cancel_left,
      hname]
    rfl
  · rw [spells_singleton, hbase, if_pos rfl]
  · rw [List.length_append, List.length_singleton, show at' + (entry.string.length + 1) =
      c.ptr by omega]
    exact h.congr fun k hk _ => hother k (.inr hk)

/-! ## Climbing to the root -/

/-- What the loop leaves behind that started with the cursor `c`, in a directory with the path
`names`. -/
structure Climbed (heap : Nat → Bool) (s t : Store) (c c' : Cursor) (names : List (List Byte))
    (suffix : List Byte) : Prop where
  granted : Granted heap s t
  room : (pathString names).length ≤ c.resid
  ptr : c'.ptr + (pathString names).length = c.ptr
  resid : c'.resid + (pathString names).length = c.resid
  spells : Spells c'.base c'.ptr (pathString names ++ suffix)

/-- The reference that is given up at each level. -/
def dropRef (refs : BitVec 32 → Int) (node : BitVec 32) : BitVec 32 → Int :=
  Function.update refs node (refs node - 1)

def addRef (refs : BitVec 32 → Int) (node : BitVec 32) : BitVec 32 → Int :=
  Function.update refs node (refs node + 1)

theorem dropRef_apply (refs : BitVec 32 → Int) (node n : BitVec 32) :
    dropRef refs node n = if n = node then refs n - 1 else refs n := by
  rw [dropRef, Function.update_apply]
  split
  next heq => rw [heq]
  next => rfl

theorem addRef_apply (refs : BitVec 32 → Int) (node n : BitVec 32) :
    addRef refs node n = if n = node then refs n + 1 else refs n := by
  rw [addRef, Function.update_apply]
  split
  next heq => rw [heq]
  next => rfl

theorem dropRef_addRef (refs : BitVec 32 → Int) (n : BitVec 32) :
    dropRef (addRef refs n) n = refs := by
  funext m
  rw [dropRef_apply, addRef_apply]
  split <;> omega

theorem dropRef_comm (refs : BitVec 32 → Int) (n m : BitVec 32) :
    dropRef (dropRef refs n) m = dropRef (dropRef refs m) n := by
  funext x
  simp only [dropRef_apply]
  split <;> split <;> omega

theorem dotdotName_length : dotdotName.length ≤ SFS_MAX_FNAME_LEN := by decide

/-- `..` of a directory, on a device that works. -/
theorem lookupDotdot_spec (hio : ∀ k, io k = 0) (h : s.Ok own)
    (htree : DirTree own s.volume root parent isDir) (hd : isDir d) (hpos : 0 < s.refCount d) :
    Ends never (sfsLookupOnce heap io d dotdotName) s fun r t => Undisturbed own s t ∧
      match r with
      | .ok ino => ino = parent d ∧ t.refCount = addRef s.refCount (parent d) ∧ Granted heap s t
      | .error ret => t.refCount = s.refCount ∧ ret = -E_NO_MEM ∧ Denied heap s t := by
  obtain ⟨entry, hentry, hino⟩ := htree.named_dotdot hd
  have hparent := htree.inode _ (htree.up d hd)
  apply (sfsLookupOnce_spec h (h.directory hpos (htree.inode d hd).2) dotdotName_length
    fun entry' hentry' => ?_).imp
  · rintro r t ⟨hundisturbed, hr⟩
    refine ⟨hundisturbed, ?_⟩
    cases r with
    | ok ino =>
        obtain ⟨⟨entry', hentry', rfl⟩, htaken⟩ := hr
        rw [hentry, Option.some.injEq] at hentry'
        rw [← hentry', hino] at htaken ⊢
        exact ⟨rfl, htaken.refs, htaken.granted⟩
    | error ret =>
        obtain ⟨hrefs, ⟨_, hnone⟩ | ⟨hret, hdenied⟩ | ⟨k, heq, hne⟩⟩ := hr
        · rw [hentry] at hnone
          cases hnone
        · exact ⟨hrefs, hret, hdenied⟩
        · exact absurd (heq.trans (hio k)) hne
  · rw [hentry, Option.some.injEq] at hentry'
    rw [← hentry', hino]
    exact hparent.1

/-- A reference that does not belong to an open file is dropped. -/
theorem dropRef_spec (h : s.Ok own) (hopen : s.openCount node < s.refCount node) :
    Ends never (inodeRefDec io node) s fun _ t => Undisturbed own s t ∧
      t.refCount = dropRef s.refCount node ∧ t.requests = s.requests :=
  inodeRefDec_spec h hopen

/-- A round of the loop up to the step to the parent. -/
theorem namefileLoop_step {rounds : Nat} {c : Cursor} {Q : Int × Cursor → Store → Prop}
    (hio : ∀ k, io k = 0) (h : s.Ok own) (htree : DirTree own s.volume root parent isDir)
    (hd : isDir d) (hopen : s.openCount d < s.refCount d)
    (hfail : ∀ t, Undisturbed own s t → t.refCount = dropRef s.refCount d → Denied heap s t →
      Q (-E_NO_MEM, c) t)
    (hparent : ∀ t, Undisturbed own s t → Granted heap s t →
      t.refCount = dropRef (addRef s.refCount (parent d)) d →
      Ends never (if d = parent d then do
          let _ ← inodeRefDec io d
          return (0, c)
        else do
          let din := ((← get).volume.sin (parent d)).din
          check .sfsNamefile (d ≠ parent d ∧ din.type = SFS_TYPE_DIR)
          match ← onVolume (sfsDirentFindinoNolock io (parent d) d) with
          | .error ret =>
              let _ ← inodeRefDec io (parent d)
              return (ret, c)
          | .ok entry =>
              if c.resid < entry.string.length + 1 then
                let _ ← inodeRefDec io (parent d)
                return (-E_NO_MEM, c)
              else namefileLoop heap io rounds (parent d) (c.prepend entry)) t Q) :
    Ends never (namefileLoop heap io (rounds + 1) d c) s Q := by
  have hopens := h.opens d
  rw [namefileLoop, ends_bind]
  apply (lookupDotdot_spec hio h htree hd (by omega)).imp
  rintro r t ⟨hundisturbed, hr⟩
  cases r with
  | error ret =>
      obtain ⟨hrefs, rfl, hdenied⟩ := hr
      simp only
      rw [ends_bind]
      have hopen' : t.openCount d < t.refCount d := by rwa [hundisturbed.opens, hrefs]
      apply (dropRef_spec hundisturbed.ok hopen').imp
      rintro _ u ⟨hmore, hdrop, hrequests⟩
      exact hfail u (hundisturbed.trans hmore) (by rw [hdrop, hrefs])
        (hdenied.after (Nat.le_of_eq hrequests.symm))
  | ok ino =>
      obtain ⟨rfl, hrefs, hgranted⟩ := hr
      simp only
      rw [ends_bind]
      have hopen' : t.openCount d < t.refCount d := by
        rw [hundisturbed.opens, hrefs, addRef_apply]
        split <;> omega
      apply (dropRef_spec hundisturbed.ok hopen').imp
      rintro _ u ⟨hmore, hdrop, hrequests⟩
      refine hparent u (hundisturbed.trans hmore) (fun k hle hlt => hgranted k hle ?_)
        (by rw [hdrop, hrefs])
      omega

/-- The loop takes a reference to each directory on the way and gives back what it has. -/
theorem namefileLoop_spec (hio : ∀ k, io k = 0) (hpath : Path v root parent d names) :
    ∀ (rounds : Nat) (s : Store) (c : Cursor) (suffix : List Byte), s.Ok own → Same own v s.volume →
      DirTree own v root parent isDir → Mapped own v → isDir d → s.openCount d < s.refCount d →
      c.resid < rounds → c.resid ≤ c.ptr → Spells c.base c.ptr suffix →
      Ends never (namefileLoop heap io rounds d c) s fun r t => Undisturbed own s t ∧
        t.refCount = dropRef s.refCount d ∧
        (∀ k, k < c.ptr - c.resid ∨ c.ptr ≤ k → r.2.base k = c.base k) ∧
        (r.1 = 0 ∧ Climbed heap s t c r.2 names suffix ∨
          r.1 = -E_NO_MEM ∧ (c.resid < (pathString names).length ∨ Denied heap s t)) := by
  induction hpath with
  | root =>
      intro rounds s c suffix h hsame htree hv hd hopen hrounds hroom hspells
      obtain ⟨rounds, rfl⟩ : ∃ k, rounds = k + 1 := ⟨rounds - 1, by omega⟩
      have htree' := htree.same hv hsame
      apply namefileLoop_step hio h htree' hd hopen
      · exact fun t hundisturbed hrefs hdenied =>
          ⟨hundisturbed, hrefs, fun _ _ => rfl, .inr ⟨rfl, .inr hdenied⟩⟩
      · intro t hundisturbed hgranted hrefs
        rw [htree.top.2, dropRef_addRef] at hrefs
        rw [if_pos htree.top.2.symm, ends_bind]
        have hopen' : t.openCount root < t.refCount root := by rwa [hundisturbed.opens, hrefs]
        -- the second reference to the root
        apply (dropRef_spec hundisturbed.ok hopen').imp
        rintro _ u ⟨hmore, hdrop, hrequests⟩
        refine ⟨hundisturbed.trans hmore, by rw [hdrop, hrefs], fun _ _ => rfl,
          .inl ⟨rfl, fun k hle hlt => hgranted k hle (by omega), ?_, rfl, rfl, hspells⟩⟩
        exact Nat.zero_le _
  | child d i names hroot hname hpath ih =>
      intro rounds s c suffix h hsame htree hv hd hopen hrounds hroom hspells
      obtain ⟨rounds, rfl⟩ : ∃ k, rounds = k + 1 := ⟨rounds - 1, by omega⟩
      have htree' := htree.same hv hsame
      have hup := htree.up d hd
      have hne : parent d ≠ d := htree.parent_ne hd hroot
      apply namefileLoop_step hio h htree' hd hopen
      · exact fun t hundisturbed hrefs hdenied =>
          ⟨hundisturbed, hrefs, fun _ _ => rfl, .inr ⟨rfl, .inr hdenied⟩⟩
      · intro t hundisturbed hgranted hrefs
        have hopens := h.opens (parent d)
        have hparent : t.refCount (parent d) = s.refCount (parent d) + 1 := by
          rw [hrefs, dropRef_apply, if_neg hne, addRef_apply, if_pos rfl]
        have hopen' : t.openCount (parent d) < t.refCount (parent d) := by
          rw [hundisturbed.opens, hparent]
          omega
        have hpos : 0 < t.refCount (parent d) := by omega
        have hsame' : Same own v t.volume := hsame.trans hundisturbed.same
        have htype : (t.volume.din (parent d)).type = SFS_TYPE_DIR := by
          rw [hsame'.din _ (htree.inode _ hup).1]
          exact (htree.inode _ hup).2
        have hdir := hundisturbed.ok.directory hpos htype
        have hino : d ≠ 0 := by
          have hrange := (hv.sound.range d.toNat (by simp [(htree.inode d hd).1])).1
          exact ne_zero_of_toNat (by omega)
        have hfind := (htree.same hv hsame').find_ino (hsame'.mapped hv) hd hroot
          ((hsame'.names_iff hv (htree.inode _ hup).1 i).mpr hname)
        rw [hsame'.entryAt hv (htree.inode _ hup).1 hname.lt] at hfind
        have hback : dropRef t.refCount (parent d) = dropRef s.refCount d := by
          rw [hrefs, dropRef_comm, dropRef_addRef]
        have hlen : (pathString (names ++ [(v.entryAt (parent d) i).string])).length =
            (pathString names).length + ((v.entryAt (parent d) i).string.length + 1) := by
          rw [pathString_concat, List.length_append, List.length_append, List.length_singleton]
        rw [if_neg hne.symm, ends_bind, ends_get]
        simp only
        rw [ends_bind, ends_check ⟨hne.symm, by rw [← din_cached hdir.cached]; exact htype⟩,
          ends_bind, ends_onVolume]
        apply (sfsDirentFindinoNolock_spec hino hdir).lift
        rintro r v' ⟨⟨k, rfl⟩, rfl | ⟨ret, rfl, j, heq, hnonzero⟩⟩
        · obtain ⟨w, hw⟩ : ∃ w : Store, w = { t with volume := t.volume.tick k } := ⟨_, rfl⟩
          have hwok : w.Ok own := hw ▸ hundisturbed.ok.tick k
          have hwref : w.refCount = t.refCount := by rw [hw]
          have hwopen : w.openCount = t.openCount := by rw [hw]
          have hwreq : w.requests = t.requests := by rw [hw]
          have hundisturbed' : Undisturbed own s w :=
            ⟨hwok, hundisturbed.same.trans (hw ▸ .tick own t.volume k),
              hwopen.trans hundisturbed.opens, by have := hundisturbed.requests; omega⟩
          rw [hfind, ← hw]
          simp only [found]
          split
          next hfull =>
            -- the name and its slash do not fit in what is left
            rw [ends_bind]
            apply (dropRef_spec hwok (by rwa [hwopen, hwref])).imp
            rintro _ u ⟨hmore, hdrop, _⟩
            refine ⟨hundisturbed'.trans hmore, by rw [hdrop, hwref, hback], fun _ _ => rfl,
              .inr ⟨rfl, .inl ?_⟩⟩
            omega
          next hfits =>
            -- the name is written in front of what is there, and the climb goes on
            obtain ⟨hspells', hother⟩ :=
              @Cursor.prepend_spells c (v.entryAt (parent d) i) suffix hspells
              (by omega)
            obtain ⟨c', hc'⟩ : ∃ c', c' = c.prepend (v.entryAt (parent d) i) := ⟨_, rfl⟩
            have hresid : c'.resid = c.resid - ((v.entryAt (parent d) i).string.length + 1) := by
              rw [hc']
              rfl
            have hptr : c'.ptr = c.ptr - ((v.entryAt (parent d) i).string.length + 1) := by
              rw [hc']
              rfl
            rw [← hc'] at hspells' hother ⊢
            have hsame'' : Same own v w.volume := hsame.trans hundisturbed'.same
            apply (ih rounds w c' _ hwok hsame'' htree hv hup (by rwa [hwopen, hwref]) (by omega)
              (by omega) hspells').imp
            rintro r u ⟨hmore, hdrop, hkeep, hend⟩
            refine ⟨hundisturbed'.trans hmore, by rw [hdrop, hwref, hback], fun k hk => ?_, ?_⟩
            · rw [hkeep k (by omega), hother k (by omega)]
            · rcases hend with ⟨hret, hclimbed⟩ | ⟨hret, hshort | hdenied⟩
              · have hptr' := hclimbed.ptr
                have hresid' := hclimbed.resid
                have hroom' := hclimbed.room
                refine .inl ⟨hret, ?_, by omega, by omega, by omega, ?_⟩
                · refine Granted.trans (t := w)
                    (fun k hle hlt => hgranted k hle (by omega)) hclimbed.granted
                · rw [pathString_concat, List.append_assoc]
                  exact hclimbed.spells
              · exact .inr ⟨hret, .inl (by omega)⟩
              · exact .inr ⟨hret, .inr (hdenied.before hundisturbed'.requests)⟩
        · exact absurd (heq.trans (hio j)) hnonzero

/-- What is to be written: a slash, the names, and the NUL. -/
def pathBytes (names : List (List Byte)) : List Byte := slash :: (pathString names ++ [0])

/-- The buffer is large enough for the path and its NUL. `sfs_namefile` wants more than two bytes
even for `/`. -/
def PathFits (iob : Iobuf) (names : List (List Byte)) : Prop :=
  2 < iob.resid ∧ (pathBytes names).length ≤ iob.resid

theorem length_pathBytes (names : List (List Byte)) :
    (pathBytes names).length = (pathString names).length + 2 := by
  simp [pathBytes]

/-- Moved to the front, with a slash before it and a NUL behind it. -/
theorem spells_moved {b : Bytes} {src dst : Nat} {l : List Byte} (h : Spells b src l) :
    let moved := splice (dst + 1) l.length (fun k => b (src + k)) b
    let base := Function.update (Function.update moved dst slash) (dst + 1 + l.length) 0
    Spells base dst (slash :: (l ++ [0])) ∧
      ∀ k, k < dst ∨ dst + l.length + 2 ≤ k → base k = b k := by
  intro moved base
  have hbase : ∀ k, base k = if k = dst + 1 + l.length then 0 else if k = dst then slash
      else if dst + 1 ≤ k ∧ k < dst + 1 + l.length then b (src + (k - (dst + 1))) else b k := by
    intro k
    simp only [base, moved, Function.update_apply]
    rfl
  constructor
  · refine Spells.append (l := [slash]) (spells_singleton.mpr ?_)
      (Spells.append (fun k hk => ?_) ?_)
    · rw [hbase, if_neg (by omega), if_pos rfl]
    · rw [List.length_singleton, hbase, if_neg (by omega), if_neg (by omega), if_pos (by omega),
        Nat.add_sub_cancel_left]
      exact h k hk
    · rw [List.length_singleton, spells_singleton, hbase, if_pos rfl]
  · intro k hk
    rw [hbase, if_neg (by omega), if_neg (by omega), if_neg (by omega)]

/-- In a tree of directories every directory has a path, and `sfs_namefile` writes it, if it
fits and `kmalloc` always returns an object; else it returns `-E_NO_MEM`. It writes nothing
outside the buffer, and all counts are as before. -/
theorem sfsNamefile_path (hio : ∀ k, io k = 0) (h : s.Ok own)
    (htree : DirTree own s.volume root parent isDir) (hd : isDir d) (href : 0 < s.refCount d)
    (iob : Iobuf) :
    (∃ names, Path s.volume root parent d names) ∧
    ∀ names, Path s.volume root parent d names →
      Ends never (sfsNamefile heap io d iob) s fun r t =>
        (r.1 = 0 ↔ PathFits iob names ∧ Granted heap s t) ∧ (r.1 ≠ 0 → r.1 = -E_NO_MEM) ∧
        (r.1 = 0 → Spells r.2.base iob.done (pathBytes names)) ∧
        (∀ k, k < iob.done ∨ iob.done + iob.resid ≤ k → r.2.base k = iob.base k) ∧
        t.refCount = s.refCount ∧ Undisturbed own s t := by
  refine ⟨htree.path hd, fun names hpath => ?_⟩
  -- all the errors are alike: they change neither the buffer nor the counts
  have hfail : ∀ {t : Store} {r : Int × Iobuf}, r.1 = -E_NO_MEM →
      ¬(PathFits iob names ∧ Granted heap s t) →
      (∀ k, k < iob.done ∨ iob.done + iob.resid ≤ k → r.2.base k = iob.base k) →
      t.refCount = s.refCount → Undisturbed own s t →
      (r.1 = 0 ↔ PathFits iob names ∧ Granted heap s t) ∧ (r.1 ≠ 0 → r.1 = -E_NO_MEM) ∧
        (r.1 = 0 → Spells r.2.base iob.done (pathBytes names)) ∧
        (∀ k, k < iob.done ∨ iob.done + iob.resid ≤ k → r.2.base k = iob.base k) ∧
        t.refCount = s.refCount ∧ Undisturbed own s t := by
    intro t r hret hno hkeep hrefs hundisturbed
    have hne : r.1 ≠ 0 := by
      rw [hret]
      decide
    exact ⟨iff_of_false hne hno, fun _ => hret, fun hzero => absurd hzero hne, hkeep,
      hrefs, hundisturbed⟩
  rw [sfsNamefile]
  split
  next hsmall =>
    apply hfail (t := s) rfl (fun hall => ?_) (fun _ _ => rfl) rfl (.refl h)
    have hbig := hall.1.1
    omega
  next hbig =>
    rw [ends_bind, ends_kmallocOk]
    split
    next hfull =>
      have hrequest : Undisturbed own s s.request := ⟨h.request, .refl own _, rfl, Nat.le_succ _⟩
      refine hfail (t := s.request) rfl (fun hall => ?_) (fun _ _ => rfl) rfl hrequest
      exact Denied.not_granted ⟨s.requests, Nat.le_refl _, Nat.lt_succ_self _, hfull⟩ hall.2
    next hgot =>
      rw [Bool.not_eq_false] at hgot
      have hcached := h.cached href
      have hopens := h.opens d
      obtain ⟨w, hw⟩ : ∃ w, w = s.request.setRef d (s.refCount d + 1) := ⟨_, rfl⟩
      have hwok : w.Ok own := hw ▸ h.request.setRef hcached (by
        show s.openCount d ≤ _
        omega) fun _ => (h.claims d hcached).2 href
      have hwref : w.refCount = addRef s.refCount d := by rw [hw]; rfl
      have hwopen : w.openCount = s.openCount := by rw [hw]; rfl
      have hwreq : w.requests = s.requests + 1 := by rw [hw]; rfl
      have hwvolume : w.volume = s.volume := by rw [hw]; rfl
      have hundisturbed : Undisturbed own s w :=
        ⟨hwok, hwvolume ▸ .refl own _, hwopen, by omega⟩
      have hopen : w.openCount d < w.refCount d := by
        rw [hwopen, hwref, addRef_apply, if_pos rfl]
        omega
      have hgranted : Granted heap s w := by
        intro k hle hlt
        rw [show k = s.requests by omega]
        exact hgot
      rw [ends_bind, inodeRefInc, ends_bind, ends_get, ends_bind, ends_set]
      show Ends never _ (s.request.setRef d (s.refCount d + 1)) _
      rw [← hw, ends_pure, ends_bind]
      -- the climb starts with nothing written at the end of the buffer
      have hempty : Spells iob.base (iob.done + iob.resid) [] :=
        fun k hk => absurd hk (Nat.not_lt_zero k)
      apply (namefileLoop_spec hio hpath iob.resid w
        ⟨iob.done + iob.resid, iob.resid - 2, iob.base⟩ [] hwok (hwvolume ▸ .refl own _) htree
        h.seated.mapped hd hopen (show iob.resid - 2 < iob.resid by omega)
        (show iob.resid - 2 ≤ iob.done + iob.resid by omega) hempty).imp
      rintro ⟨ret, c⟩ t ⟨hmore, hdrop, hkeep, hend⟩
      have hrefs : t.refCount = s.refCount := by rw [hdrop, hwref, dropRef_addRef]
      have hall := hundisturbed.trans hmore
      have hlength := length_pathBytes names
      have hkeep' : ∀ k, k < iob.done ∨ iob.done + iob.resid ≤ k → c.base k = iob.base k :=
        fun k hk => hkeep k (by
          show k < iob.done + iob.resid - (iob.resid - 2) ∨ iob.done + iob.resid ≤ k
          omega)
      rcases hend with ⟨hret, hclimbed⟩ | ⟨hret, hwhy⟩
      · -- the climb has come to the root: the path is moved to the front of the buffer
        obtain rfl : ret = 0 := hret
        have hroom : (pathString names).length ≤ iob.resid - 2 := hclimbed.room
        have hresid : c.resid + (pathString names).length = iob.resid - 2 := hclimbed.resid
        have halen : iob.resid - c.resid - 2 = (pathString names).length := by omega
        have hspells := hclimbed.spells
        rw [List.append_nil] at hspells
        obtain ⟨hwritten, hother⟩ := @spells_moved c.base c.ptr iob.done (pathString names) hspells
        simp only
        rw [if_neg (not_not.mpr rfl), halen, ends_bind, iobufSkip, ends_bind,
          ends_check (show (pathString names).length ≤ iob.resid by omega), ends_pure, ends_pure]
        have hfits : PathFits iob names := ⟨by omega, by omega⟩
        refine ⟨iff_of_true rfl ⟨hfits, hgranted.trans hclimbed.granted⟩, fun hne => absurd rfl hne,
          fun _ => hwritten, fun k hk => ?_, hrefs, hall⟩
        exact (hother k (by omega)).trans (hkeep' k hk)
      · -- the climb was broken off, by the buffer or by `kmalloc`
        obtain rfl : ret = -E_NO_MEM := hret
        simp only
        rw [if_pos (by decide)]
        refine hfail rfl (fun hyes => ?_) hkeep' hrefs hall
        rcases hwhy with hshort | hdenied
        · have hlt : iob.resid - 2 < (pathString names).length := hshort
          have hle := hyes.1.2
          omega
        · exact (hdenied.before hundisturbed.requests).not_granted hyes.2

/-! ## A directory below the root -/

/-- `..` of `/a/bc` is `/a`; that of the others is `/`. -/
def treeParent (n : BitVec 32) : BitVec 32 := if n = 5 then 4 else 3

/-- `/a/bc` is referred to once. -/
def treeStore : Store := ⟨treeVolume, fun n => if n = 5 then 1 else 0, fun _ => 0, 0⟩

/-- What the search for a name finds. -/
theorem treeVolume_found {ino : BitVec 32} {name : List Byte}
    (hin : (ino, name) ∈ (treeVolume.entries d).map fun entry => (entry.ino, entry.string))
    (honly : ∀ entry ∈ (treeVolume.entries d).map fun entry => (entry.ino, entry.string),
      entry.2 = name → entry.1 = ino) :
    (∃ entry ∈ treeVolume.entries d, entry.string = name) ∧
      ∀ entry ∈ treeVolume.entries d, entry.string = name → entry.ino = ino := by
  obtain ⟨entry, hmem, heq⟩ := List.mem_map.mp hin
  exact ⟨⟨entry, hmem, (Prod.mk.inj heq).2⟩, fun entry hmem hname =>
    honly _ (List.mem_map_of_mem hmem) hname⟩

/-- `.` and `..` of the three directories. -/
theorem treeVolume_dots (hd : d ∈ treeVolume.inodeList) :
    ((∃ entry ∈ treeVolume.entries d, entry.string = dotName) ∧
      ∀ entry ∈ treeVolume.entries d, entry.string = dotName → entry.ino = d) ∧
    (∃ entry ∈ treeVolume.entries d, entry.string = dotdotName) ∧
      ∀ entry ∈ treeVolume.entries d, entry.string = dotdotName → entry.ino = treeParent d := by
  suffices hlisted : ∀ p ∈ [(d, dotName), (treeParent d, dotdotName)],
      p ∈ (treeVolume.entries d).map (fun entry => (entry.ino, entry.string)) ∧
      ∀ entry ∈ (treeVolume.entries d).map (fun entry => (entry.ino, entry.string)),
        entry.2 = p.2 → entry.1 = p.1 by
    obtain ⟨hdot, honly⟩ := hlisted (d, dotName) (by simp)
    obtain ⟨hdotdot, honly'⟩ := hlisted (treeParent d, dotdotName) (by simp)
    exact ⟨treeVolume_found hdot honly, treeVolume_found hdotdot honly'⟩
  rw [treeVolume_entries hd]
  rcases mem_tree.mp hd with rfl | rfl | rfl
  all_goals decide

/-- The slot with the name of a directory, in its parent. -/
def treeSlot (n : BitVec 32) : Nat := if n = 4 then 3 else 2

theorem treeVolume_names {i : Nat} (hp : p ∈ treeVolume.inodeList) (hd : d ∈ treeVolume.inodeList) :
    treeVolume.Names p i d ↔ d ≠ 3 ∧ p = treeParent d ∧ i = treeSlot d := by
  have hblocks : (treeVolume.din p).blocks = (treeBlocks p).2 := by
    rw [din_cached hp]
    rfl
  obtain ⟨hslot, hlt⟩ : (∀ i < (treeBlocks p).2.toNat,
      let entry := treeEntries.getD ((treeBlocks p).1.toNat + i - 6) (0, [])
      (entry.1 = d ∧ entry.2 ≠ dotName ∧ entry.2 ≠ dotdotName ↔
        d ≠ 3 ∧ p = treeParent d ∧ i = treeSlot d)) ∧
      (d ≠ 3 ∧ p = treeParent d → treeSlot d < (treeBlocks p).2.toNat) := by
    rcases mem_tree.mp hp with rfl | rfl | rfl <;> rcases mem_tree.mp hd with rfl | rfl | rfl
    all_goals decide
  constructor
  · rintro ⟨hi, hino, hdot, hdotdot⟩
    rw [hblocks] at hi
    obtain ⟨hino', hstring⟩ := Prod.mk.inj (treeVolume_entryAt hp hi)
    exact (hslot i hi).mp ⟨hino' ▸ hino, hstring ▸ hdot, hstring ▸ hdotdot⟩
  · intro hname
    have hi : i < (treeBlocks p).2.toNat := hname.2.2 ▸ hlt ⟨hname.1, hname.2.1⟩
    obtain ⟨hino, hstring⟩ := Prod.mk.inj (treeVolume_entryAt hp hi)
    obtain ⟨hino', hdot, hdotdot⟩ := (hslot i hi).mpr hname
    exact ⟨hblocks ▸ hi, hino.trans hino', hstring ▸ hdot, hstring ▸ hdotdot⟩

theorem treeParent_mem (hd : d ∈ treeVolume.inodeList) :
    treeParent d ∈ treeVolume.inodeList ∧ treeParent (treeParent d) = 3 := by
  rcases mem_tree.mp hd with rfl | rfl | rfl
  all_goals decide

theorem treeStore_ok : treeStore.Ok treeOwner ∧
    DirTree treeOwner treeVolume 3 treeParent fun d => d ∈ treeVolume.inodeList := by
  have hdir : ∀ n ∈ treeVolume.inodeList, Directory treeOwner treeVolume n :=
    fun _ hn => treeVolume_directory hn
  have hcount : sfsFreemapBlocks treeVolume.super = 1 := by
    rw [sfsFreemapBlocks, roundupDiv]
    decide
  have hdirty : true ≠ false := by decide
  refine ⟨⟨⟨(hdir 3 (by decide)).mapped, fun n hn => treeOwner_inode.mpr hn, rfl, fun i hi => ?_⟩,
    ⟨fun n _ hclean => absurd hclean hdirty, fun hclean => absurd hclean hdirty⟩,
    fun n hn => ?_, by decide, fun n hn => ?_, fun n => ?_,
    fun n _ => ⟨Int.zero_le_ofNat 1, fun _ => Int.zero_lt_one⟩⟩,
    ⟨fun d hd => ⟨treeOwner_inode.mpr hd, (hdir d hd).type⟩, ⟨by decide, rfl⟩,
      fun d hd => (treeParent_mem hd).1, fun d hd => ⟨2, (treeParent_mem hd).2⟩,
      fun d hd => ?_, fun d hd => ?_, fun d hd hne => ?_⟩⟩
  · change i < sfsFreemapBlocks treeVolume.super at hi
    obtain rfl : i = 0 := by omega
    rfl
  · have hn := treeOwner_inode.mp hn
    refine ⟨?_, .inl (hdir n hn).type⟩
    show (treeVolume.din n).nlinks ≠ 0
    rw [din_cached hn]
    exact (by decide : (1 : BitVec 16) ≠ 0)
  · refine if_neg fun heq => ?_
    rw [heq] at hn
    exact hn (by decide)
  · refine ⟨Int.le_refl 0, ?_⟩
    show 0 ≤ if n = 5 then (1 : Int) else 0
    split <;> decide
  · exact (treeVolume_dots hd).1
  · exact (treeVolume_dots hd).2
  · exact ⟨treeSlot d, (treeVolume_names (treeParent_mem hd).1 hd).mpr ⟨hne, rfl, rfl⟩,
      fun p i hp hname => ((treeVolume_names hp hd).mp hname).2⟩

/-- The path of `/a/bc`, in a buffer that it fills. -/
theorem sfsNamefile_path_below : ∃ t : Store, ∃ r : Int × Iobuf,
    sfsNamefile (fun _ => true) (fun _ => 0) 5 ⟨fun _ => 1, 0, 0, 7, 7⟩ treeStore = .ok (r, t) ∧
      r.1 = 0 ∧ Spells r.2.base 0 [47, 97, 47, 98, 99, 47, 0] ∧
      t.refCount = treeStore.refCount := by
  obtain ⟨hok, htree⟩ := treeStore_ok
  have hroot : (3 : BitVec 32) ∈ treeVolume.inodeList := by decide
  have hupper : (4 : BitVec 32) ∈ treeVolume.inodeList := by decide
  have hlower : (5 : BitVec 32) ∈ treeVolume.inodeList := by decide
  have hpath : Path treeVolume 3 treeParent 5 [[97], [98, 99]] := by
    have hnames := (treeVolume_names (i := 3) hroot hupper).mpr (by decide)
    have hnames' := (treeVolume_names (i := 2) hupper hlower).mpr (by decide)
    have hstring : (treeVolume.entryAt 3 3).string = [97] :=
      (Prod.mk.inj (treeVolume_entryAt hroot (i := 3) (by decide))).2
    have hstring' : (treeVolume.entryAt 4 2).string = [98, 99] :=
      (Prod.mk.inj (treeVolume_entryAt hupper (i := 2) (by decide))).2
    have hfirst : Path treeVolume 3 treeParent 4 [[97]] := by
      rw [← hstring]
      exact .child 4 3 [] (by decide) hnames .root
    rw [← hstring']
    exact .child 5 2 [[97]] (by decide) hnames' hfirst
  have hio : ∀ k, (fun _ => 0 : Nat → Int) k = 0 := fun _ => rfl
  obtain ⟨_, hall⟩ := sfsNamefile_path hio hok htree hlower Int.zero_lt_one ⟨fun _ => 1, 0, 0, 7, 7⟩
  obtain ⟨r, t, hrun, hret, _, hspells, _, hrefs, _⟩ := (hall _ hpath).ok
  have hzero : r.1 = 0 := hret.mpr ⟨⟨by decide, by decide⟩, fun _ _ _ => rfl⟩
  exact ⟨t, r, hrun, hzero, hspells hzero, hrefs⟩

end Ucore.Sfs
