import Ucore.Sfs.Namefile
import Ucore.Vfs.Path

/-!
# Opening a file

`vfs_open` of `kern/fs/vfs/vfsfile.c` on a mounted volume in lab 8, with `vfslookup.c` and
what they use of the inodes of the sfs. A file that is opened with `O_CREAT` is truncated
as one that is opened with `O_TRUNC`, also where it was there before.
-/

namespace Ucore.Sfs

open Machine
open Fs (O_RDONLY O_ACCMODE O_APPEND)
open Vfs (O_CREAT O_EXCL O_TRUNC E_NO_DEV E_ISDIR E_NOTDIR E_EXISTS Str VfsDev slashChar colonChar
  scanFrom skipSlashes cutPath validFlags)

/-- Where paths start: the directory of the process, that of the boot file system, and the
devices. -/
structure Places where
  pwd : Option (BitVec 32)
  bootfsNode : Option (BitVec 32)
  vdevList : List VfsDev

/-- A path as the file system reads it. -/
def bytes (path : Str) : List Byte := path.map UInt8.toBitVec

section Model

variable (heap : Nat → Bool) (io : Nat → Int)

/-! ## The operations of the inodes -/

/-- `vop_fsync`, which is also `sfs_close`. -/
def vopFsync (node : BitVec 32) : StoreM Int := do
  inodeCheck node
  onVolume (sfsFsync io node)

def vopClose (node : BitVec 32) : StoreM Int := do
  inodeCheck node
  vopFsync io node

def inodeOpenInc (node : BitVec 32) : StoreM PUnit :=
  modify fun s => s.setOpen node (s.openCount node + 1)

/-- What `vop_close` returns is printed. -/
def inodeOpenDec (node : BitVec 32) : StoreM PUnit := do
  let s ← get
  check .inodeOpenDec (0 < s.openCount node)
  set (s.setOpen node (s.openCount node - 1))
  if s.openCount node - 1 = 0 then
    let _ ← vopClose io node
    return ⟨⟩
  else return ⟨⟩

def sfsOpendir (openFlags : BitVec 32) : Int :=
  if openFlags &&& O_ACCMODE ≠ O_RDONLY then -E_ISDIR
  else if openFlags &&& O_APPEND ≠ 0 then -E_ISDIR
  else 0

/-- `sfs_openfile` does nothing. -/
def vopOpen (node : BitVec 32) (openFlags : BitVec 32) : StoreM Int := do
  inodeCheck node
  if ((← get).volume.sin node).din.type = SFS_TYPE_DIR then return sfsOpendir openFlags
  else return 0

/-- `vop_truncate` of an inode with its counts. -/
def vopTruncateInode (node : BitVec 32) (len : Int) : StoreM Int := do
  inodeCheck node
  onVolume (vopTruncate io node len)

def sfsLookup (node : BitVec 32) (path : Str) : StoreM (Except Int (BitVec 32)) := do
  check .vfs (path ≠ [] ∧ path.head? ≠ some slashChar)
  let _ ← inodeRefInc node
  if ((← get).volume.sin node).din.type ≠ SFS_TYPE_DIR then
    let _ ← inodeRefDec io node
    return .error (-E_NOTDIR)
  else
    let found ← sfsLookupOnce heap io node (bytes path)
    let _ ← inodeRefDec io node
    return found

/-- `vop_lookup`, which files do not have. -/
def vopLookup (node : BitVec 32) (path : Str) : StoreM (Except Int (BitVec 32)) := do
  check (.sfs .vopOp) (((← get).volume.sin node).din.type = SFS_TYPE_DIR)
  inodeCheck node
  sfsLookup heap io node path

/-! ## Where a path starts -/

def vfsGetCurdir (places : Places) : StoreM (Except Int (BitVec 32)) :=
  match places.pwd with
  | none => return .error (-E_NOENT)
  | some node => do
      let _ ← inodeRefInc node
      return .ok node

def vfsGetBootfs (places : Places) : StoreM (Except Int (BitVec 32)) :=
  match places.bootfsNode with
  | none => return .error (-E_NOENT)
  | some node => do
      let _ ← inodeRefInc node
      return .ok node

/-- It panics where the root cannot be loaded. -/
def sfsGetRoot : StoreM (BitVec 32) := do
  match ← sfsLoadInode heap io (BitVec.ofNat 32 SFS_BLKN_ROOT) with
  | .error _ => throw .vfs
  | .ok _ => return BitVec.ofNat 32 SFS_BLKN_ROOT

/-- The inodes of the devices are not part of a volume: the run ends with them. -/
def vfsGetRoot (places : Places) (devname : Str) : StoreM (Except Int (BitVec 32)) :=
  match places.vdevList.find? fun vdev => devname = vdev.devname with
  | none => return .error (-E_NO_DEV)
  | some vdev => do
      if vdev.fs then return .ok (← sfsGetRoot heap io)
      else if vdev.mountable then return .error (-E_NA_DEV)
      else throw .vfs

/-- `get_device`: the path that is left, and the inode where its lookup starts. -/
def getDevice (places : Places) (path : Str) : StoreM (Except Int (Str × BitVec 32)) := do
  let slash := (scanFrom 0 path).1
  let colon := (scanFrom 0 path).2
  if colon < 0 ∧ slash ≠ 0 then return (← vfsGetCurdir places).map fun node => (path, node)
  else if colon > 0 then
    let subpath := skipSlashes (path.drop (colon.toNat + 1))
    return (← vfsGetRoot heap io places (path.take colon.toNat)).map fun node => (subpath, node)
  else if path.head? = some slashChar then
    return (← vfsGetBootfs places).map fun node => (skipSlashes path.tail, node)
  else
    check .vfs (path.head? = some colonChar)
    match ← vfsGetCurdir places with
    | .error ret => return .error ret
    | .ok node =>
        let root ← sfsGetRoot heap io
        let _ ← inodeRefDec io node
        return .ok (skipSlashes path.tail, root)

def vfsLookup (places : Places) (path : Str) : StoreM (Except Int (BitVec 32)) := do
  match ← getDevice heap io places path with
  | .error ret => return .error ret
  | .ok (subpath, node) =>
      if subpath ≠ [] then
        let found ← vopLookup heap io node subpath
        let _ ← inodeRefDec io node
        return found
      else return .ok node

/-! ## Opening -/

/-- `vfs_open` from `vop_open` on. -/
def vfsOpenNode (node : BitVec 32) (openFlags : BitVec 32) : StoreM (Except Int (BitVec 32)) := do
  let ret ← vopOpen node openFlags
  if ret ≠ 0 then
    let _ ← inodeRefDec io node
    return .error ret
  else
    inodeOpenInc node
    if openFlags &&& O_TRUNC ≠ 0 ∨ openFlags &&& O_CREAT ≠ 0 then
      let ret ← vopTruncateInode io node 0
      if ret ≠ 0 then
        inodeOpenDec io node
        let _ ← inodeRefDec io node
        return .error ret
      else return .ok node
    else return .ok node

/-- The directories of the sfs have no `vop_create`. -/
def vfsOpen (places : Places) (path : Str) (openFlags : BitVec 32) :
    StoreM (Except Int (BitVec 32)) := do
  if validFlags openFlags = false then return .error (-E_INVAL)
  else
    match ← vfsLookup heap io places path with
    | .error ret =>
        if ret = -E_NOENT ∧ openFlags &&& O_CREAT ≠ 0 then
          match ← getDevice heap io places (cutPath path) with
          | .error ret => return .error ret
          | .ok _ => throw (.sfs .vopOp)
        else return .error ret
    | .ok node =>
        if openFlags &&& O_EXCL ≠ 0 ∧ openFlags &&& O_CREAT ≠ 0 then return .error (-E_EXISTS)
        else vfsOpenNode io node openFlags

end Model

variable {heap : Nat → Bool} {io : Nat → Int} {own own' : Nat → Owner}
  {s t u : Store} {v w : Volume}
  {node d f : BitVec 32} {places : Places} {path sub : Str} {openFlags : BitVec 32}

/-- Stopping is not excluded: for what holds of a call if it returns. -/
def anyway (_ : Stopped) : Prop := True

/-! ## References -/

/-- A call that ends with one more reference to what it returns. -/
def Returned (s t : Store) : Except Int (BitVec 32) → Prop
  | .ok node => t.refCount = addRef s.refCount node
  | .error _ => t.refCount = s.refCount

theorem le_addRef (refs : BitVec 32 → Int) (node n : BitVec 32) : refs n ≤ addRef refs node n := by
  rw [addRef_apply]
  split <;> omega

theorem dropRef_addRef_comm (refs : BitVec 32 → Int) (n m : BitVec 32) :
    dropRef (addRef (addRef refs n) m) n = addRef refs m := by
  funext x
  simp only [dropRef_apply, addRef_apply]
  split <;> split <;> omega

/-- An inode that has references gets one more. -/
theorem addRef_spec (h : s.Ok own) (hpos : 0 < s.refCount node) :
    Ends never (inodeRefInc node) s fun _ t => Undisturbed own s t ∧
      t.refCount = addRef s.refCount node ∧ t.volume = s.volume := by
  have hcached := h.cached hpos
  have hopens := h.opens node
  have hok : (s.setRef node (s.refCount node + 1)).Ok own :=
    h.setRef hcached (by omega) fun _ => (h.claims node hcached).2 hpos
  rw [inodeRefInc, ends_bind, ends_get, ends_bind, ends_set, ends_pure]
  exact ⟨⟨hok, .refl own _, rfl, Nat.le_refl _⟩, rfl, rfl⟩

/-- The directories that paths start from, the current one and that of the boot file system, are
referred to; the root of the volume is an inode. -/
structure Places.Ok (places : Places) (own : Nat → Owner) (s : Store) : Prop where
  pwd : ∀ d, places.pwd = some d → 0 < s.refCount d
  bootfs : ∀ d, places.bootfsNode = some d → 0 < s.refCount d
  root : own SFS_BLKN_ROOT = .inode

/-- The path that is left, and the inode it starts from. -/
def Places.start (places : Places) (path : Str) : Option (Str × BitVec 32) :=
  let slash := (scanFrom 0 path).1
  let colon := (scanFrom 0 path).2
  if colon < 0 ∧ slash ≠ 0 then places.pwd.map fun node => (path, node)
  else if colon > 0 then
    match places.vdevList.find? fun vdev => path.take colon.toNat = vdev.devname with
    | none => none
    | some vdev =>
        if vdev.fs then some (skipSlashes (path.drop (colon.toNat + 1)),
          BitVec.ofNat 32 SFS_BLKN_ROOT)
        else none
  else if path.head? = some slashChar then
    places.bootfsNode.map fun node => (skipSlashes path.tail, node)
  else places.pwd.map fun _ => (skipSlashes path.tail, BitVec.ofNat 32 SFS_BLKN_ROOT)

theorem vfsGetCurdir_spec (h : s.Ok own) (hplaces : places.Ok own s) :
    Ends never (vfsGetCurdir places) s fun r t => Undisturbed own s t ∧ Returned s t r ∧
      ∀ d, r = .ok d → places.pwd = some d := by
  rw [vfsGetCurdir]
  cases hpwd : places.pwd with
  | none => exact ⟨.refl h, rfl, fun d hd => by cases hd⟩
  | some d =>
      simp only
      rw [ends_bind]
      apply (addRef_spec h (hplaces.pwd d hpwd)).imp
      rintro _ t ⟨hundisturbed, hrefs, _⟩
      exact ⟨hundisturbed, hrefs, fun d' hd' => by rw [Except.ok.inj hd']⟩

theorem vfsGetBootfs_spec (h : s.Ok own) (hplaces : places.Ok own s) :
    Ends never (vfsGetBootfs places) s fun r t => Undisturbed own s t ∧ Returned s t r ∧
      ∀ d, r = .ok d → places.bootfsNode = some d := by
  rw [vfsGetBootfs]
  cases hboot : places.bootfsNode with
  | none => exact ⟨.refl h, rfl, fun d hd => by cases hd⟩
  | some d =>
      simp only
      rw [ends_bind]
      apply (addRef_spec h (hplaces.bootfs d hboot)).imp
      rintro _ t ⟨hundisturbed, hrefs, _⟩
      exact ⟨hundisturbed, hrefs, fun d' hd' => by rw [Except.ok.inj hd']⟩

theorem sfsGetRoot_spec (h : s.Ok own) (hroot : own SFS_BLKN_ROOT = .inode) :
    Ends anyway (sfsGetRoot heap io) s fun d t => Undisturbed own s t ∧
      t.refCount = addRef s.refCount d ∧ d = BitVec.ofNat 32 SFS_BLKN_ROOT := by
  rw [sfsGetRoot, ends_bind]
  apply (sfsLoadInode_spec h (show own (BitVec.ofNat 32 SFS_BLKN_ROOT).toNat =
    .inode from hroot)).lift
  rintro r t ⟨hundisturbed, hr⟩
  cases r with
  | error ret => trivial
  | ok _ => exact ⟨hundisturbed, hr.refs, rfl⟩

/-- `get_device` takes a reference to where the path starts. -/
theorem getDevice_spec (h : s.Ok own) (hplaces : places.Ok own s) :
    Ends anyway (getDevice heap io places path) s fun r t => Undisturbed own s t ∧
      match r with
      | .ok (sub, d) => places.start path = some (sub, d) ∧ t.refCount = addRef s.refCount d
      | .error _ => t.refCount = s.refCount := by
  rw [getDevice, Places.start]
  simp only
  split
  next =>
    rw [ends_bind]
    apply (vfsGetCurdir_spec h hplaces).lift
    rintro r t ⟨hundisturbed, hrefs, hpwd⟩
    cases r with
    | error ret => exact ⟨hundisturbed, hrefs⟩
    | ok d => exact ⟨hundisturbed, by rw [hpwd d rfl]; rfl, hrefs⟩
  next =>
    split
    next =>
      rw [ends_bind, vfsGetRoot]
      cases places.vdevList.find? fun vdev =>
          path.take (scanFrom 0 path).2.toNat = vdev.devname with
      | none => exact ⟨.refl h, rfl⟩
      | some vdev =>
          simp only
          split
          next =>
            rw [ends_bind]
            apply (sfsGetRoot_spec h hplaces.root).imp
            rintro d t ⟨hundisturbed, hrefs, rfl⟩
            exact ⟨hundisturbed, rfl, hrefs⟩
          next =>
            split
            next => exact ⟨.refl h, rfl⟩
            next => trivial
    next =>
      split
      next =>
        rw [ends_bind]
        apply (vfsGetBootfs_spec h hplaces).lift
        rintro r t ⟨hundisturbed, hrefs, hboot⟩
        cases r with
        | error ret => exact ⟨hundisturbed, hrefs⟩
        | ok d => exact ⟨hundisturbed, by rw [hboot d rfl]; rfl, hrefs⟩
      next =>
        rw [ends_bind, ends_check_of trivial]
        intro _
        rw [ends_bind]
        apply (vfsGetCurdir_spec h hplaces).lift
        rintro r t ⟨hundisturbed, hrefs, hpwd⟩
        cases r with
        | error ret => exact ⟨hundisturbed, hrefs⟩
        | ok d =>
            have hopens := h.opens d
            have hrefs : t.refCount = addRef s.refCount d := hrefs
            simp only
            rw [ends_bind]
            apply (sfsGetRoot_spec hundisturbed.ok hplaces.root).imp
            rintro root u ⟨hloaded, hrefs', rfl⟩
            -- the directory is given back
            have hopen : u.openCount d < u.refCount d := by
              rw [hloaded.opens, hundisturbed.opens, hrefs', hrefs]
              have hle := le_addRef (addRef s.refCount d) (BitVec.ofNat 32 SFS_BLKN_ROOT) d
              have hone : addRef s.refCount d d = s.refCount d + 1 := by
                rw [addRef_apply, if_pos rfl]
              omega
            rw [ends_bind]
            apply (dropRef_spec hloaded.ok hopen).lift
            rintro _ w ⟨hmore, hdrop, _⟩
            refine ⟨(hundisturbed.trans hloaded).trans hmore, by rw [hpwd d rfl]; rfl, ?_⟩
            rw [hdrop, hrefs', hrefs, dropRef_addRef_comm]

/-! ## Looking the path up -/

/-- The entries of a directory are those of its blocks. -/
theorem Same.named (h : Same own v w) (hv : Mapped own v) (hd : own d.toNat = .inode)
    (name : List Byte) : w.named d name = v.named d name := by
  have hentries : w.entries d = v.entries d := by
    rw [Volume.entries, Volume.entries, h.din d hd, Volume.entriesFrom, Volume.entriesFrom]
    congr 1
    apply List.map_congr_left
    intro i hi
    rw [List.mem_range'_1] at hi
    exact h.entryAt hv hd (by omega)
  rw [Volume.named, Volume.named, hentries]

theorem sfsLookup_spec (h : s.Ok own) (hopen : s.openCount d < s.refCount d)
    (hinode : ∀ entry, s.volume.named d (bytes sub) = some entry → own entry.ino.toNat = .inode) :
    Ends anyway (sfsLookup heap io d sub) s fun r t => Undisturbed own s t ∧ Returned s t r ∧
      ∀ node, r = .ok node → ∃ entry, s.volume.named d (bytes sub) = some entry ∧
        entry.ino = node := by
  have hopens := h.opens d
  rw [sfsLookup, ends_bind, ends_check_of trivial]
  intro _
  rw [ends_bind]
  have href : 0 < s.refCount d := by omega
  apply (addRef_spec h href).lift
  rintro _ t ⟨hundisturbed, hrefs, hvolume⟩
  have hone : t.refCount d = s.refCount d + 1 := by rw [hrefs, addRef_apply, if_pos rfl]
  have hopen' : t.openCount d < t.refCount d := by
    rw [hundisturbed.opens]
    omega
  have href' : 0 < t.refCount d := by omega
  have hcached := hundisturbed.ok.cached href'
  rw [ends_bind, ends_get, ← din_cached hcached]
  split
  next =>
    rw [ends_bind]
    apply (dropRef_spec hundisturbed.ok hopen').lift
    rintro _ u ⟨hmore, hdrop, _⟩
    refine ⟨hundisturbed.trans hmore, ?_, fun node hnode => by cases hnode⟩
    show u.refCount = s.refCount
    rw [hdrop, hrefs, dropRef_addRef]
  next htype =>
    rw [not_not] at htype
    have hdir : Directory own t.volume d := hundisturbed.ok.directory (by omega) htype
    rw [ends_bind]
    by_cases hname : (bytes sub).length ≤ SFS_MAX_FNAME_LEN
    · apply (sfsLookupOnce_spec hundisturbed.ok hdir hname (by rwa [hvolume])).lift
      rintro r u ⟨hlooked, hr⟩
      have hdropped : ∀ {refs : BitVec 32 → Int}, (∀ n, t.refCount n ≤ refs n) → u.refCount = refs →
          Ends anyway (do
            let _ ← inodeRefDec io d
            return r) u fun r' w => r' = r ∧ Undisturbed own s w ∧ w.refCount = dropRef refs d := by
        intro refs hle heq
        have hopen'' : u.openCount d < u.refCount d := by
          have := hle d
          rw [hlooked.opens, heq]
          omega
        rw [ends_bind]
        apply (dropRef_spec hlooked.ok hopen'').lift
        rintro _ w ⟨hmore, hdrop, _⟩
        exact ⟨rfl, (hundisturbed.trans hlooked).trans hmore, by rw [hdrop, heq]⟩
      cases r with
      | error ret =>
          apply (hdropped (fun n => Int.le_refl _) hr.1).imp
          rintro r' w ⟨rfl, hall, hdrop⟩
          refine ⟨hall, ?_, fun node hnode => by cases hnode⟩
          show w.refCount = s.refCount
          rw [hdrop, hrefs, dropRef_addRef]
      | ok ino =>
          obtain ⟨hentry, htaken⟩ := hr
          apply (hdropped (le_addRef t.refCount ino) htaken.refs).imp
          rintro r' w ⟨rfl, hall, hdrop⟩
          refine ⟨hall, ?_, fun node hnode => ?_⟩
          · show w.refCount = addRef s.refCount ino
            rw [hdrop, hrefs, dropRef_addRef_comm]
          · rw [← Except.ok.inj hnode, ← hvolume]
            exact hentry
    · rw [sfsLookupOnce, ends_bind, ends_kmallocOk, ends_bind, ends_onVolume, sfsDirentSearchNolock,
        ends_bind, ends_check_of trivial]
      exact fun hshort => absurd hshort hname

/-- A path names an inode: that where it starts, or the one that an entry of a directory has. -/
def Places.Names (places : Places) (v : Volume) (path : Str) (f : BitVec 32) : Prop :=
  ∃ sub d, places.start path = some (sub, d) ∧ (sub = [] ∧ d = f ∨
    sub ≠ [] ∧ (v.din d).type = SFS_TYPE_DIR ∧ ∃ entry, v.named d (bytes sub) = some entry ∧
      entry.ino = f)

/-- The lookup of a path that names a file gives this file, or fails. -/
theorem vfsLookup_spec (h : s.Ok own) (hplaces : places.Ok own s) (hf : own f.toNat = .inode)
    (hnames : places.Names s.volume path f) :
    Ends anyway (vfsLookup heap io places path) s fun r t => Undisturbed own s t ∧ Returned s t r ∧
      ∀ node, r = .ok node → node = f := by
  obtain ⟨sub, d, hstart, hsub⟩ := hnames
  rw [vfsLookup, ends_bind]
  apply (getDevice_spec h hplaces).imp
  rintro r t ⟨hundisturbed, hr⟩
  cases r with
  | error ret => exact ⟨hundisturbed, hr, fun node hnode => by cases hnode⟩
  | ok r =>
      obtain ⟨sub', d'⟩ := r
      obtain ⟨hstart', hrefs⟩ := hr
      rw [hstart, Option.some.injEq, Prod.mk.injEq] at hstart'
      obtain ⟨rfl, rfl⟩ := hstart'
      have hopens := h.opens d
      have hopen : t.openCount d < t.refCount d := by
        rw [hundisturbed.opens, hrefs, addRef_apply, if_pos rfl]
        omega
      simp only
      rcases hsub with ⟨hempty, rfl⟩ | ⟨hne, _, entry, hentry, rfl⟩
      · rw [if_neg (not_not.mpr hempty)]
        exact ⟨hundisturbed, hrefs, fun node hnode => (Except.ok.inj hnode).symm⟩
      · have hd : own d.toNat = .inode :=
          hundisturbed.ok.seated.list _ (hundisturbed.ok.cached (by
            have := hundisturbed.ok.opens d
            omega))
        have hnamed := hundisturbed.same.named h.seated.mapped hd (bytes sub)
        rw [if_pos hne, ends_bind, vopLookup, ends_bind, ends_get, ends_bind, ends_check_of trivial]
        intro _
        rw [inodeCheck, ends_bind, ends_bind, ends_get, ends_bind, ends_check_of trivial]
        intro _
        rw [ends_check_of trivial]
        intro _
        apply (sfsLookup_spec hundisturbed.ok hopen fun entry' hentry' => ?_).imp
        · rintro r u ⟨hlooked, hreturned, hfound⟩
          have hopen' : u.openCount d < u.refCount d := by
            rw [hlooked.opens]
            cases r with
            | error ret =>
                rw [show u.refCount = t.refCount from hreturned]
                exact hopen
            | ok node =>
                have hle := le_addRef t.refCount node d
                rw [show u.refCount = addRef t.refCount node from hreturned]
                omega
          rw [ends_bind]
          apply (dropRef_spec hlooked.ok hopen').lift
          rintro _ w ⟨hmore, hdrop, _⟩
          refine ⟨(hundisturbed.trans hlooked).trans hmore, ?_, fun node hnode => ?_⟩
          · cases r with
            | error ret =>
                show w.refCount = s.refCount
                rw [hdrop, show u.refCount = t.refCount from hreturned, hrefs, dropRef_addRef]
            | ok node =>
                show w.refCount = addRef s.refCount node
                rw [hdrop, show u.refCount = addRef t.refCount node from hreturned, hrefs,
                  dropRef_addRef_comm]
          · obtain ⟨entry', hentry', rfl⟩ := hfound node hnode
            rw [hnamed, hentry, Option.some.injEq] at hentry'
            rw [hentry']
        · rw [hnamed, hentry, Option.some.injEq] at hentry'
          rwa [← hentry']

/-! ## What happens to the file -/

/-- A file has its size, its blocks and what is in them; all that a truncation could take away. -/
structure FileKept (v w : Volume) (f : BitVec 32) : Prop where
  size : (w.din f).size = (v.din f).size
  blocks : (w.din f).blocks = (v.din f).blocks
  slot : ∀ i, w.slot f i = v.slot f i
  contents : ∀ i, v.slot f i ≠ 0 → w.disk (v.slot f i).toNat = v.disk (v.slot f i).toNat

theorem Same.fileKept (h : Same own v w) (hv : Sound own v) (hf : own f.toNat = .inode) :
    FileKept v w f where
  size := by rw [h.din f hf]
  blocks := by rw [h.din f hf]
  slot := h.slot hv hf
  contents i hi := by
    have hcontents := h.contents hv hf hi
    rwa [h.slot hv hf i] at hcontents

theorem FileKept.trans {x : Volume} (h : FileKept v w f) (h' : FileKept w x f) :
    FileKept v x f where
  size := h'.size.trans h.size
  blocks := h'.blocks.trans h.blocks
  slot i := (h'.slot i).trans (h.slot i)
  contents i hi := by
    have hkept := h'.contents i (by rwa [h.slot i])
    rw [h.slot i] at hkept
    exact hkept.trans (h.contents i hi)

theorem FileKept.symm (h : FileKept v w f) : FileKept w v f where
  size := h.size.symm
  blocks := h.blocks.symm
  slot i := (h.slot i).symm
  contents i hi := by
    rw [h.slot i] at hi ⊢
    exact (h.contents i hi).symm

/-- The file has a size that is taken from it, and its last block can be freed if it has one. -/
structure Clears (io : Nat → Int) (v : Volume) (f : BitVec 32) : Prop where
  size : (v.din f).size ≠ 0
  fits : (v.din f).blocks = 0 ∨ FreeFits io v ((v.din f).blocks.toNat - 1)

/-- Nothing is done to a file that is empty. -/
theorem sfsTruncfile_empty (hcached : f ∈ v.inodeList) (hsize : (v.din f).size = 0) :
    Ends (fun e => e = .sfsTruncfile ∧ (v.din f).size = 0) (sfsTruncfile io f 0) v
      fun ret t => ret = 0 ∧ t = v := by
  have hzero : (((v.sin f).din.size.toNat : Nat) : Int) = 0 := by
    rw [← din_cached hcached, hsize]
    rfl
  rw [sfsTruncfile, if_neg (by decide), ends_bind, ends_get]
  simp only
  rw [if_pos hzero, ends_bind, ends_check_of ⟨rfl, hsize⟩]
  exact fun _ => ⟨rfl, rfl⟩

/-- The device does not let the first block go. -/
theorem sfsTruncfile_refused (h : Mapped own v) (hnode : own f.toNat = .inode)
    (hcached : f ∈ v.inodeList) (hsize : (v.din f).size ≠ 0) (hblocks : (v.din f).blocks ≠ 0)
    (hfits : ¬FreeFits io v ((v.din f).blocks.toNat - 1)) :
    Ends never (sfsTruncfile io f 0) v fun ret t => IsError io ret ∧ ∃ k, t = v.tick k := by
  have hdin := din_cached hcached
  have hpos := toNat_ne_zero hblocks
  have hlong : ¬(((v.din f).size.toNat : Nat) : Int) = 0 := by
    have := toNat_ne_zero hsize
    omega
  have hfull : v.slot f ((v.din f).blocks.toNat - 1) ≠ 0 :=
    ((h.sized f hnode).slot _).mpr (by omega)
  have hle := (h.sized f hnode).le
  have htblks : blocksFor (Int.toNat 0) = 0 := by decide
  obtain ⟨left, hleft⟩ : ∃ left, (v.din f).blocks.toNat = left + 1 :=
    ⟨(v.din f).blocks.toNat - 1, by omega⟩
  rw [sfsTruncfile, if_neg (by decide), ends_bind, ends_get, ← hdin]
  simp only
  rw [if_neg hlong, htblks, ends_bind, resizeFile, if_neg (Nat.not_lt_zero _), if_pos (by omega),
    Nat.sub_zero, hleft, shrinkFile, ends_bind, sfsBmapTruncateNolock, ends_bind, ends_get, ← hdin]
  simp only
  rw [ends_bind, ends_check hblocks, ends_bind]
  apply (sfsBmapFreeNolock_spec h.sound hnode hcached (by omega) hfull).imp
  rintro ret t (⟨_, hserved, _⟩ | ⟨herror, _, k, rfl⟩)
  · exact absurd hserved hfits
  · rw [if_pos herror.ne_zero, ends_pure, if_pos herror.ne_zero, ends_pure, if_pos herror.ne_zero]
    exact ⟨herror, k, rfl⟩

/-- What is left of a file that loses its size. -/
theorem sfsTruncfile_clears (h : Mapped own v) (hnode : own f.toNat = .inode)
    (hcached : f ∈ v.inodeList) (hclears : Clears io v f) :
    Ends never (sfsTruncfile io f 0) v fun ret t =>
      TruncEnd io own v f 0 ret t ∧ ¬FileKept v t f := by
  have hsize := toNat_ne_zero hclears.size
  have hblocks : blocksFor (Int.toNat 0) = 0 := by decide
  apply (sfsTruncfile_spec h hnode hcached (by decide)).mono
  · rintro e ⟨_, hzero, _⟩
    omega
  intro ret t hend
  refine ⟨hend, fun hkept => ?_⟩
  cases hend with
  | refused hrange =>
      have hmax : (SFS_MAX_FILE_SIZE : Int) = 134217728 := rfl
      omega
  | same hzero => omega
  | done _ own' htruncated =>
      have hzero := htruncated.size
      rw [hkept.size] at hzero
      exact hsize hzero
  | growing _ _ m _ _ hlt => omega
  | shrinking _ _ m _ _ hlt hend =>
      obtain ⟨own', hshrunk⟩ := hend.shrunk
      have hfewer := hshrunk.blocks
      have hpos : 0 < m := by
        refine hend.first.mpr ⟨by omega, hclears.fits.resolve_left fun hnone => ?_⟩
        rw [hnone] at hlt
        exact absurd hlt (Nat.not_lt_zero _)
      rw [hkept.blocks] at hfewer
      omega

/-- A file that is truncated to nothing is kept exactly if it has nothing to lose, or the
device does not let go of its last block. -/
theorem sfsTruncfile_zero (h : Mapped own v) (hnode : own f.toNat = .inode)
    (hcached : f ∈ v.inodeList) :
    Ends (fun e => e = .sfsTruncfile ∧ (v.din f).size = 0) (sfsTruncfile io f 0) v fun ret t =>
      TruncEnd io own v f 0 ret t ∧ (FileKept v t f ↔ ¬Clears io v f) := by
  have hgiven : Ends (fun e => e = .sfsTruncfile ∧ (v.din f).size = 0) (sfsTruncfile io f 0) v
      (TruncEnd io own v f 0) := by
    apply (sfsTruncfile_spec h hnode hcached (by decide)).mono _ fun _ _ hend => hend
    rintro e ⟨he, hzero, _⟩
    exact ⟨he, BitVec.eq_of_toNat_eq (Int.ofNat_eq_zero.mp hzero)⟩
  by_cases hclears : Clears io v f
  · apply (sfsTruncfile_clears h hnode hcached hclears).lift
    rintro ret t ⟨hend, hlost⟩
    exact ⟨hend, iff_of_false hlost (not_not.mpr hclears)⟩
  by_cases hsize : (v.din f).size = 0
  · apply (hgiven.and (sfsTruncfile_empty hcached hsize)).imp
    rintro ret t ⟨hend, _, rfl⟩
    exact ⟨hend, iff_of_true ((Same.refl own t).fileKept h.sound hnode) hclears⟩
  · have hblocks : (v.din f).blocks ≠ 0 := fun hnone => hclears ⟨hsize, .inl hnone⟩
    have hfits : ¬FreeFits io v ((v.din f).blocks.toNat - 1) := fun hserved =>
      hclears ⟨hsize, .inr hserved⟩
    apply (hgiven.and (sfsTruncfile_refused h hnode hcached hsize hblocks hfits)).imp
    rintro ret t ⟨hend, _, k, rfl⟩
    exact ⟨hend, iff_of_true ((Same.tick own v k).fileKept h.sound hnode) hclears⟩

/-- A store whose file was truncated. -/
theorem Store.Ok.truncated {len ret : Int} (h : s.Ok own) (hcached : f ∈ s.volume.inodeList)
    (hlen : blocksFor len.toNat = 0) (hend : TruncEnd io own s.volume f len ret v) :
    ∃ own', ({ s with volume := v } : Store).Ok own' ∧ ∀ b, own' b = .inode ↔ own b = .inode := by
  obtain ⟨hflags, own', hframed, hseated⟩ := hend.flags h.seated h.flags fun hgrow => by omega
  have hnode := h.seated.list f hcached
  have hself : (v.din f).type = (s.volume.din f).type ∧ (v.din f).nlinks = (s.volume.din f).nlinks ∧
      (v.sin f).reclaimCount = (s.volume.sin f).reclaimCount := by
    cases hend with
    | refused | same => exact ⟨rfl, rfl, rfl⟩
    | done _ _ htruncated => exact ⟨htruncated.type, htruncated.nlinks, htruncated.reclaim⟩
    | growing _ _ m _ _ hlt => omega
    | shrinking _ _ m _ _ _ hend =>
        obtain ⟨_, hshrunk⟩ := hend.shrunk
        exact ⟨hshrunk.same.type, hshrunk.same.nlinks, hshrunk.same.reclaim⟩
  refine ⟨own', ⟨hseated, hflags, fun n hn => ?_, ?_, fun n hn => ?_, h.opens, fun n hn => ?_⟩,
    hframed.inode⟩
  · rw [hframed.inode] at hn
    by_cases heq : n = f
    · rw [heq]
      change (v.din f).nlinks ≠ 0 ∧ ((v.din f).type = _ ∨ (v.din f).type = _)
      rw [hself.1, hself.2.1]
      exact h.linked f hnode
    · change (v.din n).nlinks ≠ 0 ∧ ((v.din n).type = _ ∨ (v.din n).type = _)
      rw [hframed.din heq hn]
      exact h.linked n hn
  · change v.inodeList.Nodup
    rw [hframed.list]
    exact h.nodup
  · change n ∉ v.inodeList at hn
    rw [hframed.list] at hn
    exact h.out n hn
  · change n ∈ v.inodeList at hn
    rw [hframed.list] at hn
    have hclaim : (v.sin n).reclaimCount = (s.volume.sin n).reclaimCount := by
      by_cases heq : n = f
      · rw [heq, hself.2.2]
      · rw [hframed.others n heq]
    show 0 ≤ (v.sin n).reclaimCount ∧ (_ → 0 < (v.sin n).reclaimCount)
    rw [hclaim]
    exact h.claims n hn

/-! ## Opening an inode -/

theorem inodeCheck_spec (h : s.Ok own) (hmax : s.refCount node < MAX_INODE_COUNT) :
    Ends never (inodeCheck node) s fun _ t => s = t := by
  have hopens := h.opens node
  rw [inodeCheck, ends_bind, ends_get, ends_bind, ends_check ⟨hopens.2, hopens.1⟩,
    ends_check ⟨hmax, Int.lt_of_le_of_lt hopens.2 hmax⟩]

/-- One more open file of an inode. -/
theorem Store.Ok.setOpen (h : s.Ok own) {count : Int} (hlow : 0 ≤ count)
    (hhigh : count ≤ s.refCount node) : (s.setOpen node count).Ok own := by
  refine ⟨h.seated, h.flags, h.linked, h.nodup, h.out, fun n => ?_, h.claims⟩
  show 0 ≤ Function.update s.openCount node count n ∧ Function.update s.openCount node count n ≤ _
  rw [Function.update_apply]
  split
  next heq => exact ⟨hlow, heq ▸ hhigh⟩
  next => exact h.opens n

/-- An inode is written back, or stays dirty. -/
theorem Store.Ok.fsync (h : s.Ok own) (hcached : node ∈ s.volume.inodeList) :
    Ends never (onVolume (sfsFsync io node)) s fun _ t => t.Ok own ∧ Same own s.volume t.volume ∧
      t.refCount = s.refCount ∧ t.openCount = s.openCount := by
  have hnode := h.seated.list node hcached
  rw [ends_onVolume]
  apply (sfsFsync_spec h.seated.mapped.sound hnode).imp
  rintro _ v (⟨_, _, rfl⟩ | ⟨_, _, _, _, rfl⟩ | ⟨_, _, _, k, rfl⟩)
  · exact ⟨h, .refl own _, rfl, rfl⟩
  · have hsame : Same own s.volume ((s.volume.flush node).tick 2) := .flush h.seated hcached 2
    obtain ⟨_, hflags, _⟩ := h.seated.flush h.flags hcached 2
    refine ⟨h.same hsame hflags (fun _ hn => hn) h.nodup h.out fun n hn => ?_, hsame, rfl, rfl⟩
    have hsin : ((s.volume.flush node).tick 2).sin n =
        if n = node then { s.volume.sin node with dirty := false } else s.volume.sin n :=
      Function.update_apply _ _ _ _
    rw [hsin]
    split
    next heq =>
      rw [heq] at hn ⊢
      exact h.claims node hn
    next => exact h.claims n hn
  · exact ⟨h.tick k, .tick own s.volume k, rfl, rfl⟩

/-- The last open file of an inode has it written back. -/
theorem inodeOpenDec_spec (h : s.Ok own) (hpos : 0 < s.openCount node)
    (hmax : s.refCount node < MAX_INODE_COUNT) :
    Ends never (inodeOpenDec io node) s fun _ t => t.Ok own ∧ Same own s.volume t.volume ∧
      t.refCount = s.refCount ∧ t.openCount node = s.openCount node - 1 := by
  have hopens := h.opens node
  have hcached := h.cached (Int.lt_of_lt_of_le hpos hopens.2)
  obtain ⟨w, hw⟩ : ∃ w, w = s.setOpen node (s.openCount node - 1) := ⟨_, rfl⟩
  have hok : w.Ok own := hw ▸ h.setOpen (by omega) (by omega)
  have hvolume : w.volume = s.volume := by rw [hw]; rfl
  have hrefs : w.refCount = s.refCount := by rw [hw]; rfl
  have hopen : w.openCount node = s.openCount node - 1 := by
    rw [hw]
    exact Function.update_self _ _ _
  rw [inodeOpenDec, ends_bind, ends_get, ends_bind, ends_check hpos, ends_bind, ends_set, ← hw]
  split
  next =>
    rw [ends_bind, vopClose, ends_bind]
    apply (inodeCheck_spec hok (by rwa [hrefs])).imp
    rintro _ _ rfl
    rw [vopFsync, ends_bind]
    apply (inodeCheck_spec hok (by rwa [hrefs])).imp
    rintro _ _ rfl
    rw [← hvolume] at hcached
    apply (hok.fsync hcached).imp
    rintro _ t ⟨hok', hsame, hrefs', hopen'⟩
    exact ⟨hok', hvolume ▸ hsame, hrefs'.trans hrefs, by rw [hopen', hopen]⟩
  next => exact ⟨hok, hvolume ▸ .refl own _, hrefs, hopen⟩

/-- `vop_truncate` of a regular file. -/
theorem vopTruncateInode_spec (h : s.Ok own) (hcached : f ∈ s.volume.inodeList)
    (htype : (s.volume.din f).type ≠ SFS_TYPE_DIR) (hmax : s.refCount f < MAX_INODE_COUNT) :
    Ends (fun e => e = .sfs .sfsTruncfile ∧ (s.volume.din f).size = 0) (vopTruncateInode io f 0) s
      fun _ t => t.refCount = s.refCount ∧ t.openCount = s.openCount ∧
        (FileKept s.volume t.volume f ↔ ¬Clears io s.volume f) ∧
        ∃ own', t.Ok own' ∧ ∀ b, own' b = .inode ↔ own b = .inode := by
  have hnode := h.seated.list f hcached
  rw [vopTruncateInode, ends_bind]
  apply (inodeCheck_spec h hmax).lift
  rintro _ _ rfl
  rw [ends_onVolume, vopTruncate, ends_bind, ends_get, ends_bind,
    ends_check (by rwa [← din_cached hcached])]
  apply (sfsTruncfile_zero h.seated.mapped hnode hcached).mono
  · rintro e ⟨rfl, hsize⟩
    exact ⟨rfl, hsize⟩
  · rintro ret v ⟨hend, hkept⟩
    exact ⟨rfl, rfl, hkept, h.truncated hcached (by decide) hend⟩

/-- A file that is there is kept exactly if it is not truncated, or has nothing to lose. -/
theorem vfsOpenNode_spec (h : s.Ok own) (hopen : s.openCount f < s.refCount f)
    (hmax : s.refCount f < MAX_INODE_COUNT) (htrunc : openFlags &&& O_TRUNC = 0) :
    Ends (fun e => e = .sfs .vopOp ∧ (s.volume.din f).type = SFS_TYPE_DIR ∨
        e = .sfs .sfsTruncfile ∧ (s.volume.din f).size = 0) (vfsOpenNode io f openFlags) s
      fun _ t => (FileKept s.volume t.volume f ↔
        ¬(openFlags &&& O_CREAT ≠ 0 ∧ (s.volume.din f).type ≠ SFS_TYPE_DIR ∧
          Clears io s.volume f)) := by
  have hopens := h.opens f
  have href : 0 < s.refCount f := by omega
  have hcached := h.cached href
  have hf := h.seated.list f hcached
  have hsound := h.seated.mapped.sound
  have hsame : ∀ {v : Volume}, Same own s.volume v → FileKept s.volume v f := fun hsame =>
    hsame.fileKept hsound hf
  obtain ⟨w, hw⟩ : ∃ w, w = s.setOpen f (s.openCount f + 1) := ⟨_, rfl⟩
  have hok : w.Ok own := hw ▸ h.setOpen (by omega) (by omega)
  have hvolume : w.volume = s.volume := by rw [hw]; rfl
  have hrefs : w.refCount = s.refCount := by rw [hw]; rfl
  have hopened : w.openCount f = s.openCount f + 1 := by
    rw [hw]
    exact Function.update_self _ _ _
  rw [vfsOpenNode, ends_bind, vopOpen, ends_bind]
  apply (inodeCheck_spec h hmax).lift
  rintro _ _ rfl
  rw [ends_bind, ends_get, ← din_cached hcached]
  by_cases htype : (s.volume.din f).type = SFS_TYPE_DIR
  · rw [if_pos htype, ends_pure]
    have hnot : ¬(openFlags &&& O_CREAT ≠ 0 ∧ (s.volume.din f).type ≠ SFS_TYPE_DIR ∧
        Clears io s.volume f) := fun hall => hall.2.1 htype
    split
    next =>
      rw [ends_bind]
      apply (dropRef_spec h hopen).lift
      rintro _ t ⟨hundisturbed, _⟩
      exact iff_of_true (hsame hundisturbed.same) hnot
    next =>
      rw [ends_bind, inodeOpenInc, ends_modify, ← hw]
      split
      next =>
        -- the directory has no `vop_truncate`
        rw [ends_bind, vopTruncateInode, ends_bind]
        apply (inodeCheck_spec hok (by rwa [hrefs])).lift
        rintro _ _ rfl
        have hno : ¬(w.volume.sin f).din.type ≠ SFS_TYPE_DIR := by
          rw [hvolume, ← din_cached hcached]
          exact not_not.mpr htype
        rw [ends_onVolume, vopTruncate, ends_bind, ends_get, ends_bind, check,
          if_neg hno, ends_throw]
        exact .inl ⟨rfl, htype⟩
      next => exact iff_of_true (hsame (hvolume ▸ .refl own _)) hnot
  · rw [if_neg htype, ends_pure, if_neg (not_not.mpr rfl), ends_bind, inodeOpenInc,
      ends_modify, ← hw]
    by_cases hcreate : openFlags &&& O_CREAT = 0
    · rw [if_neg (by simp [htrunc, hcreate])]
      exact iff_of_true (hsame (hvolume ▸ .refl own _)) fun hall => hall.1 hcreate
    rw [if_pos (.inr hcreate), ends_bind]
    apply (vopTruncateInode_spec hok (by rwa [hvolume]) (by rwa [hvolume]) (by rwa [hrefs])).mono
    · rintro e ⟨he, hsize⟩
      rw [hvolume] at hsize
      exact .inr ⟨he, hsize⟩
    rintro ret t ⟨hrefs', hopen', hiff, own', hok', hinode⟩
    rw [hvolume] at hiff
    have hcond : FileKept s.volume t.volume f ↔ ¬(openFlags &&& O_CREAT ≠ 0 ∧
        (s.volume.din f).type ≠ SFS_TYPE_DIR ∧ Clears io s.volume f) := by
      rw [hiff]
      exact not_congr ⟨fun hclears => ⟨hcreate, htype, hclears⟩, fun hall => hall.2.2⟩
    split
    next =>
      have href : t.refCount f = s.refCount f := by rw [hrefs', hrefs]
      rw [ends_bind]
      apply (inodeOpenDec_spec hok' (by rw [hopen', hopened]; omega) (by rwa [href])).lift
      rintro _ u ⟨hok'', hsame', hrefs'', hopen''⟩
      rw [ends_bind]
      apply (dropRef_spec hok'' (by rw [hopen'', hopen', hopened, hrefs'', href]; omega)).lift
      rintro _ x ⟨hundisturbed, _⟩
      have hlast := (hsame'.trans hundisturbed.same).fileKept hok'.seated.mapped.sound
        ((hinode _).mpr hf)
      rw [ends_pure, ← hcond]
      exact ⟨fun hkept => hkept.trans hlast.symm, fun hkept => hkept.trans hlast⟩
    next => exact hcond

/-! ## Opening a path -/

/-- The open empties the file: it is an open for writing or reading with `O_CREAT` and not with
`O_EXCL` of a regular file that the lookup finds, with room for one more reference; the file has
a size, and the device lets its last block go. -/
structure Empties (heap : Nat → Bool) (io : Nat → Int) (places : Places) (path : Str)
    (openFlags : BitVec 32) (s : Store) (f : BitVec 32) : Prop where
  valid : validFlags openFlags = true
  create : openFlags &&& O_CREAT ≠ 0
  shared : openFlags &&& O_EXCL = 0
  file : (s.volume.din f).type = SFS_TYPE_FILE
  found : ∃ t, vfsLookup heap io places path s = .ok (.ok f, t) ∧ Clears io t.volume f
  room : s.refCount f + 1 < MAX_INODE_COUNT

/-- The file is not kept then. -/
theorem Empties.lost (hempties : Empties heap io places path openFlags s f) (h : s.Ok own)
    (hplaces : places.Ok own s) (hf : own f.toNat = .inode) (hnames : places.Names s.volume path f)
    (htrunc : openFlags &&& O_TRUNC = 0) : ¬Ends anyway (vfsOpen heap io places path openFlags) s
      fun _ t => FileKept s.volume t.volume f := by
  intro hall
  have hopens := h.opens f
  obtain ⟨t, hrun, hclears⟩ := hempties.found
  obtain ⟨hundisturbed, hrefs, _⟩ := (vfsLookup_spec h hplaces hf hnames).post hrun
  have href : t.refCount f = s.refCount f + 1 := by
    rw [show t.refCount = addRef s.refCount f from hrefs, addRef_apply, if_pos rfl]
  have hfile : (t.volume.din f).type = SFS_TYPE_FILE := by
    rw [hundisturbed.same.din f hf, hempties.file]
  have hlost : Ends never (vfsOpen heap io places path openFlags) s fun _ u =>
      ¬FileKept s.volume u.volume f := by
    rw [vfsOpen, if_neg (by rw [hempties.valid]; decide), ends_bind]
    apply Ends.of_ok hrun
    simp only
    rw [if_neg fun hexcl => hexcl.1 hempties.shared]
    apply (vfsOpenNode_spec hundisturbed.ok (by rw [hundisturbed.opens, href]; omega)
      (by rw [href]; exact hempties.room) htrunc).mono
    · rintro e (⟨_, hdir⟩ | ⟨_, hsize⟩)
      · rw [hfile] at hdir
        exact absurd hdir (by decide)
      · exact hclears.size hsize
    · intro _ u hiff hkept'
      have hback := (hundisturbed.same.fileKept h.seated.mapped.sound hf).symm.trans hkept'
      exact hiff.mp hback ⟨hempties.create, by rw [hfile]; decide, hclears⟩
  obtain ⟨_, u, hrun', hno⟩ := hlost.ok
  exact hno (hall.post hrun')

/-- Whatever the path, the flags, the counts and the failures of memory and device: opening a
file without `O_TRUNC` leaves it as it is exactly if it does not come to empty it. -/
theorem vfsOpen_keeps_iff (h : s.Ok own) (hplaces : places.Ok own s) (hf : own f.toNat = .inode)
    (hnames : places.Names s.volume path f) (htrunc : openFlags &&& O_TRUNC = 0) :
    Ends anyway (vfsOpen heap io places path openFlags) s (fun _ t =>
      FileKept s.volume t.volume f) ↔
      ¬Empties heap io places path openFlags s f := by
  have hopens := h.opens f
  have hkept : ∀ {v : Volume}, Same own s.volume v → FileKept s.volume v f := fun hsame =>
    hsame.fileKept h.seated.mapped.sound hf
  constructor
  · exact fun hall hempties => hempties.lost h hplaces hf hnames htrunc hall
  · intro hno
    rw [vfsOpen]
    split
    next => exact hkept (.refl own _)
    next hvalid =>
      rw [Bool.not_eq_false] at hvalid
      rw [ends_bind]
      apply ((Ends.self (vfsLookup heap io places path) s).and
        (vfsLookup_spec h hplaces hf hnames)).imp
      rintro r t ⟨hrun, hundisturbed, hrefs, hfound⟩
      cases r with
      | error ret =>
          have hrefs : t.refCount = s.refCount := hrefs
          simp only
          split
          next =>
            have hplaces' : places.Ok own t :=
              ⟨hrefs ▸ hplaces.pwd, hrefs ▸ hplaces.bootfs, hplaces.root⟩
            rw [ends_bind]
            apply (getDevice_spec hundisturbed.ok hplaces').imp
            rintro r u ⟨hmore, _⟩
            cases r with
            | error ret => exact hkept (hundisturbed.same.trans hmore.same)
            | ok _ => trivial
          next => exact hkept hundisturbed.same
      | ok node =>
          obtain rfl := hfound node rfl
          have href : t.refCount node = s.refCount node + 1 := by
            rw [show t.refCount = addRef s.refCount node from hrefs, addRef_apply, if_pos rfl]
          simp only
          split
          next => exact hkept hundisturbed.same
          next hshared =>
            by_cases hmax : t.refCount node < MAX_INODE_COUNT
            · apply (vfsOpenNode_spec hundisturbed.ok (by rw [hundisturbed.opens, href]; omega) hmax
                htrunc).mono (fun _ _ => trivial)
              intro _ u hiff
              refine (hkept hundisturbed.same).trans (hiff.mpr fun hall => hno ?_)
              obtain ⟨hcreate, htype, hclears⟩ := hall
              have hlinked := (hundisturbed.ok.linked node hf).2.resolve_left htype
              exact {
                valid := hvalid
                create := hcreate
                shared := by
                  by_contra hexcl
                  exact hshared ⟨hexcl, hcreate⟩
                file := by rwa [← hundisturbed.same.din node hf]
                found := ⟨t, hrun, hclears⟩
                room := by rwa [← href] }
            · -- too many references
              rw [vfsOpenNode, ends_bind, vopOpen, ends_bind, inodeCheck, ends_bind,
                ends_get, ends_bind, ends_check_of trivial]
              intro _
              rw [ends_check_of trivial]
              exact fun hin => absurd hin.1 hmax

/-! ## A file in a directory -/

/-- A root directory with one entry, for a file of five bytes. -/
def fileVolume : Volume where
  super := ⟨SFS_MAGIC, 32, 26, fun _ => 0⟩
  freemap := ⟨0, 1, 32, 1, fun _ => 0xffffffc0⟩
  superDirty := true
  sin := fun n =>
    if n = 1 then ⟨⟨256, SFS_TYPE_DIR, 1, 1, fun i => if i.val = 0 then 4 else 0, 0⟩, true, 1⟩
    else ⟨⟨5, SFS_TYPE_FILE, 1, 1, fun i => if i.val = 0 then 5 else 0, 0⟩, true, 1⟩
  inodeList := [1, 3]
  disk := fun b => if b = 4 then entryBytes 3 [102] else fun _ => 7
  ios := 0

def fileOwner (b : Nat) : Owner :=
  if b = 1 ∨ b = 3 then .inode
  else if b = 4 then .data 1 0
  else if b = 5 then .data 3 0
  else if 6 ≤ b ∧ b < 32 then .free
  else .fixed

/-- The directory is that of the process, and the file is open. -/
def fileStore : Store :=
  ⟨fileVolume, fun n => if n = 1 ∨ n = 3 then 1 else 0, fun n => if n = 3 then 1 else 0, 0⟩

def filePlaces : Places := ⟨some 1, none, []⟩

theorem fileOwner_inode (n : BitVec 32) : fileOwner n.toNat = .inode ↔ n = 1 ∨ n = 3 := by
  have heq : ∀ m : BitVec 32, n.toNat = m.toNat ↔ n = m := fun m =>
    ⟨BitVec.eq_of_toNat_eq, fun hn => by rw [hn]⟩
  rw [← heq 1, ← heq 3, fileOwner]
  show _ ↔ n.toNat = 1 ∨ n.toNat = 3
  split
  next hin => exact iff_of_true rfl hin
  next hout =>
    refine iff_of_false ?_ hout
    split
    · simp
    · split
      · simp
      · split <;> simp

theorem fileOwner_data (b : Nat) (n : BitVec 32) (i : Nat) :
    fileOwner b = .data n i ↔ i = 0 ∧ (n = 1 ∧ b = 4 ∨ n = 3 ∧ b = 5) := by
  unfold fileOwner
  grind

theorem fileVolume_slot (n : BitVec 32) (hn : n = 1 ∨ n = 3) (i : Nat) :
    (fileVolume.din n).indirect = 0 ∧
      fileVolume.slot n i = if i = 0 then (if n = 1 then 4 else 5) else 0 := by
  have hcached : n ∈ fileVolume.inodeList := by
    rcases hn with rfl | rfl <;> decide
  have hdin := din_cached hcached
  have hindirect : (fileVolume.din n).indirect = 0 := by
    rw [hdin]
    rcases hn with rfl | rfl <;> rfl
  refine ⟨hindirect, ?_⟩
  by_cases hi : i < SFS_NDIRECT
  · rw [Volume.slot, DiskInode.slot, dif_pos hi, hdin]
    rcases hn with rfl | rfl <;> rfl
  · rw [Volume.slot, DiskInode.slot_none _ _ (Nat.le_of_not_lt hi) hindirect, if_neg]
    rintro rfl
    exact hi (by decide)

theorem fileVolume_bits (b : Nat) : b ∈ fileVolume.freemap.bits ↔ 6 ≤ b ∧ b < 32 := by
  have hword : ∀ j < 32, (0xffffffc0#32).getLsbD j = decide (6 ≤ j) := by decide
  rw [Bitmap.mem_bits]
  show b < 32 ∧ (0xffffffc0#32).getLsbD (b % 32) = true ↔ _
  rw [hword _ (Nat.mod_lt _ (by omega)), decide_eq_true_eq]
  omega

theorem fileVolume_mapped : Mapped fileOwner fileVolume := by
  have hslot := fun n hn i => (fileVolume_slot n hn i).2
  have hblocks : ∀ n : BitVec 32, n = 1 ∨ n = 3 → (fileVolume.din n).blocks.toNat = 1 := by
    rintro n (rfl | rfl) <;> decide
  refine ⟨⟨rfl, ?_, by decide, ?_, fun b => ?_, fun b hb => ?_, fun b n => ?_, fun b n i => ?_⟩,
    fun n hn => ⟨?_, fun i => ?_⟩⟩
  · exact Nat.le_refl 32
  · have hbits : fileVolume.freemap.bits = Finset.Ico 6 32 := by
      ext b
      rw [fileVolume_bits, Finset.mem_Ico]
    rw [hbits, Nat.card_Ico]
    rfl
  · rw [fileVolume_bits, fileOwner]
    grind
  · show 0 < b ∧ b < 32
    rw [fileOwner] at hb
    grind
  · refine iff_of_false ?_ ?_
    · rw [fileOwner]
      grind
    · rintro ⟨hn, hnumber, hne⟩
      rw [(fileVolume_slot n ((fileOwner_inode n).mp hn) 0).1] at hnumber
      exact hne hnumber.symm
  · rw [fileOwner_inode, fileOwner_data]
    constructor
    · rintro ⟨rfl, ⟨rfl, rfl⟩ | ⟨rfl, rfl⟩⟩
      · exact ⟨.inl rfl, by rw [hslot 1 (.inl rfl)]; rfl, by decide⟩
      · exact ⟨.inr rfl, by rw [hslot 3 (.inr rfl)]; rfl, by decide⟩
    · rintro ⟨hn, hnumber, hne⟩
      rw [hslot n hn] at hnumber
      by_cases hi : i = 0
      · rw [if_pos hi] at hnumber
        refine ⟨hi, hn.imp (fun hone => ⟨hone, ?_⟩) fun hthree => ⟨hthree, ?_⟩⟩
        · rw [← hnumber, if_pos hone]
          rfl
        · rw [← hnumber, hthree]
          rfl
      · rw [if_neg hi] at hnumber
        exact absurd hnumber.symm hne
  · rw [hblocks n ((fileOwner_inode n).mp hn)]
    decide
  · rw [hslot n ((fileOwner_inode n).mp hn), hblocks n ((fileOwner_inode n).mp hn)]
    split
    next hi =>
      refine iff_of_true ?_ (by omega)
      split <;> decide
    next hi => exact iff_of_false (not_not.mpr rfl) (by omega)

theorem fileStore_ok : fileStore.Ok fileOwner := by
  have hinode : ∀ n ∈ fileVolume.inodeList, n = 1 ∨ n = 3 := by
    intro n hn
    simpa [fileVolume] using hn
  have hout : ∀ n, n ∉ fileVolume.inodeList → ¬(n = 1 ∨ n = 3) := by
    rintro n hn (rfl | rfl)
    · exact hn (by decide)
    · exact hn (by decide)
  have hlinked : ∀ n : BitVec 32, n = 1 ∨ n = 3 → (fileVolume.din n).nlinks ≠ 0 ∧
      ((fileVolume.din n).type = SFS_TYPE_DIR ∨ (fileVolume.din n).type = SFS_TYPE_FILE) := by
    rintro n (rfl | rfl) <;> decide
  have hflag : ∀ n ∈ fileVolume.inodeList, (fileVolume.sin n).dirty = true ∧
      (fileVolume.sin n).reclaimCount = 1 := by
    intro n hn
    rcases hinode n hn with rfl | rfl <;> exact ⟨rfl, rfl⟩
  have hcount : sfsFreemapBlocks fileVolume.super = 1 := by
    rw [sfsFreemapBlocks, roundupDiv]
    decide
  refine ⟨⟨fileVolume_mapped, fun n hn => (fileOwner_inode n).mpr (hinode n hn),
    rfl, fun i hi => ?_⟩, ⟨fun n hn hclean => ?_, fun hclean => by cases hclean⟩,
    fun n hn => hlinked n ((fileOwner_inode n).mp hn), by decide, fun n hn => if_neg (hout n hn),
    fun n => ?_, fun n hn => ?_⟩
  · change i < sfsFreemapBlocks fileVolume.super at hi
    rw [hcount, Nat.lt_one_iff] at hi
    rw [hi]
    rfl
  · rw [show (fileStore.volume.sin n).dirty = true from (hflag n hn).1] at hclean
    cases hclean
  · show 0 ≤ (if n = 3 then (1 : Int) else 0) ∧
      (if n = 3 then (1 : Int) else 0) ≤ if n = 1 ∨ n = 3 then 1 else 0
    grind
  · rw [show (fileStore.volume.sin n).reclaimCount = 1 from (hflag n hn).2]
    exact ⟨by decide, fun _ => by decide⟩

theorem filePlaces_ok : filePlaces.Ok fileOwner fileStore where
  pwd d hd := by
    obtain rfl : 1 = d := Option.some.inj hd
    decide
  bootfs d hd := by cases hd
  root := rfl

theorem filePlaces_names : filePlaces.Names fileStore.volume [102] 3 := by
  have hentry : (fileVolume.named 1 (bytes [102])).map DiskEntry.ino = some 3 := by decide
  obtain ⟨entry, hentry, hino⟩ := Option.map_eq_some_iff.mp hentry
  exact ⟨[102], 1, by decide, .inr ⟨by decide, by decide, entry, hentry, hino⟩⟩

/-- A lookup that is evaluated. -/
theorem found_of_yields (hyields : yields (vfsLookup heap io places path) s (fun r t =>
    (match r with | .ok node => decide (node = f) | .error _ => false) &&
      decide ((t.volume.din f).size ≠ 0) &&
      decide ((t.volume.din f).blocks.toNat - 1 < SFS_NDIRECT)) = true) :
    ∃ t, vfsLookup heap io places path s = .ok (.ok f, t) ∧ Clears io t.volume f := by
  obtain ⟨r, t, hrun, htest⟩ := (Ends.of_yields hyields).ok
  simp only [Bool.and_eq_true, decide_eq_true_eq] at htest
  obtain ⟨⟨hfound, hsize⟩, hdirect⟩ := htest
  cases r with
  | error ret => cases hfound
  | ok node =>
      obtain rfl := of_decide_eq_true hfound
      exact ⟨t, hrun, hsize, .inr (.inl hdirect)⟩

/-- It is opened for writing, with `O_CREAT`. -/
theorem fileStore_empties : Empties (fun _ => true)
    (fun _ => 0) filePlaces [102] 5 fileStore 3 where
  valid := by decide
  create := by decide
  shared := by decide
  file := by decide
  found := found_of_yields (by decide)
  room := by decide

theorem Empties.refutes (hempties : Empties heap io places path openFlags s f) (h : s.Ok own)
    (hplaces : places.Ok own s) (hf : own f.toNat = .inode) (hnames : places.Names s.volume path f)
    (htrunc : openFlags &&& O_TRUNC = 0) :
    ¬ ∀ (heap : Nat → Bool) (io : Nat → Int) (own : Nat → Owner) (s : Store) (places : Places)
      (path : Str) (f : BitVec 32) (openFlags : BitVec 32), s.Ok own → places.Ok own s →
      own f.toNat = .inode → places.Names s.volume path f → openFlags &&& O_TRUNC = 0 →
      Ends anyway (vfsOpen heap io places path openFlags) s
        fun _ t => FileKept s.volume t.volume f :=
  fun hclaim => hempties.lost h hplaces hf hnames htrunc
    (hclaim heap io own s places path f openFlags h hplaces hf hnames htrunc)

/-- A file that is there is emptied by an open that was to create it. -/
theorem vfsOpen_empties : ¬ ∀ (heap : Nat → Bool) (io : Nat → Int) (own : Nat → Owner) (s : Store)
    (places : Places) (path : Str) (f : BitVec 32) (openFlags : BitVec 32), s.Ok own →
    places.Ok own s → own f.toNat = .inode → places.Names s.volume path f →
    openFlags &&& O_TRUNC = 0 → Ends anyway (vfsOpen heap io places path openFlags) s
      fun _ t => FileKept s.volume t.volume f :=
  fileStore_empties.refutes fileStore_ok filePlaces_ok ((fileOwner_inode 3).mpr (.inr rfl))
    filePlaces_names (by decide)

/-- Opened for reading and writing, it is kept. -/
theorem vfsOpen_keeps_file : Ends anyway (vfsOpen (fun _ => true) (fun _ => 0) filePlaces [102] 2)
    fileStore fun _ t => FileKept fileStore.volume t.volume 3 := by
  apply (vfsOpen_keeps_iff fileStore_ok filePlaces_ok ((fileOwner_inode 3).mpr (.inr rfl))
    filePlaces_names (by decide)).mpr
  exact fun hempties => hempties.create (by decide)

end Ucore.Sfs
