import Ucore.Vfs.Inode

/-!
# The list of devices

`vfsdev.c` of lab 8: devices and file systems are added by name, and file systems are
mounted on devices. The list refines a `Registry`, which is a map from names.
-/

namespace Ucore.Vfs.DevList

open Machine
open Fs (E_INVAL E_BUSY)
open Fs.Inode (E_NO_MEM)

def FS_MAX_DNAME_LEN : Nat := 31

def E_TOO_BIG : Int := 12

/-- A `struct fs *` that is not null. -/
abbrev Fs := Nat

/-- A `vfs_dev_t`. -/
structure Vdev where
  devname : Str
  devnode : Option Node
  fs : Option Fs
  mountable : Bool
  deriving DecidableEq, Repr

/-- `vdev_list`, and how many blocks its functions have from `kmalloc`. -/
structure Table where
  vdevList : List Vdev
  blocks : Nat

inductive Stop
  | assertion
  deriving DecidableEq, Repr

abbrev DevM := Machine Stop Table

/-- `kmalloc`, which succeeds if `got` says so. -/
def allocate (got : Bool) : DevM Bool := do
  if got then
    modify fun s => { s with blocks := s.blocks + 1 }
  return got

def kfree : DevM PUnit := modify fun s => { s with blocks := s.blocks - 1 }

section

-- `check_inode_type(node, device)`
variable (isDevice : Node → Bool)

/-- The assertion of `vfs_do_add`. -/
def Addable (devnode : Option Node) (mountable : Bool) : Prop :=
  match devnode with
  | none => mountable = false
  | some node => isDevice node = true

instance (devnode : Option Node) (mountable : Bool) :
    Decidable (Addable isDevice devnode mountable) :=
  match devnode with
  | none => inferInstanceAs (Decidable (mountable = false))
  | some node => inferInstanceAs (Decidable (isDevice node = true))

/-- `vop_info(node, device)`. -/
def vopInfo (node : Option Node) : DevM PUnit := check .assertion (node.any isDevice = true)

end

def checkDevnameConflict (devname : Str) (vdevList : List Vdev) : Bool :=
  !vdevList.any fun vdev => vdev.devname = devname

/-- `vfs_do_add`; `strdup` and `kmalloc` say whether there is memory. -/
def vfsDoAdd (isDevice : Node → Bool) (strdup kmalloc : Bool) (vdev : Vdev) : DevM Int := do
  check .assertion (Addable isDevice vdev.devnode vdev.mountable)
  if vdev.devname.length > FS_MAX_DNAME_LEN then return -E_TOO_BIG
  else if !(← allocate strdup) then return -E_NO_MEM
  else if !(← allocate kmalloc) then do
    kfree
    return -E_NO_MEM
  else if !checkDevnameConflict vdev.devname (← get).vdevList then do
    kfree
    kfree
    return -E_EXISTS
  else do
    modify fun s => { s with vdevList := vdev :: s.vdevList }
    return 0

def vfsAddFs (isDevice : Node → Bool) (strdup kmalloc : Bool) (devname : Str) (fs : Option Fs) :
    DevM Int :=
  vfsDoAdd isDevice strdup kmalloc ⟨devname, none, fs, false⟩

def vfsAddDev (isDevice : Node → Bool) (strdup kmalloc : Bool) (devname : Str)
    (devnode : Option Node) (mountable : Bool) : DevM Int :=
  vfsDoAdd isDevice strdup kmalloc ⟨devname, devnode, none, mountable⟩

/-- The test of `find_mount`. -/
def mounts (devname : Str) (vdev : Vdev) : Bool := vdev.mountable && vdev.devname = devname

def findMount (devname : Str) (vdevList : List Vdev) : Option Vdev :=
    vdevList.find? (mounts devname)

/-- A change of the device that `find_mount` has found. -/
def changeFound (devname : Str) (f : Vdev → Vdev) : List Vdev → List Vdev
  | [] => []
  | vdev :: rest =>
      if mounts devname vdev then f vdev :: rest else vdev :: changeFound devname f rest

def setFs (devname : Str) (fs : Option Fs) : DevM PUnit :=
  modify fun s =>
    { s with vdevList := changeFound devname (fun vdev => { vdev with fs := fs }) s.vdevList }

/-- `vfs_mount`, where `mountfunc` gives what it returns and what it stores. -/
def vfsMount (isDevice : Node → Bool) (mountfunc : Option Node → Int × Option Fs) (devname : Str) :
    DevM Int := do
  match findMount devname (← get).vdevList with
  | none => return -E_NO_DEV
  | some vdev =>
      if vdev.fs.isSome then return -E_BUSY
      else do
        check .assertion (vdev.mountable = true)
        vopInfo isDevice vdev.devnode
        let (ret, stored) := mountfunc vdev.devnode
        setFs devname stored
        check .assertion (ret = 0 → stored.isSome = true)
        return ret

/-- `vfs_unmount`, where `fsopSync` and `fsopUnmount` are what the operations of the file system
return. -/
def vfsUnmount (fsopSync fsopUnmount : Vdev → Int) (devname : Str) : DevM Int := do
  match findMount devname (← get).vdevList with
  | none => return -E_NO_DEV
  | some vdev =>
      if vdev.fs.isNone then return -E_INVAL
      else do
        check .assertion (vdev.mountable = true)
        if fsopSync vdev ≠ 0 then return fsopSync vdev
        else if fsopUnmount vdev ≠ 0 then return fsopUnmount vdev
        else do
          setFs devname none
          return 0

/-- The loop of `vfs_unmount_all`. -/
def unmountEach (fsopSync fsopUnmount : Vdev → Int) : List Vdev → List Vdev
  | [] => []
  | vdev :: rest =>
      (if vdev.mountable ∧ vdev.fs.isSome then
        if fsopSync vdev ≠ 0 then vdev
        else if fsopUnmount vdev ≠ 0 then vdev
        else { vdev with fs := none }
      else vdev) :: unmountEach fsopSync fsopUnmount rest

def vfsUnmountAll (fsopSync fsopUnmount : Vdev → Int) : DevM Int := do
  modify fun s => { s with vdevList := unmountEach fsopSync fsopUnmount s.vdevList }
  return 0

/-- A call, with what it gets from the rest of the kernel. -/
inductive Call
  | addFs (strdup kmalloc : Bool) (devname : Str) (fs : Option Fs)
  | addDev (strdup kmalloc : Bool) (devname : Str) (devnode : Option Node) (mountable : Bool)
  | mount (mountfunc : Option Node → Int × Option Fs) (devname : Str)
  | unmount (fsopSync fsopUnmount : Vdev → Int) (devname : Str)
  | unmountAll (fsopSync fsopUnmount : Vdev → Int)

def Call.run (isDevice : Node → Bool) : Call → DevM Int
  | .addFs strdup kmalloc devname fs => vfsAddFs isDevice strdup kmalloc devname fs
  | .addDev strdup kmalloc devname devnode mountable =>
      vfsAddDev isDevice strdup kmalloc devname devnode mountable
  | .mount mountfunc devname => vfsMount isDevice mountfunc devname
  | .unmount fsopSync fsopUnmount devname => vfsUnmount fsopSync fsopUnmount devname
  | .unmountAll fsopSync fsopUnmount => vfsUnmountAll fsopSync fsopUnmount

def runCalls (isDevice : Node → Bool) : List Call → DevM (List Int)
  | [] => return []
  | call :: rest => do
      let ret ← call.run isDevice
      return ret :: (← runCalls isDevice rest)

/-! ## The registry -/

/-- What each name stands for. -/
abbrev Registry := Str → Option Vdev

namespace Registry

variable (m : Registry)

def add (strdup kmalloc : Bool) (vdev : Vdev) : Int × Registry :=
  if vdev.devname.length > FS_MAX_DNAME_LEN then (-E_TOO_BIG, m)
  else if !(strdup && kmalloc) then (-E_NO_MEM, m)
  else if (m vdev.devname).isSome then (-E_EXISTS, m)
  else (0, Function.update m vdev.devname (some vdev))

/-- The mountable device of a name. -/
def mountable (devname : Str) : Option Vdev := (m devname).filter Vdev.mountable

def mount (mountfunc : Option Node → Int × Option Fs) (devname : Str) : Int × Registry :=
  match m.mountable devname with
  | none => (-E_NO_DEV, m)
  | some vdev =>
      if vdev.fs.isSome then (-E_BUSY, m)
      else ((mountfunc vdev.devnode).1,
        Function.update m devname (some { vdev with fs := (mountfunc vdev.devnode).2 }))

def unmount (fsopSync fsopUnmount : Vdev → Int) (devname : Str) : Int × Registry :=
  match m.mountable devname with
  | none => (-E_NO_DEV, m)
  | some vdev =>
      if vdev.fs.isNone then (-E_INVAL, m)
      else if fsopSync vdev ≠ 0 then (fsopSync vdev, m)
      else if fsopUnmount vdev ≠ 0 then (fsopUnmount vdev, m)
      else (0, Function.update m devname (some { vdev with fs := none }))

/-- Without its file system, if that can be synced and unmounted. -/
def unmounted (fsopSync fsopUnmount : Vdev → Int) (vdev : Vdev) : Vdev :=
  if vdev.mountable = true ∧ vdev.fs.isSome = true ∧ fsopSync vdev = 0 ∧
    fsopUnmount vdev = 0 then { vdev with fs := none }
  else vdev

def unmountAll (fsopSync fsopUnmount : Vdev → Int) : Int × Registry :=
  (0, fun devname => (m devname).map (unmounted fsopSync fsopUnmount))

def call : Call → Int × Registry
  | .addFs strdup kmalloc devname fs => m.add strdup kmalloc ⟨devname, none, fs, false⟩
  | .addDev strdup kmalloc devname devnode mountable =>
      m.add strdup kmalloc ⟨devname, devnode, none, mountable⟩
  | .mount mountfunc devname => m.mount mountfunc devname
  | .unmount fsopSync fsopUnmount devname => m.unmount fsopSync fsopUnmount devname
  | .unmountAll fsopSync fsopUnmount => m.unmountAll fsopSync fsopUnmount

def calls (m : Registry) : List Call → List Int × Registry
  | [] => ([], m)
  | call :: rest =>
      (((m.call call).1 :: (calls (m.call call).2 rest).1), (calls (m.call call).2 rest).2)

end Registry

/-! ## The list represents the registry -/

/-- A call passes a device as the node of a device, and `mountfunc` stores a file system
exactly if it returns zero. -/
def Call.Allowed (isDevice : Node → Bool) : Call → Prop
  | .addDev _ _ _ devnode mountable => Addable isDevice devnode mountable
  | .mount mountfunc _ => ∀ node, (mountfunc node).1 = 0 ↔ (mountfunc node).2.isSome = true
  | _ => True

/-- Its entry in the table that `vfs_get_root` searches. -/
def Vdev.toVfsDev (vdev : Vdev) : VfsDev :=
    ⟨vdev.devname, vdev.devnode, vdev.fs.isSome, vdev.mountable⟩

def named (devname : Str) (vdev : Vdev) : Bool := devname = vdev.devname

/-- The list of devices stands for the registry `m`. Names are short and come once, and what was
allocated is what the entries hold. -/
structure Represents (isDevice : Node → Bool) (s : Table) (m : Registry) : Prop where
  find : ∀ devname, m devname = s.vdevList.find? (named devname)
  nodup : (s.vdevList.map Vdev.devname).Nodup
  device : ∀ vdev ∈ s.vdevList, Addable isDevice vdev.devnode vdev.mountable
  short : ∀ vdev ∈ s.vdevList, vdev.devname.length ≤ FS_MAX_DNAME_LEN
  -- the name and the record of each device
  blocks : s.blocks = 2 * s.vdevList.length

variable {isDevice : Node → Bool} {s : Table} {m : Registry} {devname : Str}
  {vdev : Vdev} {xs : List Vdev}
  {f : Vdev → Vdev}

theorem mounts_iff : mounts devname vdev = true ↔ vdev.mountable = true ∧
    vdev.devname = devname := by
  rw [mounts, Bool.and_eq_true, decide_eq_true_iff]

theorem named_iff : named devname vdev = true ↔ devname = vdev.devname := decide_eq_true_iff

/-- No later device has the name of the first. -/
theorem not_mounts_of_nodup (hnodup : ((vdev :: xs).map Vdev.devname).Nodup)
    (hname : vdev.devname = devname) :
    ∀ other ∈ xs, ¬mounts devname other = true := by
  intro other hother hmounts
  have hmem : vdev.devname ∈ xs.map Vdev.devname := by
    rw [hname, ← (mounts_iff.mp hmounts).2]
    exact List.mem_map_of_mem hother
  exact (List.nodup_cons.mp hnodup).1 hmem

/-- With distinct names it does not matter that `find_mount` skips what is not mountable. -/
theorem findMount_eq (hnodup : (xs.map Vdev.devname).Nodup) :
    findMount devname xs = (xs.find? (named devname)).filter Vdev.mountable := by
  induction xs with
  | nil => rfl
  | cons vdev rest ih =>
      unfold findMount at ih ⊢
      rw [List.find?_cons, List.find?_cons]
      by_cases hname : vdev.devname = devname
      · -- whether it is mountable decides, as no later device has its name
        have hnamed : named devname vdev = true := named_iff.mpr hname.symm
        rw [hnamed]
        by_cases hmountable : vdev.mountable = true
        · rw [mounts_iff.mpr ⟨hmountable, hname⟩]
          simp only [Option.filter_some, hmountable, if_true]
        · have hskip : mounts devname vdev = false :=
            Bool.eq_false_iff.mpr fun h => hmountable (mounts_iff.mp h).1
          rw [hskip]
          simp only [Option.filter_some, hmountable]
          exact List.find?_eq_none.mpr (not_mounts_of_nodup hnodup hname)
      · have hnamed : named devname vdev = false :=
          Bool.eq_false_iff.mpr fun h => hname (named_iff.mp h).symm
        have hskip : mounts devname vdev = false :=
          Bool.eq_false_iff.mpr fun h => hname (mounts_iff.mp h).2
        rw [hnamed, hskip]
        exact ih (List.nodup_cons.mp hnodup).2

theorem changeFound_eq_map (hnodup : (xs.map Vdev.devname).Nodup) :
    changeFound devname f xs =
      xs.map fun vdev => if mounts devname vdev = true then f vdev else vdev := by
  induction xs with
  | nil => rfl
  | cons vdev rest ih =>
      rw [changeFound, List.map_cons]
      by_cases hfound : mounts devname vdev = true
      · -- the code stops here, the map goes on to devices that it leaves alone
        have hrest : ∀ other ∈ rest, (if mounts devname other = true then f other else other) =
            id other :=
          fun other hother =>
            if_neg (not_mounts_of_nodup hnodup (mounts_iff.mp hfound).2 other hother)
        rw [if_pos hfound, if_pos hfound, List.map_congr_left hrest, List.map_id]
      · rw [if_neg hfound, if_neg hfound, ih (List.nodup_cons.mp hnodup).2]

theorem unmountEach_eq_map (fsopSync fsopUnmount : Vdev → Int) :
    unmountEach fsopSync fsopUnmount xs = xs.map (Registry.unmounted fsopSync fsopUnmount) := by
  induction xs with
  | nil => rfl
  | cons vdev rest ih =>
      rw [unmountEach, List.map_cons, ih, Registry.unmounted]
      congr 1
      grind

/-- A change of nothing but the file system. -/
def Keeps (f : Vdev → Vdev) : Prop := ∀ vdev, ∃ fs, f vdev = { vdev with fs := fs }

theorem keeps_setFs (fs : Option Fs) : Keeps fun vdev => { vdev with fs := fs } :=
    fun _ => ⟨fs, rfl⟩

theorem keeps_ite {p : Vdev → Prop} [DecidablePred p] (hf : Keeps f) :
    Keeps fun vdev => if p vdev then f vdev else vdev := by
  intro vdev
  dsimp only
  split
  · exact hf vdev
  · exact ⟨vdev.fs, rfl⟩

theorem Keeps.name_eq (hf : Keeps f) (vdev : Vdev) : (f vdev).devname = vdev.devname := by
  obtain ⟨fs, hfs⟩ := hf vdev
  rw [hfs]

namespace Represents

variable (h : Represents isDevice s m)
include h

theorem map (hf : Keeps f) :
    Represents isDevice { s with vdevList := s.vdevList.map f } fun devname =>
      (m devname).map f := by
  refine ⟨fun devname => ?_, ?_, ?_, ?_, ?_⟩
  · have hnamed : named devname ∘ f = named devname := by
      funext vdev
      simp only [Function.comp_apply, named, hf.name_eq]
    rw [List.find?_map, hnamed, h.find]
  · have hnames : Vdev.devname ∘ f = Vdev.devname := funext hf.name_eq
    rw [List.map_map, hnames]
    exact h.nodup
  · intro vdev hvdev
    obtain ⟨old, hold, rfl⟩ := List.mem_map.mp hvdev
    obtain ⟨fs, hfs⟩ := hf old
    rw [hfs]
    exact h.device old hold
  · intro vdev hvdev
    obtain ⟨old, hold, rfl⟩ := List.mem_map.mp hvdev
    rw [hf.name_eq]
    exact h.short old hold
  · rw [List.length_map]
    exact h.blocks

theorem name_eq (hm : m devname = some vdev) : vdev.devname = devname := by
  rw [h.find] at hm
  exact (named_iff.mp (List.find?_some hm)).symm

theorem mem (hm : m devname = some vdev) : vdev ∈ s.vdevList := by
  rw [h.find] at hm
  exact List.mem_of_find?_eq_some hm

theorem registered (hmem : vdev ∈ s.vdevList) : m vdev.devname = some vdev := by
  rw [h.find]
  cases hfound : s.vdevList.find? (named vdev.devname) with
  | none => exact absurd (named_iff.mpr rfl) (List.find?_eq_none.mp hfound vdev hmem)
  | some other =>
      have hname := named_iff.mp (List.find?_some hfound)
      exact congrArg some (List.inj_on_of_nodup_map h.nodup (List.mem_of_find?_eq_some hfound) hmem
        hname.symm)

/-- What is mountable was added with a device. -/
theorem devnode_of_mountable (hm : m devname = some vdev) (hmountable : vdev.mountable = true) :
    vdev.devnode.any isDevice = true := by
  have haddable := h.device vdev (h.mem hm)
  unfold Addable at haddable
  cases hnode : vdev.devnode with
  | none =>
      rw [hnode, hmountable] at haddable
      exact absurd (haddable : true = false) Bool.noConfusion
  | some node =>
      rw [hnode] at haddable
      exact haddable

theorem findMount : findMount devname s.vdevList = m.mountable devname := by
  rw [findMount_eq h.nodup, Registry.mountable, h.find]

/-- The device that `find_mount` has found gets another file system. -/
theorem setFs (hm : m devname = some vdev) (hmountable : vdev.mountable = true) (fs : Option Fs) :
    Represents isDevice
      { s with vdevList := changeFound devname (fun vdev => { vdev with fs := fs }) s.vdevList }
      (Function.update m devname (some { vdev with fs := fs })) := by
  have hmap := h.map (@keeps_ite _ (fun vdev => mounts devname vdev = true) _ (keeps_setFs fs))
  rw [← changeFound_eq_map h.nodup] at hmap
  convert hmap using 1
  funext other
  by_cases hother : other = devname
  · subst hother
    rw [Function.update_self, hm, Option.map_some,
      if_pos (mounts_iff.mpr ⟨hmountable, h.name_eq hm⟩)]
  · rw [Function.update_of_ne hother]
    cases hfound : m other with
    | none => rfl
    | some found =>
        have hskip : ¬mounts devname found = true := by
          intro hmounts
          exact hother ((h.name_eq hfound).symm.trans (mounts_iff.mp hmounts).2)
        rw [Option.map_some, if_neg hskip]

theorem lookup : ((s.vdevList.map Vdev.toVfsDev).find? fun vdev => devname = vdev.devname) =
    (m devname).map Vdev.toVfsDev := by
  rw [List.find?_map, h.find]
  exact rfl

theorem conflict : checkDevnameConflict devname s.vdevList = !(m devname).isSome := by
  have hsame : (fun vdev : Vdev => decide (vdev.devname = devname)) = named devname := by
    funext vdev
    exact decide_eq_decide.mpr eq_comm
  rw [checkDevnameConflict, hsame, h.find, List.isSome_find?]

/-- A name that is new. -/
theorem add (hnew : m vdev.devname = none) (haddable : Addable isDevice vdev.devnode vdev.mountable)
    (hshort : vdev.devname.length ≤ FS_MAX_DNAME_LEN) :
    Represents isDevice ⟨vdev :: s.vdevList, s.blocks + 1 + 1⟩
      (Function.update m vdev.devname (some vdev)) := by
  refine ⟨fun devname => ?_, List.nodup_cons.mpr ⟨?_, h.nodup⟩, ?_, ?_, ?_⟩
  · rw [List.find?_cons]
    by_cases hname : devname = vdev.devname
    · rw [named_iff.mpr hname, hname, Function.update_self]
    · have hother : named devname vdev = false :=
        Bool.eq_false_iff.mpr fun hnamed => hname (named_iff.mp hnamed)
      rw [hother, Function.update_of_ne hname]
      exact h.find devname
  · intro hmem
    obtain ⟨old, hold, hname⟩ := List.mem_map.mp hmem
    rw [h.find] at hnew
    exact List.find?_eq_none.mp hnew old hold (named_iff.mpr hname.symm)
  · exact List.forall_mem_cons.mpr ⟨haddable, h.device⟩
  · exact List.forall_mem_cons.mpr ⟨hshort, h.short⟩
  · change s.blocks + 1 + 1 = 2 * (s.vdevList.length + 1)
    rw [h.blocks]
    omega

end Represents

/-! ## What the calls do -/

@[simp] theorem ends_allocate {E : Stop → Prop} {got : Bool} {Q : Bool → Table → Prop} :
    Ends E (allocate got) s Q ↔ Q got (if got then { s with blocks := s.blocks + 1 } else s) := by
  cases got with
  | false => exact Iff.rfl
  | true => exact Iff.rfl

@[simp] theorem ends_kfree {E : Stop → Prop} {Q : PUnit → Table → Prop} :
    Ends E kfree s Q ↔ Q ⟨⟩ { s with blocks := s.blocks - 1 } := Iff.rfl

@[simp] theorem ends_setFs {E : Stop → Prop} {fs : Option Fs} {Q : PUnit → Table → Prop} :
    Ends E (setFs devname fs) s Q ↔
      Q ⟨⟩ { s with
        vdevList := changeFound devname (fun vdev => { vdev with fs := fs }) s.vdevList } :=
        Iff.rfl

/-- What a call is to return and to leave: the answer of the registry, and a list that stands for
the registry afterwards. -/
def Refines (isDevice : Node → Bool) (r : Int × Registry) (ret : Int) (t : Table) : Prop :=
  ret = r.1 ∧ Represents isDevice t r.2

theorem vfsDoAdd_spec (h : Represents isDevice s m) {strdup kmalloc : Bool}
    (haddable : Addable isDevice vdev.devnode vdev.mountable) :
    Ends never (vfsDoAdd isDevice strdup kmalloc vdev) s
      (Refines isDevice (m.add strdup kmalloc vdev)) := by
  rw [vfsDoAdd, ends_bind, ends_check haddable, Registry.add]
  by_cases hlong : vdev.devname.length > FS_MAX_DNAME_LEN
  · rw [if_pos hlong, if_pos hlong]
    exact ⟨rfl, h⟩
  rw [if_neg hlong, if_neg hlong, ends_bind, ends_allocate]
  cases strdup with
  | false => exact ⟨rfl, h⟩
  | true =>
      simp only [Bool.not_true, Bool.false_eq_true, if_false, if_true, ends_bind,
        ends_allocate, Bool.true_and]
      cases kmalloc with
      | false => exact ⟨rfl, h⟩
      | true =>
          simp only [Bool.not_true, Bool.false_eq_true, if_false, if_true, ends_bind, ends_get,
            h.conflict, Bool.not_not]
          by_cases htaken : (m vdev.devname).isSome = true
          · rw [if_pos htaken, if_pos htaken]
            exact ⟨rfl, h⟩
          · rw [if_neg htaken, if_neg htaken]
            have hnew := Option.not_isSome_iff_eq_none.mp htaken
            exact ⟨rfl, h.add hnew haddable (Nat.not_lt.mp hlong)⟩

/-- The mountable device of a name. -/
theorem mountable_eq_some (hfound : m.mountable devname = some vdev) :
    m devname = some vdev ∧ vdev.mountable = true :=
  Option.filter_eq_some_iff.mp hfound

theorem vfsMount_spec (h : Represents isDevice s m) {mountfunc : Option Node → Int × Option Fs}
    (hmountfunc : ∀ node, (mountfunc node).1 = 0 ↔ (mountfunc node).2.isSome = true) :
    Ends never (vfsMount isDevice mountfunc devname) s
      (Refines isDevice (m.mount mountfunc devname)) := by
  rw [vfsMount, ends_bind, ends_get, h.findMount, Registry.mount]
  cases hfound : m.mountable devname with
  | none => exact ⟨rfl, h⟩
  | some vdev =>
      obtain ⟨hm, hmountable⟩ := mountable_eq_some hfound
      dsimp only
      by_cases hbusy : vdev.fs.isSome = true
      · rw [if_pos hbusy, if_pos hbusy]
        exact ⟨rfl, h⟩
      rw [if_neg hbusy, if_neg hbusy]
      have hdevice := h.devnode_of_mountable hm hmountable
      simp only [ends_bind, ends_check hmountable, vopInfo, ends_check hdevice, ends_setFs,
        ends_check (hmountfunc vdev.devnode).mp]
      exact ⟨rfl, h.setFs hm hmountable _⟩

theorem vfsUnmount_spec (h : Represents isDevice s m) {fsopSync fsopUnmount : Vdev → Int} :
    Ends never (vfsUnmount fsopSync fsopUnmount devname) s
      (Refines isDevice (m.unmount fsopSync fsopUnmount devname)) := by
  rw [vfsUnmount, ends_bind, ends_get, h.findMount, Registry.unmount]
  cases hfound : m.mountable devname with
  | none => exact ⟨rfl, h⟩
  | some vdev =>
      obtain ⟨hm, hmountable⟩ := mountable_eq_some hfound
      dsimp only
      by_cases hidle : vdev.fs.isNone = true
      · rw [if_pos hidle, if_pos hidle]
        exact ⟨rfl, h⟩
      rw [if_neg hidle, if_neg hidle, ends_bind, ends_check hmountable]
      by_cases hsync : fsopSync vdev ≠ 0
      · rw [if_pos hsync, if_pos hsync]
        exact ⟨rfl, h⟩
      rw [if_neg hsync, if_neg hsync]
      by_cases hunmount : fsopUnmount vdev ≠ 0
      · rw [if_pos hunmount, if_pos hunmount]
        exact ⟨rfl, h⟩
      rw [if_neg hunmount, if_neg hunmount]
      exact ⟨rfl, h.setFs hm hmountable none⟩

theorem vfsUnmountAll_spec (h : Represents isDevice s m) {fsopSync fsopUnmount : Vdev → Int} :
    Ends never (vfsUnmountAll fsopSync fsopUnmount) s
      (Refines isDevice (m.unmountAll fsopSync fsopUnmount)) := by
  rw [vfsUnmountAll, ends_bind, ends_modify, unmountEach_eq_map]
  exact ⟨rfl, h.map (keeps_ite (keeps_setFs none))⟩

theorem call_refines (h : Represents isDevice s m) {call : Call}
    (hallowed : call.Allowed isDevice) :
    Ends never (call.run isDevice) s (Refines isDevice (m.call call)) := by
  cases call with
  | addFs strdup kmalloc devname fs =>
      -- without a node and not mountable: the assertion holds
      exact vfsDoAdd_spec h rfl
  | addDev strdup kmalloc devname devnode mountable => exact vfsDoAdd_spec h hallowed
  | mount mountfunc devname => exact vfsMount_spec h hallowed
  | unmount fsopSync fsopUnmount devname => exact vfsUnmount_spec h
  | unmountAll fsopSync fsopUnmount => exact vfsUnmountAll_spec h

theorem runCalls_spec (h : Represents isDevice s m) {calls : List Call}
    (hallowed : ∀ call ∈ calls, call.Allowed isDevice) :
    Ends never (runCalls isDevice calls) s fun rets t =>
      rets = (m.calls calls).1 ∧ Represents isDevice t (m.calls calls).2 := by
  induction calls generalizing s m with
  | nil => exact ⟨rfl, h⟩
  | cons call rest ih =>
      obtain ⟨hcall, hrest⟩ := List.forall_mem_cons.mp hallowed
      rw [runCalls, ends_bind, Registry.calls]
      apply (call_refines h hcall).imp
      rintro ret t ⟨rfl, ht⟩
      rw [ends_bind]
      apply (ih ht hrest).imp
      rintro rets u ⟨rfl, hu⟩
      exact ⟨rfl, hu⟩

/-- `vfs_devlist_init`. -/
def Table.start : Table := ⟨[], 0⟩

def Registry.start : Registry := fun _ => none

theorem represents_start : Represents isDevice Table.start Registry.start where
  find _ := rfl
  nodup := List.nodup_nil
  device _ hmem := absurd hmem List.not_mem_nil
  short _ hmem := absurd hmem List.not_mem_nil
  blocks := rfl

/-! ## What stays -/

/-- A device that is registered stays so, and only what is mountable changes its file
system. -/
def Stays (m m' : Registry) : Prop :=
  ∀ devname vdev, m devname = some vdev →
    ∃ fs, m' devname = some { vdev with fs := fs } ∧ (vdev.mountable = false → fs = vdev.fs)

namespace Stays

theorem refl : Stays m m := fun _ vdev hm => ⟨vdev.fs, hm, fun _ => rfl⟩

theorem trans {m' m'' : Registry} (h : Stays m m') (h' : Stays m' m'') : Stays m m'' := by
  intro devname vdev hm
  obtain ⟨fs, hm', hfs⟩ := h devname vdev hm
  obtain ⟨fs', hm'', hfs'⟩ := h' devname _ hm'
  exact ⟨fs', hm'', fun hmountable => (hfs' hmountable).trans (hfs hmountable)⟩

theorem update_new (hnew : m devname = none) : Stays m (Function.update m devname (some vdev)) := by
  intro other old hm
  have hother : other ≠ devname := by
    rintro rfl
    rw [hnew] at hm
    cases hm
  exact ⟨old.fs, (Function.update_of_ne hother ..).trans hm, fun _ => rfl⟩

theorem update_fs (hm : m devname = some vdev) (hmountable : vdev.mountable = true)
    (fs : Option Fs) :
    Stays m (Function.update m devname (some { vdev with fs := fs })) := by
  intro other old hold
  by_cases hother : other = devname
  · subst hother
    obtain rfl := Option.some.inj (hm.symm.trans hold)
    refine ⟨fs, Function.update_self .., fun hfixed => ?_⟩
    rw [hmountable] at hfixed
    cases hfixed
  · exact ⟨old.fs, (Function.update_of_ne hother ..).trans hold, fun _ => rfl⟩

end Stays

theorem Registry.add_stays (strdup kmalloc : Bool) (vdev : Vdev) :
    Stays m (m.add strdup kmalloc vdev).2 := by
  unfold Registry.add
  split
  · exact .refl
  split
  · exact .refl
  split
  · exact .refl
  next hfree => exact .update_new (Option.not_isSome_iff_eq_none.mp hfree)

theorem Registry.call_stays (call : Call) : Stays m (m.call call).2 := by
  cases call with
  | addFs strdup kmalloc devname fs => exact m.add_stays _ _ _
  | addDev strdup kmalloc devname devnode mountable => exact m.add_stays _ _ _
  | mount mountfunc devname =>
      rw [Registry.call, Registry.mount]
      cases hfound : m.mountable devname with
      | none => exact .refl
      | some vdev =>
          dsimp only
          split
          · exact .refl
          · exact .update_fs (mountable_eq_some hfound).1 (mountable_eq_some hfound).2 _
  | unmount fsopSync fsopUnmount devname =>
      rw [Registry.call, Registry.unmount]
      cases hfound : m.mountable devname with
      | none => exact .refl
      | some vdev =>
          dsimp only
          split
          · exact .refl
          split
          · exact .refl
          split
          · exact .refl
          · exact .update_fs (mountable_eq_some hfound).1 (mountable_eq_some hfound).2 none
  | unmountAll fsopSync fsopUnmount =>
      intro devname vdev hm
      rw [Registry.call, Registry.unmountAll]
      dsimp only
      rw [hm, Option.map_some, Registry.unmounted]
      split
      next hunmounted =>
        refine ⟨none, rfl, fun hfixed => ?_⟩
        rw [hunmounted.1] at hfixed
        cases hfixed
      next => exact ⟨vdev.fs, rfl, fun _ => rfl⟩

theorem Registry.calls_stay (calls : List Call) : Stays m (m.calls calls).2 := by
  induction calls generalizing m with
  | nil => exact .refl
  | cons call rest ih => exact (m.call_stays call).trans ih

/-! ## Runs -/

/-- No run of calls fails an assertion, what the calls return is what they return on the
registry, a search of the list finds what the registry has, and devices stay. -/
theorem devices_refine (h : Represents isDevice s m) {calls : List Call}
    (hallowed : ∀ call ∈ calls, call.Allowed isDevice) :
    ∃ rets t, runCalls isDevice calls s = .ok (rets, t) ∧ rets = (m.calls calls).1 ∧
      Represents isDevice t (m.calls calls).2 ∧
      (∀ devname, ((t.vdevList.map Vdev.toVfsDev).find? fun vdev => devname = vdev.devname) =
        ((m.calls calls).2 devname).map Vdev.toVfsDev) ∧
      ∀ vdev ∈ s.vdevList, ∃ fs, { vdev with fs := fs } ∈ t.vdevList ∧
        (vdev.mountable = false → fs = vdev.fs) := by
  obtain ⟨rets, t, hrun, hrets, ht⟩ := (runCalls_spec h hallowed).ok
  refine ⟨rets, t, hrun, hrets, ht, fun devname => ht.lookup, fun vdev hvdev => ?_⟩
  obtain ⟨fs, hstays, hfs⟩ := Registry.calls_stay calls vdev.devname vdev (h.registered hvdev)
  exact ⟨fs, ht.mem hstays, hfs⟩

/-- The input and the disk are added, and the disk is mounted twice. -/
def bootCalls : List Call :=
  [.addDev true true [115, 116, 100, 105, 110] (some 1) false,
    .addDev true true [100, 105, 115, 107, 48] (some 2) true,
    .mount (fun _ => (0, some 9)) [100, 105, 115, 107, 48],
    .mount (fun _ => (0, some 8)) [100, 105, 115, 107, 48]]

example : result (runCalls (fun node => node < 3) bootCalls) Table.start =
  some [0, 0, 0, -E_BUSY] := by decide

theorem bootCalls_allowed : ∀ call ∈ bootCalls, call.Allowed fun node => node < 3 := by
  have hstores : ∀ fs : Fs, Call.Allowed (fun node => node < 3)
      (.mount (fun _ => (0, some fs)) [100, 105, 115, 107, 48]) :=
    fun fs _ => iff_of_true rfl rfl
  intro call hcall
  simp only [bootCalls, List.mem_cons, List.not_mem_nil, or_false] at hcall
  rcases hcall with rfl | rfl | rfl | rfl
  · exact (by decide : Addable (fun node => node < 3) (some 1) false)
  · exact (by decide : Addable (fun node => node < 3) (some 2) true)
  · exact hstores 9
  · exact hstores 8

theorem devices_refine_boot :
    ∃ rets t, runCalls (fun node => node < 3) bootCalls Table.start = .ok (rets, t) ∧
    rets = (Registry.start.calls bootCalls).1 ∧
    Represents (fun node => node < 3) t (Registry.start.calls bootCalls).2 ∧
    (∀ devname, ((t.vdevList.map Vdev.toVfsDev).find? fun vdev => devname = vdev.devname) =
      ((Registry.start.calls bootCalls).2 devname).map Vdev.toVfsDev) ∧
    ∀ vdev ∈ Table.start.vdevList, ∃ fs, { vdev with fs := fs } ∈ t.vdevList ∧
      (vdev.mountable = false → fs = vdev.fs) :=
  devices_refine represents_start bootCalls_allowed

end Ucore.Vfs.DevList
