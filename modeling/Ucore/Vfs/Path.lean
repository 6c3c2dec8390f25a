import Ucore.Vfs.Inode

/-!
# Paths and open

`kern/fs/vfs/vfslookup.c`, `vfspath.c`, `vfsfile.c`, and what they use of `vfs.c` and
`vfsdev.c` in lab 8. The current directory `pwd` of the process is a parameter, except
where it is changed.
-/

namespace Ucore.Vfs

open Machine
open Fs (E_INVAL O_RDONLY O_WRONLY O_RDWR O_ACCMODE)

/-! ## Where a path starts -/

def vfsGetCurdir (pwd : Option Node) : VfsM (Except Int Node) :=
  match pwd with
  | none => return .error (-E_NOENT)
  | some node => do
      let _ ← inodeRefInc node
      return .ok node

def vfsGetBootfs : VfsM (Except Int Node) := do
  match (← get).bootfsNode with
  | none => return .error (-E_NOENT)
  | some node =>
      let _ ← inodeRefInc node
      return .ok node

def vfsGetRoot (devname : Str) : VfsM (Except Int Node) := do
  match (← get).vdevList.find? fun vdev => devname = vdev.devname with
  | none => return .error (-E_NO_DEV)
  | some vdev =>
      if vdev.fs then return .ok (← sfsGetRoot)
      else if vdev.mountable then return .error (-E_NA_DEV)
      else
        match vdev.devnode with
        | none => throw .dangling
        | some node =>
            let _ ← inodeRefInc node
            return .ok node

/-- The loop of `get_device` from index `i` on: `slash` and `colon`. -/
def scanFrom (i : Int) : Str → Int × Int
  | [] => (-1, -1)
  | c :: path =>
      if c = colonChar then (-1, i)
      else if c = slashChar then (i, -1)
      else scanFrom (i + 1) path

def skipSlashes (path : Str) : Str := path.dropWhile (· = slashChar)

/-- `get_device`: the path that is left, and the inode where its lookup starts. -/
def getDevice (pwd : Option Node) (path : Str) : VfsM (Except Int (Str × Node)) := do
  let slash := (scanFrom 0 path).1
  let colon := (scanFrom 0 path).2
  if colon < 0 ∧ slash ≠ 0 then return (← vfsGetCurdir pwd).map fun node => (path, node)
  else if colon > 0 then
    let subpath := skipSlashes (path.drop (colon.toNat + 1))
    return (← vfsGetRoot (path.take colon.toNat)).map fun node => (subpath, node)
  else if path.head? = some slashChar then
    return (← vfsGetBootfs).map fun node => (skipSlashes path.tail, node)
  else
    check .getDevice (path.head? = some colonChar)
    match ← vfsGetCurdir pwd with
    | .error ret => return .error ret
    | .ok node =>
        -- `node->in_fs` is not null
        match (← get).info node with
        | .device _ => throw .getDevice
        | .sfsInode _ =>
            let root ← sfsGetRoot
            inodeRefDec node
            return .ok (skipSlashes path.tail, root)

/-- What `get_device` makes of the path of its caller: the name of a device ends where its
colon was. -/
def cutPath (path : Str) : Str :=
  let colon := (scanFrom 0 path).2
  if colon > 0 then path.take colon.toNat else path

def vfsLookup (pwd : Option Node) (path : Str) : VfsM (Except Int Node) := do
  match ← getDevice pwd path with
  | .error ret => return .error ret
  | .ok (subpath, node) =>
      if subpath ≠ [] then
        let found ← vopLookup node subpath
        inodeRefDec node
        return found
      else return .ok node

def vfsLookupParent (pwd : Option Node) (path : Str) : VfsM (Except Int (Str × Node)) :=
  getDevice pwd path

/-! ## Opening and closing -/

/-- The access mode of `open_flags`: whether it can write. -/
def canWrite (openFlags : BitVec 32) : Option Bool :=
  if openFlags &&& O_ACCMODE = O_RDONLY then some false
  else if openFlags &&& O_ACCMODE = O_WRONLY then some true
  else if openFlags &&& O_ACCMODE = O_RDWR then some true
  else none

/-- `vfs_open` before it looks the path up. -/
def validFlags (openFlags : BitVec 32) : Bool :=
  match canWrite openFlags with
  | none => false
  | some can => openFlags &&& O_TRUNC = 0 || can

/-- `vfs_open` from `vop_open` on. -/
def vfsOpenNode (node : Node) (openFlags : BitVec 32) : VfsM (Except Int Node) := do
  let ret ← vopOpen node openFlags
  if ret ≠ 0 then
    inodeRefDec node
    return .error ret
  else
    inodeOpenInc node
    if openFlags &&& O_TRUNC ≠ 0 ∨ openFlags &&& O_CREAT ≠ 0 then
      let ret ← vopTruncate node
      if ret ≠ 0 then
        inodeOpenDec node
        inodeRefDec node
        return .error ret
      else return .ok node
    else return .ok node

/-- `vfs_open`. For a new file, `vfs_lookup_parent` gets the path as `vfs_lookup` has left
it. -/
def vfsOpen (pwd : Option Node) (path : Str) (openFlags : BitVec 32) :
    VfsM (Except Int Node) := do
  if validFlags openFlags = false then return .error (-E_INVAL)
  else
    match ← vfsLookup pwd path with
    | .error ret =>
        if ret = -E_NOENT ∧ openFlags &&& O_CREAT ≠ 0 then
          match ← vfsLookupParent pwd (cutPath path) with
          | .error ret => return .error ret
          | .ok (_, dir) =>
              let node ← vopCreate dir
              vfsOpenNode node openFlags
        else return .error ret
    | .ok node =>
        if openFlags &&& O_EXCL ≠ 0 ∧ openFlags &&& O_CREAT ≠ 0 then return .error (-E_EXISTS)
        else vfsOpenNode node openFlags

def vfsClose (node : Node) : VfsM PUnit := do
  inodeOpenDec node
  inodeRefDec node

/-! ## The current directory -/

/-- `vfs_set_curdir`: the new directory, where it changes. -/
def vfsSetCurdir (pwd : Option Node) (dir : Node) : VfsM (Int × Option Node) := do
  if pwd = some dir then return (0, pwd)
  else if ← vopGettype dir then
    let _ ← inodeRefInc dir
    match pwd with
    | some old => inodeRefDec old
    | none => pure ⟨⟩
    return (0, some dir)
  else return (-E_NOTDIR, pwd)

def vfsChdir (pwd : Option Node) (path : Str) : VfsM (Int × Option Node) := do
  match ← vfsLookup pwd path with
  | .error ret => return (ret, pwd)
  | .ok node =>
      let changed ← vfsSetCurdir pwd node
      inodeRefDec node
      return changed

end Ucore.Vfs
