import EponaOS.Fs.Mounts

/-!
# Paths

`vfs_resolve`, `vfs_split_parent` and the calls of `vfs.c` that take a path, on the one volume
that the kernel mounts, at `/`. Paths fit into their buffers of 256 bytes. As before the loops
over chains of clusters are bounded by a fuel, and `none` says that one still runs.
-/

namespace EponaOS.Fs

-- ---------------------------------------------------------------------------
-- Parts of a path
-- ---------------------------------------------------------------------------

/-- What `strtok` with `/` returns, call after call; `part` is read so far. -/
def strtok : CStr → CStr → List CStr
  | part, [] => if part = [] then [] else [part]
  | part, c :: cs =>
    if c = SLASH then if part = [] then strtok [] cs else part :: strtok [] cs
    else strtok (part ++ [c]) cs

def cutLast (path : CStr) : CStr × CStr :=
  let name := (path.reverse.takeWhile fun c => c ≠ SLASH).reverse
  (path.take (path.length - name.length), name)

/-- The directory and the name, `none` for -1. -/
def vfsSplitParent (path : CStr) : Option (CStr × CStr) :=
  let cut := cutLast path
  if path.length = 0 then none
  else if cut.2 = [] then none
  else if cut.1.length = 0 then some ([], path)
  else some (path.take (min (cut.1.length - 1) 255), cut.2)

/-- What `vfs_split_path` leaves of a path when one volume is mounted, at `/`. -/
def vfsRest (path : CStr) : Option CStr := (vfsSplitPath [(cstr ['/'], ())] path).map Prod.snd

-- ---------------------------------------------------------------------------
-- Resolving
-- ---------------------------------------------------------------------------

def Tree.hasFlag (t : Tree) (n flag : Nat) : Bool :=
  ((t.nodes n).map (·.flags)).getD 0 &&& flag ≠ 0

def vfsLoad (fp : FatPrivate) (fuel node : Nat) (t : Tree) (d : Disk) : Option (Tree × Disk) :=
  if t.children node = [] then (fatReaddir fp fuel node t d).map Prod.snd else some (t, d)

/-- The loop of `vfs_resolve` over the parts of a path. -/
def vfsWalk (fp : FatPrivate) (fuel : Nat) :
    List CStr → Nat → Tree → Disk → Option (Option Nat × Tree × Disk)
  | [], curr, t, d => some (some curr, t, d)
  | part :: parts, curr, t, d =>
    if t.hasFlag curr VFS_DIR then
      match vfsLoad fp fuel curr t d with
      | none => none
      | some (t, d) =>
        match t.find part (t.children curr) with
        | none => some (none, t, d)
        | some child => vfsWalk fp fuel parts child t d
    else some (none, t, d)

def vfsResolve (fp : FatPrivate) (fuel : Nat) (path : CStr) (t : Tree) (d : Disk) :
    Option (Option Nat × Tree × Disk) :=
  match t.root with
  | none => some (none, t, d)
  | some root => vfsWalk fp fuel (strtok [] path) root t d

/-- The directory that a call works in, with its children, and the name in it. -/
def vfsParent (fp : FatPrivate) (fuel : Nat) (rest : CStr) (t : Tree) (d : Disk) :
    Option (Option (Nat × CStr) × Tree × Disk) :=
  match vfsSplitParent rest with
  | none => some (none, t, d)
  | some (parentPath, name) =>
    match vfsResolve fp fuel parentPath t d with
    | none => none
    | some (none, t, d) => some (none, t, d)
    | some (some parent, t, d) =>
      if t.hasFlag parent VFS_DIR then
        (vfsLoad fp fuel parent t d).map fun r => (some (parent, name), r)
      else some (none, t, d)

-- ---------------------------------------------------------------------------
-- Calls
-- ---------------------------------------------------------------------------

/-- `file_t` -/
structure VfsFile where
  node : Nat
  offset : Nat

def openFile (node : Nat) (t : Tree) : Option VfsFile × Tree :=
  match kmalloc t.heap with
  | (false, heap) => (none, { t with heap })
  | (true, heap) => (some { node, offset := 0 }, { t with heap })

/-- `existing->size = 0` -/
def Tree.truncate (t : Tree) (n : Nat) : Tree :=
  match t.nodes n with
  | none => t
  | some node => t.setNode n { node with size := 0 }

/-- What `vfs_create` and `vfs_mkdir` do for a name that is new. -/
def vfsMake (fp : FatPrivate) (fuel : Nat) (rest : CStr) (flags : Nat) (t : Tree) (d : Disk) :
    Option (Option Nat × Tree × Disk) :=
  match vfsParent fp fuel rest t d with
  | none => none
  | some (none, t, d) => some (none, t, d)
  | some (some (parent, name), t, d) => fatCreate fp fuel parent name flags t d

def vfsCreate (fp : FatPrivate) (fuel : Nat) (path : CStr) (t : Tree) (d : Disk) :
    Option (Option VfsFile × Tree × Disk) :=
  match vfsRest path with
  | none => some (none, t, d)
  | some rest =>
    match vfsResolve fp fuel rest t d with
    | none => none
    | some (existing, t, d) =>
      match existing.filter fun n => t.hasFlag n VFS_FILE with
      | some n =>
        let f := openFile n (t.truncate n)
        some (f.1, f.2, d)
      | none =>
        match vfsMake fp fuel rest VFS_FILE t d with
        | none => none
        | some (none, t, d) => some (none, t, d)
        | some (some n, t, d) =>
          let f := openFile n t
          some (f.1, f.2, d)

def vfsMkdir (fp : FatPrivate) (fuel : Nat) (path : CStr) (t : Tree) (d : Disk) :
    Option (Int × Tree × Disk) :=
  match vfsRest path with
  | none => some (-1, t, d)
  | some rest =>
    match vfsResolve fp fuel rest t d with
    | none => none
    | some (some _, t, d) => some (-1, t, d)
    | some (none, t, d) =>
      match vfsMake fp fuel rest VFS_DIR t d with
      | none => none
      | some (none, t, d) => some (-1, t, d)
      | some (some _, t, d) => some (0, t, d)

def Tree.dropChild (t : Tree) (parent child : Nat) : Tree :=
  match t.nodes parent with
  | none => t
  | some p => t.setNode parent { p with children := p.children.erase child }

def vfsUnlink (fp : FatPrivate) (fuel : Nat) (path : CStr) (t : Tree) (d : Disk) :
    Option (Int × Tree × Disk) :=
  match vfsRest path with
  | none => some (-1, t, d)
  | some rest =>
    match vfsParent fp fuel rest t d with
    | none => none
    | some (none, t, d) => some (-1, t, d)
    | some (some (parent, name), t, d) =>
      match fatUnlink fp fuel parent name t d with
      | none => none
      | some (ret, d) =>
        match t.find name (t.children parent) with
        | none => some (ret, t, d)
        | some child => if ret < 0 then some (ret, t, d) else some (0, t.dropChild parent child, d)

end EponaOS.Fs
