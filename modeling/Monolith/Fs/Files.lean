import Monolith.Fs.Vfs

/-!
# Open files

The 64 slots of `vfs_context.open_files`.  `vfs_open_internal` takes a slot with a count of 0 for a
node, and a reference to the node with it; `vfs_dup` and `vfs_put_file` count; the last
`vfs_put_file` gives back the references to the node and to the entry.
-/

namespace Monolith.Fs

open Fallible

def Vfs.setFile (v : Vfs) (fd : Fin 64) (file : FileDescriptor) : Vfs :=
  { v with openFiles := Function.update v.openFiles fd file }

/-- `node->fops->open(node, flags)`, which the devices have.  What a device says is up to it. -/
def fopsOpen (n : Vnode) (device : Except Errno Unit) : Except Errno Unit :=
  if sIschr n.mode then device else .ok ()

/-- The search of `vfs_open_internal`. -/
def freeSlot (v : Vfs) : Option (Fin 64) :=
  (List.finRange 64).find? fun i => (v.openFiles i).refcount = 0

def vfsOpenInternal (v : Vfs) (node path : Addr) (device : Except Errno Unit) :
    Except VfsFault (Except Errno (Fin 64) × Vfs) := do
  let n ← v.vnode node
  match fopsOpen n device with
  | .error errno => .ok (.error errno, v)
  | .ok () => do
    let v ← vnodeRef v node
    match freeSlot v with
    | none => .ok (.error .enfile, v)
    | some fd => .ok (.ok fd,
      v.setFile fd { pos := 0, inode := node, path, fsId := 0, refcount := 1 })

/-- The part of `vfs_open` and `vfs_openat` behind the lookup. -/
def openEntry (v : Vfs) (query : Addr) (device : Except Errno Unit) :
    Except VfsFault (Except Errno (Fin 64) × Vfs) := do
  let v ← ventryRef v query
  let e ← v.ventry query
  if e.node = 0 then do
    let v ← ventryPut v query
    .ok (.error .ebadf, v)
  else do
    let (fd, v) ← vfsOpenInternal v e.node query device
    match fd with
    | .ok fd => .ok (.ok fd, v)
    | .error errno => do
      let v ← ventryPut v query
      .ok (.error errno, v)

/-- The part of `vfs_open` behind `vfs_create`: the second lookup.  Its status is not looked at, so
where it finds nothing a null pointer is followed. -/
def openCreated (v : Vfs) (cwd : Addr) (path : Str) (device : Except Errno Unit) :
    Except VfsFault (Except Errno (Fin 64) × Vfs) := do
  let (query, v) ← vfsLookup v cwd path false
  match query with
  | .ok query => openEntry v query device
  | .error _ => .error .null

/-- `vfs_open`, with `O_CREAT` or without. -/
def vfsOpen (v : Vfs) (cwd : Addr) (path : Str) (creat : Bool) (new : Fresh)
    (device : Except Errno Unit) : Except VfsFault (Except Errno (Fin 64) × Vfs) := do
  let (query, v) ← vfsLookup v cwd path false
  match query with
  | .ok query => openEntry v query device
  | .error errno =>
    if errno = .enoent ∧ creat then do
      let (created, v) ← vfsCreate v cwd path 0o666 new
      match created with
      | .error errno => .ok (.error errno, v)
      | .ok () => openCreated v cwd path device
    else .ok (.error errno, v)

/-- `vfs_openat`, in the directory `dir` -/
def vfsOpenat (v : Vfs) (dir : Addr) (path : Str) (device : Except Errno Unit) :
    Except VfsFault (Except Errno (Fin 64) × Vfs) := do
  let (query, v) ← vfsLookupAt v dir path false
  match query with
  | .ok query => openEntry v query device
  | .error errno => .ok (.error errno, v)

def Vfs.refFile (v : Vfs) (fd : Fin 64) : Vfs :=
  v.setFile fd { v.openFiles fd with refcount := (v.openFiles fd).refcount + 1 }

def putPath (v : Vfs) (path : Addr) : Except VfsFault Vfs :=
  if path = 0 then .ok v else ventryPut v path

/-- `vfs_put_file`.  The devices' `close` does not fail. -/
def Vfs.putFile (v : Vfs) (fd : Fin 64) : Except VfsFault Vfs := do
  let file := v.openFiles fd
  let v := v.setFile fd { file with refcount := file.refcount - 1 }
  if 1 < file.refcount then .ok v
  else do
    -- `file->inode->fops->close`
    let _ ← v.vnode file.inode
    let v ← vnodePut v file.inode
    let v ← putPath v file.path
    .ok (v.setFile fd
    { pos := 0, inode := 0, path := 0, fsId := -1, refcount := file.refcount - 1 })

def vfsClose (v : Vfs) (fd : Fin 64) : Except VfsFault (Except Errno Unit × Vfs) :=
  if (v.openFiles fd).inode = 0 then .ok (.error .ebadf, v)
  else do
    let v ← v.putFile fd
    .ok (.ok (), v)

def vfsDup (v : Vfs) (fd : Fin 64) : Except Errno (Fin 64) × Vfs :=
  if (v.openFiles fd).inode = 0 then (.error .ebadf, v) else (.ok fd, v.refFile fd)

end Monolith.Fs
