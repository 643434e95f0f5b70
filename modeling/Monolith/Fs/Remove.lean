import Monolith.Fs.Create
import Monolith.Fs.Files

/-!
# Entries that come and go: `vfs_unlink`, `procfs`, `getdents`

* `vfs_unlink` of `fs/vfs.c` takes the node away from an entry and the entry out of its directory.
* `fs/procfs/procfs.c` makes a directory with two files for every process, and removes them when the
  process is reaped.  `procfs_remove` frees the node itself, whatever its counters say.
* `generic_fs_getdents` of `fs/generic.c` takes two references to every entry that it lists and
  gives back one.
-/

namespace Monolith.Fs

open Fallible

/-! ## Taking an entry out -/

/-- `list_del(&dentry->sibling)`, for an entry in the directory `parent`. -/
def siblingDel (v : Vfs) (dentry parent : Addr) : Except VfsFault Vfs :=
  if parent = 0 then .ok v
  else do
    let p ← v.ventry parent
    .ok (v.setVentry parent { p with children := p.children.filter (· ≠ dentry) })

/-- How `vfs_unlink` and `procfs_remove` end. -/
def detach (v : Vfs) (dentry : Addr) : Except VfsFault Vfs := do
  let e ← v.ventry dentry
  let v ← siblingDel (v.setVentry dentry { e with node := 0 }) dentry e.parent
  ventryPut v dentry

/-- The last link to a node goes, or one of several. -/
def dropNode (v : Vfs) (node : Addr) : Except VfsFault Vfs := do
  let n ← v.vnode node
  if n.nlink ≤ 1 then vnodePut (v.setVnode node { n with nlink := 0 }) node
  else .ok (v.setVnode node { n with nlink := n.nlink - 1 })

/-- `vfs_unlink`, for a task in `cwd` -/
def vfsUnlink (v : Vfs) (cwd : Addr) (path : Str) : Except VfsFault (Except Errno Unit × Vfs) := do
  let (dentry, v) ← vfsLookup v cwd path false
  match dentry with
  | .error errno => .ok (.error errno, v)
  | .ok dentry => do
    let e ← v.ventry dentry
    let n ← v.vnode e.node
    if sIsdir n.mode then .ok (.error .eisdir, v)
    else do
      let v ← dropNode v e.node
      let v ← detach v dentry
      .ok (.ok (), v)

/-! ## `procfs` -/

/-- `procfs_mkdir` and `procfs_create`, below the root of `procfs`: the directory of the new entry
and its name are found, and there is no such entry yet. -/
def procfsNewEntry (make : Vfs → Addr → Str → Except VfsFault Vfs) (v : Vfs) (root : Addr)
    (path : Str) : Except VfsFault Vfs := do
  let (parent, v) ← vfsLookupAt v root path true
  match parent with
  | .error _ => .ok v
  | .ok parent => do
    let (result, v) ← vfsLookupAt v parent (basename path) false
    match result with
    | .ok _ => .ok v
    | .error _ => make v parent (basename path)

def procfsMkdir (v : Vfs) (root : Addr) (path : Str) (new : Fresh) : Except VfsFault Vfs :=
  procfsNewEntry (fun v parent name => genericFsMkdir v parent name 0o755 new) v root path

/-- A new entry that is not in the hash table. -/
def appendDirent (v : Vfs) (parent : Addr) (path : Str) (new : Fresh) : Except VfsFault Vfs := do
  let v ← ventryNew v new.dirent path new.inode
  let d ← v.ventry new.dirent
  let v := v.setVentry new.dirent { d with parent }
  let p ← v.ventry parent
  .ok (v.setVentry parent { p with children := p.children ++ [new.dirent] })

def procfsCreate (v : Vfs) (root : Addr) (path : Str) (new : Fresh) : Except VfsFault Vfs :=
  procfsNewEntry (fun v parent name => do
    let v ← newInode v parent (sIfreg ||| 0o444) new
    appendDirent v parent name new) v root path

/-- `if(dentry->parent && dentry->parent->node) dentry->parent->node->nlink--;` -/
def dropParentLink (v : Vfs) (parent : Addr) : Except VfsFault Vfs :=
  if parent = 0 then .ok v
  else do
    let p ← v.ventry parent
    if p.node = 0 then .ok v
    else do
      let n ← v.vnode p.node
      .ok (v.setVnode p.node { n with nlink := n.nlink - 1 })

def kfreeNode (v : Vfs) (node : Addr) : Except VfsFault Vfs := do
  let _ ← v.vnode node
  .ok { v with vnodes := Function.update v.vnodes node none }

def procfsRemove (v : Vfs) (root : Addr) (path : Str) : Except VfsFault Vfs := do
  let (dentry, v) ← vfsLookupAt v root path false
  match dentry with
  | .error _ => .ok v
  | .ok dentry => do
    let e ← v.ventry dentry
    -- `dentry->node->mode`
    let _ ← v.vnode e.node
    let v ← dropParentLink v e.parent
    let v ← kfreeNode v e.node
    detach v dentry

/-- `sprintf(str_buf, "%d", pid)` -/
def pidStr (pid : Nat) : Str := (Nat.toDigits 10 pid).map fun c => BitVec.ofNat 8 c.toNat

def statusPath (pid : Nat) : Str := pidStr pid ++ [0x2f, 0x73, 0x74, 0x61, 0x74, 0x75, 0x73]

def mapsPath (pid : Nat) : Str := pidStr pid ++ [0x2f, 0x6d, 0x61, 0x70, 0x73]

/-- `kmalloc` gives memory that is not in use. -/
def kmallocFresh (v : Vfs) (new : Fresh) : Except VfsFault Unit :=
  if new.Ok v then .ok () else .error .noMemory

/-- Where the three entries of a process are put. -/
structure FreshProcess where
  dir : Fresh
  status : Fresh
  maps : Fresh

def procfsRegisterProcess (v : Vfs) (root : Addr) (pid : Nat) (new : FreshProcess) :
    Except VfsFault Vfs := do
  kmallocFresh v new.dir
  let v ← procfsMkdir v root (pidStr pid) new.dir
  kmallocFresh v new.status
  let v ← procfsCreate v root (statusPath pid) new.status
  kmallocFresh v new.maps
  procfsCreate v root (mapsPath pid) new.maps

/-! ## `getdents` -/

/-- `offsetof(struct posix_dent, d_name)` -/
def dentHeader : BitVec 64 := 19

/-- Where the entries begin in the buffer, behind `.` and `..`. -/
def dotsEnd (buffer limit : BitVec 64) : BitVec 64 :=
  let head := if buffer < limit then buffer + (dentHeader + 2) else buffer
  if head < limit then head + (dentHeader + 3) else head

/-- The loop of `generic_fs_getdents`, up to `limit`. -/
def genericFsGetdents (limit : BitVec 64) :
    List Addr → BitVec 64 → Vfs → Except VfsFault (BitVec 64 × Vfs)
  | [], head, v => .ok (head, v)
  | c :: cs, head, v =>
    if limit ≤ head then .ok (head, v)
    else do
      let v ← ventryRef v c
      -- `reflock_acquire(&current->ref)`
      let v ← ventryRef v c
      let e ← v.ventry c
      let v ← ventryPut v c
      genericFsGetdents limit cs (head + (dentHeader + BitVec.ofNat 64 (e.name.length + 1))) v

/-- `vfs_getdents`.  Where `lookup` is `generic_fs_lookup`, `getdents` is `generic_fs_getdents`; the
other file system with directories reads them from its disk and returns `disk`. -/
def vfsGetdents (v : Vfs) (fd : Fin 64) (buffer length disk : BitVec 64) :
    Except VfsFault (Except Errno (BitVec 64) × Vfs) :=
  if (v.openFiles fd).inode = 0 then .ok (.error .ebadf, v)
  else do
    let n ← v.vnode (v.openFiles fd).inode
    if sIsdir n.mode = false then .ok (.error .enotdir, v)
    else if n.iops.lookup then do
      let p ← v.ventry (v.openFiles fd).path
      let (head, v) ← genericFsGetdents (buffer + length) p.children
          (dotsEnd buffer (buffer + length)) v
      .ok (.ok (head - buffer), v)
    else .ok (.ok disk, v)

end Monolith.Fs
