import Monolith.Lib.Fallible

/-!
# The file system: entries, nodes, the cache of names and the lookup of paths

The objects of `fs/*.c` are on the heap, and their addresses are what links them: an address that is
not null and has no object is one that was freed.  A call follows pointers, so it can fail in a way
that has nothing to do with the error it returns; such a failure is a `VfsFault`.

* `fs/vnode.c` and `fs/ventry.c`: the two kinds of objects, with their three counters, and the hash
  table in which an entry is found by its parent and its name.
* `fs/lookup.c`: `vfs_lookup_at` and `vfs_lookup`.
* `fs/generic.c`: what `ramfs` does to look up and make entries.
* `fs/vfs.c`: `vfs_create`, `vfs_mkdir` and `vfs_mknod`.
-/

namespace Monolith.Fs

open Function Fallible

/-- An address; 0 is the null pointer. -/
abbrev Addr := BitVec 64

/-- A string of C, up to the byte 0 that ends it. -/
abbrev Str := List (BitVec 8)

def slash : BitVec 8 := 0x2f

def dot : BitVec 8 := 0x2e

/-- The errors that calls return, without their sign. -/
inductive Errno where
  | enoent
  | enotdir
  | eexist
  | einval
  | eisdir
  | ebadf
  | enfile
  | ebusy
  | enxio
  | enodev
  | enotblk
  | efault
  | emfile
  | eacces
  | enoexec
  | enotsup
  | enotsock
  | eaddrinuse
  | enetunreach
  deriving DecidableEq, Repr

/-- How a call ends that does not return. -/
inductive VfsFault where
  /-- A null pointer is followed. -/
  | null
  /-- A pointer to freed memory is followed, or freed again. -/
  | freed (addr : Addr)
  /-- "kmalloc: allocation %d too big" -/
  | tooBig (size : Nat)
  /-- A linked list has no end. -/
  | endless
  /-- Memory that is not there is read. -/
  | unmapped
  /-- `kmalloc` has no memory for a new object. -/
  | noMemory
  deriving DecidableEq, Repr

/-! ## Objects -/

/-- `struct inode_ops`: which of its pointers are set.  Wherever `lookup`, `create`, `mkdir` and
`mknod` are set they are the functions of `fs/generic.c`. -/
structure InodeOps where
  lookup : Bool
  create : Bool
  mkdir : Bool
  mknod : Bool
  deriving DecidableEq, Repr

def ramfsIops : InodeOps := ⟨true, true, true, true⟩

def procfsIops : InodeOps := ⟨true, false, false, false⟩

/-- `fatfs_iops`, and the operations of a socket. -/
def noIops : InodeOps := ⟨false, false, false, false⟩

/-- `struct mount`.  What its file system says is its root, if it says something. -/
structure Mount where
  mountpoint : Addr
  root : Option Addr
  deriving DecidableEq, Repr

/-- `struct vnode` -/
structure Vnode where
  mode : BitVec 32
  dev : BitVec 64
  nlink : BitVec 64
  ref : BitVec 32
  /-- The socket of a node that is one. -/
  data : Addr
  iops : InodeOps
  deriving DecidableEq, Repr

/-- `struct ventry`.  Its `children` are the entries that are linked by `sibling`. -/
structure Ventry where
  name : Str
  node : Addr
  parent : Addr
  children : List Addr
  /-- The next entry in its bucket. -/
  next : Addr
  mount : Option Mount
  count : BitVec 32
  deriving DecidableEq, Repr

/-- `struct file_descriptor` -/
structure FileDescriptor where
  pos : BitVec 64
  inode : Addr
  path : Addr
  fsId : BitVec 32
  refcount : BitVec 32
  deriving DecidableEq, Repr

/-- The heap, the hash table, and `struct vfs_context`. -/
structure Vfs where
  ventries : Addr → Option Ventry
  vnodes : Addr → Option Vnode
  /-- The sockets that are not freed. -/
  sockets : Addr → Bool
  hashTable : Nat → Addr
  rootNode : Addr
  mounts : List Mount
  openFiles : Fin 64 → FileDescriptor
  /-- The numbers of the character devices and of the block devices that are registered. -/
  chardevs : BitVec 64 → Bool
  blockdevs : BitVec 64 → Bool

def sIfmt : BitVec 32 := 0xf000
def sIfdir : BitVec 32 := 0x4000
def sIfchr : BitVec 32 := 0x2000
def sIfblk : BitVec 32 := 0x6000
def sIfreg : BitVec 32 := 0x8000
def sIfsock : BitVec 32 := 0xc000

def sIsdir (mode : BitVec 32) : Bool := mode &&& sIfmt = sIfdir
def sIschr (mode : BitVec 32) : Bool := mode &&& sIfmt = sIfchr
def sIsblk (mode : BitVec 32) : Bool := mode &&& sIfmt = sIfblk
def sIsreg (mode : BitVec 32) : Bool := mode &&& sIfmt = sIfreg
def sIssock (mode : BitVec 32) : Bool := mode &&& sIfmt = sIfsock

namespace Vfs

def ventry (v : Vfs) (a : Addr) : Except VfsFault Ventry :=
  if a = 0 then .error .null
  else
    match v.ventries a with
    | some e => .ok e
    | none => .error (.freed a)

def vnode (v : Vfs) (a : Addr) : Except VfsFault Vnode :=
  if a = 0 then .error .null
  else
    match v.vnodes a with
    | some n => .ok n
    | none => .error (.freed a)

def setVentry (v : Vfs) (a : Addr) (e : Ventry) : Vfs :=
  { v with ventries := update v.ventries a (some e) }

def setVnode (v : Vfs) (a : Addr) (n : Vnode) : Vfs :=
  { v with vnodes := update v.vnodes a (some n) }

section Updates

variable (v : Vfs) {a b : Addr} (e : Ventry) (n : Vnode)

@[simp] theorem ventries_set_self : (v.setVentry a e).ventries a = some e := update_self ..

theorem ventries_set_ne (h : b ≠ a) : (v.setVentry a e).ventries b = v.ventries b :=
  update_of_ne h ..

@[simp] theorem vnodes_set_self : (v.setVnode a n).vnodes a = some n := update_self ..

theorem vnodes_set_ne (h : b ≠ a) : (v.setVnode a n).vnodes b = v.vnodes b := update_of_ne h ..

end Updates

end Vfs

/-! ## `fs/vnode.c` -/

/-- `vnode_new`, in fresh memory at `a`. -/
def vnodeNew (v : Vfs) (a : Addr) (mode : BitVec 32) : Vfs :=
  v.setVnode a { mode, dev := 0, nlink := 0, ref := 0, data := 0, iops := noIops }

/-- `socket_put`, as far as it frees the socket. -/
def socketPut (v : Vfs) (sock : Addr) : Except VfsFault Vfs :=
  if sock = 0 then .error .null
  else if v.sockets sock then .ok { v with sockets := update v.sockets sock false }
  else .error (.freed sock)

/-- `vnode_free` -/
def vnodeFree (v : Vfs) (a : Addr) : Except VfsFault Vfs := do
  let n ← v.vnode a
  if sIssock n.mode then do
    let v ← socketPut v n.data
    .ok { v with vnodes := update v.vnodes a none }
  else .ok { v with vnodes := update v.vnodes a none }

/-- `vnode_ref` -/
def vnodeRef (v : Vfs) (a : Addr) : Except VfsFault Vfs := do
  let n ← v.vnode a
  .ok (v.setVnode a { n with ref := n.ref + 1 })

/-- `vnode_put` -/
def vnodePut (v : Vfs) (a : Addr) : Except VfsFault Vfs := do
  let n ← v.vnode a
  let v := v.setVnode a { n with ref := n.ref - 1 }
  if n.ref ≤ 1 ∧ n.nlink = 0 then vnodeFree v a else .ok v

/-! ## `fs/ventry.c` -/

/-- `dcache_hash`.  A `char` is signed. -/
def dcacheHash (parent : Addr) (name : Str) : Nat :=
  ((name.foldl (fun hash c => (hash ^^^ c.signExtend 64) * 0x100000001b3) 0xcbf29ce484222325#64) ^^^
    parent).toNat % 1024

/-- The loop of `dcache_get`, for at most `fuel` entries.  A name ends at its byte 63 at the latest;
so a string that is longer than that is no entry's name, wherever behind the name the comparison
looks. -/
def dcacheFind (v : Vfs) (parent : Addr) (name : Str) : Nat → Addr → Except VfsFault Addr
  | 0, _ => .error .endless
  | fuel + 1, cur =>
    if cur = 0 then .ok 0
    else do
      let e ← v.ventry cur
      if e.parent = parent ∧ e.name = name then .ok cur else dcacheFind v parent name fuel e.next

/-- `dcache_get` -/
def dcacheGet (v : Vfs) (parent : Addr) (name : Str) : Except VfsFault Addr :=
  dcacheFind v parent name (2 ^ 64) (v.hashTable (dcacheHash parent name))

/-- `dcache_insert` -/
def dcacheInsert (v : Vfs) (a : Addr) : Except VfsFault Vfs := do
  let e ← v.ventry a
  let hash := dcacheHash e.parent e.name
  .ok { v.setVentry a { e with next := v.hashTable hash } with
        hashTable := update v.hashTable hash a }

/-- The loop of `dcache_remove` behind the head of the bucket: the entry before `a` is found, and
made to skip it. -/
def dcacheUnlink (v : Vfs) (a : Addr) : Nat → Addr → Except VfsFault Vfs
  | 0, _ => .error .endless
  | fuel + 1, cur =>
    if cur = 0 then .ok v
    else do
      let e ← v.ventry cur
      if e.next = a then do
        let ea ← v.ventry a
        let v := v.setVentry cur { e with next := ea.next }
        let ea ← v.ventry a
        .ok (v.setVentry a { ea with next := 0 })
      else dcacheUnlink v a fuel e.next

/-- `dcache_remove` -/
def dcacheRemove (v : Vfs) (a : Addr) : Except VfsFault Vfs := do
  let e ← v.ventry a
  let hash := dcacheHash e.parent e.name
  if v.hashTable hash = a then
    .ok { v.setVentry a { e with next := 0 } with hashTable := update v.hashTable hash e.next }
  else dcacheUnlink v a (2 ^ 64) (v.hashTable hash)

/-- What `ventry_new` makes of a name: at most 64 bytes are copied, a slash at their end is dropped,
and then byte 63 ends the name.  (Of 64 bytes that are not ended by a byte 0 the test for the slash
looks at what is behind them, but then byte 63 goes in any case.) -/
def ventryName (name : Str) : Str :=
  let copy := name.take 64
  (if 1 < copy.length ∧ copy.getLast? = some slash then copy.dropLast else copy).take 63

/-- `ventry_new`, in fresh memory at `a`. -/
def ventryNew (v : Vfs) (a : Addr) (name : Str) (node : Addr) : Except VfsFault Vfs := do
  let n ← v.vnode node
  let v := v.setVnode node { n with nlink := n.nlink + 1 }
  .ok (v.setVentry a
    { name := ventryName name, node, parent := 0, children := [], next := 0, mount := none,
      count := 0 })

/-- `ventry_ref` -/
def ventryRef (v : Vfs) (a : Addr) : Except VfsFault Vfs := do
  let e ← v.ventry a
  .ok (v.setVentry a { e with count := e.count + 1 })

/-- `ventry_free` -/
def ventryFree (v : Vfs) (a : Addr) : Vfs := { v with ventries := update v.ventries a none }

/-- `ventry_put` -/
def ventryPut (v : Vfs) (a : Addr) : Except VfsFault Vfs := do
  let e ← v.ventry a
  let v := v.setVentry a { e with count := e.count - 1 }
  if 1 < e.count then .ok v
  else if e.node ≠ 0 then .ok v
  else do
    let v ← dcacheRemove v a
    .ok (ventryFree v a)

/-! ## `fs/generic.c`: lookup -/

/-- The loop of `generic_fs_lookup` over the entries `cs`. -/
def genericFsLookup (path : Str) : List Addr → Vfs → Except VfsFault (Addr × Vfs)
  | [], v => .ok (0, v)
  | c :: cs, v => do
    let v ← ventryRef v c
    let e ← v.ventry c
    let v ← ventryPut v c
    if e.name.take 64 = path.take 64 then .ok (c, v) else genericFsLookup path cs v

/-! ## `fs/lookup.c` -/

/-- `traverse_mount`, where it is called: the root of what is mounted on an entry other than the
root. -/
def traverseMount (v : Vfs) (a : Addr) (e : Ventry) : Except Errno Addr :=
  match (if a ≠ v.rootNode then e.mount else none) with
  | none => .ok a
  | some mp =>
    match mp.root with
    | some root => .ok root
    | none => .error .enoent

/-- Where `..` leads.  For an entry without a parent the mount whose root it is tells. -/
def lookupUp (v : Vfs) (current : Addr) (e : Ventry) : Except VfsFault Addr :=
  if e.parent ≠ 0 then .ok e.parent
  else
    match v.mounts.find? fun mp => mp.root = some current with
    | none => .ok 0
    | some mp =>
      if mp.mountpoint = v.rootNode then .ok v.rootNode
      else do
        let e ← v.ventry mp.mountpoint
        .ok e.parent

/-- The reference goes from `current` to what is mounted there. -/
def enterMount (v : Vfs) (current dir : Addr) : Except VfsFault Vfs :=
  if dir = current then .ok v
  else do
    let v ← ventryPut v current
    ventryRef v dir

/-- What the search among the children of `dir` found goes into the hash table. -/
def lookupChild (v : Vfs) (component : Str) (children : List Addr) :
    Except VfsFault (Addr × Vfs) := do
  let (next, v) ← genericFsLookup component children v
  if next ≠ 0 then do
    let v ← dcacheInsert v next
    .ok (next, v)
  else .ok (next, v)

/-- The part of the loop that follows one component from `current`, up to `ventry_put`.  It returns
the next entry. -/
def lookupNext (v : Vfs) (current : Addr) (component : Str) :
    Except VfsFault (Except Errno Addr × Vfs) := do
  let e ← v.ventry current
  if component = [dot] then do
    let v ← ventryPut v current
    .ok (.ok current, v)
  else if component = [dot, dot] then do
    let next ← lookupUp v current e
    let v ← ventryPut v current
    .ok (.ok next, v)
  else
    match traverseMount v current e with
    | .error errno => do
      let v ← ventryPut v current
      .ok (.error errno, v)
    | .ok dir => do
      let v ← enterMount v current dir
      let hit ← dcacheGet v dir component
      if hit ≠ 0 then do
        let v ← ventryPut v dir
        .ok (.ok hit, v)
      else do
        let e ← v.ventry dir
        let n ← v.vnode e.node
        if n.iops.lookup then do
          let (next, v) ← lookupChild v component e.children
          let v ← ventryPut v dir
          .ok (.ok next, v)
        else do
          let v ← ventryPut v dir
          .ok (.error .enoent, v)

/-- The end of `vfs_lookup_at`. -/
def lookupEnd (v : Vfs) (current : Addr) : Except VfsFault (Except Errno Addr × Vfs) :=
  if current = 0 then .ok (.error .enoent, v)
  else do
    let e ← v.ventry current
    .ok (traverseMount v current e, v)

/-- The loop of `vfs_lookup_at`, on what is left of the buffer, in which the slashes are zeros.
Every round takes a byte at least. -/
def lookupLoop (parent : Bool) : Nat → Vfs → Addr → Str → Except VfsFault (Except Errno Addr × Vfs)
  | 0, v, current, _ => lookupEnd v current
  | _, v, current, [] => lookupEnd v current
  | fuel + 1, v, current, c :: cs =>
    if c = 0 then lookupLoop parent fuel v current cs
    else if current = 0 then lookupEnd v current
    else do
      let v ← ventryRef v current
      let e ← v.ventry current
      let n ← v.vnode e.node
      if sIsdir n.mode then
        let component := (c :: cs).takeWhile (· ≠ 0)
        let rest := (c :: cs).drop component.length
        -- the run of zeros behind the component reaches the end
        let isLast := rest.all (· = 0)
        if isLast ∧ parent then do
          let v ← ventryPut v current
          lookupEnd v current
        else do
          let (next, v) ← lookupNext v current component
          match next with
          | .ok next => lookupLoop parent fuel v next (rest.drop 1)
          | .error errno => .ok (.error errno, v)
      else do
        let v ← ventryPut v current
        .ok (.error .enotdir, v)

/-- `vfs_lookup_at`, with `LOOKUP_PARENT` or without. -/
def vfsLookupAt (v : Vfs) (start : Addr) (path : Str) (parent : Bool) :
    Except VfsFault (Except Errno Addr × Vfs) := do
  let hit ← dcacheGet v start path
  if hit ≠ 0 then do
    let e ← v.ventry hit
    let res := if parent then e.parent else hit
    let r ← v.ventry res
    .ok (traverseMount v res r, v)
  else if 1024 < path.length + 1 then .error (.tooBig (path.length + 1))
  else lookupLoop parent path.length v start (path.map fun c => if c = slash then 0 else c)

/-- `vfs_lookup`, for a task in `cwd`. -/
def vfsLookup (v : Vfs) (cwd : Addr) (path : Str) (parent : Bool) :
    Except VfsFault (Except Errno Addr × Vfs) :=
  match path with
  | c :: rest =>
    if c = slash then vfsLookupAt v v.rootNode rest parent else vfsLookupAt v cwd path parent
  | [] => vfsLookupAt v cwd path parent

/-! ## `fs/generic.c`: new entries -/

/-- Where the two objects of a new entry are put. -/
structure Fresh where
  inode : Addr
  dirent : Addr
  deriving DecidableEq, Repr

/-- How `generic_fs_create`, `generic_fs_mkdir` and `generic_fs_mknod` end: the entry is made and
becomes the last child of `parent`, and the first in its bucket. -/
def linkDirent (v : Vfs) (parent : Addr) (path : Str) (new : Fresh) : Except VfsFault Vfs := do
  let v ← ventryNew v new.dirent path new.inode
  let d ← v.ventry new.dirent
  let v := v.setVentry new.dirent { d with parent }
  let p ← v.ventry parent
  let v := v.setVentry parent { p with children := p.children ++ [new.dirent] }
  dcacheInsert v new.dirent

/-- How they begin: a node with the operations of the directory's. -/
def newInode (v : Vfs) (parent : Addr) (mode : BitVec 32) (new : Fresh) : Except VfsFault Vfs := do
  let v := vnodeNew v new.inode mode
  let p ← v.ventry parent
  let pn ← v.vnode p.node
  let n ← v.vnode new.inode
  .ok (v.setVnode new.inode { n with iops := pn.iops })

/-- `generic_fs_create` -/
def genericFsCreate (v : Vfs) (parent : Addr) (path : Str) (mode : BitVec 32) (new : Fresh) :
    Except VfsFault Vfs := do
  let v ← newInode v parent (sIfreg ||| mode) new
  linkDirent v parent path new

/-- `generic_fs_mkdir` -/
def genericFsMkdir (v : Vfs) (parent : Addr) (path : Str) (mode : BitVec 32) (new : Fresh) :
    Except VfsFault Vfs := do
  let v ← newInode v parent (sIfdir ||| mode) new
  let n ← v.vnode new.inode
  let v := v.setVnode new.inode { n with nlink := n.nlink + 1 }
  let p ← v.ventry parent
  let pn ← v.vnode p.node
  let v := v.setVnode p.node { pn with nlink := pn.nlink + 1 }
  linkDirent v parent path new

/-- `generic_fs_mknod`.  A device that is not registered has no operations to follow. -/
def genericFsMknod (v : Vfs) (parent : Addr) (path : Str) (mode : BitVec 32) (dev : BitVec 64)
    (new : Fresh) : Except VfsFault (Except Errno Unit × Vfs) := do
  let v ← newInode v parent mode new
  if sIschr mode ∨ sIsblk mode then
    if (if sIschr mode then v.chardevs dev else v.blockdevs dev) then do
      let n ← v.vnode new.inode
      let v ← linkDirent (v.setVnode new.inode { n with dev }) parent path new
      .ok (.ok (), v)
    else .error .null
  else .ok (.error .einval, { v with vnodes := update v.vnodes new.inode none })

/-! ## `fs/vfs.c`: new entries -/

/-- The loop that finds the last name of a path. -/
def basenameFrom : Str → Str → Str
  | best, [] => best
  | best, [_] => best
  | best, c :: d :: cs => basenameFrom (if c = slash then d :: cs else best) (d :: cs)

/-- The last name of a path that is not empty, with a slash if one follows it. -/
def basename (path : Str) : Str := basenameFrom path path

/-- `vfs_create`, `vfs_mkdir` and `vfs_mknod`: the directory of the new entry and its name are
found, there is no such entry yet, and the operation `op` of the directory's node makes it. -/
def vfsNewEntry (op : InodeOps → Bool)
    (make : Vfs → Addr → Str → Except VfsFault (Except Errno Unit × Vfs)) (v : Vfs) (cwd : Addr)
    (path : Str) : Except VfsFault (Except Errno Unit × Vfs) := do
  let (parent, v) ← vfsLookup v cwd path true
  match parent with
  | .error errno => .ok (.error errno, v)
  | .ok parent => do
    let (result, v) ← vfsLookupAt v parent (basename path) false
    match result with
    | .ok _ => .ok (.error .eexist, v)
    | .error _ => do
      let p ← v.ventry parent
      let pn ← v.vnode p.node
      if op pn.iops then make v parent (basename path) else .ok (.error .enoent, v)

/-- `vfs_create` -/
def vfsCreate (v : Vfs) (cwd : Addr) (path : Str) (mode : BitVec 32) (new : Fresh) :
    Except VfsFault (Except Errno Unit × Vfs) :=
  vfsNewEntry InodeOps.create (fun v parent name => do
    let v ← genericFsCreate v parent name mode new
    .ok (.ok (), v)) v cwd path

/-- `vfs_mkdir` -/
def vfsMkdir (v : Vfs) (cwd : Addr) (path : Str) (mode : BitVec 32) (new : Fresh) :
    Except VfsFault (Except Errno Unit × Vfs) :=
  vfsNewEntry InodeOps.mkdir (fun v parent name => do
    let v ← genericFsMkdir v parent name (mode &&& 0o777) new
    .ok (.ok (), v)) v cwd path

/-- `vfs_mknod` -/
def vfsMknod (v : Vfs) (cwd : Addr) (path : Str) (mode : BitVec 32) (dev : BitVec 64)
    (new : Fresh) : Except VfsFault (Except Errno Unit × Vfs) :=
  vfsNewEntry InodeOps.mknod (fun v parent name => genericFsMknod v parent name mode dev new) v
    cwd path

/-! ## `vfs_init` -/

/-- `vfs_init`: a root, in fresh memory, and nothing else. -/
def vfsInit (new : Fresh) (chardevs blockdevs : BitVec 64 → Bool) : Vfs :=
  { ventries := update (fun _ => none) new.dirent (some
      { name := [slash], node := new.inode, parent := 0, children := [], next := 0
        mount := some ⟨new.dirent, some new.dirent⟩, count := 0 })
    vnodes := update (fun _ => none) new.inode (some
      { mode := sIfdir ||| 0o777, dev := 0, nlink := 1, ref := 0, data := 0, iops := ramfsIops })
    sockets := fun _ => false
    hashTable := fun _ => 0
    rootNode := new.dirent
    mounts := [⟨new.dirent, some new.dirent⟩]
    openFiles := fun _ => ⟨0, 0, 0, 0, 0⟩
    chardevs, blockdevs }

end Monolith.Fs
