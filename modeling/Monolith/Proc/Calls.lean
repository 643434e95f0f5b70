import Monolith.Fs.Remove
import Monolith.Mm.Layout

/-!
# Processes and their files

The tasks of the system, each with 32 entries for open files, a working directory and an address
space, and the system calls that work on them: `fs/vfs_sys.c`, `net/socket_sys.c`, `mm/vm_syscall.c`
and `sched/task_sys.c`, with what `sys/binfmt` does when a new task starts.  The calls come one at a
time, of any task in any order.

Of an address space only the list of its objects matters here; `vm_space_map` puts an object on that
list as `Mm.mapList` says (`Mm.vmSpaceMap_objects`).
-/

namespace Monolith.Proc

open Fallible Transition Fs Mm Function List

/-! ## Tasks -/

/-- `task->open_files[i]`: -1, an error that `vfs_dup` returned, or a slot of
`vfs_context.open_files`. -/
inductive FdEntry where
  | closed
  | failed
  | slot (fd : Fin 64)
  deriving DecidableEq, Repr

def FdEntry.ofDup : Except Errno (Fin 64) → FdEntry
  | .ok fd => .slot fd
  | .error _ => .failed

/-- The entry is not negative. -/
def FdEntry.isOpen : FdEntry → Bool
  | .slot _ => true
  | _ => false

/-- `struct task`, as far as its files go.  A task that is being started has files open for the
loader. -/
structure Task where
  openFiles : Fin 32 → FdEntry
  cwd : Addr
  objects : List VmObject
  opens : List (Fin 64)

namespace Task

variable (t : Task)

def setEntry (i : Fin 32) (entry : FdEntry) : Task :=
  { t with openFiles := update t.openFiles i entry }

/-- The search of `sys_open` and `sys_openat`, for -1. -/
def freeEntry : Option (Fin 32) := (finRange 32).find? fun i => t.openFiles i = .closed

/-- The search of `sys_dup` and `sys_socket`, for a negative entry. -/
def negativeEntry : Option (Fin 32) := (finRange 32).find? fun i => (t.openFiles i).isOpen = false

/-- The slot goes into the entry, unless there is none. -/
def install (i : Fin 32) : Except Errno (Fin 64) → Except Errno (Fin 32) × Task
  | .ok fd => (.ok i, t.setEntry i (.slot fd))
  | .error errno => (.error errno, t)

end Task

structure UserPath where
  ptr : BitVec 64
  str : Str
  deriving DecidableEq, Repr

abbrev Outcome (α : Type) := Except Errno α × Task × Vfs

/-! ## `fs/vfs_sys.c` -/

section Calls

variable (v : Vfs) (t : Task)

def sysOpen (path : UserPath) (creat : Bool) (new : Fresh) (device : Except Errno Unit) :
    Except VfsFault (Outcome (Fin 32)) :=
  if path.ptr = 0 then .ok (.error .einval, t, v)
  else if vmValidatePtr path.ptr = false then .ok (.error .efault, t, v)
  else
    match t.freeEntry with
    | none => .ok (.error .emfile, t, v)
    | some i => do
      let (fd, v) ← vfsOpen v t.cwd path.str creat new device
      .ok ((t.install i fd).1, (t.install i fd).2, v)

/-- The directory that `sys_openat` starts in: that of the task for `AT_FDCWD`, or an open one. -/
def openatDir : Option (Fin 32) → Option Addr
  | none => some t.cwd
  | some i =>
    match t.openFiles i with
    | .slot fd => some (v.openFiles fd).path
    | _ => none

def sysOpenat (fd : Option (Fin 32)) (path : UserPath) (device : Except Errno Unit) :
    Except VfsFault (Outcome (Fin 32)) :=
  if path.ptr = 0 then .ok (.error .einval, t, v)
  else if vmValidatePtr path.ptr = false then .ok (.error .efault, t, v)
  else
    match t.freeEntry, openatDir v t fd with
    | none, _ => .ok (.error .emfile, t, v)
    | some _, none => .ok (.error .ebadf, t, v)
    | some i, some dir => do
      let (fd, v) ← vfsOpenat v dir path.str device
      .ok ((t.install i fd).1, (t.install i fd).2, v)

def sysClose (i : Fin 32) : Except VfsFault (Outcome Unit) :=
  match t.openFiles i with
  | .slot fd => do
    let (r, v) ← vfsClose v fd
    .ok (r, t.setEntry i .closed, v)
  | _ => .ok (.error .ebadf, t, v)

def sysDup (i : Fin 32) : Except VfsFault (Outcome (Fin 32)) :=
  match t.openFiles i, t.negativeEntry with
  | .slot _, none => .ok (.error .emfile, t, v)
  | .slot fd, some j => .ok (.ok j, t.setEntry j (.ofDup (vfsDup v fd).1), (vfsDup v fd).2)
  | _, _ => .ok (.error .ebadf, t, v)

def sysGetdents (i : Fin 32) (buffer length disk : BitVec 64) :
    Except VfsFault (Outcome (BitVec 64)) :=
  match t.openFiles i with
  | .slot fd =>
    if vmValidatePtr buffer = false then .ok (.error .efault, t, v)
    else do
      let (r, v) ← vfsGetdents v fd buffer length disk
      .ok (r, t, v)
  | _ => .ok (.error .ebadf, t, v)

/-! ## `net/socket_sys.c` -/

/-- Where a socket and its node are put. -/
structure FreshSocket where
  socket : Addr
  inode : Addr
  deriving DecidableEq, Repr

def FreshSocket.Ok (new : FreshSocket) : Prop :=
  new.socket ≠ 0 ∧ new.inode ≠ 0 ∧ v.sockets new.socket = false ∧ v.vnodes new.inode = none

instance (new : FreshSocket) : Decidable (FreshSocket.Ok v new) :=
  inferInstanceAs (Decidable (_ ∧ _ ∧ _ ∧ _))

/-- `socket_create`, once the protocol has accepted the socket. -/
def socketCreate (new : FreshSocket) : Vfs :=
  { v with sockets := update v.sockets new.socket true }.setVnode new.inode
    { mode := sIfsock ||| 0o775, dev := 0, nlink := 0, ref := 0, data := new.socket,
      iops := noIops }

/-- `sys_socket`, where `created` is what `socket_create` says to the domain, the type and the
protocol.  If no entry is free the file is closed again. -/
def sysSocket (created : Except Errno Unit) (new : FreshSocket) :
    Except VfsFault (Outcome (Fin 32)) :=
  match created with
  | .error errno => .ok (.error errno, t, v)
  | .ok () => do
    let (fd, v) ← vfsOpenInternal (socketCreate v new) new.inode 0 (.ok ())
    match fd with
    | .error errno => do
      let v ← socketPut v new.socket
      .ok (.error errno, t, v)
    | .ok fd =>
      match t.negativeEntry with
      | none => do
        let (_, v) ← vfsClose v fd
        .ok (.error .emfile, t, v)
      | some i => .ok (.ok i, t.setEntry i (.slot fd), v)

/-! ## Address spaces -/

/-- `vm_space_map`, for an object of a file with the operations `node` or of none. -/
def Task.map (node : FileNode) (info : VmMappingInfo) : BitVec 64 × Task :=
  let base := mapBase vmUserspaceBase t.objects info
  match mapList vmUserspaceBase vmUserspaceEnd t.objects info
    (mapObject ⟨0, fun _ => node⟩ info base) with
  | none => (0, t)
  | some objects => (base, { t with objects })

/-- The file of an object that is one of a file. -/
def fileOf (o : VmObject) : Option (Fin 64) :=
  if has o.flags vmFlagFile then o.file.bind fun n =>
    if h : n < 64 then some ⟨n, h⟩ else none else none

/-- `if(range->flags & VM_FLAG_FILE) vfs_put_file(range->file);` -/
def putObject (o : VmObject) : Except VfsFault Vfs :=
  match fileOf o with
  | none => .ok v
  | some fd => v.putFile fd

/-- The slot of a descriptor that is not negative, unless its entry is. -/
def Task.slotOf (fd : Nat) : Option (Fin 64) :=
  if h : fd < 32 then
    match t.openFiles ⟨fd, h⟩ with
    | .slot s => some s
    | _ => none
  else none

/-- `sys_mmap`, where `node` is what the descriptor is open on.  Errors are returned as positive
numbers. -/
def sysMmap (args : MmapArgs) (node : FileNode) : Except VfsFault (BitVec 64 × Task × Vfs) :=
  if args.invalid then .ok (eInval, t, v)
  else if has args.flags mapAnonymous then
    if 0 ≤ args.fd then .ok (eInval, t, v)
    else if has args.flags mapShared then .ok (eNotsup, t, v)
    else .ok ((t.map node args.info).1, (t.map node args.info).2, v)
  else if args.fd < 0 then .ok (eBadf, t, v)
  else
    match t.slotOf args.fd.toNat with
    | none => .ok (eBadf, t, v)
    | some fd => do
      let _ ← v.vnode (v.openFiles fd).inode
      if !hasMmap node then .ok (eNodev, t, v)
      else
        .ok ((t.map node (args.fileInfo fd)).1, (t.map node (args.fileInfo fd)).2, v.refFile fd)

def sysMunmap (addr size : BitVec 64) : Except VfsFault (Outcome Unit) :=
  if size = 0 ∨ has addr 0xFFF ∨ !vmValidatePtr addr then .ok (.error .einval, t, v)
  else
    match t.objects.find? (·.base = addr) with
    | none => .ok (.ok (), t, v)
    | some o => do
      let v ← putObject v o
      .ok (.ok (), { t with objects := t.objects.eraseP (·.base = addr) }, v)

/-! ## `sched/task_sys.c` -/

def sysChdir (path : UserPath) : Except VfsFault (Outcome Unit) :=
  if vmValidatePtr path.ptr = false then .ok (.error .efault, t, v)
  else do
    let (query, v) ← vfsLookup v t.cwd path.str false
    match query with
    | .error errno => .ok (.error errno, t, v)
    | .ok query => do
      let e ← v.ventry query
      let n ← v.vnode e.node
      if sIsdir n.mode then do
        let v ← ventryRef v query
        let v ← ventryPut v t.cwd
        .ok (.ok (), { t with cwd := query }, v)
      else .ok (.error .enotdir, t, v)

/-- The loop of `sys_spawn` that gives the new task the files of its parent. -/
def dupFiles : List (Fin 32) → (Fin 32 → FdEntry) → Vfs → (Fin 32 → FdEntry) × Vfs
  | [], files, v => (files, v)
  | i :: is, files, v =>
    match t.openFiles i with
    | .slot fd => dupFiles is (update files i (.ofDup (vfsDup v fd).1)) (vfsDup v fd).2
    | _ => dupFiles is files v

/-- The mapping of `user_stack_init` -/
def userStack : VmMappingInfo where
  length := 0x8000
  prot := protRead ||| protWrite ||| protUser
  flags := vmFlagAllocate
  virtBase := vmUserspaceEnd - 0x8000 - 0x1000

/-- `sys_spawn`, with `process_userspace_new`: the new task with the number `pid`.  Copying the
arguments leaves the files alone. -/
def sysSpawn (procfs : Addr) (pid : Nat) (new : FreshProcess) : Except VfsFault (Task × Vfs) := do
  let v ← procfsRegisterProcess v procfs pid new
  let v ← ventryRef v t.cwd
  let child : Task := { openFiles := fun _ => .closed, cwd := t.cwd, objects := [], opens := [] }
  let (files, v) := dupFiles t (finRange 32) child.openFiles v
  .ok ({ (child.map .other userStack).2 with openFiles := files }, v)

/-- The loop of `task_zombify` over the files. -/
def closeFiles : List (Fin 32) → Vfs → Except VfsFault Vfs
  | [], v => .ok v
  | i :: is, v =>
    match t.openFiles i with
    | .slot fd => do
      let (_, v) ← vfsClose v fd
      closeFiles is v
    | _ => closeFiles is v

/-- `vm_space_destroy`, as far as it gives back files. -/
def putObjects : List VmObject → Vfs → Except VfsFault Vfs
  | [], v => .ok v
  | o :: os, v => do
    let v ← putObject v o
    putObjects os v

def taskZombify : Except VfsFault Vfs := do
  let v ← closeFiles t (finRange 32) v
  let v ← putPath v t.cwd
  putObjects t.objects v

/-! ## `sys/binfmt` -/

structure Segment where
  length : BitVec 64
  prot : BitVec 32
  virtBase : BitVec 64
  offset : BitVec 64
  deriving DecidableEq, Repr

/-- `vfs_open(task->argv[0], 0)`, and the same for the interpreter. -/
def loaderOpen (path : Str) (device : Except Errno Unit) : Except VfsFault (Task × Vfs) := do
  let (fd, v) ← vfsOpen v t.cwd path false ⟨0, 0⟩ device
  match fd with
  | .ok fd => .ok ({ t with opens := fd :: t.opens }, v)
  | .error _ => .ok (t, v)

/-- The mapping of the bytes of a segment that are in the file. -/
def Segment.fileInfo (seg : Segment) (fd : Fin 64) : VmMappingInfo where
  length := seg.length
  prot := seg.prot
  flags := vmFlagFile ||| vmFlagCow
  virtBase := seg.virtBase
  offset := seg.offset
  fd := fd

/-- The mapping of the bytes that are not. -/
def Segment.anonInfo (seg : Segment) : VmMappingInfo where
  length := seg.length
  prot := seg.prot
  flags := 0
  virtBase := seg.virtBase

/-- The first call of `vm_space_map` in `elf_load`.  Its result is not looked at. -/
def loaderMap (fd : Fin 64) (seg : Segment) (node : FileNode) : Except VfsFault (Task × Vfs) := do
  let _ ← v.vnode (v.openFiles fd).inode
  .ok ((t.map node (seg.fileInfo fd)).2, v.refFile fd)

def loaderZero (seg : Segment) : Task := (t.map .other seg.anonInfo).2

def loaderClose (fd : Fin 64) : Except VfsFault (Task × Vfs) := do
  let (_, v) ← vfsClose v fd
  .ok ({ t with opens := t.opens.erase fd }, v)

end Calls

/-! ## The system -/

/-- The file system, the root of `procfs`, and `g_task_list`.  A task that has exited leaves its
place, and the task at place `i` has the number `i + 1`. -/
structure System where
  vfs : Vfs
  procfs : Addr
  tasks : List (Option Task)

/-- What can happen next.  All but the last act is one of the task at place `i`. -/
inductive Act where
  | «open» (i : Nat) (path : UserPath) (creat : Bool) (new : Fresh) (device : Except Errno Unit)
  | openat (i : Nat) (fd : Option (Fin 32)) (path : UserPath) (device : Except Errno Unit)
  | socket (i : Nat) (created : Except Errno Unit) (new : FreshSocket)
  | dup (i : Nat) (fd : Fin 32)
  | close (i : Nat) (fd : Fin 32)
  | spawn (i : Nat) (new : FreshProcess)
  | exit (i : Nat)
  | loaderOpen (i : Nat) (path : Str) (device : Except Errno Unit)
  | loaderMap (i : Nat) (fd : Fin 64) (seg : Segment) (node : FileNode)
  | loaderZero (i : Nat) (seg : Segment)
  | loaderClose (i : Nat) (fd : Fin 64)
  | chdir (i : Nat) (path : UserPath)
  | mmap (i : Nat) (args : MmapArgs) (node : FileNode)
  | munmap (i : Nat) (addr size : BitVec 64)
  | getdents (i : Nat) (fd : Fin 32) (buffer length disk : BitVec 64)
  | unlink (i : Nat) (path : Str)
  | procfsRemove (path : Str)

namespace System

variable (s : System)

def task (i : Nat) : Option Task := s.tasks[i]?.join

/-- The task at a place, and the file system, after a call. -/
def put (i : Nat) (t : Option Task) (v : Vfs) : System :=
  { s with vfs := v, tasks := s.tasks.set i t }

def call (i : Nat) (f : Vfs → Task → Except VfsFault (Task × Vfs)) :
    Option (Except VfsFault System) :=
  (s.task i).map fun t => (f s.vfs t).map fun r => s.put i (some r.1) r.2

def left {α : Type} (x : Except VfsFault (α × Task × Vfs)) : Except VfsFault (Task × Vfs) :=
  x.map Prod.snd

/-- What an act does, if it is possible.  A descriptor is one of 32, the loader closes and maps what
it has opened and does not exit before it has closed that, and the first task does not exit. -/
def act : Act → Option (Except VfsFault System)
  | .open i path creat new device => s.call i fun v t => do
    if creat then kmallocFresh v new else .ok ()
    left (sysOpen v t path creat new device)
  | .openat i fd path device => s.call i fun v t => left (sysOpenat v t fd path device)
  | .socket i created new =>
    if FreshSocket.Ok s.vfs new then s.call i fun v t => left (sysSocket v t created new) else none
  | .dup i fd => s.call i fun v t => left (sysDup v t fd)
  | .close i fd => s.call i fun v t => left (sysClose v t fd)
  | .spawn i new => (s.task i).map fun t => do
    let (child, v) ← sysSpawn s.vfs t s.procfs (s.tasks.length + 1) new
    .ok { s with vfs := v, tasks := s.tasks ++ [some child] }
  | .exit i => (s.task i).bind fun t =>
    if i = 0 ∨ t.opens ≠ [] then none else some ((taskZombify s.vfs t).map fun v => s.put i none v)
  | .loaderOpen i path device => s.call i fun v t => loaderOpen v t path device
  | .loaderMap i fd seg node => (s.task i).bind fun t =>
    if fd ∈ t.opens then s.call i fun v t => loaderMap v t fd seg node else none
  | .loaderZero i seg => s.call i fun v t => .ok (loaderZero t seg, v)
  | .loaderClose i fd => (s.task i).bind fun t =>
    if fd ∈ t.opens then s.call i fun v t => loaderClose v t fd else none
  | .chdir i path => s.call i fun v t => left (sysChdir v t path)
  | .mmap i args node =>
    if args.fd < 32 then s.call i fun v t => left (sysMmap v t args node) else none
  | .munmap i addr size => s.call i fun v t => left (sysMunmap v t addr size)
  | .getdents i fd buffer length disk => s.call i fun v t =>
    left (sysGetdents v t fd buffer length disk)
  | .unlink i path => s.call i fun v t => do
    let (_, v) ← vfsUnlink v t.cwd path
    .ok (t, v)
  | .procfsRemove path => some ((procfsRemove s.vfs s.procfs path).map fun v => { s with vfs := v })

def step (a : Act) : Option System := (s.act a).bind Except.toOption

end System

end Monolith.Proc
