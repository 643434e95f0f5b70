import Monolith.Fs.Descriptor
import Monolith.Fs.Mount
import Monolith.Net.Transmit

/-!
# Sizes that come from user programs

`kmalloc` has no blocks of more than 1024 bytes: a larger size is a panic, not an error.  Some sizes
are up to the program that makes a system call.

* The lookup of a path copies the path.  The system calls validate the pointer for `PATH_MAX` bytes,
  which says nothing about the length of the string.
* `sys_spawn` allocates two vectors for as many strings as it is given.
* `sys_sendto` allocates a packet at each of two or three layers.
* A program that is started says in its headers how large their table and the interpreter's name
  are.

These are the calls, up to the allocations.  Memory does not run out here, and the allocations of a
fixed size, which are all below the limit, are left out.
-/

namespace Monolith.Sys

open Fallible Fs Mm
open Net (ArpLookup IpRouteEntry Ipv4Sdata Netdev SockaddrIn ipRouteLoop udpGetEphemeralPort)

def TooBig : VfsFault → Prop
  | .tooBig _ => True
  | _ => False

/-- The call does not reach the panic. -/
abbrev Fits {α : Type} (x : Except VfsFault α) : Prop := Avoids TooBig x

/-- `kmalloc`, as far as it can fail. -/
def allocate (size : BitVec 64) : Except VfsFault Unit :=
  match kmCacheFor (slabInit kmCaches) size.toNat with
  | none => .error (.tooBig size.toNat)
  | some _ => .ok ()

/-! ## The task that makes a call -/

inductive SocketKind where
  | udp
  | raw
  deriving DecidableEq, Repr

/-- A socket, as far as `sendto` looks at it. -/
structure SendSocket extends Ipv4Sdata where
  kind : SocketKind

/-- What the calls below find: the file system, the task, its memory, and the network. -/
structure Caller where
  vfs : Vfs
  /-- A name is in an array of 64 bytes and ends with the byte 0. -/
  names : ∀ a e, vfs.ventries a = some e → e.name.length < 64
  cwd : Addr
  files : TaskFiles
  /-- What is behind the 64 slots. -/
  behind : BitVec 32 → FileDescriptor
  /-- Where a new file is put. -/
  new : Fresh
  /-- What a device says that is opened. -/
  device : Except Errno Unit
  /-- The string at an address. -/
  str : Addr → Str
  /-- The pointers at an address, up to the first null pointer. -/
  ptrs : Addr → List Addr
  sockaddr : Addr → SockaddrIn
  /-- Whether as many bytes can be read from an address. -/
  readable : Addr → BitVec 64 → Bool
  socket : Addr → SendSocket
  routes : List IpRouteEntry
  arp : BitVec 32 → ArpLookup
  /-- `next_eph_port`, and the ports for which `udp_table` has a socket. -/
  nextEphPort : BitVec 16
  taken : BitVec 16 → Bool

/-- `task->open_files[fd]`, unless it is refused. -/
def Caller.slot (c : Caller) (fd : Int) : Option (BitVec 32) :=
  if fd < 0 then none
  else if (c.files.word fd.toNat).slt 0 then none
  else some (c.files.word fd.toNat)

/-- `context.open_files[slot]` -/
def Caller.file (c : Caller) (slot : BitVec 32) : FileDescriptor :=
  if h : slot.toNat < 64 then c.vfs.openFiles ⟨slot.toNat, h⟩ else c.behind slot

/-- The entry that `sys_open` and `sys_openat` find. -/
def Caller.freeEntry (c : Caller) : Option (Fin 32) :=
  (List.finRange 32).find? fun i => c.files.openFiles i = -1

/-! ## Paths -/

def oCreat : BitVec 32 := 0x40

/-- `sys_open` -/
def sysOpen (c : Caller) (path : Addr) (flags : BitVec 32) :
    Except VfsFault (Except Errno (Fin 32) × Vfs) :=
  if path = 0 then .ok (.error .einval, c.vfs)
  else if vmValidatePtr path = false then .ok (.error .efault, c.vfs)
  else
    match c.freeEntry with
    | none => .ok (.error .emfile, c.vfs)
    | some fd => do
      let (slot, v) ← vfsOpen c.vfs c.cwd (c.str path) (has flags oCreat) c.new c.device
      .ok (slot.map fun _ => fd, v)

/-- The directory that `sys_openat` looks the path up in, unless the descriptor is refused. -/
def Caller.dir (c : Caller) (fd : Int) : Option Addr :=
  if fd = atFdcwd then some c.cwd else (c.slot fd).map fun slot => (c.file slot).path

/-- `sys_openat` -/
def sysOpenat (c : Caller) (fd : Int) (path : Addr) :
    Except VfsFault (Except Errno (Fin 32) × Vfs) :=
  if path = 0 then .ok (.error .einval, c.vfs)
  else if vmValidatePtr path = false then .ok (.error .efault, c.vfs)
  else
    match c.freeEntry with
    | none => .ok (.error .emfile, c.vfs)
    | some userFd =>
      match c.dir fd with
      | none => .ok (.error .ebadf, c.vfs)
      | some dir => do
        let (slot, v) ← vfsOpenat c.vfs dir (c.str path) c.device
        .ok (slot.map fun _ => userFd, v)

/-- `vfs_stat`, which ends with the node that `stat_fill` reads -/
def vfsStat (v : Vfs) (cwd : Addr) (path : Str) : Except VfsFault (Except Errno Vnode × Vfs) := do
  let (query, v) ← vfsLookup v cwd path false
  match query with
  | .error errno => .ok (.error errno, v)
  | .ok query => do
    let e ← v.ventry query
    let n ← v.vnode e.node
    .ok (.ok n, v)

/-- `sys_stat` -/
def sysStat (c : Caller) (path buffer : Addr) : Except VfsFault (Except Errno Vnode × Vfs) :=
  if vmValidatePtr path = false then .ok (.error .efault, c.vfs)
  else if vmValidatePtr buffer = false then .ok (.error .efault, c.vfs)
  else vfsStat c.vfs c.cwd (c.str path)

/-- `sys_mkdir` -/
def sysMkdir (c : Caller) (path : Addr) (mode : BitVec 32) :
    Except VfsFault (Except Errno Unit × Vfs) :=
  if vmValidatePtr path = false then .ok (.error .efault, c.vfs)
  else vfsMkdir c.vfs c.cwd (c.str path) mode c.new

/-- `sys_chdir`, with the new directory -/
def sysChdir (c : Caller) (path : Addr) : Except VfsFault (Except Errno Addr × Vfs) :=
  if vmValidatePtr path = false then .ok (.error .efault, c.vfs)
  else do
    let (query, v) ← vfsLookup c.vfs c.cwd (c.str path) false
    match query with
    | .error errno => .ok (.error errno, v)
    | .ok query => do
      let e ← v.ventry query
      let n ← v.vnode e.node
      if sIsdir n.mode then do
        let v ← ventryRef v query
        let v ← ventryPut v c.cwd
        .ok (.ok query, v)
      else .ok (.error .enotdir, v)

/-- `vfs_mount`, up to the call of the file system: what is mounted where, and if from a device -/
def vfsMount (v : Vfs) (cwd : Addr) (source : Option Str) (target fstype : Str) :
    Except VfsFault (Except Errno (FileSystem × Addr × Bool) × Vfs) :=
  match filesystemLookup fstype with
  | none => .ok (.error .enodev, v)
  | some fs =>
    if fs.nodev ∧ source.isSome then .ok (.error .einval, v)
    else if fs.nodev = false ∧ source = none then .ok (.error .enotblk, v)
    else do
      let (query, v) ← vfsLookup v cwd target false
      match query with
      | .error errno => .ok (.error errno, v)
      | .ok query => do
        let (blockdev, v) ← mountSource v cwd source
        .ok (blockdev.map fun blockdev => (fs, query, blockdev), v)

/-- The rest is as in `Fs.vfsMount`. -/
theorem vfsMount_eq (v : Vfs) (procfs : Addr) (m : MountCall) :
    Fs.vfsMount v procfs m = vfsMount v m.cwd m.src m.target m.fstype >>= fun
      | (.error errno, v) => .ok (.error errno, v)
      | (.ok (fs, query, blockdev), v) => superInit v procfs blockdev m.new m.disk fs >>= fun
        | (.error errno, v) => .ok (.error errno, v)
        | (.ok root, v) => putMount v query root >>= fun v => .ok (.ok (), v) := by
  rw [Fs.vfsMount, vfsMount]
  cases filesystemLookup m.fstype with
  | none => rfl
  | some fs =>
    dsimp only
    split_ifs
    · rfl
    · rfl
    rcases vfsLookup v m.cwd m.target false with e | ⟨_ | query, w⟩
    · rfl
    · rfl
    simp only [ok_bind, mountOn]
    rcases mountSource w m.cwd m.src with e | ⟨_ | blockdev, w⟩
    · rfl
    · rfl
    simp only [ok_bind, Except.map]
    rcases superInit w procfs blockdev m.new m.disk fs with e | ⟨_ | root, w⟩ <;> rfl

/-- `sys_mount` -/
def sysMount (c : Caller) (source target fsname : Addr) :
    Except VfsFault (Except Errno (FileSystem × Addr × Bool) × Vfs) :=
  if source ≠ 0 ∧ vmValidatePtr source = false then .ok (.error .efault, c.vfs)
  else if vmValidatePtr target = false then .ok (.error .efault, c.vfs)
  else if vmValidatePtr fsname = false then .ok (.error .efault, c.vfs)
  else vfsMount c.vfs c.cwd (if source = 0 then none else some (c.str source)) (c.str target)
    (c.str fsname)

/-! ## Arguments -/

/-- The loops of `sys_spawn` over `argv` and `envp`: they stop at a pointer that is not one of the
user's. -/
def countArgs : List Addr → BitVec 32 → BitVec 32
  | [], n => n
  | p :: ps, n => if vmValidatePtr p then countArgs ps (n + 1) else n

/-- `sizeof(char*) * n` for an `int` -/
def vecSize (n : BitVec 32) : BitVec 64 := 8 * n.signExtend 64

/-- `task_copy_args`, up to the strings -/
def taskCopyArgs (argc : BitVec 32) (envc : Option (BitVec 32)) : Except VfsFault Unit := do
  allocate (vecSize argc)
  match envc with
  | none => .ok ()
  | some envc => allocate (vecSize envc)

/-- `sys_spawn`, with the numbers of the strings that the new task has -/
def sysSpawn (c : Caller) (argv envp : Addr) :
    Except VfsFault (Except Errno (BitVec 32 × Option (BitVec 32))) :=
  if vmValidatePtr argv = false then .ok (.error .efault)
  else if envp ≠ 0 ∧ vmValidatePtr envp = false then .ok (.error .efault)
  else if vmValidatePtr ((c.ptrs argv).headD 0) = false then .ok (.error .efault)
  else do
    let argc := countArgs (c.ptrs argv) 0
    let envc := if envp = 0 then none else some (countArgs (c.ptrs envp) 0)
    taskCopyArgs argc envc
    .ok (.ok (argc, envc))

/-! ## Packets -/

/-- `ether_tx_packet`, up to the device -/
def etherTxPacket (length : BitVec 64) : Except VfsFault Unit := allocate (14 + length)

/-- `ipv4_tx_packet`.  `readable` says whether the payload can be copied. -/
def ipv4TxPacket (c : Caller) (netdev : Netdev) (route : BitVec 32) (readable : Bool)
    (len : BitVec 64) : Except VfsFault (Except Errno Unit) := do
  allocate (20 + len)
  if readable then
    if route = netdev.ipBroadcast then do
      etherTxPacket (20 + len)
      .ok (.ok ())
    else
      match c.arp route with
      | .null => .ok (.error .enetunreach)
      | .interrupted => .error .unmapped
      | .entry _ => do
        etherTxPacket (20 + len)
        .ok (.ok ())
  else .error .unmapped

/-- The device and the next address on the way to `addr`, as `udp_sendto` and `ipv4_raw_sendto` find
them. For `INADDR_BROADCAST` the device that the socket is bound to is followed, if there is one or
not. -/
def sendRoute (c : Caller) (s : SendSocket) (addr : BitVec 32) :
    Except VfsFault (Option (Netdev × BitVec 32)) :=
  if addr = 0xffffffff then
    match s.bindDevice with
    | none => .error .null
    | some netdev => .ok (some (netdev, netdev.ipBroadcast))
  else .ok ((ipRouteLoop addr c.routes 0 none).bind fun route => route.device.map fun netdev =>
    (netdev, route.gateway))

/-- The port that `udp_sendto` sends from.  After all 65536 numbers the loop begins again. -/
def udpPort (c : Caller) (s : SendSocket) : Except VfsFault (BitVec 16) :=
  if s.port = 0 then udpGetEphemeralPort c.taken (2 ^ 16) c.nextEphPort else .ok s.port

/-- The part of `udp_sendto` behind the checks. -/
def udpSend (c : Caller) (s : SendSocket) (buf : Addr) (len : BitVec 64) (addr : BitVec 32) :
    Except VfsFault (Except Errno Unit) := do
  match ← sendRoute c s addr with
  | none => .ok (.error .enetunreach)
  | some (netdev, route) => do
    allocate (8 + len)
    if c.readable buf len then ipv4TxPacket c netdev route true (len + 8) else .error .unmapped

/-- `udp_sendto` -/
def udpSendto (c : Caller) (s : SendSocket) (buf : Addr) (len : BitVec 64) (destAddr : SockaddrIn)
    (addrlen : BitVec 64) : Except VfsFault (Except Errno Unit) :=
  if len = 0 then .ok (.ok ())
  else if addrlen < 16 then .ok (.error .efault)
  else if destAddr.family ≠ 2 then .ok (.error .einval)
  else do
    let port ← udpPort c s
    if port = 0 then .ok (.error .eaddrinuse) else udpSend c s buf len destAddr.addr

/-- `ipv4_raw_sendto` -/
def ipv4RawSendto (c : Caller) (s : SendSocket) (buf : Addr) (len : BitVec 64)
    (destAddr : SockaddrIn) (addrlen : BitVec 64) : Except VfsFault (Except Errno Unit) :=
  if len = 0 then .ok (.ok ())
  else if addrlen < 16 then .ok (.error .efault)
  else if destAddr.family ≠ 2 then .ok (.error .einval)
  else do
    match ← sendRoute c s destAddr.addr with
    | none => .ok (.error .enetunreach)
    | some (netdev, route) => ipv4TxPacket c netdev route (c.readable buf len) len

/-- `socket_sendto` -/
def socketSendto (c : Caller) (s : SendSocket) (buf : Addr) (len : BitVec 64)
    (destAddr : SockaddrIn) (addrlen : BitVec 64) : Except VfsFault (Except Errno Unit) :=
  match s.kind with
  | .udp => udpSendto c s buf len destAddr addrlen
  | .raw => ipv4RawSendto c s buf len destAddr addrlen

/-- `sys_sendto` -/
def sysSendto (c : Caller) (sockfd : Int) (buffer : Addr) (len : BitVec 64) (dstAddr : Addr)
    (addrlen : BitVec 64) : Except VfsFault (Except Errno Unit) :=
  if vmValidatePtr buffer = false then .ok (.error .efault)
  else if vmValidatePtr dstAddr = false then .ok (.error .efault)
  else
    match c.slot sockfd with
    | none => .ok (.error .ebadf)
    | some slot => do
      let n ← c.vfs.vnode (c.file slot).inode
      if sIssock n.mode then
        socketSendto c (c.socket n.data) buffer len (c.sockaddr dstAddr) addrlen
      else .ok (.error .enotsock)

/-! ## Programs -/

/-- What `elf_load` finds in a file. -/
structure Image where
  /-- What is in a buffer after so many bytes have been read into it from a position on.  Where the
  file is shorter, the rest is what has been there before. -/
  read : BitVec 64 → BitVec 64 → Nat → BitVec 8
  /-- Whether the segments can be mapped, and the ends of their last pages be cleared. -/
  mapped : Bool

namespace Image

def header (image : Image) : Nat → BitVec 8 := image.read 0 64

def eType (image : Image) : Nat := Bytes.load image.header 2 16
def eMachine (image : Image) : Nat := Bytes.load image.header 2 18
def ePhoff (image : Image) : Nat := Bytes.load image.header 8 32
def ePhentsize (image : Image) : Nat := Bytes.load image.header 2 54
def ePhnum (image : Image) : Nat := Bytes.load image.header 2 56

/-- `elf_validate`: `ELF_CLASS64`, `ELF_DATA2LSB`, `EM_X86_64` and `EV_CURRENT` -/
def elfValidate (image : Image) : Bool :=
  image.header 4 = 2 && image.header 5 = 1 && image.eMachine = 62 && image.header 6 = 1

/-- `header.e_phentsize * header.e_phnum`, which is an `int` -/
def phdrsSize (image : Image) : BitVec 64 :=
  (BitVec.ofNat 32 (image.ePhentsize * image.ePhnum)).signExtend 64

/-- The table of program headers, each of 56 bytes. -/
def phdrs (image : Image) : Nat → BitVec 8 :=
  image.read (BitVec.ofNat 64 image.ePhoff) image.phdrsSize

def pType (image : Image) (i : Nat) : Nat := Bytes.load image.phdrs 4 (56 * i)
def pOffset (image : Image) (i : Nat) : BitVec 64 :=
  BitVec.ofNat 64 (Bytes.load image.phdrs 8 (56 * i + 8))
def pFilesz (image : Image) (i : Nat) : BitVec 64 :=
  BitVec.ofNat 64 (Bytes.load image.phdrs 8 (56 * i + 32))

def isInterp (image : Image) (i : Nat) : Bool := image.pType i = 3

end Image

/-- The string at the beginning of a buffer, of at most `fuel` bytes. -/
def cString (buffer : Nat → BitVec 8) : Nat → Nat → Str
  | 0, _ => []
  | fuel + 1, i => if buffer i = 0 then [] else buffer i :: cString buffer fuel (i + 1)

/-- The name of the interpreter in a program header. -/
def Image.interpreter (image : Image) (i : Nat) : Str :=
  cString (image.read (image.pOffset i) (image.pFilesz i)) (2 ^ 64) 0

/-- The first loop of `elf_load`, over the headers from the `i`-th on: the last `PT_INTERP`
counts. -/
def interpLoop (image : Image) : Nat → Nat → Option Str → Except VfsFault (Option Str)
  | 0, _, interp => .ok interp
  | n + 1, i, interp =>
    if image.isInterp i then do
      allocate (image.pFilesz i)
      interpLoop image n (i + 1) (some (image.interpreter i))
    else interpLoop image n (i + 1) interp

/-- `elf_load`, with the interpreter -/
def elfLoad (image : Image) : Except VfsFault (Except Errno (Option Str)) :=
  if image.elfValidate = false then .ok (.error .enoexec)
  -- `ET_EXEC`, `ET_DYN`
  else if image.eType ≠ 2 ∧ image.eType ≠ 3 then .ok (.error .enotsup)
  else do
    allocate image.phdrsSize
    let interp ← interpLoop image image.ePhnum 0 none
    if image.mapped then .ok (.ok interp) else .error .unmapped

/-- A program that is started: what is in its file, what the task finds when it opens the
interpreter, and what is read from there.  (Where the interpreter cannot be opened its negative
descriptor is read from.) -/
structure Program where
  /-- Whether the signature can be read. -/
  signed : Bool
  image : Image
  later : Caller
  interp : Image

/-- `elf_exec`, up to the stack -/
def elfExec (x : Program) : Except VfsFault (Except Errno Unit) := do
  match ← elfLoad x.image with
  | .error errno => .ok (.error errno)
  | .ok none => .ok (.ok ())
  | .ok (some path) => do
    let _ ← vfsOpen x.later.vfs x.later.cwd path false x.later.new x.later.device
    let _ ← elfLoad x.interp
    .ok (.ok ())

/-- `{ELF_MAG0, ELF_MAG1, ELF_MAG2, ELF_MAG3}` -/
def Program.isElf (x : Program) : Bool :=
  let sig := x.image.read 0 15
  sig 0 = 0x7f && sig 1 = 0x45 && sig 2 = 0x4c && sig 3 = 0x46

/-- `binfmt_exec_task`, up to user mode or the status that it exits with -/
def binfmtExecTask (c : Caller) (path : Str) (x : Program) :
    Except VfsFault (Except Errno Unit) := do
  let (fd, v) ← vfsOpen c.vfs c.cwd path false c.new c.device
  match fd with
  | .error errno => .ok (.error errno)
  | .ok fd => do
    let n ← v.vnode (v.openFiles fd).inode
    if sIsreg n.mode = false then .ok (.error .eacces)
    else if x.signed = false then .ok (.error .einval)
    else if x.isElf then elfExec x
    else .ok (.error .enoexec)

/-! ## The calls -/

inductive SizeCall where
  | open (path : Addr) (flags : BitVec 32)
  | openat (fd : Int) (path : Addr)
  | stat (path buffer : Addr)
  | mkdir (path : Addr) (mode : BitVec 32)
  | chdir (path : Addr)
  | mount (source target fsname : Addr)
  | spawn (argv envp : Addr)
  | sendto (sockfd : Int) (buffer : Addr) (len : BitVec 64) (dstAddr : Addr) (addrlen : BitVec 64)
  /-- What a new task does: `argv0` is the string in its `argv[0]`. -/
  | exec (argv0 : Str) (program : Program)

/-- The call does not panic in `kmalloc`. -/
def SizeCall.NoPanic (c : Caller) : SizeCall → Prop
  | .open path flags => Fits (sysOpen c path flags)
  | .openat fd path => Fits (sysOpenat c fd path)
  | .stat path buffer => Fits (sysStat c path buffer)
  | .mkdir path mode => Fits (sysMkdir c path mode)
  | .chdir path => Fits (sysChdir c path)
  | .mount source target fsname => Fits (sysMount c source target fsname)
  | .spawn argv envp => Fits (sysSpawn c argv envp)
  | .sendto sockfd buffer len dstAddr addrlen =>
    Fits (sysSendto c sockfd buffer len dstAddr addrlen)
  | .exec argv0 program => Fits (binfmtExecTask c argv0 program)

end Monolith.Sys
