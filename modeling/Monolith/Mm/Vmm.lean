import Monolith.Fs.Ramfs

/-!
# `mm/vmm.c`: address spaces

`vm_space_map` puts an object on the list of a space and fills in its page tables; `vm_page_fault`
does that later, page by page, for the objects that are filled when they are touched;
`vm_space_unmap` and `vm_space_destroy` take objects away with what they own.  `sys_mmap` and
`sys_munmap` are the calls of a process.
-/

namespace Monolith.Mm

open Fallible Libk Fs

/-- What is set up once: the page of zeros, and what the open files are on. -/
structure VmEnv where
  zeroCowmem : BitVec 64
  node : Nat → FileNode

structure VmMappingInfo where
  length : BitVec 64
  prot : BitVec 32
  flags : BitVec 32
  physBase : BitVec 64 := 0
  virtBase : BitVec 64 := 0
  offset : BitVec 64 := 0
  fd : Nat := 0
  deriving DecidableEq, Repr

namespace VmMappingInfo

variable (info : VmMappingInfo)

def isDevice : Bool := has info.flags vmFlagDevice
def isFile : Bool := has info.flags vmFlagFile
def replace : Bool := has info.flags vmFlagReplace
def prefault : Bool := has info.flags vmFlagAllocate

/-- Pages are handed out when they are written to. -/
def cow : Bool := has info.prot protWrite && !info.isFile && !info.prefault && !info.isDevice

/-- The object that `vm_space_map` makes. -/
def range : VmObject where
  base := alignDown info.virtBase
  length := alignUp info.length
  prot := info.prot
  flags := if info.cow then info.flags ||| vmFlagCow else info.flags
  file := if info.isFile then some info.fd else none
  offset := if info.isFile then info.offset else 0
  vmOps := .unset

/-- The protection that goes into the page tables. -/
def mmuProt : BitVec 32 := if info.cow then info.prot &&& ~~~protWrite else info.prot

end VmMappingInfo

/-! ## `vm_space_map` -/

/-- `kmalloc` of an object, and `list_node_init` of its node. -/
def allocObject (space : VmSpace) (range : VmObject) : VmSpace :=
  { space with
    objs := Function.update space.objs space.nextId range
    links := listNodeInit space.links (.obj space.nextId)
    nextId := space.nextId + 1 }

/-- The object `id` is put on the list, at its base or where there is room. -/
def insertRange (space : VmSpace) (id : Nat) (info : VmMappingInfo) :
    Except MmFault (Bool × VmSpace) :=
  if info.virtBase ≠ 0 ∨ info.replace then spaceCheckRange space id info.replace
  else spaceFindFreeRange space id

/-- The page that a round of the mapping loop maps, with the flags for the page tables: the
device's, one of its own, or the page of zeros. -/
def backing (env : VmEnv) (info : VmMappingInfo) (k : Nat) (st : VmState) :
    Except MmFault (BitVec 64 × BitVec 32 × VmState) :=
  if info.isDevice then .ok (pageAt (alignDown info.physBase) k, 0, st)
  else if info.prefault then do
    let (phys, pmm) ← pmmAllocate st.m.pmm
    return (phys, vmFlagOwner,
      { st with
        m := { st.m with pmm := pmm }
        space := { st.space with residentAnon := st.space.residentAnon + 1 } })
  else .ok (env.zeroCowmem, 0, st)

/-- `mmu_map`, if the page can be read. -/
def mmuMapReadable (m : MmState) (table : Nat) (phys virt : BitVec 64) (prot flags : BitVec 32) :
    Except MmFault MmState :=
  if has prot protRead then mmuMap m table phys virt prot flags else .ok m

def mapRound (env : VmEnv) (info : VmMappingInfo) (base : BitVec 64) (k : Nat) (st : VmState) :
    Except MmFault VmState := do
  let (phys, mmuflags, st) ← backing env info k st
  let m ← mmuMapReadable st.m st.space.mmuRoot phys (pageAt base k) info.mmuProt mmuflags
  return { st with m := m, space := { st.space with mappedAnon := st.space.mappedAnon + 1 } }

/-- `efifb_mmap` of `dev/efifb.c`, for the object `id`.  Its result is not looked at. -/
def efifbMmap (address : Option (BitVec 64)) (st : VmState) (id : Nat) : Except MmFault VmState :=
  match address with
  | none => .ok st
  | some address => do
    let vm := st.space.objs id
    let m ← mmuMapRange st.m st.space.mmuRoot (address - vmDmapBase) vm.base vm.length
      (vm.prot ||| protWritecombine) 0
    return { st with
      m := m
      space := st.space.put id { vm with flags := vm.flags ||| vmFlagDevice } }

/-- `range->file->inode->fops->mmap` -/
def fopsMmap (node : FileNode) (st : VmState) (id : Nat) : Except MmFault VmState :=
  match node with
  | .ramfs _ => .ok { st with space := st.space.put id (ramfsMmap (st.space.objs id)) }
  | .efifb address => efifbMmap address st id
  | .other => .error .wildCall

/-- What `vm_space_map` does for an object that is on the list. -/
def fillRange (env : VmEnv) (st : VmState) (id : Nat) (info : VmMappingInfo) :
    Except MmFault VmState :=
  let range := st.space.objs id
  if info.isFile then
    fopsMmap (env.node info.fd)
      { st with space := { st.space with
        mappedFile := st.space.mappedFile + range.length / 0x1000 } } id
  else forRange (mapRound env info range.base) 0 (pageCount range.length) st

def checkPhys (info : VmMappingInfo) : Except MmFault Unit :=
  if info.isDevice then if info.physBase = 0 then .error .deviceWithoutPhys else .ok ()
  else if info.physBase ≠ 0 then .error .physWithoutDevice else .ok ()

/-- The end of `vm_space_map`, once it is known whether there is a place for the object. -/
def finishMap (env : VmEnv) (st : VmState) (id : Nat) (info : VmMappingInfo) (valid : Bool) :
    Except MmFault (BitVec 64 × VmState) :=
  if valid then do
    let st ← fillRange env st id info
    return ((st.space.objs id).base, st)
  else .ok (0, st)

/-- `vm_space_map`.  A request for which there is no place gives 0. -/
def vmSpaceMap (env : VmEnv) (st : VmState) (info : VmMappingInfo) :
    Except MmFault (BitVec 64 × VmState) := do
  checkPhys info
  let id := st.space.nextId
  let refs := if info.isFile then vfsRefFile st.refs info.fd else st.refs
  let (valid, space) ← insertRange (allocObject st.space info.range) id info
  finishMap env { st with space := space, refs := refs } id info valid

/-! ## Taking objects away -/

/-- Whether `vm_free_range` gives a page of `range` back that is mapped as `mapping`. -/
def freesPage (env : VmEnv) (range : VmObject) (mapping : VmMapping) : Bool :=
  if has range.flags vmFlagFile then
    has range.prot protWrite && mapping.base != 0 && has mapping.flags vmFlagOwner
  else
    !has range.flags vmFlagDevice && mapping.base != 0 && mapping.base != env.zeroCowmem &&
      has mapping.flags vmFlagOwner

/-- The counters of the space after a page of `range` is gone. -/
def discount (range : VmObject) (freed : Bool) (space : VmSpace) : VmSpace :=
  if has range.flags vmFlagFile then
    { space with
      residentFile := if freed then space.residentFile - 1 else space.residentFile
      mappedFile := space.mappedFile - 1 }
  else space

/-- `pmm_free`, if the page is given back. -/
def pmmFreeIf (freed : Bool) (pmm : Pmm) (addr : BitVec 64) : Except MmFault Pmm :=
  if freed then pmmFree pmm addr else .ok pmm

/-- One round of the loop of `vm_free_range`. -/
def freeRound (env : VmEnv) (range : VmObject) (k : Nat) (st : VmState) :
    Except MmFault VmState := do
  let mapping := mmuGetPhys st.m st.space.mmuRoot (pageAt range.base k)
  let freed := freesPage env range mapping
  let pmm ← pmmFreeIf freed st.m.pmm mapping.base
  let m ← mmuUnmap { st.m with pmm := pmm } st.space.mmuRoot (pageAt range.base k)
  return { st with m := m, space := discount range freed st.space }

/-- `vm_free_range`, for an object that is not looked at any more. -/
def vmFreeRange (env : VmEnv) (st : VmState) (range : VmObject) : Except MmFault VmState := do
  let st ← forRange (freeRound env range) 0 (pageCount range.length) st
  let put := if has range.flags vmFlagFile then range.file.elim st.refs
    (vfsPutFile st.refs) else st.refs
  return { st with refs := put }

/-- `vm_space_unmap`.  The object that begins at the address goes as a whole; what is asked for
beyond that is logged. -/
def vmSpaceUnmap (env : VmEnv) (st : VmState) (addr : BitVec 64) : Except MmFault VmState := do
  let found ← findLoop st.space (fun cur => cur.base == addr) (st.space.nextId + 1)
    (st.space.links.next .head)
  match found with
  | some id =>
    vmFreeRange env
      { st with space := { st.space with links := listDel st.space.links (.obj id) } }
      (st.space.objs id)
  | none => return st

def destroyLoop (env : VmEnv) : Nat → SpaceNode → VmState → Except MmFault VmState
  | 0, _, _ => .error .brokenList
  | _ + 1, .head, st => .ok st
  | fuel + 1, .obj id, st => do
    let tmp := st.space.links.next (.obj id)
    let st ← vmFreeRange env st (st.space.objs id)
    destroyLoop env fuel tmp st

def vmSpaceDestroy (env : VmEnv) (st : VmState) : Except MmFault VmState := do
  let st ← destroyLoop env (st.space.nextId + 1) (st.space.links.next .head) st
  let m ← mmuDestroy st.m st.space.mmuRoot
  return { st with m := m }

/-- A space with the root `root` and nothing in it. -/
def VmSpace.new (startAddress endAddress : BitVec 64) (root : Nat) : VmSpace where
  links := { prev := id, next := id }
  objs _ := ⟨0, 0, 0, 0, none, 0, .unset⟩
  nextId := 0
  startAddress := startAddress
  endAddress := endAddress
  mmuRoot := root
  mappedAnon := 0
  mappedFile := 0
  residentAnon := 0
  residentFile := 0

/-- What `vm_userspace_new` makes of a root. -/
def VmSpace.newUser : Nat → VmSpace := VmSpace.new vmUserspaceBase vmUserspaceEnd

/-- What `vmm_init_kpages` makes of a root. -/
def VmSpace.newKernel : Nat → VmSpace := VmSpace.new vmVmallocBase vmKernelBase

def vmUserspaceNew (m : MmState) (kernelRoot : Nat) : Except MmFault (VmSpace × MmState) := do
  let (root, m) ← newUserRoot m kernelRoot
  return (VmSpace.newUser root, m)

/-! ## `vm_page_fault` -/

/-- What the fault is allowed to be for an object with protection `prot`. -/
def faultAllowed (prot flags : BitVec 32) : Bool :=
  !(has flags vmFaultWrite && !has prot protWrite) &&
    !(has flags vmFaultUser && !has prot protUser) &&
    !(has flags vmFaultFetch && !has prot protExec)

/-- The page that a copy-on-write fault makes, with what the page had that was mapped. -/
def cowPage (env : VmEnv) (m : MmState) (mapping : VmMapping) : Fin 512 → BitVec 64 :=
  if mapping.base = env.zeroCowmem then fun _ => 0 else m.mem (frameOf mapping.base)

/-- A write to a page that is present: the page is replaced by a copy. -/
def cowFault (env : VmEnv) (st : VmState) (range : VmObject) (addr : BitVec 64) :
    Except MmFault (Bool × VmState) := do
  let mapping := mmuGetPhys st.m st.space.mmuRoot addr
  let (newPhys, pmm) ← pmmAllocate st.m.pmm
  if newPhys = 0 then return (false, { st with m := { st.m with pmm := pmm } })
  else
    let mem := Function.update st.m.mem (frameOf newPhys) (cowPage env st.m mapping)
    let m ← mmuMap { mem := mem, pmm := pmm } st.space.mmuRoot newPhys addr
      (range.prot ||| protWrite)
      (range.flags ||| vmFlagOwner)
    return (true,
      { st with m := m, space := { st.space with residentAnon := st.space.residentAnon + 1 } })

/-- A fault at an address of `range`. -/
def rangeFault (env : VmEnv) (st : VmState) (range : VmObject) (addr : BitVec 64)
    (flags : BitVec 32) (wild : Wild) : Except MmFault (Bool × VmState) :=
  if !faultAllowed range.prot flags then .ok (false, st)
  else if has flags vmFaultPresent then
    if has flags vmFaultWrite ∧ has range.prot (protRead ||| protWrite) ∧
      has range.flags vmFlagCow then
      cowFault env st range addr
    else .ok (false, st)
  else if has range.flags vmFlagFile then
    match range.vmOps, range.file.map env.node with
    | .ramfs, some (.ramfs data) => ramfsVmFault data st range addr flags wild
    | _, _ => .error .wildCall
  else .ok (false, st)

/-- `vm_page_fault`, for the address space of the running task. -/
def vmPageFault (env : VmEnv) (st : VmState) (addr : BitVec 64) (flags : BitVec 32) (wild : Wild) :
    Except MmFault (Bool × VmState) :=
  if addr < vmUserspaceBase ∨ vmUserspaceEnd < addr then .ok (false, st)
  else do
    match ← vmSpaceGetRange st.space addr with
    | none => return (false, st)
    | some id => rangeFault env st (st.space.objs id) addr flags wild

/-! ## System calls -/

def mapShared : BitVec 32 := 0x1
def mapPrivate : BitVec 32 := 0x2
def mapFixed : BitVec 32 := 0x10
def mapAnonymous : BitVec 32 := 0x20

def eBadf : BitVec 64 := 9
def eNodev : BitVec 64 := 19
def eInval : BitVec 64 := 22
def eNotsup : BitVec 64 := 134

structure MmapArgs where
  addr : BitVec 64
  size : BitVec 64
  prot : BitVec 32
  flags : BitVec 32
  fd : Int
  offset : BitVec 64
  deriving DecidableEq, Repr

namespace MmapArgs

variable (args : MmapArgs)

/-- The mapping that is asked for, without a file. -/
def info : VmMappingInfo where
  length := args.size
  prot := args.prot &&& 7 ||| protUser
  flags := if has args.flags mapFixed then vmFlagReplace else 0
  virtBase := if has args.flags mapFixed then args.addr else 0

/-- The mapping that is asked for, of the open file `fd`. -/
def fileInfo (fd : Nat) : VmMappingInfo :=
  { args.info with flags := args.info.flags ||| vmFlagFile, offset := args.offset, fd := fd }

/-- What is wrong with the size, the offset and the kind of mapping. -/
def invalid : Bool :=
  args.size == 0 || has args.offset 0xFFF ||
    (!has args.flags mapPrivate && !has args.flags mapShared) ||
    (has args.flags mapPrivate && has args.flags mapShared)

end MmapArgs

/-- Whether the `fops` of a file have an `mmap`. -/
def hasMmap : FileNode → Bool
  | .other => false
  | _ => true

/-- `sys_mmap`.  `openFiles` is `task->open_files`, which is indexed without a check.  Errors are
returned as positive numbers. -/
def sysMmap (env : VmEnv) (openFiles : Nat → Int) (st : VmState) (args : MmapArgs) :
    Except MmFault (BitVec 64 × VmState) :=
  if args.invalid then .ok (eInval, st)
  else if has args.flags mapAnonymous then
    if 0 ≤ args.fd then .ok (eInval, st)
    else if has args.flags mapShared then .ok (eNotsup, st)
    else vmSpaceMap env st args.info
  else if args.fd < 0 then .ok (eBadf, st)
  else if openFiles args.fd.toNat < 0 then .ok (eBadf, st)
  else if !hasMmap (env.node (openFiles args.fd.toNat).toNat) then .ok (eNodev, st)
  else vmSpaceMap env st (args.fileInfo (openFiles args.fd.toNat).toNat)

/-- `vm_validate_ptr`, which does not look at the size. -/
def vmValidatePtr (ptr : BitVec 64) : Bool := vmUserspaceBase ≤ ptr && ptr ≤ vmUserspaceEnd

def sysMunmap (env : VmEnv) (st : VmState) (addr size : BitVec 64) :
    Except MmFault (Int × VmState) :=
  if size = 0 ∨ has addr 0xFFF ∨ !vmValidatePtr addr then .ok (-eInval.toNat, st)
  else do
    let st ← vmSpaceUnmap env st addr
    return (0, st)

end Monolith.Mm
