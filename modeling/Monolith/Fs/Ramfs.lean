import Monolith.Mm.Mmu
import Monolith.Mm.Space

/-!
# `fs/ramfs/ramfs.c`: files in memory, as address spaces see them

A regular file is a list of pages, each a frame of its own.  `ramfs_mmap` marks an object as backed
by a file; `ramfs_vm_fault` fills a page of it when it is touched, with the page of the file itself
for a read and with a private copy for a write.

The walk along the pages counts the offset down and stops at the end of the list, but what is tested
behind it is the offset alone.  An offset of exactly the file's length leaves the walk at the list
head, which is then taken for a page: its `data` is the word in front of the head (`Wild`).
-/

namespace Monolith.Fs

open Fallible Mm Function

/-- What an open file is on, as far as `mmap` looks. -/
inductive FileNode where
  /-- A file of `ramfs` with its pages; `inode->data` is null before the first write. -/
  | ramfs (data : Option (List Nat))
  /-- The framebuffer device, with `fb->address`. -/
  | efifb (address : Option (BitVec 64))
  /-- Something whose `fops` have no `mmap`. -/
  | other
  deriving DecidableEq, Repr

structure VmState where
  m : MmState
  space : VmSpace
  /-- The reference counts of the open files. -/
  refs : Nat → BitVec 32

/-- What is found where no page is: the word in front of the list head of a file, and what a copy
from where it points reads. -/
structure Wild where
  data : BitVec 64
  words : Fin 512 → BitVec 64

/-- The loop of `ramfs_vm_fault` over the pages; it ends with the offset that is left and the page,
or with none at the list head. -/
def ramfsWalk : List Nat → BitVec 64 → BitVec 64 × Option Nat
  | [], offset => (offset, none)
  | page :: pages, offset =>
    if offset = 0 then (offset, some page) else ramfsWalk pages (offset - pageSize)

/-- `spage->data` -/
def pageData (wild : Wild) : Option Nat → BitVec 64
  | some page => frameAddr page + vmDmapBase
  | none => wild.data

/-- The words at `spage->data`. -/
def pageWords (m : MmState) (wild : Wild) : Option Nat → Fin 512 → BitVec 64
  | some page => m.mem page
  | none => wild.words

/-- The write branch of `ramfs_vm_fault`: a private copy.  It is made through the new mapping, which
cannot be written to if the object is not readable. -/
def ramfsCopy (st : VmState) (object : VmObject) (addr : BitVec 64) (wild : Wild)
    (spage : Option Nat) : Except MmFault VmState := do
  let (newPage, pmm) ← pmmAllocate st.m.pmm
  let m ← mmuMap { st.m with pmm := pmm } st.space.mmuRoot newPage addr object.prot vmFlagOwner
  if has object.prot protRead then
    return { st with
      m := { m with mem := update m.mem (frameOf newPage) (pageWords m wild spage) }
      space := { st.space with residentFile := st.space.residentFile + 1 } }
  else .error .copyFault

def ramfsVmFault (data : Option (List Nat)) (st : VmState) (object : VmObject) (addr : BitVec 64)
    (flags : BitVec 32) (wild : Wild) : Except MmFault (Bool × VmState) :=
  match data with
  | none => .error .nullData
  | some pages =>
    let (offset, spage) := ramfsWalk pages (object.offset + (addr - object.base))
    if offset ≠ 0 then .ok (false, st)
    else if has object.prot protWrite ∧ has flags vmFaultWrite then do
      let st ← ramfsCopy st object addr wild spage
      return (true, st)
    else if has object.prot protRead then do
      let m ← mmuMap st.m st.space.mmuRoot (pageData wild spage - vmDmapBase) addr
        (object.prot &&& ~~~protWrite) 0
      return (true, { st with m := m })
    else .ok (false, st)

def ramfsMmap (range : VmObject) : VmObject :=
  { range with
    flags := if has range.prot protWrite then range.flags ||| vmFlagCow else range.flags
    vmOps := .ramfs }

def vfsRefFile (refs : Nat → BitVec 32) (file : Nat) : Nat → BitVec 32 :=
  update refs file (refs file + 1)

/-- `vfs_put_file`, as far as the count goes. -/
def vfsPutFile (refs : Nat → BitVec 32) (file : Nat) : Nat → BitVec 32 :=
  update refs file (refs file - 1)

end Monolith.Fs
