import Monolith.Lib.Traced
import Monolith.Mm.Vmm

/-!
# The descriptors of a task

Thirteen system calls take a descriptor, an index into the 32 entries of `task->open_files`, and use
the number that is there as an index into the global table of open files.  Each of them checks that
the descriptor is not negative and that the entry is not; none of them checks that it is below 32.
Behind the entries there are the other fields of `struct task`, and the first of them are
`return_status` and `return_signal`, which are 0 while a task runs: so 32 and 33 are descriptors of
the file in slot 0.

`descriptor_bounds` says for every call exactly when it keeps to the table.
-/

namespace Monolith.Fs

open Mm List Option Traced

/-! ## What a call indexes -/

/-- `task->open_files`, and the words behind it. -/
structure TaskFiles where
  openFiles : Fin 32 → BitVec 32
  returnStatus : BitVec 32
  returnSignal : BitVec 32
  /-- The words behind `return_signal`. -/
  behind : Nat → BitVec 32

/-- `task->open_files[i]`, for an index that is not negative. -/
def TaskFiles.word (t : TaskFiles) (i : Nat) : BitVec 32 :=
  if h : i < 32 then t.openFiles ⟨i, h⟩
  else if i = 32 then t.returnStatus
  else if i = 33 then t.returnSignal
  else t.behind (i - 34)

structure FileAccess where
  index : Nat
  store : Bool
  deriving DecidableEq, Repr

/-- A computation with its accesses to `open_files`, that may end the call with a value. -/
abbrev Indexing (α : Type) := Traced FileAccess Int α

def Indexing.ret {α : Type} (value : Int) : Indexing α := .stop value

def loadFile (t : TaskFiles) (i : Nat) : Indexing (BitVec 32) := ⟨[⟨i, false⟩], .ok (t.word i)⟩

def storeFile (i : Nat) : Indexing Unit := ⟨[⟨i, true⟩], .ok ()⟩

/-- The search for an entry that is free, from `i` on. -/
def freeFile (t : TaskFiles) (free : BitVec 32 → Bool) : List (Fin 32) → Indexing (Option (Fin 32))
  | [] => pure none
  | i :: is => do
    let v ← loadFile t i
    if free v then pure (some i) else freeFile t free is

def ebadf : Int := 9
def efault : Int := 14
def einval : Int := 22
def emfile : Int := 24

def atFdcwd : Int := -100

/-! ## The calls -/

/-- What a call goes on with: the function it calls, with the slot of the global table it acts
on. -/
inductive FileCall where
  | vfsRead (fd : BitVec 32) (buffer length : BitVec 64)
  | vfsWrite (fd : BitVec 32) (buffer length : BitVec 64)
  | vfsSeek (fd : BitVec 32) (offset : BitVec 64) (flags : BitVec 32)
  /-- The entry has been set to -1. -/
  | vfsClose (fd : BitVec 32)
  /-- The result goes into the entry `newfd`. -/
  | vfsDup (fd : BitVec 32) (newfd : Fin 32)
  | vfsIoctl (fd : BitVec 32) (op arg : BitVec 64)
  | vfsFstat (fd : BitVec 32) (buffer : BitVec 64)
  | vfsGetdents (fd : BitVec 32) (buffer length : BitVec 64)
  /-- In the current directory, or in that of the open file.  The result goes into the entry
  `userFd`. -/
  | vfsOpenat (fd : Option (BitVec 32)) (path : BitVec 64) (flags : BitVec 32) (userFd : Fin 32)
  /-- `vm_space_map`, of the open file if there is one. -/
  | vmSpaceMap (fd : Option (BitVec 32)) (args : MmapArgs)
  | socketBind (fd : BitVec 32) (addr addrlen : BitVec 64)
  | socketRecvfrom (fd : BitVec 32) (buffer len : BitVec 64) (flags : BitVec 32)
    (srcAddr addrlen : BitVec 64)
  | socketSendto (fd : BitVec 32) (buffer len : BitVec 64) (flags : BitVec 32)
    (dstAddr addrlen : BitVec 64)
  deriving DecidableEq, Repr

/-- The slot that the function acts on. -/
def FileCall.slot : FileCall → Option (BitVec 32)
  | .vfsRead fd .. | .vfsWrite fd .. | .vfsSeek fd .. | .vfsClose fd | .vfsDup fd
    _ | .vfsIoctl fd ..
  | .vfsFstat fd _ | .vfsGetdents fd .. | .socketBind fd .. | .socketRecvfrom fd .. | .socketSendto
    fd .. => some fd
  | .vfsOpenat fd .. | .vmSpaceMap fd _ => fd

/-- `if(fd < 0 || task->open_files[fd] < 0) return -EBADF;` -/
def checkFile (t : TaskFiles) (fd : Int) : Indexing Unit :=
  if fd < 0 then .ret (-ebadf)
  else do
    let v ← loadFile t fd.toNat
    if v.slt 0 then .ret (-ebadf) else pure ()

/-- `if(!vm_validate_ptr(ptr, size)) return -EFAULT;` -/
def checkPtr (ptr : BitVec 64) : Indexing Unit :=
  if vmValidatePtr ptr then pure () else .ret (-efault)

def sysRead (t : TaskFiles) (fd : Int) (buffer length : BitVec 64) : Indexing FileCall := do
  checkFile t fd
  checkPtr buffer
  let v ← loadFile t fd.toNat
  return .vfsRead v buffer length

def sysWrite (t : TaskFiles) (fd : Int) (buffer length : BitVec 64) : Indexing FileCall := do
  checkFile t fd
  checkPtr buffer
  let v ← loadFile t fd.toNat
  return .vfsWrite v buffer length

def sysSeek (t : TaskFiles) (fd : Int) (offset : BitVec 64) (flags : BitVec 32) :
    Indexing FileCall := do
  checkFile t fd
  let v ← loadFile t fd.toNat
  return .vfsSeek v offset flags

def sysClose (t : TaskFiles) (fd : Int) : Indexing FileCall := do
  checkFile t fd
  let v ← loadFile t fd.toNat
  storeFile fd.toNat
  return .vfsClose v

def sysDup (t : TaskFiles) (fd : Int) : Indexing FileCall := do
  checkFile t fd
  match ← freeFile t (fun v => v.slt 0) (finRange 32) with
  | none => .ret (-emfile)
  | some newfd => do
    let v ← loadFile t fd.toNat
    storeFile newfd
    return .vfsDup v newfd

def sysIoctl (t : TaskFiles) (fd : Int) (op arg : BitVec 64) : Indexing FileCall := do
  checkFile t fd
  let v ← loadFile t fd.toNat
  return .vfsIoctl v op arg

def sysFstat (t : TaskFiles) (fd : Int) (buffer : BitVec 64) : Indexing FileCall := do
  checkFile t fd
  checkPtr buffer
  let v ← loadFile t fd.toNat
  return .vfsFstat v buffer

def sysGetdents (t : TaskFiles) (fd : Int) (buffer length : BitVec 64) : Indexing FileCall := do
  checkFile t fd
  checkPtr buffer
  let v ← loadFile t fd.toNat
  return .vfsGetdents v buffer length

def sysOpenat (t : TaskFiles) (fd : Int) (path : BitVec 64) (flags : BitVec 32) :
    Indexing FileCall :=
  if path = 0 then .ret (-einval)
  else do
    checkPtr path
    match ← freeFile t (fun v => v = -1) (finRange 32) with
    | none => .ret (-emfile)
    | some userFd =>
      if fd = atFdcwd then do
        storeFile userFd
        return .vfsOpenat none path flags userFd
      else do
        checkFile t fd
        let v ← loadFile t fd.toNat
        storeFile userFd
        return .vfsOpenat (some v) path flags userFd

/-- `sys_mmap`, up to `vm_space_map` or to the file.  Errors are returned as positive numbers. -/
def sysMmapFile (t : TaskFiles) (args : MmapArgs) : Indexing FileCall :=
  if args.invalid then .ret einval
  else if has args.flags mapAnonymous then
    if 0 ≤ args.fd then .ret einval
    else if has args.flags mapShared then .ret eNotsup.toNat
    else return .vmSpaceMap none args
  else if args.fd < 0 then .ret ebadf
  else do
    let v ← loadFile t args.fd.toNat
    if v.slt 0 then .ret ebadf else return .vmSpaceMap (some v) args

def sysBind (t : TaskFiles) (sockfd : Int) (addr addrlen : BitVec 64) : Indexing FileCall := do
  checkPtr addr
  checkFile t sockfd
  let v ← loadFile t sockfd.toNat
  return .socketBind v addr addrlen

def sysRecvfrom (t : TaskFiles) (sockfd : Int) (buffer len : BitVec 64) (flags : BitVec 32)
    (srcAddr addrlen : BitVec 64) : Indexing FileCall := do
  checkPtr buffer
  checkPtr srcAddr
  checkPtr addrlen
  checkFile t sockfd
  let v ← loadFile t sockfd.toNat
  return .socketRecvfrom v buffer len flags srcAddr addrlen

def sysSendto (t : TaskFiles) (sockfd : Int) (buffer len : BitVec 64) (flags : BitVec 32)
    (dstAddr addrlen : BitVec 64) : Indexing FileCall := do
  checkPtr buffer
  checkPtr dstAddr
  checkFile t sockfd
  let v ← loadFile t sockfd.toNat
  return .socketSendto v buffer len flags dstAddr addrlen

inductive FdCall where
  | read (fd : Int) (buffer length : BitVec 64)
  | write (fd : Int) (buffer length : BitVec 64)
  | seek (fd : Int) (offset : BitVec 64) (flags : BitVec 32)
  | close (fd : Int)
  | dup (fd : Int)
  | ioctl (fd : Int) (op arg : BitVec 64)
  | fstat (fd : Int) (buffer : BitVec 64)
  | getdents (fd : Int) (buffer length : BitVec 64)
  | openat (fd : Int) (path : BitVec 64) (flags : BitVec 32)
  | mmap (args : MmapArgs)
  | bind (fd : Int) (addr addrlen : BitVec 64)
  | recvfrom (fd : Int) (buffer len : BitVec 64) (flags : BitVec 32) (srcAddr addrlen : BitVec 64)
  | sendto (fd : Int) (buffer len : BitVec 64) (flags : BitVec 32) (dstAddr addrlen : BitVec 64)
  deriving DecidableEq, Repr

namespace FdCall

def exec (t : TaskFiles) : FdCall → Indexing FileCall
  | .read fd buffer length => sysRead t fd buffer length
  | .write fd buffer length => sysWrite t fd buffer length
  | .seek fd offset flags => sysSeek t fd offset flags
  | .close fd => sysClose t fd
  | .dup fd => sysDup t fd
  | .ioctl fd op arg => sysIoctl t fd op arg
  | .fstat fd buffer => sysFstat t fd buffer
  | .getdents fd buffer length => sysGetdents t fd buffer length
  | .openat fd path flags => sysOpenat t fd path flags
  | .mmap args => sysMmapFile t args
  | .bind fd addr addrlen => sysBind t fd addr addrlen
  | .recvfrom fd buffer len flags srcAddr addrlen =>
    sysRecvfrom t fd buffer len flags srcAddr addrlen
  | .sendto fd buffer len flags dstAddr addrlen => sysSendto t fd buffer len flags dstAddr addrlen

def fd : FdCall → Int
  | .read fd .. | .write fd .. | .seek fd .. | .close fd | .dup fd | .ioctl fd .. | .fstat fd _
  | .getdents fd .. | .openat fd .. | .bind fd .. | .recvfrom fd .. | .sendto fd .. => fd
  | .mmap args => args.fd

/-- Whether the argument is meant as a descriptor: `AT_FDCWD` is none, and memory without a file has
none. -/
def HasFile : FdCall → Prop
  | .openat fd .. => fd ≠ atFdcwd
  | .mmap args => has args.flags mapAnonymous = false
  | _ => True

/-- What the checks of other arguments say that come before that of the descriptor. -/
def earlier (t : TaskFiles) : FdCall → Option Int
  | .openat _ path _ =>
    if path = 0 then some (-einval)
    else if !vmValidatePtr path then some (-efault)
    else if ∀ i, t.openFiles i ≠ -1 then some (-emfile)
    else none
  | .mmap args => if args.invalid then some einval else none
  | .bind _ addr _ => if vmValidatePtr addr then none else some (-efault)
  | .recvfrom _ buffer _ _ srcAddr addrlen =>
    if vmValidatePtr buffer && vmValidatePtr srcAddr && vmValidatePtr
      addrlen then none else some (-efault)
  | .sendto _ buffer _ _ dstAddr _ =>
    if vmValidatePtr buffer && vmValidatePtr dstAddr then none else some (-efault)
  | _ => none

/-- `-EBADF`, in the way the call returns errors. -/
def badFile : FdCall → Int
  | .mmap _ => ebadf
  | _ => -ebadf

/-- The call keeps to the table: it indexes its 32 entries only, it acts only on a slot that one of
them names, and it refuses a descriptor that is not one of them without any effect. -/
structure Bounded (t : TaskFiles) (c : FdCall) : Prop where
  inside : ∀ a ∈ (c.exec t).events, a.index < 32
  own : ∀ call slot, (c.exec t).result = .ok call → call.slot = some slot →
    ∃ i, t.openFiles i = slot
  refuses : c.HasFile → ¬(0 ≤ c.fd ∧ c.fd < 32) →
    (c.exec t).result = .error ((c.earlier t).getD c.badFile) ∧
      ∀ a ∈ (c.exec t).events, a.store = false

end FdCall

/-! ## Checks -/

@[simp] theorem Indexing.ret_eq {α : Type} (value : Int) :
    (ret value : Indexing α) = ⟨[], .error value⟩ := rfl

theorem TaskFiles.word_of_lt (t : TaskFiles) {i : Nat} (h : i < 32) :
    t.word i = t.openFiles ⟨i, h⟩ := dif_pos h

def Reads (l : List FileAccess) : Prop := ∀ a ∈ l, a.index < 32 ∧ a.store = false

theorem freeFile_eq (t : TaskFiles) (free : BitVec 32 → Bool) (is : List (Fin 32)) :
    ∃ l, Reads l ∧ freeFile t free is = ⟨l, .ok (is.find? fun i => free (t.openFiles i))⟩ := by
  induction is with
  | nil => exact ⟨[], nofun, rfl⟩
  | cons i is ih =>
    obtain ⟨l, hl, heq⟩ := ih
    have hload : (loadFile t i).result = .ok (t.openFiles i) := congrArg _ (t.word_of_lt i.isLt)
    rw [freeFile, bind_ok hload, find?_cons]
    cases free (t.openFiles i) with
    | true => exact ⟨[⟨i, false⟩], by simp [Reads], rfl⟩
    | false =>
      refine ⟨⟨i, false⟩ :: l, ?_, by simp [heq, loadFile]⟩
      intro a ha
      rcases mem_cons.1 ha with rfl | ha
      · exact ⟨i.isLt, rfl⟩
      · exact hl a ha

/-- What a call does that looks at a descriptor, after other checks: `earlier` is what these say. -/
structure Checked (t : TaskFiles) (fd : Int) (earlier : Option Int) (bad : Int)
    (x : Indexing FileCall) : Prop where
  early : ∀ e, earlier = some e → x.result = .error e ∧ Reads x.events
  negative : earlier = none → fd < 0 → x.result = .error bad ∧ Reads x.events
  index : earlier = none → 0 ≤ fd → ∃ a ∈ x.events, a.index = fd.toNat
  inside : earlier = none → 0 ≤ fd → fd < 32 → ∀ a ∈ x.events, a.index < 32
  slot : earlier = none → 0 ≤ fd → ∀ call slot, x.result = .ok call → call.slot = some slot →
    slot = t.word fd.toNat

/-- What follows the check: nothing else is indexed, and nothing else is acted on. -/
structure Follows (t : TaskFiles) (fd : Int) (x : Indexing FileCall) : Prop where
  index : ∀ a ∈ x.events, a.index = fd.toNat ∨ a.index < 32
  slot : ∀ call slot, x.result = .ok call → call.slot = some slot → slot = t.word fd.toNat

section Checks

variable {t : TaskFiles} {fd : Int} {earlier : Option Int} {bad : Int} {x : Indexing FileCall}
  {l : List FileAccess}

theorem checkFile_eq (h : ¬fd < 0) : checkFile t fd =
    ⟨[⟨fd.toNat, false⟩], if (t.word fd.toNat).slt 0 then .error (-ebadf) else .ok ()⟩ := by
  rw [checkFile, if_neg h, bind_ok rfl]
  cases (t.word fd.toNat).slt 0 <;> rfl

theorem Checked.refused (hl : Reads l) (e : Int) : Checked t fd (some e) bad ⟨l, .error e⟩ :=
  ⟨fun _ h => some.inj h ▸ ⟨rfl, hl⟩, nofun, nofun, nofun, nofun⟩

theorem Checked.below (hneg : fd < 0) : Checked t fd none bad ⟨[], .error bad⟩ := by
  refine ⟨nofun, fun _ _ => ⟨rfl, nofun⟩, fun _ h => ?_, fun _ h => ?_, fun _ h => ?_⟩ <;>
    exact absurd hneg (Int.not_lt.2 h)

theorem Follows.loaded (h : Follows t fd x) (hneg : ¬fd < 0) :
    Checked t fd none bad ⟨⟨fd.toNat, false⟩ :: x.events, x.result⟩ := by
  refine ⟨nofun, fun _ h => absurd h hneg, fun _ _ => ⟨_, mem_cons_self, rfl⟩,
    fun _ h0 h32 a ha => ?_, fun _ _ => h.slot⟩
  rcases mem_cons.1 ha with rfl | ha
  · dsimp only
    omega
  · rcases h.index a ha with ha | ha <;> omega

theorem Follows.checked (h : Follows t fd x) :
    Checked t fd none (-ebadf) (checkFile t fd >>= fun _ => x) := by
  by_cases hneg : fd < 0
  · have hcheck : checkFile t fd = ⟨[], .error (-ebadf)⟩ := if_pos hneg
    rw [hcheck]
    exact .below hneg
  rw [checkFile_eq hneg]
  by_cases hv : (t.word fd.toNat).slt 0 = true
  · rw [bind_error (by rw [if_pos hv])]
    exact Follows.loaded (x := .ret (-ebadf)) ⟨nofun, nofun⟩ hneg
  · rw [bind_ok (by rw [if_neg hv])]
    exact h.loaded hneg

theorem Checked.ptr (h : Checked t fd earlier bad x) (p : BitVec 64) :
    Checked t fd (if vmValidatePtr p then earlier else some (-efault)) bad
    (checkPtr p >>= fun _ => x) := by
  rw [checkPtr]
  cases vmValidatePtr p with
  | true => exact h
  | false => exact .refused (l := []) nofun _

/-- A search for a free entry in front, which there must be. -/
theorem Checked.free {f : Fin 32 → Indexing FileCall} {free : BitVec 32 → Bool}
    (h : ∀ i, Checked t fd none bad (f i)) :
    Checked t fd (if ∀ i, free (t.openFiles i) = false then some (-emfile) else none) bad
      (freeFile t free (finRange 32) >>= fun r =>
        match r with
        | none => .ret (-emfile)
        | some i => f i) := by
  obtain ⟨l, hl, heq⟩ := freeFile_eq t free (finRange 32)
  rw [heq, bind_ok rfl]
  rcases hfind : (finRange 32).find? fun i => free (t.openFiles i) with _ | i
  · have hfull : ∀ i, free (t.openFiles i) = false :=
      fun i => by simpa using find?_eq_none.1 hfind i (mem_finRange i)
    rw [if_pos hfull]
    exact .refused (by rw [Indexing.ret_eq, append_nil]; exact hl) _
  have hfree := find?_some hfind
  rw [if_neg fun hfull => by rw [hfull i] at hfree; cases hfree]
  have hi := h i
  refine ⟨nofun, fun he hn => ?_, fun he h0 => ?_, fun he h0 h32 a ha => ?_, hi.slot⟩
  · obtain ⟨hres, hreads⟩ := hi.negative he hn
    exact ⟨hres, forall_mem_append.2 ⟨hl, hreads⟩⟩
  · obtain ⟨a, ha, hindex⟩ := hi.index he h0
    exact ⟨a, mem_append_right l ha, hindex⟩
  · rcases mem_append.1 ha with ha | ha
    · exact (hl a ha).1
    · exact hi.inside he h0 h32 a ha

theorem Follows.load {f : BitVec 32 → FileCall} (hf : ∀ v, (f v).slot = some v) :
    Follows t fd (loadFile t fd.toNat >>= fun v => pure (f v)) := by
  refine ⟨fun a ha => .inl ?_, fun call slot hcall hslot => ?_⟩
  · rw [mem_singleton.1 ha]
  · rw [← Except.ok.inj hcall, hf] at hslot
    exact (some.inj hslot).symm

theorem Follows.store {i : Fin 32} {f : BitVec 32 → FileCall} (hf : ∀ v, (f v).slot = some v) :
    Follows t fd (loadFile t fd.toNat >>= fun v => storeFile i >>= fun _ => pure (f v)) := by
  refine ⟨fun a ha => ?_, fun call slot hcall hslot => ?_⟩
  · rcases mem_pair.1 ha with rfl | rfl
    · exact .inl rfl
    · exact .inr i.isLt
  · rw [← Except.ok.inj hcall, hf] at hslot
    exact (some.inj hslot).symm

theorem Follows.ptr (h : Follows t fd x) (p : BitVec 64) :
    Follows t fd (checkPtr p >>= fun _ => x) := by
  rw [checkPtr]
  cases vmValidatePtr p with
  | true => exact h
  | false => exact ⟨nofun, nofun⟩

theorem Follows.append (h : Follows t fd x)
    (hl : ∀ a ∈ l, a.index = fd.toNat ∨ a.index < 32) : Follows t fd ⟨l ++ x.events, x.result⟩ :=
  ⟨forall_mem_append.2 ⟨hl, h.index⟩, h.slot⟩

theorem sysOpenat_checked {path : BitVec 64} {flags : BitVec 32} (hfd : fd ≠ atFdcwd) :
    Checked t fd ((FdCall.openat fd path flags).earlier t) (-ebadf)
    (sysOpenat t fd path flags) := by
  rw [FdCall.earlier, sysOpenat]
  by_cases hpath : path = 0
  · rw [if_pos hpath, if_pos hpath]
    exact .refused (l := []) nofun _
  rw [if_neg hpath, if_neg hpath]
  have h := (@Checked.free t fd _ _ (fun v => decide (v = -1)) fun i => (@Follows.store t fd i
    (fun v => .vfsOpenat (some v) path flags i) fun _ => rfl).checked).ptr path
  simp only [decide_eq_false_iff_not, if_neg hfd] at h ⊢
  cases hp : vmValidatePtr path with
  | true | false => rwa [hp] at h

theorem sysMmapFile_checked {args : MmapArgs} (hfile : has args.flags mapAnonymous = false) :
    Checked t args.fd ((FdCall.mmap args).earlier t) ebadf (sysMmapFile t args) := by
  rw [FdCall.earlier, sysMmapFile, hfile]
  cases args.invalid with
  | true => exact .refused (l := []) nofun _
  | false =>
    by_cases hneg : args.fd < 0
    · rw [if_pos hneg]
      exact .below hneg
    rw [if_neg hneg, bind_ok rfl]
    cases hv : (t.word args.fd.toNat).slt 0 with
    | true => exact Follows.loaded (x := .ret ebadf) ⟨nofun, nofun⟩ hneg
    | false =>
      refine Follows.loaded (x := pure _) ⟨nofun, fun call slot hcall hslot => ?_⟩ hneg
      cases hcall
      exact (some.inj hslot).symm

theorem FdCall.checked (c : FdCall) (hfile : c.HasFile) :
    Checked t c.fd (c.earlier t) c.badFile (c.exec t) := by
  cases c with
  | read fd buffer length | write fd buffer length =>
    exact ((Follows.load fun _ => rfl).ptr buffer).checked
  | seek fd offset flags | ioctl fd op arg => exact (Follows.load fun _ => rfl).checked
  | close fd =>
    refine Follows.checked ⟨fun a ha => .inl ?_, fun call slot hcall hslot => ?_⟩
    · rcases mem_pair.1 ha with rfl | rfl <;> rfl
    · cases hcall
      exact (some.inj hslot).symm
  | dup fd =>
    obtain ⟨l, hl, heq⟩ := freeFile_eq t (fun v => v.slt 0) (finRange 32)
    have hrest : ∀ r : Option (Fin 32), Follows t fd (match r with
        | none => .ret (-emfile)
        | some newfd => loadFile t fd.toNat >>= fun v => storeFile newfd >>= fun _ =>
          pure (FileCall.vfsDup v newfd)) := by
      intro r
      cases r with
      | none => exact ⟨nofun, nofun⟩
      | some newfd => exact .store fun _ => rfl
    refine Follows.checked (x := freeFile t (fun v => v.slt 0) (finRange 32) >>= fun r => _) ?_
    rw [heq]
    exact (hrest _).append fun a ha => .inr (hl a ha).1
  | fstat fd buffer | getdents fd buffer length =>
    exact ((Follows.load fun _ => rfl).ptr buffer).checked
  | openat fd path flags => exact sysOpenat_checked hfile
  | mmap args => exact sysMmapFile_checked hfile
  | bind fd addr addrlen => exact (Follows.load fun _ => rfl).checked.ptr addr
  | recvfrom fd buffer len flags srcAddr addrlen =>
    have h := (((@Follows.load t fd (fun v => .socketRecvfrom v buffer len flags srcAddr addrlen)
      fun _ => rfl).checked.ptr addrlen).ptr srcAddr).ptr buffer
    have hearlier : (FdCall.recvfrom fd buffer len flags srcAddr addrlen).earlier t =
        if vmValidatePtr buffer then if vmValidatePtr srcAddr then if vmValidatePtr
          addrlen then none
        else some (-efault) else some (-efault) else some (-efault) := by
      rw [FdCall.earlier]
      cases vmValidatePtr buffer <;> cases vmValidatePtr srcAddr <;> rfl
    rwa [hearlier]
  | sendto fd buffer len flags dstAddr addrlen =>
    have h := ((@Follows.load t fd (fun v => .socketSendto v buffer len flags dstAddr addrlen)
      fun _ => rfl).checked.ptr dstAddr).ptr buffer
    have hearlier : (FdCall.sendto fd buffer len flags dstAddr addrlen).earlier t =
        if vmValidatePtr buffer then if vmValidatePtr dstAddr then none else some (-efault)
        else some (-efault) := by
      rw [FdCall.earlier]
      cases vmValidatePtr buffer <;> rfl
    rwa [hearlier]

end Checks

/-- Without a descriptor nothing is indexed but to find a free entry, and no slot is acted on. -/
theorem FdCall.exec_of_not (t : TaskFiles) (c : FdCall) (hfile : ¬c.HasFile) :
    (∀ a ∈ (c.exec t).events, a.index < 32) ∧ ∀ call, (c.exec t).result = .ok call →
    call.slot = none := by
  cases c with
  | openat fd path flags =>
    have hfd : fd = atFdcwd := not_not.1 hfile
    rw [FdCall.exec, sysOpenat]
    by_cases hpath : path = 0
    · rw [if_pos hpath]
      exact ⟨nofun, nofun⟩
    rw [if_neg hpath, checkPtr]
    rcases vmValidatePtr path with _ | _
    · exact ⟨nofun, nofun⟩
    obtain ⟨l, hl, heq⟩ := freeFile_eq t (fun v => v = -1) (finRange 32)
    rw [bind_ok rfl, heq, bind_ok rfl]
    rcases (finRange 32).find? fun i => decide (t.openFiles i = -1) with _ | userFd
    · exact ⟨fun a ha => (hl a (by simpa using ha)).1, nofun⟩
    rw [hfd]
    refine ⟨fun a ha => ?_, fun call hcall => ?_⟩
    · have ha : a ∈ l ++ [⟨userFd, true⟩] := ha
      rcases mem_append.1 ha with ha | ha
      · exact (hl a ha).1
      · rw [mem_singleton.1 ha]
        exact userFd.isLt
    · cases hcall
      rfl
  | mmap args =>
    have hanon : has args.flags mapAnonymous = true := Bool.not_eq_false _ ▸ hfile
    rw [FdCall.exec, sysMmapFile, hanon, if_pos rfl]
    split
    · exact ⟨nofun, nofun⟩
    split
    · exact ⟨nofun, nofun⟩
    split
    · exact ⟨nofun, nofun⟩
    refine ⟨nofun, fun call hcall => ?_⟩
    cases hcall
    rfl
  | _ => exact absurd trivial hfile

/-- **Descriptor bounds.**  A call keeps to the 32 entries of `open_files`, and to the slots that
they name, if and only if its descriptor is below 32 — unless it does not come to look at it. -/
theorem descriptor_bounds (t : TaskFiles) (c : FdCall) :
    c.Bounded t ↔ (c.HasFile → c.earlier t = none → c.fd < 32) := by
  constructor
  · intro B hfile hearlier
    have C := c.checked hfile (t := t)
    by_contra hlt
    obtain ⟨a, ha, hindex⟩ := C.index hearlier (by omega)
    have := B.inside a ha
    omega
  · intro hlt
    by_cases hfile : c.HasFile
    · have C := c.checked hfile (t := t)
      have hrefused (hres : (c.exec t).result = .error ((c.earlier t).getD c.badFile))
          (hreads : Reads (c.exec t).events) : c.Bounded t :=
        ⟨fun a ha => (hreads a ha).1, fun _ _ hcall => (nomatch hres.symm.trans hcall),
          fun _ _ => ⟨hres, fun a ha => (hreads a ha).2⟩⟩
      cases hearlier : c.earlier t with
      | some e =>
        obtain ⟨hres, hreads⟩ := C.early e hearlier
        exact hrefused (by rw [hres, hearlier]; rfl) hreads
      | none =>
        have hlt := hlt hfile hearlier
        by_cases hneg : c.fd < 0
        · obtain ⟨hres, hreads⟩ := C.negative hearlier hneg
          exact hrefused (by rw [hres, hearlier]; rfl) hreads
        have h0 : 0 ≤ c.fd := Int.not_lt.1 hneg
        refine ⟨C.inside hearlier h0 hlt, fun call slot hcall hslot => ⟨⟨c.fd.toNat, by omega⟩, ?_⟩,
          fun _ hout => absurd ⟨h0, hlt⟩ hout⟩
        rw [C.slot hearlier h0 call slot hcall hslot, t.word_of_lt]
    · obtain ⟨hinside, hslot⟩ := c.exec_of_not t hfile
      refine ⟨hinside, fun call slot hcall h => ?_, fun h => absurd h hfile⟩
      simp [hslot call hcall] at h

/-- A task that has nothing open, and runs. -/
def noFiles : TaskFiles where
  openFiles _ := -1
  returnStatus := 0
  returnSignal := 0
  behind _ := 0

/-- It reads the file in slot 0, with the descriptor 32. -/
theorem read_behind_table :
    ¬(FdCall.read 32 0x10000 16).Bounded noFiles ∧
      ((FdCall.read 32 0x10000 16).exec noFiles).result = .ok (.vfsRead 0 0x10000 16) := by
  refine ⟨fun B => ?_, by rfl⟩
  have := B.inside ⟨32, false⟩ (by decide)
  exact absurd this (by decide)

end Monolith.Fs
