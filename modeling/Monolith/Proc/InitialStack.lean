import Monolith.Lib.Words
import Monolith.Mm.Layout

/-!
# The stack a program starts with

`task_copy_args` writes the strings of a new task to the top page of its stack, downwards and
through the direct map, and `elf_exec` pushes the words below them through the task's own addresses.
The result is to have the layout that a program expects: `decode` reads it, from the stack pointer
upwards.

* `copyStrings_spec`: the strings are at the pointers that are kept for them.
* `pushAll_spec`: the words are there in reverse order, and nothing above them changes.
* `decode_elfExec`: **a program finds its arguments, its environment and the auxiliary vector**.
-/

namespace Monolith.Proc

open Function Bytes Mm List

/-! ## Strings and stacks -/

/-- A string, without the zero behind it. -/
structure CString where
  bytes : List (BitVec 8)
  noNul : ∀ b ∈ bytes, b ≠ 0

/-- The bytes of a string and the zero behind it. -/
def CString.size (s : CString) : Nat := s.bytes.length + 1

def totalSize (ss : List CString) : Nat := (ss.map CString.size).sum

def userStackSize : Nat := 0x8000

/-- The stack of a new task, as `user_stack_init` maps it: each page has a frame of its own. -/
structure UserStack where
  top : Nat
  frame : Nat → Nat
  top_mod : top % 4096 = 0
  size_le : userStackSize ≤ top
  top_lt : top < 2 ^ 47
  frame_inj : Set.InjOn frame { p | top - userStackSize ≤ 4096 * p ∧ 4096 * p < top }

namespace UserStack

variable (k : UserStack)

def addrs : Set Nat := { a | k.top - userStackSize ≤ a ∧ a < k.top }

/-- The physical address of an address. -/
def phys (a : Nat) : Nat := 4096 * k.frame (a / 4096) + a % 4096

/-- What the task sees of the memory. -/
def user (mem : Nat → BitVec 8) (a : Nat) : BitVec 8 := mem (k.phys a)

theorem phys_injOn : Set.InjOn k.phys k.addrs := by
  intro a ha b hb h
  have htop := k.top_mod
  have hsize := k.size_le
  obtain ⟨halo, hahi⟩ := ha
  obtain ⟨hblo, hbhi⟩ := hb
  rw [userStackSize] at halo hblo hsize
  simp only [phys] at h
  have hframe : k.frame (a / 4096) = k.frame (b / 4096) := by omega
  have hpage :=
    k.frame_inj (by show _ ∧ _; rw [userStackSize]; omega)
    (by show _ ∧ _; rw [userStackSize]; omega) hframe
  omega

end UserStack

/-! ## `task_copy_args` -/

def dmapBase : Nat := vmDmapBase.toNat

/-- The memory, by physical address, and the address in the direct map that the strings are written
below. -/
structure Copier where
  mem : Nat → BitVec 8
  stack : Nat

/-- `stack--; *(char*)stack = b;` -/
def Copier.put (c : Copier) (b : BitVec 8) : Copier where
  mem := update c.mem (c.stack - 1 - dmapBase) b
  stack := c.stack - 1

/-- The loop over the bytes of a string, from the last one on. -/
def copyDown (s : List (BitVec 8)) : Nat → Copier → Copier
  | 0, c => c
  | j + 1, c => copyDown s j (c.put (s[j]?.getD 0))

def copyString (s : CString) (c : Copier) : Copier := copyDown s.bytes s.bytes.length (c.put 0)

/-- A loop over strings: the pointers to them, for a stack that ends at `rsp` and in the direct map
at `orig`. -/
def copyStrings (rsp orig : Nat) : List CString → Copier → List Nat × Copier
  | [], c => ([], c)
  | s :: ss, c =>
    let rest := copyStrings rsp orig ss (copyString s c)
    ((rsp - (orig - (copyString s c).stack)) :: rest.1, rest.2)

/-- A task that starts a program: the memory, its stack pointer, `argv` and `envp`. -/
structure ExecTask where
  mem : Nat → BitVec 8
  rsp : Nat
  argv : List Nat
  envp : List Nat

/-- The end of the top page in the direct map. -/
def UserStack.origStack (k : UserStack) : Nat :=
  4096 * k.frame ((k.top - 0x1000) / 4096) + dmapBase + 0x1000

def taskCopyArgs (k : UserStack) (mem : Nat → BitVec 8) (argv envp : List CString) : ExecTask :=
  let env := copyStrings k.top k.origStack envp ⟨mem, k.origStack⟩
  let arg := copyStrings k.top k.origStack argv env.2
  { mem := arg.2.mem
    rsp := (k.top - (k.origStack - arg.2.stack)) / 16 * 16
    argv := arg.1
    envp := env.1 }

/-! ## `elf_exec` -/

/-- `cred_t`, as far as programs are told. -/
structure Cred where
  uid : BitVec 32
  euid : BitVec 32
  gid : BitVec 32
  egid : BitVec 32

/-- `task->rsp -= sizeof(uintptr_t); *(uintptr_t*)task->rsp = word;` -/
def ExecTask.push (k : UserStack) (t : ExecTask) (word : Nat) : ExecTask :=
  { t with mem := storeVia k.phys t.mem 8 (t.rsp - 8) word, rsp := t.rsp - 8 }

/-- Words that are pushed one after the other. -/
def ExecTask.pushAll (k : UserStack) (t : ExecTask) (words : List Nat) : ExecTask :=
  words.foldl (push k) t

/-- The loops over `envp` and `argv`, from the last pointer on. -/
def ExecTask.pushPointers (k : UserStack) (ptrs : List Nat) : Nat → ExecTask → ExecTask
  | 0, t => t
  | i + 1, t => pushPointers k ptrs i (t.push k (ptrs[i]?.getD 0))

/-- `enum Elf_AType` -/
inductive AuxType where
  | null | ignore | execfd | phdr | phent | phnum | pagesz | base | flags | entry | notelf | uid
  | euid | gid | egid

def AuxType.toNat (t : AuxType) : Nat := t.ctorIdx

/-- `struct elf_image`, as far as the program is told of it. -/
structure ElfImage where
  entry : BitVec 64 := 0
  base : BitVec 64 := 0
  loadBias : BitVec 64 := 0
  phnum : BitVec 16 := 0
  phentsize : BitVec 16 := 0
  phdrOff : BitVec 64 := 0

/-- The auxiliary vector, from its end on. -/
def auxPushes (cred : Cred) (img : ElfImage) : List Nat :=
  [0, AuxType.null.toNat, cred.egid.toNat, AuxType.egid.toNat, cred.euid.toNat, AuxType.euid.toNat,
   cred.gid.toNat, AuxType.gid.toNat, cred.uid.toNat, AuxType.uid.toNat, 4096, AuxType.pagesz.toNat,
   img.loadBias.toNat, AuxType.base.toNat, img.entry.toNat, AuxType.entry.toNat, img.phnum.toNat,
     AuxType.phnum.toNat,
   img.phentsize.toNat, AuxType.phent.toNat, (img.base + img.phdrOff).toNat, AuxType.phdr.toNat]

def alignCheck (t : ExecTask) :
    Nat := t.rsp - 11 * 2 * 8 - (t.envp.length + 1) * 8 - (t.argv.length + 1) * 8 - 8

/-- `elf_exec`, after the program is loaded. -/
def elfExec (k : UserStack) (cred : Cred) (img : ElfImage) (t : ExecTask) : ExecTask :=
  let t := if alignCheck t % 16 ≠ 0 then t.push k 0 else t
  let t := t.pushAll k (auxPushes cred img)
  let t := t.push k 0
  let t := ExecTask.pushPointers k t.envp t.envp.length t
  let t := t.push k 0
  let t := ExecTask.pushPointers k t.argv t.argv.length t
  t.push k t.argv.length

/-! ## The layout -/

/-- What a program finds on its stack. -/
structure StartInfo where
  argc : Nat
  argv : List (List (BitVec 8))
  envp : List (List (BitVec 8))
  auxv : List (Nat × Nat)
  deriving DecidableEq, Repr

/-- The layout of the System V ABI, from the stack pointer on: `argc`, as many pointers and a null
pointer; pointers up to a null pointer; pairs of a type and a value up to `AT_NULL`. -/
def decode (m : Nat → BitVec 8) (rsp : Nat) : Option StartInfo := do
  let argc := load m 8 rsp
  let argv := readWords m argc (rsp + 8)
  guard (load m 8 (rsp + 8 * (argc + 1)) = 0)
  let envp ← readUntilZero m userStackSize (rsp + 8 * (argc + 2))
  let auxv ← readPairs m userStackSize (rsp + 8 * (argc + envp.length + 3))
  let argvStrings ← argv.mapM (readText m userStackSize)
  let envpStrings ← envp.mapM (readText m userStackSize)
  return ⟨argc, argvStrings, envpStrings, auxv⟩

/-- What a program is to be told. -/
def auxv (cred : Cred) (img : ElfImage) : List (Nat × Nat) :=
  [(AuxType.phdr.toNat, (img.base + img.phdrOff).toNat), (AuxType.phent.toNat, img.phentsize.toNat),
   (AuxType.phnum.toNat, img.phnum.toNat), (AuxType.entry.toNat, img.entry.toNat),
   (AuxType.base.toNat, img.loadBias.toNat), (AuxType.pagesz.toNat, 4096),
     (AuxType.uid.toNat, cred.uid.toNat),
   (AuxType.gid.toNat, cred.gid.toNat), (AuxType.euid.toNat, cred.euid.toNat),
     (AuxType.egid.toNat, cred.egid.toNat)]

/-! ## Copying strings -/

variable {x n : Nat} {ss : List CString}

section Copy

variable {k : UserStack} {c : Copier} {d : Nat}

/-- A byte that is written through the direct map, as the task sees it. -/
theorem Copier.user_put {b : BitVec 8} (hstack : c.stack + d = k.origStack) (hd : d < 4096)
    (hx : x ∈ k.addrs) :
    k.user (c.put b).mem x = if x = k.top - (d + 1) then b else k.user c.mem x := by
  have htop := k.top_mod
  have hsize := k.size_le
  rw [userStackSize] at hsize
  have haddr : c.stack - 1 - dmapBase = k.phys (k.top - (d + 1)) := by
    have hpage : (k.top - (d + 1)) / 4096 = (k.top - 0x1000) / 4096 := by omega
    rw [UserStack.origStack] at hstack
    rw [UserStack.phys, hpage]
    omega
  have hin : k.top - (d + 1) ∈ k.addrs := by
    show _ ∧ _
    rw [userStackSize]
    omega
  show update c.mem (c.stack - 1 - dmapBase) b (k.phys x) = _
  rw [haddr]
  by_cases hxa : x = k.top - (d + 1)
  · rw [if_pos hxa, hxa, update_self]
  have hne : k.phys x ≠ k.phys (k.top - (d + 1)) := fun h => hxa (k.phys_injOn hx hin h)
  rw [if_neg hxa, update_of_ne hne]
  rfl

/-- Between two states of the copy, `n` bytes have been written below the first `d`, which stay. -/
structure Copied (k : UserStack) (d n : Nat) (c c' : Copier) : Prop where
  stack : c'.stack + (d + n) = k.origStack
  same : Same (k.user c.mem) (k.user c'.mem) d (k.top - d)

theorem Copied.trans {n n' : Nat} {c' c'' : Copier} (h : Copied k d n c c')
    (h' : Copied k (d + n) n' c' c'') (hle : d + n ≤ 4096) : Copied k d (n + n') c c'' := by
  refine ⟨?_, h.same.trans (h'.same.mono (by omega) (by omega))⟩
  have := h'.stack
  omega

theorem Copier.copied_put (b : BitVec 8) (hstack : c.stack + d = k.origStack) (hd : d < 4096) :
    Copied k d 1 c (c.put b) ∧ k.user (c.put b).mem (k.top - (d + 1)) = b := by
  have hsize := k.size_le
  rw [userStackSize] at hsize
  refine ⟨⟨?_, fun x hx hx' => ?_⟩, ?_⟩
  · show c.stack - 1 + (d + 1) = k.origStack
    rw [UserStack.origStack] at hstack ⊢
    omega
  · rw [Copier.user_put hstack hd (by show _ ∧ _; rw [userStackSize]; omega), if_neg (by omega)]
  · rw [Copier.user_put hstack hd (by show _ ∧ _; rw [userStackSize]; omega), if_pos rfl]

theorem copyDown_spec {s : List (BitVec 8)} {j : Nat} (hj : j ≤ s.length)
    (hstack : c.stack + d = k.origStack) (hd : d + j ≤ 4096) : Copied k d j c (copyDown s j c) ∧
      ∀ i, (hi : i < j) → k.user (copyDown s j c).mem (k.top - (d + j) + i) = s[i] := by
  have hsize := k.size_le
  rw [userStackSize] at hsize
  induction j generalizing c d with
  | zero => exact ⟨⟨hstack, .refl _ _ _⟩, fun i hi => absurd hi (Nat.not_lt_zero i)⟩
  | succ j ih =>
    obtain ⟨hput, hbyte⟩ := @Copier.copied_put k c d (s[j]?.getD 0) hstack (by omega)
    obtain ⟨hrest, hbytes⟩ := @ih (c.put (s[j]?.getD 0)) (d + 1) (by omega) hput.stack (by omega)
    have hboth := hput.trans hrest (by omega)
    rw [add_comm 1 j] at hboth
    refine ⟨hboth, fun i hi => ?_⟩
    by_cases hij : i = j
    · -- the byte that is written first is the last one of the part
      subst hij
      rw [copyDown, show k.top - (d + (i + 1)) + i = k.top - (d + 1) by omega,
        hrest.same _ le_rfl (by omega), hbyte, getElem?_eq_getElem (by omega)]
      rfl
    · rw [show d + (j + 1) = d + 1 + j by omega]
      exact hbytes i (by omega)

theorem copyString_spec (s : CString) (hstack : c.stack + d = k.origStack)
    (hd : d + s.size ≤ 4096) : Copied k d s.size c (copyString s c) ∧
    Text (k.user (copyString s c).mem) (k.top - (d + s.size)) s.bytes := by
  have hsize := k.size_le
  rw [userStackSize] at hsize
  rw [CString.size] at hd ⊢
  obtain ⟨hput, hnul⟩ := @Copier.copied_put k c d 0 hstack (by omega)
  obtain ⟨hrest, hbytes⟩ :=
    @copyDown_spec k (c.put 0) (d + 1) s.bytes _ le_rfl hput.stack (by omega)
  have hboth := hput.trans hrest (by omega)
  rw [add_comm 1] at hboth
  refine ⟨hboth, Text.of_getElem (fun i hi => ?_) ?_⟩
  · rw [show d + (s.bytes.length + 1) = d + 1 + s.bytes.length by omega]
    exact hbytes i hi
  · rw [show k.top - (d + (s.bytes.length + 1)) + s.bytes.length = k.top - (d + 1) by omega, ← hnul]
    exact hrest.same _ le_rfl (by omega)

/-- A string is on the stack, not below `lo`. -/
def StringAt (k : UserStack) (mem : Nat → BitVec 8) (lo p : Nat) (s : CString) : Prop :=
  lo ≤ p ∧ p + s.size ≤ k.top ∧ Text (k.user mem) p s.bytes

theorem StringAt.mono {mem mem' : Nat → BitVec 8} {lo lo' p : Nat} {s : CString}
    (h : StringAt k mem lo p s) (hlo : lo' ≤ lo)
    (hs : Same (k.user mem) (k.user mem') (k.top - lo) lo) : StringAt k mem' lo' p s := by
  obtain ⟨hle, hend, htext⟩ := h
  refine ⟨le_trans hlo hle, hend, htext.congr (hs.mono hle ?_)⟩
  rw [CString.size] at hend
  omega

theorem totalSize_cons (s : CString) (ss : List CString) :
    totalSize (s :: ss) = s.size + totalSize ss := sum_cons

/-- **A loop over strings**: they are at the pointers. -/
theorem copyStrings_spec {ss : List CString} (hstack : c.stack + d = k.origStack)
    (hd : d + totalSize ss ≤ 4096) :
    Copied k d (totalSize ss) c (copyStrings k.top k.origStack ss c).2 ∧
      List.Forall₂ (StringAt k (copyStrings k.top k.origStack ss c).2.mem
      (k.top - (d + totalSize ss)))
        (copyStrings k.top k.origStack ss c).1 ss := by
  have hsize := k.size_le
  rw [userStackSize] at hsize
  induction ss generalizing c d with
  | nil => exact ⟨⟨hstack, .refl _ _ _⟩, .nil⟩
  | cons s ss ih =>
    rw [totalSize_cons, ← add_assoc] at hd ⊢
    obtain ⟨hfirst, htext⟩ := @copyString_spec k c d s hstack (by omega)
    obtain ⟨hrest, hall⟩ := ih hfirst.stack (by omega)
    have hptr : k.top - (k.origStack - (copyString s c).stack) = k.top - (d + s.size) := by
      have := hfirst.stack
      omega
    refine ⟨hfirst.trans hrest (by omega), .cons ?_ hall⟩
    rw [hptr]
    exact StringAt.mono ⟨le_rfl, by omega, htext⟩ (by omega) (hrest.same.mono le_rfl (by omega))

theorem taskCopyArgs_spec (mem : Nat → BitVec 8) {argv envp : List CString}
    (hsize : totalSize argv + totalSize envp ≤ 4096) :
    let t := taskCopyArgs k mem argv envp
    t.rsp % 16 = 0 ∧ t.rsp ≤ k.top ∧ k.top ≤ t.rsp + 4111 ∧
      List.Forall₂ (StringAt k t.mem t.rsp) t.argv argv ∧
      List.Forall₂ (StringAt k t.mem t.rsp) t.envp envp := by
  intro t
  obtain ⟨henv, henvs⟩ := @copyStrings_spec k ⟨mem, k.origStack⟩ 0 envp rfl (by omega)
  obtain ⟨harg, hargs⟩ := @copyStrings_spec k _ (0 + totalSize envp) argv henv.stack (by omega)
  have hstack := harg.stack
  have hrsp : t.rsp = (k.top - (totalSize envp + totalSize argv)) / 16 * 16 := by
    have hdiff : ∀ n, n + (0 + totalSize envp + totalSize argv) = k.origStack →
        k.origStack - n = totalSize envp + totalSize argv := by omega
    exact congrArg (fun n => (k.top - n) / 16 * 16) (hdiff _ hstack)
  refine ⟨by omega, by omega, by omega, ?_, ?_⟩
  · exact hargs.imp fun p s h => h.mono (by omega) (.refl _ _ _)
  refine henvs.imp fun p s h => ?_
  obtain ⟨hle, hend, htext⟩ := h
  exact StringAt.mono ⟨hle, hend,
    htext.congr (harg.same.mono (by omega) (by rw [CString.size] at hend; omega))⟩ (by omega)
    (.refl _ _ _)

/-- The copy has come down by `d` bytes, and has written to the frame of the top page only. -/
def Copier.Inside (k : UserStack) (mem : Nat → BitVec 8) (d : Nat) (c : Copier) : Prop :=
  c.stack + d = k.origStack ∧ ∀ a, a / 4096 ≠ k.frame ((k.top - 0x1000) / 4096) → c.mem a = mem a

variable {mem : Nat → BitVec 8} (h : c.Inside k mem d)

include h

theorem Copier.Inside.put (b : BitVec 8) (hd : d < 4096) : (c.put b).Inside k mem (d + 1) := by
  obtain ⟨hstack, hmem⟩ := h
  rw [UserStack.origStack] at hstack
  simp only [Inside, Copier.put, UserStack.origStack]
  refine ⟨by omega, fun a ha => ?_⟩
  rw [update_of_ne (by omega), hmem a ha]

theorem Copier.Inside.copyDown (s : List (BitVec 8)) {j : Nat} (hd : d + j ≤ 4096) :
    (copyDown s j c).Inside k mem (d + j) := by
  induction j generalizing c d with
  | zero => exact h
  | succ j ih =>
    have hrest := ih (h.put (s[j]?.getD 0) (by omega)) (by omega)
    rwa [Nat.add_assoc, Nat.add_comm 1] at hrest

theorem Copier.Inside.copyStrings {rsp orig : Nat} (hd : d + totalSize ss ≤ 4096) :
    (copyStrings rsp orig ss c).2.Inside k mem (d + totalSize ss) := by
  induction ss generalizing c d with
  | nil => exact h
  | cons s ss ih =>
    rw [totalSize_cons, CString.size] at hd ⊢
    have hrest :=
      ih ((h.put 0 (by omega)).copyDown s.bytes (j := s.bytes.length) (by omega)) (by omega)
    rwa [Nat.add_assoc d, Nat.add_comm 1, Nat.add_assoc d] at hrest

omit h

/-- Two copies of the same strings, which agree on what has been written below `orig`. -/
def Copier.Agree (orig : Nat) (c c' : Copier) : Prop :=
  c'.stack = c.stack ∧ ∀ a, c.stack ≤ a + dmapBase → a + dmapBase < orig → c'.mem a = c.mem a

variable {orig : Nat} {c' : Copier}

theorem Copier.Agree.put (h : c.Agree orig c') (b : BitVec 8) :
    (c.put b).Agree orig (c'.put b) := by
  obtain ⟨hstack, hmem⟩ := h
  refine ⟨congrArg (· - 1) hstack, fun a ha horig => ?_⟩
  simp only [Copier.put, hstack] at ha ⊢
  by_cases hlast : a = c.stack - 1 - dmapBase
  · rw [hlast, update_self, update_self]
  · rw [update_of_ne hlast, update_of_ne hlast, hmem a (by omega) horig]

theorem Copier.Agree.copyDown (h : c.Agree orig c') (s : List (BitVec 8)) (j : Nat) :
    (copyDown s j c).Agree orig (copyDown s j c') ∧ (Proc.copyDown s j c).stack = c.stack - j := by
  induction j generalizing c c' with
  | zero => exact ⟨h, rfl⟩
  | succ j ih =>
    obtain ⟨hrest, hstack⟩ := ih (h.put (s[j]?.getD 0))
    refine ⟨hrest, hstack.trans ?_⟩
    show c.stack - 1 - j = c.stack - (j + 1)
    omega

/-- The strings are written one below the other, whatever the memory is. -/
theorem Copier.Agree.copyStrings (h : c.Agree orig c') (ss : List CString) (rsp o : Nat) :
    (copyStrings rsp o ss c).2.Agree orig (copyStrings rsp o ss c').2 ∧
      (Proc.copyStrings rsp o ss c).2.stack = c.stack - totalSize ss := by
  induction ss generalizing c c' with
  | nil => exact ⟨h, rfl⟩
  | cons s ss ih =>
    obtain ⟨hstring, hfirst⟩ := (h.put 0).copyDown s.bytes s.bytes.length
    obtain ⟨hrest, hstack⟩ := ih hstring
    refine ⟨hrest, hstack.trans ?_⟩
    rw [hfirst, totalSize_cons, CString.size]
    show c.stack - 1 - s.bytes.length - totalSize ss = _
    omega

end Copy

/-! ## Pushing words -/

section Push

variable {k : UserStack} {t : ExecTask}

namespace ExecTask

theorem user_push (w : Nat) (hlo : k.top - userStackSize + 8 ≤ t.rsp) (hhi : t.rsp ≤ k.top)
    (hx : x ∈ k.addrs) : k.user (t.push k w).mem x = store (k.user t.mem) 8 (t.rsp - 8) w x := by
  refine storeVia_apply k.phys_injOn (fun i hi => ?_) hx
  show _ ∧ _
  omega

/-- **Words that are pushed** are there from the last one on, and what is above them is as
before. -/
theorem pushAll_spec {ws : List Nat} (hlo : k.top - userStackSize + 8 * ws.length ≤ t.rsp)
    (hhi : t.rsp ≤ k.top) (hws : ∀ w ∈ ws, w < 2 ^ 64) :
    (t.pushAll k ws).rsp = t.rsp - 8 * ws.length ∧
      Words (k.user (t.pushAll k ws).mem) (t.rsp - 8 * ws.length) ws.reverse ∧
      Same (k.user t.mem) (k.user (t.pushAll k ws).mem) (k.top - t.rsp) t.rsp := by
  induction ws generalizing t with
  | nil => exact ⟨rfl, trivial, .refl _ _ _⟩
  | cons w ws ih =>
    rw [length_cons] at hlo
    have hsp : (t.push k w).rsp = t.rsp - 8 := rfl
    obtain ⟨hrsp, hwords, hsame⟩ := @ih (t.push k w) (by omega) (by omega)
      fun x hx => hws x (mem_cons_of_mem w hx)
    have hword : load (k.user (t.push k w).mem) 8 (t.rsp - 8) = w := by
      have hstore : Same (store (k.user t.mem) 8 (t.rsp - 8) w) (k.user (t.push k w).mem) 8
          (t.rsp - 8) :=
        fun x hx hx' => ExecTask.user_push w (by omega) hhi (by show _ ∧ _; omega)
      have hlt := hws w mem_cons_self
      rw [load_congr hstore, load_store]
      omega
    have habove : Same (k.user t.mem) (k.user (t.push k w).mem) (k.top - t.rsp) t.rsp :=
      fun x hx hx' => by
      rw [ExecTask.user_push w (by omega) hhi (by show _ ∧ _; omega), store_of_notMem (by omega)]
    rw [length_cons, reverse_cons, words_append, length_reverse,
      show t.rsp - 8 * (ws.length + 1) = t.rsp - 8 - 8 * ws.length by omega]
    refine ⟨hrsp, ⟨hwords, ?_, trivial⟩, habove.trans (hsame.mono (by omega) (by omega))⟩
    -- the first word is above the others
    have hkeep : load (k.user ((t.push k w).pushAll k ws).mem) 8 (t.rsp - 8) =
        load (k.user (t.push k w).mem) 8 (t.rsp - 8) :=
      load_congr (hsame.mono le_rfl (by omega))
    rw [show t.rsp - 8 - 8 * ws.length + 8 * ws.length = t.rsp - 8 by omega]
    exact hkeep.trans hword

theorem pushAll_argv (ws : List Nat) : (t.pushAll k ws).argv = t.argv := by
  induction ws generalizing t with
  | nil => rfl
  | cons w ws ih => exact @ih (t.push k w)

theorem pushAll_envp (ws : List Nat) : (t.pushAll k ws).envp = t.envp := by
  induction ws generalizing t with
  | nil => rfl
  | cons w ws ih => exact @ih (t.push k w)

theorem push_eq (w : Nat) : t.push k w = t.pushAll k [w] := rfl

theorem pushAll_append (xs ys : List Nat) :
    t.pushAll k (xs ++ ys) = (t.pushAll k xs).pushAll k ys :=
  foldl_append

/-- The loops over pointers push them from the last one on. -/
theorem pushPointers_eq (ptrs : List Nat) (hn : n ≤ ptrs.length) :
    ExecTask.pushPointers k ptrs n t = t.pushAll k (ptrs.take n).reverse := by
  induction n generalizing t with
  | zero => rfl
  | succ n ih =>
    rw [ExecTask.pushPointers, ih (by omega), take_succ_eq_append_getElem (by omega),
      reverse_append, getElem?_eq_getElem (by omega)]
    rfl

end ExecTask

/-- The words that `elf_exec` pushes. -/
def elfWords (cred : Cred) (img : ElfImage) (t : ExecTask) : List Nat :=
  (if alignCheck t % 16 ≠ 0 then [0] else []) ++
    (auxPushes cred img ++ ([0] ++ (t.envp.reverse ++ ([0] ++
    (t.argv.reverse ++ [t.argv.length])))))

theorem elfExec_eq (cred : Cred) (img : ElfImage) :
    elfExec k cred img t = t.pushAll k (elfWords cred img t) := by
  have hpad : (if alignCheck t % 16 ≠ 0 then t.push k 0 else t) =
      t.pushAll k (if alignCheck t % 16 ≠ 0 then [0] else []) := by
    split <;> rfl
  simp only [elfExec, hpad]
  simp only [ExecTask.push_eq, ExecTask.pushPointers_eq _ le_rfl, take_length,
    ExecTask.pushAll_argv, ExecTask.pushAll_envp, elfWords, ExecTask.pushAll_append]

end Push

/-! ## Reading it back -/

section Decode

variable {m : Nat → BitVec 8} {rsp : Nat}

/-- A string that `decode` reads. -/
def Readable (m : Nat → BitVec 8) (p : Nat) (s : CString) : Prop :=
  Text m p s.bytes ∧ s.size ≤ userStackSize

theorem mapM_readText {ptrs : List Nat} (h : List.Forall₂ (Readable m) ptrs ss) :
    ptrs.mapM (readText m userStackSize) = some (ss.map CString.bytes) := by
  induction h with
  | nil => rfl
  | @cons p s ptrs ss hfirst _ ih => simp [mapM_cons, hfirst.1.readText s.noNul hfirst.2, ih]

/-- **A stack with the right words and strings is decoded.** -/
theorem decode_eq {argv envp : List Nat} {args envs : List CString} {aux : List (Nat × Nat)}
    {rest : List Nat}
    (hwords : Words m rsp
    (argv.length :: (argv ++ (0 :: (envp ++ (0 :: (flatPairs aux ++ (0 :: rest)))))))) (hargs :
    List.Forall₂ (Readable m) argv args) (henvs : List.Forall₂ (Readable m) envp envs)
    (hptrs : ∀ p ∈ envp, p ≠ 0) (haux : ∀ p ∈ aux, p.1 ≠ 0) (henvc : envp.length < userStackSize)
    (hauxc : aux.length < userStackSize) :
    decode m rsp = some ⟨args.length, args.map CString.bytes, envs.map CString.bytes, aux⟩ := by
  obtain ⟨hargc, hwords⟩ := hwords
  obtain ⟨hargv, hnull, hwords⟩ := words_append.1 hwords
  obtain ⟨henvp, hwords⟩ := words_append.1 hwords
  obtain ⟨henvnull, hwords⟩ := hwords
  obtain ⟨hpairs, hauxnull, -⟩ := words_append.1 hwords
  have henvz :=
    (words_append.2 ⟨henvp, henvnull, trivial⟩ : Words m _ (envp ++ [0])).readUntilZero hptrs henvc
  have hauxz :=
    (words_append.2 ⟨hpairs, hauxnull, trivial⟩ : Words m _ (flatPairs aux ++ [0])).readPairs
    haux hauxc
  rw [show rsp + 8 + 8 * argv.length = rsp + 8 * (argv.length + 1) by omega] at hnull
  rw [show rsp + 8 + 8 * argv.length + 8 = rsp + 8 * (argv.length + 2) by omega] at henvz
  rw [show rsp + 8 + 8 * argv.length + 8 + 8 * envp.length + 8 =
    rsp + 8 * (argv.length + envp.length + 3) by omega]
    at hauxz
  have hargtexts := mapM_readText hargs
  have henvtexts := mapM_readText henvs
  rw [← hargs.length_eq]
  simp only [decode, hargc, hargv.readWords, hnull, henvz, hauxz, hargtexts, henvtexts, guard_true,
    Option.bind_eq_bind, Option.bind_some]
  rfl

end Decode

/-! ## The stack of a new program -/

section Start

variable (k : UserStack) (cred : Cred) (img : ElfImage)

theorem auxPushes_reverse : (auxPushes cred img).reverse = flatPairs (auxv cred img) ++ [0, 0] :=
  rfl

theorem auxv_fst_ne_zero : ∀ p ∈ auxv cred img, p.1 ≠ 0 := by
  simp only [auxv, forall_mem_cons]
  refine ⟨?_, ?_, ?_, ?_, ?_, ?_, ?_, ?_, ?_, ?_, fun _ h => nomatch h⟩ <;> decide

theorem auxPushes_lt : ∀ w ∈ auxPushes cred img, w < 2 ^ 64 := by
  have htype : ∀ a : AuxType, a.toNat < 2 ^ 64 := fun a => by cases a <;> decide
  have h16 : ∀ x : BitVec 16, x.toNat < 2 ^ 64 := fun x => lt_trans x.isLt (by decide)
  have h32 : ∀ x : BitVec 32, x.toNat < 2 ^ 64 := fun x => lt_trans x.isLt (by decide)
  have h64 : ∀ x : BitVec 64, x.toNat < 2 ^ 64 := fun x => x.isLt
  simp only [auxPushes, forall_mem_cons, htype, h16, h32, h64, true_and]
  exact ⟨by decide, by decide, fun _ h => nomatch h⟩

/-- The words that are pushed, from the stack pointer on. -/
theorem elfWords_reverse (t : ExecTask) :
    ∃ pads, (elfWords cred img t).reverse = t.argv.length :: (t.argv ++ (0 ::
    (t.envp ++ (0 :: (flatPairs (auxv cred img) ++ (0 :: 0 :: pads)))))) ∧
      pads.length = if alignCheck t % 16 ≠ 0 then 1 else 0 := by
  refine ⟨(if alignCheck t % 16 ≠ 0 then [0] else []).reverse, ?_, ?_⟩
  · simp only [elfWords, reverse_append, reverse_reverse, auxPushes_reverse, append_assoc,
      reverse_cons, reverse_nil, cons_append, nil_append]
  · split <;> rfl

theorem elfWords_length (t : ExecTask) : (elfWords cred img t).length =
    t.argv.length + t.envp.length + 25 + if alignCheck t % 16 ≠ 0 then 1 else 0 := by
  obtain ⟨pads, hrev, hpads⟩ := elfWords_reverse cred img t
  have haux : (flatPairs (auxv cred img)).length = 20 := rfl
  rw [← length_reverse, hrev]
  simp only [length_cons, length_append, haux]
  omega

theorem elfWords_lt {t : ExecTask} (hargc : t.argv.length < 2 ^ 64)
    (hargv : ∀ p ∈ t.argv, p < 2 ^ 64) (henvp : ∀ p ∈ t.envp, p < 2 ^ 64) :
    ∀ w ∈ elfWords cred img t, w < 2 ^ 64 := by
  intro w hw
  simp only [elfWords, mem_append, mem_reverse, mem_singleton] at hw
  rcases hw with hw | hw | rfl | hw | rfl | hw | rfl
  · split at hw
    · rw [mem_singleton.1 hw]
      decide
    · cases hw
  · exact auxPushes_lt cred img w hw
  · decide
  · exact henvp w hw
  · decide
  · exact hargv w hw
  · exact hargc

/-- **A program finds its arguments, its environment and the auxiliary vector**, and its stack
pointer is aligned. What is pushed is below the strings. -/
theorem decode_elfExec (mem : Nat → BitVec 8) {argv envp : List CString} (hargc : argv.length ≤ 128)
    (henvc : envp.length ≤ 128) (hsize : totalSize argv + totalSize envp ≤ 4096) :
    let t := taskCopyArgs k mem argv envp
    let t' := elfExec k cred img t
    decode (k.user t'.mem) t'.rsp =
        some ⟨argv.length, argv.map CString.bytes, envp.map CString.bytes, auxv cred img⟩ ∧
      t'.rsp % 16 = 0 ∧ t'.rsp ≤ t.rsp ∧
      List.Forall₂ (StringAt k t'.mem t.rsp) t.argv argv ∧
      List.Forall₂ (StringAt k t'.mem t.rsp) t.envp envp ∧
      Same (k.user t.mem) (k.user t'.mem) (k.top - t.rsp) t.rsp := by
  intro t t'
  obtain ⟨hmod, htop, hlow, hargs, henvs⟩ := @taskCopyArgs_spec k mem argv envp hsize
  change t.rsp % 16 = 0 at hmod
  change k.top ≤ t.rsp + 4111 at hlow
  change Forall₂ (StringAt k t.mem t.rsp) t.argv argv at hargs
  change Forall₂ (StringAt k t.mem t.rsp) t.envp envp at henvs
  have hk := k.size_le
  have hk' := k.top_lt
  rw [userStackSize] at hk
  have hargl := hargs.length_eq
  have henvl := henvs.length_eq
  -- every pointer is an address of the stack, and neither null nor too large
  have hptr : ∀ {ptrs ss}, Forall₂ (StringAt k t.mem t.rsp) ptrs ss → ∀ p ∈ ptrs, p ≠ 0 ∧
      p < 2 ^ 64 := by
    intro ptrs ss h
    refine ((forall₂_and_left ptrs ss).1 (h.imp fun p s hs => ⟨?_, hs⟩)).1
    have hend := hs.2.1
    have hle := hs.1
    exact ⟨by omega, by omega⟩
  have hlen := elfWords_length cred img t
  have hcheck : alignCheck t =
      t.rsp - 11 * 2 * 8 - (t.envp.length + 1) * 8 - (t.argv.length + 1) * 8 - 8 := rfl
  have hpad : (if alignCheck t % 16 ≠ 0 then 1 else 0) ≤ 1 := by split <;> omega
  obtain ⟨hrsp, hwords, hsame⟩ :=
    @ExecTask.pushAll_spec k t (elfWords cred img t) (by rw [userStackSize]; omega) htop
    (elfWords_lt cred img (by omega) (fun p hp => (hptr hargs p hp).2) fun p hp =>
    (hptr henvs p hp).2)
  rw [← elfExec_eq cred img] at hrsp hwords hsame
  change t'.rsp = _ at hrsp
  have hargs' := hargs.imp fun p s h => h.mono le_rfl hsame
  have henvs' := henvs.imp fun p s h => h.mono le_rfl hsame
  refine ⟨?_, ?_, by omega, hargs', henvs', hsame⟩
  · obtain ⟨pads, hrev, -⟩ := elfWords_reverse cred img t
    rw [← hrsp, hrev] at hwords
    have hread : ∀ p s, StringAt k t'.mem t.rsp p s → Readable (k.user t'.mem) p s := by
      rintro p s ⟨hle, hend, htext⟩
      refine ⟨htext, ?_⟩
      rw [userStackSize]
      omega
    have hauxc : (auxv cred img).length < userStackSize := show 10 < 0x8000 by decide
    exact decode_eq hwords (hargs'.imp hread) (henvs'.imp hread) (fun p hp => (hptr henvs p hp).1)
      (auxv_fst_ne_zero cred img) (by rw [userStackSize]; omega) hauxc
  · split at hlen <;> omega

end Start

/-- The stack that `user_stack_init` maps into an empty address space, in frames that are the pages
themselves. -/
def initStack : UserStack where
  top := (alignDown (vmUserspaceEnd - BitVec.ofNat 64 userStackSize - 0x1000)).toNat + userStackSize
  frame := id
  top_mod := by decide
  size_le := by decide
  top_lt := by decide
  frame_inj := injective_id.injOn

/-- A program with two arguments, `a` and `bc`, and `d` in its environment. -/
theorem decode_elfExec_init :
    let t := elfExec initStack ⟨1, 2, 3, 4⟩ {}
      (taskCopyArgs initStack (fun _ => 0) [⟨[97], by decide⟩, ⟨[98, 99], by decide⟩]
      [⟨[100], by decide⟩])
    decode (initStack.user t.mem) t.rsp = some ⟨2, [[97], [98, 99]], [[100]],
    auxv ⟨1, 2, 3, 4⟩ {}⟩ ∧
      t.rsp % 16 = 0 := by
  obtain ⟨hdecode, hmod, -⟩ := @decode_elfExec initStack ⟨1, 2, 3, 4⟩ {} (fun _ => 0)
    [⟨[97], by decide⟩, ⟨[98, 99], by decide⟩] [⟨[100], by decide⟩] (by decide) (by decide)
    (by decide)
  exact ⟨hdecode, hmod⟩

end Monolith.Proc
