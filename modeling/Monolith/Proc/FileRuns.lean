import Monolith.Fs.NamesRun
import Monolith.Proc.Account

/-!
# Open files over time

Runs of the calls of `Monolith.Proc.Calls`, by any tasks in any order, from a system on in which no
file is open.

* `Account strict s`: every reference that a task holds is counted in its slot, and every slot in
  use leads to a node and an entry that are there.  `Account.act` is the step: an act that is `Fair`
  keeps that, and follows no pointer to freed memory.
* `descriptors_counted` is about runs in which the references are counted exactly: there is a slot
  for every file that is opened, and a place for every segment that is loaded.
* `files_not_dangling` is about runs with mappings and removals: what is removed is in nobody's
  hands.
-/

namespace Monolith.Proc

open Fallible Transition Fs Mm Count List Option Vfs Except

/-! ## Holders -/

namespace System

variable (s : System)

def total (f : Task → Nat) : Nat := (s.tasks.map fun t => t.elim 0 f).sum

/-- The references of all tasks to a slot. -/
def holds (fd : Fin 64) : Nat := s.total fun t => t.holds fd

/-- The entries of live tasks that name the slot. -/
def named (fd : Fin 64) :
    Nat := s.total fun t => (List.finRange 32).countP fun i => t.openFiles i = .slot fd

/-- The references that the kernel holds for the tasks: the loader's, and those of mappings. -/
def inKernel (fd : Fin 64) : Nat := s.total fun t => t.opens.count fd + t.objects.countP fun o =>
    fileOf o = some fd

end System

section Total

variable {s : System} {i : Nat} {t : Task} {f : Task → Nat}

theorem task_eq_some : s.task i = some t ↔ s.tasks[i]? = some (some t) := by
  rw [System.task, join_eq_some_iff]

theorem total_put (ht : s.task i = some t) (t' : Option Task) (v : Vfs) :
    (s.put i t' v).total f + f t = s.total f + t'.elim 0 f :=
  sum_map_set (task_eq_some.1 ht) (fun t => t.elim 0 f) t'

theorem task_le_total (ht : s.task i = some t) : f t ≤ s.total f := by
  have h := total_put (f := f) ht none s.vfs
  have h0 : (none : Option Task).elim 0 f = 0 := rfl
  omega

theorem total_append (t : Task) (v : Vfs) :
    System.total { s with vfs := v, tasks := s.tasks ++ [some t] } f = s.total f + f t := by
  simp [System.total, map_append, sum_append]

theorem total_eq_zero (h : ∀ i t, s.task i = some t → f t = 0) : s.total f = 0 := by
  refine sum_eq_zero fun x hx => ?_
  obtain ⟨t, ht, rfl⟩ := mem_map.1 hx
  rcases t with _ | t
  · rfl
  obtain ⟨i, hi⟩ := mem_iff_getElem?.1 ht
  exact h i t (task_eq_some.2 hi)

theorem holds_eq (s : System) (fd : Fin 64) : s.holds fd = s.named fd + s.inKernel fd := by
  rw [System.holds, System.named, System.inKernel, System.total, System.total, System.total,
    ← sum_map_add]
  refine congrArg sum (map_congr_left fun t _ => ?_)
  cases t with
  | none => rfl
  | some t => exact add_assoc ..

theorem task_put (v : Vfs) (t' : Option Task) {j : Nat} {u : Task}
    (h : (s.put i t' v).task j = some u) : t' = some u ∨ s.task j = some u := by
  rw [task_eq_some] at h
  change (s.tasks.set i t')[j]? = some (some u) at h
  rw [getElem?_set] at h
  split at h
  · split at h
    · exact .inl (some_inj.1 h)
    · cases h
  · exact .inr (task_eq_some.2 h)

theorem put_self (ht : s.task i = some t) (v : Vfs) : s.put i (some t) v = { s with vfs := v } := by
  obtain ⟨hi, h⟩ := List.getElem?_eq_some_iff.1 (task_eq_some.1 ht)
  rw [System.put, ← h, set_getElem_self]

end Total

/-! ## The account -/

/-- Every reference that a task holds is counted, and nothing that is in use is freed. -/
structure Account (strict : Bool) (s : System) : Prop where
  heap : HeapOk s.vfs
  files : FilesOk strict s.vfs
  procfs : Linked s.vfs s.procfs
  cwd : ∀ i t, s.task i = some t → Linked s.vfs t.cwd
  held : ∀ fd, Covers strict (s.vfs.rc fd) (s.holds fd)

/-- A system with a file system in order, in which no file is open. -/
structure Started (s : System) : Prop where
  heap : HeapOk s.vfs
  entries : EntriesOk true s.vfs
  idle : ∀ fd, (s.vfs.openFiles fd).refcount = 0 ∧ (s.vfs.openFiles fd).inode = 0
  refs : ∀ a n, s.vfs.vnodes a = some n → n.ref = 0
  sockets : ∀ sock, s.vfs.sockets sock = false
  procfs : Linked s.vfs s.procfs
  cwd : ∀ i t, s.task i = some t → Linked s.vfs t.cwd
  held : ∀ i t, s.task i = some t → ∀ fd, t.holds fd = 0

variable {s t : System} {w : Vfs} {d : Addr} {strict : Bool} {a : Act} {new proc : Fresh}
  {chardevs blockdevs : BitVec 64 → Bool} {k : Kernel}

theorem Started.account (S : Started s) (strict : Bool) : Account strict s := by
  have hunused a : usedBy s.vfs a = 0 := by
    rcases Nat.eq_zero_or_pos (usedBy s.vfs a) with h | h
    · exact h
    · obtain ⟨fd, hfd, -⟩ := exists_of_usedBy h
      exact absurd (S.idle fd).1 hfd
  refine ⟨S.heap,
    ⟨⟨fun fd hfd => absurd (S.idle fd).1 hfd, fun fd _ => (S.idle fd).2, fun a n hn => ?_,
    fun i _ _ _ hi => absurd (S.idle i).1 hi, fun a e n he hn => ?_⟩, fun _ sock hsock => ?_⟩,
    S.procfs, S.cwd, fun fd => ?_⟩
  · rw [S.refs a n hn, hunused]
    exact covers_refl strict 0
  · obtain ⟨hmode, hlinks⟩ := S.entries a e n he hn
    exact ⟨hmode, fun _ => hlinks rfl⟩
  · simp [S.sockets] at hsock
  · rw [Vfs.rc, (S.idle fd).1, System.holds, total_eq_zero fun i t ht => S.held i t ht fd]
    exact covers_refl strict 0

section Account

variable {strict : Bool} {s : System} {i : Nat} {t : Task} {x : Except VfsFault System}
  (A : Account strict s)

include A

namespace Account

theorem ready (ht : s.task i = some t) : Ready strict s.vfs t :=
  ⟨A.heap, A.files, A.cwd i t ht, fun fd => le_trans (task_le_total (f := fun t => t.holds fd) ht)
    (A.held fd).1⟩

theorem put {r : Task × Vfs} (ht : s.task i = some t) (S : Settles strict s.vfs t r) :
    Account strict (s.put i (some r.1) r.2) := by
  obtain ⟨loss, gain, K, hcwd, hcovers⟩ := S
  refine ⟨K.heap, K.files, K.linked _ A.procfs, fun j u hu => ?_, fun fd => ?_⟩
  · rcases task_put _ _ hu with h | h
    · exact some_inj.1 h ▸ hcwd
    · exact K.linked _ (A.cwd j u h)
  have hrc := K.rc fd
  have htotal := total_put (f := fun t => t.holds fd) ht (some r.1) r.2
  change (s.put i (some r.1) r.2).holds fd + t.holds fd = s.holds fd + r.1.holds fd at htotal
  obtain ⟨hle, heq⟩ := hcovers fd
  obtain ⟨hle', heq'⟩ := A.held fd
  refine ⟨?_, fun hs => ?_⟩
  · show _ ≤ r.2.rc fd
    omega
  have := heq hs
  have := heq' hs
  show r.2.rc fd = _
  omega

/-- **The rule of a call.** -/
theorem call {f : Vfs → Task → Except VfsFault (Task × Vfs)}
    (hf : ∀ t, s.task i = some t → Meets IsFreed (f s.vfs t) (Settles strict s.vfs t))
    (h : s.call i f = some x) : Meets IsFreed x (Account strict) := by
  obtain ⟨t, ht, rfl⟩ := map_eq_some_iff.1 h
  exact (hf t ht).map fun r S => A.put ht S

theorem exited (ht : s.task i = some t) (K : Kept strict s.vfs w t.holds 0) :
    Account strict (s.put i none w) := by
  refine ⟨K.heap, K.files, K.linked _ A.procfs, fun j u hu => ?_, fun fd => ?_⟩
  · exact K.linked _ (A.cwd j u ((task_put _ _ hu).resolve_left nofun))
  have hrc := K.rc fd
  have htotal := total_put (f := fun t => t.holds fd) ht none w
  change (s.put i none w).holds fd + t.holds fd = s.holds fd + 0 at htotal
  have hzero : (0 : Fin 64 → Nat) fd = 0 := rfl
  obtain ⟨hle, heq⟩ := A.held fd
  refine ⟨?_, fun hs => ?_⟩
  · show _ ≤ w.rc fd
    omega
  · have := heq hs
    show w.rc fd = _
    omega

theorem spawned {child : Task} (K : Kept strict s.vfs w 0 child.holds) (hcwd : Linked w child.cwd) :
    Account strict { s with vfs := w, tasks := s.tasks ++ [some child] } := by
  refine ⟨K.heap, K.files, K.linked _ A.procfs, fun j u hu => ?_, fun fd => ?_⟩
  · rw [task_eq_some] at hu
    rcases mem_append.1 (mem_of_getElem? hu) with h | h
    · obtain ⟨k, hk⟩ := mem_iff_getElem?.1 h
      exact K.linked _ (A.cwd k u (task_eq_some.2 hk))
    · obtain rfl := some_inj.1 (mem_singleton.1 h)
      exact hcwd
  · have hrc := K.rc fd
    have htotal := total_append (s := s) (f := fun t => t.holds fd) child w
    have hzero : (0 : Fin 64 → Nat) fd = 0 := rfl
    obtain ⟨hle, heq⟩ := A.held fd
    rw [System.holds]
    change s.total (fun t => t.holds fd) ≤ _ at hle
    refine ⟨?_, fun hs => ?_⟩
    · dsimp only
      omega
    have heq := heq hs
    change _ = s.total (fun t => t.holds fd) at heq
    dsimp only
    omega

theorem kept (K : Kept strict s.vfs w 0 0) : Account strict { s with vfs := w } := by
  refine ⟨K.heap, K.files, K.linked _ A.procfs, fun i t ht => K.linked _ (A.cwd i t ht),
    fun fd => ?_⟩
  have hrc : w.rc fd = s.vfs.rc fd := K.rc fd
  simp only [hrc]
  exact A.held fd

end Account

end Account

theorem Account.removed (A : Account false s) (R : Removed s.vfs w d)
    (hprocfs : s.procfs ≠ d) (hcwd : ∀ i t, s.task i = some t → t.cwd ≠ d) :
    Account false { s with vfs := w } :=
  ⟨R.heap, R.files, R.linked _ hprocfs A.procfs, fun i t ht => R.linked _ (hcwd i t ht)
    (A.cwd i t ht), fun fd => by
    show Covers false (w.rc fd) (s.holds fd)
    rw [R.rc]
    exact A.held fd⟩

/-! ## One step -/

/-- Another reference to each slot can be counted for each of the 32 entries of a task. -/
def CountRoom (v : Vfs) : Prop := ∀ fd, v.rc fd + 32 < 2 ^ 32

instance (v : Vfs) : Decidable (CountRoom v) := inferInstanceAs (Decidable (∀ _, _))

/-- Another link to each node can be counted. -/
def LinkRoom (v : Vfs) : Prop := ∀ a n, v.vnodes a = some n → n.nlink + 1 ≠ 0

/-- The entry is in nobody's hands: nothing leads to it but its directory. -/
structure Unheld (s : System) (d : Addr) : Prop extends Removable s.vfs d where
  procfs : s.procfs ≠ d
  cwd : ∀ i t, s.task i = some t → t.cwd ≠ d

/-- `vm_space_map` finds a place for the segment. -/
def Placed (t : Task) (fd : Fin 64) (seg : Segment) (node : FileNode) : Prop :=
  (mapList vmUserspaceBase vmUserspaceEnd t.objects (seg.fileInfo fd)
    (mapObject ⟨0, fun _ => node⟩ (seg.fileInfo fd)
    (mapBase vmUserspaceBase t.objects (seg.fileInfo fd)))).isSome

/-- What an act needs for its references to be counted, exactly or at least well enough. -/
def Act.Fair (strict : Bool) (s : System) : Act → Prop
  | .open .. | .openat .. | .loaderOpen .. => CanOpen strict s.vfs
  | .socket .. => freeSlot s.vfs ≠ none
  | .dup .. => CountRoom s.vfs
  | .spawn .. => CountRoom s.vfs ∧ LinkRoom s.vfs
  | .loaderMap i fd seg node => CountRoom s.vfs ∧
    (strict = true → ∀ t, s.task i = some t → Placed t fd seg node)
  | .mmap .. => strict = false ∧ CountRoom s.vfs
  | .unlink i path => strict = false ∧ ∀ t d u, s.task i = some t →
      vfsLookup s.vfs t.cwd path false = .ok (.ok d, u) → Unheld s d
  | .procfsRemove path => strict = false ∧ ∀ d u, vfsLookupAt s.vfs s.procfs path false =
    .ok (.ok d, u) →
      Unheld s d ∧ ∀ e p n, s.vfs.ventries d = some e → s.vfs.ventries e.parent = some p →
        s.vfs.vnodes p.node = some n → 0 < usedBy s.vfs p.node → n.nlink ≠ 1
  | _ => True

/-- **One act** keeps the account, and follows no pointer to freed memory. -/
theorem Account.act {x : Except VfsFault System} (A : Account strict s)
    (hfair : a.Fair strict s) (h : s.act a = some x) : Meets IsFreed x (Account strict) := by
  cases a with try rw [System.act] at h
  | «open» i path creat new device =>
    refine A.call (fun t ht => ?_) h
    have hopen :=
      fun hnew : creat = true → new.Ok s.vfs => (A.ready ht).sysOpen path creat hnew device hfair
    by_cases hcreat : creat = true
    · by_cases hnew : new.Ok s.vfs
      · rw [if_pos hcreat, kmallocFresh, if_pos hnew]
        exact hopen fun _ => hnew
      · rw [if_pos hcreat, kmallocFresh, if_neg hnew]
        exact meets_error.2 id
    · rw [if_neg hcreat]
      exact hopen fun h => absurd h hcreat
  | openat i fd path device =>
    exact A.call (fun t ht => (A.ready ht).sysOpenat fd path device hfair) h
  | socket i created new =>
    obtain ⟨hnew, h⟩ := ite_none_right_eq_some.1 h
    exact A.call (fun t ht => (A.ready ht).sysSocket created hnew hfair) h
  | dup i fd => exact A.call (fun t ht => (A.ready ht).sysDup fd hfair) h
  | close i fd => exact A.call (fun t ht => (A.ready ht).sysClose fd) h
  | spawn i new =>
    obtain ⟨t, ht, rfl⟩ := map_eq_some_iff.1 h
    refine ((A.ready ht).sysSpawn A.procfs _ new hfair.2 hfair.1).bind ?_
    rintro ⟨child, w⟩ ⟨K, hcwd⟩
    exact meets_ok.2 (A.spawned K hcwd)
  | exit i =>
    obtain ⟨t, ht, h⟩ := bind_eq_some_iff.1 h
    split at h
    · cases h
    rename_i hexit
    cases h
    have hopens : t.opens = [] := not_not.1 (not_or.1 hexit).2
    exact ((A.ready ht).taskZombify hopens).map fun w K => A.exited ht K
  | loaderOpen i path device =>
    exact A.call (fun t ht => (A.ready ht).loaderOpen path device hfair) h
  | loaderMap i fd seg node =>
    obtain ⟨t, ht, h⟩ := bind_eq_some_iff.1 h
    obtain ⟨hfd, h⟩ := ite_none_right_eq_some.1 h
    refine A.call (fun u hu => ?_) h
    obtain rfl := some_inj.1 (ht.symm.trans hu)
    exact (A.ready ht).loaderMap hfd seg node hfair.1 fun hs => hfair.2 hs t ht
  | loaderZero i seg => exact A.call (fun t ht => meets_ok.2 ((A.ready ht).loaderZero seg)) h
  | loaderClose i fd =>
    obtain ⟨t, ht, h⟩ := bind_eq_some_iff.1 h
    obtain ⟨hfd, h⟩ := ite_none_right_eq_some.1 h
    refine A.call (fun u hu => ?_) h
    obtain rfl := some_inj.1 (ht.symm.trans hu)
    exact (A.ready ht).loaderClose hfd
  | chdir i path => exact A.call (fun t ht => (A.ready ht).sysChdir path) h
  | mmap i args node =>
    split at h
    · exact A.call (fun t ht => (A.ready ht).sysMmap hfair.1 node hfair.2) h
    · cases h
  | munmap i addr size => exact A.call (fun t ht => (A.ready ht).sysMunmap addr size) h
  | getdents i fd buffer length disk =>
    exact A.call (fun t ht => (A.ready ht).sysGetdents fd buffer length disk) h
  | unlink i path =>
    obtain ⟨rfl, hheld⟩ := hfair
    obtain ⟨t, ht, rfl⟩ := map_eq_some_iff.1 h
    have R := A.ready ht
    refine Meets.map (Q := fun r => r.1 = t ∧ Account false { s with vfs := r.2 }) ?_ fun r hr => ?_
    · refine (A.files.vfsUnlink A.heap (.inr R.cwd.live) path fun d u hd =>
        (hheld t d u ht hd).toRemovable).bind ?_
      rintro ⟨r, w⟩ (K | ⟨d, u, hd, hw⟩)
      · exact meets_ok.2 ⟨rfl, A.kept K⟩
      · have U := hheld t d u ht hd
        exact meets_ok.2 ⟨rfl, A.removed hw U.procfs U.cwd⟩
    · rw [hr.1, put_self ht]
      exact hr.2
  | procfsRemove path =>
    obtain ⟨rfl, hheld⟩ := hfair
    cases h
    refine (A.files.procfsRemove A.heap (.inr A.procfs.live) path fun d u hd => ?_).map ?_
    · exact ⟨(hheld d u hd).1.toRemovable, (hheld d u hd).2⟩
    rintro w (K | ⟨d, u, hd, hw⟩)
    · exact A.kept K
    · exact A.removed hw (hheld d u hd).1.procfs (hheld d u hd).1.cwd

theorem step_eq_some : s.step a = some t ↔ s.act a = some (.ok t) := by
  rw [System.step, bind_eq_some_iff]
  constructor
  · rintro ⟨x, hx, h⟩
    rw [hx, toOption_eq_some.1 h]
  · intro h
    exact ⟨_, h, rfl⟩

theorem Account.step (A : Account strict s) (hfair : a.Fair strict s) (h : s.step a = some t) :
    Account strict t :=
  (A.act hfair (step_eq_some.1 h)).2 t rfl

/-! ## The start -/

/-- The first task, in a kernel that has just started. -/
def firstTask (k : Kernel) : System :=
  ⟨k.vfs, k.procfs,
    [some { openFiles := fun _ => .closed, cwd := k.vfs.rootNode, objects := [], opens := [] }]⟩

/-- What a kernel that has just started has: no open files, and nodes that nothing refers to. -/
theorem boot_nodes (h : boot new proc chardevs blockdevs = some k) :
    (∀ fd, k.vfs.openFiles fd = ⟨0, 0, 0, 0, 0⟩) ∧ (∀ sock, k.vfs.sockets sock = false) ∧
    ∀ a n, k.vfs.vnodes a = some n → n.ref = 0 ∧ n.nlink = 1 ∧ sIssock n.mode = false := by
  obtain ⟨-, v, hv, rfl⟩ := ite_map_toOption_eq_some.1 h
  simp only [newRoot, vnodeNew, ventryNew, bind_eq_ok, vnode_eq_ok, vnodes_set_self, some_inj,
    ok.injEq] at hv
  obtain ⟨_, ⟨-, rfl⟩, _, ⟨-, rfl⟩, rfl⟩ := hv
  refine ⟨fun _ => rfl, fun _ => rfl, fun a n hn => ?_⟩
  rcases eq_or_ne a proc.inode with rfl | hproc
  · obtain rfl := some_inj.1 ((vnodes_set_self ..).symm.trans hn)
    exact ⟨rfl, rfl, (by decide : sIssock (sIfdir ||| 0o755) = false)⟩
  have hinit := (((vnodes_set_ne _ _ hproc).trans (vnodes_set_ne _ _ hproc)).trans
    (vnodes_set_ne _ _ hproc)).symm.trans hn
  rw [vfsInit] at hinit
  dsimp only at hinit
  by_cases hroot : a = new.inode
  · rw [hroot, Function.update_self, some_inj] at hinit
    rw [← hinit]
    exact ⟨rfl, rfl, (by decide : sIssock (sIfdir ||| 0o777) = false)⟩
  · simp [Function.update_of_ne hroot] at hinit

theorem started_boot (h : boot new proc chardevs blockdevs = some k) : Started (firstTask k) := by
  obtain ⟨hfiles, hsockets, hnodes⟩ := boot_nodes h
  have K := kernelOk_boot h
  have hfirst i t (ht : (firstTask k).task i = some t) :
      t = { openFiles := fun _ => .closed, cwd := k.vfs.rootNode, objects := [], opens := [] } := by
    exact (some_inj.1 (mem_singleton.1 (mem_of_getElem? (task_eq_some.1 ht))))
  refine ⟨K.names.toHeapOk, fun a e n _ hn => ?_, fun fd => ?_, fun a n hn => (hnodes a n hn).1,
    hsockets, ?_, fun i t ht => ?_, fun i t ht fd => ?_⟩
  · obtain ⟨-, hlink, hmode⟩ := hnodes _ n hn
    exact ⟨hmode, fun _ => hlink ▸ by decide⟩
  · change (k.vfs.openFiles fd).refcount = 0 ∧ (k.vfs.openFiles fd).inode = 0
    rw [hfiles]
    exact ⟨rfl, rfl⟩
  · obtain ⟨e, he⟩ := K.root.1
    exact ⟨e, he, K.names.linked _ e he⟩
  · rw [hfirst i t ht]
    exact K.names.root
  · rw [hfirst i t ht]
    simp [Task.holds]

def openRoot (i : Nat) : Act := .open i ⟨0x400000, [slash]⟩ false ⟨0, 0⟩ (.ok ())

/-- `open("x", O_CREAT)`, for the entry at 0x12000. -/
def createX (i : Nat) : Act := .open i ⟨0x400000, [0x78]⟩ true ⟨0x11000, 0x12000⟩ (.ok ())

/-- `spawn`, of the tasks with the numbers 2 and 3 -/
def spawnTwo : Act := .spawn 0 ⟨⟨0x5000, 0x6000⟩, ⟨0x7000, 0x8000⟩, ⟨0x9000, 0xa000⟩⟩

def spawnThree : Act := .spawn 0 ⟨⟨0xb000, 0xc000⟩, ⟨0xd000, 0xe000⟩, ⟨0xf000, 0x10000⟩⟩

def createSocket (i : Nat) : Act := .socket i (.ok ()) ⟨0x13000, 0x14000⟩

/-! ## Exact accounts -/

/-- What keeps the account exact: a file that is opened finds a slot, the counters have room, and
the segments of a program find their places.  Mappings of `mmap` and removals are left out. -/
def Act.Counted (s : System) : Act → Prop
  | .open .. | .openat .. | .socket .. | .loaderOpen .. => freeSlot s.vfs ≠ none
  | .dup .. => CountRoom s.vfs
  | .spawn .. => CountRoom s.vfs ∧ LinkRoom s.vfs
  | .loaderMap i fd seg node => CountRoom s.vfs ∧ ∀ t, s.task i = some t → Placed t fd seg node
  | .mmap .. | .unlink .. | .procfsRemove .. => False
  | _ => True

theorem Act.Counted.fair (A : Account true s) (h : a.Counted s) : a.Fair true s := by
  cases a with
  | «open» | openat | loaderOpen => exact .of_strict A.files h
  | loaderMap i fd seg node => exact ⟨h.1, fun _ => h.2⟩
  | socket | dup | spawn => exact h
  | mmap | unlink | procfsRemove => exact h.elim
  | close | exit | loaderZero | loaderClose | chdir | munmap | getdents => trivial

/-- **Open files are counted exactly**: the count of a slot is the number of entries of live tasks
that name it, and of the kernel's own references; a slot has a node as long as it counts something;
the references to a node are those of the slots that are open on it, and a socket is there as long
as a slot is open on it.  So what an open takes is given back once, by the last close. -/
theorem descriptors_counted {s₀ s : System} {as : List Act} (S : Started s₀)
    (hcounted : Along System.step (fun s a => a.Counted s) s₀ as)
    (hrun : run System.step s₀ as = some s) : (∀ fd, s.vfs.rc fd = s.named fd + s.inKernel fd) ∧
    (∀ fd, (s.vfs.openFiles fd).inode ≠ 0 ↔ 0 < s.vfs.rc fd) ∧
    (∀ fd, 0 < s.vfs.rc fd → ∃ n, s.vfs.vnodes (s.vfs.openFiles fd).inode = some n) ∧
    (∀ a n, s.vfs.vnodes a = some n → n.ref.toNat = usedBy s.vfs a) ∧
    (∀ sock, s.vfs.sockets sock = true ↔ SocketOpen s.vfs sock) ∧
    ∀ a x, a.Counted s → s.act a = some x → Avoids IsFreed x := by
  have A : Account true s :=
    run_induction (I := Account true) (fun s a t A hC h => A.step (hC.fair A) h)
    (S.account true) hcounted hrun
  have F := A.files
  refine ⟨fun fd => ?_, fun fd => ?_, fun fd hfd => ?_, fun a n hn => (F.refs a n hn).2 rfl,
    fun sock => ⟨F.shut rfl sock, ?_⟩, fun a x hC hx => (A.act (hC.fair A) hx).1⟩
  · rw [← holds_eq]
    exact (A.held fd).2 rfl
  · rw [ne_eq, F.inode_eq_zero_iff, Nat.pos_iff_ne_zero, ← BitVec.toNat_inj]
    rfl
  · obtain ⟨-, n, hn, -⟩ := F.slot fd (refcount_ne_zero hfd)
    exact ⟨n, hn⟩
  · rintro ⟨fd, n, hfd, hn, hmode, rfl⟩
    obtain ⟨-, m, hm, O | O⟩ := F.slot fd hfd
    · rw [some_inj.1 (hn.symm.trans hm)]
      exact O.socket
    · simp [some_inj.1 (hn.symm.trans hm), O.mode] at hmode

section

-- the state that is found goes through many existential quantifiers
set_option synthInstance.maxSize 1024

theorem descriptors_counted_exit : ∃ k s, smallBoot = some k ∧
    run System.step (firstTask k) [spawnTwo, createX 1, .dup 1 0, createSocket 0, .exit 1] =
    some s ∧ s.vfs.rc 0 = 0 ∧ s.vfs.rc 1 = 1 ∧ s.named 1 + s.inKernel 1 = 1 ∧
    (s.vfs.sockets 0x13000 = true ↔ SocketOpen s.vfs 0x13000) := by
  obtain ⟨k, hk, hroom, s₁, h₁, hslot, s₂, h₂, hroom', s₃, h₃, hslot', s₄, h₄, s, h₅, hzero, hone⟩ :
      ∃ k, smallBoot = some k ∧ CountRoom k.vfs ∧ ∃ s₁, (firstTask k).step spawnTwo = some s₁ ∧
        freeSlot s₁.vfs ≠ none ∧ ∃ s₂, s₁.step (createX 1) = some s₂ ∧
        CountRoom s₂.vfs ∧ ∃ s₃, s₂.step (.dup 1 0) = some s₃ ∧
        freeSlot s₃.vfs ≠ none ∧ ∃ s₄, s₃.step (createSocket 0) = some s₄ ∧
        ∃ s, s₄.step (.exit 1) = some s ∧
          s.vfs.rc 0 = 0 ∧ s.vfs.rc 1 = 1 := by
    decide +kernel
  have hlinks : LinkRoom k.vfs := by
    intro a n hn
    rw [((boot_nodes hk).2.2 a n hn).2.1]
    decide
  have hcounted : Along System.step (fun s a => a.Counted s) (firstTask k)
      [spawnTwo, createX 1, .dup 1 0, createSocket 0, .exit 1] :=
    .cons h₁ ⟨hroom, hlinks⟩
    (.cons h₂ hslot (.cons h₃ hroom' (.cons h₄ hslot' (.cons h₅ trivial trivial))))
  have hrun : run System.step (firstTask k) [spawnTwo, createX 1, .dup 1 0, createSocket 0,
      .exit 1] = some s := by
    simp [run, h₁, h₂, h₃, h₄, h₅]
  obtain ⟨hcount, -, -, -, hsockets, -⟩ := descriptors_counted (started_boot hk) hcounted hrun
  exact ⟨k, s, hk, hrun, hzero, hone, hone ▸ (hcount 1).symm, hsockets 0x13000⟩

end

/-- 64 times `/`, and once more: the last `open` finds no slot.  When everything is closed the root
still has the reference that this one took. -/
theorem reference_not_released : ∃ k s n, smallBoot = some k ∧
    run System.step (firstTask k) ([spawnTwo, spawnThree] ++ List.replicate 32 (openRoot 0) ++
      List.replicate 32 (openRoot 1) ++ [openRoot 2] ++ (List.finRange 32).map (.close 0) ++
      [.exit 1, .exit 2]) = some s ∧
    (∀ fd, s.vfs.rc fd = 0) ∧ s.vfs.vnodes 0x1000 = some n ∧ n.ref = 1 ∧
    usedBy s.vfs 0x1000 = 0 := by
  simp only [exists_and_left]
  decide +kernel

/-! ## Removals -/

/-- **No file dangles** where nothing is removed that is in somebody's hands: a slot in use leads to
a node and an entry that are there, the directories of the tasks are there, and no act follows a
pointer to freed memory or frees it again. -/
theorem files_not_dangling {s₀ s : System} {as : List Act} (S : Started s₀)
    (hfair : Along System.step (fun s a => a.Fair false s) s₀ as)
    (hrun : run System.step s₀ as = some s) :
    (∀ fd, 0 < s.vfs.rc fd → ∃ n, s.vfs.vnodes (s.vfs.openFiles fd).inode = some n ∧
      (Live s.vfs (s.vfs.openFiles fd).path ∨ sIssock n.mode = true ∧
      (s.vfs.openFiles fd).path = 0)) ∧
    (∀ i t, s.task i = some t → Live s.vfs t.cwd) ∧ ∀ a x, a.Fair false s → s.act a = some x →
    Avoids IsFreed x := by
  have A : Account false s := run_induction (I := Account false) (fun s a t A hC h => A.step hC h)
    (S.account false) hfair hrun
  refine ⟨fun fd hfd => ?_, fun i t ht => (A.cwd i t ht).live, fun a x hC hx => (A.act hC hx).1⟩
  obtain ⟨-, n, hn, O | O⟩ := A.files.slot fd (refcount_ne_zero hfd)
  · exact ⟨n, hn, .inr ⟨O.mode, O.path⟩⟩
  · obtain ⟨e, he, -⟩ := O.path
    exact ⟨n, hn, .inl ⟨e, he⟩⟩

theorem unheld_of_names (N : NamesOk s.vfs) {e : Ventry} (he : s.vfs.ventries d = some e)
    (hparent : e.parent ≠ 0) (hchildren : e.children = [])
    (hmount : ∀ mp ∈ s.vfs.mounts, mp.mountpoint ≠ d)
    (hunused : ∀ fd, (s.vfs.openFiles fd).refcount ≠ 0 → (s.vfs.openFiles fd).path ≠ d)
    (hprocfs : s.procfs ≠ d) (hcwd : ∀ i t, s.task i = some t → t.cwd ≠ d) : Unheld s d := by
  refine ⟨⟨⟨fun f hf => ?_, fun hroot => ?_, hmount, fun a f mp hf hm hroot => ?_⟩, hunused⟩,
    hprocfs, hcwd⟩
  · rwa [← some_inj.1 (he.symm.trans hf)]
  · have htop := N.rootParent
    rw [← hroot, parentOf_eq he] at htop
    exact hparent htop
  · obtain ⟨r, hr, htop⟩ := N.mountRoot a mp ((mountOf_eq hf).trans hm)
    obtain rfl := some_inj.1 (hr.symm.trans hroot)
    rw [parentOf_eq he] at htop
    exact hparent htop

/-- A task opens the root, creates `x` and closes it again. -/
theorem names_closeX : ∃ k s, smallBoot = some k ∧
    run System.step (firstTask k) [openRoot 0, createX 0, .close 0 1] = some s ∧ NamesOk s.vfs := by
  refine ⟨_, _, rfl, rfl, (kernelOk_of_run (rfl : smallBoot = some _)
    (.cons rfl ⟨by decide +kernel, by rintro ⟨⟩⟩ (.cons rfl ⟨by decide +kernel, fun _ => ⟨?_, ?_⟩⟩
      (.cons rfl ⟨by rintro _ ⟨⟩, fun n hn hlink => ?_⟩ trivial)) : Along _ _ _
      [.open 0x2000 [slash] false ⟨0, 0⟩ (.ok ()), .open 0x2000 [0x78] true ⟨0x11000, 0x12000⟩
      (.ok ()), .close 1])
    rfl).names⟩
  · decide +kernel
  · decide +kernel
  · cases hn
    cases hlink

section

-- the state that is found goes through many existential quantifiers
set_option synthInstance.maxSize 1024

theorem files_not_dangling_unlink : ∃ k s, smallBoot = some k ∧
    run System.step (firstTask k) [openRoot 0, createX 0, .close 0 1, .unlink 0 [0x78]] = some s ∧
    s.vfs.vnodes 0x11000 = none ∧ s.vfs.rc 0 = 1 ∧ ∃ n, s.vfs.vnodes (s.vfs.openFiles 0).inode =
    some n := by
  obtain ⟨k, hk, hslot, s₁, h₁, hslot₁, s₂, h₂, s₃, h₃, htasks, hmounts, hunused, hprocfs, e, he,
      hparent, hchildren, s, h₄, hfreed, hrc⟩ :
      ∃ k, smallBoot = some k ∧ freeSlot k.vfs ≠ none ∧ ∃ s₁, (firstTask k).step (openRoot 0) =
      some s₁ ∧
        freeSlot s₁.vfs ≠ none ∧ ∃ s₂, s₁.step (createX 0) = some s₂ ∧
        ∃ s₃, s₂.step (.close 0 1) = some s₃ ∧
          (∀ t ∈ s₃.tasks, t.all fun t => t.cwd ≠ 0x12000 ∧
            (vfsLookup s₃.vfs t.cwd [0x78] false).map Prod.fst = .ok (.ok 0x12000)) ∧
          (∀ mp ∈ s₃.vfs.mounts, mp.mountpoint ≠ 0x12000) ∧
          (∀ fd, (s₃.vfs.openFiles fd).refcount ≠ 0 → (s₃.vfs.openFiles fd).path ≠ 0x12000) ∧
          s₃.procfs ≠ 0x12000 ∧ ∃ e, s₃.vfs.ventries 0x12000 = some e ∧ e.parent ≠ 0 ∧
          e.children = [] ∧ ∃ s, s₃.step (.unlink 0 [0x78]) = some s ∧ s.vfs.vnodes 0x11000 = none ∧
          s.vfs.rc 0 = 1 := by
    decide +kernel
  have A₀ := (started_boot hk).account true
  have C₀ := CanOpen.of_strict A₀.files hslot
  have C₁ := CanOpen.of_strict (A₀.step (a := openRoot 0) C₀ h₁).files hslot₁
  -- the names up to the removal
  have N₃ : NamesOk s₃.vfs := by
    obtain ⟨k', s', hk', hrun, N⟩ := names_closeX
    obtain rfl := some_inj.1 (hk.symm.trans hk')
    simp only [run, h₁, h₂, h₃, bind_some, some_inj] at hrun
    exact hrun ▸ N
  have htask₃ i t (ht : s₃.task i = some t) :
      t.cwd ≠ 0x12000 ∧ (vfsLookup s₃.vfs t.cwd [0x78] false).map Prod.fst = .ok (.ok 0x12000) := by
    exact of_decide_eq_true (htasks _ (mem_of_getElem? (task_eq_some.1 ht)))
  have U : Unheld s₃ 0x12000 :=
    unheld_of_names N₃ he hparent hchildren hmounts hunused hprocfs fun i t ht => (htask₃ i t ht).1
  have hunlink : Act.Fair false s₃ (.unlink 0 [0x78]) := by
    refine ⟨rfl, fun t d u ht hd => ?_⟩
    have hfound := (htask₃ 0 t ht).2
    rw [hd] at hfound
    exact ok.inj (ok.inj hfound) ▸ U
  have hfair : Along System.step (fun s a => a.Fair false s) (firstTask k)
      [openRoot 0, createX 0, .close 0 1, .unlink 0 [0x78]] :=
    .cons h₁ ⟨C₀.links, C₀.room, by simp⟩ (.cons h₂ ⟨C₁.links, C₁.room, by simp⟩
      (.cons h₃ trivial (.cons h₄ hunlink trivial)))
  have hrun : run System.step (firstTask k) [openRoot 0, createX 0, .close 0 1, .unlink 0 [0x78]] =
      some s := by
    simp only [run, h₁, h₂, h₃, h₄, bind_some]
  obtain ⟨n, hn, -⟩ := (files_not_dangling (started_boot hk) hfair hrun).1 0 (by omega)
  exact ⟨k, s, hk, hrun, hfreed, hrc, n, hn⟩

end

/-- A pointer to freed memory was followed. -/
def followsFreed {α : Type} : Except VfsFault α → Bool
  | .error (.freed _) => true
  | _ => false

/-- `x` is removed while it is open.  Its node is freed, and `close` uses it. -/
theorem open_file_freed : ∃ k s, smallBoot = some k ∧
    run System.step (firstTask k) [createX 0, .unlink 0 [0x78]] = some s ∧ s.vfs.rc 0 = 1 ∧
    (s.vfs.openFiles 0).inode = 0x11000 ∧ s.vfs.vnodes 0x11000 = none ∧
    ∃ x, s.act (.close 0 0) = some x ∧
      ¬Avoids IsFreed x := by
  obtain ⟨k, hk, s, hrun, hrc, hinode, hnode, x, hx, h⟩ :
      ∃ k, smallBoot = some k ∧ ∃ s, run System.step (firstTask k) [createX 0, .unlink 0 [0x78]] =
      some s ∧
        s.vfs.rc 0 = 1 ∧ (s.vfs.openFiles 0).inode = 0x11000 ∧ s.vfs.vnodes 0x11000 = none ∧
        ∃ x, s.act (.close 0 0) = some x ∧ followsFreed x = true := by
    decide +kernel
  refine ⟨k, s, hk, hrun, hrc, hinode, hnode, x, hx, fun hav => ?_⟩
  unfold followsFreed at h
  split at h
  · exact hav _ rfl trivial
  · cases h

end Monolith.Proc
