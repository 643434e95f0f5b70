import Monolith.Fs.FileCalls
import Monolith.Proc.Calls

/-!
# Who holds the open files

A reference to a slot is held by a task: by one of its 32 entries, by the loader while the task is
being started, or by a mapping of the file (`Task.holds`).  For each call of a task, `Settles` says
what becomes of the account: the references that the slots gain or lose are those that the task
takes or gives back.  In a strict account that is exact; otherwise a call may leave references
behind, which it does where `vm_space_map` drops the object of a file.
-/

namespace Monolith.Proc

open Function Fallible Fs Mm Count List Option Vfs

/-! ## Mappings -/

variable {info : VmMappingInfo} {i : Fin 32} {fd : Fin 64} {is : List (Fin 32)}
  {files : Fin 32 → FdEntry}

section Mappings

variable {p : VmObject → Bool} {o : VmObject} {xs ys : List VmObject}

theorem countP_eraseP {q : VmObject → Bool} (h : xs.find? q = some o) :
    (xs.eraseP q).countP p + one (p o) = xs.countP p := by
  induction xs with
  | nil => cases h
  | cons x xs ih =>
    by_cases hx : q x = true
    · rw [find?_cons_of_pos hx, some_inj] at h
      rw [eraseP_cons_of_pos hx, countP_cons, h]
      rfl
    · rw [find?_cons_of_neg hx] at h
      rw [eraseP_cons_of_neg hx, countP_cons, countP_cons, ← ih h]
      omega

variable (hp : ∀ (c : VmObject) (base length : BitVec 64), p { c with base, length } = p c)

include hp

theorem countP_placeObj {replace : Bool} (h : placeObj replace o xs = some ys) :
    Covers (!replace) (xs.countP p + one (p o)) (ys.countP p) := by
  have hone : ∀ zs : List VmObject, (o :: zs).countP p = zs.countP p + one (p o) :=
    fun zs => countP_cons ..
  induction xs generalizing ys with
  | nil =>
    rw [placeObj, some_inj] at h
    rw [← h, hone]
    exact ⟨le_rfl, fun _ => rfl⟩
  | cons cur rest ih =>
    rw [placeObj] at h
    split at h
    · split at h
      · split at h
        · rename_i hreplace
          rw [some_inj] at h
          rw [← h, hone, countP_append, countP_cons, hreplace]
          refine ⟨?_, by simp⟩
          have hle : (replaceBefore o cur).countP p ≤ one (p cur) := by
            rw [replaceBefore]
            split
            · exact Nat.zero_le _
            · rw [countP_singleton, hp]
              exact le_rfl
          have hcur : one (p cur) = if p cur = true then 1 else 0 := rfl
          omega
        · cases h
      · obtain ⟨zs, hzs, rfl⟩ := map_eq_some_iff.1 h
        obtain ⟨hle, heq⟩ := ih hzs
        rw [countP_cons, countP_cons]
        exact ⟨by omega, fun hs => by have := heq hs; omega⟩
    · split at h
      · cases h
      rw [some_inj] at h
      rw [← h, hone]
      exact ⟨le_rfl, fun _ => rfl⟩

omit hp in
theorem countP_fitObj (length start : BitVec 64) :
    (fitObj length o start xs).countP p = xs.countP p + one (p o) := by
  induction xs generalizing start with
  | nil => exact countP_cons ..
  | cons cur rest ih =>
    rw [fitObj]
    split
    · exact countP_cons ..
    · rw [countP_cons, countP_cons, ih]
      omega

theorem countP_mapList {start limit : BitVec 64} (h : mapList start limit xs info o = some ys) :
    Covers (!info.replace) (xs.countP p + one (p o)) (ys.countP p) := by
  rw [mapList] at h
  split at h
  · split at h
    · cases h
    · exact countP_placeObj hp h
  split at h
  · cases h
  rw [some_inj] at h
  rw [← h, countP_fitObj]
  exact ⟨le_rfl, fun _ => rfl⟩

end Mappings

theorem has_vmFlagFile (x : BitVec 32) : has x vmFlagFile = x.getLsbD 2 :=
  has_twoPow x (by decide : 2 < 32)

theorem fileOf_mapObject (env : VmEnv) (info : VmMappingInfo) (base : BitVec 64) :
    fileOf (mapObject env info base) =
      if info.isFile then (if h : info.fd < 64 then some ⟨info.fd, h⟩ else none) else none := by
  have hfile : (mapObject env info base).file = (info.rangeAt base).file ∧
      (has (info.rangeAt base).flags vmFlagFile = true →
      has (mapObject env info base).flags vmFlagFile = true) := by
    simp only [has_vmFlagFile]
    rw [mapObject]
    split
    · split
      · refine ⟨rfl, fun h => ?_⟩
        rw [ramfsMmap]
        split
        · rw [BitVec.getLsbD_or, h, Bool.true_or]
        · exact h
      · exact ⟨rfl, fun h => by rw [BitVec.getLsbD_or, h, Bool.true_or]⟩
      · exact ⟨rfl, id⟩
    · exact ⟨rfl, id⟩
  rw [fileOf, hfile.1]
  show (if _ then (if info.isFile = true then some info.fd else none).bind _ else none) = _
  by_cases hi : info.isFile = true
  · have hflags : (info.rangeAt base).flags = info.flags := by
      show (if info.cow = true then info.flags ||| vmFlagCow else info.flags) = _
      simp [VmMappingInfo.cow, hi]
    simp [if_pos (hfile.2 (hflags ▸ hi)), hi]
  · rw [if_neg hi, if_neg hi]
    exact ite_self _

/-! ## Holders -/

/-- The references that a task holds to a slot: by its entries, for the loader, and by its
mappings. -/
def Task.holds (t : Task) (fd : Fin 64) : Nat :=
  (finRange 32).countP (fun i => t.openFiles i = .slot fd) + t.opens.count fd +
    t.objects.countP fun o => fileOf o = some fd

/-- What a call of the task `t` leaves: the references that it took, but those it gave back, are
held by the task. -/
structure Settled (strict : Bool) (v : Vfs) (t : Task) (r : Task × Vfs) (loss gain : Fin 64 → Nat) :
    Prop where
  kept : Kept strict v r.2 loss gain
  cwd : Linked r.2 r.1.cwd
  covers : ∀ fd, Covers strict (t.holds fd + gain fd) (r.1.holds fd + loss fd)

def Settles (strict : Bool) (v : Vfs) (t : Task) (r : Task × Vfs) : Prop :=
  ∃ loss gain, Settled strict v t r loss gain

/-- What a task can rely on. -/
structure Ready (strict : Bool) (v : Vfs) (t : Task) : Prop where
  heap : HeapOk v
  files : FilesOk strict v
  cwd : Linked v t.cwd
  held : ∀ fd, t.holds fd ≤ v.rc fd

section Holders

variable {strict : Bool} {v w : Vfs} {t : Task} {i : Fin 32} {fd : Fin 64}

theorem covers_refl (strict : Bool) (x : Nat) : Covers strict x x := ⟨Nat.le_refl x, fun _ => rfl⟩

theorem holds_setEntry (t : Task) (i : Fin 32) (x : FdEntry) (fd : Fin 64) :
    (t.setEntry i x).holds fd + one (t.openFiles i = .slot fd) = t.holds fd + one
    (x = .slot fd) := by
  have h := countP_update (p := fun y => decide (y = .slot fd)) (f := t.openFiles)
    (nodup_finRange 32)
    (mem_finRange i) x
  rw [Task.holds, Task.holds]
  show _ + t.opens.count fd + t.objects.countP _ + _ = _
  have hset : (finRange 32).countP (fun j => (t.setEntry i x).openFiles j = .slot fd) =
    (finRange 32).countP fun j => decide (update t.openFiles i x j = .slot fd) := rfl
  omega

theorem holds_pos (h : t.openFiles i = .slot fd) : 0 < t.holds fd := by
  have hpos : 0 < (finRange 32).countP fun i => t.openFiles i = .slot fd :=
    countP_pos_iff.2 ⟨i, mem_finRange i, decide_eq_true h⟩
  rw [Task.holds]
  omega

theorem settles_of_kept (K : Kept strict v w 0 0) (hcwd : Linked v t.cwd) :
    Settles strict v t (t, w) :=
  ⟨0, 0, K, K.linked _ hcwd, fun _ => covers_refl ..⟩

/-- A slot that was opened goes into an entry that was closed. -/
theorem settles_install {r : Except Errno (Fin 64)} (K : Kept strict v w 0 (gained r))
    (hcwd : Linked v t.cwd) (hi : (t.openFiles i).isOpen = false) :
    Settles strict v t ((t.install i r).2, w) := by
  rcases r with _ | fd
  · exact settles_of_kept K hcwd
  refine ⟨0, mark fd, K, K.linked _ hcwd, fun j => ?_⟩
  have hset := holds_setEntry t i (.slot fd) j
  have hne : t.openFiles i ≠ .slot j := by
    intro h
    rw [h] at hi
    cases hi
  have hmark : mark fd j = one (FdEntry.slot fd = .slot j) := by
    simp only [mark, FdEntry.slot.injEq, eq_comm]
  rw [decide_eq_false hne, one_false] at hset
  show Covers strict (t.holds j + mark fd j) ((t.setEntry i (.slot fd)).holds j + 0)
  rw [hmark, hset]
  exact covers_refl ..

end Holders

/-! ## Calls -/

section Calls

variable {strict : Bool} {v : Vfs} {t : Task} (R : Ready strict v t) {node : FileNode}

include R

theorem Ready.rc_pos (h : t.openFiles i = .slot fd) : 0 < v.rc fd :=
  lt_of_lt_of_le (holds_pos h) (R.held fd)

section Outcome

variable {α : Type} {x : Except VfsFault (α × Task × Vfs)} {r : α} {c : Prop} [Decidable c]

omit R in
theorem meets_left (h : Meets IsFreed x fun r => Settles strict v t r.2) :
    Meets IsFreed (System.left x) (Settles strict v t) := h.map fun _ h => h

theorem Ready.meets_self :
    Meets IsFreed (.ok (r, t, v)) fun r : α × Task × Vfs => Settles strict v t r.2 :=
  meets_ok.2 (settles_of_kept (.refl R.heap R.files) R.cwd)

theorem Ready.check (h : Meets IsFreed x fun r => Settles strict v t r.2) :
    Meets IsFreed (if c then .ok (r, t, v) else x) fun r => Settles strict v t r.2 :=
  meets_ite (fun _ => R.meets_self) fun _ => h

end Outcome

omit R in
theorem freeEntry_closed (h : t.freeEntry = some i) : (t.openFiles i).isOpen = false := by
  have hfound := find?_some h
  rw [of_decide_eq_true hfound]
  rfl

omit R in
theorem negativeEntry_closed (h : t.negativeEntry = some i) : (t.openFiles i).isOpen = false := by
  have hfound := find?_some h
  exact of_decide_eq_true hfound

theorem Ready.sysOpen (path : UserPath) (creat : Bool) {new : Fresh}
    (hnew : creat = true → new.Ok v) (device : Except Errno Unit) (C : CanOpen strict v) :
    Meets IsFreed (System.left (sysOpen v t path creat new device)) (Settles strict v t) := by
  refine meets_left ?_
  refine R.check ?_
  refine R.check ?_
  rcases hi : t.freeEntry with _ | _
  · exact R.meets_self
  refine (R.files.vfsOpen R.heap R.cwd path.str creat hnew C device).bind ?_
  rintro ⟨r, w⟩ K
  exact meets_ok.2 (settles_install K R.cwd (freeEntry_closed hi))

theorem Ready.sysOpenat (fd : Option (Fin 32)) (path : UserPath) (device : Except Errno Unit)
    (C : CanOpen strict v) :
    Meets IsFreed (System.left (sysOpenat v t fd path device)) (Settles strict v t) := by
  refine meets_left ?_
  refine R.check ?_
  refine R.check ?_
  rcases hi : t.freeEntry with _ | _
  · exact R.meets_self
  rcases hdir : openatDir v t fd with _ | dir
  · exact R.meets_self
  -- the directory is that of the task, or what a slot in use is open on
  have hptr : Ptr v dir := by
    rcases fd with _ | j
    · cases hdir
      exact .inr R.cwd.live
    rw [openatDir] at hdir
    cases hj : t.openFiles j with rw [hj] at hdir
    | slot s =>
      cases hdir
      obtain ⟨-, n, -, S | S⟩ := R.files.slot s (refcount_ne_zero (R.rc_pos hj))
      · exact .inl S.path
      · obtain ⟨e, he, -⟩ := S.path
        exact .inr ⟨e, he⟩
    | closed => cases hdir
    | failed => cases hdir
  refine (R.files.vfsOpenat R.heap hptr path.str C device).bind ?_
  rintro ⟨r, w⟩ K
  exact meets_ok.2 (settles_install K R.cwd (freeEntry_closed hi))

theorem Ready.sysClose (i : Fin 32) :
    Meets IsFreed (System.left (sysClose v t i)) (Settles strict v t) := by
  refine meets_left ?_
  rw [Proc.sysClose]
  cases hi : t.openFiles i with
  | closed | failed => exact R.meets_self
  | slot fd =>
    refine (R.files.vfsClose R.heap (R.rc_pos hi)).bind ?_
    rintro ⟨r, w⟩ ⟨-, K⟩
    refine meets_ok.2 ⟨mark fd, 0, K, K.linked _ R.cwd, fun j => ?_⟩
    have hset := holds_setEntry t i .closed j
    have hmark : mark fd j = one (FdEntry.slot fd = .slot j) := by
      simp only [mark, FdEntry.slot.injEq, eq_comm]
    rw [hi, ← hmark] at hset
    rw [hset]
    exact covers_refl ..

theorem Ready.sysDup (i : Fin 32) (hmax : ∀ fd, v.rc fd + 32 < 2 ^ 32) :
    Meets IsFreed (System.left (sysDup v t i)) (Settles strict v t) := by
  refine meets_left ?_
  rw [Proc.sysDup]
  cases hi : t.openFiles i with
  | closed | failed => exact R.meets_self
  | slot fd =>
    rcases hj : t.negativeEntry with _ | _
    · exact R.meets_self
    have hmax' := hmax fd
    obtain ⟨hok, K⟩ := R.files.vfsDup R.heap (R.rc_pos hi) (by omega)
    refine meets_ok.2 ?_
    rw [hok]
    exact settles_install (r := .ok fd) K R.cwd (negativeEntry_closed hj)

theorem Ready.sysGetdents (i : Fin 32) (buffer length disk : BitVec 64) :
    Meets IsFreed (System.left (sysGetdents v t i buffer length disk)) (Settles strict v t) := by
  refine meets_left ?_
  rw [Proc.sysGetdents]
  cases hi : t.openFiles i with
  | closed | failed => exact R.meets_self
  | slot fd =>
    refine R.check ?_
    refine (R.files.vfsGetdents R.heap (R.rc_pos hi) buffer length disk).bind ?_
    rintro ⟨r, w⟩ K
    exact meets_ok.2 (settles_of_kept K R.cwd)

theorem Ready.sysChdir (path : UserPath) :
    Meets IsFreed (System.left (sysChdir v t path)) (Settles strict v t) := by
  refine meets_left ?_
  refine R.check ?_
  refine (R.heap.vfsLookup (.inr R.cwd.live) path.str false).bind ?_
  rintro ⟨found, v₁⟩ ⟨H₁, L, hfound⟩
  have K₁ := kept_of_grown R.files H₁ L.toThinned.grown
  rcases found with _ | query
  · exact meets_ok.2 (settles_of_kept K₁ R.cwd)
  refine (meets_ventry (.inr (hfound query rfl))).bind fun e he => ?_
  refine (H₁.meets_node he).bind fun n ⟨hen, _⟩ => ?_
  refine meets_ite (fun _ => ?_) fun _ => meets_ok.2 (settles_of_kept K₁ R.cwd)
  refine (meets_ventryRef (.inr ⟨e, he⟩)).bind fun v₂ ⟨R₂, _⟩ => ?_
  have hcwd := R₂.toThinned.linked (K₁.linked _ R.cwd)
  refine (meets_ventryPut hcwd).bind fun v₃ R₃ => meets_ok.2 ?_
  have R' := R₂.trans R₃
  have K := K₁.after (kept_of_grown K₁.files (H₁.recount R') R'.toThinned.grown)
  exact ⟨0, 0, K, R'.toThinned.linked ⟨e, he, hen⟩, fun _ => covers_refl ..⟩

/-! ## Mappings of files -/

omit R in
/-- An object is put on the list of a task.  Without a replacement nothing else happens to the
list. -/
theorem holds_map (t : Task) (node : FileNode) (info : VmMappingInfo) (fd : Fin 64) :
    (t.map node info).2.holds fd ≤ t.holds fd + one (info.isFile ∧ info.fd = fd) ∧
      (info.replace = false →
      (info.isFile = true → (mapList vmUserspaceBase vmUserspaceEnd t.objects info
        (mapObject ⟨0, fun _ => node⟩ info (mapBase vmUserspaceBase t.objects info))).isSome) →
        (t.map node info).2.holds fd = t.holds fd + one (info.isFile ∧ info.fd = fd)) := by
  rw [Task.map]
  have hone : one
      (decide (fileOf (mapObject ⟨0, fun _ => node⟩ info (mapBase vmUserspaceBase t.objects info)) =
      some fd)) = one (info.isFile ∧ info.fd = fd) := by
    congr 1
    rw [fileOf_mapObject, decide_eq_decide]
    by_cases hf : info.isFile = true
    · rw [if_pos hf]
      by_cases hlt : info.fd < 64
      · rw [dif_pos hlt, some_inj, Fin.ext_iff]
        exact ⟨fun h => ⟨hf, h⟩, fun h => h.2⟩
      rw [dif_neg hlt]
      refine ⟨nofun, fun h => absurd fd.isLt ?_⟩
      rw [← h.2]
      exact hlt
    · rw [if_neg hf]
      exact ⟨nofun, fun h => absurd h.1 hf⟩
  cases hlist : mapList vmUserspaceBase vmUserspaceEnd t.objects info
    (mapObject ⟨0, fun _ => node⟩ info
      (mapBase vmUserspaceBase t.objects info)) with
  | none =>
    refine ⟨le_self_add, fun _ h => ?_⟩
    rw [decide_eq_false fun hf => nomatch h hf.1]
    rfl
  | some objects =>
    have hcount :=
      countP_mapList (p := fun o => decide (fileOf o = some fd)) (fun _ _ _ => rfl) hlist
    rw [hone] at hcount
    obtain ⟨hle, heq⟩ := hcount
    simp only [Task.holds]
    refine ⟨by omega, fun hreplace _ => ?_⟩
    have := heq (by rw [hreplace]; rfl)
    omega

omit R in
theorem cwd_map (t : Task) (node : FileNode) (info : VmMappingInfo) :
    (t.map node info).2.cwd = t.cwd := by
  rw [Task.map]
  split <;> rfl

/-- The slot of a file that is going to be mapped. -/
theorem Ready.mapFile (hpos : 0 < v.rc fd) (hmax : ∀ fd, v.rc fd + 32 < 2 ^ 32)
    (hfile : info.isFile = true) (hfd : info.fd = fd)
    (hplace : strict = true → info.replace = false ∧
      (mapList vmUserspaceBase vmUserspaceEnd t.objects info
      (mapObject ⟨0, fun _ => node⟩ info (mapBase
      vmUserspaceBase t.objects info))).isSome) : Settles strict v t ((t.map node info).2,
      v.refFile fd) := by
  have hmax' := hmax fd
  have K := R.files.refFile R.heap hpos (by omega)
  refine ⟨0, mark fd, K, ?_, fun j => ?_⟩
  · rw [cwd_map]
    exact K.linked _ R.cwd
  have hone : one (decide (info.isFile = true ∧ info.fd = j)) = mark fd j := by
    congr 1
    rw [decide_eq_decide, hfd, Fin.ext_iff]
    exact ⟨fun h => h.2.symm, fun h => ⟨hfile, h.symm⟩⟩
  obtain ⟨hle, heq⟩ := holds_map t node info j
  rw [hone] at hle heq
  exact ⟨hle, fun hs => (heq (hplace hs).1 fun _ => (hplace hs).2).symm⟩

theorem Ready.mapAnon (hfile : info.isFile = false)
    (hreplace : strict = true → info.replace = false) :
    Settles strict v t ((t.map node info).2, v) := by
  refine ⟨0, 0, .refl R.heap R.files, ?_, fun j => ?_⟩
  · rw [cwd_map]
    exact R.cwd
  obtain ⟨hle, heq⟩ := holds_map t node info j
  have hone : one (decide (info.isFile = true ∧ info.fd = j)) = 0 := by
    rw [decide_eq_false fun h => Bool.false_ne_true (hfile.symm.trans h.1), one_false]
  rw [hone] at hle heq
  refine ⟨hle, fun hs => (heq (hreplace hs) fun h => ?_).symm⟩
  rw [hfile] at h
  cases h

omit R in
theorem putObject_spec (H : HeapOk v) (F : FilesOk strict v) {o : VmObject}
    (ho : ∀ fd, fileOf o = some fd → 0 < v.rc fd) :
    Meets IsFreed (putObject v o) fun w =>
    Kept strict v w (fun fd => one (fileOf o = some fd)) 0 := by
  rw [putObject]
  rcases hfile : fileOf o with _ | fd
  · exact meets_ok.2 (.refl H F)
  refine (F.keptPut H (ho fd hfile)).mono fun w K => ?_
  have hmark : mark fd = fun j => one (some fd = some j) := by
    funext j
    simp [mark, eq_comm]
  rw [← hmark]
  exact K

theorem Ready.sysMunmap (addr size : BitVec 64) :
    Meets IsFreed (System.left (sysMunmap v t addr size)) (Settles strict v t) := by
  refine meets_left ?_
  refine R.check ?_
  cases hfind : t.objects.find? (·.base = addr) with
  | none => exact R.meets_self
  | some o =>
    have hcount :=
      fun fd : Fin 64 => countP_eraseP (p := fun o => decide (fileOf o = some fd)) hfind
    refine (putObject_spec R.heap R.files fun fd hfd => ?_).bind fun w K =>
      meets_ok.2 ⟨_, 0, K, K.linked _ R.cwd, fun fd => ?_⟩
    · have hheld := R.held fd
      have hc := hcount fd
      rw [decide_eq_true hfd, one_true] at hc
      rw [Task.holds] at hheld
      omega
    · have hc := hcount fd
      refine ⟨?_, fun _ => ?_⟩ <;>
      · simp only [Task.holds, Pi.zero_apply]
        omega

/-- `sys_mmap`, which drops the file of an object that it replaces. -/
theorem Ready.sysMmap (hs : strict = false) {args : MmapArgs} (node : FileNode)
    (hmax : ∀ fd, v.rc fd + 32 < 2 ^ 32) :
    Meets IsFreed (System.left (sysMmap v t args node)) (Settles strict v t) := by
  have hstrict : ∀ {P : Prop}, strict = true → P := fun h => by
    rw [hs] at h
    cases h
  refine meets_left ?_
  refine R.check <| meets_ite (fun _ => ?_) fun _ => ?_
  · refine R.check ?_
    refine R.check <| meets_ok.2 (R.mapAnon ?_ hstrict)
    rw [VmMappingInfo.isFile, MmapArgs.info]
    dsimp only
    split <;> decide
  · refine R.check ?_
    rcases hfd : t.slotOf args.fd.toNat with _ | fd
    · exact R.meets_self
    have hpos : 0 < v.rc fd := by
      rw [Task.slotOf] at hfd
      split at hfd
      · split at hfd
        · rename_i h
          rw [some_inj] at hfd
          exact R.rc_pos (hfd ▸ h)
        · cases hfd
      · cases hfd
    obtain ⟨-, n, hn, -⟩ := R.files.slot fd (refcount_ne_zero hpos)
    refine (meets_vnode fun _ => ⟨n, hn⟩).bind fun _ _ => ?_
    refine R.check <| meets_ok.2 (R.mapFile hpos hmax ?_ rfl hstrict)
    rw [VmMappingInfo.isFile, MmapArgs.fileInfo, MmapArgs.info]
    dsimp only
    split <;> decide

/-! ## The loader -/

omit R in
theorem rc_pos_of_opens (R : Ready strict v t) (h : fd ∈ t.opens) : 0 < v.rc fd := by
  have hheld := R.held fd
  have hcount := count_pos_iff.2 h
  rw [Task.holds] at hheld
  omega

theorem Ready.loaderOpen (path : Str) (device : Except Errno Unit) (C : CanOpen strict v) :
    Meets IsFreed (loaderOpen v t path device) (Settles strict v t) := by
  refine (R.files.vfsOpen R.heap R.cwd path false nofun C device).bind ?_
  rintro ⟨r, w⟩ K
  rcases r with _ | fd
  · exact meets_ok.2 (settles_of_kept K R.cwd)
  refine meets_ok.2 ⟨0, mark fd, K, K.linked _ R.cwd, fun j => ?_⟩
  have hcount : (fd :: t.opens).count j = t.opens.count j + mark fd j := by
    rw [count_cons, mark]
    by_cases hj : j = fd
    · simp [hj]
    · simp [hj, if_neg (by simpa using Ne.symm hj)]
  have heq : t.holds j + mark fd j = ({ t with opens := fd :: t.opens } : Task).holds j + 0 := by
    simp only [Task.holds]
    omega
  rw [heq]
  exact covers_refl ..

theorem Ready.loaderMap (hfd : fd ∈ t.opens) (seg : Segment) (node : FileNode)
    (hmax : ∀ fd, v.rc fd + 32 < 2 ^ 32) (hplace : strict = true →
      (mapList vmUserspaceBase vmUserspaceEnd t.objects (seg.fileInfo fd)
      (mapObject ⟨0, fun _ => node⟩
      (seg.fileInfo fd) (mapBase vmUserspaceBase t.objects (seg.fileInfo fd)))).isSome) :
    Meets IsFreed (loaderMap v t fd seg node) (Settles strict v t) := by
  have hpos := rc_pos_of_opens R hfd
  obtain ⟨-, n, hn, -⟩ := R.files.slot fd (refcount_ne_zero hpos)
  refine (meets_vnode fun _ => ⟨n, hn⟩).bind fun _ _ => meets_ok.2 ?_
  exact R.mapFile hpos hmax (by decide : has (vmFlagFile ||| vmFlagCow) vmFlagFile = true) rfl
    fun hs =>
    ⟨(by decide : has (vmFlagFile ||| vmFlagCow) vmFlagReplace = false), hplace hs⟩

theorem Ready.loaderZero (seg : Segment) : Settles strict v t (loaderZero t seg, v) :=
  R.mapAnon (by decide : has (0 : BitVec 32) vmFlagFile = false) fun _ =>
    (by decide : has (0 : BitVec 32) vmFlagReplace = false)

theorem Ready.loaderClose (hfd : fd ∈ t.opens) :
    Meets IsFreed (loaderClose v t fd) (Settles strict v t) := by
  refine (R.files.vfsClose R.heap (rc_pos_of_opens R hfd)).bind ?_
  rintro ⟨r, w⟩ ⟨-, K⟩
  refine meets_ok.2 ⟨mark fd, 0, K, K.linked _ R.cwd, fun j => ?_⟩
  have hcount : (t.opens.erase fd).count j + mark fd j = t.opens.count j := by
    rw [count_erase, mark]
    by_cases hj : j = fd
    · have hpos := count_pos_iff.2 hfd
      simp [hj]
      omega
    · simp [hj, if_neg (by simpa using Ne.symm hj)]
  have heq : t.holds j + 0 = ({ t with opens := t.opens.erase fd } : Task).holds j + mark fd j := by
    simp only [Task.holds]
    omega
  simpa [heq] using covers_refl ..

/-! ## Sockets -/

section Socket

variable {new : FreshSocket} {i : Fin 64}

omit R

theorem inode_ne_fresh (F : SlotsOk strict v) (hnew : FreshSocket.Ok v new)
    (hi : (v.openFiles i).refcount ≠ 0) : (v.openFiles i).inode ≠ new.inode := by
  intro heq
  obtain ⟨n, hn, -⟩ := (F.slot i hi).node
  rw [heq, hnew.2.2.2] at hn
  cases hn

theorem data_ne_fresh (F : SlotsOk strict v) (hnew : FreshSocket.Ok v new) {m : Vnode}
    (hi : (v.openFiles i).refcount ≠ 0) (hm : v.vnodes (v.openFiles i).inode = some m)
    (hmode : sIssock m.mode = true) : m.data ≠ new.socket := by
  intro heq
  obtain ⟨n, hn, S | S⟩ := (F.slot i hi).node
  · rw [hm, some_inj] at hn
    have hsocket := S.socket
    rw [← hn, heq, hnew.2.2.1] at hsocket
    cases hsocket
  · rw [hm, some_inj] at hn
    rw [hn, S.mode] at hmode
    cases hmode

theorem vnodes_socketCreate_of_ne {a : Addr} (h : a ≠ new.inode) :
    (socketCreate v new).vnodes a = v.vnodes a :=
  vnodes_set_ne _ _ h

theorem sockets_socketCreate_of_ne {sock : Addr} (h : sock ≠ new.socket) :
    (socketCreate v new).sockets sock = v.sockets sock := update_of_ne h ..

theorem heapOk_socketCreate (H : HeapOk v) (hnew : FreshSocket.Ok v new) :
    HeapOk (socketCreate v new) := by
  refine HeapOk.setVnode ?_ hnew.2.1 _
  exact H.congr rfl rfl rfl rfl H.nullNode fun _ _ n _ hn => ⟨n, hn⟩

/-- `socket_create` does not touch the slots and what they are open on. -/
theorem slotsOk_socketCreate (H : HeapOk v) (F : SlotsOk strict v) (hnew : FreshSocket.Ok v new) :
    SlotsOk strict (socketCreate v new) where
  slot i hi := by
    have hne := inode_ne_fresh F hnew hi
    refine (F.slot i hi).mono (fun n hn => ?_) (fun n hn hmode hsocket => ?_)
      (fun e he hen => ⟨e, he, hen⟩) fun h => h
    · exact ⟨n, (vnodes_socketCreate_of_ne hne).trans hn, rfl, rfl, id, fun _ => rfl⟩
    · exact (sockets_socketCreate_of_ne (data_ne_fresh F hnew hi hn hmode)).trans hsocket
  idle i hi := F.idle i hi
  refs a n hn := by
    by_cases ha : a = new.inode
    · subst ha
      rw [socketCreate, vnodes_set_self, some_inj] at hn
      rw [← hn, usedBy_congr (show (socketCreate v new).openFiles = v.openFiles from rfl),
        F.usedBy_eq_zero hnew.2.2.2]
      exact covers_refl strict 0
    · rw [vnodes_socketCreate_of_ne ha] at hn
      exact F.refs a n hn
  single i j m n hi hj hm hn :=
    F.single i j m n hi hj ((vnodes_socketCreate_of_ne (inode_ne_fresh F hnew hi)).symm.trans hm)
      ((vnodes_socketCreate_of_ne (inode_ne_fresh F hnew hj)).symm.trans hn)
  entries a e n he hn := by
    rw [vnodes_socketCreate_of_ne (H.node_ne hnew.2.1 hnew.2.2.2 a e he)] at hn
    exact F.entries a e n he hn

/-- The node of a new socket is opened in a slot that is free. -/
theorem kept_socket (H : HeapOk v) (F : FilesOk strict v) (hnew : FreshSocket.Ok v new)
    (hfree : (v.openFiles fd).refcount = 0) {n : Vnode}
    (hn : (socketCreate v new).vnodes new.inode = some n) :
    Kept strict v (((socketCreate v new).setVnode new.inode { n with ref := n.ref + 1 }).setFile fd
      (openedFile new.inode 0)) 0 (mark fd) := by
  have hself := hn
  rw [socketCreate, vnodes_set_self, some_inj] at hself
  have hsocket : (socketCreate v new).sockets n.data = true := by
    rw [← hself]
    exact update_self ..
  have hmode : sIssock n.mode = true := by
    rw [← hself]
    exact (by decide : sIssock (sIfsock ||| 0o775) = true)
  have hslot : SocketSlot (socketCreate v new) (openedFile new.inode 0) n :=
    ⟨hmode, by rw [← hself], rfl, hsocket, H.node_ne hnew.2.1 hnew.2.2.2⟩
  have hslots := (slotsOk_socketCreate H F.toSlotsOk hnew).opened hfree hnew.2.1 hn
    (by rw [← hself]; exact (by decide : (0 : BitVec 32).toNat + 1 < 2 ^ 32)) (.inl hslot)
    fun _ i m hi hm hms => by
      rw [← hself]
      exact data_ne_fresh F.toSlotsOk hnew hi
        ((vnodes_socketCreate_of_ne (inode_ne_fresh F.toSlotsOk hnew hi)).symm.trans hm) hms
  refine ⟨((heapOk_socketCreate H hnew).setVnode hnew.2.1 _).setFile ..,
    ⟨hslots, fun hs sock hsock => ?_⟩, fun _ h => h, fun i => rc_opened hfree rfl i⟩
  by_cases heq : sock = new.socket
  · refine ⟨fd, { n with ref := n.ref + 1 }, ?_, ?_, hmode, ?_⟩
    · rw [openFiles_set_self]
      exact (by decide : (1 : BitVec 32) ≠ 0)
    · rw [openFiles_set_self]
      exact vnodes_set_self ..
    · rw [heq, ← hself]
  · have hold : v.sockets sock = true := (sockets_socketCreate_of_ne heq).symm.trans hsock
    obtain ⟨i, m, hi, hm, hms, hdata⟩ := F.shut hs sock hold
    have hopen : SocketOpen (socketCreate v new) sock :=
      ⟨i, m, hi, (vnodes_socketCreate_of_ne (inode_ne_fresh F.toSlotsOk hnew hi)).trans hm,
      hms, hdata⟩
    exact hopen.opened hfree hn

theorem openInternal_socket (H : HeapOk v) (F : FilesOk strict v) (hnew : FreshSocket.Ok v new)
    (hslot : freeSlot v ≠ none) :
    Meets IsFreed (vfsOpenInternal (socketCreate v new) new.inode 0 (.ok ())) fun r =>
      ∃ fd, r.1 = .ok fd ∧ Kept strict v r.2 0 (mark fd) := by
  obtain ⟨n, hn⟩ : ∃ n, (socketCreate v new).vnodes new.inode = some n := ⟨_, vnodes_set_self ..⟩
  obtain ⟨fd, hfd⟩ := ne_none_iff_exists'.1 hslot
  have hopens : ∀ n, fopsOpen n (.ok ()) = .ok () := fun n => ite_self _
  refine (meets_vnode fun _ => ⟨n, hn⟩).bind fun n' ⟨_, hn'⟩ => ?_
  rw [hopens]
  refine Meets.bind (Q := fun u => u = (socketCreate v new).setVnode new.inode
    { n with ref := n.ref + 1 }) ?_
    fun u hu => ?_
  · refine (meets_vnode fun _ => ⟨n, hn⟩).bind fun n' ⟨_, hn'⟩ => meets_ok.2 ?_
    rw [hn, some_inj] at hn'
    rw [hn']
  subst hu
  rw [freeSlot_congr
    (show ((socketCreate v new).setVnode new.inode { n with ref := n.ref + 1 }).openFiles =
    v.openFiles from rfl), hfd]
  exact meets_ok.2 ⟨fd, rfl, kept_socket H F hnew (freeSlot_refcount hfd) hn⟩

end Socket

theorem Ready.sysSocket (created : Except Errno Unit) {new : FreshSocket}
    (hnew : FreshSocket.Ok v new) (hslot : freeSlot v ≠ none) :
    Meets IsFreed (System.left (sysSocket v t created new)) (Settles strict v t) := by
  refine Meets.map (Q := fun r => Settles strict v t r.2) ?_ fun _ h => h
  rcases created with _ | _
  · exact R.meets_self
  refine (openInternal_socket R.heap R.files hnew hslot).bind ?_
  rintro ⟨r, w⟩ ⟨fd, rfl, K⟩
  cases hi : t.negativeEntry with
  | some i => exact meets_ok.2 (settles_install (r := .ok fd) K R.cwd (negativeEntry_closed hi))
  | none =>
    -- the slot has the one reference that is given back
    have hpos : 0 < w.rc fd := by
      have hrc : w.rc fd = v.rc fd + mark fd fd := K.rc fd
      have hmark : mark fd fd = 1 := by rw [mark, decide_eq_true rfl, one_true]
      omega
    refine (K.files.vfsClose K.heap hpos).bind ?_
    rintro ⟨r, u⟩ ⟨-, K'⟩
    have K'' := K.trans K'
    exact meets_ok.2 ⟨_, _, K'', K''.linked _ R.cwd,
      fun j => by rw [zero_add]; exact covers_refl ..⟩

/-! ## Starting and ending -/

section Ends

omit R

/-- The references by a part of the entries. -/
def entryHolds (t : Task) (is : List (Fin 32)) (fd : Fin 64) : Nat :=
  is.countP fun i => t.openFiles i = .slot fd

theorem entryHolds_slot (h : t.openFiles i = .slot fd) :
    entryHolds t (i :: is) = mark fd + entryHolds t is := by
  funext j
  rw [entryHolds, countP_cons, h, Pi.add_apply, entryHolds, mark, one, add_comm]
  simp [eq_comm]

theorem entryHolds_closed (h : (t.openFiles i).isOpen = false) :
    entryHolds t (i :: is) = entryHolds t is := by
  funext j
  refine countP_cons_of_neg fun hj => ?_
  rw [of_decide_eq_true hj] at h
  cases h

theorem slot_of_isOpen {x : FdEntry} (h : x.isOpen = true) : ∃ fd, x = .slot fd := by
  cases x with
  | slot fd => exact ⟨fd, rfl⟩
  | closed | failed => cases h

theorem dupFiles_closed (h : (t.openFiles i).isOpen = false) :
    dupFiles t (i :: is) files v = dupFiles t is files v := by
  rw [dupFiles]
  split
  · rename_i hi
    rw [hi] at h
    cases h
  · rfl

theorem closeFiles_closed (h : (t.openFiles i).isOpen = false) :
    closeFiles t (i :: is) v = closeFiles t is v := by
  rw [closeFiles]
  split
  · rename_i hi
    rw [hi] at h
    cases h
  · rfl

/-- The loop of `sys_spawn`: the new task gets the open entries of its parent, and a reference for
each of them. -/
theorem dupFiles_spec (H : HeapOk v) (F : FilesOk strict v)
    (hpos : ∀ i fd, t.openFiles i = .slot fd → 0 < v.rc fd)
    (hmax : ∀ fd, v.rc fd + is.length < 2 ^ 32) :
    Kept strict v (dupFiles t is files v).2 0 (entryHolds t is) ∧
      ∀ i, (dupFiles t is files v).1 i = if i ∈ is ∧
      (t.openFiles i).isOpen = true then t.openFiles i else files i := by
  induction is generalizing files v with
  | nil => exact ⟨.refl H F, fun i => (if_neg fun h => absurd h.1 not_mem_nil).symm⟩
  | cons j is ih =>
    have hlength : (j :: is).length = is.length + 1 := rfl
    cases hj : (t.openFiles j).isOpen with
    | false =>
      obtain ⟨K, hfiles⟩ := @ih files _ H F hpos fun fd => by have := hmax fd; omega
      rw [dupFiles_closed hj, entryHolds_closed hj]
      refine ⟨K, fun i => (hfiles i).trans ?_⟩
      by_cases hij : i = j
      · rw [hij, hj, if_neg fun h => Bool.false_ne_true h.2, if_neg fun h => Bool.false_ne_true h.2]
      · simp [hij]
    | true =>
      obtain ⟨fd, hfd⟩ := slot_of_isOpen hj
      have hmax' := hmax fd
      obtain ⟨hok, K⟩ := F.vfsDup H (hpos j fd hfd) (by omega)
      have hrc : ∀ i, (vfsDup v fd).2.rc i = v.rc i + mark fd i := K.rc
      have hmark : ∀ i, mark fd i ≤ 1 := fun i => by
        rw [mark, one]
        split <;> omega
      obtain ⟨K', hfiles⟩ := @ih (update files j (.ofDup (vfsDup v fd).1)) _ K.heap K.files
        (fun i s hs => by have := hpos i s hs; have := hrc s; omega)
        fun s => by have := hmax s; have := hrc s; have := hmark s; omega
      rw [dupFiles, hfd, entryHolds_slot hfd]
      refine ⟨K.trans K', fun i => (hfiles i).trans ?_⟩
      by_cases hij : i = j
      · subst hij
        simp [hok, hfd, FdEntry.ofDup, FdEntry.isOpen]
      · simp only [mem_cons, hij, false_or, update_of_ne hij]

/-- The new task of `sys_spawn`, with these entries. -/
def spawned (t : Task) (files : Fin 32 → FdEntry) : Task :=
  { (Task.map ⟨fun _ => .closed, t.cwd, [], []⟩ .other userStack).2 with openFiles := files }

theorem spawned_holds (h : ∀ i fd, files i = .slot fd ↔ t.openFiles i = .slot fd) :
    (spawned t files).holds = entryHolds t (finRange 32) := by
  funext fd
  have hempty : Task.holds ⟨fun _ => .closed, t.cwd, [], []⟩ fd = 0 := by simp [Task.holds]
  have hstack := (holds_map ⟨fun _ => .closed, t.cwd, [], []⟩ .other userStack fd).1
  rw [decide_eq_false fun hfile => absurd hfile.1 (by decide), one_false, Task.holds] at hstack
  have hentries : (finRange 32).countP (fun i => files i = .slot fd) = entryHolds t
      (finRange 32) fd := by
    simp [entryHolds, h]
  rw [spawned, Task.holds]
  dsimp only
  omega

/-- **`sys_spawn`**: the new task holds the references that were taken for it. -/
theorem Ready.sysSpawn (R : Ready strict v t) {procfs : Addr} (hprocfs : Linked v procfs)
    (pid : Nat) (new : FreshProcess) (hlinks : ∀ a n, v.vnodes a = some n → n.nlink + 1 ≠ 0)
    (hmax : ∀ fd, v.rc fd + 32 < 2 ^ 32) : Meets IsFreed (sysSpawn v t procfs pid new) fun r =>
      Kept strict v r.2 0 r.1.holds ∧ Linked r.2 r.1.cwd := by
  refine (R.heap.procfsRegisterProcess hprocfs pid new hlinks).bind fun v₁ ⟨H₁, G₁⟩ => ?_
  have K₁ := kept_of_grown R.files H₁ G₁
  refine (meets_ventryRef (.inr (K₁.linked _ R.cwd).live)).bind fun v₂ ⟨R₂, _⟩ => ?_
  have K₂ := K₁.after (kept_of_grown K₁.files (H₁.recount R₂) R₂.toThinned.grown)
  have hrc : ∀ fd, v₂.rc fd = v.rc fd := K₂.rc
  obtain ⟨K, hfiles⟩ := @dupFiles_spec (finRange 32) (fun _ => .closed) strict v₂ t K₂.heap K₂.files
    (fun i fd h => by rw [hrc]; exact R.rc_pos h)
    fun fd => by rw [hrc]; exact hmax fd
  have hholds : (spawned t (dupFiles t (finRange 32) (fun _ => .closed) v₂).1).holds =
      entryHolds t (finRange 32) := by
    refine spawned_holds fun i fd => ?_
    rw [hfiles i]
    split_ifs with hclosed
    · exact Iff.rfl
    refine ⟨nofun, fun h => absurd ⟨mem_finRange i, ?_⟩ hclosed⟩
    rw [h]
    rfl
  change Meets IsFreed (Except.ok (spawned t (dupFiles t (finRange 32) (fun _ => .closed) v₂).1,
    (dupFiles t (finRange 32) (fun _ => .closed) v₂).2)) _
  rw [meets_ok, hholds, spawned, cwd_map]
  exact ⟨K₂.after K, K.linked _ (K₂.linked _ R.cwd)⟩

theorem closeFiles_spec (H : HeapOk v) (F : FilesOk strict v)
    (hheld : ∀ fd, entryHolds t is fd ≤ v.rc fd) :
    Meets IsFreed (closeFiles t is v) fun w => Kept strict v w (entryHolds t is) 0 := by
  induction is generalizing v with
  | nil => exact meets_ok.2 (.refl H F)
  | cons j is ih =>
    rcases hj : (t.openFiles j).isOpen with _ | _
    · rw [closeFiles_closed hj, entryHolds_closed hj]
      rw [entryHolds_closed hj] at hheld
      exact ih H F hheld
    obtain ⟨fd, hfd⟩ := slot_of_isOpen hj
    rw [entryHolds_slot hfd] at hheld ⊢
    have hpos : 0 < v.rc fd := by
      have hmark : mark fd fd = 1 := by rw [mark, decide_eq_true rfl, one_true]
      have hle : mark fd fd + entryHolds t is fd ≤ v.rc fd := hheld fd
      omega
    rw [closeFiles, hfd]
    refine (F.vfsClose H hpos).bind ?_
    rintro ⟨r, w⟩ ⟨-, K⟩
    refine (ih K.heap K.files fun s => ?_).mono fun u K' => K.trans K'
    have hrc : w.rc s + mark fd s = v.rc s := K.rc s
    have hle : mark fd s + entryHolds t is s ≤ v.rc s := hheld s
    dsimp only
    omega

/-- The references by a part of the mappings. -/
def objectHolds (os : List VmObject) (fd : Fin 64) : Nat := os.countP fun o => fileOf o = some fd

theorem putObjects_spec {os : List VmObject} (H : HeapOk v) (F : FilesOk strict v)
    (hheld : ∀ fd, objectHolds os fd ≤ v.rc fd) :
    Meets IsFreed (putObjects os v) fun w => Kept strict v w (objectHolds os) 0 := by
  induction os generalizing v with
  | nil => exact meets_ok.2 (.refl H F)
  | cons o os ih =>
    have hcons : objectHolds (o :: os) = (fun fd => one (fileOf o = some fd)) + objectHolds os := by
      funext fd
      rw [objectHolds, countP_cons, Pi.add_apply, objectHolds, one, Nat.add_comm]
    rw [hcons] at hheld ⊢
    refine (putObject_spec H F fun fd hfd => ?_).bind fun w K => ?_
    · have hle : one (fileOf o = some fd) + objectHolds os fd ≤ v.rc fd := hheld fd
      rw [decide_eq_true hfd, one_true] at hle
      omega
    refine (ih K.heap K.files fun s => ?_).mono fun u K' => K.trans K'
    have hrc : w.rc s + one (fileOf o = some s) = v.rc s := K.rc s
    have hle : one (fileOf o = some s) + objectHolds os s ≤ v.rc s := hheld s
    omega

theorem Ready.taskZombify (R : Ready strict v t) (hopens : t.opens = []) :
    Meets IsFreed (taskZombify v t) fun w => Kept strict v w t.holds 0 := by
  have hholds : t.holds = entryHolds t (finRange 32) + objectHolds t.objects := by
    funext fd
    rw [Task.holds, hopens]
    rfl
  have hheld fd : entryHolds t (finRange 32) fd + objectHolds t.objects fd ≤ v.rc fd := by
    have := R.held fd
    rwa [hholds] at this
  rw [hholds]
  refine (closeFiles_spec R.heap R.files fun fd => ?_).bind fun v₁ K₁ => ?_
  · have := hheld fd
    omega
  have hput : Meets IsFreed (putPath v₁ t.cwd) fun w => Kept strict v₁ w 0 0 := by
    have hcwd := K₁.linked _ R.cwd
    rw [putPath, if_neg (K₁.heap.ne_zero hcwd.live)]
    exact (meets_ventryPut hcwd).mono fun w R' =>
      kept_of_grown K₁.files (K₁.heap.recount R') R'.toThinned.grown
  refine hput.bind fun v₂ K₂ => ?_
  refine (putObjects_spec K₂.heap K₂.files fun fd => ?_).mono fun w K => K₁.trans (K₂.after K)
  have := hheld fd
  have hrc₁ : v₁.rc fd + entryHolds t (finRange 32) fd = v.rc fd := K₁.rc fd
  have hrc₂ : v₂.rc fd = v₁.rc fd := K₂.rc fd
  omega

end Ends

end Calls

end Monolith.Proc
