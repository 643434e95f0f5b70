import Monolith.Lib.Run
import Monolith.Mm.Vmm
import Monolith.Sched.Task

/-!
# Processes: `sched/task.c` and `sched/task_sys.c`

The tasks with their ids, parents and terminals, and the calls that change them: `sys_spawn`,
`sys_exit`, `sys_waitpid`, `sys_setsid`, `sys_setpgid` and `tty_open`.  A call is one step.

A task is a block of memory that `sys_spawn` allocates and `sys_waitpid` frees, at any address that
is free.  The children lists are the links of `list.h`, with the heads `task->children` and the
nodes `task->sibling`; `task_zombify` moves the children of a task to init while it walks along
their list.

Two things are only kept to talk about runs: every task has a serial number, and there is a record
of the tasks that have been destroyed and of what the call that did it returned.
-/

namespace Monolith.Process

open Function Intrusive Libk Mm Option

/-! ## The state -/

abbrev Ptr := Nat

abbrev Pid := BitVec 32

inductive TreeNode where
  | children (t : Ptr)
  | sibling (t : Ptr)
  deriving DecidableEq, Repr

structure Task where
  pid : Pid
  tgid : Pid
  pgid : Pid
  sid : Pid
  status : TaskStatus
  /-- `flags & TASK_CAN_REAP` -/
  canReap : Bool
  parent : Option Ptr
  tty : Option Nat
  returnStatus : BitVec 32
  returnSignal : BitVec 32
  /-- How many tasks had been created before. -/
  serial : Nat
  deriving DecidableEq, Repr

def isSessionLeader (x : Task) : Bool := x.sid == x.tgid

/-- A zombie that `sys_waitpid` may destroy. -/
def reapable (x : Task) : Bool := x.status == .zombie && x.canReap

/-- `struct tty_device` -/
structure Tty where
  sessionId : Pid
  fgPgrp : Pid
  deriving DecidableEq, Repr

inductive WaitResult where
  | pid (pid : Pid)
  | echild
  | eintr
  | efault
  deriving DecidableEq, Repr

/-- A task that has been destroyed, and what the call returned. -/
structure Reaped where
  serial : Nat
  pid : Pid
  result : WaitResult
  deriving DecidableEq, Repr

/-- The tasks and the terminals. -/
structure System where
  task : Ptr → Option Task
  links : Links TreeNode
  /-- `g_task_list` -/
  taskList : List Ptr
  nextPid : Pid
  initTask : Ptr
  tty : Nat → Tty
  /-- How many tasks have been created. -/
  created : Nat
  reaped : List Reaped

namespace System

variable (s : System)

def modify (t : Ptr) (f : Task → Task) : System :=
  { s with task := update s.task t ((s.task t).map f) }

end System

/-! ## `sched/task.c` -/

section Functions

variable (s : System)

def newTask (pid : Pid) (serial : Nat) : Task where
  pid := pid
  tgid := pid
  pgid := pid
  sid := pid
  status := .running
  canReap := false
  parent := none
  tty := none
  returnStatus := 0
  returnSignal := 0
  serial := serial

/-- `task_new(name, -1)`, in a new block `new`, with what the callers do to it before it can run. -/
def taskNew (new : Ptr) : System :=
  let pid := s.nextPid
  { s with
    task := update s.task new (some (newTask pid s.created))
    links := listNodeInit (listNodeInit s.links (.children new)) (.sibling new)
    taskList := if pid = 0 then s.taskList else s.taskList ++ [new]
    nextPid := s.nextPid + 1
    initTask := if pid = 1 then new else s.initTask
    created := s.created + 1 }

/-- A round of the loop of `task_zombify` over `g_task_list`. -/
def clearTty (sid : Pid) (s : System) (cur : Ptr) : System :=
  s.modify cur fun x => if x.sid = sid then { x with tty := none } else x

/-- The first part of `task_zombify`: a session leader gives up its terminal. -/
def dropTty (x : Task) : System :=
  match isSessionLeader x, x.tty with
  | true, some d =>
    let s := s.taskList.foldl (clearTty x.sid) s
    { s with tty := update s.tty d ⟨0, 0⟩ }
  | _, _ => s

/-- A round of the loop of `task_zombify` over the children: `init_task` becomes the parent.  Only
the source's compare-exchange of the parent could fail, and nothing else writes it in between. -/
def adopt (child : Ptr) : System :=
  { s.modify child fun x => { x with parent := some s.initTask } with
    links := listMove (listDel s.links (.sibling child)) (.children s.initTask) (.sibling child) }

/-- `list_for_each_entry_safe(child, tmp, &task->children, sibling)` of `task_zombify`, for `fuel`
rounds at most.  It is over at the head of the list; any other head is no task. -/
def adoptAll (task : Ptr) : Nat → System → TreeNode → TreeNode → Option System
  | 0, _, _, _ => none
  | _ + 1, s, .children u, _ => if u = task then some s else none
  | fuel + 1, s, .sibling child, tmp => adoptAll task fuel (adopt s child) tmp
    ((adopt s child).links.next tmp)

/-- `task_zombify`, as far as it is about processes. -/
def taskZombify (t : Ptr) : Option System := do
  let x ← s.task t
  let s := dropTty s x
  let pos := s.links.next (.children t)
  let s ← adoptAll t (s.created + 1) s pos (s.links.next pos)
  return s.modify t fun x => { x with canReap := true, status := .zombie }

def taskDestroy (t : Ptr) : System :=
  { s with task := update s.task t none, taskList := s.taskList.erase t }

/-- `get_pgrp_leader`: the first task of the list with this pid. -/
def getPgrpLeader (pgrp : Pid) : Option Task :=
  (s.taskList.filterMap s.task).find? fun cur => cur.pid == pgrp

/-! ## `sched/task_sys.c` -/

/-- `sys_spawn` up to `list_add`: `new` becomes a child of `t`, which has the fields `parent`. -/
def spawnChild (t new : Ptr) (setPgid : Bool) (parent : Task) : System :=
  let s := (taskNew s new).modify new fun proc =>
    { proc with
      parent := some t
      pgid := if setPgid then proc.pid else parent.pgid
      sid := parent.sid }
  { s with links := listAdd s.links (.children t) (.sibling new) }

/-- `sys_spawn`, once its pointers have been checked, by `t`.  `copied` says whether
`task_copy_args` succeeds. -/
def sysSpawn (t new : Ptr) (setPgid copied : Bool) : Option System := do
  let parent ← s.task t
  let s := spawnChild s t new setPgid parent
  if copied then return s.modify new fun proc => { proc with tty := parent.tty }
  else taskZombify s new

/-- `sys_exit`; a signal that ends a task is noted first.  The panics are no steps. -/
def sysExit (t : Ptr) (status signal : BitVec 32) : Option System := do
  let x ← s.task t
  if x.pid = 1 then none
  else taskZombify (s.modify t fun x =>
    { x with returnStatus := status, returnSignal := signal, status := .zombie }) t

/-- The loop of `sys_waitpid` over the children, for `fuel` rounds at most. -/
def scanChildren (task : Ptr) : Nat → TreeNode → Option (Option Ptr)
  | 0, _ => none
  | _ + 1, .children u => if u = task then some none else none
  | fuel + 1, .sibling child =>
    if (s.task child).any reapable then some (some child)
    else scanChildren task fuel (s.links.next (.sibling child))

/-- What `sys_waitpid` returns for a child that has been destroyed. -/
def waitResult (pid : Pid) (status : BitVec 64) : WaitResult :=
  if status ≠ 0 ∧ vmValidatePtr status = false then .efault else .pid pid

/-- The body of the loop of `sys_waitpid` for the child that has been found, and what is returned
then. -/
def reapChild (status : BitVec 64) (child : Ptr) : Option (WaitResult × System) := do
  let x ← s.task child
  let result := waitResult x.pid status
  let s := taskDestroy { s with links := listDel s.links (.sibling child) } child
  return (result, { s with reaped := s.reaped ++ [⟨x.serial, x.pid, result⟩] })

/-- `sys_waitpid` by `t`, which does not look at its first argument.  A call that finds no child to
destroy sleeps until a signal comes, and is over then. -/
def sysWaitpid (t : Ptr) (status : BitVec 64) : Option (WaitResult × System) :=
  if listEmpty s.links (.children t) then some (.echild, s)
  else (scanChildren s t (s.created + 1) (s.links.next (.children t))).bind fun found =>
    found.elim (some (.eintr, s)) (reapChild s status)

/-- `sys_setsid`, by a task with the fields `x` -/
def setsid (x : Task) :
    Task := if x.tgid = x.pgid then x else { x with pgid := x.tgid, sid := x.tgid, tty := none }

def sysSetsid (t : Ptr) : System := s.modify t setsid

/-- `sys_setpgid`, by a task with the fields `x` -/
def setpgid (pgid : Pid) (x : Task) : Task :=
  if x.tgid = x.sid then x
  else if pgid = 0 then { x with pgid := x.tgid }
  else
    match getPgrpLeader s pgid with
    | none => x
    | some leader => if leader.sid = x.sid then { x with pgid := pgid } else x

def sysSetpgid (t : Ptr) (pgid : Pid) : System := s.modify t (setpgid s pgid)

/-- `tty_open`, of a terminal that exists -/
def ttyOpen (t : Ptr) (d : Nat) : Option System := do
  let x ← s.task t
  if x.tty = none ∧ isSessionLeader x ∧ (s.tty d).sessionId = 0 then
    return { s.modify t fun x => { x with tty := some d } with
      tty := update s.tty d ⟨x.sid, x.pgid⟩ }
  else return s

end Functions

/-! ## What the parts do -/

variable {α : Type} {setPgid : Bool} {x : Task} {g : Task → α}

section Frames

variable {s s' s'' : System} {t p : Ptr} {f : Task → Task} {β : Type}

@[simp] theorem modify_self : (s.modify t f).task t = (s.task t).map f := update_self _ _ _

theorem modify_of_ne (h : p ≠ t) : (s.modify t f).task p = s.task p := update_of_ne h _ _

theorem update_none_eq_some [DecidableEq α] {f : α → Option β} {c q : α} {y : β} :
    update f c none q = some y ↔ q ≠ c ∧ f q = some y := by
  by_cases hq : q = c
  · rw [hq, update_self]
    exact iff_of_false nofun fun h => h.1 rfl
  · rw [update_of_ne hq, and_iff_right hq]

theorem taskNew_self : (taskNew s t).task t = some (newTask s.nextPid s.created) :=
  update_self _ _ _

theorem spawnChild_self :
    (spawnChild s p t setPgid x).task t = some { newTask s.nextPid s.created with
      parent := some p
      pgid := if setPgid then s.nextPid else x.pgid
      sid := x.sid } := by
  show ((taskNew s t).modify t _).task t = _
  rw [modify_self, taskNew_self]
  rfl

theorem spawnChild_of_ne {q : Ptr} (h : q ≠ t) :
    (spawnChild s p t setPgid x).task q = s.task q := by
  show ((taskNew s t).modify t _).task q = _
  rw [modify_of_ne h]
  exact update_of_ne h _ _

theorem sysSpawn_eq {copied : Bool} (hx : s.task p = some x) : sysSpawn s p t setPgid copied =
    if copied then some ((spawnChild s p t setPgid x).modify t fun proc =>
    { proc with tty := x.tty })
    else taskZombify (spawnChild s p t setPgid x) t := by
  simp [sysSpawn, hx]

theorem map_modify (hg : ∀ x, g (f x) = g x) (p : Ptr) :
    ((s.modify t f).task p).map g = (s.task p).map g := by
  by_cases h : p = t
  · rw [h, modify_self, map_map]
    exact congrArg (Option.map · _) (funext hg)
  · rw [modify_of_ne h]

/-- Tasks that agree under a function agree under whatever depends on it alone. -/
theorem map_comp_eq (i : α → β) {o o' : Option Task} (h : o'.map g = o.map g) :
    o'.map (i ∘ g) = o.map (i ∘ g) := by
  rw [← map_map, ← map_map, h]

/-- A task without its parent. -/
def Task.orphan (x : Task) : Task := { x with parent := none }

/-- Two systems that differ in parents and links only. -/
structure Kin (s s' : System) : Prop where
  task : ∀ p, (s'.task p).map Task.orphan = (s.task p).map Task.orphan
  taskList : s'.taskList = s.taskList
  nextPid : s'.nextPid = s.nextPid
  initTask : s'.initTask = s.initTask
  tty : s'.tty = s.tty
  created : s'.created = s.created
  reaped : s'.reaped = s.reaped

theorem Kin.refl (s : System) : Kin s s := ⟨fun _ => rfl, rfl, rfl, rfl, rfl, rfl, rfl⟩

theorem Kin.trans (h : Kin s s') (h' : Kin s' s'') : Kin s s'' where
  task p := (h'.task p).trans (h.task p)
  taskList := h'.taskList.trans h.taskList
  nextPid := h'.nextPid.trans h.nextPid
  initTask := h'.initTask.trans h.initTask
  tty := h'.tty.trans h.tty
  created := h'.created.trans h.created
  reaped := h'.reaped.trans h.reaped

/-- A task of one system is, but for its parent, one of the other. -/
theorem Kin.of_task (h : Kin s s') {x' : Task} (hx' : s'.task p = some x') :
    ∃ x, s.task p = some x ∧ x'.orphan = x.orphan := by
  have htask := h.task p
  rw [hx'] at htask
  obtain ⟨x, hx, heq⟩ := map_eq_some_iff.1 htask.symm
  exact ⟨x, hx, heq.symm⟩

theorem adopt_kin (s : System) (child : Ptr) : Kin s (adopt s child) :=
  ⟨map_modify fun _ => rfl, rfl, rfl, rfl, rfl, rfl, rfl⟩

theorem adoptAll_kin {fuel : Nat} {pos tmp : TreeNode} (h : adoptAll t fuel s pos tmp = some s') :
    Kin s s' := by
  induction fuel generalizing s pos tmp with
  | zero => cases h
  | succ fuel ih =>
    cases pos with
    | children u =>
      rw [adoptAll] at h
      split at h
      · exact some_inj.1 h ▸ Kin.refl s
      · cases h
    | sibling child => exact (adopt_kin s child).trans (ih h)

theorem foldl_clearTty (sid : Pid) (l : List Ptr) (s : System) : l.foldl (clearTty sid) s =
    { s with
      task := fun p => (s.task p).map fun x =>
        if p ∈ l ∧ x.sid = sid then { x with tty := none } else x } := by
  induction l generalizing s with
  | nil => simp
  | cons a l ih =>
    rw [List.foldl_cons, ih]
    refine congrArg (fun task => { s with task := task }) (funext fun p => ?_)
    rcases eq_or_ne p a with rfl | hp
    · rw [clearTty, modify_self, map_map]
      refine congrArg (Option.map · _) (funext fun x => ?_)
      by_cases hsid : x.sid = sid <;> simp [hsid]
    · rw [clearTty, modify_of_ne hp]
      refine congrArg (Option.map · _) (funext fun x => ?_)
      simp [hp]

/-- A session leader with a terminal takes it from the whole session. -/
theorem dropTty_leader {d : Nat} (hlead : x.sid = x.tgid) (htty : x.tty = some d) : dropTty s x =
    { s with
      task := fun p => (s.task p).map fun y => if p ∈ s.taskList ∧
      y.sid = x.sid then { y with tty := none } else y
      tty := update s.tty d ⟨0, 0⟩ } := by
  rw [dropTty, isSessionLeader, hlead, beq_self_eq_true, htty]
  rw [foldl_clearTty]

theorem dropTty_other (h : x.sid = x.tgid → x.tty = none) : dropTty s x = s := by
  rw [dropTty]
  split
  · rename_i d hlead htty
    simp [h (eq_of_beq hlead)] at htty
  · rfl

/-- A task without its group, its session and its terminal. -/
def Task.bare (x : Task) : Task := { x with pgid := 0, sid := 0, tty := none }

theorem setsid_bare (x : Task) : (setsid x).bare = x.bare := by
  rw [setsid]
  split
  · rfl
  · rfl

theorem setpgid_bare (pgid : Pid) (x : Task) : (setpgid s pgid x).bare = x.bare := by
  rw [setpgid]
  split
  · rfl
  split
  · rfl
  split
  · rfl
  split
  · rfl
  · rfl

/-- What is never assigned to by `task_zombify`. -/
def Task.ids (x : Task) : Pid × Pid × Pid × Pid × Nat := (x.pid, x.tgid, x.pgid, x.sid, x.serial)

/-- Two systems with the same tasks, under the same ids. -/
structure SameIds (s s' : System) : Prop where
  task : ∀ p, (s'.task p).map Task.ids = (s.task p).map Task.ids
  taskList : s'.taskList = s.taskList
  nextPid : s'.nextPid = s.nextPid
  initTask : s'.initTask = s.initTask
  created : s'.created = s.created
  reaped : s'.reaped = s.reaped

theorem SameIds.trans (h : SameIds s s') (h' : SameIds s' s'') : SameIds s s'' where
  task p := (h'.task p).trans (h.task p)
  taskList := h'.taskList.trans h.taskList
  nextPid := h'.nextPid.trans h.nextPid
  initTask := h'.initTask.trans h.initTask
  created := h'.created.trans h.created
  reaped := h'.reaped.trans h.reaped

theorem Kin.sameIds (h : Kin s s') : SameIds s s' where
  task p := map_comp_eq (g := Task.orphan) Task.ids (h.task p)
  taskList := h.taskList
  nextPid := h.nextPid
  initTask := h.initTask
  created := h.created
  reaped := h.reaped

theorem modify_sameIds (hf : ∀ x, (f x).ids = x.ids) : SameIds s (s.modify t f) :=
  ⟨map_modify hf, rfl, rfl, rfl, rfl, rfl⟩

theorem map_dropTty (hg : ∀ x, g { x with tty := none } = g x) (x : Task) (p : Ptr) :
    ((dropTty s x).task p).map g = (s.task p).map g := by
  rw [dropTty]
  split
  · rw [foldl_clearTty, map_map]
    refine congrArg (Option.map · _) (funext fun y => ?_)
    rw [comp_apply]
    split
    · exact hg y
    · rfl
  · rfl

theorem dropTty_links (s : System) (x : Task) : (dropTty s x).links = s.links := by
  rw [dropTty]
  split
  · rw [foldl_clearTty]
  · rfl

theorem dropTty_sameIds (s : System) (x : Task) : SameIds s (dropTty s x) := by
  refine ⟨map_dropTty (fun _ => rfl) x, ?_, ?_, ?_, ?_, ?_⟩ <;>
  · rw [dropTty]
    split
    · rw [foldl_clearTty]
    · rfl

theorem taskZombify_eq_some : taskZombify s t = some s' ↔ ∃ x u, s.task t = some x ∧
    adoptAll t ((dropTty s x).created + 1) (dropTty s x) ((dropTty s x).links.next (.children t))
      ((dropTty s x).links.next ((dropTty s x).links.next (.children t))) = some u ∧
    s' = u.modify t fun x => { x with canReap := true, status := .zombie } := by
  simp only [taskZombify, bind_eq_bind, bind_eq_some_iff, pure_def, some_inj]
  constructor
  · rintro ⟨x, hx, u, hu, rfl⟩
    exact ⟨x, u, hx, hu, rfl⟩
  · rintro ⟨x, u, hx, hu, rfl⟩
    exact ⟨x, hx, u, hu, rfl⟩

theorem taskZombify_sameIds (h : taskZombify s t = some s') : SameIds s s' := by
  obtain ⟨x, u, -, hu, rfl⟩ := taskZombify_eq_some.1 h
  exact (dropTty_sameIds s x).trans ((adoptAll_kin hu).sameIds.trans (modify_sameIds fun _ => rfl))

end Frames

/-! ## Runs -/

inductive Call where
  | spawn (new : Ptr) (setPgid copied : Bool)
  | exit (status signal : BitVec 32)
  | waitpid (status : BitVec 64)
  | setsid
  | setpgid (pgid : Pid)
  | ttyOpen (d : Nat)
  deriving DecidableEq, Repr

structure Act where
  task : Ptr
  call : Call
  deriving DecidableEq, Repr

/-- What a call by `t` leaves. -/
def System.effect (s : System) (t : Ptr) : Call → Option System
  | .spawn new setPgid copied => if s.task new = none then sysSpawn s t new setPgid copied else none
  | .exit status signal => sysExit s t status signal
  | .waitpid status => (sysWaitpid s t status).map Prod.snd
  | .setsid => some (sysSetsid s t)
  | .setpgid pgid => some (sysSetpgid s t pgid)
  | .ttyOpen d => ttyOpen s t d

/-- One step: a call by a task that runs. -/
def System.step (s : System) (a : Act) : Option System :=
  if (s.task a.task).any fun x => x.status == .running then s.effect a.task a.call else none

theorem System.step_eq_some {s s' : System} {a : Act} (h : s.step a = some s') :
    ∃ x, s.task a.task = some x ∧ x.status = .running ∧ s.effect a.task a.call = some s' := by
  obtain ⟨hany, h⟩ := ite_none_right_eq_some.1 h
  obtain ⟨x, hx, hrun⟩ := (any_eq_true _ _).1 hany
  exact ⟨x, hx, eq_of_beq hrun, h⟩

/-- The system after `spawn_init`: the first task is at address 0. -/
def boot : System where
  task := update (fun _ => none) 0 (some (newTask 1 0))
  links := { prev := id, next := id }
  taskList := [0]
  nextPid := 2
  initTask := 0
  tty _ := ⟨0, 0⟩
  created := 1
  reaped := []

theorem boot_task {p : Ptr} (hx : boot.task p = some x) : p = 0 ∧ x = newTask 1 0 := by
  by_cases hp : p = 0
  · subst hp
    exact ⟨rfl, (some_inj.1 hx).symm⟩
  · change update (fun _ => none) 0 (some (newTask 1 0)) p = some x at hx
    simp [hp] at hx

/-- A child that the loop finds can be reaped. -/
theorem scanChildren_some {s : System} {t c : Ptr} {fuel : Nat} {pos : TreeNode}
    (h : scanChildren s t fuel pos = some (some c)) : (s.task c).any reapable := by
  induction fuel generalizing pos with
  | zero => cases h
  | succ fuel ih =>
    cases pos with rw [scanChildren] at h
    | children u =>
      split at h
      · cases h
      · cases h
    | sibling child =>
      split_ifs at h with hany
      · rw [Option.some_inj, Option.some_inj] at h
        exact h ▸ hany
      · exact ih h

end Monolith.Process
