import Monolith.Lib.Run
import Monolith.Sched.Task

/-!
# `sys/mutex.c`: the sleeping lock

`mutex_lock` and `mutex_unlock` are cut here into the pieces that are atomic in the source: the
section under the mutex's own spinlock, the compare-exchange on the status word of the caller, and
`sched_yield`, which comes back once somebody has set that word to `TASK_RUNNING` again.

* `mutexLockEnter`, `mutexLockSleep` are the first two pieces of `mutex_lock`; `mutexUnlock` is the
  section of `mutex_unlock`, with `retryAwake` its loop over the wait queue.
* `MutexSys` is any number of tasks running these pieces on one mutex, in any order.
* `mutualExclusion_of_noBarging` says when the lock excludes: as long as nobody enters `mutex_lock`
  between the wake-up of a waiter and that waiter's own `mutex_unlock`.
  `mutualExclusion_fails` is the run that shows why.  `mutex_unlock` clears `locked` *and* wakes a
  waiter, and the waiter returns from `mutex_lock` without setting the flag again; for a newcomer
  the mutex looks free.

The wait queue is a stack threaded through `task->next`; it is a list here, pushed and popped at
its head as in the source.
-/

namespace Monolith

open Function Transition List Option

variable {τ : Type}

/-! ## The pieces -/

/-- `mutex_t`, without the spinlock that makes its sections atomic. -/
structure Mutex (τ : Type) where
  /-- The flag the fast path tests. -/
  locked : Bool
  /-- The tasks asleep on it, the latest one first. -/
  waitqueue : List τ

def mutexInit : Mutex τ := { locked := false, waitqueue := [] }

/-- The section of `mutex_lock` under the spinlock, and whether the caller now has the lock. -/
def mutexLockEnter (mutex : Mutex τ) (task : τ) : Mutex τ × Bool :=
  if mutex.locked then ({ mutex with waitqueue := task :: mutex.waitqueue }, false)
  else ({ mutex with locked := true }, true)

/-- The compare-exchange of `mutex_lock` on the caller's status word.  A word that is
`TASK_SLEEPING` already is let through. -/
def mutexLockSleep : TaskStatus → Except Panic TaskStatus
  | .running => .ok .sleeping
  | .sleeping => .ok .sleeping
  | st => .error (.mutexLock st)

/-- The loop `retry_awake` of `mutex_unlock`: the task whose status goes from `TASK_SLEEPING` to
`TASK_RUNNING`, if any, and what is left of the wait queue. -/
def retryAwake (status : τ → TaskStatus) : List τ → Except Panic (Option τ × List τ)
  | [] => .ok (none, [])
  | task :: rest =>
    match status task with
    | .sleeping => .ok (some task, rest)
    -- task died while waiting on mutex, try awaking someone else
    | .zombie => retryAwake status rest
    | st => .error (.mutexUnlock st)

/-- The section of `mutex_unlock` under the spinlock, and the task to hand to `sched_add_ready`. -/
def mutexUnlock (status : τ → TaskStatus) (mutex : Mutex τ) : Except Panic (Mutex τ × Option τ) :=
  (retryAwake status mutex.waitqueue).map fun r => ({ locked := false, waitqueue := r.2 }, r.1)

variable {rest : List τ} {u t : τ} {idle : τ → Bool} {status : τ → TaskStatus} {q : List τ}

/-- `retry_awake` drops dead tasks and stops at the first other one, which has to be asleep. -/
theorem retryAwake_some (h : retryAwake status q = .ok (some u, rest)) :
    ∃ dead, q = dead ++ u :: rest ∧ (∀ z ∈ dead, status z = .zombie) ∧ status u = .sleeping := by
  induction q with
  | nil => simp [retryAwake] at h
  | cons t q ih =>
    rw [retryAwake] at h
    split at h
    · rename_i hst
      obtain ⟨rfl, rfl⟩ := h
      exact ⟨[], rfl, by simp, hst⟩
    · rename_i hst
      obtain ⟨dead, rfl, hdead, hu⟩ := ih h
      exact ⟨t :: dead, rfl, by simpa [hst] using hdead, hu⟩
    · simp at h

theorem retryAwake_none (h : retryAwake status q = .ok (none, rest)) :
    rest = [] ∧ ∀ z ∈ q, status z = .zombie := by
  induction q with
  | nil => simpa [retryAwake, eq_comm] using h
  | cons t q ih =>
    rw [retryAwake] at h
    split at h
    · simp at h
    · rename_i hst
      exact ⟨(ih h).1, by simpa [hst] using (ih h).2⟩
    · simp at h

/-! ## Any number of tasks on one mutex -/

/-- Where a task is with respect to the mutex. -/
inductive LockPc where
  /-- Not in `mutex_lock`, and not between its return and the matching `mutex_unlock`. -/
  | outside
  /-- On the wait queue, before the compare-exchange. -/
  | queued
  /-- Past the compare-exchange: in `sched_yield`. -/
  | asleep
  /-- Returned from `mutex_lock`, before `mutex_unlock`. -/
  | inside
  deriving DecidableEq, Repr

/-- The mutex and all the tasks that use it. -/
structure MutexSys (τ : Type) where
  mutex : Mutex τ
  status : τ → TaskStatus
  pc : τ → LockPc
  /-- History: the waiter that the last `mutex_unlock` woke, until its own `mutex_unlock`.  The
  code keeps no such record; nothing below reads it but the conditions on runs. -/
  handed : Option τ
  /-- Set once the kernel has panicked. -/
  panicked : Option Panic

/-- A mutex that nobody uses yet.  The status words may be anything: a task that is exiting calls
`mutex_lock` with `TASK_ZOMBIE`. -/
def MutexSys.init (status : τ → TaskStatus) : MutexSys τ where
  mutex := mutexInit
  status := status
  pc := fun _ => .outside
  handed := none
  panicked := none

/-- At most one task is between its return from `mutex_lock` and its `mutex_unlock`. -/
def MutexSys.Exclusive (s : MutexSys τ) : Prop := ∀ t u, s.pc t = .inside → s.pc u = .inside → t = u

/-! ## The invariant -/

/-- Who can be where.  While nobody has been handed the mutex, the flag `locked` is right about the
one task that may be inside; while `u` has been handed the mutex, the flag is down and everybody
else is outside, on the wait queue, or dead. -/
structure MutexSys.Inv (idle : τ → Bool) (s : MutexSys τ) : Prop where
  /-- A task is on the wait queue once. -/
  nodup : s.mutex.waitqueue.Nodup
  /-- The tasks on the wait queue are in `mutex_lock`. -/
  waiting : ∀ u ∈ s.mutex.waitqueue,
    s.pc u = .queued ∨ (s.pc u = .asleep ∧ s.status u = .sleeping)
  /-- No idle task is in `mutex_lock`. -/
  notIdle : ∀ u, s.pc u = .queued ∨ s.pc u = .asleep → idle u = false
  /-- A task before its compare-exchange is on the wait queue, unless it was taken off it dead. -/
  queued : ∀ u, s.pc u = .queued →
    u ∈ s.mutex.waitqueue ∨ s.status u = .zombie ∨ s.handed = some u
  /-- A task asleep off the wait queue is the one that was woken. -/
  woken : ∀ u, s.pc u = .asleep → u ∈ s.mutex.waitqueue ∨ s.handed = some u
  /-- The task that was woken is off the wait queue, in the lock or past it, and the flag is
  down. -/
  handed : ∀ u, s.handed = some u →
    s.mutex.locked = false ∧ u ∉ s.mutex.waitqueue ∧ s.pc u ≠ .outside
  /-- It is the only task that can be inside. -/
  owner : ∀ u t, s.handed = some u → s.pc t = .inside → t = u
  /-- With nobody woken, the flag is up while a task is inside. -/
  locked : ∀ t, s.handed = none → s.pc t = .inside → s.mutex.locked = true
  /-- And one task is. -/
  single : ∀ t u, s.handed = none → s.pc t = .inside → s.pc u = .inside → t = u

variable {s s' : MutexSys τ}

theorem MutexSys.Inv.exclusive (h : s.Inv idle) : s.Exclusive := by
  intro t u ht hu
  cases hh : s.handed with
  | none => exact h.single t u hh ht hu
  | some w => rw [h.owner w t hh ht, h.owner w u hh hu]

theorem MutexSys.init_inv (idle : τ → Bool) (status : τ → TaskStatus) :
    (MutexSys.init status).Inv idle where
  nodup := by simp [MutexSys.init, mutexInit]
  waiting := by simp [MutexSys.init, mutexInit]
  notIdle := by simp [MutexSys.init]
  queued := by simp [MutexSys.init]
  woken := by simp [MutexSys.init]
  handed := by simp [MutexSys.init]
  owner := by simp [MutexSys.init]
  locked := by simp [MutexSys.init]
  single := by simp [MutexSys.init]

theorem MutexSys.Inv.panic (h : s.Inv idle) (p : Panic) :
    MutexSys.Inv idle { s with panicked := some p } :=
  ⟨h.nodup, h.waiting, h.notIdle, h.queued, h.woken, h.handed, h.owner, h.locked, h.single⟩

/-! ## The steps -/

inductive MutexAction (τ : Type) where
  /-- The section of `mutex_lock`. -/
  | enter (t : τ)
  /-- The compare-exchange of `mutex_lock`. -/
  | sleep (t : τ)
  /-- `sched_yield` returns to `mutex_lock`, and that to its caller. -/
  | wake (t : τ)
  /-- The section of `mutex_unlock`. -/
  | unlock (t : τ)

variable [DecidableEq τ]

/-- One step.  `sched_yield` comes back to a task once its status is `TASK_RUNNING` again.  To the
idle task of a CPU it may come back at any time: `schedule` falls back on that very task when there
is nothing else to run, and a task is not switched with itself. -/
def MutexSys.step (idle : τ → Bool) (s : MutexSys τ) : MutexAction τ → Option (MutexSys τ)
  | .enter t =>
    if s.panicked = none ∧ s.pc t = .outside then
      let r := mutexLockEnter s.mutex t
      some { s with
        mutex := r.1
        pc := update s.pc t (if r.2 then .inside else .queued) }
    else none
  | .sleep t =>
    if s.panicked = none ∧ s.pc t = .queued then
      match mutexLockSleep (s.status t) with
      | .ok st => some { s with
          status := update s.status t st
          pc := update s.pc t .asleep }
      | .error p => some { s with panicked := some p }
    else none
  | .wake t =>
    if s.panicked = none ∧ s.pc t = .asleep ∧ (s.status t = .running ∨ idle t = true) then
      some { s with pc := update s.pc t .inside }
    else none
  | .unlock t =>
    if s.panicked = none ∧ s.pc t = .inside then
      match mutexUnlock s.status s.mutex with
      | .ok (mutex, none) => some { s with
          mutex := mutex
          pc := update s.pc t .outside
          handed := none }
      | .ok (mutex, some u) => some { s with
          mutex := mutex
          status := update s.status u .running
          pc := update s.pc t .outside
          handed := some u }
      | .error p => some { s with panicked := some p }
    else none

/-- What a run has to keep away from.  Nobody enters `mutex_lock` while a waiter that
`mutex_unlock` has woken has not been through `mutex_unlock` itself; and no idle task goes to
sleep on the mutex. -/
def MutexSys.NoBarging (idle : τ → Bool) (s : MutexSys τ) : MutexAction τ → Prop
  | .enter t => s.handed = none ∧ (s.mutex.locked = true → idle t = false)
  | _ => True

/-! ## What one step can do -/

theorem MutexSys.step_enter (h : s.step idle (.enter t) = some s') : s.pc t = .outside ∧
      ((s.mutex.locked = true ∧ s' = { s with
          mutex := { s.mutex with waitqueue := t :: s.mutex.waitqueue }
          pc := update s.pc t .queued }) ∨
        (s.mutex.locked = false ∧ s' = { s with
          mutex := { s.mutex with locked := true }
          pc := update s.pc t .inside })) := by
  obtain ⟨hpc, h⟩ := ite_none_right_eq_some.1 h
  refine ⟨hpc.2, ?_⟩
  simp only [some.injEq, mutexLockEnter] at h
  cases hl : s.mutex.locked with
  | true => exact .inl ⟨rfl, by rw [← h]; simp [hl]⟩
  | false => exact .inr ⟨rfl, by rw [← h]; simp [hl]⟩

theorem MutexSys.step_sleep (h : s.step idle (.sleep t) = some s') : s.pc t = .queued ∧
      (((s.status t = .running ∨ s.status t = .sleeping) ∧ s' = { s with
          status := update s.status t .sleeping
          pc := update s.pc t .asleep }) ∨
        ∃ p, s' = { s with panicked := some p }) := by
  obtain ⟨hpc, h⟩ := ite_none_right_eq_some.1 h
  refine ⟨hpc.2, ?_⟩
  cases hst : s.status t <;> simp only [hst, mutexLockSleep, some.injEq] at h
  · exact .inl ⟨.inl rfl, h.symm⟩
  · exact .inl ⟨.inr rfl, h.symm⟩
  all_goals exact .inr ⟨_, h.symm⟩

theorem MutexSys.step_wake (h : s.step idle (.wake t) = some s') : s.pc t = .asleep ∧
      (s.status t = .running ∨ idle t = true) ∧ s' = { s with pc := update s.pc t .inside } := by
  obtain ⟨hpc, h⟩ := ite_none_right_eq_some.1 h
  exact ⟨hpc.2.1, hpc.2.2, (some.inj h).symm⟩

/-- `mutex_unlock` leaves at most dead tasks behind, or hands the mutex to the task `u` it found
behind them. -/
theorem MutexSys.step_unlock (h : s.step idle (.unlock t) = some s') : s.pc t = .inside ∧
      (((∀ z ∈ s.mutex.waitqueue, s.status z = .zombie) ∧ s' = { s with
          mutex := mutexInit
          pc := update s.pc t .outside
          handed := none }) ∨
        (∃ dead u rest, s.mutex.waitqueue = dead ++ u :: rest ∧
          (∀ z ∈ dead, s.status z = .zombie) ∧ s.status u = .sleeping ∧ s' = { s with
            mutex := { locked := false, waitqueue := rest }
            status := update s.status u .running
            pc := update s.pc t .outside
            handed := some u }) ∨
        ∃ p, s' = { s with panicked := some p }) := by
  obtain ⟨hpc, h⟩ := ite_none_right_eq_some.1 h
  refine ⟨hpc.2, ?_⟩
  rw [mutexUnlock] at h
  rcases hq : retryAwake s.status s.mutex.waitqueue with p | r
  · simp only [hq, Except.map, some.injEq] at h
    exact .inr (.inr ⟨p, h.symm⟩)
  obtain ⟨woken, rest⟩ := r
  rcases woken with _ | u
  · obtain ⟨rfl, hdead⟩ := retryAwake_none hq
    simp only [hq, Except.map, some.injEq] at h
    exact .inl ⟨hdead, h.symm⟩
  obtain ⟨dead, hd, hz, hu⟩ := retryAwake_some hq
  simp only [hq, Except.map, some.injEq] at h
  exact .inr (.inl ⟨dead, u, rest, hd, hz, hu, h.symm⟩)

/-! ## Every step keeps the invariant -/

theorem pc_of_update {pc : τ → LockPc} {x y : LockPc} (h : update pc t x u = y) (hxy : x ≠ y) :
    u ≠ t ∧ pc u = y := by
  have hut : u ≠ t := by
    rintro rfl
    exact hxy ((update_self ..).symm.trans h)
  exact ⟨hut, (update_of_ne hut ..).symm.trans h⟩

section

variable (h : s.Inv idle)

include h

namespace MutexSys.Inv

theorem enqueue (hpc : s.pc t = .outside) (hidle : idle t = false) :
    MutexSys.Inv idle { s with
      mutex := { s.mutex with waitqueue := t :: s.mutex.waitqueue }
      pc := update s.pc t .queued } := by
  have hnot : t ∉ s.mutex.waitqueue := by
    intro hm
    rcases h.waiting t hm with hq | ⟨hq, -⟩ <;> simp [hpc] at hq
  have hne : ∀ u, s.pc u ≠ .outside → u ≠ t := by rintro u hu rfl; exact hu hpc
  refine ⟨nodup_cons.2 ⟨hnot, h.nodup⟩, ?_, ?_, ?_, ?_, ?_, ?_, ?_, ?_⟩
  · intro u hu
    by_cases hut : u = t
    · subst hut; simp
    · simpa [hut] using h.waiting u (by simpa [hut] using hu)
  · intro u hu
    by_cases hut : u = t
    · exact hut ▸ hidle
    · exact h.notIdle u (by simpa [hut] using hu)
  · intro u hu
    by_cases hut : u = t
    · exact .inl (by simp [hut])
    rcases h.queued u (by simpa [hut] using hu) with hm | hm
    · exact .inl (mem_cons_of_mem _ hm)
    · exact .inr hm
  · intro u hu
    rcases h.woken u (pc_of_update hu nofun).2 with hm | hm
    · exact .inl (mem_cons_of_mem _ hm)
    · exact .inr hm
  · intro u hu
    obtain ⟨h1, h2, h3⟩ := h.handed u hu
    exact ⟨h1, by simp [hne u h3, h2], by simpa [hne u h3] using h3⟩
  · intro u w hu hw
    exact h.owner u w hu (pc_of_update hw nofun).2
  · intro w hh hw
    exact h.locked w hh (pc_of_update hw nofun).2
  · intro w u hh hw hu
    exact h.single w u hh (pc_of_update hw nofun).2 (pc_of_update hu nofun).2

/-- The fast path of `mutex_lock`.  Nobody was woken, so a flag that is down means that nobody is
inside. -/
theorem acquire (hpc : s.pc t = .outside) (hl : s.mutex.locked = false) (hh : s.handed = none) :
    MutexSys.Inv idle { s with
      mutex := { s.mutex with locked := true }
      pc := update s.pc t .inside } := by
  have hnone : ∀ u, s.pc u ≠ .inside := fun u hu => by
    have := h.locked u hh hu
    simp [hl] at this
  have hnot : t ∉ s.mutex.waitqueue := by
    intro hm
    rcases h.waiting t hm with hq | ⟨hq, -⟩ <;> simp [hpc] at hq
  have hin u (hu : update s.pc t .inside u = .inside) : u = t := by
    by_contra hut
    exact hnone u (by simpa [hut] using hu)
  refine ⟨h.nodup, ?_, ?_, ?_, ?_, ?_, ?_, fun _ _ _ => rfl, ?_⟩
  · intro u hu
    have hut : u ≠ t := by rintro rfl; exact hnot hu
    simpa [hut] using h.waiting u hu
  · intro u hu
    have hut : u ≠ t := by rintro rfl; simp at hu
    exact h.notIdle u (by simpa [hut] using hu)
  · intro u hu
    exact h.queued u (pc_of_update hu nofun).2
  · intro u hu
    exact h.woken u (pc_of_update hu nofun).2
  · intro u hu
    simp [hh] at hu
  · intro u w hu
    simp [hh] at hu
  · intro w u _ hw hu
    rw [hin w hw, hin u hu]

theorem fallAsleep (hpc : s.pc t = .queued) (hmem : t ∈ s.mutex.waitqueue ∨ s.handed = some t) :
    MutexSys.Inv idle { s with
      status := update s.status t .sleeping
      pc := update s.pc t .asleep } := by
  refine ⟨h.nodup, ?_, ?_, ?_, ?_, ?_, ?_, ?_, ?_⟩
  · intro u hu
    by_cases hut : u = t
    · subst hut; simp
    · simpa [hut] using h.waiting u hu
  · intro u hu
    by_cases hut : u = t
    · exact h.notIdle u (.inl (hut ▸ hpc))
    · exact h.notIdle u (by simpa [hut] using hu)
  · intro u hu
    obtain ⟨hut, hu⟩ := pc_of_update hu nofun
    simpa [hut] using h.queued u hu
  · intro u hu
    by_cases hut : u = t
    · exact hut ▸ hmem
    · exact h.woken u (by simpa [hut] using hu)
  · intro u hu
    obtain ⟨h1, h2, h3⟩ := h.handed u hu
    refine ⟨h1, h2, ?_⟩
    by_cases hut : u = t
    · subst hut; simp
    · simpa [hut] using h3
  · intro u w hu hw
    exact h.owner u w hu (pc_of_update hw nofun).2
  · intro w hh hw
    exact h.locked w hh (pc_of_update hw nofun).2
  · intro w u hh hw hu
    exact h.single w u hh (pc_of_update hw nofun).2 (pc_of_update hu nofun).2

theorem resume (hpc : s.pc t = .asleep) (hh : s.handed = some t) :
    MutexSys.Inv idle { s with
      pc := update s.pc t .inside } := by
  obtain ⟨hl, hnot, -⟩ := h.handed t hh
  refine ⟨h.nodup, ?_, ?_, ?_, ?_, ?_, ?_, ?_, ?_⟩
  · intro u hu
    have hut : u ≠ t := by rintro rfl; exact hnot hu
    simpa [hut] using h.waiting u hu
  · intro u hu
    have hut : u ≠ t := by rintro rfl; simp at hu
    exact h.notIdle u (by simpa [hut] using hu)
  · intro u hu
    exact h.queued u (pc_of_update hu nofun).2
  · intro u hu
    exact h.woken u (pc_of_update hu nofun).2
  · intro u hu
    obtain rfl : t = u := some.inj (hh.symm.trans hu)
    exact ⟨hl, hnot, by simp⟩
  · intro u w hu hw
    by_cases hwt : w = t
    · rw [hwt]; exact some.inj (hh.symm.trans hu)
    · exact h.owner u w hu (by simpa [hwt] using hw)
  · intro w hn
    simp [hh] at hn
  · intro w u hn
    simp [hh] at hn

/-- After `mutex_unlock` nobody is inside: the caller was the only one. -/
theorem nobody (hpc : s.pc t = .inside) (u : τ) : update s.pc t .outside u ≠ .inside := by
  by_cases hut : u = t
  · subst hut; simp
  · intro hu
    exact hut (h.exclusive u t (by simpa [hut] using hu) hpc)

theorem release (hpc : s.pc t = .inside) (hdead : ∀ z ∈ s.mutex.waitqueue, s.status z = .zombie) :
    MutexSys.Inv idle { s with
      mutex := mutexInit
      pc := update s.pc t .outside
      handed := none } := by
  have hown : ∀ u, s.handed = some u → u = t := fun u hu => (h.owner u t hu hpc).symm
  refine ⟨by simp [mutexInit], by simp [mutexInit], ?_, ?_, ?_, by simp, by simp, ?_, ?_⟩
  · intro u hu
    have hut : u ≠ t := by rintro rfl; simp at hu
    exact h.notIdle u (by simpa [hut] using hu)
  · intro u hu
    obtain ⟨hut, hu⟩ := pc_of_update hu nofun
    rcases h.queued u hu with hm | hm | hm
    · exact .inr (.inl (hdead u hm))
    · exact .inr (.inl hm)
    · exact absurd (hown u hm) hut
  · intro u hu
    obtain ⟨hut, hu'⟩ := pc_of_update hu nofun
    rcases h.woken u hu' with hm | hm
    · -- a dead task is never asleep on the queue
      rcases h.waiting u hm with hq | ⟨-, hq⟩
      · simp [hu'] at hq
      · simp [hdead u hm] at hq
    · exact absurd (hown u hm) hut
  · intro u _ hu
    exact absurd hu (h.nobody hpc u)
  · intro u _ _ hu
    exact absurd hu (h.nobody hpc u)

theorem handOver {dead : List τ} (hpc : s.pc t = .inside)
    (hq : s.mutex.waitqueue = dead ++ u :: rest) (hdead : ∀ z ∈ dead, s.status z = .zombie)
    (hu : s.status u = .sleeping) : MutexSys.Inv idle { s with
      mutex := { locked := false, waitqueue := rest }
      status := update s.status u .running
      pc := update s.pc t .outside
      handed := some u } := by
  have hnd := h.nodup
  rw [hq, nodup_append, nodup_cons] at hnd
  have hmem : ∀ w ∈ rest, w ∈ s.mutex.waitqueue := fun w hw => by rw [hq]; simp [hw]
  have hwait : ∀ w ∈ s.mutex.waitqueue, w ≠ t := by
    rintro w hw rfl
    rcases h.waiting w hw with hw' | ⟨hw', -⟩ <;> simp [hpc] at hw'
  have humem : u ∈ s.mutex.waitqueue := by rw [hq]; simp
  refine ⟨hnd.2.1.2, ?_, ?_, ?_, ?_, ?_, ?_, by simp, by simp⟩
  · intro w hw
    have hwu : w ≠ u := by rintro rfl; exact hnd.2.1.1 hw
    simpa [hwait w (hmem w hw), hwu] using h.waiting w (hmem w hw)
  · intro w hw
    have hwt : w ≠ t := by rintro rfl; simp at hw
    exact h.notIdle w (by simpa [hwt] using hw)
  · intro w hw
    obtain ⟨hwt, hw⟩ := pc_of_update hw nofun
    by_cases hwu : w = u
    · exact .inr (.inr (by simp [hwu]))
    rcases h.queued w hw with hm | hm | hm
    · rw [hq, mem_append, mem_cons] at hm
      rcases hm with hm | hm | hm
      · exact .inr (.inl (by simp [hwu, hdead w hm]))
      · exact absurd hm hwu
      · exact .inl hm
    · exact .inr (.inl (by simp [hwu, hm]))
    · exact absurd (h.owner w t hm hpc).symm hwt
  · intro w hw
    obtain ⟨hwt, hw'⟩ := pc_of_update hw nofun
    rcases h.woken w hw' with hm | hm
    · rw [hq, mem_append, mem_cons] at hm
      rcases hm with hm | rfl | hm
      · have hz := hdead w hm
        rcases h.waiting w (by rw [hq]; simp [hm]) with hq' | ⟨-, hq'⟩
        · simp [hw'] at hq'
        · simp [hz] at hq'
      · exact .inr rfl
      · exact .inl hm
    · exact absurd (h.owner w t hm hpc).symm hwt
  · intro w hw
    obtain rfl : u = w := some.inj hw
    refine ⟨rfl, hnd.2.1.1, ?_⟩
    rcases h.waiting u humem with hq' | ⟨hq', -⟩ <;> simp [hwait u humem, hq']
  · intro w v _ hv
    exact absurd hv (h.nobody hpc v)

end MutexSys.Inv

end

/-- Every step that does not barge in keeps the invariant. -/
theorem MutexSys.step_inv {a : MutexAction τ} (h : s.Inv idle) (hC : s.NoBarging idle a)
    (hstep : s.step idle a = some s') : s'.Inv idle := by
  cases a with
  | enter t =>
    obtain ⟨hpc, ⟨hl, rfl⟩ | ⟨hl, rfl⟩⟩ := MutexSys.step_enter hstep
    · exact h.enqueue hpc (hC.2 hl)
    · exact h.acquire hpc hl hC.1
  | sleep t =>
    obtain ⟨hpc, ⟨hst, rfl⟩ | ⟨p, rfl⟩⟩ := MutexSys.step_sleep hstep
    · refine h.fallAsleep hpc ?_
      rcases h.queued t hpc with hm | hm | hm
      · exact .inl hm
      · simp [hm] at hst
      · exact .inr hm
    · exact h.panic p
  | wake t =>
    obtain ⟨hpc, hrun, rfl⟩ := MutexSys.step_wake hstep
    have hrun' : s.status t = .running := by
      rcases hrun with hrun | hrun
      · exact hrun
      · simp [h.notIdle t (.inr hpc)] at hrun
    rcases h.woken t hpc with hm | hm
    · rcases h.waiting t hm with hq | ⟨-, hq⟩
      · simp [hpc] at hq
      · simp [hrun'] at hq
    · exact h.resume hpc hm
  | unlock t =>
    obtain ⟨hpc, ⟨hdead, rfl⟩ | ⟨dead, u, rest, hq, hdead, hu, rfl⟩ | ⟨p, rfl⟩⟩ :=
      MutexSys.step_unlock hstep
    · exact h.release hpc hdead
    · exact h.handOver hpc hq hdead hu
    · exact h.panic p

/-! ## Mutual exclusion -/

/-- **When the mutex excludes.**  In every run in which nobody enters `mutex_lock` between the
wake-up of a waiter and that waiter's own `mutex_unlock`, and no idle task sleeps on the mutex, at
most one task at a time is between its return from `mutex_lock` and its `mutex_unlock`. -/
theorem mutualExclusion_of_noBarging (idle : τ → Bool) (status : τ → TaskStatus)
    (as : List (MutexAction τ)) (s : MutexSys τ)
    (hC : Along (MutexSys.step idle) (MutexSys.NoBarging idle) (MutexSys.init status) as)
    (hrun : run (MutexSys.step idle) (MutexSys.init status) as = some s) : s.Exclusive :=
  (run_induction (fun _ _ _ h hc hs => MutexSys.step_inv h hc hs) (MutexSys.init_inv idle status) hC
    hrun).exclusive

/-- Two tasks that meet at the mutex: the second one sleeps, is woken and gets in. -/
def handOverRun : List (MutexAction Nat) := [.enter 0, .enter 1, .sleep 1, .unlock 0, .wake 1]

theorem mutualExclusion_of_noBarging_handOver :
    ∃ s, run (MutexSys.step fun _ => false) (MutexSys.init fun _ => .running) handOverRun = some s ∧
      s.pc 1 = .inside ∧ s.Exclusive := by
  refine ⟨_, rfl, rfl, mutualExclusion_of_noBarging (fun _ => false) (fun _ => .running)
    handOverRun _ ?_ rfl⟩
  refine ⟨⟨rfl, fun _ => rfl⟩, fun s1 h1 => ?_⟩
  cases h1
  refine ⟨⟨rfl, fun _ => rfl⟩, fun s2 h2 => ?_⟩
  cases h2
  exact ⟨trivial, fun s3 _ => ⟨trivial, fun s4 _ => ⟨trivial, fun _ _ => trivial⟩⟩⟩

/-- **It does not in general.**  Task 0 holds the mutex and task 1 sleeps on it.  The
`mutex_unlock` of task 0 clears the flag and wakes task 1; task 2 finds the flag down and takes the
fast path; then task 1 returns from its `mutex_lock` too. -/
theorem mutualExclusion_fails :
    ¬ ∀ (as : List (MutexAction Nat)) (s : MutexSys Nat),
      run (MutexSys.step fun _ => false) (MutexSys.init fun _ => .running) as = some s →
      s.Exclusive := by
  intro h
  have h12 := h [.enter 0, .enter 1, .sleep 1, .unlock 0, .enter 2, .wake 1] _ rfl 1 2 rfl rfl
  exact absurd h12 (by decide)

end Monolith
