import Monolith.Sched.Scheduler
import Monolith.Sys.Mutex

/-!
# Mutexes over the scheduler

`Sys/Mutex.lean` looks at one mutex and leaves the scheduler out: there a task comes back from
`sched_yield` once its status allows it.  Here the tasks run on CPUs, take any number of mutexes,
are switched by `schedule`, woken by `mutex_unlock` through `sched_add_ready`, and may exit; a task
that exits is `TASK_ZOMBIE` while `task_zombify` still takes mutexes.

* `Places` is the part of the invariant that is about the scheduler: a task in a run queue is
  `TASK_RUNNING` and current nowhere.  `LockSys.schedule_cases` says all that `schedule` can do.
* `lockProtocol_of_careful` is the result.  Neither panic of `sys/mutex.c` is reached and no sleeper
  is lost in any run in which only running tasks queue up, and in which `mutex_unlock` finds the
  waiter it wakes asleep *and* switched out.
* `lockProtocol_fails` has a run for each of the two panics.

The section of `mutex_unlock` is one step, with the `sched_add_ready` that it makes under the lock.
A wait queue is a list.  In the source the queues of all mutexes are threaded through one field
`task->next`, which is the same as long as a task is on one of them at a time; the invariant says
so.
-/

namespace Monolith

open Function Transition Option List

variable {τ : Type}

/-! ## The state -/

/-- Where a task is in `mutex_lock`. -/
inductive WaitPc where
  /-- Not in it. -/
  | task
  /-- On the wait queue of the mutex `m`, before the compare-exchange. -/
  | queued (m : Nat)
  /-- Past the compare-exchange, before `sched_yield`. -/
  | asleep (m : Nat)
  /-- In `sched_yield`. -/
  | yielding (m : Nat)
  deriving DecidableEq

/-- The scheduler, the mutexes and the tasks that use them. -/
structure LockSys (τ : Type) where
  status : τ → TaskStatus
  current : Nat → τ
  queues : RunQueues τ
  mutex : Nat → Mutex τ
  pc : τ → WaitPc
  /-- The mutexes each task has returned from `mutex_lock` with. -/
  held : τ → Nat → Bool
  /-- Set once the kernel has panicked. -/
  panicked : Option Panic

/-- The steps of the task that is current on the CPU `c`. -/
inductive LockAction where
  /-- The section of `mutex_lock`. -/
  | lock (c m : Nat)
  /-- The compare-exchange of `mutex_lock`. -/
  | sleep (c : Nat)
  /-- `mutex_lock` calls `sched_yield`. -/
  | yield (c : Nat)
  /-- `sched_yield` returns to `mutex_lock`, and that to its caller. -/
  | resume (c : Nat)
  /-- The section of `mutex_unlock`. -/
  | unlock (c m : Nat)
  /-- `sys_exit` sets the status to `TASK_ZOMBIE`; the task goes on into `task_zombify`. -/
  | exit (c : Nat)
  /-- `schedule`, called from the timer interrupt or by a `sched_yield` outside `mutex_lock`. -/
  | schedule (c : Nat)

def LockAction.cpu : LockAction → Nat
  | .lock c _ | .sleep c | .yield c | .resume c | .unlock c _ | .exit c | .schedule c => c

/-! ## The steps -/

section Steps

variable [DecidableEq τ]

/-- `schedule` on the CPU `c`, as one step. -/
def LockSys.schedule (cfg : SchedConfig τ) (s : LockSys τ) (c : Nat) : Option (LockSys τ) :=
  let curTask := s.current c
  let curRunning := decide (s.status curTask = .running)
  if scheduleReturns cfg s.queues c curTask curRunning then some s
  else
    (pickNext cfg s.queues c).map fun r =>
      if cfg.rsp0 r.1 = 0 then { s with panicked := some .noStack }
      else { s with
        queues := readd cfg r.2 c curTask curRunning
        current := update s.current c r.1 }

/-- What a step does, once it is known that the CPU exists and the kernel has not panicked. -/
def LockSys.effect (cfg : SchedConfig τ) (s : LockSys τ) : LockAction → Option (LockSys τ)
  | .lock c m =>
    let t := s.current c
    if s.pc t = .task then
      let r := mutexLockEnter (s.mutex m) t
      let s' := { s with mutex := update s.mutex m r.1 }
      if r.2 then
        some { s' with held := update s.held t (update (s.held t) m true) }
      else some { s' with pc := update s.pc t (.queued m) }
    else none
  | .sleep c =>
    let t := s.current c
    match s.pc t with
    | .queued m =>
      match mutexLockSleep (s.status t) with
      | .ok st => some { s with
          status := update s.status t st
          pc := update s.pc t (.asleep m) }
      | .error p => some { s with panicked := some p }
    | _ => none
  | .yield c =>
    let t := s.current c
    match s.pc t with
    | .asleep m => { s with pc := update s.pc t (.yielding m) }.schedule cfg c
    | _ => none
  | .resume c =>
    let t := s.current c
    match s.pc t with
    | .yielding m => some { s with
        pc := update s.pc t .task
        held := update s.held t (update (s.held t) m true) }
    | _ => none
  | .unlock c m =>
    let t := s.current c
    if s.pc t = .task ∧ s.held t m = true then
      match mutexUnlock s.status (s.mutex m) with
      | .ok (mutex, woken) =>
        let s' := { s with
          mutex := update s.mutex m mutex
          held := update s.held t (update (s.held t) m false) }
        match woken with
        | none => some s'
        | some u => some { s' with
            status := update s.status u .running
            queues := schedAddReady s.queues c u }
      | .error p => some { s with panicked := some p }
    else none
  | .exit c =>
    let t := s.current c
    if s.pc t = .task ∧ t ≠ cfg.idle c then
      match s.status t with
      | .running => some { s with status := update s.status t .zombie }
      | .intrSleeping => some { s with status := update s.status t .zombie }
      | st => some { s with panicked := some (.taskExit st) }
    else none
  | .schedule c => s.schedule cfg c

def LockSys.step (cfg : SchedConfig τ) (s : LockSys τ) (a : LockAction) : Option (LockSys τ) :=
  if s.panicked = none ∧ a.cpu < cfg.numCpus then s.effect cfg a else none

end Steps

/-! ## What is to hold, and when -/

/-- Neither panic of `sys/mutex.c`, and no task asleep that nobody can wake or run. -/
structure LockSys.Sound (s : LockSys τ) : Prop where
  lockPanic : ∀ st, s.panicked ≠ some (.mutexLock st)
  unlockPanic : ∀ st, s.panicked ≠ some (.mutexUnlock st)
  notLost : ∀ t, s.status t = .sleeping →
    (∃ m, t ∈ (s.mutex m).waitqueue) ∨ ∃ c rq, s.queues.Rep rq ∧ t ∈ rq c

/-- What a run has to keep away from: a task that queues up for a mutex without being
`TASK_RUNNING`, or that is the idle task of its CPU; and a `mutex_unlock` that meets a waiter before
the compare-exchange of that waiter, or before it is switched out. -/
def LockSys.Careful (cfg : SchedConfig τ) (s : LockSys τ) : LockAction → Prop
  | .lock c m => (s.mutex m).locked = true →
      s.status (s.current c) = .running ∧ s.current c ≠ cfg.idle c
  | .unlock _ m => ∀ u, (s.mutex m).waitqueue.head? = some u →
      s.pc u ≠ .queued m ∧ ∀ d < cfg.numCpus, s.current d ≠ u
  | _ => True

/-- Where the tasks that can run are: in one run queue, or current on one CPU, and an idle task
nowhere but on its own CPU. -/
structure Places (cfg : SchedConfig τ) (status : τ → TaskStatus) (current : Nat → τ)
    (q : RunQueues τ) (rq : Nat → List τ) : Prop where
  rep : q.Rep rq
  queueRunning : ∀ c t, t ∈ rq c → status t = .running
  queueCurrent : ∀ c d t, t ∈ rq c → d < cfg.numCpus → current d ≠ t
  current_inj : ∀ c d, c < cfg.numCpus → d < cfg.numCpus → current c = current d → c = d
  idleCurrent : ∀ c d, c < cfg.numCpus → d < cfg.numCpus → current c = cfg.idle d → c = d
  idleRunning : ∀ c < cfg.numCpus, status (cfg.idle c) = .running
  idleQueue : ∀ c d, d < cfg.numCpus → cfg.idle d ∉ rq c

/-- The states a run starts from: the scheduler is in order, nobody sleeps on a mutex.  A mutex may
be held, and a task may be on its way out already. -/
structure LockSys.Start (cfg : SchedConfig τ) (s : LockSys τ) (rq : Nat → List τ) : Prop where
  places : Places cfg s.status s.current s.queues rq
  waitqueue : ∀ m, (s.mutex m).waitqueue = []
  pc : ∀ t, s.pc t = .task
  awake : ∀ t, s.status t ≠ .sleeping
  panicked : s.panicked = none

/-- What holds of every task.  On a wait queue it is `TASK_RUNNING` before its compare-exchange and
`TASK_SLEEPING` after it; before the compare-exchange it is on a wait queue, and whenever it is
asleep. -/
structure LockSys.TaskOk (cfg : SchedConfig τ) (s : LockSys τ) (t : τ) : Prop where
  waiting : ∀ m, t ∈ (s.mutex m).waitqueue → (s.pc t = .queued m ∧ s.status t = .running) ∨
    ((s.pc t = .asleep m ∨ s.pc t = .yielding m) ∧ s.status t = .sleeping)
  queued : ∀ m, s.pc t = .queued m →
    t ∈ (s.mutex m).waitqueue ∧ ∀ d < cfg.numCpus, t ≠ cfg.idle d
  sleeping : s.status t = .sleeping → ∃ m, t ∈ (s.mutex m).waitqueue

/-- The part of the invariant that holds in the middle of a step, too. -/
structure LockSys.Core (cfg : SchedConfig τ) (s : LockSys τ) (rq : Nat → List τ) : Prop where
  places : Places cfg s.status s.current s.queues rq
  nodup : ∀ m, (s.mutex m).waitqueue.Nodup
  task : ∀ t, s.TaskOk cfg t
  lockPanic : ∀ st, s.panicked ≠ some (.mutexLock st)
  unlockPanic : ∀ st, s.panicked ≠ some (.mutexUnlock st)

/-- A sleeper in `sched_yield` is current nowhere. -/
def LockSys.YieldOk (cfg : SchedConfig τ) (s : LockSys τ) (t : τ) : Prop :=
  ∀ m, s.pc t = .yielding m → s.status t = .sleeping → ∀ d < cfg.numCpus, s.current d ≠ t

structure LockSys.Inv (cfg : SchedConfig τ) (s : LockSys τ) (rq : Nat → List τ) : Prop
    extends LockSys.Core cfg s rq where
  yielding : s.panicked = none → ∀ t, s.YieldOk cfg t

variable {cfg : SchedConfig τ} {s s' : LockSys τ} {rq : Nat → List τ}

theorem LockSys.Start.inv (h : s.Start cfg rq) : s.Inv cfg rq where
  places := h.places
  nodup m := by simp [h.waitqueue m]
  task t := by
    refine ⟨fun m hm => ?_, fun m hm => ?_, fun hst => absurd hst (h.awake t)⟩
    · simp [h.waitqueue m] at hm
    · simp [h.pc t] at hm
  yielding _ t m ht := by simp [h.pc t] at ht
  lockPanic := by simp [h.panicked]
  unlockPanic := by simp [h.panicked]

theorem LockSys.Inv.sound (h : s.Inv cfg rq) : s.Sound where
  lockPanic := h.lockPanic
  unlockPanic := h.unlockPanic
  notLost t ht := .inl ((h.task t).sleeping ht)

variable {t : τ} {m c : Nat} {rq' : Nat → List τ} {u : τ} {x : Mutex τ}

theorem LockSys.TaskOk.congr (h : s.TaskOk cfg t) (hpc : s'.pc t = s.pc t)
    (hst : s'.status t = s.status t)
    (hq : ∀ m, t ∈ (s'.mutex m).waitqueue ↔ t ∈ (s.mutex m).waitqueue) : s'.TaskOk cfg t := by
  refine ⟨fun m hm => ?_, fun m hm => ?_, fun ht => ?_⟩
  · rw [hpc, hst]
    exact h.waiting m ((hq m).1 hm)
  · rw [hpc] at hm
    rw [hq]
    exact h.queued m hm
  · rw [hst] at ht
    obtain ⟨m, hm⟩ := h.sleeping ht
    exact ⟨m, (hq m).2 hm⟩

theorem LockSys.TaskOk.notWaiting (h : s.TaskOk cfg t) (hpc : s.pc t = .task) (m : Nat) :
    t ∉ (s.mutex m).waitqueue := by
  intro hm
  rcases h.waiting m hm with ⟨hp, -⟩ | ⟨hp | hp, -⟩ <;> rw [hpc] at hp <;> cases hp

theorem LockSys.TaskOk.waiting_unique (h : s.TaskOk cfg t) {m' : Nat}
    (hm : t ∈ (s.mutex m).waitqueue) (hm' : t ∈ (s.mutex m').waitqueue) : m = m' := by
  rcases h.waiting m hm with ⟨hp, -⟩ | ⟨hp | hp, -⟩ <;>
    rcases h.waiting m' hm' with ⟨hp', -⟩ | ⟨hp' | hp', -⟩ <;> rw [hp] at hp' <;> cases hp' <;> rfl

/-- Another panic changes nothing that the invariant is about. -/
theorem LockSys.Core.panic (h : s.Core cfg rq) {p : Panic} (h1 : ∀ st, p ≠ .mutexLock st)
    (h2 : ∀ st, p ≠ .mutexUnlock st) : LockSys.Inv cfg { s with panicked := some p } rq where
  places := h.places
  nodup := h.nodup
  task t := (h.task t).congr rfl rfl fun _ => Iff.rfl
  yielding hp := by simp at hp
  lockPanic st := by simpa using h1 st
  unlockPanic st := by simpa using h2 st

/-- **The step of a task `t`** changes the invariant of no other task: what is to be shown is the
scheduler's part, and `t`'s own. -/
theorem LockSys.Inv.ofTask (h : s.Inv cfg rq) (t : τ)
    (hplaces : Places cfg s'.status s'.current s'.queues rq')
    (hnodup : ∀ m, (s'.mutex m).waitqueue.Nodup) (hpc : ∀ u, u ≠ t → s'.pc u = s.pc u)
    (hst : ∀ u, u ≠ t → s'.status u = s.status u)
    (hq : ∀ m u, u ≠ t → (u ∈ (s'.mutex m).waitqueue ↔ u ∈ (s.mutex m).waitqueue))
    (hcur : s'.current = s.current) (hpan : s'.panicked = s.panicked) (ht : s'.TaskOk cfg t)
    (hy : s.panicked = none → s'.YieldOk cfg t) : s'.Inv cfg rq' where
  places := hplaces
  nodup := hnodup
  task u := by
    by_cases hu : u = t
    · exact hu ▸ ht
    · exact (h.task u).congr (hpc u hu) (hst u hu) fun m => hq m u hu
  yielding hp u := by
    rw [hpan] at hp
    by_cases hu : u = t
    · exact hu ▸ hy hp
    intro m
    rw [hpc u hu, hst u hu, hcur]
    exact h.yielding hp u m
  lockPanic := by rw [hpan]; exact h.lockPanic
  unlockPanic := by rw [hpan]; exact h.unlockPanic

variable [DecidableEq τ]

/-! ## The scheduler keeps its places -/

section PlacesLemmas

variable {status : τ → TaskStatus} {current : Nat → τ} {q : RunQueues τ} {c : Nat}

omit [DecidableEq τ] in
theorem Places.placed (h : Places cfg status current q rq) :
    Placed cfg status current fun t => ∃ c, t ∈ rq c where
  running := fun t ⟨c, ht⟩ => h.queueRunning c t ht
  notCurrent := fun t ⟨c, ht⟩ d hd => h.queueCurrent c d t ht hd
  current_inj := h.current_inj
  idleCurrent := h.idleCurrent
  idleRunning := h.idleRunning
  idle := fun d hd ⟨c, ht⟩ => h.idleQueue c d hd ht

omit [DecidableEq τ] in
theorem places_of_placed (hrep : q.Rep rq) (h : Placed cfg status current fun t => ∃ c, t ∈ rq c) :
    Places cfg status current q rq where
  rep := hrep
  queueRunning c t ht := h.running t ⟨c, ht⟩
  queueCurrent c d t ht hd := h.notCurrent t ⟨c, ht⟩ d hd
  current_inj := h.current_inj
  idleCurrent := h.idleCurrent
  idleRunning := h.idleRunning
  idleQueue c d hd ht := h.idle d hd ⟨c, ht⟩

theorem Places.setStatus (h : Places cfg status current q rq) (hc : c < cfg.numCpus)
    (hidle : current c ≠ cfg.idle c) (st : TaskStatus) :
    Places cfg (update status (current c) st) current q rq :=
  places_of_placed h.rep (h.placed.setStatus hc hidle st)

/-- A sleeper that is current nowhere can be put into a queue. -/
theorem Places.awake (h : Places cfg status current q rq) (hst : status u ≠ .running)
    (hcur : ∀ d < cfg.numCpus, current d ≠ u) (c : Nat) :
    Places cfg (update status u .running) current (schedAddReady q c u)
    (update rq c (rq c ++ [u])) := by
  refine places_of_placed (schedAddReady_rep h.rep fun d hu => hst (h.queueRunning d u hu))
    ((h.placed.awake hst hcur).mono ?_)
  rintro t ⟨d, ht⟩
  exact (mem_update_append ht).symm.imp_right fun ht => ⟨d, ht⟩

/-- What the queues are after `schedule` has put the current task back, if it does. -/
theorem readd_rep (h : q.Rep rq) {cur : τ} (hcur : ∀ d, cur ∉ rq d) (b : Bool) :
    ∃ rq', (readd cfg q c cur b).Rep rq' ∧ ∀ d t, t ∈ rq' d → t ∈ rq d ∨
    (t = cur ∧ b = true ∧ cur ≠ cfg.idle c) := by
  rw [readd]
  split_ifs with hb
  · exact ⟨_, schedAddReady_rep h hcur, fun d t ht => (mem_update_append ht).imp_right fun ht =>
      ⟨ht, hb⟩⟩
  · exact ⟨rq, h, fun d t ht => .inl ht⟩

omit [DecidableEq τ] in
/-- **The context switch**, to the idle task or to a task that has just left its queue. -/
theorem Places.switch (h : Places cfg status current q rq) (hc : c < cfg.numCpus) {next : τ}
    (hnext : next = cfg.idle c ∨ ∃ v, next ∈ rq v) {q' : RunQueues τ} {rq' : Nat → List τ}
    (hrep : q'.Rep rq') (hmem : ∀ d t, t ∈ rq' d → t ≠ next ∧ (t ∈ rq d ∨
      (t = current c ∧ status t = .running ∧ t ≠ cfg.idle c))) :
    Places cfg status (update current c next) q' rq' := by
  refine places_of_placed hrep (h.placed.switch hc (fun d hd he => ?_) (fun d hd he => ?_) ?_)
  · rcases hnext with hi | hin
    · exact h.idleCurrent d c hd hc (he.trans hi)
    · exact absurd he (h.placed.notCurrent next hin d hd)
  · rcases hnext with hi | hin
    · exact cfg.idle_inj c d hc hd (hi.symm.trans he)
    · exact absurd (he ▸ hin) (h.placed.idle d hd)
  · rintro t ⟨d, ht⟩
    exact ⟨(hmem d t ht).1, (hmem d t ht).2.imp_left fun ht => ⟨d, ht⟩⟩

end PlacesLemmas

/-- **All that `schedule` can do**: return at once, panic, or switch to a task that is running. -/
theorem LockSys.schedule_cases (h : Places cfg s.status s.current s.queues rq)
    (hc : c < cfg.numCpus) (hs : s.schedule cfg c = some s') :
    (s' = s ∧ s.status (s.current c) = .running) ∨ s' = { s with panicked := some .noStack } ∨
      ∃ next q rq', s.status next = .running ∧
      s' = { s with queues := q, current := update s.current c next } ∧
        Places cfg s.status (update s.current c next) q rq' := by
  rw [LockSys.schedule] at hs
  split_ifs at hs with hret
  · refine .inl ⟨(some.inj hs).symm, ?_⟩
    simp only [scheduleReturns, Bool.and_eq_true, decide_eq_true_eq] at hret
    exact hret.1.2
  refine .inr ?_
  -- what is picked can run, and is in no queue any more
  obtain ⟨next, q, rq₁, hp, hq, hnext, hrun, hleft⟩ : ∃ next q rq₁, pickNext cfg s.queues c =
      some (next, q) ∧
      q.Rep rq₁ ∧ (next = cfg.idle c ∨ ∃ v, next ∈ rq v) ∧ s.status next = .running ∧
      ∀ d t, t ∈ rq₁ d → t ∈ rq d ∧ t ≠ next := by
    rcases pickNext_rep cfg h.rep c with hp | ⟨v, next, rest, q, hv, hp, hq⟩
    · exact ⟨_, _, rq, hp, h.rep, .inl rfl, h.idleRunning c hc,
        fun d t ht => ⟨ht, fun he => h.idleQueue d c hc (he ▸ ht)⟩⟩
    · have hin : next ∈ rq v := by rw [hv]; exact mem_cons_self
      exact ⟨next, q, _, hp, hq, .inr ⟨v, hin⟩, h.queueRunning v next hin, fun d t =>
        h.rep.mem_rest hv⟩
  rw [hp, map_some, some.injEq] at hs
  split at hs
  · exact .inl hs.symm
  obtain ⟨rq', hrep, hmem⟩ := @readd_rep _ cfg _ _ q c hq (s.current c)
    (fun d hd => h.queueCurrent d c _ (hleft d _ hd).1 hc rfl)
    (decide (s.status (s.current c) = .running))
  refine .inr ⟨next, _, rq', hrun, hs.symm, h.switch hc hnext hrep fun d t ht => ?_⟩
  rcases hmem d t ht with ht | ⟨rfl, hb, hi⟩
  · exact ⟨(hleft d t ht).2, .inl (hleft d t ht).1⟩
  · exact ⟨hnext.elim (fun he => he ▸ hi) fun ⟨v, hin⟩ => h.queueCurrent v c next hin hc,
      .inr ⟨rfl, by simpa using hb, hi⟩⟩

/-! ## What the steps do to the invariant -/

/-- `schedule` keeps the invariant, and switches out a sleeper that calls it. -/
theorem LockSys.Core.schedule (h : s.Core cfg rq) (hc : c < cfg.numCpus)
    (hy : ∀ m t, s.pc t = .yielding m → s.status t = .sleeping → ∀ d < cfg.numCpus, d ≠ c →
    s.current d ≠ t)
    (hs : s.schedule cfg c = some s') : ∃ rq', s'.Inv cfg rq' := by
  rcases LockSys.schedule_cases h.places hc hs with ⟨rfl, hrun⟩ | rfl | ⟨next, q, rq', hrun,
    rfl, hp⟩
  · refine ⟨rq, h, fun _ t m hpc hst d hd => ?_⟩
    by_cases hdc : d = c
    · intro he
      rw [hdc] at he
      simp [he, hst] at hrun
    · exact hy m t hpc hst d hd hdc
  · exact ⟨rq, h.panic (by simp) (by simp)⟩
  · refine ⟨rq', ⟨hp, h.nodup, fun t => (h.task t).congr rfl rfl fun _ => Iff.rfl, h.lockPanic,
      h.unlockPanic⟩, fun _ t m hpc hst d hd => ?_⟩
    dsimp only
    by_cases hdc : d = c
    · rw [hdc, update_self]
      intro he
      simp [he, show s.status t = .sleeping from hst] at hrun
    · rw [update_of_ne hdc]
      exact hy m t hpc hst d hd hdc

section

variable (h : s.Inv cfg rq)

include h

namespace LockSys.Inv

theorem enqueue (hc : c < cfg.numCpus) (hpc : s.pc (s.current c) = .task)
    (hrun : s.status (s.current c) = .running) (hidle : s.current c ≠ cfg.idle c)
    (hx : x.waitqueue = s.current c :: (s.mutex m).waitqueue) :
    LockSys.Inv cfg { s with
      mutex := update s.mutex m x
      pc := update s.pc (s.current c) (.queued m) } rq := by
  have hnot := (h.task (s.current c)).notWaiting hpc
  have hmem k t : t ∈ (update s.mutex m x k).waitqueue ↔ t ∈ (s.mutex k).waitqueue ∨
      (k = m ∧ t = s.current c) := by
    rcases eq_or_ne k m with rfl | hk
    · simp [hx, or_comm]
    · simp [hk]
  refine h.ofTask (s.current c) h.places (fun k => ?_) (fun u hu => ?_) (fun _ _ => rfl)
    (fun k u hu => ?_) rfl rfl ⟨fun k hk => ?_, fun k hk => ?_, fun hst => ?_⟩ (fun _ k hk => ?_)
  · dsimp only
    rcases eq_or_ne k m with rfl | hk
    · rw [update_self, hx]
      exact nodup_cons.2 ⟨hnot k, h.nodup k⟩
    · rw [update_of_ne hk]
      exact h.nodup k
  · exact update_of_ne hu ..
  · rw [hmem]
    simp [hu]
  · obtain ⟨rfl, -⟩ := ((hmem k _).1 hk).resolve_left (hnot k)
    exact .inl ⟨update_self .., hrun⟩
  · have hmk : m = k := by simpa using hk
    refine ⟨(hmem k _).2 (.inr ⟨hmk.symm, rfl⟩), fun d hd he => ?_⟩
    have hcd := h.places.idleCurrent c d hc hd he
    rw [← hcd] at he
    exact hidle he
  · simp [show s.status (s.current c) = .sleeping from hst] at hrun
  · simp at hk

/-- The compare-exchange of `mutex_lock` finds the task running, and puts it to sleep. -/
theorem fallAsleep (hc : c < cfg.numCpus) (hpc : s.pc (s.current c) = .queued m) :
    s.status (s.current c) = .running ∧
    LockSys.Inv cfg { s with
      status := update s.status (s.current c) .sleeping
      pc := update s.pc (s.current c) (.asleep m) } rq := by
  obtain ⟨hin, hidle⟩ := (h.task (s.current c)).queued m hpc
  have hrun : s.status (s.current c) = .running := by
    rcases (h.task (s.current c)).waiting m hin with ⟨-, hst⟩ | ⟨hp | hp, -⟩
    · exact hst
    · simp [hpc] at hp
    · simp [hpc] at hp
  refine ⟨hrun, h.ofTask (s.current c) (h.places.setStatus hc (hidle c hc) _) h.nodup
    (fun u hu => update_of_ne hu ..) (fun u hu => update_of_ne hu ..)
    (fun _ _ _ => Iff.rfl) rfl rfl ⟨fun k hk => ?_, fun k hk => ?_, fun _ => ⟨m, hin⟩⟩
    (fun _ k hk => ?_)⟩
  · have hkm := (h.task (s.current c)).waiting_unique hk hin
    subst hkm
    exact .inr ⟨.inl (update_self ..), update_self ..⟩
  · simp at hk
  · simp at hk

/-- The call of `sched_yield`, before `schedule` has switched the task out. -/
theorem startYield (hpc : s.pc (s.current c) = .asleep m) :
    LockSys.Core cfg { s with pc := update s.pc (s.current c) (.yielding m) } rq := by
  refine ⟨h.places, h.nodup, fun t => ?_, h.lockPanic, h.unlockPanic⟩
  by_cases ht : t = s.current c
  · subst ht
    refine ⟨fun k hk => ?_, by simp, (h.task (s.current c)).sleeping⟩
    rcases (h.task (s.current c)).waiting k hk with ⟨hp, -⟩ | ⟨hp | hp, hst⟩ <;>
      rw [hpc] at hp <;> cases hp
    exact .inr ⟨.inr (update_self ..), hst⟩
  · exact (h.task t).congr (update_of_ne ht ..) rfl fun _ => Iff.rfl

/-- `mutex_lock` returns after `sched_yield`: the task has been woken, and is on no wait queue. -/
theorem resume (hc : c < cfg.numCpus) (hpan : s.panicked = none)
    (hpc : s.pc (s.current c) = .yielding m) (held : τ → Nat → Bool) :
    LockSys.Inv cfg { s with pc := update s.pc (s.current c) .task, held := held } rq := by
  have hst : s.status (s.current c) ≠ .sleeping :=
    fun hst => h.yielding hpan (s.current c) m hpc hst c hc rfl
  have hnot : ∀ k, s.current c ∉ (s.mutex k).waitqueue := by
    intro k hk
    rcases (h.task (s.current c)).waiting k hk with ⟨hp, -⟩ | ⟨-, hs⟩
    · simp [hpc] at hp
    · exact hst hs
  exact h.ofTask (s.current c) h.places h.nodup (fun u hu => update_of_ne hu ..)
    (fun _ _ => rfl) (fun _ _ _ => Iff.rfl) rfl rfl
    ⟨fun k hk => absurd hk (hnot k), by simp, fun hs => absurd hs hst⟩ (fun _ k hk => by simp at hk)

theorem exit (hc : c < cfg.numCpus) (hpc : s.pc (s.current c) = .task)
    (hidle : s.current c ≠ cfg.idle c) :
    LockSys.Inv cfg { s with status := update s.status (s.current c) .zombie } rq := by
  refine h.ofTask (s.current c) (h.places.setStatus hc hidle _) h.nodup (fun _ _ => rfl)
    (fun u hu => update_of_ne hu ..) (fun _ _ _ => Iff.rfl) rfl rfl
    ⟨fun k hk => absurd hk ((h.task _).notWaiting hpc k), fun k hk => ?_, fun hst => ?_⟩
    (fun _ k hk => ?_)
  · simp [show s.pc (s.current c) = .queued k from hk] at hpc
  · simp at hst
  · simp [show s.pc (s.current c) = .yielding k from hk] at hpc

/-- **`mutex_unlock` wakes the first waiter** if that one is asleep and switched out. -/
theorem handOver {rest : List τ} (hq : (s.mutex m).waitqueue = u :: rest)
    (hpc : s.pc u ≠ .queued m) (hcur : ∀ d < cfg.numCpus, s.current d ≠ u) (c : Nat)
    (held : τ → Nat → Bool) : s.status u = .sleeping ∧ LockSys.Inv cfg { s with
      mutex := update s.mutex m { locked := false, waitqueue := rest }
      held := held
      status := update s.status u .running
      queues := schedAddReady s.queues c u } (update rq c (rq c ++ [u])) := by
  have hin : u ∈ (s.mutex m).waitqueue := by rw [hq]; exact mem_cons_self
  obtain ⟨hpc', hst⟩ := ((h.task u).waiting m hin).resolve_left fun hp => hpc hp.1
  have hnd := h.nodup m
  rw [hq, nodup_cons] at hnd
  -- `u` was on no other wait queue, and is now on none
  have hnot k : u ∉
      (update s.mutex m ({ locked := false, waitqueue := rest } : Mutex τ) k).waitqueue := by
    by_cases hk : k = m
    · rw [hk, update_self]
      exact hnd.1
    · rw [update_of_ne hk]
      exact fun huk => hk ((h.task u).waiting_unique huk hin)
  refine ⟨hst, h.ofTask u (h.places.awake (by simp [hst]) hcur c) (fun k => ?_) (fun _ _ => rfl)
    (fun v hv => update_of_ne hv ..) (fun k v hv => ?_) rfl rfl
    ⟨fun k hk => absurd hk (hnot k), fun k hk => ?_, fun hs => ?_⟩ (fun _ k _ hs => ?_)⟩
  · dsimp only
    by_cases hk : k = m
    · rw [hk, update_self]
      exact hnd.2
    · rw [update_of_ne hk]
      exact h.nodup k
  · dsimp only
    by_cases hk : k = m
    · rw [hk, hq]
      simp [hv]
    · rw [update_of_ne hk]
  · rw [show s.pc u = .queued k from hk] at hpc'
    rcases hpc' with hp | hp <;> cases hp
  · simp at hs
  · simp at hs

end LockSys.Inv

end

omit [DecidableEq τ] in
theorem LockSys.Inv.setLocked (h : s.Inv cfg rq) {x : Mutex τ}
    (hx : x.waitqueue = (s.mutex m).waitqueue) (held : τ → Nat → Bool) :
    LockSys.Inv cfg { s with mutex := update s.mutex m x, held := held } rq := by
  have hq k : (update s.mutex m x k).waitqueue = (s.mutex k).waitqueue := by
    by_cases hk : k = m
    · rw [hk, update_self, hx]
    · rw [update_of_ne hk]
  refine ⟨⟨h.places, fun k => ?_, fun t => ?_, h.lockPanic, h.unlockPanic⟩, h.yielding⟩
  · rw [hq]
    exact h.nodup k
  · refine (h.task t).congr rfl rfl fun k => ?_
    rw [hq]

/-! ## Runs -/

theorem LockSys.step_inv {a : LockAction} (h : s.Inv cfg rq) (hC : s.Careful cfg a)
    (hstep : s.step cfg a = some s') : ∃ rq', s'.Inv cfg rq' := by
  obtain ⟨⟨hpan, hc⟩, hstep⟩ := ite_none_right_eq_some.1 hstep
  cases a with
  | lock c m =>
    simp only [LockSys.effect, mutexLockEnter] at hstep
    obtain ⟨hpc, hstep⟩ := ite_none_right_eq_some.1 hstep
    cases hl : (s.mutex m).locked with simp only [hl, if_true, Bool.false_eq_true,
      if_false] at hstep
    | true =>
      cases hstep
      obtain ⟨hrun, hidle⟩ := hC hl
      exact ⟨rq, h.enqueue hc hpc hrun hidle rfl⟩
    | false =>
      cases hstep
      exact ⟨rq, h.setLocked (x := ⟨true, (s.mutex m).waitqueue⟩) rfl _⟩
  | sleep c =>
    replace hc : c < cfg.numCpus := hc
    simp only [LockSys.effect] at hstep
    split at hstep
    swap
    · simp at hstep
    rename_i m hpc
    obtain ⟨hrun, hinv⟩ := h.fallAsleep hc hpc
    rw [hrun] at hstep
    cases hstep
    exact ⟨rq, hinv⟩
  | yield c =>
    simp only [LockSys.effect] at hstep
    split at hstep
    swap
    · simp at hstep
    rename_i m hpc
    refine (h.startYield hpc).schedule hc (fun k t hk hst d hd hdc => ?_) hstep
    by_cases ht : t = s.current c
    · rw [ht]
      exact fun he => hdc (h.places.current_inj d c hd hc he)
    · have hk' : s.pc t = .yielding k := by simpa [ht] using hk
      exact h.yielding hpan t k hk' hst d hd
  | resume c =>
    simp only [LockSys.effect] at hstep
    split at hstep
    swap
    · simp at hstep
    rename_i m hpc
    cases hstep
    exact ⟨rq, h.resume hc hpan hpc _⟩
  | unlock c m =>
    simp only [LockSys.effect, mutexUnlock] at hstep
    obtain ⟨-, hstep⟩ := ite_none_right_eq_some.1 hstep
    rcases hq : (s.mutex m).waitqueue with _ | ⟨u, _⟩
    · simp only [hq, retryAwake, Except.map] at hstep
      cases hstep
      exact ⟨rq, h.setLocked hq.symm _⟩
    obtain ⟨hpc, hcur⟩ := hC u (by rw [hq]; rfl)
    obtain ⟨hst, hinv⟩ := h.handOver hq hpc hcur c (update s.held (s.current c)
      (update (s.held (s.current c)) m false))
    simp only [hq, retryAwake, hst, Except.map] at hstep
    cases hstep
    exact ⟨_, hinv⟩
  | exit c =>
    obtain ⟨hpc, hstep⟩ := ite_none_right_eq_some.1 hstep
    split at hstep <;> cases hstep
    · exact ⟨rq, h.exit hc hpc.1 hpc.2⟩
    · exact ⟨rq, h.exit hc hpc.1 hpc.2⟩
    · exact ⟨rq, h.toCore.panic (by simp) (by simp)⟩
  | schedule c =>
    exact h.toCore.schedule hc (fun m t hpc hst d hd _ => h.yielding hpan t m hpc hst d hd) hstep

/-- **Sleeping and waking is sound** in every run in which only running tasks queue up for a mutex,
none of them an idle task, and `mutex_unlock` meets its first waiter asleep and switched out. -/
theorem lockProtocol_of_careful (cfg : SchedConfig τ) (s₀ : LockSys τ) (rq₀ : Nat → List τ)
    (h₀ : s₀.Start cfg rq₀) (as : List LockAction) (s : LockSys τ)
    (hC : Along (LockSys.step cfg) (LockSys.Careful cfg) s₀ as)
    (hrun : run (LockSys.step cfg) s₀ as = some s) : s.Sound := by
  have hstep s a s' (hinv : (∃ rq, LockSys.Inv cfg s rq)) (hc : s.Careful cfg a)
      (hs : s.step cfg a = some s') : ∃ rq, s'.Inv cfg rq := by
    obtain ⟨rq, h⟩ := hinv
    exact LockSys.step_inv h hc hs
  obtain ⟨rq, h⟩ := run_induction hstep ⟨rq₀, h₀.inv⟩ hC hrun
  exact h.sound

/-! ## Two tasks on two CPUs -/

/-- Task 2 runs on CPU 0 and task 3 on CPU 1. -/
def twoTasks : LockSys Nat where
  status _ := .running
  current c := c + 2
  queues := .init
  mutex _ := mutexInit
  pc _ := .task
  held _ _ := false
  panicked := none

theorem twoTasks_start : twoTasks.Start twoCpus fun _ => [] where
  places := {
    rep := RunQueues.init_rep
    queueRunning := by simp
    queueCurrent := by simp
    current_inj := fun c d _ _ h => add_right_cancel h
    idleCurrent := fun c d hc hd h => by
      have hd' : d < 2 := hd
      have h' : c + 2 = d := h
      omega
    idleRunning := fun _ _ => rfl
    idleQueue := by simp }
  waitqueue _ := rfl
  pc _ := rfl
  awake _ := by simp [twoTasks]
  panicked := rfl

/-- Task 3 waits for task 2, is woken and taken over by CPU 1 again, which was idle meanwhile. -/
def waitAndWakeRun : List LockAction :=
  [.lock 0 0, .lock 1 0, .sleep 1, .yield 1, .unlock 0 0, .schedule 1, .resume 1]

theorem lockProtocol_of_careful_waitAndWake :
    ∃ s, run (LockSys.step twoCpus) twoTasks waitAndWakeRun = some s ∧
      s.current 1 = 3 ∧ s.held 3 0 = true ∧ s.Sound := by
  refine ⟨_, rfl, rfl, rfl, lockProtocol_of_careful twoCpus _ _ twoTasks_start
    waitAndWakeRun
    _ (.cons rfl nofun (.cons rfl (fun _ => ⟨rfl, by decide⟩) (.cons rfl trivial (.cons rfl trivial
      (.cons rfl (fun u hu => ?_) (.cons rfl trivial (.cons rfl trivial trivial))))))) rfl⟩
  -- task 3 is in `sched_yield` by now, and CPU 1 runs its idle task
  cases hu
  refine ⟨nofun, fun d hd => ?_⟩
  match d, hd with
  | 0, _ => exact (by decide : (2 : Nat) ≠ 3)
  | 1, _ => exact (by decide : (1 : Nat) ≠ 3)

/-- **It is not sound in general.**  In the first run task 3 is in `sys_exit`: it takes the slow
path of `mutex_lock` with `TASK_ZOMBIE`, and its compare-exchange fails.  In the second one
`mutex_unlock` meets it between queueing up and its compare-exchange, still `TASK_RUNNING`. -/
theorem lockProtocol_fails :
    (∃ s, run (LockSys.step twoCpus) twoTasks [.exit 1, .lock 0 0, .lock 1 0, .sleep 1] = some s ∧
      s.panicked = some (.mutexLock .zombie) ∧ ¬ s.Sound) ∧ ∃ s, run (LockSys.step twoCpus) twoTasks
        [.lock 0 0, .lock 1 0, .unlock 0 0] = some s ∧ s.panicked = some (.mutexUnlock .running) ∧
        ¬ s.Sound :=
  ⟨⟨_, rfl, rfl, fun h => h.lockPanic _ rfl⟩, ⟨_, rfl, rfl, fun h => h.unlockPanic _ rfl⟩⟩

end Monolith
