import Monolith.Sched.Scheduler
import Monolith.Sys.Mutex

/-!
# Blocking, waking and switching on several CPUs

This is the scheduler as a whole: CPUs that run `schedule` on their current tasks, tasks that go to
sleep, and code anywhere in the kernel that wakes them.  The steps are the atomic ones of the
source:

* a blocking loop (`tty_read`, `socket_recvfrom`, `arp_search`, `sys_clock_nanosleep`,
  `sys_waitpid`, `mutex_lock`) registers the task somewhere, changes its status word, and yields;
* a waker (`wait_queue_wake`, `send_signal`, `mutex_unlock`, `sleep_queue_tick`) sets the status
  word to `TASK_RUNNING` and then, in a second step, calls `sched_add_ready`;
* `schedule` reads the status of the current task, picks the next one, puts the current one back,
  and switches.

The steps of one task may come in any order here, which includes the orders of the loops.

`runQueues_of_quiet` is the result: the run queues stay well formed, with the right counters, and no
task in them is current anywhere, in every run in which no waker hits a task that is still current
and `schedule` never puts a task back.  `runQueues_break` shows what the first condition is for: a
task that is woken between marking itself asleep and yielding is linked into two queues at once.
-/

namespace Monolith

open Function Transition List
open Option (some)

variable {τ : Type}

/-! ## The state -/

/-- Where a CPU is in `schedule`. -/
inductive SchedPhase (τ : Type) where
  /-- Not in it: the CPU runs the code of its current task, or an interrupt handler. -/
  | task
  /-- Past the first test, with `cur_running` read. -/
  | entered (curRunning : Bool)
  /-- `next` has been taken out of its queue. -/
  | picked (curRunning : Bool) (next : τ)
  /-- The current task has been put back, if it was to be: the context switch is due. -/
  | readded (next : τ)
  deriving DecidableEq

/-- The task a CPU is about to switch to. -/
def SchedPhase.next : SchedPhase τ → Option τ
  | .task => none
  | .entered _ => none
  | .picked _ next => some next
  | .readded next => some next

/-- The scheduler, the queues tasks sleep on, and what is under way. -/
structure SchedSys (τ : Type) where
  status : τ → TaskStatus
  current : Nat → τ
  queues : RunQueues τ
  phase : Nat → SchedPhase τ
  /-- The tasks registered on each wait queue. -/
  waitQueue : Nat → List τ
  /-- `task->wait.queue` -/
  waitNode : τ → Option Nat
  mutexQueue : Nat → List τ
  sleepQueue : Nat → List τ
  /-- The tasks a waker has set to `TASK_RUNNING` and not yet passed to `sched_add_ready`. -/
  woken : List τ
  /-- Set once the kernel has panicked. -/
  panicked : Option Panic

/-- The atomic steps.  A step with a CPU `c` is one of the task that is current there. -/
inductive SchedAction (τ : Type) where
  /-- `wait_queue_register` on the wait queue `w`. -/
  | register (c w : Nat)
  /-- `wait_queue_unregister`. -/
  | unregister (c : Nat)
  /-- The compare-exchange from `TASK_RUNNING` to `TASK_INTR_SLEEPING`; some callers check it. -/
  | intrSleep (c : Nat) (checked : Bool)
  /-- The compare-exchange back to `TASK_RUNNING` at the end of a blocking loop. -/
  | intrAwake (c : Nat)
  /-- `sys_clock_nanosleep` links the task into the sleep queue of its CPU, at any position. -/
  | sleepInsert (c position : Nat)
  /-- `mutex_lock` puts the task on the wait queue of the mutex `m`. -/
  | mutexWait (c m : Nat)
  /-- The compare-exchange of `mutex_lock`. -/
  | mutexSleep (c : Nat)
  /-- `sys_exit` sets the status to `TASK_ZOMBIE`. -/
  | exit (c : Nat)
  /-- One round of `wait_queue_wake`, up to the compare-exchange. -/
  | wqWake (w : Nat)
  /-- `send_signal`, up to the compare-exchange. -/
  | sendSignal (t : τ)
  /-- `mutex_unlock`, up to the compare-exchange. -/
  | mutexWake (m : Nat)
  /-- One round of `sleep_queue_tick` for a descriptor whose time has come. -/
  | tick (c : Nat)
  /-- `sched_add_ready`, on the CPU `c`. -/
  | addReady (c : Nat) (t : τ)
  /-- `schedule` is called, by `sched_yield` or by the timer interrupt. -/
  | enter (c : Nat)
  /-- `schedule` picks the next task. -/
  | pick (c : Nat)
  /-- `schedule` puts the current task back. -/
  | readd (c : Nat)
  | switch (c : Nat)

/-- The task whose status word the compare-exchange of a waker will set to `TASK_RUNNING`. -/
def SchedSys.target (s : SchedSys τ) : SchedAction τ → Option τ
  | .wqWake w => (s.waitQueue w).head?.filter fun t => s.status t = .intrSleeping
  | .sendSignal t => if s.status t = .intrSleeping then some t else none
  | .mutexWake m =>
    match retryAwake s.status (s.mutexQueue m) with
    | .ok (woken, _) => woken
    | .error _ => none
  | .tick c => (s.sleepQueue c).head?.filter fun t => s.status t = .intrSleeping
  | _ => none

/-! ## The steps -/

section Steps

variable [DecidableEq τ]

/-- The status word of a task goes to `TASK_RUNNING`; `sched_add_ready` is still to come. -/
def SchedSys.wake (s : SchedSys τ) (t : τ) : SchedSys τ :=
  { s with status := update s.status t .running, woken := t :: s.woken }

def SchedSys.setStatus (s : SchedSys τ) (t : τ) (st : TaskStatus) : SchedSys τ :=
  { s with status := update s.status t st }

def SchedSys.setPhase (s : SchedSys τ) (c : Nat) (p : SchedPhase τ) : SchedSys τ :=
  { s with phase := update s.phase c p }

/-- What a step does, once it is known to be possible. -/
def SchedSys.effect (cfg : SchedConfig τ) (s : SchedSys τ) : SchedAction τ → Option (SchedSys τ)
  | .register c w =>
    let t := s.current c
    match s.waitNode t with
    | none => some { s with
        waitQueue := update s.waitQueue w (s.waitQueue w ++ [t])
        waitNode := update s.waitNode t (some w) }
    | some v => if v = w then some s else some { s with panicked := some .wqRegister }
  | .unregister c =>
    let t := s.current c
    match s.waitNode t with
    | none => some s
    | some w => some { s with
        waitQueue := update s.waitQueue w ((s.waitQueue w).erase t)
        waitNode := update s.waitNode t none }
  | .intrSleep c checked =>
    let t := s.current c
    match s.status t with
    | .running => some (s.setStatus t .intrSleeping)
    | .intrSleeping => some s
    | _ => if checked then some { s with panicked := some .wqSleep } else some s
  | .intrAwake c =>
    let t := s.current c
    if s.status t = .intrSleeping then some (s.setStatus t .running) else some s
  | .sleepInsert c k =>
    some { s with
      sleepQueue := update s.sleepQueue c ((s.sleepQueue c).insertIdx k (s.current c)) }
  | .mutexWait c m =>
    some { s with mutexQueue := update s.mutexQueue m (s.current c :: s.mutexQueue m) }
  | .mutexSleep c =>
    let t := s.current c
    match mutexLockSleep (s.status t) with
    | .ok st => some (s.setStatus t st)
    | .error p => some { s with panicked := some p }
  | .exit c =>
    let t := s.current c
    if t = cfg.idle c then none
    else
      match s.status t with
      | .running => some (s.setStatus t .zombie)
      | .intrSleeping => some (s.setStatus t .zombie)
      | st => some { s with panicked := some (.taskExit st) }
  | .wqWake w =>
    match s.waitQueue w with
    | [] => none
    | t :: rest =>
      let s' := { s with
        waitQueue := update s.waitQueue w rest
        waitNode := update s.waitNode t none }
      if s.status t = .intrSleeping then some (s'.wake t)
      else some { s' with panicked := some .wqWake }
  | .sendSignal t => if s.status t = .intrSleeping then some (s.wake t) else some s
  | .mutexWake m =>
    match retryAwake s.status (s.mutexQueue m) with
    | .ok (none, rest) => some { s with mutexQueue := update s.mutexQueue m rest }
    | .ok (some t, rest) => some ({ s with mutexQueue := update s.mutexQueue m rest } |>.wake t)
    | .error p => some { s with panicked := some p }
  | .tick c =>
    match s.sleepQueue c with
    | [] => none
    | t :: rest =>
      if s.status t = .intrSleeping then
        some ({ s with sleepQueue := update s.sleepQueue c rest } |>.wake t)
      else some s
  | .addReady c t =>
    if t ∈ s.woken then
      some { s with queues := schedAddReady s.queues c t, woken := s.woken.erase t }
    else none
  | .enter c =>
    let curRunning := decide (s.status (s.current c) = .running)
    if scheduleReturns cfg s.queues c (s.current c) curRunning then some s
    else some (s.setPhase c (.entered curRunning))
  | .pick c =>
    match s.phase c with
    | .entered curRunning =>
      (pickNext cfg s.queues c).map fun r => { s with queues := r.2 } |>.setPhase c
      (.picked curRunning r.1)
    | _ => none
  | .readd c =>
    match s.phase c with
    | .picked curRunning next =>
      some ({ s with queues := readd cfg s.queues c (s.current c) curRunning } |>.setPhase c
        (.readded next))
    | _ => none
  | .switch c =>
    match s.phase c with
    | .readded next =>
      if cfg.rsp0 next = 0 then some { s with panicked := some .noStack }
      else some ({ s with current := update s.current c next } |>.setPhase c .task)
    | _ => none

/-- The CPU a step is taken on, if it has to be outside `schedule`. -/
def SchedAction.cpu : SchedAction τ → Option Nat
  | .register c _ | .unregister c | .intrSleep c _ | .intrAwake c | .sleepInsert c _
  | .mutexWait c _ | .mutexSleep c | .exit c | .enter c => some c
  | _ => none

def SchedAction.on : SchedAction τ → Nat
  | .register c _ | .unregister c | .intrSleep c _ | .intrAwake c | .sleepInsert c _
  | .mutexWait c _ | .mutexSleep c | .exit c | .tick c | .addReady c _ | .enter c | .pick c
  | .readd c | .switch c => c
  | _ => 0

/-- One step: nothing happens after a panic, on a CPU that does not exist, or in the code of a task
whose CPU is in `schedule`. -/
def SchedSys.step (cfg : SchedConfig τ) (s : SchedSys τ) (a : SchedAction τ) :
    Option (SchedSys τ) :=
  if s.panicked = none ∧ a.on < cfg.numCpus ∧ ∀ c ∈ a.cpu, s.phase c = .task then s.effect cfg a
  else none

end Steps

/-! ## What is to hold, and when -/

/-- Every run queue is a well-formed list with the right counter, no task is in two places, and no
task in a queue is current anywhere. -/
def SchedSys.RunQueuesOk (cfg : SchedConfig τ) (s : SchedSys τ) : Prop :=
  ∃ rq, s.queues.Rep rq ∧ (∀ c, (rq c).Nodup) ∧ (∀ c d t, t ∈ rq c → t ∈ rq d → c = d) ∧
    ∀ c d t, t ∈ rq c → d < cfg.numCpus → s.current d ≠ t

/-- What a run has to keep away from: a waker that hits a task which has not been switched out, a
`schedule` that puts its current task back, and an idle task that goes to sleep. -/
def SchedSys.Quiet (cfg : SchedConfig τ) (s : SchedSys τ) (a : SchedAction τ) : Prop :=
  (∀ t, s.target a = some t → ∀ d < cfg.numCpus, s.current d ≠ t) ∧
    match a with
    | .readd c => ∀ next, s.phase c = .picked true next → s.current c = cfg.idle c
    | .intrSleep c _ => s.current c ≠ cfg.idle c
    | .mutexSleep c => s.current c ≠ cfg.idle c
    | _ => True

/-- The states a run starts from: no CPU is in `schedule`, no wake-up is under way, every task in a
queue can run and is current nowhere, and the idle tasks stay on their CPUs. -/
structure SchedSys.Start (cfg : SchedConfig τ) (s : SchedSys τ) (rq : Nat → List τ) : Prop where
  rep : s.queues.Rep rq
  phase : ∀ c, s.phase c = .task
  woken : s.woken = []
  running : ∀ c t, t ∈ rq c → s.status t = .running
  notCurrent : ∀ c d t, t ∈ rq c → d < cfg.numCpus → s.current d ≠ t
  current_inj : ∀ c d, c < cfg.numCpus → d < cfg.numCpus → s.current c = s.current d → c = d
  idleCurrent : ∀ c d, c < cfg.numCpus → d < cfg.numCpus → s.current c = cfg.idle d → c = d
  idleRunning : ∀ c < cfg.numCpus, s.status (cfg.idle c) = .running
  idleQueue : ∀ c d, d < cfg.numCpus → cfg.idle d ∉ rq c

/-! ## The invariant

A task that can run is in exactly one place: current on a CPU, in a run queue, in the hands of a
waker, or about to be switched to.  The last three only hold tasks whose status is `TASK_RUNNING`,
so that a waker, which changes a status that is not, can only hit a task that is in none of them. -/

/-- The task waits in a run queue, or is in the hands of a waker. -/
def SchedSys.Ready (s : SchedSys τ) (rq : Nat → List τ) (t : τ) : Prop :=
  t ∈ s.woken ∨ ∃ c, t ∈ rq c

/-- The task `t` can run and is in no queue, in no waker's hands, and current nowhere. -/
structure SchedSys.Away (cfg : SchedConfig τ) (s : SchedSys τ) (rq : Nat → List τ) (t : τ) :
    Prop where
  running : s.status t = .running
  ready : ¬s.Ready rq t
  current : ∀ d < cfg.numCpus, s.current d ≠ t
  idle : ∀ d < cfg.numCpus, t ≠ cfg.idle d

/-- The invariant of the scheduler, with the queues `rq` the memory represents. -/
structure SchedSys.Inv (cfg : SchedConfig τ) (s : SchedSys τ) (rq : Nat → List τ) : Prop where
  rep : s.queues.Rep rq
  placed : Placed cfg s.status s.current (s.Ready rq)
  wokenNodup : s.woken.Nodup
  queueWoken : ∀ c t, t ∈ rq c → t ∉ s.woken
  /-- The task a CPU is about to switch to is its idle task, or a task that is nowhere else. -/
  next : ∀ c < cfg.numCpus, ∀ t, (s.phase c).next = some t → t ≠ cfg.idle c → s.Away cfg rq t
  next_inj : ∀ c d t, c < cfg.numCpus → d < cfg.numCpus → (s.phase c).next = some t →
    (s.phase d).next = some t → c = d

variable {cfg : SchedConfig τ} {s s' : SchedSys τ} {rq : Nat → List τ}

theorem SchedSys.Start.inv (h : s.Start cfg rq) : s.Inv cfg rq where
  rep := h.rep
  placed := {
    running := by simpa [SchedSys.Ready, h.woken] using fun t c => h.running c t
    notCurrent := by simpa [SchedSys.Ready, h.woken] using fun t c ht d => h.notCurrent c d t ht
    current_inj := h.current_inj
    idleCurrent := h.idleCurrent
    idleRunning := h.idleRunning
    idle := by simpa [SchedSys.Ready, h.woken] using fun d hd c => h.idleQueue c d hd }
  wokenNodup := by simp [h.woken]
  queueWoken := by simp [h.woken]
  next := by simp [h.phase, SchedPhase.next]
  next_inj := by simp [h.phase, SchedPhase.next]

theorem SchedSys.Inv.runQueuesOk (h : s.Inv cfg rq) : s.RunQueuesOk cfg :=
  ⟨rq, h.rep, h.rep.nodup, fun _ _ _ hc hd => h.rep.disjoint hc hd,
    fun c d t ht hd => h.placed.notCurrent t (.inr ⟨c, ht⟩) d hd⟩

/-- The queues that tasks sleep on are not part of it, nor is a panic. -/
theorem SchedSys.Inv.congr (h : s.Inv cfg rq)
    (heq : (s'.status, s'.current, s'.queues, s'.phase, s'.woken) =
    (s.status, s.current, s.queues, s.phase, s.woken)) : s'.Inv cfg rq := by
  cases s; cases s'; cases heq
  refine ⟨h.rep, h.placed, h.wokenNodup, h.queueWoken, fun c hc t ht hi => ?_, h.next_inj⟩
  obtain ⟨h1, h2, h3, h4⟩ := h.next c hc t ht hi
  exact ⟨h1, h2, h3, h4⟩

variable {c : Nat} {t : τ} {a : SchedAction τ}

/-- A CPU moves on in `schedule`, with a task that no other CPU has picked. -/
theorem SchedSys.Inv.setPhase (h : s.Inv cfg rq) {p : SchedPhase τ}
    (hnew : ∀ t, p.next = some t → t ≠ cfg.idle c → s.Away cfg rq t)
    (hone : ∀ t, p.next = some t → ∀ d < cfg.numCpus, (s.phase d).next = some t → d = c) :
    (s.setPhase c p).Inv cfg rq := by
  refine ⟨h.rep, h.placed, h.wokenNodup, h.queueWoken, fun d hd t ht hti => ?_,
    fun d e t hd he htd hte => ?_⟩
  · have haway : s.Away cfg rq t := by
      rcases eq_or_ne d c with rfl | hdc
      · exact hnew t (by simpa [SchedSys.setPhase] using ht) hti
      · exact h.next d hd t (by simpa [SchedSys.setPhase, hdc] using ht) hti
    exact ⟨haway.running, haway.ready, haway.current, haway.idle⟩
  · by_cases hdc : d = c <;> by_cases hec : e = c <;>
      simp only [SchedSys.setPhase, hdc, hec, update_self, update_of_ne, ne_eq,
        not_false_eq_true] at htd hte
    · rw [hdc, hec]
    · exact hdc.trans (hone t htd e he hte).symm
    · exact (hone t hte d hd htd).trans hec.symm
    · exact h.next_inj d e t hd he htd hte

theorem SchedSys.Inv.pickIdle (h : s.Inv cfg rq) (hc : c < cfg.numCpus) (b : Bool) :
    (s.setPhase c (.picked b (cfg.idle c))).Inv cfg rq := by
  refine h.setPhase (fun t ht hti => absurd (some.inj ht).symm hti) fun t ht d hd htd => ?_
  obtain rfl := some.inj ht
  by_contra hdc
  exact (h.next d hd _ htd fun he => hdc (cfg.idle_inj c d hc hd he).symm).idle c hc rfl

variable [DecidableEq τ]

theorem SchedSys.Inv.setStatus (h : s.Inv cfg rq) (hc : c < cfg.numCpus)
    (hidle : s.current c ≠ cfg.idle c) (st : TaskStatus) :
    (s.setStatus (s.current c) st).Inv cfg rq := by
  refine ⟨h.rep, h.placed.setStatus hc hidle st, h.wokenNodup, h.queueWoken, fun d hd t ht hti =>
    ?_, h.next_inj⟩
  obtain ⟨h1, h2, h3, h4⟩ := h.next d hd t ht hti
  exact ⟨by simpa [SchedSys.setStatus, (h3 c hc).symm] using h1, h2, h3, h4⟩

/-- A waker that hits a task which is asleep and current nowhere: the task was in no place. -/
theorem SchedSys.Inv.wake (h : s.Inv cfg rq) (hst : s.status t ≠ .running)
    (hcur : ∀ d < cfg.numCpus, s.current d ≠ t) : (s.wake t).Inv cfg rq := by
  have hready : ∀ u, (s.wake t).Ready rq u → u = t ∨ s.Ready rq u := by
    simp [SchedSys.Ready, SchedSys.wake, or_assoc]
  have hnew : ¬s.Ready rq t := fun ht => hst (h.placed.running t ht)
  refine ⟨h.rep, (h.placed.awake hst hcur).mono hready,
    nodup_cons.2 ⟨fun ht => hnew (.inl ht), h.wokenNodup⟩,
    fun c u hu hw => ?_, fun c hc u hu hui => ?_, h.next_inj⟩
  · rcases mem_cons.1 hw with rfl | hw
    · exact hnew (.inr ⟨c, hu⟩)
    · exact h.queueWoken c u hu hw
  · obtain ⟨h1, h2, h3, h4⟩ := h.next c hc u hu hui
    have hut : u ≠ t := fun he => hst (he ▸ h1)
    exact ⟨by simpa [SchedSys.wake, hut] using h1, fun hr => (hready u hr).elim hut h2, h3, h4⟩

theorem SchedSys.Inv.addReady (h : s.Inv cfg rq) (ht : t ∈ s.woken) (c : Nat) :
    SchedSys.Inv cfg { s with queues := schedAddReady s.queues c t, woken := s.woken.erase t }
      (update rq c (rq c ++ [t])) := by
  have hready : ∀ u, SchedSys.Ready
      { s with queues := schedAddReady s.queues c t, woken := s.woken.erase t }
      (update rq c (rq c ++ [t])) u → s.Ready rq u := by
    rintro u (hu | ⟨d, hu⟩)
    · exact .inl (mem_of_mem_erase hu)
    rcases mem_update_append hu with hu | rfl
    · exact .inr ⟨d, hu⟩
    · exact .inl ht
  refine ⟨schedAddReady_rep h.rep fun d hd => h.queueWoken d t hd ht, h.placed.mono hready,
    h.wokenNodup.erase t, fun d u hu hw => ?_, fun d hd u hu hui => ?_, h.next_inj⟩
  · rcases mem_update_append hu with hu | rfl
    · exact h.queueWoken d u hu (mem_of_mem_erase hw)
    · exact h.wokenNodup.not_mem_erase hw
  · obtain ⟨h1, h2, h3, h4⟩ := h.next d hd u hu hui
    exact ⟨h1, fun hr => h2 (hready u hr), h3, h4⟩

omit [DecidableEq τ] in
theorem SchedSys.Inv.pickTask (h : s.Inv cfg rq) {v : Nat} {rest : List τ} {q : RunQueues τ}
    (hv : rq v = t :: rest) (hq : q.Rep (update rq v rest)) (b : Bool) :
    SchedSys.Inv cfg ({ s with queues := q }.setPhase c (.picked b t))
      (update rq v rest) := by
  have htv : t ∈ rq v := by simp [hv]
  have hmem : ∀ d u, u ∈ update rq v rest d → u ∈ rq d ∧ u ≠ t := fun d u => h.rep.mem_rest hv
  have hready : ∀ u, SchedSys.Ready { s with queues := q } (update rq v rest) u → s.Ready rq u :=
    fun u hu => hu.imp_right fun ⟨d, hd⟩ => ⟨d, (hmem d u hd).1⟩
  have htake : SchedSys.Inv cfg { s with queues := q } (update rq v rest) := by
    refine ⟨hq, h.placed.mono hready, h.wokenNodup, fun d u hu => h.queueWoken d u (hmem d u hu).1,
      fun d hd u hu hui => ?_, h.next_inj⟩
    obtain ⟨h1, h2, h3, h4⟩ := h.next d hd u hu hui
    exact ⟨h1, fun hr => h2 (hready u hr), h3, h4⟩
  have ht : s.Ready rq t := .inr ⟨v, htv⟩
  refine htake.setPhase (fun u hu _ => ?_) fun u hu d hd hud => ?_ <;> obtain rfl := some.inj hu
  · refine ⟨h.placed.running t ht, ?_, h.placed.notCurrent t ht, fun d hd he =>
      h.placed.idle d hd (he ▸ ht)⟩
    rintro (hw | ⟨d, hd⟩)
    · exact h.queueWoken v t htv hw
    · exact (hmem d t hd).2 rfl
  · exact absurd ht (h.next d hd t hud fun he => h.placed.idle d hd (he ▸ ht)).ready

/-- The context switch: the next task was nowhere else, and the last one leaves its CPU. -/
theorem SchedSys.Inv.switch (h : s.Inv cfg rq) (hc : c < cfg.numCpus)
    (ht : (s.phase c).next = some t) :
    SchedSys.Inv cfg ({ s with current := update s.current c t }.setPhase c .task) rq := by
  have hnext d u (hu : (update s.phase c .task d).next = some u) : d ≠ c ∧
      (s.phase d).next = some u := by
    by_cases hd : d = c
    · simp [hd, SchedPhase.next] at hu
    · exact ⟨hd, by simpa [hd] using hu⟩
  -- the next task is nowhere, or it is the idle task of this CPU
  have hfree : ¬s.Ready rq t ∧ (∀ d < cfg.numCpus, s.current d = t → d = c) ∧
      ∀ d < cfg.numCpus, t = cfg.idle d → c = d := by
    by_cases hi : t = cfg.idle c
    · subst hi
      exact ⟨h.placed.idle c hc, fun d hd => h.placed.idleCurrent d c hd hc, fun d hd =>
        cfg.idle_inj c d hc hd⟩
    · have haway := h.next c hc t ht hi
      exact ⟨haway.ready, fun d hd he => absurd he (haway.current d hd), fun d hd he =>
        absurd he (haway.idle d hd)⟩
  refine ⟨h.rep, h.placed.switch hc hfree.2.1 hfree.2.2 fun u hu =>
    ⟨fun he => hfree.1 (he ▸ hu), .inl hu⟩,
    h.wokenNodup, h.queueWoken, fun d hd u hu hui => ?_, fun d e u hd he hud hue => ?_⟩
  · obtain ⟨hdc, hu⟩ := hnext d u hu
    obtain ⟨h1, h2, h3, h4⟩ := h.next d hd u hu hui
    refine ⟨h1, h2, fun e he => ?_, h4⟩
    show update s.current c t e ≠ u
    by_cases hec : e = c
    · rw [hec, update_self]
      exact fun heq => hdc (h.next_inj d c u hd hc hu (heq ▸ ht))
    · rw [update_of_ne hec]
      exact h3 e he
  · exact h.next_inj d e u hd he (hnext d u hud).2 (hnext e u hue).2

/-! ## Every quiet step keeps it -/

theorem SchedSys.step_eq (h : s.step cfg a = some s') :
    a.on < cfg.numCpus ∧ (∀ c ∈ a.cpu, s.phase c = .task) ∧ s.effect cfg a = some s' := by
  rw [SchedSys.step] at h
  split at h
  · rename_i hg
    exact ⟨hg.2.1, hg.2.2, h⟩
  · simp at h

section

variable (h : s.Inv cfg rq)

include h

section

variable (hC : s.Quiet cfg a)

include hC

/-- The steps of a task on its own status word and on the queues it sleeps on. -/
theorem SchedSys.Inv.taskStep (hon : a.on < cfg.numCpus) (ha : a.cpu ≠ none)
    (heff : s.effect cfg a = some s') : s'.Inv cfg rq := by
  cases a with simp only [SchedSys.effect] at heff
  | register c w =>
    split at heff
    · cases heff
      exact h.congr rfl
    · split at heff <;> cases heff
      · exact h
      · exact h.congr rfl
  | unregister c =>
    split at heff <;> cases heff
    · exact h
    · exact h.congr rfl
  | intrSleep c checked =>
    split at heff
    · cases heff
      exact h.setStatus hon hC.2 _
    · rwa [← some.inj heff]
    · split at heff <;> cases heff
      · exact h.congr rfl
      · exact h
  | intrAwake c =>
    split at heff <;> cases heff
    · rename_i hst
      refine h.setStatus hon (fun hi => ?_) _
      simp [show s.current c = cfg.idle c from hi, h.placed.idleRunning c hon] at hst
    · exact h
  | sleepInsert c _ | mutexWait c _ =>
    cases heff
    exact h.congr rfl
  | mutexSleep c =>
    split at heff <;> cases heff
    · exact h.setStatus hon hC.2 _
    · exact h.congr rfl
  | exit c =>
    split at heff
    · simp at heff
    rename_i hidle
    split at heff <;> cases heff
    · exact h.setStatus hon hidle _
    · exact h.setStatus hon hidle _
    · exact h.congr rfl
  | enter c =>
    split at heff <;> cases heff
    · exact h
    · exact h.setPhase nofun nofun
  | _ => simp [SchedAction.cpu] at ha

theorem SchedSys.Inv.wakerStep
    (ha : (∃ w, a = .wqWake w) ∨ (∃ t, a = .sendSignal t) ∨ (∃ m, a = .mutexWake m) ∨
    ∃ c, a = .tick c)
    (heff : s.effect cfg a = some s') : s'.Inv cfg rq := by
  have hcur := hC.1
  rcases ha with ⟨w, rfl⟩ | ⟨t, rfl⟩ | ⟨m, rfl⟩ | ⟨c, rfl⟩ <;>
    simp only [SchedSys.effect] at heff
  · split at heff
    · simp at heff
    rename_i t rest hq
    split at heff <;> cases heff
    · rename_i hst
      have hw := h.wake (t := t) (by simp [hst]) (hcur t (by simp [SchedSys.target, hq, hst]))
      exact hw.congr rfl
    · exact h.congr rfl
  · split at heff <;> cases heff
    · rename_i hst
      exact h.wake (by simp [hst]) (hcur t (by simp [SchedSys.target, hst]))
    · exact h
  · split at heff <;> cases heff
    · exact h.congr rfl
    · rename_i t rest hq
      obtain ⟨-, -, -, hst⟩ := retryAwake_some hq
      have hw := h.wake (t := t) (by simp [hst]) (hcur t (by simp [SchedSys.target, hq]))
      exact hw.congr rfl
    · exact h.congr rfl
  · split at heff
    · simp at heff
    rename_i t rest hq
    split at heff <;> cases heff
    · rename_i hst
      have hw := h.wake (t := t) (by simp [hst]) (hcur t (by simp [SchedSys.target, hq, hst]))
      exact hw.congr rfl
    · exact h

/-- The steps of `sched_add_ready` and `schedule` on the run queues. -/
theorem SchedSys.Inv.queueStep (hon : a.on < cfg.numCpus)
    (ha : (∃ c t, a = .addReady c t) ∨ (∃ c, a = .pick c) ∨ (∃ c, a = .readd c) ∨
    ∃ c, a = .switch c)
    (heff : s.effect cfg a = some s') : ∃ rq', s'.Inv cfg rq' := by
  rcases ha with ⟨c, t, rfl⟩ | ⟨c, rfl⟩ | ⟨c, rfl⟩ | ⟨c, rfl⟩ <;>
    simp only [SchedSys.effect] at heff
  · split at heff
    · rename_i ht
      cases heff
      exact ⟨_, h.addReady ht c⟩
    · simp at heff
  · split at heff
    · rename_i b hph
      rcases pickNext_rep cfg h.rep c with hp | ⟨v, t, rest, q, hv, hp, hq⟩
      · rw [hp] at heff
        cases heff
        exact ⟨rq, h.pickIdle hon b⟩
      · rw [hp] at heff
        cases heff
        exact ⟨_, h.pickTask hv hq b⟩
    · simp at heff
  · split at heff
    · rename_i b next hph
      cases heff
      -- a quiet `schedule` has nothing to put back
      have hback : ¬ (b = true ∧ s.current c ≠ cfg.idle c) := by
        rintro ⟨rfl, hne⟩
        exact hne (hC.2 next hph)
      rw [readd, if_neg hback]
      have hnext : (s.phase c).next = some next := by rw [hph]; rfl
      refine ⟨rq, h.setPhase (fun t ht => h.next c hon t ?_) fun t ht d hd htd =>
        h.next_inj d c t hd hon htd ?_⟩
      · exact hnext.trans ht
      · exact hnext.trans ht
    · simp at heff
  · split at heff
    · rename_i next hph
      split at heff <;> cases heff
      · exact ⟨rq, h.congr rfl⟩
      · exact ⟨rq, h.switch hon (by rw [hph]; rfl)⟩
    · simp at heff

theorem SchedSys.step_inv (hstep : s.step cfg a = some s') :
    ∃ rq', s'.Inv cfg rq' := by
  obtain ⟨hon, -, heff⟩ := SchedSys.step_eq hstep
  cases a with
  | wqWake w | sendSignal t | mutexWake m | tick c => exact ⟨rq, h.wakerStep hC (by simp) heff⟩
  | addReady c t | pick c | readd c | switch c => exact h.queueStep hC hon (by simp) heff
  | _ => exact ⟨rq, h.taskStep hC hon (by simp [SchedAction.cpu]) heff⟩

end

end

/-- **The run queues stay well formed** in every run in which wakers only hit tasks that have been
switched out, `schedule` never puts a task back, and no idle task sleeps. -/
theorem runQueues_of_quiet (cfg : SchedConfig τ) (s₀ : SchedSys τ) (rq₀ : Nat → List τ)
    (h₀ : s₀.Start cfg rq₀) (as : List (SchedAction τ)) (s : SchedSys τ)
    (hC : Along (SchedSys.step cfg) (SchedSys.Quiet cfg) s₀ as)
    (hrun : run (SchedSys.step cfg) s₀ as = some s) : s.RunQueuesOk cfg := by
  have hstep s a s' (hinv : (∃ rq, SchedSys.Inv cfg s rq)) (hq : s.Quiet cfg a)
      (hs : s.step cfg a = some s') : ∃ rq, s'.Inv cfg rq := by
    obtain ⟨rq, h⟩ := hinv
    exact SchedSys.step_inv h hq hs
  obtain ⟨rq, h⟩ := run_induction hstep ⟨rq₀, h₀.inv⟩ hC hrun
  exact h.runQueuesOk

/-! ## Two CPUs -/

/-- Task 2 is current on CPU 0, where task 3 waits for its turn; CPU 1 is idle. -/
def taskWaiting : SchedSys Nat where
  status _ := .running
  current c := if c = 0 then 2 else 1
  queues := schedAddReady .init 0 3
  phase _ := .task
  waitQueue _ := []
  waitNode _ := none
  mutexQueue _ := []
  sleepQueue _ := []
  woken := []
  panicked := none

theorem taskWaiting_start : taskWaiting.Start twoCpus (update (fun _ => []) 0 [3]) where
  rep := schedAddReady_rep RunQueues.init_rep (by simp)
  phase _ := rfl
  woken := rfl
  running _ _ _ := rfl
  notCurrent c d t ht hd := by
    have ht3 : t = 3 := by
      rcases eq_or_ne c 0 with rfl | hc
      · simpa using ht
      · simp [hc] at ht
    rw [ht3]
    show (if d = 0 then 2 else 1) ≠ 3
    split <;> omega
  current_inj c d hc hd := by
    show (if c = 0 then 2 else 1) = (if d = 0 then 2 else 1) → c = d
    have hc' : c < 2 := hc
    have hd' : d < 2 := hd
    split <;> split <;> omega
  idleCurrent c d hc hd := by
    show (if c = 0 then 2 else 1) = d → c = d
    have hc' : c < 2 := hc
    have hd' : d < 2 := hd
    split <;> omega
  idleRunning _ _ := rfl
  idleQueue c d hd := by
    show d ∉ update (fun _ => []) 0 [3] c
    have hd' : d < 2 := hd
    rcases eq_or_ne c 0 with rfl | hc
    · simp
      omega
    · simp [hc]

/-- Task 2 blocks on the wait queue 7, task 3 takes over and wakes it. -/
def blockAndWakeRun : List (SchedAction Nat) :=
  [.register 0 7, .intrSleep 0 true, .enter 0, .pick 0, .readd 0, .switch 0, .wqWake 7,
    .addReady 0 2]

theorem runQueues_of_quiet_blockAndWake :
    ∃ s, run (SchedSys.step twoCpus) taskWaiting blockAndWakeRun = some s ∧ s.current 0 = 3 ∧
      s.queues.count 0 = 1 ∧ s.RunQueuesOk twoCpus := by
  refine ⟨_, rfl, rfl, rfl, runQueues_of_quiet twoCpus taskWaiting _ taskWaiting_start
    blockAndWakeRun _ (.cons rfl ⟨nofun, trivial⟩
    (.cons rfl ⟨nofun, by decide⟩ (.cons rfl ⟨nofun, trivial⟩
      (.cons rfl ⟨nofun, trivial⟩ (.cons rfl ⟨nofun, nofun⟩ (.cons rfl ⟨nofun, trivial⟩
      (.cons rfl ⟨fun t ht d hd => ?_, trivial⟩ (.cons rfl ⟨nofun, trivial⟩ trivial)))))))) rfl⟩
  -- the waker hits task 2, and CPU 0 has switched to task 3 by now
  cases ht
  match d, hd with
  | 0, _ => exact (by decide : (3 : Nat) ≠ 2)
  | 1, _ => exact (by decide : (1 : Nat) ≠ 2)

/-- **They do not in general.**  Task 2 is about to sleep on CPU 0 when CPU 1 wakes it and puts it
into its own run queue.  The `schedule` of task 2 then finds it running, picks task 3 and puts task
2 back into the run queue of CPU 0: one node is linked into two queues, and both heads point at
it. -/
theorem runQueues_break :
    ¬ ∀ (as : List (SchedAction Nat)) (s : SchedSys Nat),
      run (SchedSys.step twoCpus) taskWaiting as = some s → s.RunQueuesOk twoCpus := by
  intro h
  obtain ⟨rq, hrep, -, hone, -⟩ := h [.register 0 7, .intrSleep 0 true, .wqWake 7, .addReady 1 2,
    .enter 0, .pick 0, .readd 0] _ rfl
  have h0 : 2 ∈ rq 0 := hrep.mem_of_next rfl
  have h1 : 2 ∈ rq 1 := hrep.mem_of_next rfl
  exact absurd (hone 0 1 2 h0 h1) (by decide)

end Monolith
