import Monolith.Lib.Run
import Monolith.Libk.List
import Monolith.Sched.Task

/-!
# `sched/waitqueue.c`: wait queues and the loops that wait on them

A task that waits links its only node `task->wait` into a queue, marks itself `TASK_INTR_SLEEPING`
and yields; when it is back it takes the node out again.  `wait_queue_wake` takes a node out and
wakes its task, which has to be asleep.  A signal wakes a task as well, but leaves its node where it
is.

* `WaitSys` is any number of tasks in `tty_read`, `socket_recvfrom` and `arp_search`, with signals
  and wake-ups in between.  The mutexes that the loops take are left out: the steps come in any
  order.
* `wakeUp_panics` is the run in which a wake-up meets a task that a signal has woken.
* `noPanic_of_quiet`: the three panics of the file are not reached as long as signals find no task
  that is asleep for a queue, and wake-ups find no task between its registration and its change of
  status, which is what the mutexes are for.
-/

namespace Monolith

open Function Intrusive Libk Transition List Option

variable {τ : Type}

/-! ## The state -/

/-- A node: the head of a wait queue, or the node of a task. -/
inductive WqNode (τ : Type) where
  | head (q : Nat)
  /-- `task->wait.list_node` -/
  | wait (t : τ)
  deriving DecidableEq

/-- The loops that wait.  `socket_recvfrom` does not set `exp_status` again in its second round. -/
inductive WaitLoop where
  | ttyRead
  | socketRecvfrom
  deriving DecidableEq, Repr

/-- Where a task is in a function that waits on the queue `q`. -/
inductive BlockPc where
  | idle
  /-- At `wait_queue_register`, with what the compare-exchange will expect. -/
  | register (loop : WaitLoop) (q : Nat) (exp : TaskStatus)
  /-- At the compare-exchange to `TASK_INTR_SLEEPING`. -/
  | sleep (loop : WaitLoop) (q : Nat) (exp : TaskStatus)
  /-- At the tests that end the loop. -/
  | test (loop : WaitLoop) (q : Nat) (exp : TaskStatus)
  /-- At `sched_yield`. -/
  | yield (loop : WaitLoop) (q : Nat) (exp : TaskStatus)
  /-- `arp_search`, at its compare-exchange. -/
  | arpSleep (q : Nat)
  /-- `arp_search`, at `wait_queue_register`. -/
  | arpRegister (q : Nat)
  /-- `arp_search`, at `sched_yield`. -/
  | arpYield (q : Nat)
  /-- At `wait_queue_unregister`. -/
  | unregister (q : Nat)
  /-- At the compare-exchange back to `TASK_RUNNING`. -/
  | awake
  | exited
  deriving DecidableEq, Repr

/-- The wait queues and the tasks. -/
structure WaitSys (τ : Type) where
  links : Links (WqNode τ)
  queue : τ → Option Nat
  status : τ → TaskStatus
  sigPending : τ → BitVec 32
  sigBlocked : τ → BitVec 32
  pc : τ → BlockPc
  /-- Set once the kernel has panicked. -/
  panicked : Option Panic

/-- Every task runs, and no task waits. -/
def WaitSys.init (sigBlocked : τ → BitVec 32) : WaitSys τ where
  links := { prev := id, next := id }
  queue _ := none
  status _ := .running
  sigPending _ := 0
  sigBlocked := sigBlocked
  pc _ := .idle
  panicked := none

def signalPending (s : WaitSys τ) (t : τ) : Bool := s.sigPending t &&& ~~~s.sigBlocked t ≠ 0

section Functions

variable [DecidableEq τ] (s : WaitSys τ)

namespace WaitSys

def setStatus (t : τ) (st : TaskStatus) : WaitSys τ :=
  { s with status := Function.update s.status t st }

def goto (t : τ) (pc : BlockPc) : WaitSys τ := { s with pc := Function.update s.pc t pc }

end WaitSys

/-! ## The functions -/

def waitQueueRegister (q : Nat) (t : τ) : Except Panic (WaitSys τ) :=
  if listEmpty s.links (.wait t) then
    .ok { s with
      links := listAddTail s.links (.head q) (.wait t)
      queue := Function.update s.queue t (some q) }
  else if s.queue t ≠ some q then .error .wqRegister
  else .ok s

def waitQueueUnregister (t : τ) : Except Panic (WaitSys τ) :=
  if s.queue t = none then .ok s
  else if listEmpty s.links (.wait t) = false then
    .ok { s with
      links := listDel s.links (.wait t)
      queue := Function.update s.queue t none }
  else .error .wqUnregister

/-- A round of `wait_queue_wake`, for the first node of the queue. -/
def wakeFirst (q : Nat) : Option (Except Panic (WaitSys τ)) :=
  match s.links.next (.head q) with
  | .head _ => none
  | .wait t =>
    let s' := { s with
      links := listDel s.links (.wait t)
      queue := Function.update s.queue t none }
    some (if s.status t = .intrSleeping then .ok (s'.setStatus t .running) else .error .wqWake)

def sendSignal (t : τ) (signal : Nat) : WaitSys τ :=
  let s' := { s with
    sigPending := Function.update s.sigPending t (s.sigPending t ||| 1#32 <<< (signal - 1)) }
  if s.status t = .intrSleeping then s'.setStatus t .running else s'

/-- `signal_try_handle`: a signal other than `SIGCHLD` ends the task. -/
def signalTryHandle (t : τ) : WaitSys τ :=
  if s.sigPending t &&& ~~~s.sigBlocked t &&& ~~~(1#32 <<< 16) ≠ 0 then
    (s.setStatus t .zombie).goto t .exited
  else { s with sigPending := Function.update s.sigPending t (s.sigPending t &&& s.sigBlocked t) }

/-- The compare-exchange of the loops: the new status, and what `exp_state` is afterwards. -/
def sleepExchange (status exp : TaskStatus) : Except Panic (TaskStatus × TaskStatus) :=
  if status = exp then .ok (.intrSleeping, exp)
  else if status ≠ .intrSleeping then .error .wqSleep
  else .ok (status, status)

/-- What the compare-exchange of the next round expects. -/
def WaitLoop.nextExp (exp : TaskStatus) : WaitLoop → TaskStatus
  | .ttyRead => .running
  | .socketRecvfrom => exp

/-- The next step of a task.  `data` says whether there is something to read. -/
def advance (t : τ) (data : Bool) : BlockPc → Option (Except Panic (WaitSys τ))
  | .register loop q exp => some ((waitQueueRegister s q t).map (·.goto t (.sleep loop q exp)))
  | .sleep loop q exp => some ((sleepExchange (s.status t) exp).map fun r =>
      (s.setStatus t r.1).goto t (.test loop q r.2))
  | .test loop q exp =>
    some (.ok (s.goto t (if data || signalPending s t then .unregister q else .yield loop q exp)))
  -- the scheduler can come back to a task that is in a run queue from before
  | .yield loop q exp => some (.ok (s.goto t (.register loop q (loop.nextExp exp))))
  | .arpSleep q =>
    some (.ok ((if s.status t = .running then s.setStatus t .intrSleeping else s).goto t
    (.arpRegister q)))
  | .arpRegister q => some ((waitQueueRegister s q t).map (·.goto t (.arpYield q)))
  | .arpYield q => some (.ok (s.goto t (.unregister q)))
  | .unregister _ => some ((waitQueueUnregister s t).map (·.goto t .awake))
  | .awake =>
    some (.ok ((if s.status t = .intrSleeping then s.setStatus t .running else s).goto t .idle))
  | .idle | .exited => none

end Functions

/-! ## The system -/

inductive WaitCall where
  | reader (loop : WaitLoop)
  | arpSearch
  deriving DecidableEq, Repr

def WaitCall.start (q : Nat) : WaitCall → BlockPc
  | .reader loop => .register loop q .running
  | .arpSearch => .arpSleep q

inductive WaitAct (τ : Type) where
  /-- A task finds nothing to read and starts to wait. -/
  | call (t : τ) (f : WaitCall) (q : Nat)
  | go (t : τ) (data : Bool)
  /-- `send_signal` -/
  | signal (t : τ) (signal : Nat)
  /-- A round of `wait_queue_wake` -/
  | wake (q : Nat)
  /-- A task that returns to user space handles its signals. -/
  | handle (t : τ)

namespace WaitSys

variable [DecidableEq τ]

/-- A panic stops everything. -/
def settle (s : WaitSys τ) : Except Panic (WaitSys τ) → WaitSys τ
  | .ok s' => s'
  | .error p => { s with panicked := some p }

def effect (s : WaitSys τ) : WaitAct τ → Option (WaitSys τ)
  | .call t f q => if s.pc t = .idle ∧
    s.status t = .running then some (s.goto t (f.start q)) else none
  | .go t data => (advance s t data (s.pc t)).map s.settle
  | .signal t signal => some (sendSignal s t signal)
  | .wake q => (wakeFirst s q).map s.settle
  | .handle t => if s.pc t = .idle then some (signalTryHandle s t) else none

def step (s : WaitSys τ) (a : WaitAct τ) : Option (WaitSys τ) :=
  if s.panicked = none then s.effect a else none

end WaitSys

/-! ## What the links represent -/

/-- The queues have the members `m`, and the nodes of the other tasks are in no list. -/
structure WaitSys.Rep (s : WaitSys τ) (m : Nat → List τ) : Prop where
  ring : ∀ q, IsRing s.links (.head q) ((m q).map WqNode.wait)
  mem : ∀ t q, t ∈ m q ↔ s.queue t = some q
  alone : ∀ t, s.queue t = none → IsRing s.links (.wait t) []

variable {s' : WaitSys τ} {pc : BlockPc} {st : TaskStatus} {q : Nat}

section Rep

variable {s : WaitSys τ} {m : Nat → List τ} {t : τ} {q : Nat}

theorem WaitSys.init_rep (sigBlocked : τ → BitVec 32) :
    (WaitSys.init sigBlocked).Rep fun _ => [] where
  ring q := ⟨⟨rfl, rfl, trivial⟩, by simp⟩
  mem := by simp [WaitSys.init]
  alone t _ := ⟨⟨rfl, rfl, trivial⟩, by simp⟩

theorem WaitSys.Rep.congr (h : s.Rep m) (hlinks : s'.links = s.links)
    (hqueue : s'.queue = s.queue) : s'.Rep m := by
  cases s; cases s'
  subst hlinks hqueue
  exact ⟨h.ring, h.mem, h.alone⟩

theorem WaitSys.Rep.unique {p : Nat} (h : s.Rep m) (hp : t ∈ m p) (hq : t ∈ m q) : p = q := by
  rw [h.mem] at hp hq
  exact mem_unique hp hq

theorem WaitSys.Rep.nodup (h : s.Rep m) (q : Nat) : (m q).Nodup :=
  Nodup.of_map _ (h.ring q).nodup_tail

theorem WaitSys.Rep.rings (h : s.Rep m) :
    Rings s.links (fun _ => True) WqNode.head (map WqNode.wait ∘ m) where
  ring q _ := h.ring q
  inj _ _ := WqNode.head.inj
  apart := by simp

variable [DecidableEq τ]

theorem WaitSys.Rep.listEmpty (h : s.Rep m) : listEmpty s.links (.wait t) = (s.queue t).isNone := by
  rcases hq : s.queue t with _ | q
  · exact listEmpty_eq (h.alone t hq)
  have hmem : WqNode.wait t ∈ (m q).map WqNode.wait := mem_map_of_mem ((h.mem t q).2 hq)
  rw [Libk.listEmpty, isNone_some, beq_eq_false_iff_ne]
  exact ((h.ring q).next_ne hmem).symm

theorem WaitSys.Rep.append (h : s.Rep m) (ht : s.queue t = none)
    (hlinks : s'.links = listAddTail s.links (.head q) (.wait t))
    (hqueue : s'.queue = update s.queue t (some q)) : s'.Rep (update m q (m q ++ [t])) := by
  have hnot : ∀ p, t ∉ m p := fun p hp => by simp [h.mem, ht] at hp
  refine ⟨fun p => ?_, fun u p => ?_, fun u hu => ?_⟩
  · have hadd :=
      (h.rings.add (i := q) (n := .wait t) trivial (append_nil _).symm (by simp [hnot]) (by simp)).2
    have hr := hadd.ring p trivial
    rwa [headD_nil, comp_apply, ← map_singleton, ← map_append, ← comp_update, ← hlinks] at hr
  · rw [hqueue]
    rcases eq_or_ne u t with rfl | hut
    · rw [update_self]
      rcases eq_or_ne p q with rfl | hp
      · simp
      · rw [update_of_ne hp]
        exact iff_of_false (hnot p) fun heq => hp (some_inj.1 heq).symm
    · rw [update_of_ne hut, ← h.mem]
      rcases eq_or_ne p q with rfl | hp
      · simp [hut]
      · rw [update_of_ne hp]
  · have hut : u ≠ t := by
      rintro rfl
      simp [hqueue] at hu
    rw [hqueue, update_of_ne hut] at hu
    have hnotq : u ∉ m q := fun hmem => by simp [h.mem, hu] at hmem
    rw [hlinks]
    exact listAddBetween_frame (h.alone u hu) (by simp [hnotq])
      ((h.ring q).neighbours mem_cons_self).2 mem_cons_self
      (by simp [Ne.symm hut])

theorem WaitSys.Rep.remove (h : s.Rep m) (ht : s.queue t = some q)
    (hlinks : s'.links = listDel s.links (.wait t)) (hqueue : s'.queue = update s.queue t none) :
    s'.Rep (update m q ((m q).erase t)) := by
  have hmem : t ∈ m q := (h.mem t q).2 ht
  have hnodup := h.nodup q
  refine ⟨fun p => ?_, fun u p => ?_, fun u hu => ?_⟩
  · have hr := (h.rings.del trivial (mem_map_of_mem hmem)).ring p trivial
    rwa [comp_apply, ← map_erase fun _ _ h => WqNode.wait.inj h, ← comp_update, ← hlinks] at hr
  · rw [hqueue]
    rcases eq_or_ne u t with rfl | hut
    · rw [update_self]
      rcases eq_or_ne p q with rfl | hp
      · rw [update_self]
        exact iff_of_false (hnodup.not_mem_erase) nofun
      · rw [update_of_ne hp]
        exact iff_of_false (fun hin => hp (h.unique hin hmem)) nofun
    · rw [update_of_ne hut, ← h.mem]
      rcases eq_or_ne p q with rfl | hp
      · rw [update_self, mem_erase_of_ne hut]
      · rw [update_of_ne hp]
  · rw [hlinks]
    rcases eq_or_ne u t with rfl | hut
    · exact ⟨⟨update_self .., update_self .., trivial⟩, by simp⟩
    rw [hqueue, update_of_ne hut] at hu
    have hnotq : u ∉ m q := fun hin => by simp [h.mem, hu] at hin
    exact listDel_frame (h.alone u hu) (h.ring q) (mem_map_of_mem hmem) (by simp [hnotq])

end Rep

/-! ## The invariant -/

/-- The queue that a task at this place may be in. -/
def BlockPc.queue : BlockPc → Option Nat
  | .register _ q _ | .sleep _ q _ | .test _ q _ | .yield _ q _ | .arpYield q | .unregister q =>
    some q
  | _ => none

/-- The task is not between its registration and its change of status. -/
def BlockPc.settled : BlockPc → Bool
  | .sleep .. => false
  | _ => true

/-- What the place of a task says about its status and its queue. -/
structure TaskOk (pc : BlockPc) (status : TaskStatus) (queue : Option Nat) : Prop where
  place : ∀ q, queue = some q → pc.queue = some q
  asleep : queue ≠ none → pc.settled = true → status = .intrSleeping
  registering : ∀ q, pc = .arpRegister q → status = .intrSleeping
  starting : ∀ q, pc = .arpSleep q → status = .running

/-- None of the panics of `waitqueue.c`. -/
def WaitSys.NoPanic (s : WaitSys τ) : Prop :=
  s.panicked ≠ some .wqWake ∧ s.panicked ≠ some .wqRegister ∧ s.panicked ≠ some .wqUnregister

/-- The invariant, with the members `m` of the queues. -/
structure WaitSys.Inv (s : WaitSys τ) (m : Nat → List τ) : Prop where
  rep : s.Rep m
  task : ∀ t, TaskOk (s.pc t) (s.status t) (s.queue t)
  noPanic : s.NoPanic

variable {queue : Option Nat} {exp : TaskStatus}

theorem TaskOk.queue_eq_none (h : TaskOk pc st queue) (hpc : pc.queue = none) :
    queue = none := by
  rcases queue with _ | q
  · rfl
  have hq := h.place q rfl
  simp [hpc] at hq

/-- A task that is in no queue and not in `arp_search` before its registration. -/
theorem TaskOk.outside (st : TaskStatus) (harp : ∀ q, pc ≠ .arpRegister q ∧ pc ≠ .arpSleep q) :
    TaskOk pc st none :=
  ⟨nofun, fun h => absurd rfl h, fun q hq => absurd hq (harp q).1, fun q hq => absurd hq (harp q).2⟩

/-- A task that may be in a queue, and sleeps if it is. -/
theorem TaskOk.inside (hpc : pc.queue = some q) (hqueue : ∀ p, queue = some p → p = q)
    (hst : queue ≠ none → pc.settled = true → st = .intrSleeping) : TaskOk pc st queue := by
  refine ⟨fun p hp => hpc.trans (by rw [hqueue p hp]), hst, fun p hp => ?_, fun p hp => ?_⟩
  · rw [hp] at hpc
    cases hpc
  · rw [hp] at hpc
    cases hpc

section Steps

variable [DecidableEq τ] {s s' : WaitSys τ} {m : Nat → List τ} {t : τ} {p : Panic}
  {r : Except Panic (WaitSys τ)}

theorem WaitSys.Inv.update {m' : Nat → List τ} (h : s.Inv m) (hrep : s'.Rep m')
    (hpanic : s'.panicked = s.panicked)
    (hother : ∀ u, u ≠ t → s'.pc u = s.pc u ∧ s'.status u = s.status u ∧ s'.queue u = s.queue u)
    (ht : TaskOk (s'.pc t) (s'.status t) (s'.queue t)) : s'.Inv m' := by
  refine ⟨hrep, fun u => ?_, ?_⟩
  · by_cases hut : u = t
    · exact hut ▸ ht
    obtain ⟨hpc, hst, hqueue⟩ := hother u hut
    rw [hpc, hst, hqueue]
    exact h.task u
  · rw [WaitSys.NoPanic, hpanic]
    exact h.noPanic

/-- The links stay, and one task changes its place and its status. -/
theorem WaitSys.Inv.move (h : s.Inv m) (ht : TaskOk pc st (s.queue t)) :
    ((s.setStatus t st).goto t pc).Inv m := by
  refine h.update (t := t) (h.rep.congr rfl rfl) rfl (fun u hut => ?_) ?_
  · exact ⟨update_of_ne hut .., update_of_ne hut .., rfl⟩
  · show TaskOk (Function.update s.pc t pc t) (Function.update s.status t st t) (s.queue t)
    rwa [Function.update_self, Function.update_self]

theorem WaitSys.Inv.goto (h : s.Inv m) (ht : TaskOk pc (s.status t) (s.queue t)) :
    (s.goto t pc).Inv m := by
  have hmove := h.move ht
  rwa [WaitSys.setStatus, update_eq_self] at hmove

omit [DecidableEq τ] in
theorem WaitSys.Inv.stop (h : s.Inv m) (hp : p ≠ .wqWake ∧ p ≠ .wqRegister ∧ p ≠ .wqUnregister) :
    WaitSys.Inv { s with panicked := some p } m := by
  refine ⟨h.rep.congr rfl rfl, h.task, ?_⟩
  obtain ⟨hw, hr, hu⟩ := hp
  exact ⟨fun heq => hw (some_inj.1 heq), fun heq => hr (some_inj.1 heq), fun heq =>
    hu (some_inj.1 heq)⟩

/-- **`wait_queue_register`** does not panic for a task that may be in this queue only. -/
theorem WaitSys.Inv.register (h : s.Inv m) (hpc : pc.queue = some q)
    (hold : ∀ p, s.queue t = some p → p = q)
    (hst : pc.settled = true → s.status t = .intrSleeping) :
    ∃ s', waitQueueRegister s q t = .ok s' ∧ ∃ m', (s'.goto t pc).Inv m' := by
  rw [waitQueueRegister, h.rep.listEmpty]
  cases hq : s.queue t with
  | none =>
    refine ⟨_, rfl, _, h.update (t := t) (h.rep.append hq rfl rfl) rfl (fun u hut => ?_) ?_⟩
    · exact ⟨update_of_ne hut .., rfl, update_of_ne hut ..⟩
    show TaskOk (Function.update s.pc t pc t) (s.status t) (Function.update s.queue t (some q) t)
    rw [Function.update_self, Function.update_self]
    exact .inside hpc (fun p hp => (some_inj.1 hp).symm) fun _ => hst
  | some p =>
    obtain rfl := hold p hq
    rw [if_neg (not_not.2 rfl)]
    exact ⟨s, rfl, m, h.goto (.inside hpc hold fun _ => hst)⟩

/-- **`wait_queue_unregister`** finds a node that has a queue in a list. -/
theorem WaitSys.Inv.unregister (h : s.Inv m) :
    ∃ s', waitQueueUnregister s t = .ok s' ∧ ∃ m', (s'.goto t .awake).Inv m' := by
  have hout : ∀ q, BlockPc.awake ≠ .arpRegister q ∧ BlockPc.awake ≠ .arpSleep q :=
    fun q => ⟨nofun, nofun⟩
  rw [waitQueueUnregister, h.rep.listEmpty]
  rcases hq : s.queue t with _ | _
  · exact ⟨s, rfl, m, h.goto (hq ▸ .outside _ hout)⟩
  refine ⟨_, rfl, _, h.update (t := t) (h.rep.remove hq rfl rfl) rfl (fun u hut => ?_) ?_⟩
  · exact ⟨update_of_ne hut .., rfl, update_of_ne hut ..⟩
  show TaskOk (Function.update s.pc t .awake t) (s.status t) (Function.update s.queue t none t)
  rw [Function.update_self, Function.update_self]
  exact .outside _ hout

/-- The compare-exchange of the loops leaves the task asleep. -/
theorem sleepExchange_ok {r : TaskStatus × TaskStatus} (h : sleepExchange st exp = .ok r) :
    r.1 = .intrSleeping := by
  rw [sleepExchange] at h
  split at h
  · cases h
    rfl
  split at h
  · cases h
  rename_i hst
  cases h
  exact not_not.1 hst

theorem sleepExchange_error (h : sleepExchange st exp = .error p) : p = .wqSleep := by
  rw [sleepExchange] at h
  split at h
  · cases h
  split at h
  · cases h
    rfl
  · cases h

theorem WaitSys.Inv.advance (h : s.Inv m) {data : Bool}
    (hgo : advance s t data (s.pc t) = some r) : ∃ m', (s.settle r).Inv m' := by
  have ht := h.task t
  -- a task that is in a queue is in that of its place
  have hplace : ∀ q, (s.pc t).queue = some q → ∀ p, s.queue t = some p → p = q := fun q hq p hp =>
    some_inj.1 ((ht.place p hp).symm.trans hq)
  generalize s.pc t = pc at hgo ht hplace
  cases pc with
  | idle | exited => cases hgo
  | register loop q exp =>
    obtain ⟨s', hs', m', h'⟩ := h.register (show (BlockPc.sleep loop q exp).queue = some q from rfl)
      (hplace q rfl) nofun
    rw [Monolith.advance, hs', some_inj] at hgo
    exact ⟨m', hgo ▸ h'⟩
  | sleep loop q exp =>
    rw [Monolith.advance] at hgo
    cases hgo
    cases hex : sleepExchange (s.status t) exp with
    | error p => exact ⟨m, h.stop (by rw [sleepExchange_error hex]; decide)⟩
    | ok r => exact ⟨m, h.move (.inside rfl (hplace q rfl) fun _ _ => sleepExchange_ok hex)⟩
  | test loop q exp =>
    rw [Monolith.advance] at hgo
    cases hgo
    refine ⟨m, h.goto ?_⟩
    split <;> exact .inside rfl (hplace q rfl) fun hq _ => ht.asleep hq rfl
  | yield loop q exp =>
    rw [Monolith.advance] at hgo
    cases hgo
    exact ⟨m, h.goto (.inside rfl (hplace q rfl) fun hq _ => ht.asleep hq rfl)⟩
  | arpSleep q =>
    rw [Monolith.advance, if_pos (ht.starting q rfl)] at hgo
    cases hgo
    refine ⟨m, h.move ?_⟩
    rw [ht.queue_eq_none rfl]
    exact ⟨nofun, fun hne => absurd rfl hne, fun _ _ => rfl, nofun⟩
  | arpRegister q =>
    have hnone := ht.queue_eq_none rfl
    obtain ⟨s', hs', m', h'⟩ := h.register (show (BlockPc.arpYield q).queue = some q from rfl)
      (fun p hp => by rw [hnone] at hp; cases hp) fun _ => ht.registering q rfl
    rw [Monolith.advance, hs', some_inj] at hgo
    exact ⟨m', hgo ▸ h'⟩
  | arpYield q =>
    rw [Monolith.advance] at hgo
    cases hgo
    exact ⟨m, h.goto (.inside rfl (hplace q rfl) fun hq _ => ht.asleep hq rfl)⟩
  | unregister q =>
    obtain ⟨s', hs', m', h'⟩ := h.unregister (t := t)
    rw [Monolith.advance, hs', some_inj] at hgo
    exact ⟨m', hgo ▸ h'⟩
  | awake =>
    rw [Monolith.advance] at hgo
    cases hgo
    have hidle : ∀ st, TaskOk .idle st (s.queue t) := fun st => by
      rw [ht.queue_eq_none rfl]
      exact .outside st fun q => ⟨nofun, nofun⟩
    split
    · exact ⟨m, h.move (hidle _)⟩
    · exact ⟨m, h.goto (hidle _)⟩

/-- **A round of `wait_queue_wake`** finds its task asleep, if the task is not about to change its
status. -/
theorem WaitSys.Inv.wake (h : s.Inv m) (hquiet : ∀ t loop exp, s.pc t ≠ .sleep loop q exp)
    (hwake : wakeFirst s q = some r) : ∃ m', (s.settle r).Inv m' := by
  rw [wakeFirst] at hwake
  cases hm : m q with
  | nil =>
    have hnext : s.links.next (.head q) = .head q := by
      have hr := h.rep.ring q
      rw [hm] at hr
      exact hr.next_head
    simp [hnext] at hwake
  | cons t ts =>
    have hnext : s.links.next (.head q) = .wait t := by
      have hr := h.rep.ring q
      rw [hm] at hr
      exact hr.next_head
    have hq : s.queue t = some q := (h.rep.mem t q).1 (hm ▸ mem_cons_self)
    have ht := h.task t
    have hpc := ht.place q hq
    have hsettled : (s.pc t).settled = true := by
      cases hp : s.pc t with
      | sleep loop p exp =>
        rw [hp] at hpc
        cases hpc
        exact absurd hp (hquiet t loop exp)
      | _ => rfl
    have hst := ht.asleep (by rw [hq]; nofun) hsettled
    rw [hnext] at hwake
    cases hwake
    rw [if_pos hst]
    refine ⟨_, h.update (t := t) (h.rep.remove hq rfl rfl) rfl (fun u hut => ?_) ?_⟩
    · exact ⟨rfl, update_of_ne hut .., update_of_ne hut ..⟩
    show TaskOk (s.pc t) (Function.update s.status t .running t) (Function.update s.queue t none t)
    rw [Function.update_self, Function.update_self]
    refine .outside _ fun p => ⟨fun hp => ?_, fun hp => ?_⟩
    · rw [hp] at hpc
      cases hpc
    · rw [hp] at hpc
      cases hpc

omit [DecidableEq τ] in
theorem WaitSys.Inv.pending (h : s.Inv m) (sig : τ → BitVec 32) :
    WaitSys.Inv { s with sigPending := sig } m :=
  ⟨h.rep.congr rfl rfl, h.task, h.noPanic⟩

/-- What a run has to keep away from: a signal to a task that sleeps before it has left its queue,
and a wake-up of a queue on which a task has registered that has not yet changed its status. -/
def WaitSys.Quiet (s : WaitSys τ) : WaitAct τ → Prop
  | .signal t _ => s.status t = .intrSleeping → s.pc t = .awake
  | .wake q => ∀ t loop exp, s.pc t ≠ .sleep loop q exp
  | _ => True

theorem WaitSys.Inv.step {a : WaitAct τ} (h : s.Inv m) (hquiet : s.Quiet a)
    (hstep : s.step a = some s') : ∃ m', s'.Inv m' := by
  rw [WaitSys.step] at hstep
  split at hstep
  swap
  · cases hstep
  cases a with
  | call t f q =>
    obtain ⟨hidle, hstep⟩ := ite_none_right_eq_some.1 hstep
    obtain ⟨hpc, hst⟩ := hidle
    have hnone := (h.task t).queue_eq_none (by rw [hpc]; rfl)
    cases hstep
    refine ⟨m, h.goto ?_⟩
    rw [hnone]
    cases f with
    | reader loop => exact .outside _ fun p => ⟨nofun, nofun⟩
    | arpSearch => exact ⟨nofun, fun hne => absurd rfl hne, nofun, fun _ _ => hst⟩
  | go t data =>
    rw [WaitSys.effect, map_eq_some_iff] at hstep
    obtain ⟨r, hr, rfl⟩ := hstep
    exact h.advance hr
  | signal t signal =>
    rw [WaitSys.effect] at hstep
    cases hstep
    rw [sendSignal]
    split_ifs with hst
    · have hpc : s.pc t = .awake := hquiet hst
      have hnone := (h.task t).queue_eq_none (by rw [hpc]; rfl)
      refine ⟨m, h.update (t := t) (h.rep.congr rfl rfl) rfl (fun u hut => ?_) ?_⟩
      · exact ⟨rfl, update_of_ne hut .., rfl⟩
      show TaskOk (s.pc t) _ (s.queue t)
      rw [hpc, hnone]
      exact .outside _ fun p => ⟨nofun, nofun⟩
    · exact ⟨m, h.pending _⟩
  | wake q =>
    rw [WaitSys.effect, map_eq_some_iff] at hstep
    obtain ⟨r, hr, rfl⟩ := hstep
    exact h.wake hquiet hr
  | handle t =>
    obtain ⟨hpc, hstep⟩ := ite_none_right_eq_some.1 hstep
    have hnone := (h.task t).queue_eq_none (by rw [hpc]; rfl)
    cases hstep
    rw [signalTryHandle]
    split
    · refine ⟨m, h.move ?_⟩
      rw [hnone]
      exact .outside _ fun p => ⟨nofun, nofun⟩
    · exact ⟨m, h.pending _⟩

end Steps

/-! ## Runs -/

theorem WaitSys.init_inv (sigBlocked : τ → BitVec 32) :
    (WaitSys.init sigBlocked).Inv fun _ => [] where
  rep := init_rep sigBlocked
  task _ := .outside _ fun _ => ⟨nofun, nofun⟩
  noPanic := ⟨nofun, nofun, nofun⟩

/-- **None of the three panics** is reached in a quiet run. -/
theorem noPanic_of_quiet [DecidableEq τ] {sigBlocked : τ → BitVec 32} {as : List (WaitAct τ)}
    {s : WaitSys τ} (hrun : run WaitSys.step (WaitSys.init sigBlocked) as = some s)
    (hquiet : Along WaitSys.step WaitSys.Quiet (WaitSys.init sigBlocked) as) : s.NoPanic := by
  have hinv : ∃ m, s.Inv m := run_induction (I := fun s => ∃ m, s.Inv m)
    (fun s a s' ⟨m, h⟩ hq hstep => h.step hq hstep) ⟨_, WaitSys.init_inv sigBlocked⟩ hquiet hrun
  obtain ⟨m, h⟩ := hinv
  exact h.noPanic

/-- A task waits in `tty_read`, is woken, finds something to read and returns. -/
def quietWait : List (WaitAct Nat) :=
  [.call 0 (.reader .ttyRead) 0, .go 0 false, .go 0 false, .go 0 false, .wake 0, .go 0 false,
    .go 0 false, .go 0 false, .go 0 true, .go 0 true, .go 0 true]

theorem noPanic_of_quiet_wait : ∃ s, run WaitSys.step (WaitSys.init fun _ => 0) quietWait = some s ∧
    s.NoPanic := by
  have hsome : (run WaitSys.step (WaitSys.init fun _ => 0) quietWait).isSome = true := by
    decide +kernel
  obtain ⟨s, hrun⟩ := isSome_iff_exists.1 hsome
  refine ⟨s, hrun, noPanic_of_quiet hrun ?_⟩
  refine .cons rfl trivial
    (.cons rfl trivial (.cons rfl trivial (.cons rfl trivial (.cons rfl ?_ ?_))))
  · rintro (_ | t) loop exp
    · exact nofun
    · exact nofun
  · exact ⟨trivial, fun _ _ =>
      ⟨trivial, fun _ _ => ⟨trivial, fun _ _ => ⟨trivial, fun _ _ => ⟨trivial, fun _ _ =>
      ⟨trivial, fun _ _ => trivial⟩⟩⟩⟩⟩⟩

/-- A signal wakes a task that waits in `tty_read`, and the wake-up of the queue comes before the
task is back. -/
theorem wakeUp_panics : ∃ s, run WaitSys.step (WaitSys.init fun _ => 0)
    [.call 0 (.reader .ttyRead) 0, .go 0 false, .go 0 false, .go 0 false, .signal 0 2, .wake 0] =
    some s ∧
      ¬s.NoPanic := by
  obtain ⟨s, hs, hpanic⟩ : ∃ s : WaitSys Nat, run WaitSys.step (WaitSys.init fun _ => 0)
      [.call 0 (.reader .ttyRead) 0, .go 0 false, .go 0 false, .go 0 false, .signal 0 2, .wake 0] =
      some s ∧
        s.panicked = some .wqWake := by decide +kernel
  exact ⟨s, hs, fun h => h.1 hpanic⟩

end Monolith
