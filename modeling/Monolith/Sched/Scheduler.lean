import Monolith.Libk.List
import Monolith.Sched.Task

/-!
# `sched/scheduler.c`: the run queues

Every CPU has a run queue, an intrusive list through the `queue_node` of the tasks, and a counter
`queue_entry_count` beside it.  `RunQueues` is that memory, with the list heads and the tasks'
nodes as the nodes of one link memory, so that a task linked twice shows up as what it is: a broken
ring.

* `schedAddReady`, `schedFindMostLoadedQueue` and `pickNext` are the parts of the source that touch
  the queues; `schedule` reads and writes them in the steps `scheduleReturns`, `pickNext`, `readd`
  and the context switch.
* The search for the most loaded queue never gets past an empty one (`mostLoaded_missed`).
* `Placed` says where the tasks that can run are, whatever the places are that they wait in.
* `RunQueues.Rep q rq` says that the memory `q` represents the queues `rq`, one list of tasks for
  each CPU, with the right counters.  Adding a task that is in no queue and taking the first task
  out keep that (`schedAddReady_rep`, `takeFirst_rep`).
-/

namespace Monolith

open Function Intrusive Libk List

variable {τ : Type}

/-- A node of a run queue: the head in `sched_percpu_t`, or the `queue_node` of a task. -/
inductive RqNode (τ : Type) where
  /-- `sched_pcpu_data[cpu].runqueue` -/
  | head (cpu : Nat)
  /-- `task->queue_node` -/
  | task (t : τ)
  deriving DecidableEq

/-- What `sched_init` and `task_new` fix once and for all. -/
structure SchedConfig (τ : Type) where
  numCpus : Nat
  idle : Nat → τ
  /-- The saved stack pointer of a task, zero before `kernel_stack_init`. -/
  rsp0 : τ → Nat
  /-- `sched_init` makes a new thread for every CPU. -/
  idle_inj : ∀ c d, c < numCpus → d < numCpus → idle c = idle d → c = d

/-- Two CPUs; their idle tasks are the tasks 0 and 1. -/
def twoCpus : SchedConfig Nat where
  numCpus := 2
  idle := id
  rsp0 _ := 4096
  idle_inj _ _ _ _ h := h

/-- `sched_pcpu_data`: the run queues and their counters. -/
structure RunQueues (τ : Type) where
  /-- The link fields of the heads and of the tasks' `queue_node`s. -/
  links : Links (RqNode τ)
  /-- `queue_entry_count` -/
  count : Nat → Nat

/-- The run queues after `sched_init`: every node points at itself. -/
def RunQueues.init : RunQueues τ where
  links := { prev := id, next := id }
  count := fun _ => 0

/-! ## What the queues represent -/

/-- The memory represents the queues `rq`. -/
structure RunQueues.Rep (q : RunQueues τ) (rq : Nat → List τ) : Prop where
  /-- Every queue is a well-formed list. -/
  ring : ∀ cpu, IsRing q.links (.head cpu) ((rq cpu).map RqNode.task)
  /-- Every counter is the length of its queue. -/
  count : ∀ cpu, q.count cpu = (rq cpu).length

variable {q : RunQueues τ} {rq : Nat → List τ} {cpu : Nat} {t : τ} {d : Nat} {rest : List τ} {u : τ}

theorem RunQueues.init_rep : (RunQueues.init : RunQueues τ).Rep fun _ => [] where
  ring cpu := ⟨⟨rfl, rfl, trivial⟩, by simp⟩
  count _ := rfl

section

variable (h : q.Rep rq)

include h

namespace RunQueues.Rep

theorem nodup (cpu : Nat) : (rq cpu).Nodup := Nodup.of_map _ (h.ring cpu).nodup_tail

theorem rings : Rings q.links (fun _ => True) RqNode.head (map RqNode.task ∘ rq) where
  ring cpu _ := h.ring cpu
  inj _ _ := RqNode.head.inj
  apart := by simp

theorem disjoint {c d : Nat} (hc : t ∈ rq c) (hd : t ∈ rq d) : c = d := by
  by_contra hcd
  exact h.rings.disjoint trivial trivial hcd (mem_cons_of_mem _ (mem_map_of_mem hc))
    (mem_cons_of_mem _ (mem_map_of_mem hd))

/-- What is left when the first task of a queue has been taken out. -/
theorem mem_rest (hq : rq cpu = t :: rest) (hu : u ∈ update rq cpu rest d) : u ∈ rq d ∧ u ≠ t := by
  by_cases hd : d = cpu
  · rw [hd, update_self] at hu
    have hnd := h.nodup cpu
    rw [hq, nodup_cons] at hnd
    exact ⟨by simp [hd, hq, hu], fun he => hnd.1 (he ▸ hu)⟩
  · rw [update_of_ne hd] at hu
    exact ⟨hu, fun he => hd (h.disjoint (he ▸ hu) (hq ▸ mem_cons_self))⟩

end RunQueues.Rep

end

theorem mem_update_append (hu : u ∈ update rq cpu (rq cpu ++ [t]) d) : u ∈ rq d ∨ u = t := by
  by_cases hd : d = cpu
  · subst hd
    simpa using hu
  · rw [update_of_ne hd] at hu
    exact .inl hu

theorem RunQueues.Rep.mem_of_next (h : q.Rep rq) (hn : q.links.next (.head cpu) = .task t) :
    t ∈ rq cpu := by
  rw [(h.ring cpu).next_head] at hn
  rcases hq : rq cpu with _ | ⟨_, _⟩
  · simp [hq] at hn
  simp only [hq, map_cons, headD_cons, RqNode.task.injEq] at hn
  exact hn ▸ mem_cons_self

/-! ## Where the tasks are -/

/-- The tasks that are `ready` can run and are current nowhere, no task is current on two CPUs, and
an idle task is nowhere but on its own CPU. -/
structure Placed (cfg : SchedConfig τ) (status : τ → TaskStatus) (current : Nat → τ)
    (ready : τ → Prop) : Prop where
  running : ∀ t, ready t → status t = .running
  notCurrent : ∀ t, ready t → ∀ d < cfg.numCpus, current d ≠ t
  current_inj : ∀ c d, c < cfg.numCpus → d < cfg.numCpus → current c = current d → c = d
  idleCurrent : ∀ c d, c < cfg.numCpus → d < cfg.numCpus → current c = cfg.idle d → c = d
  idleRunning : ∀ c < cfg.numCpus, status (cfg.idle c) = .running
  idle : ∀ d < cfg.numCpus, ¬ready (cfg.idle d)

section Places

variable {cfg : SchedConfig τ} {status : τ → TaskStatus} {current : Nat → τ}
  {ready ready' : τ → Prop} {c : Nat}

section

variable (h : Placed cfg status current ready)

include h

theorem Placed.mono (hr : ∀ t, ready' t → ready t) :
    Placed cfg status current ready' where
  running t ht := h.running t (hr t ht)
  notCurrent t ht := h.notCurrent t (hr t ht)
  current_inj := h.current_inj
  idleCurrent := h.idleCurrent
  idleRunning := h.idleRunning
  idle d hd ht := h.idle d hd (hr _ ht)

/-- A current task that is not idle may change its own status: it is in no other place. -/
theorem Placed.setStatus [DecidableEq τ] (hc : c < cfg.numCpus)
    (hidle : current c ≠ cfg.idle c) (st : TaskStatus) :
    Placed cfg (update status (current c) st) current ready where
  running t ht := by
    rw [update_of_ne (h.notCurrent t ht c hc).symm]
    exact h.running t ht
  notCurrent := h.notCurrent
  current_inj := h.current_inj
  idleCurrent := h.idleCurrent
  idleRunning d hd := by
    have hne : cfg.idle d ≠ current c := by
      intro he
      obtain rfl := h.idleCurrent c d hc hd he.symm
      exact hidle he.symm
    rw [update_of_ne hne]
    exact h.idleRunning d hd
  idle := h.idle

/-- A sleeper that is current nowhere is not ready either, and becomes so. -/
theorem Placed.awake [DecidableEq τ] (hst : status t ≠ .running)
    (hcur : ∀ d < cfg.numCpus, current d ≠ t) :
    Placed cfg (update status t .running) current fun u => u = t ∨ ready u where
  running u hu := by
    by_cases hut : u = t
    · rw [hut, update_self]
    · rw [update_of_ne hut]
      exact h.running u (hu.resolve_left hut)
  notCurrent u hu := hu.elim (fun he => he ▸ hcur) (h.notCurrent u)
  current_inj := h.current_inj
  idleCurrent := h.idleCurrent
  idleRunning d hd := by
    have hne : cfg.idle d ≠ t := fun he => hst (he ▸ h.idleRunning d hd)
    rw [update_of_ne hne]
    exact h.idleRunning d hd
  idle d hd hu := hu.elim (fun he => hst (he ▸ h.idleRunning d hd)) (h.idle d hd)

/-- **The context switch**, to a task that is current nowhere else.  The last task may have become
ready. -/
theorem Placed.switch (hc : c < cfg.numCpus) {next : τ}
    (hcur : ∀ d < cfg.numCpus, current d = next → d = c)
    (hidle : ∀ d < cfg.numCpus, next = cfg.idle d → c = d)
    (hready : ∀ t, ready' t → t ≠ next ∧
    (ready t ∨ (t = current c ∧ status t = .running ∧ t ≠ cfg.idle c))) :
    Placed cfg status (update current c next) ready' := by
  refine ⟨fun t ht => ?_, fun t ht e he => ?_, fun d e hd he hde => ?_, fun d e hd he hde => ?_,
    h.idleRunning, fun e he ht => ?_⟩
  · exact (hready t ht).2.elim (h.running t) fun hand => hand.2.1
  · obtain ⟨hne, hin⟩ := hready t ht
    by_cases hec : e = c
    · rw [hec, update_self]
      exact hne.symm
    rw [update_of_ne hec]
    rcases hin with hin | ⟨rfl, -, -⟩
    · exact h.notCurrent t hin e he
    · exact fun heq => hec (h.current_inj e c he hc heq)
  · by_cases hdc : d = c <;> by_cases hec : e = c
    · rw [hdc, hec]
    · rw [hdc, update_self, update_of_ne hec] at hde
      exact absurd (hcur e he hde.symm) hec
    · rw [hec, update_self, update_of_ne hdc] at hde
      exact absurd (hcur d hd hde) hdc
    · rw [update_of_ne hdc, update_of_ne hec] at hde
      exact h.current_inj d e hd he hde
  · by_cases hdc : d = c
    · rw [hdc, update_self] at hde
      exact hdc.trans (hidle e he hde)
    · rw [update_of_ne hdc] at hde
      exact h.idleCurrent d e hd he hde
  · rcases (hready _ ht).2 with ht | ⟨heq, -, hne⟩
    · exact h.idle e he ht
    · exact hne (by rw [h.idleCurrent c e hc he heq.symm])

end

end Places

/-! ## The functions -/

/-- `sched_find_most_loaded_queue`, from the loop variables `start`, `maxc` and `maxq` on, with `n`
rounds left.  An empty queue leaves `start` where it is. -/
def findMostLoadedFrom (count : Nat → Nat) : Nat → Nat → Nat → Option Nat → Option Nat
  | 0, _, _, maxq => maxq
  | n + 1, start, maxc, maxq =>
    if count start = 0 then findMostLoadedFrom count n start maxc maxq
    else if maxc < count start then
      findMostLoadedFrom count n (start + 1) (count start) (some start)
    else findMostLoadedFrom count n (start + 1) maxc maxq

def schedFindMostLoadedQueue (numCpus : Nat) (count : Nat → Nat) : Option Nat :=
  findMostLoadedFrom count numCpus 0 0 none

section MostLoaded

variable {count : Nat → Nat} {n start maxc : Nat} {maxq : Option Nat}

/-- The loop finds the best of `maxq` and the queues from `start` on, up to the first empty one. -/
theorem findMostLoadedFrom_spec (hmax : maxq.elim 0 count = maxc) :
    let r := findMostLoadedFrom count n start maxc maxq
    maxc ≤ r.elim 0 count ∧ (∀ q, r = some q → maxq = some q ∨
        (start ≤ q ∧ q < start + n) ∧ ∀ e, start ≤ e → e ≤ q → count e ≠ 0) ∧
      ∀ d, start ≤ d → d < start + n → (∀ e ≤ d, count e ≠ 0) → count d ≤ r.elim 0 count := by
  induction n generalizing start maxc maxq with
  | zero => grind [findMostLoadedFrom]
  | succ n ih =>
    have hstay := @ih start maxc maxq hmax
    have hpass := @ih (start + 1) maxc maxq hmax
    have htake := @ih (start + 1) (count start) (some start) rfl
    clear ih
    rw [findMostLoadedFrom]
    grind

/-- **The most loaded queue** is found if and only if for every queue with tasks there is one at
least as long that has no empty queue before it. -/
theorem mostLoaded_found :
    ((∀ q, schedFindMostLoadedQueue n count = some q →
        q < n ∧ 0 < count q ∧ ∀ c < n, count c ≤ count q) ∧
      (schedFindMostLoadedQueue n count = none ↔ ∀ c < n, count c = 0)) ↔
    ∀ c < n, count c ≠ 0 → ∃ d < n, count c ≤ count d ∧ ∀ e < d, count e ≠ 0 := by
  obtain ⟨-, hmem, hall⟩ := @findMostLoadedFrom_spec count n 0 0 none rfl
  rw [Nat.zero_add, ← schedFindMostLoadedQueue] at hall hmem
  refine ⟨fun ⟨hsome, hnone⟩ c hc hne => ?_, fun h => ?_⟩
  · rcases hq : schedFindMostLoadedQueue n count with _ | q
    · exact absurd (hnone.1 hq c hc) hne
    · obtain ⟨hlt, -, hle⟩ := hsome q hq
      obtain ⟨-, hbusy⟩ := (hmem q hq).resolve_left nofun
      exact ⟨q, hlt, hle c hc, fun e he => hbusy e (Nat.zero_le e) (Nat.le_of_lt he)⟩
  have hbound : ∀ c < n, count c ≤ (schedFindMostLoadedQueue n count).elim 0 count := fun c hc => by
    by_cases hne : count c = 0
    · omega
    · obtain ⟨d, hd, hle, hbusy⟩ := h c hc hne
      exact Nat.le_trans hle (hall d (Nat.zero_le d) hd (by grind))
  rcases hq : schedFindMostLoadedQueue n count with _ | q
  · simpa [hq] using hbound
  obtain ⟨⟨-, hlt⟩, hbusy⟩ := (hmem q hq).resolve_left nofun
  have hne := hbusy q (Nat.zero_le q) (Nat.le_refl q)
  rw [hq] at hbound
  grind

/-- Three CPUs, and the second has two tasks waiting. -/
theorem mostLoaded_found_second : schedFindMostLoadedQueue 3 ([1, 2, 0].getD · 0) = some 1 ∧
    ∀ c < 3, [1, 2, 0].getD c 0 ≤ 2 :=
  have hfound : schedFindMostLoadedQueue 3 ([1, 2, 0].getD · 0) = some 1 := by decide
  ⟨hfound, ((mostLoaded_found.2 (by decide)).1 1 hfound).2.2⟩

/-- **A queue that is missed**: the first CPU has nothing to do, and the second has two tasks
waiting. -/
theorem mostLoaded_missed : schedFindMostLoadedQueue 2 ([0, 2].getD · 0) = none := by decide

end MostLoaded

variable [DecidableEq τ]

/-- `sched_add_ready`, on the CPU it runs on. -/
def schedAddReady (q : RunQueues τ) (cpu : Nat) (task : τ) : RunQueues τ where
  links := listAddTail q.links (.head cpu) (.task task)
  count := update q.count cpu (q.count cpu + 1)

/-- `list_first_entry` and `list_del` on a run queue, with its counter.  There is no task to take
if the first node is a list head, which the callers rule out by looking at the counter. -/
def takeFirst (q : RunQueues τ) (cpu : Nat) : Option (τ × RunQueues τ) :=
  match q.links.next (.head cpu) with
  | .task next => some (next,
      { links := listDel q.links (.task next)
        count := update q.count cpu (q.count cpu - 1) })
  | .head _ => none

/-- The choice of `next` in `schedule`: the CPU's own queue, else the most loaded one, else the idle
task. -/
def pickNext (cfg : SchedConfig τ) (q : RunQueues τ) (cpu : Nat) : Option (τ × RunQueues τ) :=
  if q.count cpu ≠ 0 then takeFirst q cpu
  else
    match schedFindMostLoadedQueue cfg.numCpus q.count with
    | none => some (cfg.idle cpu, q)
    | some victim => if q.count victim ≠ 0 then takeFirst q victim else some (cfg.idle cpu, q)

/-- `schedule` puts the current task back if it was running when `schedule` was entered. -/
def readd (cfg : SchedConfig τ) (q : RunQueues τ) (cpu : Nat) (curTask : τ) (curRunning : Bool) :
    RunQueues τ :=
  if curRunning = true ∧ curTask ≠ cfg.idle cpu then schedAddReady q cpu curTask else q

/-- The first test of `schedule`: nothing to do while the current task can go on and nobody else is
waiting for this CPU. -/
def scheduleReturns (cfg : SchedConfig τ) (q : RunQueues τ) (cpu : Nat) (curTask : τ)
    (curRunning : Bool) : Bool :=
  q.count cpu == 0 && curRunning && curTask != cfg.idle cpu

/-! ## What the functions do to them -/

/-- **`sched_add_ready` appends**, provided that the task is in no queue. -/
theorem schedAddReady_rep (h : q.Rep rq) (ht : ∀ d, t ∉ rq d) :
    (schedAddReady q cpu t).Rep (update rq cpu (rq cpu ++ [t])) := by
  have hr : Rings (schedAddReady q cpu t).links (fun _ => True) RqNode.head
      (map RqNode.task ∘ update rq cpu (rq cpu ++ [t])) := by
    rw [comp_update, map_append]
    exact (h.rings.add trivial (append_nil _).symm (fun d _ => by simp [ht d]) (by simp)).2
  refine ⟨fun d => hr.ring d trivial, fun d => ?_⟩
  by_cases hd : d = cpu
  · subst hd; simp [schedAddReady, h.count d]
  · simp [schedAddReady, hd, h.count d]

theorem takeFirst_rep (h : q.Rep rq) (hq : rq cpu = t :: rest) :
    ∃ q', takeFirst q cpu = some (t, q') ∧ q'.Rep (update rq cpu rest) := by
  have hr := h.ring cpu
  rw [hq] at hr
  have hnext : q.links.next (.head cpu) = .task t := by simpa using hr.next_head
  have hdel := h.rings.del (i := cpu) (n := .task t) trivial (by simp [hq])
  rw [comp_apply, hq, map_cons, erase_cons_head, ← comp_update] at hdel
  refine ⟨_, by rw [takeFirst, hnext], fun d => hdel.ring d trivial, fun d => ?_⟩
  by_cases hd : d = cpu
  · subst hd; simp [h.count d, hq]
  · simp [hd, h.count d]

/-- What `schedule` picks: the idle task, or the first task of some queue, which it takes out. -/
theorem pickNext_rep (cfg : SchedConfig τ) (h : q.Rep rq) (cpu : Nat) :
    pickNext cfg q cpu = some (cfg.idle cpu, q) ∨
      ∃ victim next rest q', rq victim = next :: rest ∧ pickNext cfg q cpu = some (next, q') ∧
        q'.Rep (update rq victim rest) := by
  have htake d (hd : q.count d ≠ 0) :
      ∃ next rest q', rq d = next :: rest ∧ takeFirst q d = some (next, q') ∧
      q'.Rep (update rq d rest) := by
    rcases hq : rq d with _ | ⟨next, rest⟩
    · simp [h.count d, hq] at hd
    obtain ⟨q', hq', hrep⟩ := takeFirst_rep h hq
    exact ⟨next, rest, q', rfl, hq', hrep⟩
  rw [pickNext]
  split_ifs with hc
  · obtain ⟨next, rest, q', hq, htk, hrep⟩ := htake cpu hc
    exact .inr ⟨cpu, next, rest, q', hq, htk, hrep⟩
  split
  · exact .inl rfl
  rename_i victim _
  split_ifs with hv
  · obtain ⟨next, rest, q', hq, htk, hrep⟩ := htake victim hv
    exact .inr ⟨victim, next, rest, q', hq, htk, hrep⟩
  · exact .inl rfl

end Monolith
