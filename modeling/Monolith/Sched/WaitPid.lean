import Monolith.Lib.Run
import Monolith.Sched.Task

/-!
# `sys_waitpid` and the exits of the children

A parent in `sys_waitpid` looks at its children, then at its signals, then goes to sleep and yields.
A child that exits becomes a zombie, can be reaped from then on, and sends `SIGCHLD`: the signal is
noted first, and the parent is woken if it is found asleep.  Here the parent runs on one CPU and its
children on others, and every access to what they share is a step of its own.

* A child that is done before the parent looks is seen, and one that has noted its signal before the
  parent looks at its signals is noticed.  One that finds the parent asleep wakes it.
* `exit_slept_through` is what is left: a child that compares the parent's status after the parent
  has looked at its signals, but before it has changed the status.
* `no_exit_slept_through`: it is the only way.

A CPU takes the parent from a run queue only once it has been switched away from.
-/

namespace Monolith.WaitPid

open Function Transition Option BitVec List

variable {ι : Type} {pc : ExitPc}

/-! ## The state -/

inductive ParentPc where
  /-- Not in `sys_waitpid`. -/
  | user
  /-- At the loop over the children. -/
  | scan
  /-- At `signal_pending`. -/
  | check
  /-- At the compare-exchange to `TASK_INTR_SLEEPING`. -/
  | sleep
  /-- At `sched_yield`. -/
  | yield
  /-- Switched away from, in `sched_yield`. -/
  | away
  deriving DecidableEq, Repr

/-- Where a child is in `sys_exit`. -/
inductive ExitPc where
  | running
  /-- The status is `TASK_ZOMBIE`. -/
  | zombie
  /-- `TASK_CAN_REAP` is set. -/
  | canReap
  /-- `task_zombify` is over. -/
  | zombified
  /-- `send_signal` has noted the signal. -/
  | noted
  /-- `send_signal` has woken the parent, which is in no run queue yet. -/
  | woke
  /-- `send_signal` is over. -/
  | done
  deriving DecidableEq, Repr

/-- The test of `sys_waitpid`: the child is a zombie and `TASK_CAN_REAP` is set. -/
def ExitPc.reapable : ExitPc → Bool
  | .running | .zombie => false
  | .canReap | .zombified | .noted | .woke | .done => true

/-- The parent and its children. -/
structure System (ι : Type) where
  status : TaskStatus
  sigPending : BitVec 32
  sigBlocked : BitVec 32
  queued : Bool
  pc : ParentPc
  children : List ι
  exit : ι → ExitPc

/-- A parent without children, in user space. -/
def init : System ι where
  status := .running
  sigPending := 0
  sigBlocked := 0
  queued := false
  pc := .user
  children := []
  exit _ := .running

inductive Act (ι : Type) where
  | spawn (c : ι)
  /-- The parent handles its signals on its way to user space. -/
  | handle
  | call
  /-- The parent goes on.  `others` says whether other tasks wait for its CPU. -/
  | go (others : Bool)
  /-- A CPU takes the parent from a run queue. -/
  | resume
  /-- A child goes on with `sys_exit`. -/
  | exit (c : ι)

section Steps

variable [DecidableEq ι] (s : System ι)

def signalPending : Bool := s.sigPending &&& ~~~s.sigBlocked ≠ 0

/-- The loop over the children.  Where one is found, it is destroyed, and the status is
`TASK_RUNNING` at the end. -/
def scan : System ι :=
  if s.children = [] then { s with pc := .user }
  else
    match s.children.find? fun c => (s.exit c).reapable with
    | some c =>
      { s with
        children := s.children.erase c
        status := if s.status = .intrSleeping then .running else s.status
        pc := .user }
    | none => { s with pc := .check }

/-- `schedule`, by the parent. -/
def schedule (others : Bool) : System ι :=
  if s.status = .running then
    if others then { s with queued := true, pc := .away } else { s with pc := .scan }
  else { s with pc := .away }

/-- The next step of the parent; the panic is none. -/
def go (others : Bool) : ParentPc → Option (System ι)
  | .user | .away => none
  | .scan => some (scan s)
  | .check => some { s with pc := if signalPending s then .user else .sleep }
  | .sleep =>
    if s.status = .running then some { s with status := .intrSleeping, pc := .yield } else none
  | .yield => some (schedule s others)

def exitAt (c : ι) (pc : ExitPc) : System ι := { s with exit := Function.update s.exit c pc }

/-- The next step of a child in `sys_exit`. -/
def exitStep (c : ι) : ExitPc → Option (System ι)
  | .running => some (exitAt s c .zombie)
  | .zombie => some (exitAt s c .canReap)
  | .canReap => some (exitAt s c .zombified)
  | .zombified => some { exitAt s c .noted with sigPending := s.sigPending ||| 1#32 <<< 16 }
  | .noted =>
    some (if s.status = .intrSleeping then { exitAt s c .woke with status := .running }
      else exitAt s c .done)
  | .woke => some { exitAt s c .done with queued := true }
  | .done => none

def step : Act ι → Option (System ι)
  | .spawn c =>
    if s.pc = .user ∧ c ∉ s.children ∧ (s.exit c = .running ∨ s.exit c = .done) then
      some { exitAt s c .running with children := c :: s.children }
    else none
  | .handle =>
    if s.pc = .user then some { s with sigPending := s.sigPending &&& s.sigBlocked } else none
  | .call => if s.pc = .user then some { s with pc := .scan } else none
  | .go others => go s others s.pc
  | .resume =>
    if s.pc = .away ∧ s.queued = true then some { s with queued := false, pc := .scan } else none
  | .exit c => exitStep s c (s.exit c)

end Steps

/-! ## The invariant -/

def ExitPc.hasNoted : ExitPc → Bool
  | .noted | .woke | .done => true
  | _ => false

/-- The status of the parent has been looked at. -/
def ExitPc.hasLooked : ExitPc → Bool
  | .woke | .done => true
  | _ => false

/-- What the parent knows about its children. -/
structure Watched (s : System ι) : Prop where
  blocked : s.sigBlocked = 0
  /-- Since the parent has looked at its children, whoever is done has noted it. -/
  check : s.pc = .check → ∀ c ∈ s.children, (s.exit c).hasNoted = true →
    s.sigPending.getLsbD 16 = true
  /-- Nobody was done when the parent looked at its signals, and nobody has looked at its status
  since. -/
  sleep : s.pc = .sleep → ∀ c ∈ s.children, (s.exit c).hasLooked = false
  /-- Whoever looks at the status of a parent that is asleep wakes it. -/
  asleep : s.status = .intrSleeping → ∀ c ∈ s.children, (s.exit c).hasLooked = false

theorem ExitPc.hasNoted_of_hasLooked (h : pc.hasLooked = true) : pc.hasNoted = true := by
  cases pc <;> first | rfl | cases h

theorem ExitPc.reapable_of_hasNoted (h : pc.hasNoted = true) : pc.reapable = true := by
  cases pc <;> first | rfl | cases h

theorem watched_init : Watched (init : System ι) where
  blocked := rfl
  check := nofun
  sleep := nofun
  asleep := nofun

theorem signalPending_of_getLsbD {s : System ι} (hblocked : s.sigBlocked = 0)
    (h : s.sigPending.getLsbD 16 = true) : signalPending s = true := by
  refine decide_eq_true fun hzero => ?_
  have hbit := congrArg (getLsbD · 16) hzero
  simp only [hblocked, getLsbD_and, getLsbD_not, h] at hbit
  cases hbit

section Invariant

variable [DecidableEq ι] {s s' : System ι} {a : Act ι} {c : ι}

/-- The loop over the children leaves those alone that cannot be reaped. -/
theorem Watched.scan (h : Watched s) : Watched (scan s) := by
  rw [WaitPid.scan]
  split
  · exact ⟨h.blocked, nofun, nofun, h.asleep⟩
  split
  · refine ⟨h.blocked, nofun, nofun, fun hstatus c hc => ?_⟩
    split at hstatus
    · cases hstatus
    · exact h.asleep hstatus c (mem_of_mem_erase hc)
  · rename_i hfind
    refine ⟨h.blocked, fun _ c hc hnoted => ?_, nofun, h.asleep⟩
    have hnot := find?_eq_none.1 hfind c hc
    exact absurd (ExitPc.reapable_of_hasNoted hnoted) hnot

theorem Watched.go (h : Watched s) {others : Bool} (hgo : go s others s.pc = some s') :
    Watched s' := by
  cases hpc : s.pc with
  | user | away => rw [hpc] at hgo; cases hgo
  | scan =>
    rw [hpc] at hgo
    exact some_inj.1 hgo ▸ h.scan
  | check =>
    rw [hpc, WaitPid.go] at hgo
    cases hgo
    refine ⟨h.blocked, fun heq => ?_, fun heq c hc => ?_, h.asleep⟩
    · split at heq <;> cases heq
    split at heq
    · cases heq
    rename_i hpending
    -- a child that has looked at the status has noted its signal before
    by_contra hlooked
    have hnoted := ExitPc.hasNoted_of_hasLooked (Bool.not_eq_false _ ▸ hlooked)
    exact hpending (signalPending_of_getLsbD h.blocked (h.check hpc c hc hnoted))
  | sleep =>
    rw [hpc, WaitPid.go] at hgo
    split at hgo
    · cases hgo
      exact ⟨h.blocked, nofun, nofun, fun _ => h.sleep hpc⟩
    · cases hgo
  | yield =>
    rw [hpc, WaitPid.go] at hgo
    cases hgo
    rw [schedule]
    split
    · rename_i hrunning
      split <;> exact ⟨h.blocked, nofun, nofun, h.asleep⟩
    · exact ⟨h.blocked, nofun, nofun, h.asleep⟩

/-- A child goes on without looking at the status of the parent. -/
theorem Watched.exitAt (h : Watched s) (hnoted : pc.hasNoted = true → (s.exit c).hasNoted = true)
    (hlooked : pc.hasLooked = true → (s.exit c).hasLooked = true) : Watched (exitAt s c pc) := by
  have hnoted' d (hd : (update s.exit c pc d).hasNoted = true) : (s.exit d).hasNoted = true := by
    by_cases hdc : d = c
    · subst hdc
      rw [update_self] at hd
      exact hnoted hd
    · rwa [update_of_ne hdc] at hd
  have hlooked' d (hd : (s.exit d).hasLooked = false) : (update s.exit c pc d).hasLooked =
      false := by
    by_cases hdc : d = c
    · subst hdc
      rw [update_self]
      by_contra hne
      rw [hlooked (Bool.not_eq_false _ ▸ hne)] at hd
      cases hd
    · rwa [update_of_ne hdc]
  exact ⟨h.blocked, fun hpc d hd hn => h.check hpc d hd (hnoted' d hn), fun hpc d hd =>
    hlooked' d (h.sleep hpc d hd), fun hstatus d hd => hlooked' d (h.asleep hstatus d hd)⟩

/-- A child has looked at the status of a parent that is not about to sleep, and not asleep any
more. -/
theorem Watched.looked (h : Watched s) (hnoted : (s.exit c).hasNoted = true) (hpc : s.pc ≠ .sleep)
    (hstatus : s.status ≠ .intrSleeping) : Watched (WaitPid.exitAt s c pc) := by
  refine ⟨h.blocked, fun hcheck d hd hn => ?_, fun hsleep => absurd hsleep hpc, fun heq =>
    absurd heq hstatus⟩
  by_cases hdc : d = c
  · exact h.check hcheck d hd (hdc ▸ hnoted)
  change (update s.exit c pc d).hasNoted = true at hn
  rw [update_of_ne hdc] at hn
  exact h.check hcheck d hd hn

/-- No child looks at the status of the parent while the parent is between its two looks. -/
def Act.Timely (s : System ι) : Act ι → Prop
  | .exit c => s.exit c = .noted → s.pc ≠ .sleep
  | _ => True

theorem Watched.exitStep (h : Watched s) (hC : s.exit c = .noted → s.pc ≠ .sleep)
    (hstep : exitStep s c (s.exit c) = some s') : Watched s' := by
  cases hpc : s.exit c with
  | running | zombie | canReap =>
    rw [hpc] at hstep
    exact some_inj.1 hstep ▸ h.exitAt nofun nofun
  | zombified =>
    rw [hpc, WaitPid.exitStep] at hstep
    cases hstep
    have hbit : (s.sigPending ||| 1#32 <<< 16).getLsbD 16 = true := by simp
    have hlooked d (hd : (s.exit d).hasLooked = false) : (update s.exit c .noted d).hasLooked =
        false := by
      by_cases hdc : d = c
      · rw [hdc, update_self]
        rfl
      · rwa [update_of_ne hdc]
    exact ⟨h.blocked, fun _ _ _ _ => hbit, fun hp d hd => hlooked d (h.sleep hp d hd),
      fun hstatus d hd => hlooked d (h.asleep hstatus d hd)⟩
  | noted =>
    rw [hpc, WaitPid.exitStep] at hstep
    cases hstep
    have hnoted : (s.exit c).hasNoted = true := by rw [hpc]; rfl
    split_ifs with hstatus
    · have hwoken : Watched { s with status := .running } := ⟨h.blocked, h.check, h.sleep, nofun⟩
      exact hwoken.looked hnoted (hC hpc) nofun
    · exact h.looked hnoted (hC hpc) hstatus
  | woke =>
    rw [hpc, WaitPid.exitStep] at hstep
    cases hstep
    have hdone : Watched (WaitPid.exitAt s c .done) :=
      h.exitAt (fun _ => by rw [hpc]; rfl) (fun _ => by rw [hpc]; rfl)
    exact ⟨hdone.blocked, hdone.check, hdone.sleep, hdone.asleep⟩
  | done => rw [hpc] at hstep; cases hstep

theorem Watched.step (h : Watched s) (hC : a.Timely s) (hstep : step s a = some s') :
    Watched s' := by
  cases a with
  | spawn c =>
    obtain ⟨huser, hstep⟩ := ite_none_right_eq_some.1 hstep
    cases hstep
    have hnew : Watched (WaitPid.exitAt s c .running) := h.exitAt nofun nofun
    refine ⟨h.blocked, fun hp => ?_, fun hp => ?_, fun hstatus d hd => ?_⟩
    · exact absurd (huser.1.symm.trans hp) nofun
    · exact absurd (huser.1.symm.trans hp) nofun
    · rcases mem_cons.1 hd with rfl | hd
      · change (update s.exit d .running d).hasLooked = false
        rw [update_self]
        rfl
      · exact hnew.asleep hstatus d hd
  | handle =>
    obtain ⟨huser, hstep⟩ := ite_none_right_eq_some.1 hstep
    cases hstep
    refine ⟨h.blocked, fun hp => ?_, h.sleep, h.asleep⟩
    exact absurd (huser.symm.trans hp) nofun
  | call | resume =>
    rw [WaitPid.step] at hstep
    split at hstep
    · cases hstep
      exact ⟨h.blocked, nofun, nofun, h.asleep⟩
    · cases hstep
  | go others => exact h.go hstep
  | exit c => exact h.exitStep hC hstep

/-- **No exit is slept through**: in every state that a run reaches in which no child looks at the
parent's status between the parent's look at its signals and its change of the status, a parent that
is asleep and in no run queue has no child that can be reaped and is done. -/
theorem no_exit_slept_through {as : List (Act ι)} (hC : Along step (fun s a => a.Timely s) init as)
    (hrun : run step init as = some s) : ¬(s.status = .intrSleeping ∧ s.queued = false ∧
      ∃ c ∈ s.children, (s.exit c).reapable = true ∧ s.exit c = .done) := by
  have h : Watched s :=
    run_induction (fun s a s' hs hC hstep => hs.step hC hstep) watched_init hC hrun
  rintro ⟨hstatus, -, c, hc, -, hdone⟩
  have hlooked := h.asleep hstatus c hc
  rw [hdone] at hlooked
  cases hlooked

/-- A parent waits for a child, which exits. -/
def waited : List (Act Unit) :=
  [.spawn (), .call, .go false, .go false, .go false, .go false] ++ replicate 6
    (.exit ()) ++ [.resume]

theorem no_exit_slept_through_waited : ∃ s, run step init waited = some s ∧ s.exit () = .done ∧
    s.children = [()] ∧ ¬(s.status = .intrSleeping ∧ s.queued = false ∧
      ∃ c ∈ s.children, (s.exit c).reapable = true ∧ s.exit c = .done) := by
  have hC : Along step (fun s a => a.Timely s) (init : System Unit) waited := by
    refine .cons rfl trivial
      (.cons rfl trivial (.cons rfl trivial (.cons rfl trivial (.cons rfl trivial
      (.cons rfl trivial ?_)))))
    exact .cons rfl nofun
      (.cons rfl nofun (.cons rfl nofun (.cons rfl nofun (.cons rfl nofun (.cons rfl nofun
      (.cons rfl trivial trivial))))))
  exact ⟨_, rfl, rfl, rfl, no_exit_slept_through hC rfl⟩

/-- **An exit is slept through**: the child goes through `sys_exit` after the parent has found no
signal, and before it goes to sleep. -/
theorem exit_slept_through : (run step init
      ([.spawn (), .call, .go false, .go false] ++ replicate 5 (.exit ()) ++ [.go false,
      .go false])).any fun s =>
    s.status == .intrSleeping && !s.queued && s.pc == .away &&
      s.children.any fun c : Unit => (s.exit c).reapable && s.exit c == .done := by
  decide +kernel

end Invariant

end Monolith.WaitPid
