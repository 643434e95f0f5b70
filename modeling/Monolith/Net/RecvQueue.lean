import Monolith.Sched.WaitQueue

/-!
# `net/socket.c`: the receive queue of a socket

`socket_rx_packet` puts a datagram at the end of the queue and wakes every task that waits for one.
`socket_recvfrom` waits until there is one, or a signal, and takes the first.  Both change the queue
under `recv_lock`, and in between the lock is given up: a task that was woken can find the queue
empty again, because another one was faster.

* `RecvSys` is any number of tasks in the two functions, one access at a time, on top of the wait
  queues of `WaitSys`: there can be signals, tasks in other queues and wake-ups at any time.
* `received_in_order`: what was taken out is the beginning of what was queued, and the rest is in
  the queue.  What a task took is what its calls returned, one after the other, cut to their
  lengths; those that returned `-EINTR` took none.
-/

namespace Monolith

open Function Transition Option List

variable {τ : Type}

/-! ## The state -/

/-- `struct recv_queue_entry`, with the payload behind it. -/
structure RecvQueueEntry where
  payload : List (BitVec 8)
  source : List (BitVec 8)
  addrlen : Nat
  deriving DecidableEq, Repr

/-- What `socket_recvfrom` leaves its caller with. -/
inductive RecvResult where
  | eintr
  | data (bytes source : List (BitVec 8)) (addrlen : Nat)
  deriving DecidableEq, Repr

inductive RecvPc where
  | idle
  /-- `socket_recvfrom` with a buffer of `len` bytes, at `mutex_lock`. -/
  | lock (len : Nat)
  /-- At the first `list_empty`. -/
  | check (len : Nat)
  /-- In the loop, with the lock.  `WaitSys` says where. -/
  | loop (len : Nat)
  /-- At the `mutex_unlock` of the loop. -/
  | release (len : Nat)
  /-- At `sched_yield`. -/
  | yield (len : Nat)
  /-- At the `mutex_lock` of the loop. -/
  | relock (len : Nat)
  /-- Behind the loop, with `wret`. -/
  | leave (len : Nat) (eintr : Bool)
  /-- At `list_first_entry` and `list_del`. -/
  | dequeue (len : Nat)
  /-- At the last `mutex_unlock`, with what was taken. -/
  | unlock (got : Option (Nat × RecvQueueEntry))
  | copy (got : Option (Nat × RecvQueueEntry))
  /-- `socket_rx_packet`, at `mutex_lock`. -/
  | rxLock (entry : RecvQueueEntry)
  /-- At `list_add_tail`. -/
  | rxAdd (entry : RecvQueueEntry)
  /-- In `wait_queue_wake`. -/
  | rxWake
  /-- At `mutex_unlock`. -/
  | rxUnlock
  deriving DecidableEq, Repr

/-- A socket and its tasks. -/
structure RecvSys (τ : Type) where
  /-- The tasks that wait, also for other things. -/
  wait : WaitSys τ
  lock : Option τ
  recvQueue : List RecvQueueEntry
  pc : τ → RecvPc
  /-- Set if the head of the empty queue was taken for an entry. -/
  stray : Bool
  queued : List RecvQueueEntry
  /-- What was taken out, by whom and with which length. -/
  taken : List (τ × Nat × RecvQueueEntry)
  /-- What the calls of a task have returned. -/
  returned : τ → List RecvResult

/-- No task waits, and nothing was received. -/
def RecvSys.init (sigBlocked : τ → BitVec 32) : RecvSys τ where
  wait := .init sigBlocked
  lock := none
  recvQueue := []
  pc _ := .idle
  stray := false
  queued := []
  taken := []
  returned _ := []

def recvWaitqueue : Nat := 0

/-! ## The functions -/

/-- A datagram is copied as far as it fits into the buffer. -/
def recvResult : Option (Nat × RecvQueueEntry) → RecvResult
  | none => .eintr
  | some (len, entry) => .data (entry.payload.take len) entry.source entry.addrlen

inductive RecvAct (τ : Type) where
  | recvfrom (t : τ) (len : Nat)
  | rxPacket (t : τ) (entry : RecvQueueEntry)
  | go (t : τ)
  /-- Something else happens to the tasks that wait: signals, and what tasks do that are not in
  these functions. -/
  | other (act : WaitAct τ)

def WaitAct.task : WaitAct τ → Option τ
  | .call t _ _ | .go t _ | .handle t => some t
  | .signal _ _ | .wake _ => none

namespace RecvSys

variable [DecidableEq τ] (s : RecvSys τ)

def goto (t : τ) (pc : RecvPc) : RecvSys τ := { s with pc := update s.pc t pc }

/-- An act of the wait queues, and where the task is then. -/
def waits (act : WaitAct τ) (t : τ) (pc : WaitSys τ → RecvPc) : Option (RecvSys τ) :=
  (s.wait.step act).map fun w => { s with wait := w }.goto t (pc w)

def acquire (t : τ) (pc : RecvPc) : Option (RecvSys τ) :=
  if s.lock = none then some ({ s with lock := some t }.goto t pc) else none

def release (t : τ) (pc : RecvPc) : RecvSys τ := { s with lock := none }.goto t pc

def advance (t : τ) : RecvPc → Option (RecvSys τ)
  | .idle => none
  | .lock len => s.acquire t (.check len)
  | .check len =>
    if s.recvQueue = [] then s.waits (.call t (.reader .socketRecvfrom) recvWaitqueue) t fun _ =>
      .loop len
    else some (s.goto t (.dequeue len))
  -- data goes before signals
  | .loop len => s.waits (.go t (s.recvQueue ≠ [])) t fun w =>
      match w.pc t with
      | .unregister _ => .leave len (s.recvQueue = [])
      | .yield _ _ _ => .release len
      | _ => .loop len
  | .release len => some (s.release t (.yield len))
  | .yield len => s.waits (.go t false) t fun _ => .relock len
  | .relock len => s.acquire t (.loop len)
  | .leave len eintr => s.waits (.go t false) t fun w =>
      if w.pc t ≠ .idle then .leave len eintr else if eintr then .unlock none else .dequeue len
  | .dequeue len =>
    match s.recvQueue with
    | [] => some { s with stray := true }
    | entry :: rest =>
      some ({ s with recvQueue := rest, taken := s.taken ++ [(t, len, entry)] }.goto t
        (.unlock (some (len, entry))))
  | .unlock got => some (s.release t (.copy got))
  | .copy got =>
    some <| { s with
      returned := update s.returned t (s.returned t ++ [recvResult got]) }.goto t .idle
  | .rxLock entry => s.acquire t (.rxAdd entry)
  | .rxAdd entry =>
    some <| { s with
      recvQueue := s.recvQueue ++ [entry], queued := s.queued ++ [entry] }.goto t .rxWake
  | .rxWake =>
    match s.wait.step (.wake recvWaitqueue) with
    | some w => some ({ s with wait := w }.goto t .rxWake)
    | none => some (s.goto t .rxUnlock)
  | .rxUnlock => some (s.release t .idle)

/-- One step.  A panic stops everything. -/
def step : RecvAct τ → Option (RecvSys τ)
  | .recvfrom t len => if s.wait.panicked = none ∧
    s.pc t = .idle then some (s.goto t (.lock len)) else none
  | .rxPacket t entry =>
    if s.wait.panicked = none ∧ s.pc t = .idle then some (s.goto t (.rxLock entry)) else none
  | .go t => if s.wait.panicked = none then s.advance t (s.pc t) else none
  | .other act =>
    if ∀ t ∈ act.task, s.pc t = .idle then (s.wait.step act).map fun w =>
      { s with wait := w } else none

end RecvSys

/-! ## What every step keeps -/

namespace RecvPc

/-- The task has the lock. -/
def holds : RecvPc → Bool
  | .check _ | .loop _ | .release _ | .leave _ _ | .dequeue _ | .unlock _ | .rxAdd
    _ | .rxWake | .rxUnlock => true
  | _ => false

/-- The task will take a datagram without looking again. -/
def ready : RecvPc → Bool
  | .leave _ eintr => !eintr
  | .dequeue _ => true
  | _ => false

/-- What the task has taken and not returned yet. -/
def got : RecvPc → Option (Nat × RecvQueueEntry)
  | .unlock got | .copy got => got
  | _ => none

end RecvPc

namespace RecvSys

variable [DecidableEq τ]

/-- What a task has taken out, as it is to be returned. -/
def takenBy (s : RecvSys τ) (t : τ) : List RecvResult :=
  (s.taken.filter (·.1 = t)).map fun x => recvResult (some x.2)

/-- The tasks and the queue fit together. -/
structure Inv (s : RecvSys τ) : Prop where
  held : ∀ t, (s.pc t).holds = true → s.lock = some t
  ready : ∀ t, (s.pc t).ready = true → s.recvQueue ≠ []
  order : s.queued = s.taken.map (·.2.2) ++ s.recvQueue
  got : ∀ t, s.takenBy t =
    (s.returned t).filter (· ≠ .eintr) ++ ((s.pc t).got.map fun x => recvResult (some x)).toList
  stray : s.stray = false

theorem inv_init (sigBlocked : τ → BitVec 32) : (init sigBlocked).Inv := by
  constructor <;> simp [init, RecvPc.holds, RecvPc.ready, RecvPc.got, takenBy]

variable {s s' : RecvSys τ} {t : τ} {pc : RecvPc}

/-- A task goes on.  What the others are about to do does not change: they have not got the lock, or
it is not needed. -/
theorem Inv.move (h : s.Inv) (hpc : s'.pc = update s.pc t pc)
    (hmine : pc.holds = true → s'.lock = some t)
    (hothers : ∀ u, u ≠ t → s.lock = some u → s'.lock = some u)
    (hready : pc.ready = true → s'.recvQueue ≠ [])
    (hqueue : ∀ u, u ≠ t → (s.pc u).ready = true → s.recvQueue ≠ [] → s'.recvQueue ≠ [])
    (horder : s'.queued = s'.taken.map (·.2.2) ++ s'.recvQueue)
    (hgot : s'.takenBy t = (s'.returned t).filter (· ≠ .eintr) ++ (pc.got.map fun x =>
    recvResult (some x)).toList)
    (hgots : ∀ u, u ≠ t → s'.takenBy u = s.takenBy u ∧ s'.returned u = s.returned u)
    (hstray : s'.stray = s.stray) : s'.Inv := by
  refine ⟨fun u => ?_, fun u => ?_, horder, fun u => ?_, hstray.trans h.stray⟩ <;> rw [hpc] <;>
    by_cases hu : u = t
  · subst hu
    simpa using hmine
  · simpa [hu] using fun hh => hothers u hu (h.held u hh)
  · subst hu
    simpa using hready
  · simpa [hu] using fun hr => hqueue u hu hr (h.ready u hr)
  · subst hu
    simpa using hgot
  · rw [update_of_ne hu, (hgots u hu).1, (hgots u hu).2, h.got]

variable {p : RecvPc}

variable (h : s.Inv)

include h

section

variable (hp : s.pc t = p)

include hp

theorem Inv.quiet (w : WaitSys τ) {l : Option τ} (hmine : pc.holds = true → l = some t)
    (hothers : ∀ u, u ≠ t → s.lock = some u → l = some u)
    (hready : pc.ready = true → s.recvQueue ≠ []) (hgot : pc.got = p.got) :
    Inv { s with wait := w, lock := l, pc := update s.pc t pc } :=
  h.move rfl hmine hothers hready (fun _ _ _ hne => hne) h.order (hgot ▸ hp ▸ h.got t)
    (fun _ _ => ⟨rfl, rfl⟩) rfl

theorem Inv.waits {act : WaitAct τ} {f : WaitSys τ → RecvPc}
    (hst : s.waits act t f = some s') (hheld : ∀ w, (f w).holds = true → p.holds = true)
    (hready : ∀ w, (f w).ready = true → s.recvQueue ≠ []) (hgot : ∀ w, (f w).got = p.got) :
    s'.Inv := by
  obtain ⟨w, -, rfl⟩ := map_eq_some_iff.1 hst
  exact h.quiet hp w (fun hh => h.held t (hp ▸ hheld w hh)) (fun _ _ hu => hu) (hready w) (hgot w)

theorem Inv.acquire (hst : s.acquire t pc = some s') (hready : pc.ready = false)
    (hgot : pc.got = p.got) : s'.Inv := by
  obtain ⟨hfree, hst⟩ := ite_none_right_eq_some.1 hst
  obtain rfl := some.inj hst
  exact h.quiet hp s.wait (fun _ => rfl) (fun u _ hu => by simp [hfree] at hu)
    (by simp [hready]) hgot

theorem Inv.release (hst : some (s.release t pc) = some s') (hheld : p.holds = true)
    (hno : pc.holds = false) (hready : pc.ready = false) (hgot : pc.got = p.got) : s'.Inv := by
  obtain rfl := some.inj hst
  refine h.quiet hp s.wait (by simp [hno]) (fun u hne hu => ?_) (by simp [hready]) hgot
  rw [h.held t (hp ▸ hheld)] at hu
  exact absurd (some.inj hu).symm hne

end

/-- Only the task that has the lock can be about to take something. -/
theorem Inv.ready_self (hlock : s.lock = some t) {u : τ} (hu : (s.pc u).ready = true) : u = t := by
  have hholds : (s.pc u).holds = true := by
    revert hu
    cases s.pc u <;> simp [RecvPc.ready, RecvPc.holds]
  exact some.inj ((h.held u hholds).symm.trans hlock)

theorem Inv.dequeue {len : Nat} (hp : s.pc t = .dequeue len)
    (hst : s.advance t (.dequeue len) = some s') : s'.Inv := by
  have hlock := h.held t (by rw [hp]; rfl)
  have hgot := h.got t
  rw [hp] at hgot
  rw [RecvSys.advance] at hst
  split at hst
  · rename_i hq
    exact absurd hq (h.ready t (by rw [hp]; rfl))
  rename_i entry rest hq
  obtain rfl := some.inj hst
  refine h.move rfl (fun _ => hlock) (fun _ _ hu => hu) nofun
    (fun u hu hr _ => absurd (h.ready_self hlock hr) hu)
    ?_ ?_ (fun u hu => ⟨?_, rfl⟩) rfl
  · simp [goto, h.order, hq]
  · simpa [takenBy, goto, RecvPc.got] using hgot
  · simp [takenBy, goto, hu.symm]

theorem Inv.advance (hst : s.advance t (s.pc t) = some s') : s'.Inv := by
  cases hp : s.pc t with rw [hp] at hst
  | idle => cases hst
  | lock _ | relock _ | rxLock _ => exact h.acquire hp hst rfl rfl
  | check len =>
    rw [RecvSys.advance] at hst
    split_ifs at hst with hne
    · exact h.waits hp hst (fun _ _ => rfl) (fun _ => nofun) fun _ => rfl
    · obtain rfl := some.inj hst
      exact h.quiet hp s.wait (fun _ => h.held t (hp ▸ rfl)) (fun _ _ hu => hu) (fun _ => hne) rfl
  | loop len =>
    refine h.waits hp hst (fun w _ => rfl) (fun w hr => ?_) (fun w => ?_)
    · split at hr
      · simpa [RecvPc.ready] using hr
      · cases hr
      · cases hr
    · split <;> rfl
  | release _ | unlock _ | rxUnlock => exact h.release hp hst rfl rfl rfl rfl
  | yield len => exact h.waits hp hst (fun _ => nofun) (fun _ => nofun) fun _ => rfl
  | leave len eintr =>
    refine h.waits hp hst (fun w _ => rfl) (fun w hr => ?_) (fun w => ?_)
    · cases eintr with
      | false => exact h.ready t (hp ▸ rfl)
      | true => split at hr <;> cases hr
    · split
      · rfl
      · split <;> rfl
  | dequeue len => exact h.dequeue hp hst
  | copy got =>
    obtain rfl := some.inj hst
    refine h.move rfl nofun (fun _ _ hu => hu) nofun (fun _ _ _ hne => hne) h.order ?_
      (fun u hu => ⟨rfl, update_of_ne hu ..⟩) rfl
    have hgot := h.got t
    rw [hp] at hgot
    cases got <;> simpa [goto, takenBy, RecvPc.got, recvResult] using hgot
  | rxAdd entry =>
    obtain rfl := some.inj hst
    have hgot := h.got t
    rw [hp] at hgot
    exact h.move rfl (fun _ => h.held t (hp ▸ rfl)) (fun _ _ hu => hu) nofun
      (fun _ _ _ _ => by simp [goto])
      (by simp [goto, h.order]) hgot (fun _ _ => ⟨rfl, rfl⟩) rfl
  | rxWake =>
    rw [RecvSys.advance] at hst
    split at hst <;> obtain rfl := some.inj hst
    · rename_i w _
      exact h.quiet hp w (fun _ => h.held t (hp ▸ rfl)) (fun _ _ hu => hu) nofun rfl
    · exact h.quiet hp s.wait (fun _ => h.held t (hp ▸ rfl)) (fun _ _ hu => hu) nofun rfl

theorem Inv.step {a : RecvAct τ} (hst : s.step a = some s') : s'.Inv := by
  cases a with obtain ⟨hif, hst⟩ := ite_none_right_eq_some.1 hst
  | recvfrom t _ | rxPacket t _ =>
    obtain rfl := some.inj hst
    exact h.quiet hif.2 s.wait nofun (fun _ _ hu => hu) nofun rfl
  | go t => exact h.advance hst
  | other act =>
    obtain ⟨w, -, rfl⟩ := map_eq_some_iff.1 hst
    exact ⟨h.held, h.ready, h.order, h.got, h.stray⟩

end RecvSys

/-- **Datagrams are received in order.**  Those that were taken out are the first ones that were
queued, and the rest is in the queue, whose head is never taken for an entry.  What a task has taken
is what its calls have returned, but for those with `-EINTR`, and what it is about to return, each
cut to the length of its call. -/
theorem received_in_order [DecidableEq τ] {sigBlocked : τ → BitVec 32} {as : List (RecvAct τ)}
    {s : RecvSys τ} (hrun : run RecvSys.step (RecvSys.init sigBlocked) as = some s) :
    s.queued = s.taken.map (·.2.2) ++ s.recvQueue ∧ s.stray = false ∧
      ∀ t, (s.taken.filter (·.1 = t)).map (fun x => recvResult (some x.2)) =
        (s.returned t).filter (· ≠ .eintr) ++ ((s.pc t).got.map fun x =>
        recvResult (some x)).toList := by
  have h := run_invariant (I := RecvSys.Inv) (fun _ _ _ h hst => h.step hst)
    (RecvSys.inv_init sigBlocked) hrun
  exact ⟨h.order, h.stray, h.got⟩

/-- The task `false` waits for two bytes, and gets the first two of a datagram of three. -/
def waitForDatagram : List (RecvAct Bool) :=
  .recvfrom false 2 :: replicate 6 (.go false) ++ .rxPacket true ⟨[1, 2, 3], [7], 16⟩ ::
    replicate 5 (.go true) ++ replicate 10 (.go false)

theorem received_in_order_wait :
    ∃ s, run RecvSys.step (RecvSys.init fun _ : Bool => 0) waitForDatagram = some s ∧
    s.returned false = [.data [1, 2] [7] 16] ∧ s.recvQueue = [] ∧
    s.queued = s.taken.map (·.2.2) := by
  obtain ⟨s, hs, hret, hempty⟩ : ∃ s, run RecvSys.step (RecvSys.init fun _ : Bool =>
      0) waitForDatagram = some s ∧
      s.returned false = [.data [1, 2] [7] 16] ∧ s.recvQueue = [] := by decide +kernel
  have horder := (received_in_order hs).1
  rw [hempty, append_nil] at horder
  exact ⟨s, hs, hret, hempty, horder⟩

end Monolith
