import Monolith.Lib.Run
import Monolith.Sched.Task
import Monolith.Fs.Vfs
import Monolith.Mm.Vmm

/-!
# `sched/task_sleep.c`: the sleep queue of a CPU

A sleeping task is on the queue with a descriptor on its stack, and the descriptor has the time that
is left after the one before it: the time that is left to a task is a sum over the queue.
`sleep_queue_tick` takes the time of a tick from the front of the queue.

* `sysClockNanosleep` and `sleepQueueTick` are the two functions, on the links of the queue.
* The tick is right (`tick_spec`): it leaves a well-formed queue, and wakes no task early.
* The call is right on an empty queue only.  `list_add_tail` gets its arguments in the wrong order,
  and so links the rest of the queue into the new descriptor (`sleepQueue_loses_sleeper`).
* A signal wakes a sleeping task and leaves its descriptor in the queue (`descriptor_stays_linked`).
-/

namespace Monolith

open Function Intrusive Libk Transition List Option

variable {τ : Type}

/-! ## The state -/

/-- A node of the queue: `pcpu_data[cpu].queue`, or the `list_node` of a task's descriptor. -/
inductive SqNode (τ : Type) where
  | head
  | desc (t : τ)
  deriving DecidableEq

structure Timespec where
  tvSec : BitVec 64
  tvNsec : BitVec 64
  deriving DecidableEq, Repr

def Timespec.requested (tv : Timespec) : Int := tv.tvSec.toInt * 1000000000 + tv.tvNsec.toInt

def Timespec.timeNs (tv : Timespec) : BitVec 64 := tv.tvSec * 1000000000 + tv.tvNsec

/-- A wake-up by a tick: what the task had asked for, and the time since then. -/
structure Wake (τ : Type) where
  task : τ
  tv : Timespec
  slept : Nat

/-- One CPU's queue and the tasks that use it. -/
structure SleepSys (τ : Type) where
  links : Links (SqNode τ)
  /-- `delta`.  That of the head is the word in front of it, which is `cur->delta` behind a loop
  that has come to its end. -/
  delta : SqNode τ → BitVec 64
  status : τ → TaskStatus
  /-- The task is in `sys_clock_nanosleep`, at its `sched_yield`. -/
  inside : τ → Bool
  /-- History: what the last call of a task has asked for. -/
  tv : τ → Timespec
  /-- History: the time of all ticks since then. -/
  slept : τ → Nat
  /-- History: the wake-ups. -/
  wakes : List (Wake τ)

/-- After `sleep_queue_init`; the word in front of the queue can be anything. -/
def SleepSys.init (word : BitVec 64) : SleepSys τ where
  links := { prev := id, next := id }
  delta _ := word
  status _ := .running
  inside _ := false
  tv _ := ⟨0, 0⟩
  slept _ := 0
  wakes := []

variable [DecidableEq τ]

namespace SleepSys

variable (s : SleepSys τ)

def setDelta (x : SqNode τ) (d : BitVec 64) : SleepSys τ := { s with delta := update s.delta x d }

def setStatus (t : τ) (st : TaskStatus) : SleepSys τ := { s with status := update s.status t st }

end SleepSys

/-! ## The functions -/

/-- The loop of `sys_clock_nanosleep` for the descriptor of `t`, from `cur` on, if it ends after at
most `rounds` rounds. -/
def findPlace (t : τ) : Nat → SleepSys τ → SqNode τ → Option (SqNode τ × SleepSys τ)
  | _, s, .head => some (.head, s)
  | 0, _, .desc _ => none
  | rounds + 1, s, .desc u =>
    if s.delta (.desc t) < s.delta (.desc u) then some (.desc u, s)
    else findPlace t rounds (s.setDelta (.desc t) (s.delta (.desc t) - s.delta (.desc u)))
      (s.links.next (.desc u))

/-- The descriptor is linked in at `cur`. -/
def linkDesc (s : SleepSys τ) (t : τ) (cur : SqNode τ) : SleepSys τ :=
  if listEmpty s.links .head then { s with links := listAdd s.links .head (.desc t) }
  else
    let s := s.setDelta cur (s.delta cur - s.delta (.desc t))
    { s with links := listAddTail s.links (.desc t) cur }

/-- `sys_clock_nanosleep` up to its `sched_yield`, with the `timespec` that is at `ptr`. -/
def sysClockNanosleep (s : SleepSys τ) (t : τ) (clock : BitVec 32) (ptr : BitVec 64) (tv : Timespec)
    (rounds : Nat) : Except Fs.Errno (Option (SleepSys τ)) :=
  -- `CLOCK_REALTIME`
  if clock ≠ 0 then .error .einval
  else if Mm.vmValidatePtr ptr = false then .error .efault
  else
    let s := { s.setDelta (.desc t) tv.timeNs with links := listNodeInit s.links (.desc t) }
    .ok <| (findPlace t rounds s (s.links.next .head)).map fun (cur, s) =>
      let s := linkDesc s t cur
      let s := if s.status t = .running then s.setStatus t .intrSleeping else s
      { s with
        inside := update s.inside t true
        tv := update s.tv t tv
        slept := update s.slept t 0 }

/-- The task `t` is made ready, and its descriptor is taken off the queue. -/
def wakeSleeper (s : SleepSys τ) (t : τ) : SleepSys τ :=
  { s.setStatus t .running with
    links := listDel s.links (.desc t)
    wakes := ⟨t, s.tv t, s.slept t⟩ :: s.wakes }

/-- The loop of `sleep_queue_tick` from `cur` on, with `ns` left. -/
def tickLoop : Nat → SleepSys τ → BitVec 64 → SqNode τ → Option (SleepSys τ)
  | _, s, _, .head => some s
  | 0, _, _, .desc _ => none
  | rounds + 1, s, ns, .desc t =>
    if s.delta (.desc t) ≤ ns then
      let ns := ns - s.delta (.desc t)
      let s := s.setDelta (.desc t) 0
      if s.status t ≠ .intrSleeping then some s
      else if ns = 0 then some (wakeSleeper s t)
      else tickLoop rounds (wakeSleeper s t) ns (s.links.next (.desc t))
    else some (s.setDelta (.desc t) (s.delta (.desc t) - ns))

def sleepQueueTick (s : SleepSys τ) (ns : BitVec 64) (rounds : Nat) : Option (SleepSys τ) :=
  tickLoop rounds { s with slept := fun t => s.slept t + ns.toNat } ns (s.links.next .head)

/-! ## The system -/

inductive SleepAct (τ : Type) where
  /-- `sys_clock_nanosleep` is called. -/
  | nanosleep (t : τ) (clock : BitVec 32) (ptr : BitVec 64) (tv : Timespec) (rounds : Nat)
  /-- `sched_yield` comes back, and the call returns. -/
  | ret (t : τ)
  | tick (rounds : Nat)
  /-- `send_signal` -/
  | signal (t : τ)

/-- One step.  A task calls when it runs, and comes back from `sched_yield` when it has been made
ready. -/
def SleepSys.step (s : SleepSys τ) : SleepAct τ → Option (SleepSys τ)
  | .nanosleep t clock ptr tv rounds =>
    if s.inside t = false ∧ s.status t = .running then
      match sysClockNanosleep s t clock ptr tv rounds with
      | .error _ => some s
      | .ok s' => s'
    else none
  | .ret t =>
    if s.inside t = true ∧
      s.status t = .running then some { s with inside := update s.inside t false }
    else none
  | .tick rounds => sleepQueueTick s 1000000 rounds
  | .signal t => if s.status t = .intrSleeping then some (s.setStatus t .running) else some s

/-! ## The invariant -/

/-- The time that is left to each task of the queue is the sum of the deltas up to its own, but for
`ns` that are still to be taken from the front. -/
def SleepSys.Ahead (s : SleepSys τ) (ns : Nat) : Nat → List τ → Prop
  | _, [] => True
  | acc, t :: ts => acc + (s.delta (.desc t)).toNat + s.slept t = (s.tv t).timeNs.toNat + ns ∧
      s.Ahead ns (acc + (s.delta (.desc t)).toNat) ts

/-- Where a walk of the queue starts. -/
def firstDesc : List τ → SqNode τ
  | [] => .head
  | t :: _ => .desc t

/-- The queue has the tasks `ts`, which are the tasks that are asleep; what they have asked for is
in `P`. -/
structure SleepSys.Inv (P : Timespec → Prop) (s : SleepSys τ) (ns : Nat) (ts : List τ) : Prop where
  ring : IsRing s.links .head (ts.map SqNode.desc)
  mem : ∀ t, t ∈ ts ↔ s.status t = .intrSleeping
  inside : ∀ t ∈ ts, s.inside t = true
  asked : ∀ t ∈ ts, P (s.tv t)
  ahead : s.Ahead ns 0 ts
  /-- The descriptors of the other tasks are in no list. -/
  alone : ∀ t, t ∉ ts → IsRing s.links (.desc t) []
  wakes : ∀ w ∈ s.wakes, P w.tv ∧ w.tv.timeNs.toNat ≤ w.slept

variable {acc n rounds : Nat} {ts : List τ} {clock : BitVec 32} {ptr : BitVec 64}

section Ahead

variable {s s' : SleepSys τ} {ns : Nat} {ts : List τ}

omit [DecidableEq τ]

/-- The time that is left to each task of a queue: the sum of the deltas up to its own. -/
def times (delta : SqNode τ → BitVec 64) : Nat → List τ → List Nat
  | _, [] => []
  | acc, t :: ts => (acc + (delta (.desc t)).toNat) :: times delta
    (acc + (delta (.desc t)).toNat) ts

section Times

variable {delta delta' : SqNode τ → BitVec 64} {ts : List τ}

theorem length_times : (times delta acc ts).length = ts.length := by
  induction ts generalizing acc with
  | nil => rfl
  | cons t ts ih => exact congrArg _ ih

theorem times_add (k : Nat) : times delta (acc + k) ts = (times delta acc ts).map (· + k) := by
  induction ts generalizing acc with
  | nil => rfl
  | cons t ts ih => rw [times, times, map_cons, add_right_comm, ih]

theorem times_congr (h : ∀ t ∈ ts, delta' (.desc t) = delta (.desc t)) :
    times delta' acc ts = times delta acc ts := by
  induction ts generalizing acc with
  | nil => rfl
  | cons t ts ih => rw [times, times, h t mem_cons_self, ih fun u hu => h u (mem_cons_of_mem t hu)]

end Times

theorem SleepSys.ahead_iff : s.Ahead ns acc ts ↔
    ∀ p ∈ (times s.delta acc ts).zip ts, p.1 + s.slept p.2 = (s.tv p.2).timeNs.toNat + ns := by
  induction ts generalizing acc with
  | nil => exact iff_of_true trivial nofun
  | cons t ts ih => rw [Ahead, times, zip_cons_cons, forall_mem_cons, ih]

theorem SleepSys.Ahead.sum {as bs : List τ} {t : τ} (h : s.Ahead ns acc (as ++ t :: bs)) :
    acc + ((as ++ [t]).map fun u => (s.delta (.desc u)).toNat).sum + s.slept t =
    (s.tv t).timeNs.toNat + ns := by
  induction as generalizing acc with
  | nil => simpa using h.1
  | cons a as ih =>
    have hsum := ih h.2
    simp only [cons_append, map_cons, sum_cons] at hsum ⊢
    omega

theorem SleepSys.init_inv (P : Timespec → Prop) (word : BitVec 64) :
    (SleepSys.init word : SleepSys τ).Inv P 0 [] where
  ring := ⟨⟨rfl, rfl, trivial⟩, by simp⟩
  mem t := by simp [SleepSys.init]
  inside := by simp
  asked := by simp
  ahead := trivial
  alone t _ := ⟨⟨rfl, rfl, trivial⟩, by simp⟩
  wakes := by simp [SleepSys.init]

end Ahead

/-! ## The tick -/

section Tick

variable {P : Timespec → Prop} {s s' : SleepSys τ} {ns : BitVec 64} {t : τ} {ts woken left : List τ}

/-- A tick of `ns` that finds the tasks `ts` in the queue wakes `woken` and leaves `left`. -/
structure Ticked (s : SleepSys τ) (ns : Nat) (ts : List τ) (s' : SleepSys τ) (woken left : List τ) :
    Prop where
  /-- Those that are woken are the first. -/
  split : ts = woken ++ left
  ring : IsRing s'.links .head (left.map SqNode.desc)
  /-- None of them is woken early. -/
  early : ∀ x ∈ times s.delta 0 woken, x ≤ ns
  /-- The others have `ns` less to wait. -/
  late : times s.delta 0 ts = times s.delta 0 woken ++ (times s'.delta 0 left).map (· + ns)
  status : ∀ t, s'.status t = if t ∈ woken then .running else s.status t
  alone : ∀ t, t ∈ woken ∨ t ∉ ts ∧ IsRing s.links (.desc t) [] → IsRing s'.links (.desc t) []
  kept : s'.inside = s.inside ∧ s'.tv = s.tv ∧ s'.slept = s.slept
  wakes : ∀ w ∈ s'.wakes, w ∈ s.wakes ∨
    ∃ p ∈ (times s.delta 0 woken).zip woken, w = ⟨p.2, s.tv p.2, s.slept p.2⟩

theorem Ticked.stop {n : Nat} {delta : SqNode τ → BitVec 64}
    (hring : IsRing s.links .head (ts.map SqNode.desc))
    (hlate : times s.delta 0 ts = (times delta 0 ts).map (· + n)) :
    Ticked s n ts { s with delta } [] ts where
  split := rfl
  ring := hring
  early := nofun
  late := hlate
  status _ := rfl
  alone _ ht := (ht.resolve_left nofun).2
  kept := ⟨rfl, rfl, rfl⟩
  wakes _ hw := .inl hw

omit [DecidableEq τ] in
theorem next_head_queue (hring : IsRing s.links .head (ts.map SqNode.desc)) :
    s.links.next .head = firstDesc ts := by
  rw [hring.next_head]
  cases ts <;> rfl

section

variable (hring : IsRing s.links .head ((t :: ts).map SqNode.desc))

include hring

theorem times_update (d : BitVec 64) {us : List τ} (hus : ∀ u ∈ us, u ∈ ts) :
    times (update s.delta (.desc t) d) acc us = times s.delta acc us := by
  have ht : t ∉ ts := (nodup_cons.1 (Nodup.of_map _ hring.nodup_tail)).1
  refine times_congr fun u hu => update_of_ne (fun he => ht ?_) ..
  exact SqNode.desc.inj he ▸ hus u hu

/-- The first task is woken, and the rest of the tick is for those behind it. -/
theorem Ticked.cons (hd : s.delta (.desc t) ≤ ns)
    (h : Ticked (wakeSleeper (s.setDelta (.desc t) 0) t) (ns - s.delta (.desc t)).toNat ts s' woken
    left) : Ticked s ns.toNat (t :: ts) s' (t :: woken) left := by
  have hns : (ns - s.delta (.desc t)).toNat + (s.delta (.desc t)).toNat = ns.toNat := by
    rw [BitVec.toNat_sub_of_le hd, Nat.sub_add_cancel hd]
  have ht : t ∉ ts := (nodup_cons.1 (Nodup.of_map _ hring.nodup_tail)).1
  have htimes : ∀ us, (∀ u ∈ us, u ∈ ts) → times s.delta 0 (t :: us) = (s.delta (.desc t)).toNat ::
      (times (wakeSleeper (s.setDelta (.desc t) 0) t).delta 0 us).map
      (· + (s.delta (.desc t)).toNat) := fun us hus => by
    rw [times, ← times_add, zero_add]
    exact congrArg _ (times_update hring 0 hus).symm
  have hwoken := htimes woken fun u hu => h.split ▸ mem_append_left left hu
  refine ⟨congrArg _ h.split, h.ring, ?_, ?_, fun u => ?_, fun u hu => h.alone u ?_, h.kept,
    fun w hw => ?_⟩
  · rw [hwoken]
    refine forall_mem_cons.2 ⟨hd, forall_mem_map.2 fun x hx => ?_⟩
    have := h.early x hx
    omega
  · rw [htimes ts fun _ hu => hu, hwoken, h.late, map_append, List.map_map, ← hns]
    simp [comp_def, add_assoc]
  · rw [h.status u]
    by_cases hut : u = t
    · simp [hut, wakeSleeper, SleepSys.setStatus]
    · simp [hut, wakeSleeper, SleepSys.setStatus, SleepSys.setDelta]
  · rcases eq_or_ne u t with rfl | hut
    · exact .inr ⟨ht, ⟨update_self .., update_self .., trivial⟩, by simp⟩
    refine hu.imp (fun hu => (mem_cons.1 hu).resolve_left hut) fun ⟨hu, hr⟩ => ?_
    have hu' : u ∉ ts := fun hin => hu (mem_cons_of_mem t hin)
    exact ⟨hu', listDel_frame hr hring (by simp) (by simp [hut, hu'])⟩
  · rw [hwoken, zip_cons_cons, zip_map_left]
    rcases h.wakes w hw with hw | ⟨p, hp, rfl⟩
    · rcases mem_cons.1 hw with rfl | hw
      · exact .inr ⟨_, mem_cons_self, rfl⟩
      · exact .inl hw
    · exact .inr ⟨_, mem_cons_of_mem _ (mem_map_of_mem hp), rfl⟩

end

/-- **The loop of the tick** takes the time of the tick from the queue.  It ends if there is a round
for every task. -/
theorem tickLoop_spec (hring : IsRing s.links .head (ts.map SqNode.desc))
    (hst : ∀ t ∈ ts, s.status t = .intrSleeping) :
    (ts.length ≤ rounds → (tickLoop rounds s ns (firstDesc ts)).isSome) ∧
      ∀ s', tickLoop rounds s ns (firstDesc ts) = some s' →
      ∃ woken left, Ticked s ns.toNat ts s' woken left := by
  induction ts generalizing s ns rounds with
  | nil =>
    rw [firstDesc, tickLoop]
    exact ⟨fun _ => rfl, fun s' hs' => ⟨[], [], some.inj hs' ▸ .stop hring rfl⟩⟩
  | cons t ts ih =>
    rcases rounds with _ | rounds
    · exact ⟨fun hlen => absurd hlen (Nat.not_succ_le_zero _), fun s' hs' => nomatch hs'⟩
    rw [firstDesc, tickLoop]
    by_cases hd : s.delta (.desc t) ≤ ns
    · have hfirst : IsRing s.links .head ([] ++ SqNode.desc t :: ts.map SqNode.desc) := hring
      have hrest : IsRing (wakeSleeper (s.setDelta (.desc t) 0) t).links .head
          (ts.map SqNode.desc) :=
        listDel_isRing hfirst
      have hsleep : (s.setDelta (.desc t) 0).status t = .intrSleeping := hst t mem_cons_self
      rw [if_pos hd, if_neg (not_not.2 hsleep)]
      split_ifs with hns
      · refine ⟨fun _ => rfl, fun s' hs' => ⟨[t], ts, some.inj hs' ▸ .cons hring hd ?_⟩⟩
        rw [hns]
        exact .stop hrest (map_id _).symm
      have hnext : (s.setDelta (.desc t) 0).links.next (.desc t) = firstDesc ts := by
        refine hfirst.next_mem.trans ?_
        cases ts <;> rfl
      rw [hnext]
      have hrun : ∀ u ∈ ts, (wakeSleeper (s.setDelta (.desc t) 0) t).status u = .intrSleeping :=
        fun u hu => by
        refine (update_of_ne ?_ ..).trans (hst u (mem_cons_of_mem t hu))
        rintro rfl
        exact (nodup_cons.1 (Nodup.of_map _ hring.nodup_tail)).1 hu
      obtain ⟨hsome, hloop⟩ := @ih rounds _ (ns - s.delta (.desc t)) hrest hrun
      refine ⟨fun hlen => hsome (Nat.le_of_succ_le_succ hlen), fun s' hs' => ?_⟩
      obtain ⟨woken, left, h⟩ := hloop s' hs'
      exact ⟨t :: woken, left, .cons hring hd h⟩
    · rw [if_neg hd]
      refine ⟨fun _ => rfl, fun s' hs' => ⟨[], t :: ts, some.inj hs' ▸ .stop hring ?_⟩⟩
      have hle := BitVec.le_of_lt (BitVec.not_le.1 hd)
      rw [times, times, update_self, times_update hring _ fun _ hu => hu, map_cons, ← times_add,
        BitVec.toNat_sub_of_le hle, add_assoc, Nat.sub_add_cancel hle]

theorem tick_spec (hring : IsRing s.links .head (ts.map SqNode.desc))
    (hst : ∀ t ∈ ts, s.status t = .intrSleeping) :
    (ts.length ≤ rounds → (sleepQueueTick s ns rounds).isSome) ∧
    ∀ s', sleepQueueTick s ns rounds = some s' → ∃ woken left,
      Ticked { s with slept := fun t => s.slept t + ns.toNat } ns.toNat ts s' woken left := by
  rw [sleepQueueTick, next_head_queue hring]
  exact tickLoop_spec hring hst

theorem SleepSys.Inv.tick (h : s.Inv P 0 ts) (hs' : sleepQueueTick s ns rounds = some s') :
    ∃ ts', s'.Inv P 0 ts' := by
  obtain ⟨woken, left, T⟩ := (tick_spec h.ring fun t ht => (h.mem t).1 ht).2 s' hs'
  obtain ⟨hinside, htv, hslept⟩ := T.kept
  have hmem : ∀ t, t ∈ ts ↔ t ∈ woken ∨ t ∈ left := fun t => by rw [T.split, mem_append]
  have hnd := Nodup.of_map _ h.ring.nodup_tail
  rw [T.split, nodup_append'] at hnd
  have hahead := SleepSys.ahead_iff.1 h.ahead
  rw [show times s.delta 0 ts = _ from T.late, T.split, zip_append length_times, forall_mem_append,
    zip_map_left, List.forall_mem_map] at hahead
  refine ⟨left, T.ring, fun t => ?_, fun t ht => ?_, fun t ht => ?_,
    SleepSys.ahead_iff.2 fun p hp => ?_, fun t ht => ?_, fun w hw => ?_⟩
  · rw [T.status]
    split_ifs with hin
    · exact iff_of_false (hnd.2.2 hin) nofun
    · rw [← h.mem, hmem, or_iff_right hin]
  · rw [hinside]
    exact h.inside t ((hmem t).2 (.inr ht))
  · rw [htv]
    exact h.asked t ((hmem t).2 (.inr ht))
  · have := hahead.2 p hp
    rw [htv, hslept]
    simp only [Prod.map_fst, Prod.map_snd, id_eq] at this ⊢
    omega
  · refine T.alone t ?_
    by_cases hin : t ∈ woken
    · exact .inl hin
    · have hnot : t ∉ ts := fun h => ((hmem t).1 h).elim hin ht
      exact .inr ⟨hnot, h.alone t hnot⟩
  · rcases T.wakes w hw with hw | ⟨p, hp, rfl⟩
    · exact h.wakes w hw
    obtain ⟨hx, ht⟩ := of_mem_zip hp
    have hearly := T.early p.1 hx
    have hsum := hahead.1 p hp
    refine ⟨h.asked p.2 ((hmem p.2).2 (.inl ht)), ?_⟩
    dsimp only
    omega

end Tick

/-! ## The call -/

section Call

variable {P : Timespec → Prop} {s s' : SleepSys τ} {t : τ} {tv : Timespec}

/-- The descriptor of a task that is not asleep is in no list, also after `list_node_init`. -/
theorem SleepSys.Inv.listNodeInit (h : s.Inv P n ts) (ht : t ∉ ts) :
    listNodeInit s.links (.desc t) = s.links := by
  have hnext : s.links.next (.desc t) = .desc t := (h.alone t ht).next_head
  have hprev : s.links.prev (.desc t) = .desc t := (h.alone t ht).prev_head
  ext x
  · show update s.links.prev (.desc t) (.desc t) x = s.links.prev x
    rw [update_eq_self_iff.2 hprev.symm]
  · show update s.links.next (.desc t) (.desc t) x = s.links.next x
    rw [update_eq_self_iff.2 hnext.symm]

theorem nanosleep_inv (h : s.Inv P 0 []) (hrun : s.status t = .running)
    (htv : P tv) (hcall : sysClockNanosleep s t clock ptr tv rounds = .ok (some s')) :
    s'.Inv P 0 [t] := by
  have hhead : s.links.next .head = .head := next_head_queue h.ring
  have hempty : listEmpty s.links .head = true := by rw [listEmpty_eq h.ring]; rfl
  rw [sysClockNanosleep] at hcall
  split at hcall
  · cases hcall
  split at hcall
  · cases hcall
  simp only [h.listNodeInit (t := t) (not_mem_nil), SleepSys.setDelta, hhead, findPlace, map_some,
    SleepSys.setStatus, linkDesc, hempty, if_true, hrun, Except.ok.injEq, some_inj] at hcall
  subst hcall
  refine ⟨?_, fun u => ?_, fun u hu => ?_, fun u hu => ?_, ⟨?_, trivial⟩, fun u hu => ?_, h.wakes⟩
  · have hring : IsRing s.links .head ([] ++ ([] : List (SqNode τ))) := h.ring
    exact listAdd_isRing hring (by simp)
  · dsimp only
    rcases eq_or_ne u t with rfl | hut
    · simp
    · rw [update_of_ne hut, ← h.mem u]
      simp [hut]
  · simp [mem_singleton.1 hu]
  · show P (update s.tv t tv u)
    rwa [mem_singleton.1 hu, update_self]
  · simp
  · -- the links of other descriptors are not written
    have hut : u ≠ t := fun heq => hu (mem_singleton.2 heq)
    have hne : SqNode.desc u ≠ SqNode.desc t := fun heq => hut (SqNode.desc.inj heq)
    refine (h.alone u not_mem_nil).frame (fun x hx => ?_) fun x hx => ?_
    · rw [mem_singleton.1 hx]
      simp [listAdd, listAddBetween, hne]
    · rw [mem_singleton.1 hx]
      simp [listAdd, listAddBetween, hhead, hne]

/-- **A tick neither wakes early nor drifts.**  It wakes the first tasks of the queue, none of which
had more than `ns` to wait, and the others have `ns` less to wait than before. -/
theorem tick_in_time {ns : BitVec 64} {ts : List τ}
    (hring : IsRing s.links .head (ts.map SqNode.desc)) (hst : ∀ t ∈ ts, s.status t = .intrSleeping)
    (hlen : ts.length ≤ rounds) :
    ∃ s' woken left, sleepQueueTick s ns rounds = some s' ∧ ts = woken ++ left ∧
      IsRing s'.links .head (left.map SqNode.desc) ∧
      (∀ t, s'.status t = if t ∈ woken then .running else s.status t) ∧
      (∀ x ∈ times s.delta 0 woken, x ≤ ns.toNat) ∧
      times s.delta 0 ts = times s.delta 0 woken ++ (times s'.delta 0 left).map (· + ns.toNat) := by
  obtain ⟨hsome, hspec⟩ := @tick_spec _ _ rounds s ns ts hring hst
  obtain ⟨s', hs'⟩ := isSome_iff_exists.1 (hsome hlen)
  obtain ⟨woken, left, h⟩ := hspec s' hs'
  exact ⟨s', woken, left, hs', h.split, h.ring, h.status, h.early, h.late⟩

/-- The task 5 sleeps for 2, and the task 6 for 4 more. -/
def twoAsleep : SleepSys Nat :=
  { SleepSys.init 0 with
    links := listAddTail (listAdd ⟨id, id⟩ .head (.desc 5)) .head (.desc 6)
    delta := fun t => if t = .desc 5 then 2 else 4
    status := fun _ => .intrSleeping }

theorem tick_in_time_two : ∃ s' woken left, sleepQueueTick twoAsleep 3 2 = some s' ∧
    s'.status 5 = .running ∧ s'.status 6 = .intrSleeping ∧ [5, 6] = woken ++ left ∧
      [2, 6] = times twoAsleep.delta 0 woken ++ (times s'.delta 0 left).map (· + 3) := by
  have hempty : IsRing (⟨id, id⟩ : Links (SqNode Nat)) .head ([] ++ []) :=
    ⟨⟨rfl, rfl, trivial⟩, by simp⟩
  have hfive : IsRing (listAdd ⟨id, id⟩ .head (.desc 5)) SqNode.head ([.desc 5] ++ []) :=
    listAdd_isRing hempty (by simp)
  have hring : IsRing twoAsleep.links .head ([5, 6].map SqNode.desc) :=
    listAddTail_isRing hfive (by simp)
  obtain ⟨s', woken, left, htick, hsplit, _, _, _, hlate⟩ :=
    @tick_in_time _ _ 2 twoAsleep 3 [5, 6] hring (fun _ _ => rfl) (by decide)
  obtain ⟨hfirst, hsecond⟩ : s'.status 5 = .running ∧ s'.status 6 = .intrSleeping := by
    obtain rfl := some_inj.1 htick
    decide
  exact ⟨s', woken, left, htick, hfirst, hsecond, hsplit, hlate⟩

theorem clock_of_nanosleep {r : Option (SleepSys τ)}
    (hcall : sysClockNanosleep s t clock ptr tv rounds = .ok r) :
    clock = 0 ∧ Mm.vmValidatePtr ptr = true := by
  rw [sysClockNanosleep] at hcall
  split at hcall
  · cases hcall
  rename_i hclock
  split at hcall
  · cases hcall
  · rename_i hptr
    exact ⟨not_not.1 hclock, Bool.not_eq_false _ ▸ hptr⟩

end Call

/-! ## Runs -/

namespace SleepSys

/-- A call that goes to sleep finds the queue empty, and asks for a time in `P`. -/
def Lonely (P : Timespec → Prop) (s : SleepSys τ) : SleepAct τ → Prop
  | .nanosleep _ clock ptr tv _ => clock = 0 → Mm.vmValidatePtr ptr = true →
    listEmpty s.links .head = true ∧ P tv
  | _ => True

/-- A signal is sent to a task that is not asleep. -/
def Awake (s : SleepSys τ) : SleepAct τ → Prop
  | .signal t => s.status t ≠ .intrSleeping
  | _ => True

variable {P : Timespec → Prop} {s s' : SleepSys τ} {a : SleepAct τ}

omit [DecidableEq τ] in
theorem awake_of_ne_signal (h : ∀ t, a ≠ .signal t) : s.Awake a := by
  cases a with
  | signal t => exact absurd rfl (h t)
  | _ => trivial

theorem Inv.step (h : s.Inv P 0 ts) (hcall : s.Lonely P a) (hsignal : s.Awake a)
    (hstep : s.step a = some s') : ∃ ts', s'.Inv P 0 ts' := by
  cases a with
  | nanosleep t clock ptr tv rounds =>
    obtain ⟨hidle, hstep⟩ := ite_none_right_eq_some.1 hstep
    split at hstep
    · exact ⟨ts, some_inj.1 hstep ▸ h⟩
    rename_i r hr
    subst hstep
    obtain ⟨hclock, hptr⟩ := clock_of_nanosleep hr
    obtain ⟨hempty, htv⟩ := hcall hclock hptr
    rw [listEmpty_eq h.ring, decide_eq_true_iff, map_eq_nil_iff] at hempty
    subst hempty
    exact ⟨[t], nanosleep_inv h hidle.2 htv hr⟩
  | ret t =>
    obtain ⟨hidle, hstep⟩ := ite_none_right_eq_some.1 hstep
    cases hstep
    have hahead := SleepSys.ahead_iff.1 h.ahead
    refine ⟨ts, h.ring, h.mem, fun u hu => ?_, h.asked, SleepSys.ahead_iff.2 hahead, h.alone,
      h.wakes⟩
    have hut : u ≠ t := by
      rintro rfl
      rw [(h.mem u).1 hu] at hidle
      cases hidle.2
    exact (update_of_ne hut ..).trans (h.inside u hu)
  | tick rounds => exact h.tick hstep
  | signal t =>
    rw [SleepSys.step, if_neg hsignal, some_inj] at hstep
    exact ⟨ts, hstep ▸ h⟩

/-- **Every run** in which the calls find the queue empty and signals find their tasks awake. -/
theorem inv_of_run {word : BitVec 64} {as : List (SleepAct τ)}
    (hrun : run SleepSys.step (SleepSys.init word) as = some s)
    (hC : Along SleepSys.step (fun s a => s.Lonely P a ∧ s.Awake a) (SleepSys.init word) as) :
    ∃ ts, s.Inv P 0 ts := by
  refine run_induction (I := fun s => ∃ ts, s.Inv P 0 ts) (fun s a t ⟨ts, h⟩ hC hstep => ?_)
    ⟨[], init_inv P word⟩ hC hrun
  exact h.step hC.1 hC.2 hstep

/-! ## The order of the queue -/

/-- The queue is a well-formed list of the tasks that sleep, with the times that are left to them,
and no task has been woken before its time. -/
def Ordered (s : SleepSys τ) : Prop :=
  (∃ ts, IsRing s.links .head (ts.map SqNode.desc) ∧
    (∀ t, t ∈ ts ↔ s.inside t = true ∧ s.status t = .intrSleeping) ∧
    ∀ as t bs, ts = as ++ t :: bs →
      (((as ++ [t]).map fun u => (s.delta (.desc u)).toNat).sum : Int) =
        (s.tv t).requested - s.slept t) ∧
  ∀ w ∈ s.wakes, w.tv.requested ≤ w.slept

/-- A time that can be asked for: it is not negative, and its nanoseconds are an `int64_t`. -/
def Representable (tv : Timespec) : Prop := 0 ≤ tv.requested ∧ tv.requested < 2 ^ 63

omit [DecidableEq τ] in
theorem Representable.timeNs {tv : Timespec} (h : Representable tv) :
    (tv.timeNs.toNat : Int) = tv.requested := by
  have hof : tv.timeNs = BitVec.ofInt 64 tv.requested := by
    rw [Timespec.timeNs, Timespec.requested, BitVec.ofInt_add, BitVec.ofInt_mul, BitVec.ofInt_toInt,
      BitVec.ofInt_toInt]
    rfl
  obtain ⟨hpos, hlt⟩ := h
  rw [hof, BitVec.toNat_ofInt]
  omega

/-- **The order of the queue** in every run in which a task goes to sleep only while no other task
sleeps. -/
theorem ordered_of_lonely {word : BitVec 64} {as : List (SleepAct τ)}
    (hrun : run SleepSys.step (SleepSys.init word) as = some s)
    (hC : Along SleepSys.step (fun s a => s.Lonely Representable a ∧ ∀ t, a ≠ .signal t)
    (SleepSys.init word) as) : s.Ordered := by
  obtain ⟨ts, h⟩ := inv_of_run hrun (hC.mono fun s a ⟨hL, hno⟩ => ⟨hL, awake_of_ne_signal hno⟩)
  refine ⟨⟨ts, h.ring, fun t => ?_, fun as t bs hts => ?_⟩, fun w hw => ?_⟩
  · rw [h.mem t]
    exact ⟨fun hst => ⟨h.inside t ((h.mem t).2 hst), hst⟩, And.right⟩
  · have hmem : t ∈ ts := hts ▸ mem_append_right as mem_cons_self
    have hsum := Ahead.sum (hts ▸ h.ahead)
    have htime := (h.asked t hmem).timeNs
    omega
  · obtain ⟨hasked, hslept⟩ := h.wakes w hw
    have htime := hasked.timeNs
    omega

/-- One task sleeps for a millisecond. -/
theorem ordered_of_lonely_once : ∃ s : SleepSys Nat,
    run SleepSys.step (SleepSys.init 0) [.nanosleep 0 0 0x400000 ⟨0, 1000000⟩ 0, .tick 1, .ret 0] =
    some s ∧
      s.Ordered := by
  have hsome : (run SleepSys.step (SleepSys.init 0 : SleepSys Nat)
      [.nanosleep 0 0 0x400000 ⟨0, 1000000⟩ 0, .tick 1, .ret 0]).isSome = true := by decide +kernel
  obtain ⟨s, hrun⟩ := isSome_iff_exists.1 hsome
  refine ⟨s, hrun, ordered_of_lonely hrun ⟨⟨fun _ _ => ⟨rfl, by decide, by decide⟩, nofun⟩,
    fun _ _ => ?_⟩⟩
  exact ⟨⟨trivial, nofun⟩, fun _ _ => ⟨⟨trivial, nofun⟩, fun _ _ => trivial⟩⟩

/-- The second task to sleep takes the place of the first, which is no longer in the queue. -/
theorem sleepQueue_loses_sleeper : ∃ s : SleepSys Nat,
    run SleepSys.step (SleepSys.init 0)
      [.nanosleep 0 0 0x400000 ⟨1, 0⟩ 0, .nanosleep 1 0 0x400000 ⟨2, 0⟩ 1] = some s ∧
      ¬s.Ordered := by
  obtain ⟨s, hs, hinside, hstatus, hnext, hprev, hnext', hprev'⟩ : ∃ s : SleepSys Nat,
      run SleepSys.step (SleepSys.init 0)
        [.nanosleep 0 0 0x400000 ⟨1, 0⟩ 0, .nanosleep 1 0 0x400000 ⟨2, 0⟩ 1] = some s ∧
      s.inside 0 = true ∧ s.status 0 = .intrSleeping ∧ s.links.next .head = .desc 1 ∧
      s.links.prev (.desc 1) = .head ∧ s.links.next (.desc 1) = .head ∧
      s.links.prev .head = .desc 1 := by
    decide +kernel
  refine ⟨s, hs, fun hord => ?_⟩
  obtain ⟨⟨ts, hring, hmem, -⟩, -⟩ := hord
  have hone : IsRing s.links .head [SqNode.desc 1] :=
    ⟨⟨hnext, hprev, hnext', hprev', trivial⟩, by simp⟩
  have hzero : SqNode.desc 0 ∈ ts.map SqNode.desc := mem_map_of_mem ((hmem 0).2 ⟨hinside, hstatus⟩)
  rw [hring.unique hone] at hzero
  simp at hzero

/-! ## Descriptors that are left behind -/

/-- The descriptor of a task that is not in the call is in no queue, and no task sleeps for longer
than it has asked. -/
def Traceless (s : SleepSys τ) : Prop :=
  (∀ t, s.inside t = false → ∀ x, x ≠ .desc t → s.links.next x ≠ .desc t ∧
    s.links.prev x ≠ .desc t) ∧
  ∀ t, s.inside t = true → s.status t = .intrSleeping → s.slept t ≤ (s.tv t).timeNs.toNat

/-- **No descriptor is left behind** in any run in which a task goes to sleep only while no other
task sleeps, and signals are sent to tasks that are awake. -/
theorem traceless_of_awake {word : BitVec 64} {as : List (SleepAct τ)}
    (hrun : run SleepSys.step (SleepSys.init word) as = some s)
    (hC : Along SleepSys.step (fun s a => s.Lonely (fun _ => True) a ∧ s.Awake a)
    (SleepSys.init word) as) : s.Traceless := by
  obtain ⟨ts, h⟩ := inv_of_run hrun hC
  refine ⟨fun t hout x hx => ?_, fun t _ hst => ?_⟩
  · have ht : t ∉ ts := by
      intro hmem
      simp [h.inside t hmem] at hout
    have hnot : SqNode.desc t ∉ SqNode.head :: ts.map SqNode.desc := by simp [ht]
    by_cases hxr : x ∈ SqNode.head :: ts.map SqNode.desc
    · obtain ⟨hnext, hprev⟩ := h.ring.neighbours hxr
      exact ⟨fun heq => hnot (heq ▸ hnext), fun heq => hnot (heq ▸ hprev)⟩
    -- any other node is the descriptor of a task that is awake
    cases x with
    | head => exact absurd mem_cons_self hxr
    | desc u =>
      have hu : u ∉ ts := fun hmem => hxr (mem_cons_of_mem _ (mem_map_of_mem hmem))
      have hnext : s.links.next (.desc u) = .desc u := (h.alone u hu).next_head
      have hprev : s.links.prev (.desc u) = .desc u := (h.alone u hu).prev_head
      rw [hnext, hprev]
      exact ⟨hx, hx⟩
  · obtain ⟨as, bs, hts⟩ := append_of_mem ((h.mem t).2 hst)
    have hsum := Ahead.sum (hts ▸ h.ahead)
    omega

/-- A task is sent a signal while it is awake, and then sleeps for a millisecond. -/
theorem traceless_of_awake_once : ∃ s : SleepSys Nat,
    run SleepSys.step (SleepSys.init 0)
      [.signal 0, .nanosleep 0 0 0x400000 ⟨0, 1000000⟩ 0, .tick 1, .ret 0] = some s ∧
      s.Traceless := by
  have hsome : (run SleepSys.step (SleepSys.init 0 : SleepSys Nat)
      [.signal 0, .nanosleep 0 0 0x400000 ⟨0, 1000000⟩ 0, .tick 1, .ret 0]).isSome = true :=
      by decide +kernel
  obtain ⟨s, hrun⟩ := isSome_iff_exists.1 hsome
  refine ⟨s, hrun, traceless_of_awake hrun ⟨⟨trivial, nofun⟩, fun u hu => ?_⟩⟩
  obtain rfl : SleepSys.init 0 = u := some_inj.1 hu
  refine ⟨⟨fun _ _ => ⟨rfl, trivial⟩, trivial⟩, fun _ _ => ?_⟩
  exact ⟨⟨trivial, trivial⟩, fun _ _ => ⟨⟨trivial, trivial⟩, fun _ _ => trivial⟩⟩

/-- A signal ends the sleep of a task, which returns and leaves its descriptor in the queue. -/
theorem descriptor_stays_linked : ∃ s : SleepSys Nat,
    run SleepSys.step (SleepSys.init 0) [.nanosleep 0 0 0x400000 ⟨1, 0⟩ 0, .signal 0, .ret 0] =
    some s ∧
      ¬s.Traceless := by
  obtain ⟨s, hs, hinside, hnext⟩ : ∃ s : SleepSys Nat, run SleepSys.step (SleepSys.init 0)
        [.nanosleep 0 0 0x400000 ⟨1, 0⟩ 0, .signal 0, .ret 0] = some s ∧
      s.inside 0 = false ∧ s.links.next .head = .desc 0 := by
    decide +kernel
  exact ⟨s, hs, fun h => (h.1 0 hinside .head nofun).1 hnext⟩

end SleepSys

end Monolith
