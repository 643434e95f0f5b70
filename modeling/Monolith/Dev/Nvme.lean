import Monolith.Lib.Run

/-!
# `nvme.c`: commands and their completions

A command is put into the next slot of a submission queue, and the slot for its completion is the
next one of the completion queue.  The driver rings the doorbell and waits until the phase tag in
that slot is 1.  The controller posts completions in the order of the commands, into consecutive
slots, and inverts the tag on every pass over the queue.

* `Nvme` is the admin queue and the I/O queue with any number of tasks in `nvme_submit_admin_await`
  and `nvme_read`, and the controller.  The commands of a queue are numbered, and the controller
  keeps a list of those it has completed.
* `wait_ends_early` is the 65th command: the driver expects a 1 on every pass, and finds the one of
  the first pass.
* `completions_match`: as long as no queue has had more than 64 commands, calls for a queue do not
  overlap and the tags are 0 at first, the tag in the slot of a command is 1 exactly if the command
  has been completed.
-/

namespace Monolith

open Function Transition Option List

variable {τ : Type}

/-! ## The queues -/

/-- `nvme_cmd`, as far as it is filled in. -/
structure NvmeCmd where
  opcode : BitVec 8
  nsid : BitVec 32
  prp1 : BitVec 64
  cmdDword10 : BitVec 32
  cmdDword11 : BitVec 32
  cmdDword12 : BitVec 32
  deriving DecidableEq, Repr

/-- `nvme_completion`, as far as it is looked at. -/
structure NvmeCompletion where
  phaseTag : Bool
  status : BitVec 15
  deriving DecidableEq, Repr

inductive NvmeQueueId where
  | admin
  | io
  deriving DecidableEq, Repr

/-- A submission queue and its completion queue, with the driver's and the controller's view of
them. -/
structure NvmeQueue where
  /-- `submission_queue.tail` -/
  sqTail : Nat
  /-- `completion_queue.tail` -/
  cqTail : Nat
  /-- The slots for commands, with the numbers of the commands. -/
  sq : Nat → NvmeCmd × Nat
  cq : Nat → NvmeCompletion
  /-- What was last written to the doorbells. -/
  sqDoorbell : Nat
  cqDoorbell : Nat
  /-- Where the controller fetches its next command. -/
  sqHead : Nat
  /-- Where the controller posts its next completion, and the tag for it. -/
  cqNext : Nat
  phase : Bool
  /-- How many commands there have been. -/
  issued : Nat
  /-- The numbers of the commands that have been completed. -/
  posted : List Nat

/-- The queues after they are set up.  Their memory is not cleared. -/
def NvmeQueue.init (sq : Nat → NvmeCmd × Nat) (cq : Nat → NvmeCompletion) : NvmeQueue where
  sqTail := 0
  cqTail := 0
  sq := sq
  cq := cq
  sqDoorbell := 0
  cqDoorbell := 0
  sqHead := 0
  cqNext := 0
  phase := true
  issued := 0
  posted := []

/-! ## The driver -/

/-- `struct nvme_namespace`, as far as it is used. -/
structure NvmeNamespace where
  nsid : BitVec 32
  dmaPagePhys : BitVec 64
  blockSize : Nat
  deriving DecidableEq, Repr

/-- A call: `nvme_submit_admin_await(device, cmd)`, or a round of `nvme_read(ns, lba, blocks,
buffer)`. -/
inductive NvmeJob where
  | admin (cmd : NvmeCmd)
  | read (ns : NvmeNamespace) (lba blocks offset : Nat)
  deriving DecidableEq, Repr

/-- The `count` of a round, which has 16 bits. -/
def readCount (ns : NvmeNamespace) (blocks offset : Nat) : Nat :=
  let count := (blocks - offset) % 2 ^ 16
  if count > 0x1000 / ns.blockSize then 0x1000 / ns.blockSize else count

namespace NvmeJob

def queue : NvmeJob → NvmeQueueId
  | .admin _ => .admin
  | .read _ _ _ _ => .io

def cmd : NvmeJob → NvmeCmd
  | .admin cmd => cmd
  | .read ns lba blocks offset =>
    { opcode := 0x02
      nsid := ns.nsid
      prp1 := ns.dmaPagePhys
      cmdDword10 := BitVec.ofNat 32 (lba + offset)
      cmdDword11 := BitVec.ofNat 32 ((lba + offset) / 2 ^ 32)
      cmdDword12 := (BitVec.ofNat 16 (readCount ns blocks offset + 2 ^ 16 - 1)).setWidth 32 }

/-- What is left to do after a round. -/
def next : NvmeJob → Option NvmeJob
  | .admin _ => none
  | .read ns lba blocks offset =>
    let offset := offset + readCount ns blocks offset
    if offset < blocks then some (.read ns lba blocks offset) else none

end NvmeJob

/-- Where a task is with its job. -/
inductive NvmePc where
  | idle
  /-- At `nvme_queue_allocate` for the submission queue. -/
  | takeSq (job : NvmeJob)
  /-- At `nvme_queue_allocate` for the completion queue, with command `n` in `slot`. -/
  | takeCq (job : NvmeJob) (n slot : Nat)
  /-- At the assignments to the command in `slot`; `nvme_read` has no slot for the completion
  yet. -/
  | write (job : NvmeJob) (n slot : Nat) (completion : Option Nat)
  /-- At the submission doorbell. -/
  | ring (job : NvmeJob) (n completion : Nat)
  /-- In the loop that waits for the phase tag. -/
  | wait (job : NvmeJob) (n completion : Nat)
  /-- Behind the loop. -/
  | finish (job : NvmeJob) (n completion : Nat)
  deriving DecidableEq

namespace NvmeJob

/-- `nvme_read` fills in its command before it takes a slot for the completion. -/
def afterSq (job : NvmeJob) (n slot : Nat) : NvmePc :=
  match job with
  | .admin _ => .takeCq job n slot
  | .read _ _ _ _ => .write job n slot none

/-- `nvme_submit_admin_await` copies its command after it has taken both slots. -/
def afterCq (job : NvmeJob) (n slot completion : Nat) : NvmePc :=
  match job with
  | .admin _ => .write job n slot (some completion)
  | .read _ _ _ _ => .ring job n completion

def afterWrite (job : NvmeJob) (n slot : Nat) : Option Nat → NvmePc
  | some completion => .ring job n completion
  | none => .takeCq job n slot

/-- `nvme_read` goes on with the next round. -/
def afterFinish (job : NvmeJob) : NvmePc :=
  match job.next with
  | some job => .takeSq job
  | none => .idle

end NvmeJob

def NvmePc.queue : NvmePc → Option NvmeQueueId
  | .idle => none
  | .takeSq job | .takeCq job _ _ | .write job _ _ _ | .ring job _ _ | .wait job _ _ | .finish job
    _ _ => some job.queue

/-- The device and the tasks. -/
structure Nvme (τ : Type) where
  queue : NvmeQueueId → NvmeQueue
  pc : τ → NvmePc

/-- Both queues are set up, and no task is in a call. -/
def Nvme.init (queue : NvmeQueueId → NvmeQueue) : Nvme τ := ⟨queue, fun _ => .idle⟩

inductive NvmeAct (τ : Type) where
  | call (t : τ) (job : NvmeJob)
  | go (t : τ)
  /-- The controller completes a command. -/
  | post (q : NvmeQueueId) (status : BitVec 15)
  deriving DecidableEq

/-- The controller: it has a command and room for the completion. -/
def NvmeQueue.post (k : NvmeQueue) (status : BitVec 15) : Option NvmeQueue :=
  if k.sqHead = k.sqDoorbell ∨ (k.cqNext + 1) % 64 = k.cqDoorbell then none
  else some { k with
    cq := update k.cq k.cqNext ⟨k.phase, status⟩
    sqHead := (k.sqHead + 1) % 64
    cqNext := (k.cqNext + 1) % 64
    phase := if k.cqNext + 1 = 64 then !k.phase else k.phase
    posted := k.posted ++ [(k.sq k.sqHead).2] }

/-- What a task does next: the queue afterwards, and where the task is. -/
def NvmeQueue.advance (k : NvmeQueue) : NvmePc → Option (NvmeQueue × NvmePc)
  | .idle => none
  | .takeSq job =>
    some ({ k with sqTail := (k.sqTail + 1) % 64, issued := k.issued + 1 },
    job.afterSq k.issued k.sqTail)
  | .takeCq job n slot =>
    some ({ k with cqTail := (k.cqTail + 1) % 64 }, job.afterCq n slot k.cqTail)
  | .write job n slot completion =>
    some ({ k with sq := update k.sq slot (job.cmd, n) }, job.afterWrite n slot completion)
  | .ring job n c => some ({ k with sqDoorbell := k.sqTail }, .wait job n c)
  | .wait job n c => some (k, if (k.cq c).phaseTag then .finish job n c else .wait job n c)
  | .finish job _ _ => some ({ k with cqDoorbell := k.cqTail }, job.afterFinish)

namespace Nvme

variable [DecidableEq τ] (s : Nvme τ)

def step : NvmeAct τ → Option (Nvme τ)
  | .call t job =>
    if s.pc t = .idle then some { s with pc := update s.pc t (.takeSq job) } else none
  | .go t =>
    match (s.pc t).queue with
    | none => none
    | some q => ((s.queue q).advance (s.pc t)).map fun r =>
      { queue := update s.queue q r.1, pc := update s.pc t r.2 }
  | .post q status => ((s.queue q).post status).map fun k => { s with queue := update s.queue q k }

end Nvme

/-! ## When it goes well -/

/-- A call starts when no other is under way for its queue, and a queue takes no more than 64
commands. -/
def NvmeAct.Fits (s : Nvme τ) : NvmeAct τ → Prop
  | .call _ job => ∀ u, (s.pc u).queue ≠ some job.queue
  | .go t => ∀ job, s.pc t = .takeSq job → (s.queue job.queue).issued < 64
  | .post _ _ => True

variable {pc : NvmePc} {q : NvmeQueueId} {p d : Nat} {t : τ} {status : BitVec 15} {pc' : NvmePc}

namespace NvmeQueue

/-- `p` commands have been completed, and the controller has been told of `d`. -/
structure Inv (k : NvmeQueue) (p d : Nat) : Prop where
  few : k.issued ≤ 64
  le : p ≤ d
  known : d ≤ k.issued
  posted : k.posted = range p
  doorbell : k.sqDoorbell = d % 64
  sqHead : k.sqHead = p % 64
  cqNext : k.cqNext = p % 64
  phase : k.phase = decide (p < 64)
  tags : ∀ n < 64, (k.cq n).phaseTag = decide (n < p)
  sq : ∀ n < d, (k.sq n).2 = n

/-- Both tails are behind the last command. -/
def Tails (k : NvmeQueue) : Prop := k.sqTail = k.issued % 64 ∧ k.cqTail = k.issued % 64

/-- The slot for the completion of command `n` is taken, or is the next one. -/
def Taken (k : NvmeQueue) (n : Nat) : Option Nat → Prop
  | some c => c = n ∧ k.cqTail = k.issued % 64
  | none => k.cqTail = n

/-- What holds while a task is busy with the queue. -/
def Stage (k : NvmeQueue) (p d : Nat) : NvmePc → Prop
  | .idle => False
  | .takeSq _ => d = k.issued ∧ k.Tails
  | .takeCq job n slot => n + 1 = k.issued ∧ d = n ∧ slot = n ∧ k.sqTail = k.issued % 64 ∧
    k.cqTail = n ∧
      (job.queue = .io → (k.sq n).2 = n)
  | .write _ n slot completion => n + 1 = k.issued ∧ d = n ∧ slot = n ∧ k.sqTail = k.issued % 64 ∧
      k.Taken n completion
  | .ring _ n c => n + 1 = k.issued ∧ d = n ∧ c = n ∧ k.Tails ∧ (k.sq n).2 = n
  | .wait _ n c => n + 1 = k.issued ∧ d = k.issued ∧ c = n ∧ k.Tails
  | .finish _ n c => n + 1 = k.issued ∧ d = k.issued ∧ c = n ∧ k.Tails ∧ n < p

variable {k k' : NvmeQueue} {p d : Nat}

theorem Inv.init {sq : Nat → NvmeCmd × Nat} {cq : Nat → NvmeCompletion}
    (hcq : ∀ n, (cq n).phaseTag = false) : (NvmeQueue.init sq cq).Inv 0 0 where
  few := Nat.zero_le _
  le := Nat.le_refl 0
  known := Nat.le_refl 0
  posted := rfl
  doorbell := rfl
  sqHead := rfl
  cqNext := rfl
  phase := rfl
  tags n _ := hcq n
  sq _ hn := by omega

/-- The tag in the slot of a command says whether it has been completed. -/
theorem Inv.tag_iff (h : k.Inv p d) {n : Nat} (hn : n < k.issued) :
    (k.cq (n % 64)).phaseTag = true ↔ n ∈ k.posted := by
  have hfew := h.few
  rw [Nat.mod_eq_of_lt (by omega), h.tags n (by omega), h.posted, mem_range, decide_eq_true_iff]

theorem Inv.post (h : k.Inv p d) (hst : k.post status = some k') :
    k'.Inv (p + 1) d ∧ k'.issued = k.issued ∧ k'.sqTail = k.sqTail ∧ k'.cqTail = k.cqTail ∧
    k'.sq = k.sq := by
  obtain ⟨hfew, hle, hknown, hposted, hdoorbell, hsqHead, hcqNext, hphase, htags, hsq⟩ := h
  rw [NvmeQueue.post] at hst
  split at hst
  · cases hst
  rename_i hcond
  have hpd : p < d := by
    refine Nat.lt_of_le_of_ne hle fun heq => hcond (.inl ?_)
    rw [hsqHead, hdoorbell, heq]
  have hp : p % 64 = p := Nat.mod_eq_of_lt (by omega)
  cases hst
  refine ⟨⟨hfew, hpd, hknown, ?_, hdoorbell, ?_, ?_, ?_, fun n hn => ?_, hsq⟩, rfl, rfl, rfl, rfl⟩
  · rw [range_succ, hposted, hsqHead, hp, hsq p hpd]
  · rw [hsqHead, Nat.mod_add_mod]
  · rw [hcqNext, Nat.mod_add_mod]
  · rw [hcqNext, hp, hphase, decide_eq_true (by omega : p < 64)]
    by_cases hlast : p + 1 = 64
    · simp [hlast]
    · rw [if_neg hlast, decide_eq_true (by omega : p + 1 < 64)]
  · simp only [hcqNext, hp]
    by_cases heq : n = p
    · rw [heq, update_self, hphase, decide_eq_true (by omega : p < 64),
        decide_eq_true (Nat.lt_succ_self p)]
    · rw [update_of_ne heq, htags n hn, decide_eq_decide]
      omega

theorem Stage.post (h : k.Stage p d pc) (hissued : k'.issued = k.issued)
    (hsqTail : k'.sqTail = k.sqTail) (hcqTail : k'.cqTail = k.cqTail) (hsq : k'.sq = k.sq) :
    k'.Stage (p + 1) d pc := by
  have htails : k'.Tails ↔ k.Tails := by rw [Tails, Tails, hissued, hsqTail, hcqTail]
  cases pc with
  | idle => exact h
  | takeSq job => rwa [Stage, htails, hissued]
  | takeCq job n slot => rwa [Stage, hissued, hsqTail, hcqTail, hsq]
  | write job n slot completion =>
    have htaken : k'.Taken n completion ↔ k.Taken n completion := by
      cases completion <;> rw [Taken, Taken, hcqTail]
      rw [hissued]
    rwa [Stage, htaken, hissued, hsqTail]
  | ring job n c => rwa [Stage, htails, hissued, hsq]
  | wait job n c => rwa [Stage, htails, hissued]
  | finish job n c =>
    rw [Stage, htails, hissued]
    obtain ⟨hn, hd, hc, ht, hlt⟩ := h
    exact ⟨hn, hd, hc, ht, Nat.lt_succ_of_lt hlt⟩

theorem Inv.advance (h : k.Inv p d) (hstage : k.Stage p d pc)
    (hfits : ∀ job, pc = .takeSq job → k.issued < 64) (hst : k.advance pc = some (k', pc')) :
    ∃ d', k'.Inv p d' ∧ (k'.Stage p d' pc' ∨ pc' = .idle ∧ d' = k'.issued ∧ k'.Tails) := by
  have ⟨hfew, hle, hknown, hposted, hdoorbell, hsqHead, hcqNext, hphase, htags, hsq⟩ := h
  cases pc with try obtain ⟨rfl, rfl⟩ := Prod.mk.inj (some.inj hst)
  | idle => exact hstage.elim
  | takeSq job =>
    obtain ⟨hd, hsqTail, hcqTail⟩ := hstage
    have hlt := hfits job rfl
    have hmod : k.issued % 64 = k.issued := Nat.mod_eq_of_lt hlt
    have htail : (k.sqTail + 1) % 64 = (k.issued + 1) % 64 := by rw [hsqTail, Nat.mod_add_mod]
    refine ⟨d, ⟨hlt, hle, Nat.le_succ_of_le hknown, hposted, hdoorbell, hsqHead, hcqNext, hphase,
      htags, hsq⟩, .inl ?_⟩
    cases job with
    | admin cmd =>
      exact ⟨rfl, hd, hsqTail.trans hmod, htail, hcqTail.trans hmod, fun hio => by cases hio⟩
    | read ns lba blocks offset => exact ⟨rfl, hd, hsqTail.trans hmod, htail, hcqTail.trans hmod⟩
  | takeCq job n slot =>
    obtain ⟨hn, hd, hslot, hsqTail, hcqTail, hwritten⟩ := hstage
    have htail : (k.cqTail + 1) % 64 = k.issued % 64 := by rw [hcqTail, hn]
    refine ⟨d, ⟨hfew, hle, hknown, hposted, hdoorbell, hsqHead, hcqNext, hphase, htags, hsq⟩,
      .inl ?_⟩
    cases job with
    | admin cmd => exact ⟨hn, hd, hslot, hsqTail, hcqTail, htail⟩
    | read ns lba blocks offset => exact ⟨hn, hd, hcqTail, ⟨hsqTail, htail⟩, hwritten rfl⟩
  | write job n slot completion =>
    obtain ⟨hn, hd, hslot, hsqTail, hcompletion⟩ := hstage
    have hself : (update k.sq slot (job.cmd, n) n).2 = n := by rw [hslot, update_self]
    refine ⟨d, ⟨hfew, hle, hknown, hposted, hdoorbell, hsqHead, hcqNext, hphase, htags, fun m hm =>
      ?_⟩, .inl ?_⟩
    · dsimp only
      rw [update_of_ne (by omega), hsq m hm]
    · cases completion with
      | some c => exact ⟨hn, hd, hcompletion.1, ⟨hsqTail, hcompletion.2⟩, hself⟩
      | none => exact ⟨hn, hd, hslot, hsqTail, hcompletion, fun _ => hself⟩
  | ring job n c =>
    obtain ⟨hn, hd, hc, htails, hself⟩ := hstage
    refine ⟨k.issued, ⟨hfew, by omega, le_rfl, hposted, htails.1, hsqHead, hcqNext, hphase, htags,
      fun m hm => ?_⟩, .inl ⟨hn, rfl, hc, htails⟩⟩
    rcases lt_or_ge m d with hlt | hge
    · exact hsq m hlt
    · rwa [show m = n by omega]
  | wait job n c =>
    obtain ⟨hn, hd, hc, htails⟩ := hstage
    refine ⟨d, h, .inl ?_⟩
    have htag := htags n (by omega)
    by_cases hp : n < p
    · rw [hc, htag, decide_eq_true hp]
      exact ⟨hn, hd, rfl, htails, hp⟩
    · rw [hc, htag, decide_eq_false hp]
      exact ⟨hn, hd, rfl, htails⟩
  | finish job n c =>
    obtain ⟨hn, hd, hc, htails, hlt⟩ := hstage
    refine ⟨d, ⟨hfew, hle, hknown, hposted, hdoorbell, hsqHead, hcqNext, hphase, htags, hsq⟩, ?_⟩
    rw [NvmeJob.afterFinish]
    cases job.next with
    | some job' => exact .inl ⟨hd, htails⟩
    | none => exact .inr ⟨rfl, hd, htails⟩

theorem queue_next {job job' : NvmeJob} (h : job.next = some job') : job'.queue = job.queue := by
  cases job with
  | admin cmd => cases h
  | read ns lba blocks offset =>
    rw [NvmeJob.next] at h
    split at h
    · rw [← some_inj.1 h]
      rfl
    · cases h

theorem queue_advance (hst : k.advance pc = some (k', pc')) :
    pc'.queue = pc.queue ∨ pc' = .idle := by
  cases pc with try rw [NvmeQueue.advance, some_inj, Prod.mk.injEq] at hst
  | idle => cases hst
  | takeSq job | takeCq job n slot => cases job <;> exact .inl (by rw [← hst.2]; rfl)
  | write job n slot completion => cases completion <;> exact .inl (by rw [← hst.2]; rfl)
  | ring job n c => exact .inl (by rw [← hst.2]; rfl)
  | wait job n c =>
    rw [← hst.2]
    split <;> exact .inl rfl
  | finish job n c =>
    rw [← hst.2]
    rw [NvmeJob.afterFinish]
    cases hnext : job.next with
    | none => exact .inr rfl
    | some job' => exact .inl (congrArg some (queue_next hnext))

end NvmeQueue

/-! ## The whole device -/

namespace Nvme

/-- No task is busy with the queue, or one is. -/
def Calls (s : Nvme τ) (q : NvmeQueueId) (p d : Nat) : Prop :=
  (∀ t, (s.pc t).queue ≠ some q) ∧ d = (s.queue q).issued ∧ (s.queue q).Tails ∨
    ∃ t, (∀ u, u ≠ t → (s.pc u).queue ≠ some q) ∧ (s.pc t).queue = some q ∧
    (s.queue q).Stage p d (s.pc t)

def Ok (s : Nvme τ) : Prop := ∀ q, ∃ p d, (s.queue q).Inv p d ∧ s.Calls q p d

variable {s s' : Nvme τ}

theorem Ok.init {queue : NvmeQueueId → NvmeQueue}
    (h : ∀ q, ∃ sq cq, queue q = .init sq cq ∧ ∀ n, (cq n).phaseTag = false) :
    (Nvme.init queue : Nvme τ).Ok := by
  intro q
  obtain ⟨sq, cq, hq, hcq⟩ := h q
  have hqueue : (Nvme.init queue : Nvme τ).queue q = .init sq cq := hq
  refine ⟨0, 0, ?_, .inl ⟨fun _ => by simp [Nvme.init, NvmePc.queue], ?_, ?_⟩⟩
  · rw [hqueue]
    exact NvmeQueue.Inv.init hcq
  · rw [hqueue]
    rfl
  · rw [hqueue]
    exact ⟨rfl, rfl⟩

theorem Calls.congr (h : s.Calls q p d) (hqueue : s'.queue q = s.queue q) (hpc : s'.pc = s.pc) :
    s'.Calls q p d := by
  rwa [Calls, hqueue, hpc]

theorem Calls.stage (h : s.Calls q p d) (ht : (s.pc t).queue = some q) :
    (∀ u, u ≠ t → (s.pc u).queue ≠ some q) ∧ (s.queue q).Stage p d (s.pc t) := by
  rcases h with ⟨hnone, -⟩ | ⟨u, hothers, -, hstage⟩
  · exact absurd ht (hnone t)
  by_cases htu : t = u
  · exact htu ▸ ⟨hothers, hstage⟩
  · exact absurd ht (hothers t htu)

variable [DecidableEq τ]

theorem Calls.other (h : s.Calls q p d) (hqueue : s'.queue q = s.queue q)
    (hpc : s'.pc = update s.pc t pc) (hold : (s.pc t).queue ≠ some q) (hnew : pc.queue ≠ some q) :
    s'.Calls q p d := by
  have hsame u : (s'.pc u).queue = some q ↔ (s.pc u).queue = some q := by
    rw [hpc]
    by_cases hu : u = t
    · rw [hu, update_self]
      exact iff_of_false hnew hold
    · rw [update_of_ne hu]
  rcases h with ⟨hnone, hrest⟩ | ⟨u, hothers, hu, hstage⟩
  · refine .inl ⟨fun v hv => hnone v ((hsame v).1 hv), ?_⟩
    rwa [hqueue]
  have hut : u ≠ t := by
    rintro rfl
    exact hold hu
  refine .inr ⟨u, fun v hv hq => hothers v hv ((hsame v).1 hq), (hsame u).2 hu, ?_⟩
  rwa [hqueue, hpc, update_of_ne hut]

theorem Ok.call (h : s.Ok) {job : NvmeJob} (hfits : (NvmeAct.call t job).Fits s)
    (hst : s.step (.call t job) = some s') : s'.Ok := by
  obtain ⟨hidle, hst⟩ := ite_none_right_eq_some.1 hst
  cases hst
  intro q
  obtain ⟨p, d, hinv, hcalls⟩ := h q
  refine ⟨p, d, hinv, ?_⟩
  by_cases hq : job.queue = q
  · subst hq
    rcases hcalls with ⟨hnone, hrest⟩ | ⟨u, -, hu, -⟩
    · refine .inr ⟨t, fun u hu => ?_, ?_, ?_⟩
      · simp only [update_of_ne hu]
        exact hnone u
      · simp [NvmePc.queue]
      · show (s.queue job.queue).Stage p d (update s.pc t (.takeSq job) t)
        rwa [update_self]
    · exact absurd hu (hfits u)
  · refine hcalls.other rfl rfl (by simp [hidle, NvmePc.queue]) ?_
    rwa [NvmePc.queue, Ne, some_inj]

theorem Ok.go (h : s.Ok) (hfits : (NvmeAct.go t).Fits s) (hst : s.step (.go t) = some s') :
    s'.Ok := by
  rw [step] at hst
  split at hst
  · cases hst
  rename_i q hq
  obtain ⟨⟨k, pc⟩, hadv, rfl⟩ := map_eq_some_iff.1 hst
  intro r
  obtain ⟨p, d, hinv, hcalls⟩ := h r
  by_cases hr : r = q
  · subst hr
    obtain ⟨hothers, hstage⟩ := hcalls.stage hq
    have hfew job (hjob : s.pc t = .takeSq job) : (s.queue r).issued < 64 := by
      have hqueue : job.queue = r := by rwa [hjob, NvmePc.queue, some_inj] at hq
      exact hqueue ▸ hfits job hjob
    obtain ⟨d', hinv', hnext⟩ := hinv.advance hstage hfew hadv
    refine ⟨p, d', ?_, ?_⟩
    · show (update s.queue r k r).Inv p d'
      rwa [update_self]
    have hothers' u (hu : u ≠ t) : (update s.pc t pc u).queue ≠ some r := by
      rw [update_of_ne hu]
      exact hothers u hu
    rcases NvmeQueue.queue_advance hadv with hsame | hidle
    · rcases hnext with hstage' | ⟨hidle, -⟩
      · refine .inr ⟨t, hothers', ?_, ?_⟩
        · simp [hsame, hq]
        · simp only [update_self]
          exact hstage'
      · rw [hidle, hq] at hsame
        cases hsame
    · rcases hnext with hstage' | ⟨-, hrest⟩
      · rw [hidle] at hstage'
        exact hstage'.elim
      refine .inl ⟨fun u hu => ?_, ?_⟩
      · by_cases hut : u = t
        · replace hu : (update s.pc t pc u).queue = some r := hu
          rw [hut, update_self, hidle] at hu
          cases hu
        · exact hothers' u hut hu
      · show d' = (update s.queue r k r).issued ∧ (update s.queue r k r).Tails
        rwa [update_self]
  · have hqr : (s.pc t).queue ≠ some r := by
      rw [hq, Ne, some_inj]
      exact Ne.symm hr
    have hsame : update s.queue q k r = s.queue r := update_of_ne hr _ _
    refine ⟨p, d, ?_, hcalls.other hsame rfl hqr ?_⟩
    · show (update s.queue q k r).Inv p d
      rwa [hsame]
    rcases NvmeQueue.queue_advance hadv with h' | h'
    · rwa [h']
    · rw [h']
      exact fun hnone => by cases hnone

theorem Ok.post (h : s.Ok) (hst : s.step (.post q status) = some s') : s'.Ok := by
  obtain ⟨k, hk, rfl⟩ := map_eq_some_iff.1 hst
  intro r
  obtain ⟨p, d, hinv, hcalls⟩ := h r
  by_cases hr : r = q
  · subst hr
    obtain ⟨hinv', hissued, hsqTail, hcqTail, hsq⟩ := hinv.post hk
    have hself : update s.queue r k r = k := update_self _ _ _
    refine ⟨p + 1, d, ?_, ?_⟩
    · show (update s.queue r k r).Inv (p + 1) d
      rwa [hself]
    rcases hcalls with ⟨hnone, hd, htails⟩ | ⟨t, hothers, ht, hstage⟩
    · refine .inl ⟨hnone, ?_, ?_⟩
      · show d = (update s.queue r k r).issued
        rwa [hself, hissued]
      · show (update s.queue r k r).Tails
        rwa [hself, NvmeQueue.Tails, hissued, hsqTail, hcqTail]
    · refine .inr ⟨t, hothers, ht, ?_⟩
      simp only [hself]
      exact hstage.post hissued hsqTail hcqTail hsq
  · have hsame : update s.queue q k r = s.queue r := update_of_ne hr _ _
    refine ⟨p, d, ?_, ?_⟩
    · show (update s.queue q k r).Inv p d
      rwa [hsame]
    · exact hcalls.congr hsame rfl

theorem Ok.step (h : s.Ok) {x : NvmeAct τ} (hfits : x.Fits s) (hst : s.step x = some s') :
    s'.Ok := by
  cases x with
  | call t job => exact h.call hfits hst
  | go t => exact h.go hfits hst
  | post q status => exact h.post hst

end Nvme

/-- **Completions are matched to commands.**  In every run in which no queue takes more than 64
commands and calls for a queue do not overlap: the tag in the slot of a command is 1 exactly if that
command has been completed, so in particular this is the condition with which the loop that waits
for it ends. -/
theorem completions_match {τ : Type} [DecidableEq τ] {queue : NvmeQueueId → NvmeQueue}
    {as : List (NvmeAct τ)} {s : Nvme τ}
    (hinit : ∀ q, ∃ sq cq, queue q = .init sq cq ∧ ∀ n, (cq n).phaseTag = false)
    (hfits : Along Nvme.step (fun s x => x.Fits s) (Nvme.init queue) as)
    (hrun : run Nvme.step (Nvme.init queue) as = some s) :
    (∀ q, ∀ n < (s.queue q).issued, ((s.queue q).cq (n % 64)).phaseTag = true ↔
    n ∈ (s.queue q).posted) ∧
    ∀ t job n c, s.pc t = .wait job n c → n < (s.queue job.queue).issued ∧ c = n % 64 ∧
      ∀ s', s.step (.go t) = some s' →
      (s'.pc t = .finish job n c ↔ n ∈ (s.queue job.queue).posted) := by
  have h : s.Ok :=
    run_induction (I := Nvme.Ok) (fun _ _ _ h hx hst => h.step hx hst)
    (Nvme.Ok.init hinit) hfits hrun
  have htag : ∀ q, ∀ n < (s.queue q).issued, ((s.queue q).cq (n % 64)).phaseTag = true ↔
      n ∈ (s.queue q).posted := by
    intro q n hn
    obtain ⟨p, d, hinv, -⟩ := h q
    exact hinv.tag_iff hn
  refine ⟨htag, fun t job n c hpc => ?_⟩
  obtain ⟨p, d, hinv, hcalls⟩ := h job.queue
  have hq : (s.pc t).queue = some job.queue := by rw [hpc, NvmePc.queue]
  have hstage := (hcalls.stage hq).2
  rw [hpc] at hstage
  obtain ⟨hn, -, hc, -⟩ := hstage
  have hfew := hinv.few
  have hmod : c = n % 64 := by rw [hc, Nat.mod_eq_of_lt (by omega)]
  refine ⟨by omega, hmod, fun s' hst => ?_⟩
  rw [Nvme.step, hpc] at hst
  obtain ⟨⟨k, pc⟩, hadv, rfl⟩ := map_eq_some_iff.1 hst
  rw [NvmeQueue.advance, some_inj, Prod.mk.injEq] at hadv
  rw [← htag job.queue n (by omega), ← hmod]
  simp only [update_self, ← hadv.2]
  split_ifs with hphase
  · exact iff_of_true rfl hphase
  · exact iff_of_false (fun heq => by cases heq) hphase

/-- Queues whose memory is zero. -/
def zeroQueues (_ : NvmeQueueId) : NvmeQueue :=
  .init (fun _ => (⟨0, 0, 0, 0, 0, 0⟩, 0)) fun _ => ⟨false, 0⟩

def identify : NvmeJob := .admin ⟨0x06, 0, 0, 1, 0, 0⟩

/-- A command, up to its doorbell. -/
def issueIdentify : List (NvmeAct Unit) := [.call () identify, .go (), .go (), .go (), .go ()]

/-- The controller completes it, and the driver sees that. -/
def completeIdentify : List (NvmeAct Unit) := [.post .admin 0, .go (), .go ()]

/-- A read of one block. -/
def readOne : NvmeJob := .read ⟨1, 0x1000, 512⟩ 0 1 0

/-- The read, up to the wait, and its completion. -/
def issueRead : List (NvmeAct Unit) :=
  [.call () readOne, .go (), .go (), .go (), .go (), .post .io 0]

/-- The loop ends, as the command has been completed. -/
theorem completions_match_read :
    ∃ s s' : Nvme Unit, run Nvme.step (Nvme.init zeroQueues) issueRead = some s ∧
    (s.queue .io).posted = [0] ∧ s.step (.go ()) = some s' ∧ s'.pc () = .finish readOne 0 0 := by
  have hfits : Along Nvme.step (fun s x => x.Fits s) (Nvme.init zeroQueues : Nvme Unit)
      issueRead := by
    exact .cons rfl (fun _ h => by cases h) (.cons rfl (fun _ _ => (by decide : 0 < 64))
      (.cons rfl (fun _ hjob => by cases hjob) (.cons rfl (fun _ hjob => by cases hjob)
        (.cons rfl (fun _ hjob => by cases hjob) (.cons rfl trivial trivial)))))
  have h := (completions_match (fun _ => ⟨_, _, rfl, fun _ => rfl⟩) hfits rfl).2 () readOne 0 0 rfl
  exact ⟨_, _, rfl, rfl, rfl, (h.2.2 _ rfl).2 (mem_singleton_self 0)⟩

/-- The loop that waits for the 65th command ends at once: the tag in its slot is that of the first
command. -/
theorem wait_ends_early : ∃ s s' : Nvme Unit,
    run Nvme.step (Nvme.init zeroQueues)
      ((replicate 64 (issueIdentify ++ completeIdentify)).flatten ++ issueIdentify) = some s ∧
    s.pc () = .wait identify 64 0 ∧ (s.queue .admin).posted = range 64 ∧ s.step (.go ()) = some s' ∧
    s'.pc () = .finish identify 64 0 := by
  simp only [exists_and_left]
  decide +kernel

end Monolith
