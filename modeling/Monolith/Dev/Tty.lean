import Monolith.Lib.Cyclic
import Monolith.Lib.Run

/-!
# `dev/tty.c`: the input of a terminal

`tty_consume` puts bytes into a ring of 4096, and `tty_read` takes them out.  Both work under the
lock of the terminal, and `tty_read` waits until there is something to take; so a call is one step
here.

The indices of the ring wrap around, but `tty_read` copies one block from the head on.  So the input
is first in, first out as long as no block goes past the end of the ring (`input_in_order`), and
what a block finds there is not the input (`read_past_ring`).  A byte is stored before it is looked
at: what is echoed has newlines for carriage returns and no VINTR, what is read has the bytes as
they came (`input_cooked`).
-/

namespace Monolith.Tty

open Function Transition Cyclic Option List

/-! ## The calls -/

def ttyBufferSize : Nat := 0x1000

/-- What `tty_consume` looks at in a `struct termios`. -/
structure Termios where
  isig : Bool
  icrnl : Bool
  echo : Bool
  vintr : BitVec 8

/-- `struct tty_device`, as far as input is concerned. -/
structure TtyDevice where
  /-- What is in memory from `read_buffer` on.  The ring is the first 4096 bytes of it. -/
  readBuffer : Nat → BitVec 8
  /-- `read_buffer_head` -/
  head : Nat
  /-- `read_buffer_tail` -/
  tail : Nat
  termios : Termios

/-- What `tty_consume` does besides. -/
inductive Effect where
  /-- `pgrp_send_signal(tty->fg_pgrp, SIGINT)` -/
  | interrupt
  /-- `tty->output(&c, 1)` -/
  | output (c : BitVec 8)
  /-- `wait_queue_wake(&tty->waitqueue)` -/
  | wake

/-- `tty_consume`: the terminal, whether the byte was stored, and what else is done. -/
def ttyConsume (tty : TtyDevice) (c : BitVec 8) : TtyDevice × Bool × List Effect :=
  if (tty.tail + 1) % ttyBufferSize = tty.head then (tty, false, [])
  else
    let tty := { tty with
      readBuffer := update tty.readBuffer tty.tail c
      tail := (tty.tail + 1) % ttyBufferSize }
    -- `char` is signed and `cc_t` is not
    if tty.termios.isig ∧ c.toInt = tty.termios.vintr.toNat then (tty, true, [.interrupt])
    else
      let c := if tty.termios.icrnl ∧ c = 0x0D then 0x0A else c
      (tty, true, if tty.termios.echo then [.output c, .wake] else [.wake])

/-- `tty_read`, from where it does not wait any more. -/
def ttyRead (tty : TtyDevice) (length : Nat) : Option (List (BitVec 8) × TtyDevice) :=
  if tty.head = tty.tail then none
  else
    let stored :=
      if tty.head < tty.tail then tty.tail - tty.head else ttyBufferSize - tty.head + tty.tail
    let readCount := if length < stored then length else stored
    some ((List.range readCount).map fun i => tty.readBuffer (tty.head + i),
      { tty with head := (tty.head + readCount) % ttyBufferSize })

/-! ## Any sequence of calls -/

/-- A terminal, with all the bytes that were stored and all that were returned. -/
structure TtySys where
  tty : TtyDevice
  stored : List (BitVec 8)
  returned : List (BitVec 8)

inductive Action where
  | consume (c : BitVec 8)
  | read (length : Nat)

def TtySys.step (s : TtySys) : Action → Option TtySys
  | .consume c =>
    let (tty, kept, _) := ttyConsume s.tty c
    some { s with tty := tty, stored := if kept then s.stored ++ [c] else s.stored }
  | .read length => (ttyRead s.tty length).map fun r =>
    { s with tty := r.2, returned := s.returned ++ r.1 }

/-- A new terminal, whatever is in memory. -/
def TtySys.init (memory : Nat → BitVec 8) (termios : Termios) : TtySys where
  tty := { readBuffer := memory, head := 0, tail := 0, termios := termios }
  stored := []
  returned := []

/-- The block that is read ends before the end of the ring. -/
def Action.Straight (s : TtySys) : Action → Prop
  | .read length => s.tty.head < s.tty.tail ∨ s.tty.tail = 0 ∨ s.tty.head + length ≤ ttyBufferSize
  | .consume _ => True

/-- From the counter `lo` on, `k` bytes of the ring have not been returned. -/
structure TtySys.Inv (s : TtySys) (lo k : Nat) : Prop where
  head : s.tty.head = lo % 4096
  tail : s.tty.tail = (lo + k) % 4096
  room : k < 4096
  order : s.stored = s.returned ++ window 4096 s.tty.readBuffer lo k

variable {s s' : TtySys} {lo k : Nat} {c : BitVec 8}

theorem TtySys.step_consume (hkeep : (s.tty.tail + 1) % ttyBufferSize ≠ s.tty.head) :
    s.step (.consume c) = some { s with
      tty := { s.tty with
        readBuffer := update s.tty.readBuffer s.tty.tail c
        tail := (s.tty.tail + 1) % 4096 }
      stored := s.stored ++ [c] } := by
  simp only [TtySys.step, ttyConsume, if_neg hkeep]
  split <;> rfl

/-- A byte is dropped just when 4095 are in the ring. -/
theorem TtySys.Inv.full (h : s.Inv lo k) :
    (s.tty.tail + 1) % ttyBufferSize = s.tty.head ↔ k = 4095 := by
  have := h.room
  rw [h.head, h.tail, ttyBufferSize]
  omega

theorem TtySys.Inv.consume (h : s.Inv lo k) (hstep : s.step (.consume c) = some s') :
    s'.Inv lo k ∨ s'.Inv lo (k + 1) := by
  by_cases hfull : (s.tty.tail + 1) % ttyBufferSize = s.tty.head
  · left
    obtain rfl : s = s' := by simpa [TtySys.step, ttyConsume, hfull] using hstep
    exact h
  right
  have hroom := h.room
  rw [TtySys.step_consume hfull, some_inj] at hstep
  rw [h.full] at hfull
  subst hstep
  refine ⟨h.head, ?_, by omega, ?_⟩
  · simp [h.tail, add_assoc]
  dsimp only
  have hold : window 4096 (update s.tty.readBuffer s.tty.tail c) lo k =
      window 4096 s.tty.readBuffer lo k :=
    window_congr fun i hi => update_of_ne (h.tail ▸ slot_ne hi hroom) ..
  rw [window_succ, ← h.tail, update_self, hold, h.order, append_assoc]

theorem TtySys.Inv.read (h : s.Inv lo k) {length : Nat}
    (hstraight : (Action.read length).Straight s) (hstep : s.step (.read length) = some s') :
    ∃ j ≤ k, s'.Inv (lo + j) (k - j) := by
  have hroom := h.room
  have hhead := h.head
  have htail := h.tail
  obtain ⟨⟨bytes, tty⟩, hread, rfl⟩ := map_eq_some_iff.1 hstep
  simp only [ttyRead, ttyBufferSize, ite_none_left_eq_some, some_inj, Prod.mk.injEq] at hread
  obtain ⟨hne, rfl, rfl⟩ := hread
  simp only [Action.Straight, ttyBufferSize] at hstraight
  have hk : (if s.tty.head < s.tty.tail then s.tty.tail - s.tty.head else 4096 - s.tty.head +
      s.tty.tail) = k := by
    split <;> omega
  simp only [hk]
  generalize hj : (if length < k then length else k) = j
  have hjk : j ≤ k := by grind
  -- the block is the first `j` slots of the window
  have hblock : ((range j).map fun i => s.tty.readBuffer (s.tty.head + i)) =
      window 4096 s.tty.readBuffer lo j := by
    refine map_congr_left fun i hi => congrArg _ ?_
    grind
  refine ⟨j, hjk, ?_, ?_, by omega, ?_⟩
  · simp [hhead]
  · rwa [add_assoc, Nat.add_sub_cancel' hjk]
  · rw [hblock, append_assoc, ← window_add, Nat.add_sub_cancel' hjk, h.order]

theorem inv_of_run {memory : Nat → BitVec 8} {termios : Termios} {as : List Action}
    (hstraight : Along TtySys.step (fun s a => a.Straight s) (.init memory termios) as)
    (hrun : run TtySys.step (.init memory termios) as = some s) : ∃ lo k, s.Inv lo k := by
  refine run_induction (I := fun s : TtySys => ∃ lo k, s.Inv lo k) ?_
    ⟨0, 0, rfl, rfl, by omega, rfl⟩ hstraight hrun
  rintro s a s' ⟨lo, k, h⟩ hline hstep
  cases a with
  | consume c =>
    rcases h.consume hstep with h | h
    · exact ⟨lo, k, h⟩
    · exact ⟨lo, k + 1, h⟩
  | read length =>
    obtain ⟨j, -, h⟩ := h.read hline hstep
    exact ⟨lo + j, k - j, h⟩

def defaultTermios : Termios where
  isig := true
  icrnl := true
  echo := true
  vintr := 0x03

/-- **As long as no block that is read goes past the end of the ring, what is returned is what was
stored, in this order, and a byte is dropped only when 4095 are in the ring.** -/
theorem input_in_order {memory : Nat → BitVec 8} {termios : Termios} {as : List Action} {s : TtySys}
    (hstraight : Along TtySys.step (fun s a => a.Straight s) (.init memory termios) as)
    (hrun : run TtySys.step (.init memory termios) as = some s) : s.returned <+: s.stored ∧
      ∀ c, (ttyConsume s.tty c).2.1 = false → s.stored.length = s.returned.length + 4095 := by
  obtain ⟨lo, k, h⟩ := inv_of_run hstraight hrun
  refine ⟨⟨_, h.order.symm⟩, fun c hdrop => ?_⟩
  have hfull : (s.tty.tail + 1) % ttyBufferSize = s.tty.head := by
    by_contra hfull
    simp only [ttyConsume, if_neg hfull] at hdrop
    split at hdrop <;> simp at hdrop
  rw [h.order, h.full.1 hfull]
  simp [window]

/-- Two bytes, one read, another byte and a longer read. -/
def typing : List Action := [.consume 0x61, .consume 0x03, .read 1, .consume 0x0D, .read 16]

theorem input_in_order_typing :
    ∃ s, run TtySys.step (.init (fun _ => 0) defaultTermios) typing = some s ∧
    s.returned = [0x61, 0x03, 0x0D] ∧
      s.returned <+: s.stored := by
  obtain ⟨s, hs, h⟩ : ∃ s, run TtySys.step (.init (fun _ => 0) defaultTermios) typing = some s ∧
      s.returned = [0x61, 0x03, 0x0D] := by decide +kernel
  refine ⟨s, hs, h, (input_in_order ?_ hs).1⟩
  simp [typing, Along, Action.Straight, TtySys.step, ttyConsume, ttyRead, TtySys.init,
    defaultTermios, ttyBufferSize]

/-! ## What is echoed, and what is read -/

/-- The bytes that came in during a run. -/
def inputs (as : List Action) : List (BitVec 8) :=
  as.filterMap fun | .consume c => some c | .read _ => none

/-- All that `tty_consume` does besides during a run. -/
def effects (s : TtySys) : List Action → List Effect
  | [] => []
  | a :: as =>
    (match a with | .consume c => (ttyConsume s.tty c).2.2 | .read _ => []) ++
      match s.step a with
      | some t => effects t as
      | none => []

/-- The bytes that are written to the terminal. -/
def echoed (es : List Effect) : List (BitVec 8) :=
  es.filterMap fun | .output c => some c | _ => none

/-- How often SIGINT is sent. -/
def interrupts (es : List Effect) : Nat := es.countP fun | .interrupt => true | _ => false

/-- Newlines for carriage returns, and no VINTR. -/
def cooked (cs : List (BitVec 8)) : List (BitVec 8) :=
  (cs.filter (· ≠ 0x03)).map fun c => if c = 0x0D then 0x0A else c

/-- There is room for a byte that comes in. -/
def Action.Kept (s : TtySys) : Action → Prop
  | .consume _ => (s.tty.tail + 1) % ttyBufferSize ≠ s.tty.head
  | .read _ => True

theorem echoed_append (es es' : List Effect) : echoed (es ++ es') = echoed es ++ echoed es' :=
  filterMap_append

theorem interrupts_append (es es' : List Effect) :
    interrupts (es ++ es') = interrupts es + interrupts es' :=
  countP_append

theorem ttyConsume_effects {tty : TtyDevice} (hterm : tty.termios = defaultTermios)
    (hkept : (tty.tail + 1) % ttyBufferSize ≠ tty.head) : (ttyConsume tty c).2.2 =
      if c = 0x03 then [.interrupt] else [.output (if c = 0x0D then 0x0A else c), .wake] := by
  have hintr : ∀ c : BitVec 8, c.toInt = (defaultTermios.vintr.toNat : Int) ↔ c = 0x03 := by
    decide +kernel
  simp only [ttyConsume, if_neg hkept, hterm, hintr]
  by_cases hc : c = 0x03
  · rw [if_pos ⟨rfl, hc⟩, if_pos hc]
  · rw [if_neg fun h => hc h.2, if_neg hc]
    simp [defaultTermios]

theorem step_termios {a : Action} (hstep : s.step a = some s') :
    s'.tty.termios = s.tty.termios := by
  cases a with
  | consume c =>
    simp only [TtySys.step, some_inj] at hstep
    subst hstep
    dsimp only [ttyConsume]
    split
    · rfl
    · split <;> rfl
  | read length =>
    obtain ⟨⟨bytes, tty⟩, hread, rfl⟩ := map_eq_some_iff.1 hstep
    simp only [ttyRead, ite_none_left_eq_some, some_inj, Prod.mk.injEq] at hread
    obtain ⟨-, -, rfl⟩ := hread
    rfl

/-- What a run does if no byte is dropped. -/
theorem run_effects {as : List Action} (hterm : s.tty.termios = defaultTermios)
    (hkept : Along TtySys.step (fun s a => a.Kept s) s as) (hrun : run TtySys.step s as = some s') :
    echoed (effects s as) = cooked (inputs as) ∧
    interrupts (effects s as) = (inputs as).count 0x03 ∧
      s'.stored = s.stored ++ inputs as := by
  induction as generalizing s with
  | nil =>
    obtain rfl := some_inj.1 hrun
    exact ⟨rfl, rfl, (append_nil _).symm⟩
  | cons a as ih =>
    obtain ⟨t, hstep, hrun⟩ := run_cons_eq_some.1 hrun
    obtain ⟨hecho, hintr, hstored⟩ := ih ((step_termios hstep).trans hterm) (hkept.2 t hstep) hrun
    cases a with
    | read length =>
      simp only [effects, hstep, nil_append]
      obtain ⟨r, -, rfl⟩ := map_eq_some_iff.1 hstep
      exact ⟨hecho, hintr, hstored⟩
    | consume c =>
      have hnew : t.stored = s.stored ++ [c] := by
        rw [TtySys.step_consume hkept.1, some_inj] at hstep
        rw [← hstep]
      have hinputs : inputs (.consume c :: as) = c :: inputs as := rfl
      simp only [effects, hstep, ttyConsume_effects hterm hkept.1]
      rw [hstored, hnew, append_assoc, echoed_append, hecho, interrupts_append, hintr, hinputs]
      by_cases hc : c = 0x03
      · rw [if_pos hc, hc]
        exact ⟨rfl, (Nat.add_comm 1 _).trans count_cons_self.symm, rfl⟩
      · have hfilter : (c :: inputs as).filter (· ≠ 0x03) = c :: (inputs as).filter (· ≠ 0x03) :=
          filter_cons_of_pos (decide_eq_true hc)
        rw [if_neg hc, cooked, cooked, hfilter, count_cons_of_ne hc]
        exact ⟨rfl, Nat.zero_add _, rfl⟩

theorem eq_cooked_iff {cs : List (BitVec 8)} : cs = cooked cs ↔ 0x0D ∉ cs ∧ 0x03 ∉ cs := by
  constructor
  · intro h
    have hlen : (cs.filter (· ≠ 0x03)).length = cs.length := by
      rw [← length_map (fun c => if c = 0x0D then (0x0A : BitVec 8) else c)]
      exact congrArg length h.symm
    have hintr : ∀ c ∈ cs, c ≠ 0x03 := by simpa using length_filter_eq_length_iff.1 hlen
    refine ⟨fun hmem => ?_, fun hmem => hintr _ hmem rfl⟩
    rw [h] at hmem
    obtain ⟨c, -, hc⟩ := mem_map.1 hmem
    grind
  · rintro ⟨hcr, hintr⟩
    have hall : cs.filter (· ≠ 0x03) = cs := filter_eq_self.2 fun c hc =>
      decide_eq_true fun h : c = 0x03 => hintr (h ▸ hc)
    rw [cooked, hall]
    exact ((map_congr_left fun c hc => if_neg fun h : c = 0x0D => hcr (h ▸ hc)).trans
      (map_id cs)).symm

/-- **When all bytes have been read, none of them dropped and none past the end of the ring, they
are the input with newlines for carriage returns and without VINTR just if it has neither; the echo
is so in any case, and each VINTR sends one SIGINT.** -/
theorem input_cooked {memory : Nat → BitVec 8} {as : List Action} {s : TtySys}
    (hstraight : Along TtySys.step (fun s a => a.Straight s) (.init memory defaultTermios) as)
    (hkept : Along TtySys.step (fun s a => a.Kept s) (.init memory defaultTermios) as)
    (hrun : run TtySys.step (.init memory defaultTermios) as = some s)
    (hread : s.tty.head = s.tty.tail) :
    (s.returned = cooked (inputs as) ↔ 0x0D ∉ inputs as ∧ 0x03 ∉ inputs as) ∧
      interrupts (effects (.init memory defaultTermios) as) = (inputs as).count 0x03 ∧
      echoed (effects (.init memory defaultTermios) as) = cooked (inputs as) := by
  obtain ⟨hecho, hintr, hstored⟩ := run_effects rfl hkept hrun
  obtain ⟨lo, k, h⟩ := inv_of_run hstraight hrun
  have hk : k = 0 := by
    have := h.room
    have := h.head
    have := h.tail
    omega
  have hreturned : s.returned = inputs as := by
    have horder := h.order
    subst hk
    rw [hstored] at horder
    simpa [window, TtySys.init] using horder.symm
  rw [hreturned]
  exact ⟨eq_cooked_iff, hintr, hecho⟩

theorem input_cooked_abc :
    ∃ s, run TtySys.step (.init (fun _ => 0) defaultTermios) [.consume 0x61, .read 1, .consume 0x62,
    .consume 0x63,
      .read 16] = some s ∧ s.returned = cooked [0x61, 0x62, 0x63] := by
  obtain ⟨s, hs, hread⟩ : ∃ s, run TtySys.step (.init (fun _ => 0) defaultTermios)
      [.consume 0x61, .read 1,
      .consume 0x62, .consume 0x63, .read 16] = some s ∧ s.tty.head = s.tty.tail :=
      by decide +kernel
  refine ⟨s, hs, (input_cooked ?_ ?_ hs hread).1.2 (by decide)⟩
  · simp [Along, Action.Straight, TtySys.step, ttyConsume, ttyRead, TtySys.init, defaultTermios,
      ttyBufferSize]
  · simp [Along, Action.Kept, TtySys.step, ttyConsume, ttyRead, TtySys.init, defaultTermios,
      ttyBufferSize]

/-- The carriage return and the VINTR of `typing` are read as they came. -/
theorem typing_uncooked : ∃ s, run TtySys.step (.init (fun _ => 0) defaultTermios) typing = some s ∧
    s.tty.head = s.tty.tail ∧ s.returned = [0x61, 0x03, 0x0D] ∧
    cooked (inputs typing) = [0x61, 0x0A] := by
  decide +kernel

/-! ## A block that goes past the end -/

/-- One byte at a time, the head and the tail get to any place in the ring. -/
theorem advance (k : Nat) (hk : k < 4096) :
    ∃ as s, run TtySys.step (.init (fun _ => 0) defaultTermios) as = some s ∧ s.tty.head = k ∧
    s.tty.tail = k ∧
      s.returned = s.stored ∧ s.tty.readBuffer 4096 = 0 := by
  induction k with
  | zero => exact ⟨[], _, rfl, rfl, rfl, rfl, rfl⟩
  | succ k ih =>
    obtain ⟨as, s, hrun, hhead, htail, heq, hbeyond⟩ := ih (by omega)
    have hkeep : (s.tty.tail + 1) % ttyBufferSize ≠ s.tty.head := by
      rw [ttyBufferSize]
      omega
    have htake : (k + 1) % 4096 = k + 1 := Nat.mod_eq_of_lt hk
    refine ⟨as ++ [.consume 0x61, .read 1], ?_⟩
    rw [run_append, hrun, bind_some, run, TtySys.step_consume hkeep]
    have hstill : update s.tty.readBuffer k 0x61 4096 = 0 :=
      (update_of_ne (by omega) ..).trans hbeyond
    simpa [run, TtySys.step, ttyRead, ttyBufferSize, hhead, htail, htake, heq] using hstill

/-- **What is after the end of the ring.**  Of two bytes that are stored across the end, the second
is read from the place after the ring. -/
theorem read_past_ring :
    ∃ as s, run TtySys.step (.init (fun _ => 0) defaultTermios) as = some s ∧
    ¬ s.returned <+: s.stored := by
  obtain ⟨as, s, hrun, hhead, htail, heq, hbeyond⟩ := advance 4095 (by omega)
  refine ⟨as ++ [.consume 0x62, .consume 0x63, .read 2], ?_⟩
  have hkeep : (s.tty.tail + 1) % ttyBufferSize ≠ s.tty.head := by
    simp [htail, hhead, ttyBufferSize]
  rw [run_append, hrun, bind_some, run, TtySys.step_consume hkeep, bind_some, run,
    TtySys.step_consume (by simp [htail, hhead, ttyBufferSize]), bind_some]
  simp [run, TtySys.step, ttyRead, ttyBufferSize, hhead, htail, heq, range_succ, update, hbeyond]

end Monolith.Tty
