import Mathlib.Data.List.Induction
import Monolith.Lib.Run

/-!
# Interrupt routing

`irq_register` and `irq_register_msi` take the next vector, put the handler into `virq_table` under
it and have the chip raise that vector, which for a line of the IOAPIC goes into its redirection
entry.  `irq_dispatch` calls what the table has for a vector.  Up to 96 calls succeed, and then a
line leads to the handler that was registered last for it (`interrupts_routed`); the vector behind
those is the one of the system calls.
-/

namespace Monolith.Irq

open Function List Transition Option

inductive IrqChip where
  | ioapic
  | msix

structure IrqDomain where
  chip : IrqChip
  start : Nat
  last : Nat
  msiAddress : Nat

/-- `irq_domain_list`, and what `ioapic_init` has found out. -/
structure Config where
  domains : List IrqDomain
  isaIrqOverride : Nat → Nat
  redirEntryCount : Nat

structure System (η : Type) where
  virqAlloc : Nat
  /-- The handlers with their payload. -/
  virqTable : Nat → Option η
  registers : Nat → BitVec 32

/-- `irq_register`, or `irq_register_msi` for a domain; and the `lapic_id` of the CPU. -/
structure Call (η : Type) where
  msi : Option IrqDomain
  hwirq : Nat
  handler : η
  lapicId : BitVec 8

variable {η : Type} (c : Config) (s : System η)

/-- At first the entries of the IOAPIC are masked. -/
def init : System η := ⟨32, fun _ => none, fun _ => 1#32 <<< 16⟩

def findHwirqDomain (hwirq : Nat) : Option IrqDomain :=
  c.domains.find? fun d => d.start ≤ hwirq ∧ hwirq ≤ d.last

/-- The domain that a call looks for, or checks. -/
def Call.domain (call : Call η) : Option IrqDomain :=
  match call.msi with
  | none => findHwirqDomain c call.hwirq
  | some d => if d.msiAddress = 0 ∨ d.last ≤ call.hwirq then none else some d

/-- The `dst` of `ioapic_enable`, as an `uint8_t`. -/
def dst (hwirq : Nat) : Nat :=
  (if hwirq < 16 ∧ c.isaIrqOverride hwirq ≠ 0 then c.isaIrqOverride hwirq else hwirq) % 256

/-- The register with the low half of an entry, whose number is an `uint8_t` too. -/
def redtbl (id : Nat) : Nat := (0x10 + 2 * id) % 256

/-- `ioapic_write_redirection_entry`, of a vector and a destination and else zeros. -/
def ioapicWriteRedirectionEntry (id vector : Nat) (destination : BitVec 8) : System η :=
  if c.redirEntryCount ≤ id then s
  else { s with
    registers := update (update s.registers (redtbl id) (BitVec.ofNat 32 (vector % 256)))
      ((0x10 + 2 * id + 1) % 256) (destination.zeroExtend 32 <<< 24) }

/-- The chip's `enable`; what `msix_enable` writes is in the memory of a device. -/
def enable (chip : IrqChip) (hwirq vector : Nat) (lapicId : BitVec 8) : System η :=
  match chip with
  | .ioapic => ioapicWriteRedirectionEntry c s (dst c hwirq) vector lapicId
  | .msix => s

/-- A call; `virq_table` has 128 entries. -/
def step (s : System η) (call : Call η) : Option (System η) :=
  match call.domain c with
  | none => some s
  | some d =>
    let table := update s.virqTable (s.virqAlloc - 32) (some call.handler)
    if s.virqAlloc - 32 < 128 then
      some (enable c ⟨s.virqAlloc + 1, table, s.registers⟩ d.chip call.hwirq s.virqAlloc
      call.lapicId)
    else none

/-- `irq_dispatch`: the handler that is called. -/
def irqDispatch (id : Nat) : Option η := s.virqTable (id - 32)

/-- A device raises a line: `interrupt_handler` is called with the vector of the entry, if that is
not masked. -/
def interrupt (line : Nat) : Option η :=
  let low := s.registers (redtbl line)
  let vector := low.toNat % 256
  if low.getLsbD 16 then none else if 0x20 ≤ vector ∧
    vector < 0x80 then irqDispatch s vector else none

/-! ## The last handler counts -/

/-- The line that a call is for. -/
def Call.line (call : Call η) : Option Nat :=
  match call.domain c with
  | some ⟨.ioapic, _, _, _⟩ => some (dst c call.hwirq)
  | _ => none

/-- What a line is to lead to. -/
def handlerOf (calls : List (Call η)) (line : Nat) : Option η :=
  calls.foldl (fun h call => if call.line c = some line then some call.handler else h) none

/-- An entry is masked, or has the vector of its handler. -/
structure Inv (calls : List (Call η)) : Prop where
  lower : 32 ≤ s.virqAlloc
  upper : s.virqAlloc ≤ 32 + calls.length
  route : ∀ line < c.redirEntryCount, (handlerOf c calls line = none ∧
    (s.registers (redtbl line)).getLsbD 16 = true) ∨
    ∃ v < s.virqAlloc, 32 ≤ v ∧ s.registers (redtbl line) = BitVec.ofNat 32 v ∧
      s.virqTable (v - 32) = handlerOf c calls line

variable {c s} {calls : List (Call η)} {call : Call η} {d : IrqDomain} {vector line : Nat}

/-- Enabling writes the entry of one line. -/
theorem enable_eq (hcount : c.redirEntryCount ≤ 120) (hd : call.domain c = some d) :
    ∃ r, enable c s d.chip call.hwirq vector call.lapicId = { s with registers := r } ∧
      ∀ line < c.redirEntryCount, r (redtbl line) =
        if call.line c = some line then BitVec.ofNat 32 (vector % 256) else s.registers
          (redtbl line) := by
  obtain ⟨chip, start, last, msi⟩ := d
  rw [Call.line, hd]
  cases chip with
  | msix => exact ⟨_, rfl, fun line _ => rfl⟩
  | ioapic =>
    dsimp only [enable]
    rw [ioapicWriteRedirectionEntry]
    split_ifs with hid
    · refine ⟨_, rfl, fun line hline => (if_neg fun heq => ?_).symm⟩
      have := some.inj heq
      omega
    · refine ⟨_, rfl, fun line hline => ?_⟩
      rw [update_of_ne (by rw [redtbl]; omega), update_apply]
      refine if_congr ⟨fun heq => ?_, fun heq => by rw [some.inj heq]⟩ rfl rfl
      rw [redtbl, redtbl] at heq
      exact congrArg some (by omega)

theorem Inv.step (hcount : c.redirEntryCount ≤ 120) (h : Inv c s calls) (hn : calls.length < 96)
    (call : Call η) : ∃ s', step c s call = some s' ∧ Inv c s' (calls ++ [call]) := by
  have hlast line : handlerOf c (calls ++ [call]) line =
      if call.line c = some line then some call.handler else handlerOf c calls line := by
    rw [handlerOf, foldl_append]
    rfl
  have hlow := h.lower
  have hup := h.upper
  have hlen : (calls ++ [call]).length = calls.length + 1 := length_append
  rcases hd : call.domain c with _ | d
  · refine ⟨s, by rw [Irq.step, hd], hlow, by omega, fun line hline => ?_⟩
    rw [hlast, Call.line, hd]
    exact h.route line hline
  obtain ⟨r, heq, hr⟩ :=
    @enable_eq η c ⟨s.virqAlloc + 1, update s.virqTable (s.virqAlloc - 32) (some call.handler),
    s.registers⟩ call d s.virqAlloc hcount hd
  refine ⟨_, by rw [Irq.step, hd]; exact if_pos (by omega), ?_⟩
  rw [heq]
  refine ⟨by dsimp only; omega, by dsimp only; omega, fun line hline => ?_⟩
  dsimp only
  rw [hr line hline, hlast]
  split_ifs with hline'
  · exact .inr ⟨s.virqAlloc, by omega, hlow, by rw [Nat.mod_eq_of_lt (by omega)], update_self ..⟩
  · refine (h.route line hline).imp_right fun ⟨v, hv, hle, hreg, htable⟩ =>
      ⟨v, by omega, hle, hreg, ?_⟩
    rw [update_of_ne (by omega), htable]

/-- **Interrupts reach their handlers.** -/
theorem interrupts_routed (hcount : c.redirEntryCount ≤ 120) (calls : List (Call η))
    (hlen : calls.length ≤ 96) :
    ∃ s, run (step c) init calls = some s ∧ ∀ line < c.redirEntryCount, interrupt s line =
    handlerOf c calls line := by
  have hinv : ∃ s, run (step c) init calls = some s ∧ Inv c s calls := by
    induction calls using reverseRecOn with
    | nil => exact ⟨init, rfl, le_rfl, le_rfl, fun _ _ => .inl ⟨rfl, by simp [init]⟩⟩
    | append_singleton calls call ih =>
      rw [length_append, length_singleton] at hlen
      obtain ⟨s, hrun, h⟩ := ih (by omega)
      obtain ⟨s', hstep, h'⟩ := h.step hcount (by omega) call
      exact ⟨s', by rw [run_append, hrun, bind_some, run, hstep]; rfl, h'⟩
  obtain ⟨s, hrun, h⟩ := hinv
  refine ⟨s, hrun, fun line hline => ?_⟩
  have hup := h.upper
  rw [interrupt]
  obtain ⟨hnone, hmask⟩ | ⟨v, hv, hle, hreg, htable⟩ := h.route line hline
  · rw [hnone, hmask]
    rfl
  · have hbit : (BitVec.ofNat 32 v).getLsbD 16 = false := by
      rw [BitVec.getLsbD_ofNat, Nat.testBit_lt_two_pow (by omega), Bool.and_false]
    have hvec : (BitVec.ofNat 32 v).toNat % 256 = v := by rw [BitVec.toNat_ofNat]; omega
    rw [hreg, hbit, hvec, if_neg Bool.false_ne_true, if_pos (by omega), irqDispatch, htable]

/-- The timer is on line 2, in place of 0. -/
def timerOverride : Config := ⟨[⟨.ioapic, 0, 24, 0⟩], fun i => if i = 0 then 2 else 0, 24⟩

theorem interrupts_routed_timer :
    ∃ s, run (step timerOverride) init [⟨none, 0, "timer", 0⟩, ⟨none, 1, "ps2", 0⟩] =
    some s ∧ interrupt s 2 = some "timer" := by
  obtain ⟨s, hrun, h⟩ :=
    interrupts_routed (c := timerOverride) (by decide) [⟨none, 0, "timer", 0⟩, ⟨none, 1, "ps2", 0⟩]
    (by decide)
  exact ⟨s, hrun, (h 2 (by decide)).trans rfl⟩

end Monolith.Irq
