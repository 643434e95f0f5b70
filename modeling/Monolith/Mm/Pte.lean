import Monolith.Mm.Defs
import Mathlib.Tactic.IntervalCases

/-!
# Page-table entries

`convert_vm_params` turns protection bits and flags into the bits of a page-table entry, `mmu_map`
puts the frame next to them, and `mmu_get_phys` reads the three back.  The masks on the way in and
out differ (`page_mask_4K` leaves out the bits 48 to 51 and keeps the ones above, `pte_address` has
it the other way round); for a frame that an entry can name they lose nothing, which is
`mappingOf_pteOf`.
-/

namespace Monolith.Mm

open BitVec

/-! ## The bits -/

def ptePresent : BitVec 64 := 0x1
def pteWritable : BitVec 64 := 0x2
def pteUser : BitVec 64 := 0x4
def pteWritecombining : BitVec 64 := 0x8
def pteCacheDisable : BitVec 64 := 0x10
def pteOwner : BitVec 64 := 0x200
def pteNoexec : BitVec 64 := 0x8000000000000000

def pageMask4K : BitVec 64 := 0xfff0fffffffff000

def pteAddress (raw : BitVec 64) : BitVec 64 := raw &&& 0x000ffffffffff000

/-- The flags of an entry that points at a table. -/
def secflags : BitVec 64 := pteWritable ||| pteUser

def convertVmParams (prot flags : BitVec 32) : BitVec 64 :=
  (if has prot protRead then ptePresent else 0) |||
  (if has prot protWrite then pteWritable else 0) |||
  (if !has prot protExec then pteNoexec else 0) |||
  (if has prot protUser then pteUser else 0) |||
  (if has prot protUncached then pteCacheDisable else 0) |||
  (if has prot protWritecombine then pteWritecombining else 0) |||
  (if has flags vmFlagOwner then pteOwner else 0)

/-- The entry that `mmu_map` writes. -/
def pteOf (phys : BitVec 64) (prot flags : BitVec 32) : BitVec 64 :=
  phys &&& pageMask4K ||| convertVmParams prot flags

structure VmMapping where
  base : BitVec 64
  prot : BitVec 32
  flags : BitVec 32
  present : Bool
  deriving DecidableEq

/-- What `mmu_get_phys` returns where there is no table. -/
def VmMapping.unmapped : VmMapping := { base := 0, prot := 0, flags := 0, present := false }

/-- What `mmu_get_phys` reads in an entry. -/
def mappingOf (raw : BitVec 64) : VmMapping where
  base := pteAddress raw
  prot :=
    (if has raw ptePresent then protRead else 0) |||
    (if has raw pteWritable then protWrite else 0) |||
    (if !has raw pteNoexec then protExec else 0) |||
    (if has raw pteUser then protUser else 0) |||
    (if has raw pteCacheDisable then protUncached else 0) |||
    (if has raw pteWritecombining then protWritecombine else 0)
  flags := if has raw pteOwner then vmFlagOwner else 0
  present := has raw ptePresent

/-! ## Reading single bits -/

variable {w k : Nat}

theorem has_twoPow (x : BitVec w) (hk : k < w) : has x (BitVec.twoPow w k) = x.getLsbD k := by
  rw [has, and_twoPow]
  rcases hx : x.getLsbD k with _ | _
  · simp
  have hne : twoPow w k ≠ 0 := by
    intro h0
    have hbit := congrArg (fun y => getLsbD y k) h0
    simp [hk] at hbit
  simpa using hne

section

variable (x : BitVec 64)

theorem has_ptePresent : has x ptePresent = x.getLsbD 0 := has_twoPow x (by decide : 0 < 64)
theorem has_pteWritable : has x pteWritable = x.getLsbD 1 := has_twoPow x (by decide : 1 < 64)
theorem has_pteUser : has x pteUser = x.getLsbD 2 := has_twoPow x (by decide : 2 < 64)
theorem has_pteWritecombining : has x pteWritecombining = x.getLsbD 3 :=
  has_twoPow x (by decide : 3 < 64)
theorem has_pteCacheDisable : has x pteCacheDisable = x.getLsbD 4 :=
  has_twoPow x (by decide : 4 < 64)
theorem has_pteOwner : has x pteOwner = x.getLsbD 9 := has_twoPow x (by decide : 9 < 64)
theorem has_pteNoexec : has x pteNoexec = x.getLsbD 63 := has_twoPow x (by decide : 63 < 64)

end

section

variable (x : BitVec 32)

theorem has_protRead : has x protRead = x.getLsbD 0 := has_twoPow x (by decide : 0 < 32)
theorem has_protWrite : has x protWrite = x.getLsbD 1 := has_twoPow x (by decide : 1 < 32)
theorem has_protExec : has x protExec = x.getLsbD 2 := has_twoPow x (by decide : 2 < 32)
theorem has_protUser : has x protUser = x.getLsbD 3 := has_twoPow x (by decide : 3 < 32)
theorem has_protUncached : has x protUncached = x.getLsbD 4 := has_twoPow x (by decide : 4 < 32)
theorem has_protWritecombine : has x protWritecombine = x.getLsbD 5 :=
  has_twoPow x (by decide : 5 < 32)
theorem has_vmFlagOwner : has x vmFlagOwner = x.getLsbD 4 := has_twoPow x (by decide : 4 < 32)

end

theorem getLsbD_ite (b : Bool) (hk : k < w) (i : Nat) :
    (if b then BitVec.twoPow w k else 0).getLsbD i = (b && decide (i = k)) := by
  cases b with
  | false => simp
  | true => simp [getLsbD_twoPow, hk, eq_comm]

theorem getLsbD_convertVmParams (prot flags : BitVec 32) (i : Nat) :
    (convertVmParams prot flags).getLsbD i =
      (has prot protRead && decide (i = 0) || has prot protWrite && decide (i = 1) ||
        !has prot protExec && decide (i = 63) || has prot protUser && decide (i = 2) ||
        has prot protUncached && decide (i = 4) || has prot protWritecombine && decide (i = 3) ||
        has flags vmFlagOwner && decide (i = 9)) := by
  simp only [convertVmParams, getLsbD_or]
  rw [← getLsbD_ite (has prot protRead) (by decide : 0 < 64),
    ← getLsbD_ite (has prot protWrite) (by decide : 1 < 64),
    ← getLsbD_ite (!has prot protExec) (by decide : 63 < 64),
    ← getLsbD_ite (has prot protUser) (by decide : 2 < 64),
    ← getLsbD_ite (has prot protUncached) (by decide : 4 < 64),
    ← getLsbD_ite (has prot protWritecombine) (by decide : 3 < 64),
    ← getLsbD_ite (has flags vmFlagOwner) (by decide : 9 < 64)]
  rfl

theorem getLsbD_pageMask4K : ∀ i < 64, pageMask4K.getLsbD i = decide (12 ≤ i ∧ (i < 48 ∨ 52 ≤ i)) :=
  by decide

theorem getLsbD_addressMask :
    ∀ i < 64, (0x000ffffffffff000 : BitVec 64).getLsbD i = decide (12 ≤ i ∧ i < 52) := by
  decide

variable {i n : Nat} {phys : BitVec 64}

theorem getLsbD_pteOf_low (phys : BitVec 64) (prot flags : BitVec 32) (hi : i < 12) :
    (pteOf phys prot flags).getLsbD i = (convertVmParams prot flags).getLsbD i := by
  rw [pteOf, getLsbD_or, getLsbD_and, getLsbD_pageMask4K i (by omega)]
  simp [show ¬ 12 ≤ i by omega]

/-! ## What is written is read back -/

/-- The address of a frame that an entry can name. -/
def PhysOk (phys : BitVec 64) : Prop := phys.toNat % 4096 = 0 ∧ phys.toNat < 2 ^ 46

instance (phys : BitVec 64) : Decidable (PhysOk phys) := inferInstanceAs (Decidable (_ ∧ _))

theorem PhysOk.getLsbD_eq_false (h : PhysOk phys) (hi : i < 12 ∨ 46 ≤ i) :
    phys.getLsbD i = false := by
  rw [getLsbD]
  rcases hi with hi | hi
  · have hmod := Nat.testBit_mod_two_pow phys.toNat 12 i
    rw [h.1] at hmod
    simpa [hi] using hmod.symm
  · exact Nat.testBit_lt_two_pow (lt_of_lt_of_le h.2 (Nat.pow_le_pow_right (by decide) hi))

theorem getLsbD_pteOf (prot flags : BitVec 32) (h : PhysOk phys) (hi : i < 64) :
    (pteOf phys prot flags).getLsbD i =
      (phys.getLsbD i || (convertVmParams prot flags).getLsbD i) := by
  rw [pteOf, getLsbD_or, getLsbD_and, getLsbD_pageMask4K i hi]
  by_cases hmid : i < 12 ∨ 46 ≤ i
  · rw [h.getLsbD_eq_false hmid, Bool.false_and]
  · rw [decide_eq_true (show 12 ≤ i ∧ (i < 48 ∨ 52 ≤ i) by omega), Bool.and_true]

/-- **The address comes back.**  This is about any bits next to it that are not address bits. -/
theorem pteAddress_or {c : BitVec 64} (h : PhysOk phys)
    (hc : ∀ i, 12 ≤ i → i < 52 → c.getLsbD i = false) :
    pteAddress (phys &&& pageMask4K ||| c) = phys := by
  refine eq_of_getLsbD_eq fun i hi => ?_
  rw [pteAddress, getLsbD_and, getLsbD_or, getLsbD_and, getLsbD_pageMask4K i hi,
    getLsbD_addressMask i hi]
  by_cases hmid : i < 12 ∨ 46 ≤ i
  · rw [h.getLsbD_eq_false hmid, Bool.false_and, Bool.false_or]
    by_cases hlow : 12 ≤ i ∧ i < 52
    · rw [hc i hlow.1 hlow.2, Bool.false_and]
    · rw [decide_eq_false hlow, Bool.and_false]
  · rw [hc i (by omega) (by omega), decide_eq_true (show 12 ≤ i ∧ (i < 48 ∨ 52 ≤ i) by omega),
      decide_eq_true (show 12 ≤ i ∧ i < 52 by omega)]
    simp

theorem pteAddress_pteOf (prot flags : BitVec 32) (h : PhysOk phys) :
    pteAddress (pteOf phys prot flags) = phys := by
  refine pteAddress_or h fun i hlo hhi => ?_
  rw [getLsbD_convertVmParams]
  simp [show i ≠ 0 by omega, show i ≠ 1 by omega, show i ≠ 63 by omega, show i ≠ 2 by omega,
    show i ≠ 4 by omega, show i ≠ 3 by omega, show i ≠ 9 by omega]

/-- The bits of an address that an entry can hold. -/
def frameMask : BitVec 64 := 0x0000fffffffff000

section

variable (phys) (prot flags : BitVec 32)

theorem pteAddress_pteOf_and : pteAddress (pteOf phys prot flags) = phys &&& frameMask := by
  have hmask : ∀ i < 64, frameMask.getLsbD i = decide (12 ≤ i ∧ i < 48) := by decide
  refine eq_of_getLsbD_eq fun i hi => ?_
  rw [pteAddress, pteOf, getLsbD_and, getLsbD_or, getLsbD_and, getLsbD_and,
    getLsbD_pageMask4K i hi, getLsbD_addressMask i hi, hmask i hi, getLsbD_convertVmParams]
  by_cases hmid : 12 ≤ i ∧ i < 52
  · simp only [show i ≠ 0 by omega, show i ≠ 1 by omega, show i ≠ 63 by omega, show i ≠ 2 by omega,
      show i ≠ 4 by omega, show i ≠ 3 by omega, show i ≠ 9 by omega, decide_false, Bool.and_false,
      Bool.or_false, hmid, decide_true, Bool.and_true, true_and]
    rw [decide_eq_decide.2 (by omega : (i < 48 ∨ 52 ≤ i) ↔ i < 48)]
  · rw [decide_eq_false hmid, Bool.and_false, decide_eq_false (by omega), Bool.and_false]

theorem has_pteOf_writable : has (pteOf phys prot flags) pteWritable = has prot protWrite := by
  rw [has_pteWritable, getLsbD_pteOf_low _ _ _ (by decide), getLsbD_convertVmParams]
  simp

theorem has_pteOf_owner : has (pteOf phys prot flags) pteOwner = has flags vmFlagOwner := by
  rw [has_pteOwner, getLsbD_pteOf_low _ _ _ (by decide), getLsbD_convertVmParams]
  simp

theorem has_pteOf_present : has (pteOf phys prot flags) ptePresent = has prot protRead := by
  rw [has_ptePresent, getLsbD_pteOf_low _ _ _ (by decide), getLsbD_convertVmParams]
  simp

theorem has_pteOf_user : has (pteOf phys prot flags) pteUser = has prot protUser := by
  rw [has_pteUser, getLsbD_pteOf_low _ _ _ (by decide), getLsbD_convertVmParams]
  simp

theorem has_pteOf_uncached :
    has (pteOf phys prot flags) pteCacheDisable = has prot protUncached := by
  rw [has_pteCacheDisable, getLsbD_pteOf_low _ _ _ (by decide), getLsbD_convertVmParams]
  simp

theorem has_pteOf_writecombining :
    has (pteOf phys prot flags) pteWritecombining = has prot protWritecombine := by
  rw [has_pteWritecombining, getLsbD_pteOf_low _ _ _ (by decide), getLsbD_convertVmParams]
  simp

end

/-- Bit 63 is above `page_mask_4K`: here the address has to be one that an entry can name. -/
theorem has_pteOf_noexec (prot flags : BitVec 32) (h : PhysOk phys) :
    has (pteOf phys prot flags) pteNoexec = !has prot protExec := by
  rw [has_pteNoexec, getLsbD_pteOf _ _ h (by decide), h.getLsbD_eq_false (by decide),
    getLsbD_convertVmParams]
  simp

theorem getLsbD_prots (r w x u n c : Bool) (i : Nat) :
    ((if r then protRead else 0) ||| (if w then protWrite else 0) |||
    (if x then protExec else 0) |||
      (if u then protUser else 0) ||| (if n then protUncached else 0) |||
      (if c then protWritecombine else 0)).getLsbD i =
      (r && decide (i = 0) || w && decide (i = 1) || x && decide (i = 2) || u && decide (i = 3) ||
        n && decide (i = 4) || c && decide (i = 5)) := by
  simp only [getLsbD_or]
  rw [← getLsbD_ite r (by decide : 0 < 32), ← getLsbD_ite w (by decide : 1 < 32),
    ← getLsbD_ite x (by decide : 2 < 32), ← getLsbD_ite u (by decide : 3 < 32),
    ← getLsbD_ite n (by decide : 4 < 32), ← getLsbD_ite c (by decide : 5 < 32)]
  rfl

theorem prot_eq_or (prot : BitVec 32) :
    ((if has prot protRead then protRead else 0) |||
    (if has prot protWrite then protWrite else 0) |||
      (if has prot protExec then protExec else 0) |||
      (if has prot protUser then protUser else 0) |||
      (if has prot protUncached then protUncached else 0) |||
      (if has prot protWritecombine then protWritecombine else 0)) = prot &&& 63 := by
  have hmask : ∀ i < 32, (63 : BitVec 32).getLsbD i = decide (i < 6) := by decide
  refine eq_of_getLsbD_eq fun i hi => ?_
  rw [getLsbD_prots, getLsbD_and, hmask i hi, has_protRead, has_protWrite, has_protExec,
    has_protUser, has_protUncached, has_protWritecombine]
  by_cases h6 : i < 6
  · interval_cases i <;> simp
  · simp [h6, show i ≠ 0 by omega, show i ≠ 1 by omega, show i ≠ 2 by omega, show i ≠ 3 by omega,
      show i ≠ 4 by omega, show i ≠ 5 by omega]

/-- **What `mmu_map` writes, `mmu_get_phys` reads**: the frame, the six protection bits, and who
owns the frame. -/
theorem mappingOf_pteOf (prot flags : BitVec 32) (h : PhysOk phys) :
    mappingOf (pteOf phys prot flags) =
      { base := phys
        prot := prot &&& 63
        flags := flags &&& vmFlagOwner
        present := has prot protRead } := by
  have howner : (if has flags vmFlagOwner then vmFlagOwner else 0) = flags &&& vmFlagOwner := by
    rw [has_vmFlagOwner]
    exact (and_twoPow flags 4).symm
  simp only [mappingOf, pteAddress_pteOf prot flags h, has_pteOf_present, has_pteOf_writable,
    has_pteOf_noexec prot flags h, has_pteOf_user, has_pteOf_uncached, has_pteOf_writecombining,
    has_pteOf_owner, Bool.not_not, howner, prot_eq_or]

theorem has_mappingOf_write (raw : BitVec 64) :
    has (mappingOf raw).prot protWrite = has raw pteWritable := by
  rw [has_protWrite, mappingOf, getLsbD_prots]
  simp

/-- **An entry gives no more than it was written for**, whatever the address in it. -/
theorem prot_mappingOf_pteOf (phys : BitVec 64) (prot flags : BitVec 32) :
    (mappingOf (pteOf phys prot flags)).prot &&& ~~~prot = 0 := by
  -- bits of the address can take the permission to execute away, but not give it
  have hexec : has (pteOf phys prot flags) pteNoexec = false → prot.getLsbD 2 = true := by
    intro h
    rw [has_pteNoexec, pteOf, getLsbD_or, Bool.or_eq_false_iff, getLsbD_convertVmParams,
      has_protExec] at h
    simpa using h.2
  refine eq_of_getLsbD_eq fun i hi => ?_
  rw [getLsbD_and, mappingOf, getLsbD_prots, has_pteOf_present, has_pteOf_writable,
    has_pteOf_user, has_pteOf_uncached, has_pteOf_writecombining, has_protRead, has_protWrite,
    has_protUser, has_protUncached, has_protWritecombine]
  by_cases h6 : i < 6
  · interval_cases i
    all_goals simp
    exact hexec
  · simp [show i ≠ 0 by omega, show i ≠ 1 by omega, show i ≠ 2 by omega, show i ≠ 3 by omega,
      show i ≠ 4 by omega, show i ≠ 5 by omega]

/-! ## Frames and their addresses -/

theorem toNat_frameAddr (h : n < 2 ^ 34) : (frameAddr n).toNat = n * 4096 :=
  toNat_frameAddr_of_lt (by omega)

theorem frameOf_frameAddr (h : n < 2 ^ 34) : frameOf (frameAddr n) = n :=
  frameOf_frameAddr_of_lt (by omega)

theorem physOk_frameAddr (h : n < 2 ^ 34) : PhysOk (frameAddr n) := by
  rw [PhysOk, toNat_frameAddr h]
  omega

theorem frameAddr_ne_zero (h : FrameOk n) : frameAddr n ≠ 0 := by
  obtain ⟨hpos, hlt⟩ := h
  intro h0
  have hnat := congrArg BitVec.toNat h0
  rw [toNat_frameAddr hlt, show BitVec.toNat (0 : BitVec 64) = 0 from rfl] at hnat
  omega

end Monolith.Mm
