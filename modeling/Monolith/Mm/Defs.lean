import Mathlib.Data.BitVec
import Mathlib.Tactic.Ring

/-!
# Addresses, pages and the constants of `mm/`

Addresses and lengths are 64-bit words, with the wrap-around of the source; protection bits and
flags are 32-bit words.  A frame is named by its number, the physical address of its first byte over
the page size.
-/

namespace Monolith.Mm

/-! ## Pages -/

def pageSize : BitVec 64 := 0x1000

/-- `align_up`, to a page. -/
def alignUp (value : BitVec 64) : BitVec 64 := (value + pageSize - 1) &&& ~~~(pageSize - 1)

/-- `align_down`, to a page. -/
def alignDown (value : BitVec 64) : BitVec 64 := value &&& ~~~(pageSize - 1)

/-- How often a loop runs that takes a page off `length` in every round, until nothing is left. -/
def pageCount (length : BitVec 64) : Nat := (length.toNat + 4095) / 4096

/-- The address `k` pages on. -/
def pageAt (addr : BitVec 64) (k : Nat) : BitVec 64 := addr + BitVec.ofNat 64 k * pageSize

/-- The frame that a physical address lies in. -/
def frameOf (addr : BitVec 64) : Nat := addr.toNat / 4096

def frameAddr (n : Nat) : BitVec 64 := BitVec.ofNat 64 (n * 4096)

/-- The frames that the direct map reaches and a page-table entry can name: the ones below 2^46
bytes, without frame 0, which stands for none. -/
def FrameOk (n : Nat) : Prop := 0 < n ∧ n < 2 ^ 34

theorem alignDown_eq (v : BitVec 64) : alignDown v = (v >>> 12) <<< 12 := by
  have hmask : ∀ i < 64, (~~~(pageSize - 1)).getLsbD i = decide (12 ≤ i) := by decide
  refine BitVec.eq_of_getLsbD_eq fun i hi => ?_
  rw [alignDown, BitVec.getLsbD_and, hmask i hi]
  by_cases h : 12 ≤ i
  · simp [h, hi, Nat.not_lt.2 h]
  · simp [h, lt_of_not_ge h]

theorem toNat_alignDown (v : BitVec 64) : (alignDown v).toNat = v.toNat / 4096 * 4096 := by
  rw [alignDown_eq, BitVec.toNat_shiftLeft, BitVec.toNat_ushiftRight]
  omega

theorem toNat_alignUp {v : BitVec 64} (h : v.toNat + 4095 < 2 ^ 64) :
    (alignUp v).toNat = (v.toNat + 4095) / 4096 * 4096 := by
  have hup : alignUp v = alignDown (v + 4095) := by
    rw [alignUp, BitVec.sub_eq_add_neg, BitVec.add_assoc]
    rfl
  rw [hup, toNat_alignDown, BitVec.toNat_add]
  have hmod : (v.toNat + (4095 : BitVec 64).toNat) % 2 ^ 64 = v.toNat + 4095 := Nat.mod_eq_of_lt h
  rw [hmod]

/-- Physical addresses are 64-bit words, so there are fewer than 2^52 frames. -/
theorem frameOf_lt (addr : BitVec 64) : frameOf addr < 2 ^ 52 := by
  rw [frameOf]
  omega

theorem toNat_frameAddr_of_lt {n : Nat} (h : n < 2 ^ 52) : (frameAddr n).toNat = n * 4096 := by
  rw [frameAddr, BitVec.toNat_ofNat]
  omega

theorem frameOf_frameAddr_of_lt {n : Nat} (h : n < 2 ^ 52) : frameOf (frameAddr n) = n := by
  rw [frameOf, toNat_frameAddr_of_lt h]
  omega

/-! ## Memory layout -/

def vmUserspaceBase : BitVec 64 := 0x10000
def vmUserspaceEnd : BitVec 64 := 0x7fffffffffff
def vmDmapBase : BitVec 64 := 0xffff800000000000
def vmVmallocBase : BitVec 64 := 0xffffc00000000000
def vmKernelBase : BitVec 64 := 0xffffffff80000000

/-! ## Protection bits, flags, and what the processor says about a fault -/

def protRead : BitVec 32 := 1
def protWrite : BitVec 32 := 2
def protExec : BitVec 32 := 4
def protUser : BitVec 32 := 8
def protUncached : BitVec 32 := 16
def protWritecombine : BitVec 32 := 32

def vmFlagAllocate : BitVec 32 := 1
def vmFlagCow : BitVec 32 := 2
def vmFlagFile : BitVec 32 := 4
def vmFlagDevice : BitVec 32 := 8
def vmFlagOwner : BitVec 32 := 16
def vmFlagReplace : BitVec 32 := 32

def vmFaultPresent : BitVec 32 := 1
def vmFaultWrite : BitVec 32 := 2
def vmFaultUser : BitVec 32 := 4
def vmFaultFetch : BitVec 32 := 8

/-- `word & mask`, as a truth value. -/
def has {w : Nat} (word mask : BitVec w) : Bool := word &&& mask != 0

/-! ## What can go wrong -/

/-- Why a call does not come back: a panic, or an access through a pointer that leads nowhere. -/
inductive MmFault where
  /-- `pmm_allocate` finds no frame; the pages in use and left are printed. -/
  | outOfMemory (used free : BitVec 64)
  /-- `vm_space_map` of a device without a physical address. -/
  | deviceWithoutPhys
  /-- `vm_space_map` of a physical address that is no device. -/
  | physWithoutDevice
  /-- `pmm_free` of a frame that the bitmap does not have. -/
  | wildFree
  /-- `mmu_unmap` follows a table that is not there. -/
  | nullTable
  /-- A file without data pages has no page list to look at. -/
  | nullData
  /-- The copy of `ramfs_vm_fault` to an address that is still not present faults again. -/
  | copyFault
  /-- A call through a pointer that is null, or was never written. -/
  | wildCall
  /-- A list that does not end where it began. -/
  | brokenList
  deriving DecidableEq, Repr

end Monolith.Mm
