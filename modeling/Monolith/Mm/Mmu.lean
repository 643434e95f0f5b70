import Monolith.Lib.Fallible
import Monolith.Lib.Forest
import Monolith.Mm.Pmm
import Monolith.Mm.Pte

/-!
# `arch/x86_64/mmu.c`: page tables

Four levels of tables of 512 entries, made as they are needed.  Physical memory is a row of 512
words for each frame; a table pointer is the frame it points into through the direct map.  The
functions are those of the source.

The tables of all roots together are a `Forest` over that memory (`Tables`): a user root owns what
is below its entries 0 to 255, and shares what is below the others with the kernel root `K`.
-/

namespace Monolith.Mm

open Fallible TableForest Option Function

/-! ## The functions -/

/-- Physical memory and its allocator. -/
structure MmState where
  /-- The words of each frame. -/
  mem : Nat → Fin 512 → BitVec 64
  /-- Who has which frame. -/
  pmm : Pmm

/-- `get_pagetable_index` -/
def getPagetableIndex (address : BitVec 64) (level : Nat) : Fin 512 :=
  let shift := 12 + (level - 1) * 9
  Fin.ofNat 512 ((address &&& (0x1ff#64 <<< shift)) >>> shift).toNat

/-- The table that an entry points at. -/
def pteChild (raw : BitVec 64) : Option Nat :=
  if has raw ptePresent ∧ pteAddress raw ≠ 0 then some (frameOf (pteAddress raw)) else none

/-- `get_pte` -/
def getPte (m : MmState) (table : Nat) (index : Fin 512) : Option Nat :=
  pteChild (m.mem table index)

/-- `create_pte` -/
def createPte (m : MmState) (table : Nat) (index : Fin 512) (flags : BitVec 64) :
    Except MmFault (Nat × MmState) := do
  let (ptPhys, pmm) ← pmmAllocate m.pmm
  let pt := frameOf ptPhys
  let mem := update m.mem pt fun _ => 0
  return (pt,
    { mem := write mem table index (ptPhys &&& pageMask4K ||| flags ||| ptePresent), pmm := pmm })

/-- `get_or_create_pte` -/
def getOrCreatePte (m : MmState) (table : Nat) (index : Fin 512) (flags : BitVec 64) :
    Except MmFault (Nat × MmState) :=
  match getPte m table index with
  | some pte => .ok (pte, m)
  | none => createPte m table index flags

/-- `mmu_map` -/
def mmuMap (m : MmState) (table : Nat) (phys virt : BitVec 64) (prot flags : BitVec 32) :
    Except MmFault MmState := do
  let (pdpt, m) ← getOrCreatePte m table (getPagetableIndex virt 4) secflags
  let (pd, m) ← getOrCreatePte m pdpt (getPagetableIndex virt 3) secflags
  let (pt, m) ← getOrCreatePte m pd (getPagetableIndex virt 2) secflags
  return { m with mem := write m.mem pt (getPagetableIndex virt 1) (pteOf phys prot flags) }

/-- `mmu_map_range` -/
def mmuMapRange (m : MmState) (table : Nat) (phys virt length : BitVec 64)
    (prot flags : BitVec 32) : Except MmFault MmState :=
  forRange (fun k m => mmuMap m table (pageAt phys k) (pageAt virt k) prot flags) 0
    (pageCount length) m

/-- A table pointer that is about to be followed. -/
def deref (table : Option Nat) : Except MmFault Nat :=
  match table with
  | some t => .ok t
  | none => .error .nullTable

/-- `mmu_unmap`, which looks at no pointer before it follows it. -/
def mmuUnmap (m : MmState) (table : Nat) (virt : BitVec 64) : Except MmFault MmState := do
  let pdpt ← deref (getPte m table (getPagetableIndex virt 4))
  let pd ← deref (getPte m pdpt (getPagetableIndex virt 3))
  let pt ← deref (getPte m pd (getPagetableIndex virt 2))
  return { m with mem := write m.mem pt (getPagetableIndex virt 1) 0 }

/-- `mmu_get_phys` -/
def mmuGetPhys (m : MmState) (table : Nat) (virt : BitVec 64) : VmMapping :=
  match getPte m table (getPagetableIndex virt 4) with
  | none => .unmapped
  | some pdpt =>
    match getPte m pdpt (getPagetableIndex virt 3) with
    | none => .unmapped
    | some pd =>
      match getPte m pd (getPagetableIndex virt 2) with
      | none => .unmapped
      | some pt => mappingOf (m.mem pt (getPagetableIndex virt 1))

/-- `mmu_new_pgdir` -/
def mmuNewPgdir (m : MmState) : Except MmFault (Nat × MmState) := do
  let (phys, pmm) ← pmmAllocate m.pmm
  return (frameOf phys, { mem := update m.mem (frameOf phys) fun _ => 0, pmm := pmm })

/-- One loop of `mmu_destroy`: every table that is entered in the first `n` entries of `table` is
taken apart by `below`, freed, and its entry is cleared. -/
def destroyEntries (below : MmState → Nat → Except MmFault MmState) (n : Nat) (m : MmState)
    (table : Nat) : Except MmFault MmState :=
  forRange (fun i m =>
    if has (m.mem table (Fin.ofNat 512 i)) ptePresent then do
      let m ← below m (frameOf (pteAddress (m.mem table (Fin.ofNat 512 i))))
      let pmm ← pmmFree m.pmm (pteAddress (m.mem table (Fin.ofNat 512 i)))
      return { mem := write m.mem table (Fin.ofNat 512 i) 0, pmm := pmm }
    else .ok m) 0 n m

/-- `mmu_destroy`.  The higher half is cloned into all spaces and stays. -/
def mmuDestroy (m : MmState) (root : Nat) : Except MmFault MmState := do
  let m ← destroyEntries (destroyEntries (destroyEntries (fun m _ => .ok m) 512) 512) 256 m root
  let pmm ← pmmFree m.pmm (frameAddr root)
  return { m with pmm := pmm }

/-- `mmu_clone` -/
def mmuClone (m : MmState) (source dest : Nat) (prot : BitVec 32) : MmState :=
  let start := if has prot protUser then 0 else 256
  { m with
    mem := update m.mem dest fun i => if start ≤ i.val then m.mem source i else m.mem dest i }

/-- The root that `vm_userspace_new` makes: `mmu_new_pgdir`, and `mmu_clone` with `PROT_NONE`. -/
def newUserRoot (m : MmState) (kernel : Nat) : Except MmFault (Nat × MmState) := do
  let (root, m) ← mmuNewPgdir m
  return (root, mmuClone m kernel root 0)

/-! ## Page numbers -/

theorem getPagetableIndex_val (address : BitVec 64) {level : Nat} (hl : level ≤ 4) :
    (getPagetableIndex address level).val = address.toNat / 2 ^ (12 + (level - 1) * 9) % 512 := by
  have hmask : ∀ l ≤ 4, (0x1ff#64 <<< (12 + (l - 1) * 9)) >>> (12 + (l - 1) * 9) = 0x1ff#64 := by
    decide
  simp only [getPagetableIndex, Fin.val_ofNat]
  rw [BitVec.ushiftRight_and_distrib, hmask level hl, BitVec.toNat_and, BitVec.toNat_ushiftRight,
    Nat.shiftRight_eq_div_pow]
  have hand := Nat.and_two_pow_sub_one_eq_mod (address.toNat / 2 ^ (12 + (level - 1) * 9)) 9
  rw [show BitVec.toNat 0x1ff#64 = 2 ^ 9 - 1 from rfl, hand]
  exact Nat.mod_mod _ _

/-- The 36-bit page number of an address. -/
def vpn (virt : BitVec 64) : Nat := virt.toNat / 4096 % 2 ^ 36

/-- The indices that lead to the last table on the way to an address. -/
def tablePath (virt : BitVec 64) : List (Fin 512) :=
  [getPagetableIndex virt 4, getPagetableIndex virt 3, getPagetableIndex virt 2]

variable {u v : BitVec 64}

/-- **An address is its path**, up to the bits that the page tables do not look at. -/
theorem tablePath_eq_iff :
    (tablePath u = tablePath v ∧ getPagetableIndex u 1 = getPagetableIndex v 1) ↔
    vpn u = vpn v := by
  simp only [tablePath, List.cons.injEq, and_true, Fin.ext_iff, getPagetableIndex_val _ (le_refl 4),
    getPagetableIndex_val _ (by decide : 3 ≤ 4), getPagetableIndex_val _ (by decide : 2 ≤ 4),
    getPagetableIndex_val _ (by decide : 1 ≤ 4), vpn]
  norm_num
  omega

/-! ## The forest of all page tables -/

/-- What the tables look like.  The subtrees below the upper half of any root belong to the kernel
root `K`. -/
def shape (K : Nat) : Shape Nat (Fin 512) (BitVec 64) where
  child := pteChild
  zero := 0
  child_zero := by decide
  depth := 3
  home r i := if 256 ≤ i.val then K else r

/-- The last table on the way from a root to an address. -/
def leafTable (K : Nat) (m : MmState) (r : Nat) (virt : BitVec 64) : Option Nat :=
  walk (shape K) m.mem r (tablePath virt)

/-- The page-table entry of an address, zero where there is none. -/
def pte (K : Nat) (m : MmState) (r : Nat) (virt : BitVec 64) : BitVec 64 :=
  entry (shape K) m.mem r (tablePath virt) (getPagetableIndex virt 1)

abbrev Labels := Nat → Option (Nat × List (Fin 512))

/-- **The invariant of the page tables**: they are a forest, of frames that are in use. -/
structure Tables (K : Nat) (m : MmState) (lab : Labels) : Prop where
  forest : Forest (shape K) m.mem lab
  frame : ∀ f l, lab f = some l → FrameOk f ∧ m.pmm.isFree f = false ∧ f / 64 < m.pmm.bitmap.length
  pmmOk : m.pmm.Ok

def IsRoot (lab : Labels) (r : Nat) : Prop := lab r = some (r, [])

/-- The three pointers that the functions follow are a walk. -/
theorem leafTable_eq (K : Nat) (m : MmState) (r : Nat) (virt : BitVec 64) :
    leafTable K m r virt = (getPte m r (getPagetableIndex virt 4)).bind fun pdpt =>
      (getPte m pdpt (getPagetableIndex virt 3)).bind fun pd =>
      getPte m pd (getPagetableIndex virt 2) := by
  simp only [leafTable, tablePath, walk_cons, walk_nil, bind_fun_some]
  rfl

theorem mmuGetPhys_eq (K : Nat) (m : MmState) (r : Nat) (virt : BitVec 64) : mmuGetPhys m r virt =
      match leafTable K m r virt with
      | none => .unmapped
      | some t => mappingOf (m.mem t (getPagetableIndex virt 1)) := by
  rw [leafTable_eq, mmuGetPhys]
  rcases getPte m r (getPagetableIndex virt 4) with _ | pdpt
  · rfl
  simp only [bind_some]
  cases getPte m pdpt (getPagetableIndex virt 3) with
  | none => rfl
  | some pd => simp only [bind_some]

variable {K r : Nat} {m : MmState} {virt : BitVec 64}

theorem mmuGetPhys_of_leafTable {t : Nat} (h : leafTable K m r virt = some t) :
    mmuGetPhys m r virt = mappingOf (pte K m r virt) := by
  rw [mmuGetPhys_eq K, h, pte, entry_of_walk h]

theorem mmuGetPhys_of_none (h : leafTable K m r virt = none) : mmuGetPhys m r virt = .unmapped := by
  rw [mmuGetPhys_eq K, h]

theorem pte_of_none (h : leafTable K m r virt = none) : pte K m r virt = 0 := entry_of_none h _

theorem pte_of_vpn (h : vpn u = vpn v) : pte K m r u = pte K m r v := by
  obtain ⟨hpath, hidx⟩ := tablePath_eq_iff.2 h
  rw [pte, hpath, hidx, pte]

theorem pte_of_zero (h : m.mem r (getPagetableIndex virt 4) = 0) : pte K m r virt = 0 := by
  refine pte_of_none ?_
  rw [leafTable, tablePath, walk_cons, h]
  exact congrArg (bind · _) (shape K).child_zero

end Monolith.Mm
