import Mathlib.Data.Finset.Card
import Mathlib.Data.Finset.Range
import Monolith.Mm.Defs

/-!
# `mm/pmm.c`: the allocator of frames

A bitmap with a set bit for every free frame.  `pmm_allocate` takes the lowest one, `pmm_free` sets
its bit again, whatever it was before.  `isFree` is what the bitmap represents: `pmmAllocate_spec`
and `pmmFree_spec` say what the two calls do to it, and nothing else about the bitmap is used later.
-/

namespace Monolith.Mm

open List Option Except

/-- The state of the allocator. -/
structure Pmm where
  /-- `pmm_bitmap` -/
  bitmap : List (BitVec 64)
  /-- `physmem_available`, in pages. -/
  available : BitVec 64
  /-- `physmem_used`, in pages. -/
  used : BitVec 64
  /-- History: some frame was freed while it was free.  The code keeps no such record. -/
  doubleFree : Bool

def Pmm.isFree (p : Pmm) (n : Nat) : Bool := (p.bitmap.getD (n / 64) 0).getLsbD (n % 64)

/-- The allocator only has frames that can be used for tables and mappings. -/
def Pmm.Ok (p : Pmm) : Prop := ∀ n, p.isFree n = true → FrameOk n

def builtinCtzll (word : BitVec 64) : Nat := (range 64).findIdx word.getLsbD

/-- The loop of `pmm_allocate`: the first word that is not zero, and its lowest bit. -/
def findFree : List (BitVec 64) → Option (Nat × Nat)
  | [] => none
  | word :: words =>
    if word = 0 then (findFree words).map fun r => (r.1 + 1, r.2) else some (0, builtinCtzll word)

/-- `pmm_allocate` -/
def pmmAllocate (p : Pmm) : Except MmFault (BitVec 64 × Pmm) :=
  match findFree p.bitmap with
  | none => .error (.outOfMemory p.used p.available)
  | some (i, index) => .ok (frameAddr (i * 64 + index),
      { p with
        bitmap := p.bitmap.modify i (· &&& ~~~(1#64 <<< index))
        available := p.available - 1
        used := p.used + 1 })

/-- `pmm_free` -/
def pmmFree (p : Pmm) (addr : BitVec 64) : Except MmFault Pmm :=
  let bmpOffset := frameOf addr / 64
  let bitOffset := frameOf addr % 64
  if bmpOffset < p.bitmap.length then
    .ok { bitmap := p.bitmap.modify bmpOffset (· ||| 1#64 <<< bitOffset)
          used := p.used - 1
          available := p.available + 1
          doubleFree := p.doubleFree || p.isFree (frameOf addr) }
  else .error .wildFree

/-! ## What they do -/

variable {word addr : BitVec 64} {words : List (BitVec 64)} {i index : Nat} {p p' : Pmm} {k n : Nat}

theorem builtinCtzll_spec (h : word ≠ 0) :
    builtinCtzll word < 64 ∧ word.getLsbD (builtinCtzll word) = true := by
  have hex : ∃ x ∈ range 64, word.getLsbD x = true := by
    by_contra hnone
    apply h
    refine BitVec.eq_of_getLsbD_eq fun i hi => ?_
    have hi' : word.getLsbD i ≠ true := fun hb => hnone ⟨i, mem_range.2 hi, hb⟩
    simpa using hi'
  have hlt : builtinCtzll word < (range 64).length := findIdx_lt_length_of_exists hex
  have hget : word.getLsbD ((range 64).get ⟨builtinCtzll word, hlt⟩) = true :=
    findIdx_getElem (w := hlt)
  rw [get_eq_getElem, getElem_range] at hget
  exact ⟨hlt, hget⟩

theorem builtinCtzll_least (h : k < builtinCtzll word) : word.getLsbD k = false := by
  have hnot := not_of_lt_findIdx h
  simpa using hnot

theorem findFree_spec (h : findFree words = some (i, index)) :
    i < words.length ∧ index < 64 ∧ (words.getD i 0).getLsbD index = true := by
  induction words generalizing i with
  | nil => cases h
  | cons word words ih =>
    rw [findFree] at h
    split_ifs at h with hw
    · rw [map_eq_some_iff] at h
      obtain ⟨⟨k, b⟩, hk, heq⟩ := h
      obtain ⟨rfl, rfl⟩ := heq
      obtain ⟨hlen, hb, hbit⟩ := ih hk
      exact ⟨by rw [length_cons]; omega, hb, by simpa using hbit⟩
    · rw [some_inj, Prod.mk.injEq] at h
      obtain ⟨hlt, hbit⟩ := builtinCtzll_spec hw
      rw [← h.1, ← h.2]
      exact ⟨by simp, hlt, hbit⟩

theorem findFree_least (h : findFree words = some (i, index)) (hn : n < i * 64 + index) :
    (words.getD (n / 64) 0).getLsbD (n % 64) = false := by
  induction words generalizing i n with
  | nil => cases h
  | cons word words ih =>
    rw [findFree] at h
    split_ifs at h with hw
    · obtain ⟨⟨k, b⟩, hk, heq⟩ := map_eq_some_iff.1 h
      obtain ⟨rfl, rfl⟩ := heq
      by_cases h64 : n < 64
      · rw [Nat.div_eq_of_lt h64, hw]
        exact BitVec.getLsbD_zero
      · have hprev := ih hk (n := n - 64) (by omega)
        rwa [show n / 64 = (n - 64) / 64 + 1 by omega, show n % 64 = (n - 64) % 64 by omega]
    · have hlt := (builtinCtzll_spec hw).1
      obtain ⟨rfl, rfl⟩ := h
      rw [Nat.div_eq_of_lt (by omega), getD_cons_zero]
      exact builtinCtzll_least (by omega)

theorem findFree_isSome (h : (words.getD i 0).getLsbD index = true) :
    (findFree words).isSome = true := by
  induction words generalizing i with
  | nil => simp at h
  | cons word words ih =>
    rw [findFree]
    split_ifs with hw
    · rcases i with _ | _
      · simp [hw] at h
      rw [isSome_map]
      exact ih (by simpa using h)
    · rfl

theorem getD_modify (hi : i < words.length) (f : BitVec 64 → BitVec 64) (k : Nat) :
    (words.modify i f).getD k 0 = if k = i then f (words.getD i 0) else words.getD k 0 := by
  rw [getD_eq_getElem?_getD, getElem?_modify]
  by_cases hk : k = i
  · simp [hk, getD_eq_getElem?_getD, getElem?_eq_getElem hi]
  · rw [if_neg hk]
    simp [Ne.symm hk]

theorem isFree_modify {m : Nat} {f : BitVec 64 → BitVec 64} (hm : m / 64 < p.bitmap.length)
    (hp : p'.bitmap = p.bitmap.modify (m / 64) f) (n : Nat) :
    p'.isFree n = if n / 64 = m / 64 then (f (p.bitmap.getD (m / 64) 0)).getLsbD
    (n % 64) else p.isFree n := by
  rw [Pmm.isFree, hp, getD_modify hm]
  split_ifs
  · rfl
  · rw [Pmm.isFree]

/-- **`pmm_allocate`** takes a free frame out, and touches no other. -/
theorem pmmAllocate_spec (h : pmmAllocate p = .ok (addr, p')) :
    ∃ n, addr = frameAddr n ∧ p.isFree n = true ∧ n / 64 < p.bitmap.length ∧
      (∀ m, p'.isFree m = (p.isFree m && decide (m ≠ n))) ∧
      p'.bitmap.length = p.bitmap.length ∧ p'.doubleFree = p.doubleFree := by
  rw [pmmAllocate] at h
  split at h
  · cases h
  rename_i i index hfind
  obtain ⟨hi, hindex, hbit⟩ := findFree_spec hfind
  rw [ok.injEq, Prod.mk.injEq] at h
  obtain ⟨haddr, rfl⟩ := h
  have hdiv : (i * 64 + index) / 64 = i := by omega
  have hmod : (i * 64 + index) % 64 = index := by omega
  refine ⟨i * 64 + index, haddr.symm, by rw [Pmm.isFree, hdiv, hmod, hbit], by omega, fun m => ?_,
    length_modify .., rfl⟩
  rw [isFree_modify (by rw [hdiv]; exact hi) (by rw [hdiv])]
  by_cases hm : m / 64 = (i * 64 + index) / 64
  · have heq : index = m % 64 ↔ m = i * 64 + index := by omega
    rw [Pmm.isFree, hm, BitVec.getLsbD_and, BitVec.getLsbD_not, ← BitVec.twoPow_eq,
      BitVec.getLsbD_twoPow]
    simp [Nat.mod_lt, hindex, heq]
  · rw [if_neg hm]
    have hne : m ≠ i * 64 + index := fun he => hm (by rw [he])
    simp [hne]

theorem pmmAllocate_least (h : pmmAllocate p = .ok (addr, p')) :
    ∃ n, addr = frameAddr n ∧ p.isFree n = true ∧ (∀ k < n, p.isFree k = false) ∧
      p'.available = p.available - 1 ∧ p'.used = p.used + 1 := by
  rw [pmmAllocate] at h
  split at h
  · cases h
  rename_i i index hfind
  obtain ⟨-, hindex, hbit⟩ := findFree_spec hfind
  rw [ok.injEq, Prod.mk.injEq] at h
  obtain ⟨haddr, rfl⟩ := h
  refine ⟨i * 64 + index, haddr.symm, ?_, fun k hk => findFree_least hfind hk, rfl, rfl⟩
  rw [Pmm.isFree, show (i * 64 + index) / 64 =
    i by omega, show (i * 64 + index) % 64 = index by omega, hbit]

theorem pmmAllocate_total (h : p.isFree n = true) : ∃ addr p', pmmAllocate p = .ok (addr, p') := by
  have hsome := findFree_isSome h
  rw [isSome_iff_exists] at hsome
  obtain ⟨r, hr⟩ := hsome
  rw [pmmAllocate, hr]
  exact ⟨_, _, rfl⟩

theorem pmmAllocate_error {e : MmFault} (h : pmmAllocate p = .error e) :
    e = .outOfMemory p.used p.available := by
  rw [pmmAllocate] at h
  split at h
  · exact (error.inj h).symm
  · cases h

/-- **`pmm_free`** puts the frame back, and records whether it was there already. -/
theorem pmmFree_spec (h : pmmFree p addr = .ok p') :
    (∀ m, p'.isFree m = (p.isFree m || decide (m = frameOf addr))) ∧
      p'.bitmap.length = p.bitmap.length ∧
      p'.doubleFree = (p.doubleFree || p.isFree (frameOf addr)) := by
  simp only [pmmFree] at h
  split at h
  · rename_i hlt
    rw [ok.injEq] at h
    rw [← h]
    refine ⟨fun m => ?_, length_modify .., rfl⟩
    rw [isFree_modify hlt rfl]
    by_cases hm : m / 64 = frameOf addr / 64
    · have heq : frameOf addr % 64 = m % 64 ↔ m = frameOf addr := by omega
      rw [Pmm.isFree, hm, BitVec.getLsbD_or, ← BitVec.twoPow_eq, BitVec.getLsbD_twoPow]
      simp [Nat.mod_lt, heq]
    · rw [if_neg hm]
      have hne : m ≠ frameOf addr := fun he => hm (by rw [he])
      simp [hne]
  · cases h

theorem pmmFree_counts (h : pmmFree p addr = .ok p') :
    p'.available = p.available + 1 ∧ p'.used = p.used - 1 := by
  simp only [pmmFree] at h
  split at h
  · rw [ok.injEq] at h
    rw [← h]
    exact ⟨rfl, rfl⟩
  · cases h

/-! ## How many frames are left -/

def Pmm.freeSet (p : Pmm) : Finset Nat :=
  {n ∈ Finset.range (64 * p.bitmap.length) | p.isFree n = true}

theorem Pmm.mem_freeSet (p : Pmm) (n : Nat) : n ∈ p.freeSet ↔ p.isFree n = true := by
  rw [Pmm.freeSet, Finset.mem_filter, Finset.mem_range, and_iff_right_iff_imp]
  intro hfree
  by_contra hlt
  rw [Pmm.isFree, getD_eq_getElem?_getD, getElem?_eq_none (by omega)] at hfree
  simp at hfree

/-- Where there are 64 frames, all that matters is that frame 0 is not free. -/
theorem Pmm.ok_of_word (h : p.bitmap = [word]) (hzero : word.getLsbD 0 = false) : p.Ok := by
  intro n hn
  have hmem := (p.mem_freeSet n).2 hn
  rw [Pmm.freeSet, Finset.mem_filter, Finset.mem_range, h, length_singleton] at hmem
  refine ⟨pos_of_ne_zero fun h0 => ?_, by omega⟩
  rw [h0, Pmm.isFree, h] at hn
  exact Bool.false_ne_true (hzero.symm.trans hn)

theorem card_freeSet_of_take (hn : p.isFree n = true)
    (hfree : ∀ m, p'.isFree m = (p.isFree m && decide (m ≠ n))) :
    p'.freeSet.card + 1 = p.freeSet.card := by
  have herase : p'.freeSet = p.freeSet.erase n := by
    ext m
    rw [Pmm.mem_freeSet, hfree, Finset.mem_erase, Pmm.mem_freeSet, Bool.and_eq_true,
      decide_eq_true_eq, and_comm]
  rw [herase, Finset.card_erase_add_one ((p.mem_freeSet n).2 hn)]

theorem pmmAllocate_card (h : k + 1 ≤ p.freeSet.card) :
    ∃ addr p', pmmAllocate p = .ok (addr, p') ∧ k ≤ p'.freeSet.card := by
  obtain ⟨n, hn⟩ := Finset.card_pos.1 (by omega : 0 < p.freeSet.card)
  obtain ⟨addr, p', halloc⟩ := pmmAllocate_total ((p.mem_freeSet n).1 hn)
  obtain ⟨x, -, hx, -, hfree, -⟩ := pmmAllocate_spec halloc
  have hcard := card_freeSet_of_take hx hfree
  exact ⟨addr, p', halloc, by omega⟩

end Monolith.Mm
