import Monolith.Lib.Run
import Monolith.Mm.Pmm
import Mathlib.Order.Interval.Finset.Nat

/-!
# `mm/memory_map.c` and `pmm_init`: what the allocator of frames starts with

The boot loader's memory map is a table of regions.  `memmap_reserve` cuts a block off the first
usable region that is large enough and enters it into the table; `pmm_init` does so for its own
bitmap, and then sets a bit for every frame of what is left of the usable regions, whole words at a
time where it can.

`framesAllocated` is about every run of `pmm_allocate` and `pmm_free` that follows: the frames that
are free are the usable ones that nobody holds, `pmm_allocate` takes the lowest of them, and the two
counters count.  The map may not reach into the last page of the address space: `memory_top` is
rounded up to a page, and what is left of it there is 0 (`top_wraps`).
-/

namespace Monolith.Mm

open Transition List Prod
open BitVec (le_def toNat_sub_of_le le_trans toNat_add toNat_ofNat le_refl toNat_sub)

/-! ## The memory map -/

inductive MemRegionType where
  | usable
  | acpiTables
  | acpiNvs
  | reserved
  | allocated
  deriving DecidableEq, Repr

/-- `mem_region_t` -/
structure MemRegion where
  /-- `begin` -/
  start : BitVec 64
  /-- `end` -/
  limit : BitVec 64
  type : MemRegionType
  deriving DecidableEq, Repr

def maxMemmapRegions : Nat := 64

/-- `memory_map_t`.  The entries of the table up to `num_regions`. -/
structure MemoryMap where
  regions : List MemRegion
  memoryTop : BitVec 64
  /-- They are in an array. -/
  short : regions.length ≤ maxMemmapRegions

/-- The loop of `memmap_reserve`: the first usable region with `size` bytes loses them, up to a page
boundary, to a new one. -/
def cutRegion (size : BitVec 64) : List MemRegion → Option (List MemRegion × MemRegion)
  | [] => none
  | region :: regions =>
    if region.type = .usable ∧ region.start < region.limit ∧ size ≤ region.limit - region.start then
      let cut := alignUp (region.start + size)
      some ({ region with start := cut } :: regions,
        { start := region.start, limit := cut, type := .allocated })
    else (cutRegion size regions).map fun r => (region :: r.1, r.2)

variable {size : BitVec 64} {regions : List MemRegion} {bitmap : List (BitVec 64)} {k n : Nat}
  {region a b : MemRegion} {p : Pmm} {memmap memmap' : MemoryMap} {regions' : List MemRegion}
  {m : Nat} {r : MemRegion} {addr : BitVec 64} {block : MemRegion}

theorem length_cutRegion
    (h : cutRegion size regions = some (regions', block)) : regions'.length = regions.length := by
  induction regions generalizing regions' with
  | nil => cases h
  | cons region regions ih =>
    rw [cutRegion] at h
    split at h
    · rw [Option.some_inj, mk.injEq] at h
      simp [← h.1]
    · obtain ⟨⟨rest, new⟩, hrest, heq⟩ := Option.map_eq_some_iff.1 h
      rw [mk.injEq] at heq
      rw [← heq.1, length_cons, length_cons, ih (heq.2 ▸ hrest)]

/-- `memmap_reserve`: the address of the block in the direct map. -/
def memmapReserve (memmap : MemoryMap) (size : BitVec 64) : Option (BitVec 64 × MemoryMap) :=
  match h : cutRegion size memmap.regions with
  | none => none
  | some (regions, block) =>
    if hfull : memmap.regions.length = maxMemmapRegions then none
    else some (block.start + vmDmapBase,
      { regions := regions ++ [block]
        memoryTop := memmap.memoryTop
        short := by
          have hlen := length_cutRegion h
          have hshort := memmap.short
          rw [length_append, hlen, length_singleton]
          omega })

/-! ## Setting the bits -/

/-- The loop of `pmm_mark_range_free`, for at most `fuel` rounds.  A store behind the end of the
bitmap is a store to memory that the allocator never looks at. -/
def markLoop : Nat → BitVec 64 → BitVec 64 → List (BitVec 64) → List (BitVec 64)
  | 0, _, _, bitmap => bitmap
  | fuel + 1, rlen, rbegin, bitmap =>
    if pageSize ≤ rlen then
      let bmpOffset := frameOf rbegin / 64
      let bitOffset := frameOf rbegin % 64
      if 64 * pageSize ≤ rlen ∧ bitOffset = 0 then
        markLoop fuel (rlen - 64 * pageSize) (rbegin + 64 * pageSize)
          (bitmap.set bmpOffset (BitVec.allOnes 64))
      else
        markLoop fuel (rlen - pageSize) (rbegin + pageSize)
          (bitmap.modify bmpOffset (· ||| 1#64 <<< bitOffset))
    else bitmap

/-- `pmm_mark_range_free`.  Every round takes a page at least. -/
def pmmMarkRangeFree (p : Pmm) (start limit : BitVec 64) : Pmm :=
  let rlen := limit - start
  { p with
    available := p.available + BitVec.ofNat 64 (frameOf rlen)
    bitmap := markLoop (frameOf rlen) rlen start p.bitmap }

/-- One round of the loop in `pmm_init`. -/
def pmmInitRegion (p : Pmm) (region : MemRegion) : Pmm :=
  match region.type with
  | .usable => pmmMarkRangeFree p region.start region.limit
  | .allocated =>
    { p with used := p.used + BitVec.ofNat 64 (frameOf (region.limit - region.start)) }
  | _ => p

def requiredU64 (memmap : MemoryMap) : Nat := (frameOf (alignUp memmap.memoryTop) + 63) / 64

/-- `pmm_init`.  Without a block for the bitmap it panics. -/
def pmmInit (memmap : MemoryMap) : Option (Pmm × MemoryMap) :=
  match memmapReserve memmap (BitVec.ofNat 64 (requiredU64 memmap * 8)) with
  | none => none
  | some (pmmBlock, memmap') =>
    if pmmBlock = 0 then none
    else
      let p : Pmm :=
        { bitmap := replicate (requiredU64 memmap) 0
          available := 0
          used := 0
          doubleFree := false }
      some (memmap'.regions.foldl pmmInitRegion p, memmap')

/-! ## The bits that are set -/

/-- Bit `n` of a bitmap. -/
def bitOf (bitmap : List (BitVec 64)) (n : Nat) : Bool := (bitmap.getD (n / 64) 0).getLsbD (n % 64)

theorem bitOf_set_allOnes {w : Nat} (hw : w < bitmap.length) (n : Nat) :
    bitOf (bitmap.set w (BitVec.allOnes 64)) n = (bitOf bitmap n || decide (n / 64 = w)) := by
  rw [bitOf, bitOf, getD_eq_getElem?_getD, getElem?_set]
  by_cases h : w = n / 64
  · rw [if_pos h, if_pos (h ▸ hw), Option.getD_some, BitVec.getLsbD_allOnes, decide_eq_true h.symm,
      Bool.or_true, decide_eq_true_iff]
    exact Nat.mod_lt _ (by decide)
  · rw [if_neg h, ← getD_eq_getElem?_getD, decide_eq_false (Ne.symm h), Bool.or_false]

theorem bitOf_modify_or (hm : m / 64 < bitmap.length) (n : Nat) :
    bitOf (bitmap.modify (m / 64) (· ||| 1#64 <<< (m % 64))) n =
    (bitOf bitmap n || decide (n = m)) := by
  rw [bitOf, bitOf, getD_modify hm]
  by_cases h : n / 64 = m / 64
  · have heq : m % 64 = n % 64 ↔ n = m := by omega
    rw [if_pos h, h, BitVec.getLsbD_or, ← BitVec.twoPow_eq, BitVec.getLsbD_twoPow]
    simp [Nat.mod_lt, heq]
  · have hne : n ≠ m := fun he => h (by rw [he])
    rw [if_neg h, decide_eq_false hne, Bool.or_false]

/-- What is left when a round of the loop has taken `d` pages. -/
theorem frameOf_advance {rlen rbegin w : BitVec 64} {d : Nat} (hw : w.toNat = 4096 * d)
    (htop : rbegin.toNat + rlen.toNat < 2 ^ 64) (hle : w ≤ rlen) : d ≤ frameOf rlen ∧
      frameOf (rbegin + w) = frameOf rbegin + d ∧ frameOf (rlen - w) = frameOf rlen - d ∧
      (rbegin + w).toNat + (rlen - w).toNat < 2 ^ 64 := by
  have hle' := le_def.1 hle
  simp only [frameOf, toNat_sub_of_le hle,
    BitVec.toNat_add_of_lt (show rbegin.toNat + w.toNat < 2 ^ 64 by omega)]
  omega

theorem toNat_pageSize : pageSize.toNat = 4096 * 1 := by decide

theorem toNat_wordSize : (64 * pageSize).toNat = 4096 * 64 := by decide

/-- **The loop sets the bits of the frames of the range**, and no other. -/
theorem markLoop_spec {fuel : Nat} {rlen rbegin : BitVec 64} (hfuel : frameOf rlen ≤ fuel)
    (hlen : frameOf rbegin + frameOf rlen ≤ 64 * bitmap.length)
    (htop : rbegin.toNat + rlen.toNat < 2 ^ 64) :
    (markLoop fuel rlen rbegin bitmap).length = bitmap.length ∧
    ∀ n, bitOf (markLoop fuel rlen rbegin bitmap) n =
      (bitOf bitmap n || decide (frameOf rbegin ≤ n ∧ n < frameOf rbegin + frameOf rlen)) := by
  induction fuel generalizing rlen rbegin bitmap with
  | zero =>
    refine ⟨rfl, fun n => ?_⟩
    rw [decide_eq_false (by omega), Bool.or_false]
    rfl
  | succ fuel ih =>
    rw [markLoop]
    by_cases hle : pageSize ≤ rlen
    · rw [if_pos hle]
      by_cases hstride : 64 * pageSize ≤ rlen ∧ frameOf rbegin % 64 = 0
      · -- a whole word
        obtain ⟨hd, ha, hk, htop'⟩ := frameOf_advance toNat_wordSize htop hstride.1
        obtain ⟨hlength, hbits⟩ :=
          @ih (bitmap.set (frameOf rbegin / 64) (BitVec.allOnes 64)) _ _ (by omega)
          (by rw [length_set]; omega) htop'
        rw [length_set] at hlength
        rw [if_pos hstride]
        refine ⟨hlength, fun n => ?_⟩
        rw [hbits, bitOf_set_allOnes (by omega), Bool.or_assoc, ← Bool.decide_or]
        exact congrArg _ (decide_eq_decide.2 (by omega))
      · obtain ⟨hd, ha, hk, htop'⟩ := frameOf_advance toNat_pageSize htop hle
        obtain ⟨hlength, hbits⟩ :=
          @ih (bitmap.modify (frameOf rbegin / 64) (· ||| 1#64 <<< (frameOf rbegin % 64)))
          _ _ (by omega) (by rw [length_modify]; omega) htop'
        rw [length_modify] at hlength
        rw [if_neg hstride]
        refine ⟨hlength, fun n => ?_⟩
        rw [hbits, bitOf_modify_or (by omega), Bool.or_assoc, ← Bool.decide_or]
        exact congrArg _ (decide_eq_decide.2 (by omega))
    · have hzero : frameOf rlen = 0 := by
        rw [le_def, toNat_pageSize] at hle
        rw [frameOf]
        omega
      rw [if_neg hle]
      refine ⟨rfl, fun n => ?_⟩
      rw [decide_eq_false (by omega), Bool.or_false]

/-- The loop without whole words: the bits of `count` frames from `first` on, one by one. -/
def markEach (bitmap : List (BitVec 64)) (first count : Nat) : List (BitVec 64) :=
  (range' first count).foldl
    (fun bitmap n => bitmap.modify (n / 64) (· ||| 1#64 <<< (n % 64))) bitmap

theorem markEach_spec {a : Nat} (hlen : a + k ≤ 64 * bitmap.length) :
    (markEach bitmap a k).length = bitmap.length ∧
    ∀ n, bitOf (markEach bitmap a k) n = (bitOf bitmap n || decide (a ≤ n ∧ n < a + k)) := by
  induction k generalizing a bitmap with
  | zero =>
    refine ⟨rfl, fun n => ?_⟩
    rw [decide_eq_false (by omega), Bool.or_false]
    rfl
  | succ k ih =>
    obtain ⟨hlength, hbits⟩ := @ih (bitmap.modify (a / 64) (· ||| 1#64 <<< (a % 64))) (a + 1)
      (by rw [length_modify]; omega)
    rw [length_modify] at hlength
    refine ⟨hlength, fun n => (hbits n).trans ?_⟩
    rw [bitOf_modify_or (by omega), Bool.or_assoc, ← Bool.decide_or]
    exact congrArg _ (decide_eq_decide.2 (by omega))

theorem bitmap_ext {as bs : List (BitVec 64)} (hlen : as.length = bs.length)
    (h : ∀ n, bitOf as n = bitOf bs n) : as = bs := by
  refine ext_getElem hlen fun i hi hi' => BitVec.eq_of_getLsbD_eq fun j hj => ?_
  have hbit := h (64 * i + j)
  simpa [bitOf,
    show (64 * i + j) / 64 = i by omega, show (64 * i + j) % 64 = j by omega, hi, hi'] using hbit

/-- **`pmm_mark_range_free`**, of any range: its frames are set as they would be one by one, and
counted. -/
theorem range_marked {p : Pmm} {start limit : BitVec 64} (hle : start ≤ limit)
    (hlen : frameOf start + frameOf (limit - start) ≤ 64 * p.bitmap.length) :
    let p' := pmmMarkRangeFree p start limit
    (∀ n, p'.isFree n =
      (p.isFree n || decide (frameOf start ≤ n ∧ n < frameOf start + frameOf (limit - start)))) ∧
      p'.bitmap = markEach p.bitmap (frameOf start) (frameOf (limit - start)) ∧
      p'.available = p.available + BitVec.ofNat 64 (frameOf (limit - start)) := by
  have htop : start.toNat + (limit - start).toNat < 2 ^ 64 := by
    rw [toNat_sub_of_le hle]
    have := le_def.1 hle
    omega
  obtain ⟨hlength, hbits⟩ := markLoop_spec le_rfl hlen htop
  obtain ⟨hlength', hbits'⟩ := markEach_spec hlen
  exact ⟨hbits, bitmap_ext (hlength.trans hlength'.symm) fun n => (hbits n).trans (hbits' n).symm,
    rfl⟩

/-- A range that begins in the middle of a page, with a whole word in it. -/
theorem range_marked_unaligned :
    (pmmMarkRangeFree ⟨[0, 0, 0], 0, 0, false⟩ 0x3f800 0x80900).isFree 63 = true :=
  (@range_marked ⟨[0, 0, 0], 0, 0, false⟩ 0x3f800 0x80900 (by decide) (by decide)).1 63

/-! ## Regions as ranges of frames -/

/-- The region begins and ends at a page. -/
structure MemRegion.Aligned (region : MemRegion) : Prop where
  start : region.start.toNat % 4096 = 0
  limit : region.limit.toNat % 4096 = 0
  le : region.start ≤ region.limit

def MemRegion.Covers (region : MemRegion) (n : Nat) : Prop :=
  frameOf region.start ≤ n ∧ n < frameOf region.limit

def Usable (regions : List MemRegion) (n : Nat) : Prop :=
  ∃ region ∈ regions, region.type = .usable ∧ region.Covers n

theorem usable_cons : Usable (region :: regions) n ↔ region.type = .usable ∧ region.Covers n ∨
    Usable regions n :=
  exists_mem_cons_iff ..

theorem usable_singleton : Usable [region] n ↔ region.type = .usable ∧ region.Covers n := by
  rw [usable_cons]
  refine or_iff_left fun h => ?_
  obtain ⟨_, h, -⟩ := h
  cases h

theorem usable_perm {as bs : List MemRegion} (h : as.Perm bs) : Usable as n ↔ Usable bs n := by
  simp [Usable, h.mem_iff]

def MemRegion.Apart (a b : MemRegion) : Prop := a.limit ≤ b.start ∨ b.limit ≤ a.start

theorem MemRegion.Apart.symm (h : a.Apart b) : b.Apart a := Or.symm h

theorem MemRegion.Apart.mono {c : MemRegion} (h : a.Apart b) (hstart : b.start ≤ c.start)
    (hlimit : c.limit ≤ b.limit) : a.Apart c :=
  h.imp (fun h => le_trans h hstart) (fun h => le_trans hlimit h)

def RegionsApart (regions : List MemRegion) : Prop := regions.Pairwise MemRegion.Apart

def UsableApart (regions : List MemRegion) : Prop :=
  regions.Pairwise fun a b => a.type = .usable → b.type = .usable → a.Apart b

theorem MemRegion.Covers.not_of_apart (ha : a.Covers n) (h : a.Apart b) : ¬ b.Covers n := by
  rintro ⟨hb, hb'⟩
  obtain ⟨ha, ha'⟩ := ha
  rw [MemRegion.Apart, le_def, le_def] at h
  simp only [frameOf] at *
  omega

theorem isFree_pmmMarkRangeFree (hr : region.Aligned)
    (hlen : frameOf region.limit ≤ 64 * p.bitmap.length) :
    let p' := pmmMarkRangeFree p region.start region.limit
    p'.bitmap.length = p.bitmap.length ∧
      ∀ n, p'.isFree n = true ↔ p.isFree n = true ∨ region.Covers n := by
  have hle := le_def.1 hr.le
  have hstart := hr.start
  have hlimit := hr.limit
  have hrlen := toNat_sub_of_le hr.le
  simp only [frameOf] at hlen
  obtain ⟨hlength, hbits⟩ :=
    @markLoop_spec p.bitmap _ (region.limit - region.start) region.start le_rfl
    (by simp only [frameOf]; omega) (by omega)
  refine ⟨hlength, fun n => ?_⟩
  rw [show (pmmMarkRangeFree p region.start region.limit).isFree n = _ from hbits n,
    Bool.or_eq_true, decide_eq_true_iff]
  refine or_congr_right ?_
  rw [MemRegion.Covers]
  simp only [frameOf, hrlen]
  omega

/-- What the allocator has once the regions `regions` have been looked at, and how it counts. -/
structure Marked (regions : List MemRegion) (p p' : Pmm) : Prop where
  length : p'.bitmap.length = p.bitmap.length
  free : ∀ n, p'.isFree n = true ↔ p.isFree n = true ∨ Usable regions n
  available : p.available.toNat = p.freeSet.card → p'.available.toNat = p'.freeSet.card
  used : p'.used.toNat ≤ p.used.toNat + regions.length * 2 ^ 52

theorem card_freeSet_le (p : Pmm) : p.freeSet.card ≤ 64 * p.bitmap.length := by
  refine (Finset.card_filter_le ..).trans ?_
  rw [Finset.card_range]

theorem card_pmmMarkRangeFree (hr : region.Aligned)
    (hlen : frameOf region.limit ≤ 64 * p.bitmap.length)
    (hnew : ∀ n, region.Covers n → p.isFree n = false) :
    (pmmMarkRangeFree p region.start region.limit).freeSet.card =
      p.freeSet.card + frameOf (region.limit - region.start) := by
  have hunion : (pmmMarkRangeFree p region.start region.limit).freeSet =
      p.freeSet ∪ Finset.Ico (frameOf region.start) (frameOf region.limit) := by
    ext n
    rw [Pmm.mem_freeSet, (isFree_pmmMarkRangeFree hr hlen).2, Finset.mem_union, Pmm.mem_freeSet,
      Finset.mem_Ico, MemRegion.Covers]
  have hdisj : Disjoint p.freeSet (Finset.Ico (frameOf region.start) (frameOf region.limit)) := by
    rw [Finset.disjoint_left]
    intro n hn hc
    simp [Pmm.mem_freeSet, hnew n (Finset.mem_Ico.1 hc)] at hn
  rw [hunion, Finset.card_union_of_disjoint hdisj, Nat.card_Ico]
  have hstart := hr.start
  simp only [frameOf, toNat_sub_of_le hr.le]
  omega

theorem pmmInitRegion_marked (hr : region.type = .usable → region.Aligned)
    (hlen : region.type = .usable → frameOf region.limit ≤ 64 * p.bitmap.length)
    (hsmall : 64 * p.bitmap.length < 2 ^ 64)
    (hnew : region.type = .usable → ∀ n, region.Covers n → p.isFree n = false) :
    Marked [region] p (pmmInitRegion p region) := by
  have hother : region.type ≠ .usable → ∀ n, p.isFree n = true ↔ p.isFree n = true ∨
      Usable [region] n :=
    fun h n => (or_iff_left fun hc => h (usable_singleton.1 hc).1).symm
  have hadd : ∀ x : BitVec 64, (p.used + BitVec.ofNat 64 (frameOf x)).toNat ≤
      p.used.toNat + 2 ^ 52 := by
    intro x
    have := frameOf_lt x
    rw [toNat_add, toNat_ofNat]
    omega
  rw [pmmInitRegion]
  split
  · rename_i htype
    obtain ⟨hlength, hfree⟩ := isFree_pmmMarkRangeFree (hr htype) (hlen htype)
    refine ⟨hlength, fun n => ?_, fun hav => ?_, Nat.le_add_right ..⟩
    · rw [hfree, usable_singleton, and_iff_right htype]
    have hcard := card_pmmMarkRangeFree (hr htype) (hlen htype) (hnew htype)
    have hle := card_freeSet_le (pmmMarkRangeFree p region.start region.limit)
    show (p.available + BitVec.ofNat 64 (frameOf (region.limit - region.start))).toNat = _
    rw [toNat_add, toNat_ofNat]
    omega
  · rename_i htype
    exact ⟨rfl, hother (by rw [htype]; decide), id, by simpa using hadd _⟩
  · rename_i hne _
    exact ⟨rfl, hother hne, id, Nat.le_add_right ..⟩

theorem pmmInit_marked (hr : ∀ r ∈ regions, r.type = .usable → r.Aligned)
    (hlen : ∀ r ∈ regions, r.type = .usable → frameOf r.limit ≤ 64 * p.bitmap.length)
    (hsmall : 64 * p.bitmap.length < 2 ^ 64) (hapart : UsableApart regions)
    (hnew : ∀ n, Usable regions n → p.isFree n = false) :
    Marked regions p (regions.foldl pmmInitRegion p) := by
  induction regions generalizing p with
  | nil =>
    refine ⟨rfl, fun n => (or_iff_left ?_).symm, id, Nat.le_add_right ..⟩
    rintro ⟨_, h, -⟩
    cases h
  | cons r regions ih =>
    obtain ⟨hcross, hapart⟩ := pairwise_cons.1 hapart
    have hfirst := pmmInitRegion_marked (hr r mem_cons_self) (hlen r mem_cons_self) hsmall
      fun ht n hn => hnew n (usable_cons.2 (.inl ⟨ht, hn⟩))
    have hrest := ih (fun x hx => hr x (mem_cons_of_mem r hx))
      (fun x hx ht => by rw [hfirst.length]; exact hlen x (mem_cons_of_mem r hx) ht)
      (by rw [hfirst.length]; exact hsmall) hapart fun n hn => by
        rw [Bool.eq_false_iff]
        intro hf
        rcases (hfirst.free n).1 hf with hf | hf
        · simp [hnew n (usable_cons.2 (.inr hn))] at hf
        obtain ⟨x, hx, hxt, hc⟩ := hn
        obtain ⟨ht, hf⟩ := usable_singleton.1 hf
        exact hf.not_of_apart (hcross x hx ht hxt) hc
    rw [foldl_cons]
    refine ⟨hrest.length.trans hfirst.length, fun n => ?_, fun hav =>
      hrest.available (hfirst.available hav), ?_⟩
    · rw [hrest.free, hfirst.free, usable_singleton, usable_cons, or_assoc]
    have h₁ := hrest.used
    have h₂ := hfirst.used
    rw [length_cons]
    rw [length_singleton] at h₂
    omega

/-! ## The block of the bitmap -/

theorem cutRegion_eq_some (h : cutRegion size regions = some (regions', block)) :
    ∃ r rest, regions.Perm (r :: rest) ∧
    regions'.Perm ({ r with start := alignUp (r.start + size) } :: rest) ∧
      block = { start := r.start, limit := alignUp (r.start + size), type := .allocated } ∧
      r.type = .usable ∧ size ≤ r.limit - r.start := by
  induction regions generalizing regions' with
  | nil => cases h
  | cons region regions ih =>
    rw [cutRegion] at h
    split_ifs at h with hfit
    · rw [Option.some_inj, mk.injEq] at h
      exact ⟨region, regions, .refl _, .of_eq h.1.symm, h.2.symm, hfit.1, hfit.2.2⟩
    obtain ⟨⟨cut, new⟩, hcut, heq⟩ := Option.map_eq_some_iff.1 h
    obtain ⟨rfl, rfl⟩ := heq
    obtain ⟨r, rest, hin, hout, hr⟩ := ih hcut
    exact ⟨r, region :: rest, (hin.cons region).trans (.swap ..),
      (hout.cons region).trans (.swap ..), hr⟩

theorem memmapReserve_eq_some {block : BitVec 64}
    (h : memmapReserve memmap size = some (block, memmap')) :
    ∃ regions' cut, cutRegion size memmap.regions = some (regions', cut) ∧
      block = cut.start + vmDmapBase ∧ memmap'.regions = regions' ++ [cut] := by
  rw [memmapReserve] at h
  split at h
  · cases h
  rename_i regions' cut hcut
  split at h
  · cases h
  · rw [Option.some_inj, mk.injEq] at h
    exact ⟨regions', cut, hcut, h.1.symm, by rw [← h.2]⟩

/-- What `pmm_init` is told about the machine. -/
structure MemoryMap.Ok (memmap : MemoryMap) : Prop where
  aligned : ∀ r ∈ memmap.regions, r.start.toNat % 4096 = 0 ∧ r.limit.toNat % 4096 = 0
  nonempty : ∀ r ∈ memmap.regions, r.start < r.limit
  apart : RegionsApart memmap.regions
  top : ∀ r ∈ memmap.regions, r.type = .usable → r.limit ≤ memmap.memoryTop

/-- What of it `pmm_init` needs. -/
structure MemoryMap.Fits (memmap : MemoryMap) : Prop where
  aligned : ∀ r ∈ memmap.regions, r.type = .usable → r.Aligned
  apart : UsableApart memmap.regions
  top : ∀ r ∈ memmap.regions, r.type = .usable → r.limit ≤ memmap.memoryTop

theorem MemoryMap.Ok.fits (h : memmap.Ok) : memmap.Fits :=
  ⟨fun r hr _ => ⟨(h.aligned r hr).1, (h.aligned r hr).2, BitVec.le_of_lt (h.nonempty r hr)⟩,
    h.apart.imp fun hab _ _ => hab, h.top⟩

/-- What `memmap_reserve` leaves of a good map. -/
structure Reserved (memmap : MemoryMap) (size : BitVec 64) (block : MemRegion)
    (memmap' : MemoryMap) : Prop where
  aligned : ∀ r ∈ memmap'.regions, r.type = .usable → r.Aligned
  apart : UsableApart memmap'.regions
  top : ∀ r ∈ memmap'.regions, r.type = .usable → r.limit ≤ memmap.memoryTop
  cut : block.Aligned
  room : block.start.toNat + size.toNat ≤ block.limit.toNat
  tight : block.limit.toNat < block.start.toNat + size.toNat + 4096
  /-- What is usable was so before, and is not in the block. -/
  usable : ∀ n, Usable memmap'.regions n ↔ Usable memmap.regions n ∧ ¬ block.Covers n

theorem MemRegion.Aligned.cut (h : r.Aligned) (hsize : size ≤ r.limit - r.start) :
    let cut := alignUp (r.start + size)
    cut.toNat % 4096 = 0 ∧ r.start.toNat + size.toNat ≤ cut.toNat ∧
      cut.toNat < r.start.toNat + size.toNat + 4096 ∧ cut ≤ r.limit := by
  have hle := le_def.1 h.le
  have hlimit := h.limit
  rw [le_def, toNat_sub_of_le h.le] at hsize
  have hsum : (r.start + size).toNat = r.start.toNat + size.toNat :=
    BitVec.toNat_add_of_lt (by omega)
  have hup : (alignUp (r.start + size)).toNat =
      (r.start.toNat + size.toNat + 4095) / 4096 * 4096 := by
    rw [toNat_alignUp (by omega), hsum]
  intro cut
  rw [le_def, hup]
  omega

theorem memmapReserve_reserved (hfits : memmap.Fits)
    (h : memmapReserve memmap size = some (addr, memmap')) :
    ∃ block, addr = block.start + vmDmapBase ∧ Reserved memmap size block memmap' := by
  obtain ⟨regions', block, hcut, haddr, hregions⟩ := memmapReserve_eq_some h
  obtain ⟨r, rest, hin, hout, hblock, ht, hsize⟩ := cutRegion_eq_some hcut
  have hr : r ∈ memmap.regions := hin.mem_iff.2 mem_cons_self
  have hra := hfits.aligned r hr ht
  obtain ⟨hmod, hroom, htight, hle⟩ := hra.cut hsize
  have hstart : r.start ≤ alignUp (r.start + size) := le_def.2 (by omega)
  generalize alignUp (r.start + size) = c at hout hblock hmod hroom htight hle hstart
  -- up to the order, the table is the old one, but for the region that was cut and the block
  replace hout : memmap'.regions.Perm (block :: { r with start := c } :: rest) := by
    rw [hregions]
    exact (perm_append_singleton ..).trans (hout.cons _)
  obtain ⟨hrest, hpair⟩ :=
    pairwise_cons.1 ((hin.pairwise_iff fun h hb ha => (h ha hb).symm).1 hfits.apart)
  have hside : block.Apart { r with start := c } := .inl (by rw [hblock]; exact le_refl _)
  have hapart : ∀ x ∈ rest, x.type = .usable → x.Apart block ∧ x.Apart { r with start := c } := by
    intro x hx hxt
    have hsym := (hrest x hx ht hxt).symm
    rw [hblock]
    exact ⟨hsym.mono (le_refl _) hle, hsym.mono hstart (le_refl _)⟩
  have hnone : block.type ≠ .usable := by simp [hblock]
  have hcase : ∀ x ∈ memmap'.regions, x.type = .usable → x = { r with start := c } ∨
    x ∈ memmap.regions := by
    intro x hx hxt
    rw [hout.mem_iff, hblock] at hx
    rw [hin.mem_iff]
    grind
  refine ⟨block, haddr, fun x hx hxt => ?_, ?_, fun x hx hxt => ?_, ?_, ?_, ?_, fun n => ?_⟩
  · rcases hcase x hx hxt with rfl | hx
    · exact ⟨hmod, hra.limit, hle⟩
    · exact hfits.aligned x hx hxt
  · exact (hout.pairwise_iff fun h hb ha => (h ha hb).symm).2 (pairwise_cons.2
      ⟨fun _ _ hb => absurd hb hnone, pairwise_cons.2 ⟨fun x hx _ hxt => (hapart x hx hxt).2.symm,
      hpair⟩⟩)
  · rcases hcase x hx hxt with rfl | hx
    · exact hfits.top r hr ht
    · exact hfits.top x hx hxt
  · rw [hblock]
    exact ⟨hra.start, hmod, hstart⟩
  · rwa [hblock]
  · rwa [hblock]
  · have hnot : Usable rest n → ¬ block.Covers n :=
      fun ⟨x, hx, hxt, hc⟩ => hc.not_of_apart (hapart x hx hxt).1
    have hsplit : r.Covers n ↔ block.Covers n ∨ MemRegion.Covers { r with start := c } n := by
      rw [le_def] at hstart hle
      simp only [hblock, MemRegion.Covers, frameOf]
      omega
    rw [usable_perm hout, usable_perm hin, usable_cons, usable_cons, usable_cons, hsplit]
    have hother : MemRegion.Covers { r with start := c } n → ¬ block.Covers n :=
      fun hc => hc.not_of_apart hside.symm
    tauto

/-! ## What `pmm_init` starts with -/

/-- The end of memory is not in the last page of the address space. -/
def MemoryMap.TopOk (memmap : MemoryMap) : Prop := memmap.memoryTop.toNat ≤ 2 ^ 64 - 4096

/-- The state after `pmm_init`: the free frames are the usable ones outside the bitmap, and the
counters are right. -/
structure Initialized (memmap memmap' : MemoryMap) (p : Pmm) : Prop where
  length : p.bitmap.length = requiredU64 memmap
  free : ∀ n, p.isFree n = true ↔ Usable memmap'.regions n
  available : p.available.toNat = p.freeSet.card
  used : p.used.toNat ≤ 2 ^ 58

theorem requiredU64_le (memmap : MemoryMap) : 64 * requiredU64 memmap ≤ 2 ^ 52 := by
  have := frameOf_lt (alignUp memmap.memoryTop)
  rw [requiredU64]
  omega

theorem frameOf_le_requiredU64 (htop : memmap.TopOk) {limit : BitVec 64}
    (h : limit ≤ memmap.memoryTop) : frameOf limit ≤ 64 * requiredU64 memmap := by
  rw [le_def] at h
  rw [MemoryMap.TopOk] at htop
  rw [requiredU64]
  simp only [frameOf]
  rw [toNat_alignUp (by omega)]
  omega

theorem isFree_blank (h : p.bitmap = replicate k 0) (n : Nat) : p.isFree n = false := by
  rw [Pmm.isFree, h, getD_eq_getElem?_getD, getElem?_replicate]
  split <;> exact BitVec.getLsbD_zero

theorem pmmInit_initialized (hfits : memmap.Fits) (htop : memmap.TopOk)
    (h : pmmInit memmap = some (p, memmap')) :
    ∃ block : MemRegion, memmapReserve memmap (BitVec.ofNat 64 (requiredU64 memmap * 8)) =
        some (block.start + vmDmapBase, memmap') ∧
      Reserved memmap (BitVec.ofNat 64 (requiredU64 memmap * 8)) block memmap' ∧
      Initialized memmap memmap' p := by
  rw [pmmInit] at h
  split at h
  · cases h
  rename_i addr memmap₁ hreserve
  split at h
  · cases h
  rw [Option.some_inj, mk.injEq] at h
  obtain ⟨hp, rfl⟩ := h
  obtain ⟨block, rfl, R⟩ := memmapReserve_reserved hfits hreserve
  refine ⟨block, hreserve, R, ?_⟩
  generalize hp₀ : Pmm.mk (replicate (requiredU64 memmap) 0) 0 0 false = p₀ at hp
  have hblank : p₀.bitmap = replicate (requiredU64 memmap) 0 := by rw [← hp₀]
  have hlength : p₀.bitmap.length = requiredU64 memmap := by rw [hblank, length_replicate]
  have hused : p₀.used.toNat = 0 := by rw [← hp₀]; rfl
  have M := pmmInit_marked R.aligned (fun r hr ht => by
    rw [hlength]
    exact frameOf_le_requiredU64 htop (R.top r hr ht))
    (by rw [hlength]; have := requiredU64_le memmap; omega) R.apart fun n _ => isFree_blank hblank n
  rw [hp] at M
  refine ⟨M.length.trans hlength, fun n => ?_, M.available ?_, ?_⟩
  · simp [M.free, isFree_blank hblank n]
  · have h0 : p₀.available.toNat = 0 := by rw [← hp₀]; rfl
    rw [h0, eq_comm, Finset.card_eq_zero, Finset.eq_empty_iff_forall_notMem]
    intro n hn
    simp [Pmm.mem_freeSet, isFree_blank hblank n] at hn
  · have hu := M.used
    have hshort := memmap₁.short
    rw [maxMemmapRegions] at hshort
    omega

/-! ## The frames that are held -/

/-- The allocator, and the frames its callers hold. -/
structure FrameSys where
  pmm : Pmm
  held : List (BitVec 64)

/-- What the rest of the kernel does with it. -/
inductive FrameAction where
  | allocate
  | free (addr : BitVec 64)

/-- A frame is freed by whoever holds it.  A panic ends the run. -/
def FrameSys.step (s : FrameSys) : FrameAction → Option FrameSys
  | .allocate =>
    match pmmAllocate s.pmm with
    | .ok (addr, pmm) => some { pmm, held := addr :: s.held }
    | .error _ => none
  | .free addr =>
    if addr ∈ s.held then
      match pmmFree s.pmm addr with
      | .ok pmm => some { pmm, held := s.held.erase addr }
      | .error _ => none
    else none

/-- The usable frames are divided into the free ones and the held ones, and the counters tell
how. -/
structure FrameSys.Inv (usable : Nat → Prop) (p : Pmm) (s : FrameSys) : Prop where
  length : 64 * s.pmm.bitmap.length ≤ 2 ^ 52
  bound : ∀ n, usable n → n < 64 * s.pmm.bitmap.length
  free : ∀ n, s.pmm.isFree n = true ↔ usable n ∧ frameAddr n ∉ s.held
  held : ∀ addr ∈ s.held, ∃ n, usable n ∧ addr = frameAddr n
  nodup : s.held.Nodup
  available : s.pmm.available.toNat = s.pmm.freeSet.card
  used : s.pmm.used.toNat = p.used.toNat + s.held.length
  total : s.pmm.freeSet.card + s.held.length = p.freeSet.card

section Runs

variable {usable : Nat → Prop} {p : Pmm} {s t : FrameSys}

section

variable (I : s.Inv usable p)

include I

theorem FrameSys.Inv.lt (hn : usable n) : n < 2 ^ 52 := (I.bound n hn).trans_le I.length

theorem FrameSys.Inv.frameAddr_inj (hm : usable m) (hn : usable n) (h : frameAddr m = frameAddr n) :
    m = n := by
  rw [← frameOf_frameAddr_of_lt (I.lt hm), h, frameOf_frameAddr_of_lt (I.lt hn)]

/-- A frame that is handed out is a free one, so that it is usable and nobody's. -/
theorem FrameSys.Inv.allocate (hp : p.used.toNat ≤ 2 ^ 58)
    (hcard₀ : p.freeSet.card ≤ 2 ^ 52) (h : s.step .allocate = some t) : t.Inv usable p := by
  simp only [FrameSys.step] at h
  split at h
  · rename_i addr pmm halloc
    rw [Option.some_inj] at h
    subst h
    obtain ⟨n, rfl, hn, -, hfree, hlen, -⟩ := pmmAllocate_spec halloc
    obtain ⟨-, -, -, -, havail, hused⟩ := pmmAllocate_least halloc
    obtain ⟨husable, hnew⟩ := (I.free n).1 hn
    have hcard := card_freeSet_of_take hn hfree
    have htotal := I.total
    refine ⟨by rw [hlen]; exact I.length, fun m hm => by rw [hlen]; exact I.bound m hm, fun m => ?_,
      fun addr haddr => ?_, nodup_cons.2 ⟨hnew, I.nodup⟩, ?_, ?_, ?_⟩
    · rw [hfree, Bool.and_eq_true, I.free, decide_eq_true_eq, mem_cons, not_or, and_assoc]
      refine and_congr_right fun hm => ?_
      rw [and_comm]
      exact and_congr_left fun _ => not_congr ⟨fun h => by rw [h], I.frameAddr_inj hm husable⟩
    · rcases mem_cons.1 haddr with rfl | haddr
      · exact ⟨n, husable, rfl⟩
      · exact I.held addr haddr
    · have h1 : (1 : BitVec 64).toNat = 1 := rfl
      dsimp only
      rw [havail, toNat_sub, I.available]
      omega
    · have h1 : (1 : BitVec 64).toNat = 1 := rfl
      rw [hused, toNat_add, I.used, length_cons]
      omega
    · dsimp only [length_cons]
      omega
  · cases h

/-- A frame that comes back is one that was held, so that it was not free. -/
theorem FrameSys.Inv.release (hp : p.used.toNat ≤ 2 ^ 58)
    (hcard₀ : p.freeSet.card ≤ 2 ^ 52) (h : s.step (.free addr) = some t) : t.Inv usable p := by
  obtain ⟨hheld, h⟩ := Option.ite_none_right_eq_some.1 h
  obtain ⟨n, husable, rfl⟩ := I.held addr hheld
  split at h
  · rename_i pmm hput
    rw [Option.some_inj] at h
    subst h
    obtain ⟨hfree, hlen, -⟩ := pmmFree_spec hput
    obtain ⟨havail, hused⟩ := pmmFree_counts hput
    rw [frameOf_frameAddr_of_lt (I.lt husable)] at hfree
    have hinsert : pmm.freeSet = insert n s.pmm.freeSet := by
      ext m
      rw [Pmm.mem_freeSet, hfree, Finset.mem_insert, Pmm.mem_freeSet, Bool.or_eq_true,
        decide_eq_true_eq, or_comm]
    have hmem : n ∉ s.pmm.freeSet := fun hn => ((I.free n).1 ((s.pmm.mem_freeSet n).1 hn)).2 hheld
    have hcard : pmm.freeSet.card = s.pmm.freeSet.card + 1 := by
      rw [hinsert, Finset.card_insert_of_notMem hmem]
    have hlength := length_erase_of_mem hheld
    have hpos : 0 < s.held.length := length_pos_of_mem hheld
    have htotal := I.total
    refine ⟨by rw [hlen]; exact I.length, fun m hm => by rw [hlen]; exact I.bound m hm, fun m => ?_,
      fun addr haddr => I.held addr (mem_of_mem_erase haddr), I.nodup.erase _, ?_, ?_, ?_⟩
    · rw [hfree, Bool.or_eq_true, I.free, decide_eq_true_eq, I.nodup.mem_erase_iff, not_and_or,
        not_not, and_or_left, or_comm]
      refine or_congr ⟨fun hm => ⟨hm ▸ husable, by rw [hm]⟩, fun hm => ?_⟩ Iff.rfl
      exact I.frameAddr_inj hm.1 husable hm.2
    · have h1 : (1 : BitVec 64).toNat = 1 := rfl
      rw [havail, toNat_add, I.available, hcard]
      omega
    · have h1 : (1 : BitVec 64).toNat = 1 := rfl
      rw [hused, toNat_sub, I.used, hlength]
      omega
    · rw [hcard, hlength]
      omega
  · cases h

end

theorem FrameSys.Inv.run (hp : p.used.toNat ≤ 2 ^ 58) (hcard₀ : p.freeSet.card ≤ 2 ^ 52)
    (I : s.Inv usable p) {as : List FrameAction} (hrun : run FrameSys.step s as = some t) :
    t.Inv usable p := by
  refine run_invariant (fun u a v I h => ?_) I hrun
  cases a with
  | allocate => exact I.allocate hp hcard₀ h
  | free addr => exact I.release hp hcard₀ h

end Runs

theorem FrameSys.inv_init (I : Initialized memmap memmap' p) :
    FrameSys.Inv (Usable memmap'.regions) p { pmm := p, held := [] } := by
  refine ⟨?_, fun n hn => ?_, fun n => ?_, fun _ h => absurd h not_mem_nil, nodup_nil, I.available,
    rfl, rfl⟩
  · rw [I.length]
    exact requiredU64_le memmap
  · have := (p.mem_freeSet n).2 ((I.free n).2 hn)
    rw [Pmm.freeSet, Finset.mem_filter, Finset.mem_range] at this
    exact this.1
  · rw [I.free, and_iff_left not_mem_nil]

theorem MemRegion.Covers.bytes (h : r.Covers n) (ha : r.Aligned) :
    r.start.toNat ≤ (frameAddr n).toNat ∧ (frameAddr n).toNat + 4096 ≤ r.limit.toNat := by
  obtain ⟨h1, h2⟩ := h
  have := frameOf_lt r.limit
  rw [toNat_frameAddr_of_lt (by omega)]
  have := ha.start
  simp only [frameOf] at h1 h2
  omega

/-- **The allocator of frames.**  After `pmm_init` on any memory map of page-aligned, non-empty and
disjoint regions, and any run of `pmm_allocate` and `pmm_free`:

* `physmem_available` is the number of bits that are set, and its sum with `physmem_used` is what it
  was
  at the start;
* as long as a bit is set `pmm_allocate` finds one, and it is the lowest;
* the frame is in a usable region of the map, outside the bitmap, and nobody holds it;
* a frame that is held can be freed. -/
theorem framesAllocated {memmap memmap' : MemoryMap} {p : Pmm} (hok : memmap.Ok)
    (htop : memmap.TopOk) (hinit : pmmInit memmap = some (p, memmap')) {as : List FrameAction}
    {s : FrameSys} (hrun : run FrameSys.step { pmm := p, held := [] } as = some s) :
    s.pmm.available.toNat = s.pmm.freeSet.card ∧
    s.pmm.available.toNat + s.pmm.used.toNat = p.available.toNat + p.used.toNat ∧
    (∀ n, s.pmm.isFree n = true → ∃ addr pmm, pmmAllocate s.pmm = .ok (addr, pmm)) ∧
    (∀ addr pmm, pmmAllocate s.pmm = .ok (addr, pmm) →
      ∃ n, addr = frameAddr n ∧ s.pmm.isFree n = true ∧ (∀ k < n, s.pmm.isFree k = false) ∧
        (∃ r ∈ memmap.regions, r.type = .usable ∧ r.start.toNat ≤ addr.toNat ∧
        addr.toNat + 4096 ≤ r.limit.toNat) ∧
        (∃ pmmBlock, memmapReserve memmap (BitVec.ofNat 64 (requiredU64 memmap * 8)) =
        some (pmmBlock, memmap') ∧
          (addr.toNat + 4096 ≤ (pmmBlock - vmDmapBase).toNat ∨
            (pmmBlock - vmDmapBase).toNat + requiredU64 memmap * 8 ≤ addr.toNat)) ∧ addr ∉ s.held) ∧
    ∀ addr ∈ s.held, ∃ pmm, pmmFree s.pmm addr = .ok pmm := by
  obtain ⟨block, hreserve, R, I₀⟩ := pmmInit_initialized hok.fits htop hinit
  have hcard₀ : p.freeSet.card ≤ 2 ^ 52 := by
    refine (card_freeSet_le p).trans ?_
    rw [I₀.length]
    exact requiredU64_le memmap
  have I := (FrameSys.inv_init I₀).run I₀.used hcard₀ hrun
  refine ⟨I.available, ?_, fun n hn => pmmAllocate_total hn, fun addr pmm halloc => ?_,
    fun addr haddr => ?_⟩
  · have := I.total
    have := I.used
    rw [I.available, I₀.available]
    omega
  · obtain ⟨n, rfl, hn, hleast, -⟩ := pmmAllocate_least halloc
    obtain ⟨husable, hnew⟩ := (I.free n).1 hn
    obtain ⟨⟨r, hr, ht, hc⟩, hblock⟩ := (R.usable n).1 husable
    refine ⟨n, rfl, hn, hleast, ⟨r, hr, ht, hc.bytes (hok.fits.aligned r hr ht)⟩,
      ⟨_, hreserve, ?_⟩, hnew⟩
    have hroom := R.room
    have hsize := requiredU64_le memmap
    rw [toNat_ofNat] at hroom
    rw [BitVec.add_sub_cancel, toNat_frameAddr_of_lt (I.lt husable)]
    rw [MemRegion.Covers] at hblock
    obtain ⟨hstart, hlimit, -⟩ := R.cut
    simp only [frameOf] at hblock
    omega
  · obtain ⟨n, hn, rfl⟩ := I.held addr haddr
    have hlt := I.bound n hn
    rw [pmmFree, frameOf_frameAddr_of_lt (I.lt hn), if_pos (by omega)]
    exact ⟨_, rfl⟩

/-- Three usable pages and a reserved one.  The bitmap goes into the page at `0x1000`. -/
def threePages : MemoryMap :=
  { regions := [⟨0x1000, 0x4000, .usable⟩, ⟨0x4000, 0x5000, .reserved⟩]
    memoryTop := 0x5000
    short := by decide }

/-- There, with one of the two frames that are left taken. -/
theorem framesAllocated_threePages : ∃ s, run FrameSys.step
    { pmm := { bitmap := [12], available := 2, used := 1, doubleFree := false }, held := [] }
    [.allocate] = some s ∧ s.held = [0x2000] ∧ s.pmm.available.toNat = s.pmm.freeSet.card := by
  refine ⟨{ pmm := { bitmap := [8], available := 1, used := 2, doubleFree := false }
            held := [0x2000] },
    by rfl, rfl, ?_⟩
  exact (@framesAllocated threePages
    { regions := [⟨0x2000, 0x4000, .usable⟩, ⟨0x4000, 0x5000, .reserved⟩,
        ⟨0x1000, 0x2000, .allocated⟩]
      memoryTop := 0x5000
      short := by decide } _ (by constructor <;> simp [threePages, RegionsApart, MemRegion.Apart])
    (by unfold MemoryMap.TopOk; decide) (by rfl) [.allocate] _ (by rfl)).1

/-- A map that ends in the last page of the address space. -/
def topMap : MemoryMap :=
  { regions := [⟨0x1000, 0x3000, .usable⟩]
    memoryTop := 0xFFFFFFFFFFFFFFFF
    short := by decide }

/-- The bitmap for it is empty, and yet two frames are said to be available. -/
theorem top_wraps : topMap.Ok ∧ ∃ p memmap', pmmInit topMap = some (p, memmap') ∧
    p.available.toNat = 2 ∧ p.freeSet.card = 0 := by
  refine ⟨⟨?_, ?_, ?_, ?_⟩, { bitmap := [], available := 2, used := 0, doubleFree := false },
    { regions := [⟨0x1000, 0x3000, .usable⟩, ⟨0x1000, 0x1000, .allocated⟩]
      memoryTop := 0xFFFFFFFFFFFFFFFF
      short := by decide }, by rfl, rfl, rfl⟩
  all_goals simp [topMap, RegionsApart, MemRegion.Apart]

end Monolith.Mm
