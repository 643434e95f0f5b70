import Monolith.Lib.Bytes
import Monolith.Lib.Chain
import Monolith.Mm.Pmm
import Mathlib.Data.Fin.VecNotation

/-!
# `mm/slab.c`: `kmalloc` and `kfree`

A slab is a page: a header of 32 bytes, and behind it blocks of one size.  The blocks that are free
are chained by their numbers, and the links are in the first four bytes of the blocks themselves; so
the model has the memory, byte by byte.

`SlabAt` says that a page is a slab of a cache in which certain blocks are free.  Taking a block
(`SlabAt.taken`), giving one back (`SlabAt.given`) and laying out a new page (`slabAt_newSlab`) keep
it, and so does every write that stays out of its header and its free blocks (`SlabAt.same`).
-/

namespace Monolith.Mm

open Bytes List

/-! ## The code -/

/-- How a call ends that does not return. -/
inductive SlabFault where
  /-- "slab: freelist corruption" -/
  | freelistCorruption
  /-- "slab: attempted free on empty slab" -/
  | freeOnEmptySlab
  /-- "slab: free on metadata pointer" -/
  | freeOnMetadata
  /-- "kmalloc: allocation %d too big" -/
  | tooBig (size : Nat)
  /-- `pmm_allocate` panics. -/
  | mm (fault : MmFault)
  /-- The `cache` of a header is no cache. -/
  | wildCache
  /-- The list of slabs has no end. -/
  | endless
  deriving DecidableEq, Repr

/-- `align_up` -/
def alignTo (value alignment : BitVec 64) : BitVec 64 :=
  (value + alignment - 1) &&& ~~~(alignment - 1)

structure SlabCache where
  slabs : BitVec 64
  blockSize : Nat
  objPerSlab : Nat

/-- `sizeof(struct slab)`.  Its fields are `next` at 0, `memory` at 8, `cache` at 16, `in_use` at 24
and `free` at 28. -/
def sizeofSlab : BitVec 64 := 32

/-- `align_up(sizeof(struct slab), cache->block_size)` -/
def SlabCache.headerSize (cache : SlabCache) : BitVec 64 :=
  alignTo sizeofSlab (BitVec.ofNat 64 cache.blockSize)

def kmCaches (i : Fin 8) : SlabCache :=
  { slabs := 0, blockSize := ![8, 16, 32, 64, 128, 256, 512, 1024] i, objPerSlab := 0 }

def slabInit (caches : Fin 8 → SlabCache) (i : Fin 8) : SlabCache :=
  { caches i with
    objPerSlab := (4096 - (caches i).headerSize).toNat / (caches i).blockSize % 2 ^ 16 }

/-- The memory, by virtual addresses, and what `slab.c` and `pmm.c` have of their own.  A pointer to
a cache is its number. -/
structure Kmem where
  mem : Nat → BitVec 8
  caches : Fin 8 → SlabCache
  pmm : Pmm

/-- The branch of `slab_alloc` that takes a block of `slab`. -/
def slabTake (s : Kmem) (i : Fin 8) (slab : BitVec 64) : Except SlabFault (BitVec 64 × Kmem) :=
  let free := load s.mem 4 (slab.toNat + 28)
  if (s.caches i).objPerSlab ≤ free then .error .freelistCorruption
  else
    let mem := BitVec.ofNat 64 (load s.mem 8 (slab.toNat + 8)) +
      BitVec.ofNat 64 ((s.caches i).blockSize * free % 2 ^ 32)
    let m := store s.mem 4 (slab.toNat + 28) (load s.mem 4 mem.toNat)
    .ok (mem, { s with mem := store m 4 (slab.toNat + 24) (load m 4 (slab.toNat + 24) + 1) })

/-- The loop that chains the blocks of a new slab. -/
def linkBlocks (m : Nat → BitVec 8) (memory blockSize objPerSlab : Nat) : Nat → BitVec 8 :=
  (range' 1 (objPerSlab - 1)).foldl (fun m i => store m 4 (memory + i * blockSize) (i + 1)) m

/-- The rest of `slab_alloc`: a new slab behind `prev`. -/
def slabGrow (s : Kmem) (i : Fin 8) (prev : BitVec 64) : Except SlabFault (BitVec 64 × Kmem) :=
  match pmmAllocate s.pmm with
  | .error fault => .error (.mm fault)
  | .ok (allocPhys, pmm) =>
    let newSlab := allocPhys + vmDmapBase
    let m := store s.mem 8 newSlab.toNat 0
    let m := if prev ≠ 0 then store m 8 prev.toNat newSlab.toNat else m
    let caches := if prev ≠ 0 then s.caches
      else Function.update s.caches i { s.caches i with slabs := newSlab }
    let memory := newSlab + (s.caches i).headerSize
    let m := store m 8 (newSlab.toNat + 8) memory.toNat
    let m := store m 8 (newSlab.toNat + 16) i
    let m := store m 4 (newSlab.toNat + 24) 1
    let m := store m 4 (newSlab.toNat + 28) 1
    let m := linkBlocks m memory.toNat (s.caches i).blockSize (s.caches i).objPerSlab
    .ok (memory, { mem := m, caches, pmm })

/-- The loop of `slab_alloc`, for at most `fuel` slabs. -/
def slabWalk : Nat → Kmem → Fin 8 → BitVec 64 → BitVec 64 → Except SlabFault (BitVec 64 × Kmem)
  | 0, _, _, _, _ => .error .endless
  | fuel + 1, s, i, prev, target =>
    if target = 0 then slabGrow s i prev
    else if load s.mem 4 (target.toNat + 24) < (s.caches i).objPerSlab then slabTake s i target
    else slabWalk fuel s i target (BitVec.ofNat 64 (load s.mem 8 target.toNat))

/-- `slab_alloc`.  There are 2^52 pages. -/
def slabAlloc (s : Kmem) (i : Fin 8) : Except SlabFault (BitVec 64 × Kmem) :=
  slabWalk (2 ^ 52) s i 0 (s.caches i).slabs

def slabFree (s : Kmem) (addr : BitVec 64) : Except SlabFault Kmem :=
  let slab := alignDown addr
  if load s.mem 4 (slab.toNat + 24) = 0 then .error .freeOnEmptySlab
  else if addr < slab + sizeofSlab then .error .freeOnMetadata
  else if h : load s.mem 8 (slab.toNat + 16) < 8 then
    let cache := s.caches ⟨load s.mem 8 (slab.toNat + 16), h⟩
    let m := fill s.mem cache.blockSize addr.toNat 0x6b
    let m := store m 4 addr.toNat (load m 4 (slab.toNat + 28))
    let objIndex := (addr - BitVec.ofNat 64 (load m 8 (slab.toNat + 8))).toNat / cache.blockSize
    let m := store m 4 (slab.toNat + 24) (load m 4 (slab.toNat + 24) + (2 ^ 32 - 1))
    let m := store m 4 (slab.toNat + 28) objIndex
    .ok { s with mem := m }
  else .error .wildCache

/-- The loop of `kmalloc`: the first cache whose blocks are large enough. -/
def kmCacheFor (caches : Fin 8 → SlabCache) (size : Nat) : Option (Fin 8) :=
  (finRange 8).find? fun i => size ≤ (caches i).blockSize

def kmalloc (s : Kmem) (size : Nat) : Except SlabFault (BitVec 64 × Kmem) :=
  match kmCacheFor s.caches size with
  | some i => slabAlloc s i
  | none => .error (.tooBig size)

theorem kmCacheFor_eq_none {size : Nat} :
    kmCacheFor (slabInit kmCaches) size = none ↔ 1024 < size := by
  have hmax : ∀ i, (slabInit kmCaches i).blockSize ≤ 1024 := by decide
  rw [kmCacheFor, find?_eq_none]
  constructor
  · intro h
    have := h 7 (mem_finRange 7)
    rw [decide_eq_true_eq] at this
    exact lt_of_not_ge this
  · intro h i _
    rw [decide_eq_true_eq]
    exact fun hle => absurd (hle.trans (hmax i)) (Nat.not_le.2 h)

def kfree (s : Kmem) (addr : BitVec 64) : Except SlabFault Kmem := slabFree s addr

/-! ## Objects -/

/-- What `kmalloc` returned for a size: the block at `addr`, of `length` bytes. -/
structure Object where
  addr : BitVec 64
  size : Nat
  length : Nat
  deriving DecidableEq, Repr

/-! ## Pages and blocks -/

def blockSize (i : Fin 8) : Nat := (slabInit kmCaches i).blockSize

/-- How many blocks its slabs have. -/
def objPerSlab (i : Fin 8) : Nat := (slabInit kmCaches i).objPerSlab

/-- Where its blocks start. -/
def headerSize (i : Fin 8) : Nat := (slabInit kmCaches i).headerSize.toNat

theorem geometry (i : Fin 8) : 32 ≤ headerSize i ∧ 8 ≤ blockSize i ∧ 1 ≤ objPerSlab i ∧
    headerSize i + objPerSlab i * blockSize i ≤ 4096 ∧ objPerSlab i < 2 ^ 16 := by
  revert i
  decide

def pageAddr (n : Nat) : Nat := 0xffff800000000000 + n * 4096

/-- The same as a pointer. -/
def pagePtr (n : Nat) : BitVec 64 := frameAddr n + vmDmapBase

theorem frameAddr_inj {m n : Nat} (hm : FrameOk m) (hn : FrameOk n)
    (h : frameAddr m = frameAddr n) : m = n := by
  have hm2 := hm.2
  have hn2 := hn.2
  rw [← frameOf_frameAddr_of_lt (show m < 2 ^ 52 by omega), h, frameOf_frameAddr_of_lt (by omega)]

variable {n : Nat} {s : Kmem} {addr : BitVec 64}

theorem toNat_pagePtr (hn : FrameOk n) : (pagePtr n).toNat = pageAddr n := by
  have hlt := hn.2
  have hdmap : vmDmapBase.toNat = 0xffff800000000000 := rfl
  rw [pagePtr, BitVec.toNat_add, toNat_frameAddr_of_lt (by omega), pageAddr]
  omega

def blockAddr (i : Fin 8) (n k : Nat) : Nat := pageAddr n + headerSize i + k * blockSize i

section Blocks

variable {i : Fin 8} {n j k : Nat}

theorem pageAddr_lt (hn : FrameOk n) : pageAddr n + 4096 < 2 ^ 64 := by
  have hlt := hn.2
  rw [pageAddr]
  omega

theorem page_apart (h : j ≠ k) :
    pageAddr j + 4096 ≤ pageAddr k ∨ pageAddr k + 4096 ≤ pageAddr j := by
  rw [pageAddr, pageAddr]
  omega

theorem block_inside (n : Nat) (hk : k < objPerSlab i) :
    pageAddr n + 32 ≤ blockAddr i n k ∧ blockAddr i n k + blockSize i ≤ pageAddr n + 4096 := by
  have hle : (k + 1) * blockSize i ≤ objPerSlab i * blockSize i := Nat.mul_le_mul_right _ hk
  have hg := geometry i
  rw [Nat.succ_mul] at hle
  rw [blockAddr]
  omega

theorem block_apart (i : Fin 8) (n : Nat) (h : j ≠ k) :
    blockAddr i n j + blockSize i ≤ blockAddr i n k ∨
    blockAddr i n k + blockSize i ≤ blockAddr i n j := by
  rw [blockAddr, blockAddr]
  rcases Nat.lt_or_gt_of_ne h with h | h
  · have hle := (Nat.succ_mul j _).symm.le.trans (Nat.mul_le_mul_right (blockSize i) h)
    omega
  · have hle := (Nat.succ_mul k _).symm.le.trans (Nat.mul_le_mul_right (blockSize i) h)
    omega

theorem toNat_blockAddr (hn : FrameOk n) (hk : k < objPerSlab i) :
    (BitVec.ofNat 64 (blockAddr i n k)).toNat = blockAddr i n k := by
  have hlt := pageAddr_lt hn
  have hblock := block_inside n hk
  rw [BitVec.toNat_ofNat, Nat.mod_eq_of_lt (by omega)]

theorem blockAddr_inj (h : blockAddr i n j = blockAddr i n k) : j = k := by
  by_contra hne
  have := block_apart i n hne
  have := geometry i
  omega

theorem page_of_blockAddr {i' : Fin 8} {n' k' : Nat} (hk : k < objPerSlab i)
    (hk' : k' < objPerSlab i') (h : blockAddr i n k = blockAddr i' n' k') : n = n' := by
  by_contra hne
  have := page_apart hne
  have := block_inside n hk
  have := block_inside n' hk'
  omega

end Blocks

/-! ## One slab -/

def blockLink (m : Nat → BitVec 8) (i : Fin 8) (n k : Nat) : Nat := load m 4 (blockAddr i n k)

/-- The page `n` is a slab of cache `i`, with the blocks `ks` free: they are those at whose address
there is no live object, and the chain from `free` visits each of them once. -/
structure SlabAt (m : Nat → BitVec 8) (live : List Object) (i : Fin 8) (n : Nat) (ks : List Nat) :
    Prop where
  memory : load m 8 (pageAddr n + 8) = pageAddr n + headerSize i
  cache : load m 8 (pageAddr n + 16) = i
  inUse : load m 4 (pageAddr n + 24) + ks.length = objPerSlab i
  chain : Chain (blockLink m i n) (objPerSlab i) (load m 4 (pageAddr n + 28)) ks
  nodup : ks.Nodup
  free : ∀ k, k ∈ ks ↔ k < objPerSlab i ∧ ∀ o ∈ live, o.addr.toNat ≠ blockAddr i n k

variable {k l a : Nat} {o : Object}

section Slab

variable {m m' : Nat → BitVec 8} {live live' : List Object} {i : Fin 8} {n : Nat} {ks : List Nat}

section

variable (h : SlabAt m live i n ks)

include h

theorem SlabAt.lt (hk : k ∈ ks) : k < objPerSlab i := ((h.free k).1 hk).1

/-- A slab does not notice writes that keep its header and the links of its free blocks, as long as
the same objects are live in it. -/
theorem SlabAt.same (hheader : Same m m' 24 (pageAddr n + 8))
    (hlinks : ∀ k ∈ ks, Same m m' 4 (blockAddr i n k))
    (hlive : ∀ k < objPerSlab i, (∀ o ∈ live', o.addr.toNat ≠ blockAddr i n k) ↔
      ∀ o ∈ live, o.addr.toNat ≠ blockAddr i n k) : SlabAt m' live' i n ks where
  memory := by rw [load_congr (hheader.mono (by omega) (by omega)), h.memory]
  cache := by rw [load_congr (hheader.mono (by omega) (by omega)), h.cache]
  inUse := by rw [load_congr (hheader.mono (by omega) (by omega)), h.inUse]
  chain := by
    rw [load_congr (hheader.mono (by omega) (by omega))]
    exact h.chain.congr fun k hk => load_congr (hlinks k hk)
  nodup := h.nodup
  free k := by
    rw [h.free]
    exact and_congr_right fun hk => (hlive k hk).symm

/-- So does a slab in another page than the one written to. -/
theorem SlabAt.same_page (hpage : Same m m' 4088 (pageAddr n + 8))
    (hlive : ∀ k < objPerSlab i, (∀ o ∈ live', o.addr.toNat ≠ blockAddr i n k) ↔
      ∀ o ∈ live, o.addr.toNat ≠ blockAddr i n k) : SlabAt m' live' i n ks := by
  refine h.same (hpage.mono (by omega) (by omega)) (fun k hk => ?_) hlive
  have := block_inside n (h.lt hk)
  have := geometry i
  exact hpage.mono (by omega) (by omega)

end

/-! ### Taking a block -/

/-- The stores of `slab_alloc` that take block `k`. -/
def takeBlock (m : Nat → BitVec 8) (i : Fin 8) (n k : Nat) : Nat → BitVec 8 :=
  let m' := store m 4 (pageAddr n + 28) (blockLink m i n k)
  store m' 4 (pageAddr n + 24) (load m' 4 (pageAddr n + 24) + 1)

theorem same_takeBlock (i : Fin 8) (k : Nat) (h : a + l ≤ pageAddr n + 24 ∨ pageAddr n + 32 ≤ a) :
    Same m (takeBlock m i n k) l a :=
  (same_store (by omega)).trans (same_store (by omega))

/-- A slab with `in_use` below its size has a free block, and that is the one taken. -/
theorem SlabAt.take (h : SlabAt s.mem live i n ks) (hn : FrameOk n)
    (hsize : (s.caches i).blockSize = blockSize i) (hobj : (s.caches i).objPerSlab = objPerSlab i)
    (hfull : load s.mem 4 (pageAddr n + 24) < objPerSlab i) :
    ∃ k ks', ks = k :: ks' ∧ slabTake s i (pagePtr n) =
      .ok (BitVec.ofNat 64 (blockAddr i n k), { s with mem := takeBlock s.mem i n k }) := by
  have hin := h.inUse
  obtain ⟨k, ks', rfl⟩ : ∃ k ks', ks = k :: ks' := by
    cases ks with
    | nil => exact absurd hin (by rw [length_nil]; omega)
    | cons k ks' => exact ⟨k, ks', rfl⟩
  refine ⟨k, ks', rfl, ?_⟩
  have hk := h.lt mem_cons_self
  have hblock := block_inside n hk
  have hfree : load s.mem 4 (pageAddr n + 28) = k := h.chain.1
  have haddr : BitVec.ofNat 64 (pageAddr n + headerSize i) +
      BitVec.ofNat 64 (blockSize i * k % 2 ^ 32) = BitVec.ofNat 64 (blockAddr i n k) := by
    rw [blockAddr] at hblock ⊢
    rw [mul_comm, Nat.mod_eq_of_lt (by omega), ← BitVec.ofNat_add]
  simp only [slabTake, toNat_pagePtr hn, hfree, hsize, hobj, h.memory, haddr, toNat_blockAddr hn hk]
  rw [if_neg (by omega)]
  rfl

theorem SlabAt.taken (h : SlabAt m live i n (k :: ks)) (ho : o.addr.toNat = blockAddr i n k) :
    SlabAt (takeBlock m i n k) (o :: live) i n ks := by
  have hg := geometry i
  have hin := h.inUse
  rw [length_cons] at hin
  obtain ⟨hknew, hnodup⟩ := nodup_cons.1 h.nodup
  refine ⟨?_, ?_, ?_, ?_, hnodup, fun j => ?_⟩
  · rw [load_congr (same_takeBlock i k (by omega)), h.memory]
  · rw [load_congr (same_takeBlock i k (by omega)), h.cache]
  · rw [takeBlock, load_store, load_store_apart (by omega)]
    omega
  · have hfree : load (takeBlock m i n k) 4 (pageAddr n + 28) = blockLink m i n k := by
      rw [takeBlock, load_store_apart (by omega), load_store]
      exact Nat.mod_eq_of_lt (load_lt m 4 _)
    rw [hfree]
    exact h.chain.2.2.congr fun j hj => load_congr
      (same_takeBlock i k (.inr (block_inside n (h.lt (mem_cons_of_mem k hj))).1))
  · have hiff : j ∈ ks ↔ j ∈ k :: ks ∧ j ≠ k := by
      rw [mem_cons]
      refine ⟨fun hj => ⟨.inr hj, fun he => hknew (he ▸ hj)⟩, fun hj => hj.1.resolve_left hj.2⟩
    rw [hiff, h.free, forall_mem_cons, ho, and_assoc]
    refine and_congr_right fun hj => ?_
    rw [and_comm]
    exact and_congr_left fun _ =>
      not_congr ⟨fun he => by rw [he], fun he => (blockAddr_inj he).symm⟩

/-! ### Giving a block back -/

/-- The stores of `slab_free` that give block `k` back. -/
def giveBlock (m : Nat → BitVec 8) (i : Fin 8) (n k : Nat) : Nat → BitVec 8 :=
  let m₁ := fill m (blockSize i) (blockAddr i n k) 0x6b
  let m₂ := store m₁ 4 (blockAddr i n k) (load m₁ 4 (pageAddr n + 28))
  let m₃ := store m₂ 4 (pageAddr n + 24) (load m₂ 4 (pageAddr n + 24) + (2 ^ 32 - 1))
  store m₃ 4 (pageAddr n + 28) k

theorem same_giveBlock (hheader : a + l ≤ pageAddr n + 24 ∨ pageAddr n + 32 ≤ a)
    (hblock : a + l ≤ blockAddr i n k ∨ blockAddr i n k + blockSize i ≤ a) :
    Same m (giveBlock m i n k) l a := by
  have hg := geometry i
  exact (((same_fill (by omega)).trans (same_store (by omega))).trans (same_store (by omega))).trans
    (same_store (by omega))

theorem SlabAt.notMem_of_live (h : SlabAt m live i n ks) (ho : o ∈ live)
    (haddr : o.addr.toNat = blockAddr i n k) : k ∉ ks :=
  fun hk => ((h.free k).1 hk).2 o ho haddr

theorem SlabAt.inUse_pos (h : SlabAt m live i n ks) (hk : k < objPerSlab i) (hks : k ∉ ks) :
    0 < load m 4 (pageAddr n + 24) := by
  have hin := h.inUse
  have hle : (k :: ks).length ≤ (range (objPerSlab i)).length := by
    refine (Nodup.subperm (nodup_cons.2 ⟨hks, h.nodup⟩) fun j hj => ?_).length_le
    rw [mem_range]
    rcases mem_cons.1 hj with rfl | hj
    · exact hk
    · exact h.lt hj
  rw [length_cons, length_range] at hle
  omega

theorem alignDown_blockAddr (hk : k < objPerSlab i) (haddr : addr.toNat = blockAddr i n k) :
    (alignDown addr).toNat = pageAddr n := by
  have hblock := block_inside n hk
  have hg := geometry i
  rw [toNat_alignDown]
  rw [pageAddr] at hblock ⊢
  omega

theorem SlabAt.give (h : SlabAt s.mem live i n ks)
    (hsize : (s.caches i).blockSize = blockSize i) (hk : k < objPerSlab i) (hks : k ∉ ks)
    (haddr : addr.toNat = blockAddr i n k) :
    slabFree s addr = .ok { s with mem := giveBlock s.mem i n k } := by
  have hg := geometry i
  have hblock := block_inside n hk
  have hpage := alignDown_blockAddr hk haddr
  have hpos := h.inUse_pos hk hks
  have hmeta : ¬ addr < alignDown addr + sizeofSlab := by
    have h32 : sizeofSlab.toNat = 32 := rfl
    rw [BitVec.lt_def, BitVec.toNat_add]
    omega
  have hcache : load s.mem 8 (pageAddr n + 16) < 8 := by
    rw [h.cache]
    exact i.isLt
  have hi : (⟨load s.mem 8 (pageAddr n + 16), hcache⟩ : Fin 8) = i := Fin.ext h.cache
  have hmemory : load (store (fill s.mem (blockSize i) (blockAddr i n k) 0x6b) 4 (blockAddr i n k)
      (load (fill s.mem (blockSize i) (blockAddr i n k) 0x6b) 4 (pageAddr n + 28))) 8
      (pageAddr n + 8) = pageAddr n + headerSize i := by
    rw [← h.memory]
    exact load_congr ((same_fill (by omega)).trans (same_store (by omega)))
  have hindex : (addr - BitVec.ofNat 64 (pageAddr n + headerSize i)).toNat / blockSize i = k := by
    have hsub : (addr - BitVec.ofNat 64 (pageAddr n + headerSize i)).toNat = k * blockSize i := by
      rw [BitVec.toNat_sub, haddr, BitVec.toNat_ofNat]
      rw [blockAddr] at hblock ⊢
      omega
    rw [hsub, Nat.mul_div_cancel _ (by omega)]
  simp only [slabFree, hpage, if_neg (ne_of_gt hpos), if_neg hmeta, dif_pos hcache, hi,
    hsize, haddr, hmemory, hindex]
  rfl

theorem SlabAt.given (h : SlabAt m live i n ks) (hk : k < objPerSlab i) (hks : k ∉ ks)
    (hlive : ∀ j < objPerSlab i, (∀ o ∈ live', o.addr.toNat ≠ blockAddr i n j) ↔ j = k ∨
      ∀ o ∈ live, o.addr.toNat ≠ blockAddr i n j) : SlabAt (giveBlock m i n k) live' i n
      (k :: ks) := by
  have hg := geometry i
  have hin := h.inUse
  have hpos := h.inUse_pos hk hks
  have hbehind := (block_inside n hk).1
  have hload : ∀ l a, pageAddr n ≤ a → a + l ≤ pageAddr n + 32 →
      load (store (fill m (blockSize i) (blockAddr i n k) 0x6b) 4 (blockAddr i n k)
        (load (fill m (blockSize i) (blockAddr i n k) 0x6b) 4 (pageAddr n + 28))) l a =
        load m l a :=
    fun l a _ ha => load_congr ((same_fill (by omega)).trans (same_store (by omega)))
  refine ⟨?_, ?_, ?_, ?_, nodup_cons.2 ⟨hks, h.nodup⟩, fun j => ?_⟩
  · rw [load_congr (same_giveBlock (by omega) (by omega)), h.memory]
  · rw [load_congr (same_giveBlock (by omega) (by omega)), h.cache]
  · simp only [giveBlock]
    rw [load_store_apart (by omega), load_store, hload _ _ (by omega) (by omega), length_cons]
    omega
  · have hfree : load (giveBlock m i n k) 4 (pageAddr n + 28) = k := by
      simp only [giveBlock]
      rw [load_store]
      omega
    have hlink : blockLink (giveBlock m i n k) i n k = load m 4 (pageAddr n + 28) := by
      simp only [giveBlock, blockLink]
      rw [load_store_apart (by omega), load_store_apart (by omega), load_store,
        load_congr (same_fill (by omega))]
      exact Nat.mod_eq_of_lt (load_lt m 4 _)
    rw [hfree]
    refine Chain.push (h.chain.congr fun j hj => ?_) (by omega) hlink
    have hin := block_inside n (h.lt hj)
    have hap := block_apart i n fun he : j = k => hks (he ▸ hj)
    exact load_congr (same_giveBlock (by omega) (by omega))
  · rw [mem_cons, h.free]
    constructor
    · rintro (rfl | ⟨hj, hno⟩)
      · exact ⟨hk, (hlive j hk).2 (.inl rfl)⟩
      · exact ⟨hj, (hlive j hj).2 (.inr hno)⟩
    · rintro ⟨hj, hno⟩
      exact ((hlive j hj).1 hno).imp_right fun h => ⟨hj, h⟩

/-! ### A new slab -/

/-- The stores of `slab_alloc` that make the page `n` a slab. -/
def newSlab (m : Nat → BitVec 8) (i : Fin 8) (n : Nat) : Nat → BitVec 8 :=
  let m := store m 8 (pageAddr n + 8) (pageAddr n + headerSize i)
  let m := store m 8 (pageAddr n + 16) i
  let m := store m 4 (pageAddr n + 24) 1
  let m := store m 4 (pageAddr n + 28) 1
  linkBlocks m (pageAddr n + headerSize i) (blockSize i) (objPerSlab i)

/-- The loop changes nothing but the links, and sets each of them. -/
theorem linkBlocks_spec (m : Nat → BitVec 8) (i : Fin 8) (n : Nat) :
    (∀ l a, a + l ≤ pageAddr n + 32 ∨ pageAddr n + 4096 ≤ a →
      Same m (linkBlocks m (pageAddr n + headerSize i) (blockSize i) (objPerSlab i)) l a) ∧
    ∀ k, 1 ≤ k → k < objPerSlab i →
      blockLink (linkBlocks m (pageAddr n + headerSize i) (blockSize i) (objPerSlab i)) i n k =
      k + 1 := by
  have hg := geometry i
  -- after the first `t` rounds
  have hround : ∀ t, t + 1 ≤ objPerSlab i → ∀ m' : Nat → BitVec 8,
      (range' 1 t).foldl
        (fun m k => store m 4 (pageAddr n + headerSize i + k * blockSize i) (k + 1)) m = m' →
      (∀ l a, a + l ≤ pageAddr n + 32 ∨ pageAddr n + 4096 ≤ a → Same m m' l a) ∧
      ∀ k, 1 ≤ k → k ≤ t → blockLink m' i n k = k + 1 := by
    intro t
    induction t with
    | zero =>
      rintro - m' rfl
      exact ⟨fun l a _ => Same.refl m l a, fun k _ _ => by omega⟩
    | succ t ih =>
      rintro ht m' rfl
      rw [range'_concat, foldl_append, one_mul, add_comm 1 t]
      obtain ⟨hsame, hlinks⟩ := ih (by omega) _ rfl
      have hblock := block_inside n (show t + 1 < objPerSlab i by omega)
      rw [foldl_cons, foldl_nil, ← blockAddr]
      refine ⟨fun l a ha => (hsame l a ha).trans (same_store (by omega)), fun k hk hkt => ?_⟩
      rw [blockLink]
      by_cases hlast : k = t + 1
      · rw [hlast, load_store]
        omega
      · have hap := block_apart i n hlast
        rw [load_store_apart (by omega)]
        exact hlinks k hk (by omega)
  obtain ⟨hsame, hlinks⟩ := hround (objPerSlab i - 1) (by omega) _ rfl
  exact ⟨hsame, fun k hk hlt => hlinks k hk (by omega)⟩

theorem same_newSlab (m : Nat → BitVec 8) (i : Fin 8)
    (h : a + l ≤ pageAddr n + 8 ∨ pageAddr n + 4096 ≤ a) : Same m (newSlab m i n) l a :=
  ((((same_store (by omega)).trans (same_store (by omega))).trans (same_store (by omega))).trans
    (same_store (by omega))).trans ((linkBlocks_spec _ i n).1 l a (by omega))

/-- A new slab has its first block in use, and the others are chained in order. -/
theorem slabAt_newSlab (ho : o.addr.toNat = blockAddr i n 0) (hn : FrameOk n)
    (hnew : ∀ k < objPerSlab i, ∀ o ∈ live, o.addr.toNat ≠ blockAddr i n k) :
    SlabAt (newSlab m i n) (o :: live) i n (range' 1 (objPerSlab i - 1)) := by
  have hg := geometry i
  have hlt := pageAddr_lt hn
  have hheader : ∀ l a, pageAddr n + 8 ≤ a → a + l ≤ pageAddr n + 32 →
      load (newSlab m i n) l a = load (store (store (store (store m 8 (pageAddr n + 8)
        (pageAddr n + headerSize i)) 8 (pageAddr n + 16) i) 4 (pageAddr n + 24) 1) 4
        (pageAddr n + 28) 1) l a :=
    fun l a _ ha => load_congr ((linkBlocks_spec _ i n).1 l a (by omega))
  refine ⟨?_, ?_, ?_, ?_, nodup_range' .., fun k => ?_⟩
  · rw [hheader _ _ (by omega) (by omega), load_store_apart (by omega), load_store_apart (by omega),
      load_store_apart (by omega), load_store]
    omega
  · rw [hheader _ _ (by omega) (by omega), load_store_apart (by omega), load_store_apart (by omega),
      load_store]
    omega
  · rw [hheader _ _ (by omega) (by omega), load_store_apart (by omega), load_store, length_range']
    omega
  · rw [hheader _ _ (by omega) (by omega), load_store]
    have hchain := @Chain.range' (blockLink (newSlab m i n) i n) 1 (objPerSlab i - 1)
      fun k hk hlt => (linkBlocks_spec _ i n).2 k hk (by omega)
    rwa [Nat.add_sub_cancel' hg.2.2.1] at hchain
  · rw [mem_range'_1, forall_mem_cons, ho]
    constructor
    · intro hk
      refine ⟨by omega, fun he => ?_, hnew k (by omega)⟩
      have := blockAddr_inj he
      omega
    · rintro ⟨hk, hne, -⟩
      have : k ≠ 0 := fun h0 => hne (by rw [h0])
      omega

end Slab

end Monolith.Mm
