import Monolith.Lib.Run
import Monolith.Mm.Slab

/-!
# `kmalloc` and `kfree` with their callers

The allocator of `Monolith.Mm.Slab` together with those who use it.  The owner of an object writes
whatever it likes into it, and other parts of the kernel take frames and give them back.

`SlabSys.Inv` is kept by every step, and `slabs_sound` reads off it what the allocator promises.
-/

namespace Monolith.Mm

open Function Bytes Transition List Option

/-! ## The objects and their owners -/

/-- The allocator, the objects that are live, and the frames that the rest of the kernel holds. -/
structure SlabSys where
  kmem : Kmem
  live : List Object
  held : List (BitVec 64)

/-- What the rest of the kernel does with it. -/
inductive SlabAction where
  | kmalloc (size : Nat)
  | kfree (object : Object)
  /-- The owner of an object writes one byte of it. -/
  | write (object : Object) (offset : Nat) (value : BitVec 8)
  /-- Somebody else takes a frame. -/
  | pmmAllocate
  /-- Somebody else gives a frame back. -/
  | pmmFree (addr : BitVec 64)

local instance lawfulAddr : LawfulBEq (BitVec 64) := inferInstance

/-- One step.  A panic ends the run. -/
def SlabSys.step (s : SlabSys) : SlabAction → Option SlabSys
  | .kmalloc size =>
    match Mm.kmalloc s.kmem size, kmCacheFor s.kmem.caches size with
    | .ok (addr, kmem), some i =>
      some { s with kmem, live := ⟨addr, size, (s.kmem.caches i).blockSize⟩ :: s.live }
    | _, _ => none
  | .kfree object =>
    if object ∈ s.live then
      match Mm.kfree s.kmem object.addr with
      | .ok kmem => some { s with kmem, live := s.live.filter (·.addr ≠ object.addr) }
      | .error _ => none
    else none
  | .write object offset value =>
    if object ∈ s.live ∧ offset < object.length then
      some { s with kmem.mem := Function.update s.kmem.mem (object.addr.toNat + offset) value }
    else none
  | .pmmAllocate =>
    match Mm.pmmAllocate s.kmem.pmm with
    | .ok (addr, pmm) => some { s with kmem.pmm := pmm, held := addr :: s.held }
    | .error _ => none
  | .pmmFree addr =>
    if addr ∈ s.held then
      match Mm.pmmFree s.kmem.pmm addr with
      | .ok pmm => some { s with kmem.pmm := pmm, held := s.held.erase addr }
      | .error _ => none
    else none

/-- After `slab_init`: nothing is live, and the frames that are held are not free. -/
structure SlabSys.Boot (s : SlabSys) : Prop where
  caches : s.kmem.caches = slabInit kmCaches
  live : s.live = []
  pmm : s.kmem.pmm.Ok
  held : ∀ addr ∈ s.held, ∃ n, FrameOk n ∧ addr = frameAddr n ∧ s.kmem.pmm.isFree n = false
  nodup : s.held.Nodup

/-! ## The invariant -/

/-- The slab behind the slab at `slab`. -/
def nextSlab (m : Nat → BitVec 8) (slab : BitVec 64) : BitVec 64 :=
  BitVec.ofNat 64 (load m 8 slab.toNat)

/-- The object is a block of a slab. -/
def Object.IsBlock (slabs : Fin 8 → List Nat) (o : Object) : Prop :=
  ∃ i, ∃ n ∈ slabs i, ∃ k < objPerSlab i, o.addr.toNat = blockAddr i n k ∧ o.length = blockSize i ∧
    o.size ≤ o.length

/-- The pages `slabs i` are the slabs of cache `i`, in the order of their list.  Nobody else has
them, and the live objects are different blocks of them. -/
structure SlabSys.Inv (s : SlabSys) (slabs : Fin 8 → List Nat) : Prop where
  blockSize : ∀ i, (s.kmem.caches i).blockSize = blockSize i
  objPerSlab : ∀ i, (s.kmem.caches i).objPerSlab = objPerSlab i
  list : ∀ i, Chain (nextSlab s.kmem.mem) 0 (s.kmem.caches i).slabs ((slabs i).map pagePtr)
  frame : ∀ i, ∀ n ∈ slabs i, FrameOk n ∧ s.kmem.pmm.isFree n = false ∧ frameAddr n ∉ s.held
  nodup : ∀ i, (slabs i).Nodup
  apart : ∀ i j n, n ∈ slabs i → n ∈ slabs j → i = j
  slab : ∀ i, ∀ n ∈ slabs i, ∃ ks, SlabAt s.kmem.mem s.live i n ks
  live : ∀ o ∈ s.live, o.IsBlock slabs
  distinct : s.live.Pairwise fun o o' => o.addr ≠ o'.addr
  pmm : s.kmem.pmm.Ok
  held : ∀ addr ∈ s.held, ∃ n, FrameOk n ∧ addr = frameAddr n ∧ s.kmem.pmm.isFree n = false
  heldNodup : s.held.Nodup

theorem SlabSys.Boot.inv {s : SlabSys} (h : s.Boot) : s.Inv fun _ => [] where
  blockSize i := by rw [h.caches]; rfl
  objPerSlab i := by rw [h.caches]; rfl
  list i := by rw [h.caches]; rfl
  frame _ _ hn := absurd hn not_mem_nil
  nodup _ := nodup_nil
  apart _ _ _ hn := absurd hn not_mem_nil
  slab _ _ hn := absurd hn not_mem_nil
  live := by simp [h.live]
  distinct := by rw [h.live]; exact Pairwise.nil
  pmm := h.pmm
  held := h.held
  heldNodup := h.nodup

variable {i : Fin 8} {n : Nat} {m : Nat → BitVec 8} {o : Object} {prev : BitVec 64} {pmm : Pmm}

section Steps

variable {s t : SlabSys} {slabs : Fin 8 → List Nat}

section

variable (I : s.Inv slabs)

include I

theorem SlabSys.Inv.frameOk (hn : n ∈ slabs i) : FrameOk n := (I.frame i n hn).1

/-- What happens inside the slab `n`, behind the link to the next one, is for `n` alone to check. -/
theorem SlabSys.Inv.update (hn : n ∈ slabs i) {live : List Object}
    (hnext : Same s.kmem.mem m 8 (pageAddr n))
    (hpage : ∀ n', n' ≠ n → Same s.kmem.mem m 4096 (pageAddr n'))
    (hslab : ∃ ks, SlabAt m live i n ks) (hlive : ∀ o ∈ live, o.IsBlock slabs)
    (hdistinct : live.Pairwise fun o o' => o.addr ≠ o'.addr)
    (hothers : ∀ j n' k, n' ≠ n → k < Mm.objPerSlab j →
    ((∀ o ∈ live, o.addr.toNat ≠ blockAddr j n' k) ↔
      ∀ o ∈ s.live, o.addr.toNat ≠ blockAddr j n' k)) : SlabSys.Inv
      { s with kmem.mem := m, live } slabs := by
  refine { I with list := fun j => ?_, slab := fun j n' hn' => ?_, live := hlive,
                  distinct := hdistinct }
  · refine (I.list j).congr fun x hx => ?_
    obtain ⟨n', hn', rfl⟩ := mem_map.1 hx
    simp only [nextSlab, toNat_pagePtr (I.frameOk hn')]
    refine congrArg _ (load_congr ?_)
    by_cases hne : n' = n
    · rwa [hne]
    · exact (hpage n' hne).mono (by omega) (by omega)
  · rcases eq_or_ne n' n with rfl | hne
    · obtain rfl := I.apart j i n' hn' hn
      exact hslab
    · obtain ⟨ks, hks⟩ := I.slab j n' hn'
      exact ⟨ks, hks.same_page ((hpage n' hne).mono (by omega) (by omega)) fun k hk =>
        hothers j n' k hne hk⟩

theorem SlabSys.Inv.write (ho : o ∈ s.live) {offset : Nat} (hoff : offset < o.length)
    (value : BitVec 8) : SlabSys.Inv
      { s with kmem.mem := Function.update s.kmem.mem (o.addr.toNat + offset) value } slabs := by
  obtain ⟨i, n, hn, k, hk, haddr, hlength, -⟩ := I.live o ho
  have hblock := block_inside n hk
  have hsame : ∀ l a, a + l ≤ blockAddr i n k ∨ blockAddr i n k + Mm.blockSize i ≤ a →
      Same s.kmem.mem (Function.update s.kmem.mem (o.addr.toNat + offset) value) l a :=
    fun l a h x hx hx' => Function.update_of_ne (by omega) ..
  obtain ⟨ks, hks⟩ := I.slab i n hn
  refine I.update hn (hsame _ _ (by omega)) (fun n' hne => hsame _ _ ?_)
    ⟨ks, hks.same (hsame _ _ (by omega))
    (fun l hl => hsame _ _ ?_) fun _ _ => Iff.rfl⟩ I.live I.distinct fun _ _ _ _ _ => Iff.rfl
  · have := page_apart hne
    omega
  · have := geometry i
    have := block_apart i n fun he : l = k => hks.notMem_of_live ho haddr (he ▸ hl)
    omega

theorem SlabSys.Inv.take {k : Nat} (hn : n ∈ slabs i) {ks : List Nat}
    (hks : SlabAt s.kmem.mem s.live i n (k :: ks)) (haddr : o.addr.toNat = blockAddr i n k)
    (hlength : o.length = Mm.blockSize i) (hsize : o.size ≤ o.length) : SlabSys.Inv
      { s with kmem.mem := takeBlock s.kmem.mem i n k, live := o :: s.live } slabs := by
  obtain ⟨hk, hnew⟩ := (hks.free k).1 mem_cons_self
  refine I.update hn (same_takeBlock i k (by omega)) (fun n' hne => same_takeBlock i k ?_)
    ⟨ks, hks.taken haddr⟩ (forall_mem_cons.2 ⟨⟨i, n, hn, k, hk, haddr, hlength, hsize⟩, I.live⟩)
    (pairwise_cons.2 ⟨fun o' ho' he => ?_, I.distinct⟩) fun j n' k' hne hk' => ?_
  · have := page_apart hne
    omega
  · exact hnew o' ho' (by rw [← he, haddr])
  · rw [forall_mem_cons, and_iff_right]
    exact fun he => hne (page_of_blockAddr hk hk' (haddr.symm.trans he)).symm

theorem SlabSys.Inv.give (ho : o ∈ s.live) :
    ∃ kmem, kfree s.kmem o.addr = .ok kmem ∧
      SlabSys.Inv { s with kmem, live := s.live.filter (·.addr ≠ o.addr) } slabs := by
  obtain ⟨i, n, hn, k, hk, haddr, -⟩ := I.live o ho
  obtain ⟨ks, hks⟩ := I.slab i n hn
  have hk' := hks.notMem_of_live ho haddr
  have hblock := block_inside n hk
  refine ⟨_, hks.give (I.blockSize i) hk hk' haddr, ?_⟩
  -- an address is no live object's any more iff it was not or it is the one that is given back
  have hfilter : ∀ a, (∀ o' ∈ s.live.filter (·.addr ≠ o.addr), o'.addr.toNat ≠ a) ↔
      a = o.addr.toNat ∨ ∀ o' ∈ s.live, o'.addr.toNat ≠ a := by
    intro a
    simp only [mem_filter, decide_eq_true_eq]
    constructor
    · intro h
      by_cases ha : a = o.addr.toNat
      · exact .inl ha
      · exact .inr fun o' ho' he => h o' ⟨ho', fun hoo => ha (by rw [← he, hoo])⟩ he
    · rintro (rfl | h) o' ⟨ho', hne⟩
      · exact fun he => hne (BitVec.eq_of_toNat_eq he)
      · exact h o' ho'
  refine I.update hn (same_giveBlock (by omega) (by omega)) (fun n' hne => ?_)
    ⟨k :: ks, hks.given hk hk' fun j hj => ?_⟩ (fun o' ho' => I.live o' (mem_filter.1 ho').1)
    (I.distinct.filter _) fun j n' k' hne hk'' => ?_
  · have := page_apart hne
    exact same_giveBlock (by omega) (by omega)
  · rw [hfilter, haddr]
    exact or_congr ⟨blockAddr_inj, fun he => by rw [he]⟩ Iff.rfl
  · rw [hfilter, haddr, or_iff_right]
    exact fun he => hne (page_of_blockAddr hk'' hk he)

/-! ### The walk along the slabs -/

end

/-- The walk stops at a slab with a free block, or behind the last one. -/
theorem slabWalk_cases {kmem : Kmem} {rest : List Nat} (hframe : ∀ n ∈ rest, FrameOk n) {fuel : Nat}
    {target : BitVec 64} (hfuel : rest.length < fuel)
    (hchain : Chain (nextSlab kmem.mem) 0 target (rest.map pagePtr)) :
    (∃ n ∈ rest, load kmem.mem 4 (pageAddr n + 24) < (kmem.caches i).objPerSlab ∧
      slabWalk fuel kmem i prev target = slabTake kmem i (pagePtr n)) ∨
    slabWalk fuel kmem i prev target = slabGrow kmem i ((rest.map pagePtr).getLastD prev) := by
  induction fuel generalizing rest prev target with
  | zero => omega
  | succ fuel ih =>
    rcases rest with _ | ⟨n, rest⟩
    · have hend : target = 0 := hchain
      rw [slabWalk, if_pos hend]
      exact .inr rfl
    obtain ⟨rfl, hne, hrest⟩ := hchain
    have hn := hframe n mem_cons_self
    rw [slabWalk, if_neg hne, toNat_pagePtr hn]
    split_ifs with hfull
    · exact .inl ⟨n, mem_cons_self, hfull, rfl⟩
    rw [nextSlab, toNat_pagePtr hn] at hrest
    have hlen : rest.length < fuel := Nat.lt_of_succ_lt_succ hfuel
    rcases ih (fun n hn => hframe n (mem_cons_of_mem _ hn)) hlen hrest with ⟨n', hn', h⟩ | h
    · exact .inl ⟨n', mem_cons_of_mem n hn', h⟩
    · refine .inr (h.trans ?_)
      rw [map_cons, getLastD_cons]

theorem SlabSys.Inv.length_lt (I : s.Inv slabs) (i : Fin 8) : (slabs i).length < 2 ^ 52 := by
  have hle : (slabs i).length ≤ (range (2 ^ 34)).length :=
    ((I.nodup i).subperm fun n hn => mem_range.2 (I.frameOk hn).2).length_le
  rw [length_range] at hle
  omega

/-! ### A slab more -/

/-- The memory with the page `n` put behind the slab `prev`. -/
def linkSlab (m : Nat → BitVec 8) (prev : BitVec 64) (n : Nat) : Nat → BitVec 8 :=
  let m := store m 8 (pageAddr n) 0
  if prev ≠ 0 then store m 8 prev.toNat (pageAddr n) else m

/-- The caches, with it the first slab of `i` if there is none before it. -/
def growCaches (caches : Fin 8 → SlabCache) (i : Fin 8) (prev : BitVec 64) (n : Nat) :
    Fin 8 → SlabCache :=
  if prev ≠ 0 then caches else Function.update caches i { caches i with slabs := pagePtr n }

theorem growCaches_geometry (caches : Fin 8 → SlabCache) (i j : Fin 8) (prev : BitVec 64)
    (n : Nat) : (growCaches caches i prev n j).blockSize = (caches j).blockSize ∧
      (growCaches caches i prev n j).objPerSlab = (caches j).objPerSlab := by
  rw [growCaches]
  split
  · exact ⟨rfl, rfl⟩
  by_cases hj : j = i
  · rw [hj, update_self]
    exact ⟨rfl, rfl⟩
  · rw [update_of_ne hj]
    exact ⟨rfl, rfl⟩

/-- The slabs, with it the last one of `i`. -/
def addSlab (slabs : Fin 8 → List Nat) (i : Fin 8) (n : Nat) : Fin 8 → List Nat :=
  Function.update slabs i (slabs i ++ [n])

theorem mem_addSlab {j : Fin 8} {n' : Nat} :
    n' ∈ addSlab slabs i n j ↔ n' ∈ slabs j ∨ (j = i ∧ n' = n) := by
  rw [addSlab]
  by_cases hj : j = i
  · rw [hj, update_self, mem_append, mem_singleton, and_iff_right rfl]
  · rw [update_of_ne hj, or_iff_left fun h => hj h.1]

theorem nodup_addSlab {j : Fin 8} (h : (slabs j).Nodup) (hn : n ∉ slabs j) :
    (addSlab slabs i n j).Nodup := by
  rw [addSlab]
  by_cases hj : j = i
  · subst hj
    rw [update_self]
    exact nodup_append.2 ⟨h, nodup_singleton n, fun a ha b hb he =>
      hn (mem_singleton.1 hb ▸ he ▸ ha)⟩
  · rwa [update_of_ne hj]

theorem slabGrow_eq {kmem : Kmem} (halloc : pmmAllocate kmem.pmm = .ok (frameAddr n, pmm))
    (hn : FrameOk n) (hsize : (kmem.caches i).blockSize = blockSize i)
    (hobj : (kmem.caches i).objPerSlab = objPerSlab i) :
    slabGrow kmem i prev = .ok (BitVec.ofNat 64 (blockAddr i n 0),
      { mem := newSlab (linkSlab kmem.mem prev n) i n
        caches := growCaches kmem.caches i prev n
        pmm }) := by
  have hlt := pageAddr_lt hn
  have hg := geometry i
  have hptr : frameAddr n + vmDmapBase = pagePtr n := rfl
  have hheader : (kmem.caches i).headerSize.toNat = headerSize i := by
    rw [SlabCache.headerSize, hsize]
    rfl
  have hmemory : (pagePtr n + (kmem.caches i).headerSize).toNat = pageAddr n + headerSize i := by
    rw [BitVec.toNat_add, toNat_pagePtr hn]
    omega
  have haddr : pagePtr n + (kmem.caches i).headerSize = BitVec.ofNat 64 (blockAddr i n 0) := by
    refine BitVec.eq_of_toNat_eq ?_
    rw [hmemory, toNat_blockAddr hn (by omega), blockAddr, zero_mul, add_zero]
  simp only [slabGrow, growCaches, halloc, hptr, toNat_pagePtr hn, hmemory, hsize, hobj]
  rw [haddr]
  rfl

theorem same_linkSlab {l a : Nat} (hn : a + l ≤ pageAddr n ∨ pageAddr n + 8 ≤ a)
    (hprev : a + l ≤ prev.toNat ∨ prev.toNat + 8 ≤ a) : Same m (linkSlab m prev n) l a := by
  rw [linkSlab]
  split
  · exact (same_store (by omega)).trans (same_store (by omega))
  · exact same_store (by omega)

theorem pagePtr_ne_zero (hn : FrameOk n) : pagePtr n ≠ 0 := by
  intro h
  have hnat := toNat_pagePtr hn
  rw [h, pageAddr, BitVec.ofNat_eq_ofNat, BitVec.toNat_zero] at hnat
  omega

section

variable (hprev : prev = 0 ∨ ∃ q, FrameOk q ∧ q ≠ n ∧ prev = pagePtr q)

include hprev

/-- Another page stays, but for the link if it is the one before. -/
theorem same_grow {n' l a : Nat} (hne : n' ≠ n) (ha : pageAddr n' ≤ a)
    (hl : a + l ≤ pageAddr n' + 4096) (hlink : prev ≠ pagePtr n' ∨ pageAddr n' + 8 ≤ a) :
    Same m (newSlab (linkSlab m prev n) i n) l a := by
  have hn := page_apart hne
  refine (same_linkSlab (by omega) ?_).trans (same_newSlab _ i (by omega))
  rcases hprev with rfl | ⟨q, hq, -, rfl⟩
  · rw [BitVec.ofNat_eq_ofNat, BitVec.toNat_zero]
    rw [pageAddr] at ha
    omega
  rw [toNat_pagePtr hq]
  by_cases hqn : q = n'
  · rw [hqn]
    exact .inr (hlink.resolve_left (not_not.2 (congrArg pagePtr hqn)))
  · have := page_apart hqn
    omega

theorem nextSlab_linkSlab (hn : FrameOk n) :
    nextSlab (newSlab (linkSlab m prev n) i n) (pagePtr n) = 0 ∧
      (prev ≠ 0 → nextSlab (newSlab (linkSlab m prev n) i n) prev = pagePtr n) ∧
      ∀ n', FrameOk n' → n' ≠ n → prev ≠ pagePtr n' →
        nextSlab (newSlab (linkSlab m prev n) i n) (pagePtr n') = nextSlab m (pagePtr n') := by
  have hlt := pageAddr_lt hn
  refine ⟨?_, fun hne => ?_, fun n' hn' hne hlast => ?_⟩
  · have hzero : load (linkSlab m prev n) 8 (pageAddr n) = 0 := by
      rw [linkSlab]
      rcases hprev with rfl | ⟨q, hq, hqn, rfl⟩
      · rw [if_neg (not_not.2 rfl), load_store, Nat.zero_mod]
      · have := page_apart hqn
        rw [if_pos (pagePtr_ne_zero hq), toNat_pagePtr hq, load_store_apart (by omega), load_store,
          Nat.zero_mod]
    rw [nextSlab, toNat_pagePtr hn, load_congr (same_newSlab _ i (by omega)), hzero]
    rfl
  · obtain ⟨q, hq, hqn, rfl⟩ := hprev.resolve_left hne
    have hpage : load (linkSlab m (pagePtr q) n) 8 (pageAddr q) = pageAddr n := by
      rw [linkSlab, if_pos hne, toNat_pagePtr hq, load_store]
      exact Nat.mod_eq_of_lt (by omega)
    have := page_apart hqn
    rw [nextSlab, toNat_pagePtr hq, load_congr (same_newSlab _ i (by omega)), hpage,
      ← toNat_pagePtr hn, BitVec.ofNat_toNat, BitVec.setWidth_eq]
  · rw [nextSlab, nextSlab, toNat_pagePtr hn',
      load_congr (same_grow hprev hne le_rfl (by omega) (.inl hlast))]

end

section

variable (I : s.Inv slabs)

include I

/-- The lists of slabs, with the new one at the end of one of them. -/
theorem SlabSys.Inv.list_grow (hn : FrameOk n) (hnew : ∀ j, n ∉ slabs j)
    (hprev : prev = ((slabs i).map pagePtr).getLastD 0) (j : Fin 8) :
    (prev = 0 ∨ ∃ q, FrameOk q ∧ q ≠ n ∧ prev = pagePtr q) ∧
    Chain (nextSlab (newSlab (linkSlab s.kmem.mem prev n) i n)) 0
      (growCaches s.kmem.caches i prev n j).slabs ((addSlab slabs i n j).map pagePtr) := by
  have hkeep : ∀ n' ∈ slabs j, n' ≠ n := fun n' hn' he => hnew j (he ▸ hn')
  rcases eq_nil_or_concat (slabs i) with hnil | ⟨xs, q, hxs⟩
  · -- the first slab of its cache
    rw [hnil] at hprev
    have h0 : prev = 0 := hprev
    obtain ⟨hend, -, hothers⟩ := @nextSlab_linkSlab i n s.kmem.mem prev (.inl h0) hn
    refine ⟨.inl h0, ?_⟩
    rw [growCaches, if_neg (not_not.2 h0), addSlab]
    by_cases hj : j = i
    · rw [hj, update_self, update_self, hnil]
      exact ⟨rfl, pagePtr_ne_zero hn, hend⟩
    rw [update_of_ne hj, update_of_ne hj]
    refine (I.list j).congr fun x hx => ?_
    obtain ⟨n', hn', rfl⟩ := mem_map.1 hx
    refine hothers n' (I.frameOk hn') (hkeep n' hn') ?_
    rw [h0]
    exact (pagePtr_ne_zero (I.frameOk hn')).symm
  · -- behind the last one, which is in no other list
    have hq : q ∈ slabs i := by simp [hxs]
    have hqOk := I.frameOk hq
    have hptr : prev = pagePtr q := by simp [hprev, hxs]
    have hinj n' j' (hn' : n' ∈ slabs j') (he : prev = pagePtr n') : n' = q := by
      have := toNat_pagePtr hqOk
      rw [← hptr, he, toNat_pagePtr (I.frameOk hn')] at this
      simp only [pageAddr] at this
      omega
    have hne : prev ≠ 0 := hptr ▸ pagePtr_ne_zero hqOk
    have hcase : prev = 0 ∨ ∃ q, FrameOk q ∧ q ≠ n ∧ prev = pagePtr q :=
      .inr ⟨q, hqOk, fun he => hnew i (he ▸ hq), hptr⟩
    obtain ⟨hend, hlast, hothers⟩ := @nextSlab_linkSlab i n s.kmem.mem prev hcase hn
    refine ⟨hcase, ?_⟩
    rw [growCaches, if_pos hne, addSlab]
    rcases eq_or_ne j i with rfl | hj
    · have hnd := I.nodup j
      have hlist := I.list j
      rw [hxs, concat_eq_append] at hnd hlist
      rw [update_self, hxs, concat_eq_append, map_append, map_append]
      rw [map_append] at hlist
      refine hlist.append (fun x hx => ?_) (by rw [← hptr]; exact hlast hne)
        (pagePtr_ne_zero hn) hend
      obtain ⟨n', hn', rfl⟩ := mem_map.1 hx
      have hmem : n' ∈ slabs j := by simp [hxs, hn']
      refine hothers n' (I.frameOk hmem) (hkeep n' hmem) fun he => ?_
      rw [hinj n' j hmem he] at hn'
      exact (disjoint_of_nodup_append hnd) hn' mem_cons_self
    · rw [update_of_ne hj]
      refine (I.list j).congr fun x hx => ?_
      obtain ⟨n', hn', rfl⟩ := mem_map.1 hx
      refine hothers n' (I.frameOk hn') (hkeep n' hn') fun he => ?_
      exact hj (I.apart j i q (hinj n' j hn' he ▸ hn') hq)

theorem SlabSys.Inv.notMem_of_free (hn : FrameOk n) (hfree : s.kmem.pmm.isFree n = true) :
    (∀ j, n ∉ slabs j) ∧ frameAddr n ∉ s.held ∧
      ∀ o ∈ s.live, ∀ j, ∀ k < Mm.objPerSlab j, o.addr.toNat ≠ blockAddr j n k := by
  have hslab : ∀ j, n ∉ slabs j :=
    fun j hj => Bool.false_ne_true ((I.frame j n hj).2.1.symm.trans hfree)
  refine ⟨hslab, fun hheld => ?_, fun o ho j k hk he => ?_⟩
  · obtain ⟨n', hn', heq, hfree'⟩ := I.held _ hheld
    simp [frameAddr_inj hn hn' heq, hfree'] at hfree
  · obtain ⟨j', n', hn', k', hk', haddr, -⟩ := I.live o ho
    exact hslab j' (page_of_blockAddr hk hk' (he.symm.trans haddr) ▸ hn')

/-- The page of the new slab was free, so that it is no other slab and no object is in it. -/
theorem SlabSys.Inv.grow (hn : FrameOk n) (hfree : s.kmem.pmm.isFree n = true)
    (hpmm : ∀ m, pmm.isFree m = (s.kmem.pmm.isFree m && decide (m ≠ n)))
    (haddr : o.addr.toNat = blockAddr i n 0) (hlength : o.length = Mm.blockSize i)
    (hsize : o.size ≤ o.length) (hprev : prev = ((slabs i).map pagePtr).getLastD 0) : SlabSys.Inv
      { s with
        kmem :=
          { mem := newSlab (linkSlab s.kmem.mem prev n) i n
            caches := growCaches s.kmem.caches i prev n
            pmm }
        live := o :: s.live } (addSlab slabs i n) := by
  have hg := geometry i
  obtain ⟨hnew, hheld, hnone⟩ := I.notMem_of_free hn hfree
  have hlists := I.list_grow hn hnew hprev
  have hstill n' (h : s.kmem.pmm.isFree n' = false) : pmm.isFree n' = false := by
    rw [hpmm, h, Bool.false_and]
  refine ⟨fun j => ?_, fun j => ?_, fun j => (hlists j).2, fun j n' hn' => ?_,
    fun j => nodup_addSlab (I.nodup j) (hnew j), fun j j' n' hj hj' => ?_, fun j n' hn' => ?_,
    forall_mem_cons.2 ⟨?_, fun o' ho' => ?_⟩,
    pairwise_cons.2 ⟨fun o' ho' he => ?_, I.distinct⟩, fun n' hn' => ?_, fun a ha => ?_,
    I.heldNodup⟩
  · exact (growCaches_geometry ..).1.trans (I.blockSize j)
  · exact (growCaches_geometry ..).2.trans (I.objPerSlab j)
  · rcases mem_addSlab.1 hn' with h | ⟨-, rfl⟩
    · obtain ⟨hok, hf, hh⟩ := I.frame j n' h
      exact ⟨hok, hstill n' hf, hh⟩
    · exact ⟨hn, by rw [hpmm]; simp, hheld⟩
  · rcases mem_addSlab.1 hj with h | ⟨rfl, rfl⟩ <;> rcases mem_addSlab.1 hj' with h' | ⟨rfl, h'⟩
    · exact I.apart j j' n' h h'
    · exact absurd (h' ▸ h) (hnew j)
    · exact absurd h' (hnew j')
    · rfl
  · rcases mem_addSlab.1 hn' with h | ⟨rfl, rfl⟩
    · obtain ⟨ks, hks⟩ := I.slab j n' h
      have hne : n' ≠ n := fun he => hnew j (he ▸ h)
      refine ⟨ks, hks.same_page (same_grow (hlists j).1 hne (by omega) (by omega) (.inr le_rfl))
        fun k hk => ?_⟩
      rw [forall_mem_cons, and_iff_right]
      exact fun he => hne (page_of_blockAddr (show 0 < Mm.objPerSlab i by omega) hk
        (haddr.symm.trans he)).symm
    · exact ⟨_, slabAt_newSlab haddr hn fun k hk o' ho' => hnone o' ho' j k hk⟩
  · exact ⟨i, n, mem_addSlab.2 (.inr ⟨rfl, rfl⟩), 0, by omega, haddr, hlength, hsize⟩
  · obtain ⟨j, n', hn', rest⟩ := I.live o' ho'
    exact ⟨j, n', mem_addSlab.2 (.inl hn'), rest⟩
  · exact hnone o' ho' i 0 (by omega) (by rw [← he, haddr])
  · rw [hpmm, Bool.and_eq_true] at hn'
    exact I.pmm n' hn'.1
  · obtain ⟨n', hn', he, hf⟩ := I.held a ha
    exact ⟨n', hn', he, hstill n' hf⟩

/-! ### `kmalloc` -/

theorem SlabSys.Inv.kmCacheFor {size : Nat} (hsize : size ≤ 1024) :
    ∃ i, Mm.kmCacheFor s.kmem.caches size = some i ∧ size ≤ Mm.blockSize i := by
  have hsome : (Mm.kmCacheFor s.kmem.caches size).isSome = true := by
    rw [Mm.kmCacheFor, find?_isSome]
    refine ⟨7, mem_finRange 7, ?_⟩
    rwa [I.blockSize, decide_eq_true_eq]
  obtain ⟨i, hi⟩ := isSome_iff_exists.1 hsome
  have hle := find?_some hi
  rw [I.blockSize, decide_eq_true_eq] at hle
  exact ⟨i, hi, hle⟩

/-- **`kmalloc`** returns a block that is no other object's, unless there is no memory left. -/
theorem SlabSys.Inv.kmalloc {size : Nat} (hsize : size ≤ 1024) :
    (∃ used free, Mm.kmalloc s.kmem size = .error (.mm (.outOfMemory used free))) ∨
    ∃ i addr kmem slabs', Mm.kmCacheFor s.kmem.caches size = some i ∧
    Mm.kmalloc s.kmem size = .ok (addr, kmem) ∧
      SlabSys.Inv { s with kmem, live := ⟨addr, size, (s.kmem.caches i).blockSize⟩ :: s.live }
      slabs' := by
  obtain ⟨i, hi, hle⟩ := I.kmCacheFor hsize
  have hlength : (s.kmem.caches i).blockSize = Mm.blockSize i := I.blockSize i
  have hkmalloc : Mm.kmalloc s.kmem size = slabWalk (2 ^ 52) s.kmem i 0
      (s.kmem.caches i).slabs := by
    rw [Mm.kmalloc, hi]
    rfl
  rw [hkmalloc]
  rcases slabWalk_cases (fun n hn => I.frameOk hn) (I.length_lt i) (I.list i) with
    ⟨n, hn, hfull, hwalk⟩ | hwalk
  · obtain ⟨ks, hks⟩ := I.slab i n hn
    rw [I.objPerSlab] at hfull
    obtain ⟨k, ks', rfl, htake⟩ := hks.take (I.frameOk hn) hlength (I.objPerSlab i) hfull
    refine .inr ⟨i, _, _, slabs, hi, hwalk.trans htake, ?_⟩
    exact I.take hn hks (toNat_blockAddr (I.frameOk hn) (hks.lt mem_cons_self)) hlength
      (hle.trans_eq hlength.symm)
  · rw [hwalk]
    rcases halloc : pmmAllocate s.kmem.pmm with _ | r
    · refine .inl ⟨s.kmem.pmm.used, s.kmem.pmm.available, ?_⟩
      rw [slabGrow, halloc, pmmAllocate_error halloc]
    obtain ⟨phys, pmm⟩ := r
    obtain ⟨n, rfl, hfree, -, hpmm, -⟩ := pmmAllocate_spec halloc
    have hn := I.pmm n hfree
    have hpos := (geometry i).2.2.1
    refine .inr ⟨i, _, _, addSlab slabs i n, hi, slabGrow_eq halloc hn hlength (I.objPerSlab i), ?_⟩
    exact I.grow hn hfree hpmm (toNat_blockAddr hn hpos) hlength (hle.trans_eq hlength.symm) rfl

/-! ### The frames of others -/

theorem SlabSys.Inv.pmmAllocate {addr : BitVec 64}
    (h : Mm.pmmAllocate s.kmem.pmm = .ok (addr, pmm)) :
    SlabSys.Inv { s with kmem.pmm := pmm, held := addr :: s.held } slabs := by
  obtain ⟨n, rfl, hfree, -, hpmm, -⟩ := pmmAllocate_spec h
  have hn := I.pmm n hfree
  obtain ⟨hnew, hheld, -⟩ := I.notMem_of_free hn hfree
  have hstill n' (h : s.kmem.pmm.isFree n' = false) : pmm.isFree n' = false := by
    rw [hpmm, h, Bool.false_and]
  refine { I with frame := fun j n' hn' => ?_, pmm := fun n' hn' => ?_, held := fun a ha => ?_,
                  heldNodup := nodup_cons.2 ⟨hheld, I.heldNodup⟩ }
  · obtain ⟨hok, hf, hh⟩ := I.frame j n' hn'
    refine ⟨hok, hstill n' hf, ?_⟩
    rw [mem_cons, not_or]
    exact ⟨fun he => hnew j (frameAddr_inj hok hn he ▸ hn'), hh⟩
  · rw [hpmm, Bool.and_eq_true] at hn'
    exact I.pmm n' hn'.1
  · rcases mem_cons.1 ha with rfl | ha
    · exact ⟨n, hn, rfl, by rw [hpmm]; simp⟩
    · obtain ⟨n', hn', he, hf⟩ := I.held a ha
      exact ⟨n', hn', he, hstill n' hf⟩

theorem SlabSys.Inv.pmmFree {addr : BitVec 64} (haddr : addr ∈ s.held)
    (h : Mm.pmmFree s.kmem.pmm addr = .ok pmm) :
    SlabSys.Inv { s with kmem.pmm := pmm, held := s.held.erase addr } slabs := by
  obtain ⟨hpmm, -⟩ := pmmFree_spec h
  obtain ⟨n, hn, rfl, -⟩ := I.held addr haddr
  have hn2 := hn.2
  rw [frameOf_frameAddr_of_lt (by omega)] at hpmm
  have hstill n' (hn' : FrameOk n') (hne : frameAddr n' ≠ frameAddr n)
      (h : s.kmem.pmm.isFree n' = false) : pmm.isFree n' = false := by
    have : n' ≠ n := fun he => hne (by rw [he])
    rw [hpmm, h]
    simp [this]
  refine { I with frame := fun j n' hn' => ?_, pmm := fun n' hn' => ?_, held := fun a ha => ?_,
                  heldNodup := I.heldNodup.erase _ }
  · obtain ⟨hok, hf, hh⟩ := I.frame j n' hn'
    exact ⟨hok, hstill n' hok (fun he => hh (by rw [he]; exact haddr)) hf, fun hm =>
      hh (mem_of_mem_erase hm)⟩
  · rw [hpmm, Bool.or_eq_true, decide_eq_true_eq] at hn'
    rcases hn' with hn' | rfl
    · exact I.pmm n' hn'
    · exact hn
  · rw [I.heldNodup.mem_erase_iff] at ha
    obtain ⟨n', hn', rfl, hf⟩ := I.held a ha.2
    exact ⟨n', hn', rfl, hstill n' hn' ha.1 hf⟩

/-! ## Every run -/

end

theorem SlabSys.inv_step {a : SlabAction} (h : s.step a = some t) (I : s.Inv slabs) :
    ∃ slabs', t.Inv slabs' := by
  cases a with
  | kmalloc size =>
    simp only [SlabSys.step] at h
    split at h
    · rename_i addr kmem i hkmalloc hcache
      obtain rfl := some_inj.1 h
      have hsize : size ≤ 1024 := by
        have hle := find?_some hcache
        rw [I.blockSize, decide_eq_true_eq] at hle
        exact hle.trans ((by decide : ∀ i, blockSize i ≤ 1024) i)
      rcases I.kmalloc hsize with ⟨_, _, hfail⟩ | ⟨i', addr', kmem', slabs', hcache', hok, I'⟩
      · simp [hkmalloc] at hfail
      rw [hkmalloc] at hok
      rw [hcache, some_inj] at hcache'
      obtain ⟨rfl, rfl⟩ := hok
      subst hcache'
      exact ⟨slabs', I'⟩
    · cases h
  | kfree o =>
    obtain ⟨ho, h⟩ := ite_none_right_eq_some.1 h
    obtain ⟨kmem, hok, I'⟩ := I.give ho
    rw [hok] at h
    exact ⟨slabs, some_inj.1 h ▸ I'⟩
  | write o offset value =>
    obtain ⟨ho, h⟩ := ite_none_right_eq_some.1 h
    exact ⟨slabs, some_inj.1 h ▸ I.write ho.1 ho.2 value⟩
  | pmmAllocate =>
    simp only [SlabSys.step] at h
    split at h
    · rename_i addr pmm halloc
      exact ⟨slabs, some_inj.1 h ▸ I.pmmAllocate halloc⟩
    · cases h
  | pmmFree addr =>
    obtain ⟨haddr, h⟩ := ite_none_right_eq_some.1 h
    split at h
    · rename_i pmm hfree
      exact ⟨slabs, some_inj.1 h ▸ I.pmmFree haddr hfree⟩
    · cases h

theorem SlabSys.inv_run (hboot : s.Boot) {as : List SlabAction}
    (hrun : run SlabSys.step s as = some t) : ∃ slabs, t.Inv slabs :=
  run_invariant (I := fun s => ∃ slabs, s.Inv slabs) (fun _ _ _ ⟨_, I⟩ h => SlabSys.inv_step h I)
    ⟨_, hboot.inv⟩ hrun

end Steps

/-! ## What the allocator promises -/

/-- `slab` is in the list of slabs of cache `i`. -/
def Kmem.IsSlab (kmem : Kmem) (i : Fin 8) (slab : BitVec 64) : Prop :=
  ∃ slabs, Chain (nextSlab kmem.mem) 0 (kmem.caches i).slabs slabs ∧ slab ∈ slabs

/-- The object is at least as long as was asked for, and it is in a slab, behind its header. -/
structure Object.Placed (kmem : Kmem) (o : Object) : Prop where
  size : o.size ≤ o.length
  slab : ∃ i, kmem.IsSlab i (alignDown o.addr)
  header : (alignDown o.addr).toNat + 32 ≤ o.addr.toNat
  page : o.addr.toNat + o.length ≤ (alignDown o.addr).toNat + 4096

def Object.Apart (o o' : Object) : Prop :=
  o.addr.toNat + o.length ≤ o'.addr.toNat ∨ o'.addr.toNat + o'.length ≤ o.addr.toNat

/-- The chain from `free` visits the blocks that are free, `obj_per_slab - in_use` of them, each
once, and ends at `obj_per_slab`. -/
def FreeChain (kmem : Kmem) (live : List Object) (i : Fin 8) (slab : BitVec 64) : Prop :=
  ∃ ks, Chain (fun k => load kmem.mem 4 (slab.toNat + headerSize i + k * blockSize i))
    (objPerSlab i)
      (load kmem.mem 4 (slab.toNat + 28)) ks ∧
    ks.Nodup ∧ load kmem.mem 4 (slab.toNat + 24) ≤ objPerSlab i ∧
    ks.length = objPerSlab i - load kmem.mem 4 (slab.toNat + 24) ∧
    ∀ k, k ∈ ks ↔ k < objPerSlab i ∧
      ∀ o ∈ live, o.addr.toNat ≠ slab.toNat + headerSize i + k * blockSize i

section Promises

variable {s : SlabSys} {slabs : Fin 8 → List Nat}

theorem SlabSys.Inv.placed (I : s.Inv slabs) (ho : o ∈ s.live) : o.Placed s.kmem := by
  obtain ⟨i, n, hn, k, hk, haddr, hlength, hsize⟩ := I.live o ho
  have hblock := block_inside n hk
  have hpage := alignDown_blockAddr hk haddr
  have hptr : alignDown o.addr = pagePtr n :=
    BitVec.eq_of_toNat_eq (hpage.trans (toNat_pagePtr (I.frameOk hn)).symm)
  refine ⟨hsize, ⟨i, _, I.list i, ?_⟩, ?_, ?_⟩
  · rw [hptr]
    exact mem_map_of_mem hn
  · rw [hpage, haddr]
    exact hblock.1
  · rw [hpage, haddr, hlength]
    exact hblock.2

theorem SlabSys.Inv.objects_apart (I : s.Inv slabs) : s.live.Pairwise Object.Apart := by
  refine I.distinct.imp_of_mem fun ho ho' hne => ?_
  obtain ⟨i, n, hn, k, hk, haddr, hlength, -⟩ := I.live _ ho
  obtain ⟨i', n', hn', k', hk', haddr', hlength', -⟩ := I.live _ ho'
  have hblock := block_inside n hk
  have hblock' := block_inside n' hk'
  rw [Object.Apart, haddr, haddr', hlength, hlength']
  rcases eq_or_ne n n' with rfl | hpage
  · obtain rfl := I.apart i i' n hn hn'
    have hkk : k ≠ k' := fun he => hne (BitVec.eq_of_toNat_eq (by rw [haddr, haddr', he]))
    exact block_apart i n hkk
  · have := page_apart hpage
    omega

theorem SlabSys.Inv.freeChain (I : s.Inv slabs) {slab : BitVec 64} (h : s.kmem.IsSlab i slab) :
    FreeChain s.kmem s.live i slab := by
  obtain ⟨ptrs, hptrs, hmem⟩ := h
  rw [hptrs.unique (I.list i)] at hmem
  obtain ⟨n, hn, rfl⟩ := mem_map.1 hmem
  obtain ⟨ks, hks⟩ := I.slab i n hn
  have hin := hks.inUse
  rw [FreeChain, toNat_pagePtr (I.frameOk hn)]
  exact ⟨ks, hks.chain, hks.nodup, by omega, by omega, hks.free⟩

end Promises

/-- **The slab allocator.**  In every state that a run of `kmalloc`, `kfree`, writes of owners to
their objects and allocations of frames by others leads to:

* `kmalloc` of up to 1024 bytes returns an object that is large enough, is behind the header of a
  slab and overlaps no live one; it panics only when there is no frame left;
* `kfree` of a live object does not panic;
* the live objects are in their slabs and do not overlap;
* the chain of free blocks of every slab is what it should be. -/
theorem slabs_sound {s₀ s : SlabSys} (hboot : s₀.Boot) {as : List SlabAction}
    (hrun : run SlabSys.step s₀ as = some s) : (∀ size ≤ 1024,
      (∃ used free, kmalloc s.kmem size = .error (.mm (.outOfMemory used free))) ∨
      ∃ addr kmem length, kmalloc s.kmem size = .ok (addr, kmem) ∧
        Object.Placed kmem ⟨addr, size, length⟩ ∧
        ∀ o ∈ s.live, Object.Apart ⟨addr, size, length⟩ o) ∧
    (∀ o ∈ s.live, ∃ kmem, kfree s.kmem o.addr = .ok kmem) ∧
    (∀ o ∈ s.live, o.Placed s.kmem) ∧ s.live.Pairwise Object.Apart ∧
    (∀ i, ∃ slabs, Chain (nextSlab s.kmem.mem) 0 (s.kmem.caches i).slabs slabs) ∧
    ∀ i slab, s.kmem.IsSlab i slab → FreeChain s.kmem s.live i slab := by
  obtain ⟨slabs, I⟩ := SlabSys.inv_run hboot hrun
  refine ⟨fun size hsize => ?_, fun o ho => ?_, fun o ho => I.placed ho, I.objects_apart,
    fun i => ⟨_, I.list i⟩, fun i slab h => I.freeChain h⟩
  · rcases I.kmalloc hsize with h | ⟨i, addr, kmem, slabs', -, hok, I'⟩
    · exact .inl h
    · exact .inr ⟨addr, kmem, _, hok, I'.placed mem_cons_self, (pairwise_cons.1 I'.objects_apart).1⟩
  · obtain ⟨kmem, hok, -⟩ := I.give ho
    exact ⟨kmem, hok⟩

/-- After `slab_init`, with frame 1 free. -/
def oneFrame : SlabSys :=
  { kmem :=
      { mem := fun _ => 0
        caches := slabInit kmCaches
        pmm := { bitmap := [2], available := 1, used := 0, doubleFree := false } }
    live := []
    held := [] }

/-- Two objects are made there, and the first one is given back. -/
theorem slabs_sound_twoObjects : ∃ s, run SlabSys.step oneFrame [.kmalloc 600, .kmalloc 1000,
    .kfree ⟨0xffff800000001400, 600, 1024⟩] = some s ∧ s.live.Pairwise Object.Apart := by
  have hsome : (run SlabSys.step oneFrame [.kmalloc 600, .kmalloc 1000,
    .kfree ⟨0xffff800000001400, 600, 1024⟩]).isSome = true := by rfl
  obtain ⟨s, hs⟩ := isSome_iff_exists.1 hsome
  have hboot : oneFrame.Boot :=
    ⟨rfl, rfl, Pmm.ok_of_word rfl rfl, fun _ h => absurd h not_mem_nil, nodup_nil⟩
  exact ⟨s, hs, (slabs_sound hboot hs).2.2.2.1⟩

end Monolith.Mm
