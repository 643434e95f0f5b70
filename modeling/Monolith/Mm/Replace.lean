import Monolith.Mm.Fill
import Monolith.Mm.System

/-!
# Mappings that replace others

With `VM_FLAG_REPLACE`, the flag of `MAP_FIXED`, `vm_space_map` puts its object where others may be.
What it should do is `Replaced`: the list is in order, the new object has the range, the pages of
the old mapping are gone, and around the range nothing changes.

The code looks at one object only, the one that has the first address of the range, and drops the
part of it in front of the range (`replace_drops_front`), while the part behind keeps the old file
offset. Objects that begin inside the range stay, and so do pages that the new object does not map
at once. `replaced_iff` says when none of that happens.
-/

namespace Monolith.Mm

open Fallible TableForest Fs Transition List VmObject Option
open BitVec (lt_def le_def)

variable {o x : VmObject} {xs ys : List VmObject}

/-! ## The list -/

/-- Where the new object `o` goes: into a gap, or onto the object `x` that has its first address. -/
inductive Spot (o : VmObject) (xs ys : List VmObject) : Prop where
  | gap (as bs : List VmObject) : xs = as ++ bs → ys = as ++ o :: bs → (∀ a ∈ as, a.hi ≤ o.lo) →
      (∀ b ∈ bs, o.lo < b.lo ∧ o.hi ≤ b.lo) → Spot o xs ys
  | onto (as : List VmObject) (x : VmObject) (rest : List VmObject) : xs = as ++ x :: rest →
      ys = as ++ o :: (replaceBefore o x ++ rest) → (∀ a ∈ as, a.hi ≤ o.lo) → x.base ≤ o.base →
      o.lo < x.hi → Spot o xs ys

theorem Spot.cons (S : Spot o xs ys) (hx : x.hi ≤ o.lo) : Spot o (x :: xs) (x :: ys) := by
  cases S with
  | gap as bs hxs hys has hbs =>
    refine .gap (x :: as) bs (by rw [hxs]; rfl) (by rw [hys]; rfl) (fun a ha => ?_) hbs
    rcases mem_cons.1 ha with rfl | ha
    · exact hx
    · exact has a ha
  | onto as z rest hxs hys has hle hlt =>
    refine .onto (x :: as) z rest (by rw [hxs]; rfl) (by rw [hys]; rfl) (fun a ha => ?_) hle hlt
    rcases mem_cons.1 ha with rfl | ha
    · exact hx
    · exact has a ha

theorem spot_of_placeObj (ho : o.NoWrap) (hwrap : ∀ x ∈ xs, x.NoWrap) (hap : Apart xs)
    (h : placeObj true o xs = some ys) : Spot o xs ys := by
  induction xs generalizing ys with
  | nil =>
    rw [placeObj, some_inj] at h
    exact .gap [] [] rfl h.symm (by simp) (by simp)
  | cons x xs ih =>
    have hx := toNat_limit (hwrap x mem_cons_self)
    obtain ⟨hhead, hap⟩ := Intervals.apart_cons.1 hap
    rw [placeObj] at h
    split at h
    · rename_i hle
      split at h
      · rename_i hlt
        rw [if_pos rfl, some_inj] at h
        rw [lt_def, hx] at hlt
        exact .onto [] x xs rfl h.symm (by simp) hle hlt
      · rename_i hlt
        rw [lt_def, hx, not_lt] at hlt
        obtain ⟨zs, hzs, rfl⟩ := map_eq_some_iff.1 h
        exact (ih (fun y hy => hwrap y (mem_cons_of_mem x hy)) hap hzs).cons hlt
    · rename_i hle
      rw [ite_none_left_eq_some, some_inj] at h
      rw [le_def, not_le] at hle
      have hend := h.1
      rw [lt_def, toNat_limit ho, not_lt] at hend
      refine .gap [] (x :: xs) rfl h.2.symm (by simp) fun b hb => ?_
      rcases mem_cons.1 hb with rfl | hb
      · exact ⟨hle, hend⟩
      have hxb := hhead b hb
      have hxx : x.lo ≤ x.hi := Nat.le_add_right ..
      have hlo : o.lo < x.lo := hle
      have hhi : o.hi ≤ x.lo := hend
      exact ⟨by omega, by omega⟩

/-- **The list is in order** just when no object begins inside the range. -/
theorem Spot.apart_iff (S : Spot o xs ys) (ho : o.NoWrap) (hap : Apart xs) :
    Apart ys ↔ ∀ x ∈ xs, x.lo ≤ o.lo ∨ o.hi ≤ x.lo := by
  have hoo : o.lo ≤ o.hi := Nat.le_add_right ..
  cases S with
  | gap as bs hxs hys has hbs =>
    subst hxs hys
    obtain ⟨hpas, hpbs, hcross⟩ := pairwise_append.1 hap
    refine iff_of_true ?_ fun x hx => ?_
    · refine pairwise_append.2 ⟨hpas, pairwise_cons.2 ⟨fun b hb => (hbs b hb).2, hpbs⟩, ?_⟩
      intro a ha b hb
      rcases mem_cons.1 hb with rfl | hb
      · exact has a ha
      · exact hcross a ha b hb
    · rcases mem_append.1 hx with hx | hx
      · exact .inl ((Nat.le_add_right x.lo _).trans (has x hx))
      · exact .inr (hbs x hx).2
  | onto as x rest hxs hys has hle hlt =>
    subst hxs hys
    obtain ⟨hpas, hpx, hcross⟩ := pairwise_append.1 hap
    obtain ⟨hxrest, hprest⟩ := pairwise_cons.1 hpx
    have hleft : ∀ y ∈ replaceBefore o x, y.lo = o.hi ∧ y.hi = x.hi := fun y hy =>
      ⟨(hi_replaceBefore ho hle hy).1, (hi_replaceBefore ho hle hy).2.1⟩
    constructor
    · intro hys z hz
      rcases mem_append.1 hz with hz | hz
      · exact .inl ((Nat.le_add_right z.lo _).trans (has z hz))
      rcases mem_cons.1 hz with rfl | hz
      · exact .inl (le_def.1 hle)
      · have hpo := (pairwise_append.1 hys).2.1
        exact .inr ((pairwise_cons.1 hpo).1 z (mem_append_right _ hz))
    · intro hstarts
      have horest : ∀ z ∈ rest, o.hi ≤ z.lo := by
        intro z hz
        have hxz := hxrest z hz
        rcases hstarts z (mem_append_right as (mem_cons_of_mem x hz)) with h | h
        · omega
        · exact h
      have hsingle : (replaceBefore o x).Pairwise fun a b => a.hi ≤ b.lo := by
        rw [replaceBefore]
        split
        · exact Pairwise.nil
        · exact pairwise_singleton ..
      refine pairwise_append.2 ⟨hpas, pairwise_cons.2 ⟨fun b hb => ?_,
        pairwise_append.2 ⟨hsingle, hprest, fun y hy z hz => ?_⟩⟩, fun a ha b hb => ?_⟩
      · rcases mem_append.1 hb with hb | hb
        · exact (hleft b hb).1.ge
        · exact horest b hb
      · rw [(hleft y hy).2]
        exact hxrest z hz
      · have hao := has a ha
        rcases mem_cons.1 hb with rfl | hb
        · exact hao
        rcases mem_append.1 hb with hb | hb
        · have := (hleft b hb).1
          omega
        · exact hcross a ha b (mem_cons_of_mem x hb)

theorem Spot.mem (S : Spot o xs ys) : o ∈ ys := by
  cases S with
  | gap as bs _ hys | onto as x rest _ hys =>
    rw [hys]
    exact mem_append_right as mem_cons_self

/-- Every address that is not from `l` to `h` and was covered is covered by an object that does the
same for it. -/
def SameOutside (l h : Nat) (xs ys : List VmObject) : Prop :=
  ∀ addr : BitVec 64, ¬ (l ≤ addr.toNat ∧ addr.toNat < h) → ∀ x ∈ xs, x.contains addr = true →
    ∃ y ∈ ys, y.contains addr = true ∧ y.prot = x.prot ∧ y.flags = x.flags ∧ y.file = x.file ∧
      (has x.flags vmFlagFile = true → y.offset + (addr - y.base) = x.offset + (addr - x.base))

/-- The first address is the first of its object, and if the object goes on behind the range it has
no file. -/
def FrontOk (l h : Nat) (xs : List VmObject) : Prop :=
  ∀ x ∈ xs, x.lo ≤ l → l < x.hi → x.lo = l ∧ (l = h ∨ x.hi ≤ h ∨ has x.flags vmFlagFile = false)

section onto

variable {as rest : List VmObject}

/-- An address of `x` that is not in the range can only be in what is left of `x`. -/
theorem mem_replaceBefore_of_contains (ho : o.NoWrap) (hwrap : ∀ z ∈ as ++ x :: rest, z.NoWrap)
    (hap : Apart (as ++ x :: rest)) {addr : BitVec 64}
    (haddr : x.lo ≤ addr.toNat ∧ addr.toNat < x.hi)
    (hout : ¬ (o.lo ≤ addr.toNat ∧ addr.toNat < o.hi)) {y : VmObject}
    (hy : y ∈ as ++ o :: (replaceBefore o x ++ rest)) (hc : y.contains addr = true) :
    y ∈ replaceBefore o x := by
  obtain ⟨-, hpx, hcross⟩ := pairwise_append.1 hap
  have hxrest := (pairwise_cons.1 hpx).1
  rcases mem_append.1 hy with hy | hy
  · rw [contains_iff (hwrap y (mem_append_left _ hy))] at hc
    have := hcross y hy x mem_cons_self
    omega
  rcases mem_cons.1 hy with rfl | hy
  · rw [contains_iff ho] at hc
    exact absurd hc hout
  rcases mem_append.1 hy with hy | hy
  · exact hy
  rw [contains_iff (hwrap y (mem_append_right as (mem_cons_of_mem x hy)))] at hc
  have := hxrest y hy
  omega

theorem SameOutside.front (ho : o.NoWrap) (hwrap : ∀ z ∈ as ++ x :: rest, z.NoWrap)
    (hap : Apart (as ++ x :: rest)) (hle : x.base ≤ o.base) (hlt : o.lo < x.hi)
    (h : SameOutside o.lo o.hi (as ++ x :: rest) (as ++ o :: (replaceBefore o x ++ rest))) :
    x.lo = o.lo ∧ (o.lo = o.hi ∨ x.hi ≤ o.hi ∨ has x.flags vmFlagFile = false) := by
  have hmem : x ∈ as ++ x :: rest := mem_append_right as mem_cons_self
  have hx := hwrap x hmem
  have hxo : x.lo ≤ o.lo := le_def.1 hle
  have hoo : o.lo ≤ o.hi := Nat.le_add_right ..
  refine ⟨?_, ?_⟩
  · -- otherwise the first address of `x` is not covered any more
    by_contra hne
    have haddr : x.lo ≤ x.base.toNat ∧ x.base.toNat < x.hi := ⟨le_rfl, hxo.trans_lt hlt⟩
    have hout : ¬ (o.lo ≤ x.base.toNat ∧ x.base.toNat < o.hi) :=
      fun hc => hne (le_antisymm hxo hc.1)
    obtain ⟨y, hy, hc, -⟩ := h x.base hout x hmem ((contains_iff hx).2 haddr)
    obtain ⟨hylo, hyhi, -⟩ :=
      hi_replaceBefore ho hle (mem_replaceBefore_of_contains ho hwrap hap haddr hout hy hc)
    have hyw : y.NoWrap := by rw [VmObject.NoWrap, hyhi]; exact hx
    rw [contains_iff hyw] at hc
    have hlo : x.lo = x.base.toNat := rfl
    omega
  · -- otherwise the file offset behind the range is another one
    by_contra hne
    rw [not_or, not_or, Bool.not_eq_false] at hne
    obtain ⟨hlen, hhi, hfile⟩ := hne
    have hlim : o.limit.toNat = o.hi := toNat_limit ho
    have haddr : x.lo ≤ o.limit.toNat ∧ o.limit.toNat < x.hi := by omega
    have hout : ¬ (o.lo ≤ o.limit.toNat ∧ o.limit.toNat < o.hi) := by omega
    obtain ⟨y, hy, hc, -, -, -, hoffset⟩ := h o.limit hout x hmem ((contains_iff hx).2 haddr)
    obtain ⟨hylo, -, -, -, -, -, hyoff⟩ :=
      hi_replaceBefore ho hle (mem_replaceBefore_of_contains ho hwrap hap haddr hout hy hc)
    have hbase : y.base = o.limit := BitVec.eq_of_toNat_eq (by rw [hlim]; exact hylo)
    have hsame := hoffset hfile
    rw [hbase, hyoff, BitVec.sub_self, BitVec.add_zero] at hsame
    have hzero : o.limit - x.base = 0 := left_eq_add.1 hsame
    have hdist := (replaceBefore_eq ho hle).1
    rw [hzero] at hdist
    change 0 = o.hi - x.lo at hdist
    omega

theorem FrontOk.outside (ho : o.NoWrap) (hwrap : ∀ z ∈ as ++ x :: rest, z.NoWrap)
    (hle : x.base ≤ o.base)
    (hfront : x.lo = o.lo ∧ (o.lo = o.hi ∨ x.hi ≤ o.hi ∨ has x.flags vmFlagFile = false)) :
    SameOutside o.lo o.hi (as ++ x :: rest) (as ++ o :: (replaceBefore o x ++ rest)) := by
  intro addr hout z hz hc
  rcases mem_append.1 hz with hz | hz
  · exact ⟨z, mem_append_left _ hz, hc, rfl, rfl, rfl, fun _ => rfl⟩
  rcases mem_cons.1 hz with rfl | hz
  · have hw := hwrap z (mem_append_right as mem_cons_self)
    rw [contains_iff hw] at hc
    obtain ⟨y, hy⟩ := exists_replaceBefore ho hle (by omega : o.hi < z.hi)
    have hmem : y ∈ replaceBefore o z := by rw [hy]; exact mem_singleton_self y
    obtain ⟨hylo, hyhi, -, hprot, hflags, hfile, hoffset⟩ := hi_replaceBefore ho hle hmem
    have hyw : y.NoWrap := by rw [VmObject.NoWrap, hyhi]; exact hw
    refine ⟨y, mem_append_right as (mem_cons_of_mem o (mem_append_left _ hmem)),
      (contains_iff hyw).2 (by omega), hprot, hflags, hfile, fun hf => ?_⟩
    -- a file object goes on behind the range only if the range is empty
    have hempty : o.lo = o.hi := by
      rcases hfront.2 with h | h | h
      · exact h
      · omega
      · simp [h] at hf
    have hbase : y.base = z.base :=
      BitVec.eq_of_toNat_eq (show y.lo = z.lo by rw [hylo, hfront.1, hempty])
    rw [hoffset, hbase]
  · exact ⟨z, mem_append_right as (mem_cons_of_mem o (mem_append_right _ hz)), hc, rfl, rfl, rfl,
      fun _ => rfl⟩

end onto

/-- **Nothing changes around the range** just when the object with the first address begins
there. -/
theorem Spot.outside_iff (S : Spot o xs ys) (ho : o.NoWrap) (hwrap : ∀ x ∈ xs, x.NoWrap)
    (hap : Apart xs) : SameOutside o.lo o.hi xs ys ↔ FrontOk o.lo o.hi xs := by
  cases S with
  | gap as bs hxs hys has hbs =>
    subst hxs hys
    refine iff_of_true (fun addr _ z hz hc => ⟨z, ?_, hc, rfl, rfl, rfl, fun _ => rfl⟩)
      fun z hz hlo hhi => ?_
    · rcases mem_append.1 hz with hz | hz
      · exact mem_append_left _ hz
      · exact mem_append_right as (mem_cons_of_mem o hz)
    · rcases mem_append.1 hz with hz | hz
      · exact absurd hhi (has z hz).not_gt
      · exact absurd hlo (hbs z hz).1.not_ge
  | onto as x rest hxs hys has hle hlt =>
    subst hxs hys
    constructor
    · intro h z hz hlo hhi
      rcases mem_append.1 hz with hz | hz
      · exact absurd hhi (has z hz).not_gt
      rcases mem_cons.1 hz with rfl | hz
      · exact h.front ho hwrap hap hle hlt
      · have hxz := (pairwise_cons.1 (pairwise_append.1 hap).2.1).1 z hz
        omega
    · intro h
      exact FrontOk.outside ho hwrap hle
        (h x (mem_append_right as mem_cons_self) (le_def.1 hle) hlt)

/-! ## The pages -/

/-- The space is a user space, or the kernel's. -/
structure Sited (K : Nat) (lab : Labels) (space : VmSpace) : Prop where
  root : IsRoot lab space.mmuRoot
  bounds : (space.startAddress = vmUserspaceBase ∧ space.endAddress = vmUserspaceEnd) ∨
    (space.mmuRoot = K ∧ space.startAddress = vmVmallocBase ∧ space.endAddress = vmKernelBase)

variable {K : Nat} {lab : Labels} {space : VmSpace} {env : VmEnv} {st st' : VmState}
  {info : VmMappingInfo}

/-- Its pages belong to its root, and are told apart by their page numbers. -/
theorem Sited.pages (h : Sited K lab space) (ho : o.NoWrap)
    (hstart : space.startAddress.toNat ≤ o.lo) (hend : o.hi < space.endAddress.toNat) :
    (∀ k < pageCount o.length,
      (shape K).home space.mmuRoot (getPagetableIndex (pageAt o.base k) 4) = space.mmuRoot) ∧
    ∀ j < pageCount o.length, ∀ k < pageCount o.length, vpn (pageAt o.base j) =
    vpn (pageAt o.base k) → j = k := by
  have hpage := fun k (hk : k < pageCount o.length) => toNat_pageAt ho hk
  rcases h.bounds with ⟨hs, he⟩ | ⟨hr, hs, he⟩
  · have hlt : vmUserspaceEnd.toNat < 2 ^ 47 := by decide
    rw [he] at hend
    refine ⟨fun k hk => home_of_lt K _ (getPagetableIndex_lt_of_lt ?_), fun j hj k hk hv => ?_⟩
    · have := hpage k hk
      omega
    obtain ⟨hj, hj'⟩ := hpage j hj
    obtain ⟨hk, hk'⟩ := hpage k hk
    rw [vpn, vpn] at hv
    omega
  · have hlo : vmVmallocBase.toNat = 0xffffc00000000000 := by decide
    rw [hs] at hstart
    refine ⟨fun k _ => by rw [hr]; exact ite_self _, fun j hj k hk hv => ?_⟩
    obtain ⟨hj, hj'⟩ := hpage j hj
    obtain ⟨hk, hk'⟩ := hpage k hk
    rw [vpn, vpn] at hv
    omega

theorem present_mmuGetPhys (K : Nat) (m : MmState) (r : Nat) (u : BitVec 64) :
    (mmuGetPhys m r u).present = has (pte K m r u) ptePresent := by
  cases hl : leafTable K m r u with
  | none => rw [mmuGetPhys_of_none hl, pte_of_none hl]; rfl
  | some t => rw [mmuGetPhys_of_leafTable hl]; rfl

/-! ## What replacing is -/

/-- What the page `k` of the range that is asked for translates to. -/
def VmMappingInfo.page (info : VmMappingInfo) (m : MmState) (root k : Nat) : VmMapping :=
  mmuGetPhys m root (pageAt (alignDown info.virtBase) k)

/-- **What a mapping that replaces others should do**, from `st` to `st'`. -/
structure Replaced (st : VmState) (info : VmMappingInfo) (st' : VmState) : Prop where
  /-- The list is sorted, without overlap. -/
  apart : Apart st'.space.objects
  /-- Every address of the range is in the new object. -/
  covered : ∃ n ∈ st'.space.objects, n.base = alignDown info.virtBase ∧
    n.length = alignUp info.length ∧ n.prot = info.prot ∧
    n.file = (if info.isFile then some info.fd else none) ∧
    ∀ addr : BitVec 64, (alignDown info.virtBase).toNat ≤ addr.toNat →
      addr.toNat < (alignDown info.virtBase).toNat + info.len → n.contains addr = true
  /-- No page of it translates to the frame that was there. -/
  unmapped : ∀ k < pageCount (alignUp info.length),
    (info.page st.m st.space.mmuRoot k).present = true →
    ¬ ((info.page st'.m st.space.mmuRoot k).present = true ∧
      (info.page st'.m st.space.mmuRoot k).base = (info.page st.m st.space.mmuRoot k).base)
  /-- Around the range everything is as it was. -/
  outside : SameOutside (alignDown info.virtBase).toNat ((alignDown info.virtBase).toNat + info.len)
    st.space.objects st'.space.objects

/-- What the code is right for: the range does not wrap around, no object begins inside it, the
object that has its first address begins there and has no file or does not go on behind it, and the
pages that were there give way. -/
structure ReplaceSafe (env : VmEnv) (st : VmState) (info : VmMappingInfo) : Prop where
  wrap : (alignDown info.virtBase).toNat + info.len < 2 ^ 64
  starts : ∀ x ∈ st.space.objects, x.lo ≤ (alignDown info.virtBase).toNat ∨
    (alignDown info.virtBase).toNat + info.len ≤ x.lo
  front : FrontOk (alignDown info.virtBase).toNat ((alignDown info.virtBase).toNat + info.len)
    st.space.objects
  pages : ∀ k < pageCount (alignUp info.length),
    (info.page st.m st.space.mmuRoot k).present = true →
    Overwritten env info k (info.page st.m st.space.mmuRoot k).base

theorem mapObject_prot (env : VmEnv) (info : VmMappingInfo) (base : BitVec 64) :
    (mapObject env info base).prot = info.prot ∧
    (mapObject env info base).file = (info.rangeAt base).file := by
  rw [mapObject]
  split
  · split
    · exact ⟨rfl, rfl⟩
    · exact ⟨rfl, rfl⟩
    · exact ⟨rfl, rfl⟩
  · exact ⟨rfl, rfl⟩

section call

variable {ret : BitVec 64}

/-- The new object is between the bounds, and goes on the list. -/
theorem vmSpaceMap_replace (hok : st.space.Ok) (hreplace : info.replace = true)
    (h : vmSpaceMap env st info = .ok (ret, st')) (hret : ret ≠ 0) :
    st.space.startAddress ≤ alignDown info.virtBase ∧
      (mapObject env info (alignDown info.virtBase)).limit < st.space.endAddress ∧
      placeObj true (mapObject env info (alignDown info.virtBase)) st.space.objects =
      some st'.space.objects := by
  have hhint : info.virtBase ≠ 0 ∨ info.replace = true := .inr hreplace
  obtain ⟨-, -, ⟨h0, -⟩ | ⟨-, hlist⟩⟩ := vmSpaceMap_objects hok h
  · exact absurd h0 hret
  rw [mapBase, if_pos hhint, mapList, if_pos hhint, hreplace, ite_none_left_eq_some, not_or,
    BitVec.not_lt, BitVec.not_le] at hlist
  obtain ⟨⟨hstart, hend⟩, hplace⟩ := hlist
  rw [(mapObject_sameRange env info _).1] at hstart
  exact ⟨hstart, hend, hplace⟩

/-- **The pages**: each is as the loop left it. -/
theorem vmSpaceMap_filled (T : Tables K st.m lab) (hsite : Sited K lab st.space) (hok : st.space.Ok)
    (hw : (alignDown info.virtBase).toNat + info.len < 2 ^ 64) (hreplace : info.replace = true)
    (h : vmSpaceMap env st info = .ok (ret, st')) (hret : ret ≠ 0) :
    ∀ k < pageCount (alignUp info.length), Filled env info st.m.pmm k
      (pte K st.m st.space.mmuRoot (pageAt (alignDown info.virtBase) k))
      (pte K st'.m st.space.mmuRoot (pageAt (alignDown info.virtBase) k)) := by
  obtain ⟨hstart, hend, -⟩ := vmSpaceMap_replace hok hreplace h hret
  have ho : (info.rangeAt (alignDown info.virtBase)).NoWrap := hw
  have hlimit := (mapObject_sameRange env info (alignDown info.virtBase)).limit
  rw [hlimit, lt_def, toNat_limit ho] at hend
  obtain ⟨hhome, hinj⟩ := hsite.pages ho (le_def.1 hstart) hend
  rcases vmSpaceMap_cases hok h with ⟨h0, -⟩ | ⟨st₁, P, hfill, -⟩
  · exact absurd h0 hret
  have hroot : st₁.space.mmuRoot = st.space.mmuRoot := congrArg (·.2.2) P.frame
  have hobj := P.obj
  rw [mapBase, if_pos (.inr hreplace)] at hobj
  rw [← hroot] at hhome ⊢
  rw [← P.m] at T ⊢
  exact fillRange_filled T (hroot ▸ hsite.root) hobj hhome hinj hfill

end call

/-- **A mapping with `VM_FLAG_REPLACE` replaces what is there** just when `ReplaceSafe` says so. -/
theorem replaced_iff (env : VmEnv) {ret : BitVec 64} (T : Tables K st.m lab)
    (hsite : Sited K lab st.space) (hok : st.space.Ok) (hap : Apart st.space.objects)
    (hwrap : ∀ x ∈ st.space.objects, x.NoWrap)
    (hused : ∀ k < pageCount (alignUp info.length), (info.page st.m st.space.mmuRoot k).present =
    true →
      st.m.pmm.isFree (frameOf (info.page st.m st.space.mmuRoot k).base) = false)
    (hreplace : info.replace = true) (h : vmSpaceMap env st info = .ok (ret, st'))
    (hret : ret ≠ 0) : Replaced st info st' ↔ ReplaceSafe env st info := by
  obtain ⟨hlo, hhi⟩ := @hi_mapObject env info (alignDown info.virtBase)
  by_cases hw : (alignDown info.virtBase).toNat + info.len < 2 ^ 64
  · obtain ⟨-, -, hplace⟩ := vmSpaceMap_replace hok hreplace h hret
    have ho : (mapObject env info (alignDown info.virtBase)).NoWrap := by rwa [VmObject.NoWrap, hhi]
    have S := spot_of_placeObj ho hwrap hap hplace
    have hapart := S.apart_iff ho hap
    have houtside := S.outside_iff ho hwrap hap
    rw [hlo, hhi] at hapart houtside
    have hpage : ∀ k < pageCount (alignUp info.length),
        (info.page st.m st.space.mmuRoot k).present = true →
        (¬ ((info.page st'.m st.space.mmuRoot k).present = true ∧
          (info.page st'.m st.space.mmuRoot k).base = (info.page st.m st.space.mmuRoot k).base) ↔
        Overwritten env info k (info.page st.m st.space.mmuRoot k).base) := by
      intro k hk hp
      have hfree := hused k hk hp
      have hfilled := vmSpaceMap_filled T hsite hok hw hreplace h hret k hk
      simp only [VmMappingInfo.page, present_mmuGetPhys K, base_mmuGetPhys K] at hp hfree ⊢
      exact hfilled.overwritten T.pmmOk hp hfree
    refine ⟨fun R => ⟨hw, hapart.1 R.apart, houtside.1 R.outside, fun k hk hp =>
        (hpage k hk hp).1 (R.unmapped k hk hp)⟩,
      fun C => ⟨hapart.2 C.starts, ⟨_, S.mem, ?_⟩, fun k hk hp =>
      (hpage k hk hp).2 (C.pages k hk hp),
        houtside.2 C.front⟩⟩
    obtain ⟨hbase, hlen⟩ := mapObject_sameRange env info (alignDown info.virtBase)
    obtain ⟨hprot, hfile⟩ := mapObject_prot env info (alignDown info.virtBase)
    refine ⟨hbase, hlen, hprot, hfile, fun addr hge hlt => ?_⟩
    rw [contains_iff ho, hlo, hhi]
    exact ⟨hge, hlt⟩
  · refine iff_of_false (fun R => ?_) fun C => hw C.wrap
    -- the first address is not in an object whose end wraps around
    obtain ⟨n, -, hbase, hlen, -, -, hall⟩ := R.covered
    have hpos : 0 < info.len := by omega
    have hc := hall (alignDown info.virtBase) le_rfl (Nat.lt_add_of_pos_right hpos)
    rw [VmObject.contains, Bool.and_eq_true, decide_eq_true_iff, decide_eq_true_iff,
      VmObject.limit, hbase, hlen, lt_def, BitVec.toNat_add] at hc
    rw [VmMappingInfo.len] at hw hpos
    omega

/-- Memory at an address, in place of what is there. -/
def replacing (virtBase : BitVec 64) (flags : BitVec 32) : VmMappingInfo :=
  { pageAtAddress virtBase with flags := vmFlagReplace ||| flags }

/-- **Replacing the middle of an object drops its front**: of three pages the second is replaced,
and the first is gone. -/
theorem replace_drops_front :
    ∃ st st', vmSpaceMap noFiles (freshSpace .newUser)
    { pageAtAddress 0x20000 with length := 0x3000 } =
        .ok (0x20000, st) ∧ vmSpaceMap noFiles st (replacing 0x21000 0) = .ok (0x21000, st') ∧
      (∃ x ∈ st.space.objects, x.contains 0x20000 = true) ∧
      (∀ x ∈ st'.space.objects, x.contains 0x20000 = false) ∧
      ¬ Replaced st (replacing 0x21000 0) st' := by
  have hgone : ∀ st', (∀ x ∈ st'.space.objects, x.contains 0x20000 = false) →
      ∀ st : VmState, (∃ x ∈ st.space.objects, x.contains 0x20000 = true) →
      ¬ Replaced st (replacing 0x21000 0) st' := by
    rintro st' hnone st ⟨x, hx, hc⟩ R
    obtain ⟨y, hy, hyc, -⟩ := R.outside 0x20000 (by decide) x hx hc
    rw [hnone y hy] at hyc
    cases hyc
  refine ⟨_, _, rfl, rfl, by decide, by decide, hgone _ (by decide) _ (by decide)⟩

/-- A page of zeros is mapped at an address. -/
def mapOnePage : List VmAction := [.new 1, .call 1 (.map (pageAtAddress 0x20000))]

theorem replaced_iff_onePage :
    ∃ s space st', run (VmSys.step oneFile) (VmSys.boot kernelOnly 1 fun _ => 1) mapOnePage =
    some s ∧
      s.space 1 = some space ∧
      vmSpaceMap oneFile (s.view space) (replacing 0x20000 vmFlagAllocate) = .ok (0x20000, st') ∧
      Replaced (s.view space) (replacing 0x20000 vmFlagAllocate) st' := by
  obtain ⟨lab, hboot⟩ := kernelOnly_boot
  have hinside : Along (VmSys.step oneFile) VmSys.Inside (VmSys.boot kernelOnly 1 fun _ => 1)
      mapOnePage := by
    refine .cons rfl trivial (.cons rfl ?_ trivial)
    exact VmSys.inside_call rfl rfl ⟨by decide, by decide, by decide⟩
  obtain ⟨lab', hinv⟩ := VmSys.inv_run hboot hinside rfl
  have hspace := hinv.spaces.ok 1 _ rfl
  have hone : pageCount (alignUp (replacing 0x20000 vmFlagAllocate).length) = 1 := by decide
  refine ⟨_, _, _, rfl, rfl, rfl, ?_⟩
  refine (replaced_iff oneFile hinv.owned.tables ⟨hspace.root, .inl ⟨rfl, rfl⟩⟩ hspace.ok ?_
    (fun x hx => hspace.noWrap hx) ?_ rfl rfl (by decide)).2 ⟨by decide, by decide, ?_, ?_⟩
  · exact pairwise_singleton ..
  · rintro k hk -
    rw [hone, Nat.lt_one_iff] at hk
    subst hk
    decide
  · unfold FrontOk
    decide
  · intro k _ _
    exact ⟨by decide, .inl (by decide)⟩

end Monolith.Mm
