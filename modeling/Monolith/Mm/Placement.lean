import Monolith.Mm.Layout
import Monolith.Mm.Translation

/-!
# Where objects are placed

One address space under any sequence of `vm_space_map` without `VM_FLAG_REPLACE` and of
`vm_space_unmap`.  As long as no base or end wraps around, the list of objects is sorted, without
overlap, and of whole pages (`Tidy`); a request for an address is granted if it is in the space and
free, and a request for any address gets the lowest one.

The end of a space is checked with `>=`: a range that ends where the space ends is refused
(`hint_refused`).  In a user space no range of pages ends there.
-/

namespace Monolith.Mm

open Fallible Fs Transition Intervals Option

/-! ## The calls -/

inductive SpaceCall where
  | map (info : VmMappingInfo)
  | unmap (addr : BitVec 64)

def spaceStep (env : VmEnv) (st : VmState) : SpaceCall → Option VmState
  | .map info => (vmSpaceMap env st info).toOption.map (·.2)
  | .unmap addr => (vmSpaceUnmap env st addr).toOption

/-- The length of a request, in whole pages. -/
def VmMappingInfo.len (info : VmMappingInfo) : Nat := (alignUp info.length).toNat

/-- A request for something, in which no base or end wraps around. -/
structure Fair (st : VmState) (info : VmMappingInfo) : Prop where
  keep : info.replace = false
  length : info.length ≠ 0
  round : info.length.toNat + 4095 < 2 ^ 64
  hint : info.virtBase ≠ 0 → (alignDown info.virtBase).toNat + info.len < 2 ^ 64
  gap : info.virtBase = 0 → st.space.startAddress.toNat + info.len < 2 ^ 64 ∧
    ∀ o ∈ st.space.objects, o.hi + info.len < 2 ^ 64

def SpaceCall.Fair (st : VmState) : SpaceCall → Prop
  | .map info => Mm.Fair st info
  | .unmap _ => True

/-! ## Sorted lists of whole pages -/

/-- The objects are sorted, without overlap, and of whole pages. -/
structure Tidy (start : Nat) (xs : List VmObject) : Prop where
  apart : Apart xs
  nonempty : ∀ o ∈ xs, o.lo < o.hi
  noWrap : ∀ o ∈ xs, o.NoWrap
  pages : ∀ o ∈ xs, 4096 ∣ o.lo ∧ 4096 ∣ o.hi
  start : ∀ o ∈ xs, start ≤ o.lo

structure VmObject.Tidy (start : Nat) (o : VmObject) : Prop where
  nonempty : o.lo < o.hi
  noWrap : o.NoWrap
  pages : 4096 ∣ o.lo ∧ 4096 ∣ o.hi
  start : start ≤ o.lo

variable {start : Nat} {xs ys : List VmObject} {o : VmObject} {env : VmEnv} {st st' : VmState}
  {info : VmMappingInfo} {base : BitVec 64} {m : MmState} {t : Nat}

theorem Tidy.sublist (h : Tidy start xs) (hs : ys.Sublist xs) : Tidy start ys where
  apart := List.Pairwise.sublist hs h.apart
  nonempty x hx := h.nonempty x (hs.mem hx)
  noWrap x hx := h.noWrap x (hs.mem hx)
  pages x hx := h.pages x (hs.mem hx)
  start x hx := h.start x (hs.mem hx)

theorem Tidy.insert (h : Tidy start xs) (ho : o.Tidy start) (hperm : ys.Perm (o :: xs))
    (hapart : Apart ys) : Tidy start ys := by
  have hmem : ∀ x ∈ ys, x = o ∨ x ∈ xs := fun x hx => List.mem_cons.1 (hperm.mem_iff.1 hx)
  refine ⟨hapart, fun x hx => ?_, fun x hx => ?_, fun x hx => ?_, fun x hx => ?_⟩
  all_goals rcases hmem x hx with rfl | hx
  · exact ho.nonempty
  · exact h.nonempty x hx
  · exact ho.noWrap
  · exact h.noWrap x hx
  · exact ho.pages
  · exact h.pages x hx
  · exact ho.start
  · exact h.start x hx

theorem Tidy.sorted (h : Tidy start xs) : xs.Pairwise fun a b => a.base < b.base ∧ a.hi ≤ b.lo := by
  refine h.apart.imp_of_mem fun {a b} ha _ hab => ⟨?_, hab⟩
  have := h.nonempty a ha
  exact lt_of_lt_of_le this hab

/-! ## A request -/

theorem Fair.len (h : Fair st info) : 0 < info.len ∧ 4096 ∣ info.len := by
  have hpos : info.length.toNat ≠ 0 := fun h0 => h.length (BitVec.eq_of_toNat_eq h0)
  rw [VmMappingInfo.len, toNat_alignUp h.round]
  exact ⟨by omega, by omega⟩

theorem dvd_alignDown (v : BitVec 64) : 4096 ∣ (alignDown v).toNat := by
  rw [toNat_alignDown]
  exact Nat.dvd_mul_left ..

theorem hi_mapObject (base : BitVec 64) : (mapObject env info base).lo = base.toNat ∧
      (mapObject env info base).hi = base.toNat + info.len := by
  have hs := mapObject_sameRange env info base
  rw [VmObject.lo, VmObject.hi, hs.1, hs.2]
  exact ⟨rfl, rfl⟩

theorem hi_rangeAt (base : BitVec 64) :
    (info.rangeAt base).lo = base.toNat ∧ (info.rangeAt base).hi = base.toNat + info.len :=
  ⟨rfl, rfl⟩

theorem Fair.mapObject_tidy (h : Fair st info) (hpage : 4096 ∣ base.toNat)
    (hstart : start ≤ base.toNat) (hwrap : base.toNat + info.len < 2 ^ 64) :
    (mapObject env info base).Tidy start := by
  obtain ⟨hlo, hhi⟩ := @hi_mapObject env info base
  obtain ⟨hpos, hdvd⟩ := h.len
  refine ⟨?_, ?_, ?_, ?_⟩
  · omega
  · rwa [VmObject.NoWrap, hhi]
  · rw [hlo, hhi]
    exact ⟨hpage, Nat.dvd_add hpage hdvd⟩
  · rwa [hlo]

/-! ### At an address -/

/-- **A request for an address** is granted if the range is in the space, does not reach its end,
and is free. -/
theorem mapList_hint (h : Fair st info) (hhint : info.virtBase ≠ 0)
    (ht : Tidy start st.space.objects) (hs : o.lo = (alignDown info.virtBase).toNat)
    (hlen : o.hi = o.lo + info.len) :
    mapList st.space.startAddress st.space.endAddress st.space.objects info o =
      if st.space.startAddress.toNat ≤ o.lo ∧ o.hi < st.space.endAddress.toNat then
        Intervals.place VmObject.lo VmObject.hi o st.space.objects else none := by
  have hwrap : o.NoWrap := by
    rw [VmObject.NoWrap, hlen, hs]
    exact h.hint hhint
  rw [mapList, if_pos (.inl hhint), h.keep, placeObj_eq_place hwrap ht.noWrap]
  by_cases hin : st.space.startAddress.toNat ≤ o.lo ∧ o.hi < st.space.endAddress.toNat
  · rw [if_pos hin, if_neg]
    rw [BitVec.le_def, VmObject.toNat_limit hwrap, not_or]
    exact ⟨Nat.not_lt.2 hin.1, Nat.not_le.2 hin.2⟩
  · rw [if_neg hin, if_pos]
    rw [BitVec.le_def, VmObject.toNat_limit hwrap]
    rwa [Classical.not_and_iff_not_or_not, not_le, not_lt] at hin

/-! ### At any address -/

/-- **A request for any address** gets the lowest free one. -/
theorem mapList_gap (h : Fair st info) (hgap : info.virtBase = 0) (ho : o.base ≠ 0)
    (hlen : o.length = alignUp info.length) :
    mapList st.space.startAddress st.space.endAddress st.space.objects info o =
      some (Intervals.fit VmObject.lo VmObject.hi info.len o st.space.startAddress.toNat
      st.space.objects) := by
  obtain ⟨hstart, hobjs⟩ := h.gap hgap
  have hno : ¬ (info.virtBase ≠ 0 ∨ info.replace = true) := by simp [hgap, h.keep]
  rw [mapList, if_neg hno, if_neg ho, hlen, (fit_eq hstart hobjs).2 o]
  rfl

theorem toNat_mapBase_gap (h : Fair st info) (hgap : info.virtBase = 0) :
    (mapBase st.space.startAddress st.space.objects info).toNat =
      Intervals.firstFit VmObject.lo VmObject.hi info.len st.space.startAddress.toNat
      st.space.objects := by
  obtain ⟨hstart, hobjs⟩ := h.gap hgap
  have hno : ¬ (info.virtBase ≠ 0 ∨ info.replace = true) := by simp [hgap, h.keep]
  rw [mapBase, if_neg hno, (fit_eq hstart hobjs).1]
  rfl

/-! ### What comes of it -/

structure SpaceInv (first last : BitVec 64) (st : VmState) : Prop where
  ok : st.space.Ok
  start : st.space.startAddress = first
  limit : st.space.endAddress = last
  tidy : Tidy first.toNat st.space.objects

variable {first last : BitVec 64}

theorem SpaceInv.of_frame (h : SpaceInv first last st) (hok : st'.space.Ok)
    (hframe : st'.space.frame = st.space.frame) (ht : Tidy first.toNat st'.space.objects) :
    SpaceInv first last st' := by
  rw [Prod.mk.injEq, Prod.mk.injEq] at hframe
  exact ⟨hok, hframe.1.trans h.start, hframe.2.1.trans h.limit, ht⟩

variable {ret : BitVec 64} {e : MmFault}

theorem vmSpaceMap_hint (h : SpaceInv first last st) (hpos : 0 < first.toNat) (hf : Fair st info)
    (hhint : info.virtBase ≠ 0) (hmap : vmSpaceMap env st info = .ok (ret, st')) :
    SpaceInv first last st' ∧
      (ret ≠ 0 ↔ first.toNat ≤ (alignDown info.virtBase).toNat ∧
        (alignDown info.virtBase).toNat + info.len < last.toNat ∧
        Free st.space.objects (alignDown info.virtBase).toNat
        ((alignDown info.virtBase).toNat + info.len)) ∧
      (ret ≠ 0 → ret = alignDown info.virtBase ∧
        st'.space.objects.Perm
        (mapObject env info (alignDown info.virtBase) :: st.space.objects)) := by
  have hbase : mapBase st.space.startAddress st.space.objects info = alignDown info.virtBase :=
    if_pos (.inl hhint)
  obtain ⟨hok, hframe, hcase⟩ := vmSpaceMap_objects h.ok hmap
  rw [hbase] at hcase
  rcases hcase with ⟨rfl, hobjs, hnone⟩ | ⟨rfl, hsome⟩
  · obtain ⟨hlo, hhi⟩ := @hi_rangeAt info (alignDown info.virtBase)
    refine ⟨h.of_frame hok hframe (hobjs ▸ h.tidy), iff_of_false (fun hc => hc rfl) fun hin => ?_,
      fun hc => absurd rfl hc⟩
    rw [mapList_hint hf hhint h.tidy hlo (by rw [hlo, hhi]), h.start, h.limit,
      if_pos ⟨hin.1, hin.2.1⟩, ← not_isSome_iff_eq_none] at hnone
    refine hnone ((place_isSome_iff ?_ h.tidy.nonempty h.tidy.apart).2 ?_)
    · exact Nat.lt_add_of_pos_right hf.len.1
    · exact hin.2.2
  · obtain ⟨hlo, hhi⟩ := @hi_mapObject env info (alignDown info.virtBase)
    rw [mapList_hint hf hhint h.tidy hlo (by rw [hlo, hhi]), h.start, h.limit,
      ite_none_right_eq_some, hlo, hhi] at hsome
    obtain ⟨hin, hplace⟩ := hsome
    have hfree := (place_isSome_iff (by rw [hlo, hhi]; exact Nat.lt_add_of_pos_right hf.len.1)
      h.tidy.nonempty h.tidy.apart).1 (by rw [hplace]; rfl)
    rw [hlo, hhi] at hfree
    refine ⟨h.of_frame hok hframe ?_, iff_of_true (fun h0 => ?_) ⟨hin.1, hin.2, hfree⟩,
      fun _ => ⟨rfl, place_perm hplace⟩⟩
    · exact h.tidy.insert (hf.mapObject_tidy (dvd_alignDown _) hin.1 (hf.hint hhint))
        (place_perm hplace) (place_apart h.tidy.nonempty h.tidy.apart hplace)
    · rw [h0] at hin
      exact absurd hin.1 (Nat.not_le.2 hpos)

theorem vmSpaceMap_gap (h : SpaceInv first last st) (hpos : 0 < first.toNat)
    (hpage : 4096 ∣ first.toNat) (hf : Fair st info) (hgap : info.virtBase = 0)
    (hmap : vmSpaceMap env st info = .ok (ret, st')) :
    SpaceInv first last st' ∧ ret ≠ 0 ∧ first.toNat ≤ ret.toNat ∧
      Free st.space.objects ret.toNat (ret.toNat + info.len) ∧
      ∀ a, first.toNat ≤ a → Free st.space.objects a (a + info.len) → ret.toNat ≤ a := by
  have hbase := toNat_mapBase_gap hf hgap
  rw [h.start] at hbase
  have hle : first.toNat ≤ (mapBase st.space.startAddress st.space.objects info).toNat := by
    rw [h.start, hbase]
    exact le_firstFit h.tidy.nonempty h.tidy.start h.tidy.apart
  have hne : mapBase st.space.startAddress st.space.objects info ≠ 0 := fun h0 => by
    rw [h0] at hle
    exact absurd hle (Nat.not_le.2 hpos)
  obtain ⟨hok, hframe, hcase⟩ := vmSpaceMap_objects h.ok hmap
  rcases hcase with ⟨rfl, -, hnone⟩ | ⟨rfl, hsome⟩
  · rw [mapList_gap hf hgap hne rfl] at hnone
    cases hnone
  have hs := mapObject_sameRange env info (mapBase st.space.startAddress st.space.objects info)
  rw [mapList_gap hf hgap (hs.1.trans_ne hne) hs.2, some_inj, h.start] at hsome
  rw [h.start] at hle hne ⊢
  obtain ⟨hlo, hhi⟩ := @hi_mapObject env info (mapBase first st.space.objects info)
  have hend : Intervals.firstFit VmObject.lo VmObject.hi info.len first.toNat st.space.objects +
      info.len < 2 ^ 64 ∧ 4096 ∣
        Intervals.firstFit VmObject.lo VmObject.hi info.len first.toNat st.space.objects := by
    obtain ⟨hstart, hobjs⟩ := hf.gap hgap
    rcases @Intervals.firstFit_eq _ VmObject.lo VmObject.hi info.len first.toNat
      st.space.objects with heq | ⟨o, ho, heq⟩
    · rw [heq]
      exact ⟨h.start ▸ hstart, hpage⟩
    · rw [heq]
      exact ⟨hobjs o ho, (h.tidy.pages o ho).2⟩
  rw [← hbase] at hend
  refine ⟨h.of_frame hok hframe ?_, hne, hle, ?_, fun a ha hfree => ?_⟩
  · rw [← hsome]
    refine h.tidy.insert (hf.mapObject_tidy hend.2 hle hend.1) fit_perm ?_
    exact fit_apart h.tidy.nonempty h.tidy.start h.tidy.apart (hlo.trans hbase)
      (by rw [hhi, hlo])
  · rw [hbase]
    exact firstFit_free h.tidy.nonempty h.tidy.start h.tidy.apart
  · rw [hbase]
    exact firstFit_least ha hfree

/-! ## The calls come back -/

/-- The panics that a request can run into: there is no memory, or it should never have been
made. -/
def MmFault.Panic : MmFault → Prop
  | .outOfMemory _ _ | .deviceWithoutPhys | .physWithoutDevice | .wildCall => True
  | _ => False

/-- It fails with one of them only. -/
abbrev OnlyPanics {α : Type} (x : Except MmFault α) : Prop := Avoids (¬·.Panic) x

theorem pmmAllocate_panic {pmm : Pmm} : OnlyPanics (pmmAllocate pmm) := by
  intro e h
  rw [pmmAllocate_error h]
  exact not_not.2 trivial

theorem getOrCreatePte_panic {i : Fin 512} {flags : BitVec 64} :
    OnlyPanics (getOrCreatePte m t i flags) := by
  rw [getOrCreatePte]
  split
  · exact avoids_ok
  · exact pmmAllocate_panic.bind fun _ => avoids_ok

theorem mmuMap_panic {phys virt : BitVec 64} {prot flags : BitVec 32} :
    OnlyPanics (mmuMap m t phys virt prot flags) :=
  getOrCreatePte_panic.bind fun _ => getOrCreatePte_panic.bind fun _ =>
    getOrCreatePte_panic.bind fun _ => avoids_ok

theorem mapRound_panic {k : Nat} : OnlyPanics (mapRound env info base k st) := by
  refine Avoids.bind ?_ fun _ => Avoids.bind ?_ fun _ => avoids_ok
  · rw [backing, avoids_ite_ok]
    exact fun _ => avoids_ite.2 ⟨fun _ => pmmAllocate_panic.bind fun _ => avoids_ok,
      fun _ => avoids_ok⟩
  · exact avoids_ite.2 ⟨fun _ => mmuMap_panic, fun _ => avoids_ok⟩

theorem fillRange_panic {id : Nat} : OnlyPanics (fillRange env st id info) := by
  rw [fillRange]
  split
  · cases env.node info.fd with
    | ramfs data => exact avoids_ok
    | efifb address =>
      rcases address with _ | _
      · exact avoids_ok
      refine Avoids.bind (fun e h => ?_) fun _ => avoids_ok
      obtain ⟨_, _, h⟩ := forRange_error h
      exact mmuMap_panic e h
    | other => exact avoids_error.2 (not_not.2 trivial)
  · intro e h
    obtain ⟨_, _, h⟩ := forRange_error h
    exact mapRound_panic e h

/-- **`vm_space_map` comes back**, or it panics; the walks along the list end. -/
theorem vmSpaceMap_panic (hok : st.space.Ok) : OnlyPanics (vmSpaceMap env st info) := by
  unfold vmSpaceMap
  refine Avoids.bind ?_ fun _ => Avoids.bind (fun e h => ?_) fun ⟨valid, space'⟩ => ?_
  · rw [checkPhys]
    split_ifs <;> first | exact avoids_ok | exact avoids_error.2 (not_not.2 trivial)
  · rcases insertRange_spec hok info with ⟨_, hspec, -⟩ | ⟨hspec, -⟩
    · simp [hspec] at h
    · simp [hspec] at h
  · cases valid with
    | true => exact fillRange_panic.bind fun _ => avoids_ok
    | false => exact avoids_ok

/-! ## Every run -/

theorem spaceStep_inv (hpos : 0 < first.toNat) (hpage : 4096 ∣ first.toNat)
    (h : SpaceInv first last st) {call : SpaceCall} (hf : call.Fair st)
    (hstep : spaceStep env st call = some st') : SpaceInv first last st' := by
  cases call with
  | map info =>
    obtain ⟨⟨ret, st₁⟩, hmap, rfl⟩ := map_toOption_eq_some.1 hstep
    by_cases hhint : info.virtBase = 0
    · exact (vmSpaceMap_gap h hpos hpage hf hhint hmap).1
    · exact (vmSpaceMap_hint h hpos hf hhint hmap).1
  | unmap addr =>
    obtain ⟨hok, hframe, hsub⟩ := vmSpaceUnmap_objects h.ok (toOption_eq_some.1 hstep)
    exact h.of_frame hok hframe (h.tidy.sublist hsub)

/-- **The list of objects, and where requests are placed.**  In every run from an empty space the
list is strictly sorted, without overlap and of whole pages.  Then a request for an address succeeds
if and only if its range is free, begins at or behind the start of the space and ends before its
end; a request for any address gets the lowest free one; and no request fails in another way than by
a panic for lack of memory or for its arguments. -/
theorem objectList_of_run (env : VmEnv) {first last : BitVec 64} (hpos : 0 < first.toNat)
    (hpage : 4096 ∣ first.toNat) {st₀ st : VmState} {root : Nat}
    (hnew : st₀.space = VmSpace.new first last root) {calls : List SpaceCall}
    (hfair : Along (spaceStep env) (fun s call => call.Fair s) st₀ calls)
    (hrun : run (spaceStep env) st₀ calls = some st) :
    (st.space.objects.Pairwise fun a b => a.base < b.base ∧ a.hi ≤ b.lo) ∧
    (∀ o ∈ st.space.objects, o.lo < o.hi ∧ 4096 ∣ o.lo ∧ 4096 ∣ o.hi) ∧ ∀ info, Fair st info →
      (∀ e, vmSpaceMap env st info = .error e → e.Panic) ∧ ∀ ret st', vmSpaceMap env st info =
      .ok (ret, st') →
        (info.virtBase ≠ 0 → (ret ≠ 0 ↔ first.toNat ≤ (alignDown info.virtBase).toNat ∧
            (alignDown info.virtBase).toNat + info.len < last.toNat ∧
            Free st.space.objects (alignDown info.virtBase).toNat
            ((alignDown info.virtBase).toNat + info.len)) ∧
          (ret ≠ 0 → ret = alignDown info.virtBase)) ∧
          (info.virtBase = 0 → ret ≠ 0 ∧ first.toNat ≤ ret.toNat ∧
          Free st.space.objects ret.toNat (ret.toNat + info.len) ∧
          ∀ a, first.toNat ≤ a → Free st.space.objects a (a + info.len) → ret.toNat ≤ a) := by
  have hinit : SpaceInv first last st₀ := by
    obtain ⟨hok, hobjs⟩ := VmSpace.new_ok first last root
    rw [← hnew] at hok hobjs
    refine ⟨hok, by rw [hnew]; rfl, by rw [hnew]; rfl, ?_⟩
    rw [hobjs]
    exact ⟨List.Pairwise.nil, nofun, nofun, nofun, nofun⟩
  have h : SpaceInv first last st := run_induction
    (fun s a t hs ha hst => spaceStep_inv hpos hpage hs ha hst) hinit hfair hrun
  refine ⟨h.tidy.sorted, fun o ho => ⟨h.tidy.nonempty o ho, h.tidy.pages o ho⟩, fun info hf =>
    ⟨fun e he => not_not.1 (vmSpaceMap_panic h.ok e he), fun ret st' hmap =>
    ⟨fun hhint => ?_, fun hgap => ?_⟩⟩⟩
  · obtain ⟨-, hiff, hgranted⟩ := vmSpaceMap_hint h hpos hf hhint hmap
    exact ⟨hiff, fun hne => (hgranted hne).1⟩
  · exact (vmSpaceMap_gap h hpos hpage hf hgap hmap).2

/-- No files; frame 15 is the page of zeros. -/
def noFiles : VmEnv where
  zeroCowmem := 0xf000
  node _ := .other

/-- A new space over sixteen frames, with the root in frame 1. -/
def freshSpace (space : Nat → VmSpace) : VmState where
  m := { sixteenFrames with pmm := { sixteenFrames.pmm with bitmap := [0x7ffc] } }
  space := space 1
  refs _ := 1

/-- A private page anywhere. -/
def anyPage : VmMappingInfo := { length := 0x1000, prot := 11, flags := 0 }

/-- A private page at an address. -/
def pageAtAddress (virtBase : BitVec 64) : VmMappingInfo := { anyPage with virtBase := virtBase }

theorem objectList_of_run_twoPages :
    ∃ st st', run (spaceStep noFiles) (freshSpace .newUser) [.map anyPage] = some st ∧
      vmSpaceMap noFiles st (pageAtAddress 0x20123) = .ok (0x20000, st') ∧
      Free st.space.objects 0x20000 0x21000 := by
  refine ⟨_, _, rfl, rfl, ?_⟩
  have hnew : (freshSpace .newUser).space = VmSpace.new vmUserspaceBase vmUserspaceEnd 1 := rfl
  have hrun : run (spaceStep noFiles) (freshSpace .newUser) [.map anyPage] = some _ := rfl
  have hfair : Along (spaceStep noFiles) (fun s call => call.Fair s) (freshSpace .newUser)
      [.map anyPage] := 
    ⟨⟨by decide, by decide, by decide, fun h => absurd rfl h, fun _ => ⟨by decide, by decide⟩⟩,
    fun _ _ => trivial⟩
  have h := objectList_of_run noFiles (by decide) (by decide) hnew hfair hrun
  have hhint := h.2.2 (pageAtAddress 0x20123)
    ⟨by decide, by decide, by decide, fun _ => by decide, fun h => absurd h (by decide)⟩
  exact (((hhint.2 _ _ rfl).1 (by decide)).1.1 (by decide)).2.2

/-- **The last page of a space is refused.**  The page below the end of the kernel's space is in the
space, and nothing is there. -/
theorem hint_refused :
    ∃ st', vmSpaceMap noFiles (freshSpace .newKernel) (pageAtAddress 0xffffffff7ffff000) =
    .ok (0, st') ∧
      Fair (freshSpace .newKernel) (pageAtAddress 0xffffffff7ffff000) ∧
      vmVmallocBase.toNat ≤ (0xffffffff7ffff000#64).toNat ∧
      (0xffffffff7ffff000#64).toNat + (pageAtAddress 0xffffffff7ffff000).len = vmKernelBase.toNat ∧
      (freshSpace .newKernel).space.objects = [] := by
  refine ⟨_, rfl, ?_, by decide, by decide, rfl⟩
  exact ⟨by decide, by decide, by decide, fun _ => by decide, fun h => absurd h (by decide)⟩

end Monolith.Mm
