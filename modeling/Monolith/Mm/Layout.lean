import Monolith.Lib.Intervals
import Monolith.Mm.Vmm

/-!
# What the calls do to the objects of a space

An object stands for the addresses from `lo` to `hi`.  As long as nothing wraps around, the
functions that place objects are those of the library of intervals (`placeObj_eq_place`, `fit_eq`).

`vmSpaceMap_objects` and `vmSpaceUnmap_objects` say what `vm_space_map` and `vm_space_unmap` do to
the list of objects: all else that they do leaves the list alone, but for the flags of the new
object.
-/

namespace Monolith.Mm

open Function Fallible Intrusive Libk Fs List VmObject Except

/-! ## Objects as intervals -/

def VmObject.lo (o : VmObject) : Nat := o.base.toNat

def VmObject.hi (o : VmObject) : Nat := o.base.toNat + o.length.toNat

/-- The end of the object is an address. -/
def VmObject.NoWrap (o : VmObject) : Prop := o.hi < 2 ^ 64

variable {o : VmObject} {xs : List VmObject} {len p : BitVec 64} {k : Nat} {base ret : BitVec 64}
  {range : VmObject}

theorem VmObject.toNat_limit (h : o.NoWrap) : o.limit.toNat = o.hi := by exact Nat.mod_eq_of_lt h

abbrev Apart (xs : List VmObject) : Prop := Intervals.Apart VmObject.lo VmObject.hi xs

/-- No object has an address from `l` to `h`. -/
abbrev Free (xs : List VmObject) (l h : Nat) : Prop := Intervals.Free VmObject.lo VmObject.hi xs l h

theorem placeObj_eq_place (ho : o.NoWrap) (hxs : ∀ x ∈ xs, x.NoWrap) :
    placeObj false o xs = Intervals.place VmObject.lo VmObject.hi o xs := by
  induction xs with
  | nil => rfl
  | cons x xs ih =>
    have hx := toNat_limit (hxs x mem_cons_self)
    rw [placeObj, ih fun y hy => hxs y (mem_cons_of_mem x hy)]
    simp only [BitVec.le_def, BitVec.lt_def, hx, toNat_limit ho, Bool.false_eq_true, if_false]
    rfl

/-- Whether there is room in front of `x`, and where it ends, without wrap-around. -/
theorem fits_iff {x : VmObject} (hp : p.toNat + len.toNat < 2 ^ 64)
    (hx : x.hi + len.toNat < 2 ^ 64) :
    (p + len ≤ x.base ↔ p.toNat + len.toNat ≤ x.lo) ∧ x.limit.toNat = x.hi := by
  refine ⟨?_, toNat_limit (lt_of_le_of_lt (Nat.le_add_right ..) hx)⟩
  rw [BitVec.le_def, BitVec.toNat_add_of_lt hp, VmObject.lo]

theorem fit_eq (hp : p.toNat + len.toNat < 2 ^ 64) (hxs : ∀ x ∈ xs, x.hi + len.toNat < 2 ^ 64) :
    (fitBase len p xs).toNat = Intervals.firstFit VmObject.lo VmObject.hi len.toNat p.toNat xs ∧
      ∀ o, fitObj len o p xs = Intervals.fit VmObject.lo VmObject.hi len.toNat o p.toNat xs := by
  induction xs generalizing p with
  | nil => exact ⟨rfl, fun _ => rfl⟩
  | cons x xs ih =>
    obtain ⟨hlen, hxs⟩ := forall_mem_cons.1 hxs
    obtain ⟨hle, hx⟩ := fits_iff hp hlen
    simp only [fitBase, Intervals.firstFit, fitObj, Intervals.fit]
    by_cases hfit : p + len ≤ x.base
    · simp [hfit, hle.1 hfit]
    · obtain ⟨hbase, hobj⟩ := @ih x.limit (by rw [hx]; exact hlen) hxs
      simp [hfit, mt hle.2 hfit, hbase, hobj, hx]

theorem VmSpace.new_ok (first last : BitVec 64) (root : Nat) :
    (VmSpace.new first last root).Ok ∧ (VmSpace.new first last root).objects = [] := by
  have hring : IsRing (VmSpace.new first last root).links .head
      (([] : List Nat).map SpaceNode.obj) :=
    ⟨⟨rfl, rfl, trivial⟩, by simp⟩
  obtain ⟨hok, hids⟩ := VmSpace.Ok.of_ring hring fun i hi => absurd hi not_mem_nil
  exact ⟨hok, by rw [VmSpace.objects, hids, map_nil]⟩

/-! ## What changes only counters -/

/-- The spaces differ in their counters only. -/
structure VmSpace.Recount (space space' : VmSpace) : Prop where
  links : space'.links = space.links
  objs : space'.objs = space.objs
  nextId : space'.nextId = space.nextId
  startAddress : space'.startAddress = space.startAddress
  endAddress : space'.endAddress = space.endAddress
  mmuRoot : space'.mmuRoot = space.mmuRoot

namespace VmSpace.Recount

variable {space space' space'' : VmSpace}

theorem refl (space : VmSpace) : space.Recount space := ⟨rfl, rfl, rfl, rfl, rfl, rfl⟩

section

variable (h : space.Recount space')

include h

theorem trans (h' : space'.Recount space'') : space.Recount space'' where
  links := h'.links.trans h.links
  objs := h'.objs.trans h.objs
  nextId := h'.nextId.trans h.nextId
  startAddress := h'.startAddress.trans h.startAddress
  endAddress := h'.endAddress.trans h.endAddress
  mmuRoot := h'.mmuRoot.trans h.mmuRoot

theorem objects : space'.objects = space.objects := by
  simp [VmSpace.objects, ids_congr h.links h.nextId, h.objs]

theorem ok (hok : space.Ok) : space'.Ok := hok.congr h.links h.nextId

end

end VmSpace.Recount

section counters

variable {env : VmEnv} {st st' : VmState} {info : VmMappingInfo}

theorem backing_recount {phys : BitVec 64} {flags : BitVec 32}
    (h : backing env info k st = .ok (phys, flags, st')) :
    st.space.Recount st'.space ∧ st'.refs = st.refs := by
  rw [backing] at h
  split at h
  · cases h
    exact ⟨.refl _, rfl⟩
  split at h
  · obtain ⟨⟨phys, pmm⟩, -, h⟩ := bind_eq_ok.1 h
    cases h
    exact ⟨⟨rfl, rfl, rfl, rfl, rfl, rfl⟩, rfl⟩
  · cases h
    exact ⟨.refl _, rfl⟩

theorem mapRound_recount (h : mapRound env info base k st = .ok st') :
    st.space.Recount st'.space ∧ st'.refs = st.refs := by
  obtain ⟨⟨phys, flags, st₁⟩, hback, h⟩ := bind_eq_ok.1 h
  obtain ⟨m, -, h⟩ := bind_eq_ok.1 h
  cases h
  obtain ⟨hspace, hrefs⟩ := backing_recount hback
  exact ⟨hspace.trans ⟨rfl, rfl, rfl, rfl, rfl, rfl⟩, hrefs⟩

theorem discount_recount (range : VmObject) (freed : Bool) (space : VmSpace) :
    space.Recount (discount range freed space) := by
  rw [discount]
  split
  · exact ⟨rfl, rfl, rfl, rfl, rfl, rfl⟩
  · exact .refl _

theorem freeRound_recount (h : freeRound env range k st = .ok st') :
    st.space.Recount st'.space := by
  obtain ⟨pmm, -, h⟩ := bind_eq_ok.1 h
  obtain ⟨m, -, h⟩ := bind_eq_ok.1 h
  cases h
  exact discount_recount ..

theorem vmFreeRange_recount (h : vmFreeRange env st range = .ok st') :
    st.space.Recount st'.space := by
  obtain ⟨st₁, hloop, h⟩ := bind_eq_ok.1 h
  cases h
  exact forRange_ok (I := fun _ s => st.space.Recount s.space)
    (fun k s s' _ _ hs hbody => hs.trans (freeRound_recount hbody)) (.refl _) hloop

end counters

/-! ## `vm_space_map` -/

section map

variable {env : VmEnv} {space space' : VmSpace} {st st' : VmState} {info : VmMappingInfo} {id : Nat}

/-- The object that is asked for, at an address. -/
def VmMappingInfo.rangeAt (info : VmMappingInfo) (base : BitVec 64) : VmObject :=
  { info.range with base := base }

/-- The address that is asked for, or the lowest gap. -/
def mapBase (start : BitVec 64) (xs : List VmObject) (info : VmMappingInfo) : BitVec 64 :=
  if info.virtBase ≠ 0 ∨ info.replace then alignDown info.virtBase
  else fitBase (alignUp info.length) start xs

/-- The list of objects when `o` has been placed as `info` asks. -/
def mapList (start limit : BitVec 64) (xs : List VmObject) (info : VmMappingInfo) (o : VmObject) :
    Option (List VmObject) :=
  if info.virtBase ≠ 0 ∨ info.replace then
    if o.base < start ∨ limit ≤ o.limit then none else placeObj info.replace o xs
  else if o.base = 0 then none
  else some (fitObj o.length o start xs)

/-- The new object, as `mmap` of its file leaves it. -/
def mapObject (env : VmEnv) (info : VmMappingInfo) (base : BitVec 64) : VmObject :=
  let o := info.rangeAt base
  if info.isFile then
    match env.node info.fd with
    | .ramfs _ => ramfsMmap o
    | .efifb (some _) => { o with flags := o.flags ||| vmFlagDevice }
    | _ => o
  else o

theorem mapObject_sameRange (env : VmEnv) (info : VmMappingInfo) (base : BitVec 64) :
    (mapObject env info base).SameRange (info.rangeAt base) := by
  rw [mapObject]
  split
  · split
    · exact ⟨rfl, rfl⟩
    · exact ⟨rfl, rfl⟩
    · exact ⟨rfl, rfl⟩
  · exact ⟨rfl, rfl⟩

theorem allocObject_spec (h : space.Ok) (range : VmObject) :
    (allocObject space range).Ok ∧ (allocObject space range).ids = space.ids ∧
      space.nextId ∉ space.ids ∧ (allocObject space range).objects = space.objects := by
  have hnew : space.nextId ∉ space.ids := fun hmem => lt_irrefl _ (h.bound _ hmem)
  have hne : ∀ x ∈ SpaceNode.head :: space.ids.map SpaceNode.obj, x ≠ .obj space.nextId :=
    fun x hx he => notMem_nodes hnew (he ▸ hx)
  have hring : IsRing (allocObject space range).links .head (space.ids.map .obj) :=
    h.ring.frame (fun x hx => update_of_ne (hne x hx) ..)
      fun x hx => update_of_ne (hne x hx) ..
  obtain ⟨hok, hids⟩ := VmSpace.Ok.of_ring hring fun i hi => Nat.lt_succ_of_lt (h.bound i hi)
  refine ⟨hok, hids, hnew, ?_⟩
  rw [VmSpace.objects, hids]
  exact map_update_of_notMem hnew ..

/-- **Placing an object**: it goes where `mapList` says, or it does not go anywhere. -/
theorem insertRange_spec (h : space.Ok) (info : VmMappingInfo) :
    let base := mapBase space.startAddress space.objects info
    (∃ space', insertRange (allocObject space info.range) space.nextId info = .ok (true, space') ∧
      (mapList space.startAddress space.endAddress space.objects info (info.rangeAt base)).isSome ∧
      space'.objs space.nextId = info.rangeAt base ∧
      (allocObject space info.range).Linked space' space.nextId fun o =>
        mapList space.startAddress space.endAddress space.objects info o) ∨
    (insertRange (allocObject space info.range) space.nextId info =
    .ok (false, allocObject space info.range) ∧
      mapList space.startAddress space.endAddress space.objects info
        (info.rangeAt base) = none) := by
  intro base
  obtain ⟨hok, hids, hnew, hobjs⟩ := allocObject_spec h info.range
  have hself : (allocObject space info.range).objs space.nextId = info.range := update_self ..
  have hnew' : space.nextId ∉ (allocObject space info.range).ids := hids ▸ hnew
  by_cases hhint : info.virtBase ≠ 0 ∨ info.replace
  · have hbase : base = info.range.base := if_pos hhint
    have hrange : info.rangeAt base = info.range := by rw [VmMappingInfo.rangeAt, hbase]
    have hlist : ∀ o, mapList space.startAddress space.endAddress space.objects info o =
        if o.base < space.startAddress ∨ space.endAddress ≤ o.limit then none
        else placeObj info.replace o space.objects := fun o => if_pos hhint
    rw [insertRange, if_pos hhint, hrange]
    rcases spaceCheckRange_spec hok hnew' (Nat.lt_succ_self _) info.replace with
      ⟨space', hcheck, hstart, hlimit, hsame, L⟩ | ⟨hcheck, hno⟩
    · rw [hself] at hstart hlimit hsame
      have L' : (allocObject space info.range).Linked space' space.nextId
          (mapList space.startAddress space.endAddress space.objects info) := L.congr fun o ho => by
        rw [hsame] at ho
        rw [hlist, hobjs, ho.1, ho.limit, if_neg]
        exact not_or.2 ⟨BitVec.not_lt.2 hstart, BitVec.not_le.2 hlimit⟩
      refine .inl ⟨space', hcheck, ?_, hsame, L'⟩
      rw [L'.objects _ (hsame ▸ ⟨rfl, rfl⟩)]
      rfl
    · refine .inr ⟨hcheck, ?_⟩
      rw [hself, hobjs] at hno
      rw [hlist, ite_eq_left_iff]
      intro hbound
      rw [not_or] at hbound
      rcases hno with hno | hno | hno
      · exact absurd hno hbound.1
      · exact absurd hno hbound.2
      · exact hno
  · have hbase : base = fitBase info.range.length space.startAddress space.objects := if_neg hhint
    have hlist : ∀ o, mapList space.startAddress space.endAddress space.objects info o =
        if o.base = 0 then none else some (fitObj o.length o space.startAddress space.objects) :=
      fun o => if_neg hhint
    rw [insertRange, if_neg hhint]
    rcases spaceFindFreeRange_spec hok hnew' (Nat.lt_succ_self _) with
      ⟨space', hfind, hzero, hsame, L⟩ | ⟨hfind, hzero⟩
    · rw [hself, hobjs] at hzero hsame
      change fitBase info.range.length space.startAddress space.objects ≠ 0 at hzero
      rw [← hbase] at hzero
      replace hsame : space'.objs space.nextId = info.rangeAt base := by rwa [hbase]
      have L' : (allocObject space info.range).Linked space' space.nextId
          (mapList space.startAddress space.endAddress space.objects info) := L.congr fun o ho => by
        rw [hsame] at ho
        rw [hlist, hobjs, hself, if_neg (ho.1.trans_ne hzero), ho.2]
        rfl
      refine .inl ⟨space', hfind, ?_, hsame, L'⟩
      rw [L'.objects _ (hsame ▸ ⟨rfl, rfl⟩)]
      rfl
    · refine .inr ⟨hfind, ?_⟩
      rw [hself, hobjs] at hzero
      rw [hlist, if_pos]
      exact hbase.trans hzero

/-- Where a space is, and its root. -/
def VmSpace.frame (space : VmSpace) : BitVec 64 × BitVec 64 × Nat :=
  (space.startAddress, space.endAddress, space.mmuRoot)

theorem VmSpace.Recount.frame (h : space.Recount space') : space'.frame = space.frame := by
  rw [VmSpace.frame, h.startAddress, h.endAddress, h.mmuRoot, VmSpace.frame]

theorem VmSpace.Relinked.frame (h : space.Relinked space') : space'.frame = space.frame := by
  rw [h]
  rfl

/-- The file's `mmap` and the mapping loop touch the flags of the object, and counters. -/
theorem fillRange_space (hobj : st.space.objs id = info.rangeAt base)
    (h : fillRange env st id info = .ok st') :
    (st.space.put id (mapObject env info base)).Recount st'.space ∧ st'.refs = st.refs := by
  have hput : (st.space.put id (info.rangeAt base)).Recount st.space :=
    ⟨rfl, by rw [← hobj]; exact (update_eq_self ..).symm, rfl, rfl, rfl, rfl⟩
  rw [fillRange] at h
  rw [mapObject]
  split_ifs at h with hfile
  · rw [if_pos hfile]
    cases hnode : env.node info.fd with
    | ramfs data =>
      rw [hnode, fopsMmap, ok.injEq] at h
      rw [← h]
      exact ⟨⟨rfl, by rw [← hobj]; rfl, rfl, rfl, rfl, rfl⟩, rfl⟩
    | efifb address =>
      rw [hnode] at h
      rcases address with _ | _
      · rw [fopsMmap, efifbMmap, ok.injEq] at h
        rw [← h]
        exact ⟨hput.trans ⟨rfl, rfl, rfl, rfl, rfl, rfl⟩, rfl⟩
      obtain ⟨m, -, rfl⟩ := bind_pure_eq_ok.1 h
      exact ⟨⟨rfl, by rw [← hobj]; rfl, rfl, rfl, rfl, rfl⟩, rfl⟩
    | other =>
      rw [hnode] at h
      cases h
  · rw [if_neg hfile]
    have hloop := forRange_ok (I := fun _ s => st.space.Recount s.space ∧ s.refs = st.refs)
      (fun k s s' _ _ hs hbody => ?_) ⟨.refl _, rfl⟩ h
    · exact ⟨hput.trans hloop.1, hloop.2⟩
    · obtain ⟨hspace, hrefs⟩ := mapRound_recount hbody
      exact ⟨hs.1.trans hspace, hrefs.trans hs.2⟩

/-- The new object is on the list, and nothing is mapped yet. -/
structure Placed (st : VmState) (info : VmMappingInfo) (st₁ : VmState) : Prop where
  m : st₁.m = st.m
  obj : st₁.space.objs st.space.nextId =
    info.rangeAt (mapBase st.space.startAddress st.space.objects info)
  linked : (allocObject st.space info.range).Linked st₁.space st.space.nextId
    (mapList st.space.startAddress st.space.endAddress st.space.objects info)

theorem Placed.frame {st₁ : VmState} (h : Placed st info st₁) : st₁.space.frame = st.space.frame :=
  h.linked.relinked.frame

/-- **`vm_space_map` in its two parts**: the object is placed and then filled in, or it has no place
and nothing happens. -/
theorem vmSpaceMap_cases (hok : st.space.Ok) (h : vmSpaceMap env st info = .ok (ret, st')) :
    (ret = 0 ∧ st' = { st with
        space := allocObject st.space info.range
        refs := if info.isFile then vfsRefFile st.refs info.fd else st.refs } ∧
      mapList st.space.startAddress st.space.endAddress st.space.objects info
        (info.rangeAt (mapBase st.space.startAddress st.space.objects info)) = none) ∨
    (∃ st₁, Placed st info st₁ ∧ fillRange env st₁ st.space.nextId info = .ok st' ∧
      ret = (st'.space.objs st.space.nextId).base) := by
  obtain ⟨-, -, h⟩ := bind_eq_ok.1 h
  obtain ⟨⟨valid, space'⟩, hinsert, h⟩ := bind_eq_ok.1 h
  rcases insertRange_spec hok info with ⟨space₁, hspec, hsome, hobj, L⟩ | ⟨hspec, hnone⟩
  · rw [hspec] at hinsert
    obtain ⟨rfl, rfl⟩ := hinsert
    obtain ⟨st₂, hfill, h⟩ := bind_eq_ok.1 h
    obtain ⟨rfl, rfl⟩ := h
    refine .inr ⟨_, ?_, hfill, rfl⟩
    exact ⟨rfl, hobj, L⟩
  · rw [hspec] at hinsert
    obtain ⟨rfl, rfl⟩ := hinsert
    obtain ⟨rfl, rfl⟩ := h
    exact .inl ⟨rfl, rfl, hnone⟩

theorem vmSpaceMap_objects (hok : st.space.Ok) (h : vmSpaceMap env st info = .ok (ret, st')) :
    let base := mapBase st.space.startAddress st.space.objects info
    let list := mapList st.space.startAddress st.space.endAddress st.space.objects info
    st'.space.Ok ∧ st'.space.frame = st.space.frame ∧
      ((ret = 0 ∧ st'.space.objects = st.space.objects ∧ list (info.rangeAt base) = none) ∨
      (ret = base ∧ list (mapObject env info base) = some st'.space.objects)) := by
  intro base list
  rcases vmSpaceMap_cases hok h with ⟨hret, rfl, hnone⟩ | ⟨st₁, P, hfill, hret⟩
  · obtain ⟨hok', -, -, hobjs⟩ := allocObject_spec hok info.range
    exact ⟨hok', rfl, .inl ⟨hret, hobjs, hnone⟩⟩
  obtain ⟨hre, -⟩ := fillRange_space P.obj hfill
  have hput : (st₁.space.put st.space.nextId (mapObject env info base)).Ok :=
    P.linked.ok.congr rfl rfl
  have hbase : (mapObject env info base).base = base := (mapObject_sameRange env info base).1
  refine ⟨hre.ok hput, hre.frame.trans P.frame, .inr ⟨?_, ?_⟩⟩
  · rw [hret, hre.objs]
    exact (congrArg VmObject.base (update_self ..)).trans hbase
  rw [hre.objects]
  refine P.linked.objects _ ?_
  rw [P.obj]
  exact mapObject_sameRange env info base

end map

/-! ## `vm_space_unmap` -/

section unmap

variable {env : VmEnv} {st st' : VmState} {addr : BitVec 64}

/-- The first object that begins at an address, which is the one that `vm_space_unmap` looks for. -/
def VmSpace.objectAt (space : VmSpace) (addr : BitVec 64) : Option VmObject :=
  space.objects.find? fun o => o.base == addr

theorem objectAt_eq (space : VmSpace) (addr : BitVec 64) :
    space.objectAt addr = (space.ids.find? fun i => (space.objs i).base == addr).map
    space.objs := by
  rw [VmSpace.objectAt, VmSpace.objects, find?_map]
  rfl

/-- **`vm_space_unmap` in its two parts**: an object is taken off the list, and then what it maps is
taken away. -/
theorem vmSpaceUnmap_cases (hok : st.space.Ok) (h : vmSpaceUnmap env st addr = .ok st') :
    (st' = st ∧ st.space.objectAt addr = none) ∨
    ∃ cs ds : List VmObject, ∃ o st₁, st.space.objects = cs ++ o :: ds ∧
    st.space.objectAt addr = some o ∧
      st₁.m = st.m ∧ st₁.space.Ok ∧ st₁.space.objects = cs ++ ds ∧
      st₁.space.frame = st.space.frame ∧ vmFreeRange env st₁ o = .ok st' := by
  rw [vmSpaceUnmap, next_head hok.ring, @findLoop_eq st.space [] st.space.ids _ _ hok.ring
    (length_of_ring hok.ring hok.bound)] at h
  obtain ⟨found, hfound, h⟩ := bind_eq_ok.1 h
  rw [ok.injEq] at hfound
  have hat := objectAt_eq st.space addr
  rw [hfound] at hat
  cases found with
  | none => exact .inl ⟨(pure_eq_ok.1 h).symm, hat⟩
  | some i =>
    have hmem := mem_of_find?_eq_some hfound
    obtain ⟨hok', cs, ds, hids, hids'⟩ := unlink_spec hok hmem
    refine .inr ⟨cs.map st.space.objs, ds.map st.space.objs, st.space.objs i,
      { st with space := { st.space with links := listDel st.space.links (.obj i) } },
      ?_, hat, rfl, hok', ?_, rfl, h⟩
    · rw [VmSpace.objects, hids, map_append, map_cons]
    · rw [VmSpace.objects, hids', map_append]

theorem vmSpaceUnmap_objects (hok : st.space.Ok) (h : vmSpaceUnmap env st addr = .ok st') :
    st'.space.Ok ∧ st'.space.frame = st.space.frame ∧
    st'.space.objects.Sublist st.space.objects := by
  rcases vmSpaceUnmap_cases hok h with ⟨rfl, -⟩ | ⟨cs, ds, o, st₁, hobjs, -, -, hok₁, hobjs₁,
    hframe, hfree⟩
  · exact ⟨hok, rfl, Sublist.refl _⟩
  have hre := vmFreeRange_recount hfree
  refine ⟨hre.ok hok₁, hre.frame.trans hframe, ?_⟩
  rw [hre.objects, hobjs₁, hobjs]
  exact Sublist.append_left (sublist_cons_self o ds) cs

end unmap

end Monolith.Mm
