import Monolith.Lib.Fallible
import Monolith.Libk.List
import Monolith.Mm.Defs

/-!
# `mm/vmm.c`: the objects of an address space

A `vm_space` has its `vm_object`s in an intrusive list.  `space_check_range` puts a new object at
the address it asks for, `space_find_free_range` looks for a gap; both walk the list by its links,
leave the loop at different places, and link the object in next to where the loop variable came to
stand, which may be the list head itself.

`VmSpace.objects` reads the list off the links.  On a well-formed list (`VmSpace.Ok`) the functions
do what `placeObj` and `fitObj` do on that list (`spaceCheckRange_spec`, `spaceFindFreeRange_spec`),
and the walks never run past its end.
-/

namespace Monolith.Mm

open Function Fallible Intrusive Libk List

/-! ## Objects and spaces -/

inductive VmOps where
  /-- What `kmalloc` found there: `vm_space_map` does not write the field. -/
  | unset
  | ramfs
  deriving DecidableEq, Repr

/-- `struct vm_object`, but for its list node and the pointer back to its space. -/
structure VmObject where
  base : BitVec 64
  length : BitVec 64
  prot : BitVec 32
  flags : BitVec 32
  /-- The open file it shows. -/
  file : Option Nat
  /-- Where in the file it begins. -/
  offset : BitVec 64
  vmOps : VmOps
  deriving DecidableEq, Repr

def VmObject.limit (o : VmObject) : BitVec 64 := o.base + o.length

/-- The test of `vm_space_get_range`. -/
def VmObject.contains (o : VmObject) (addr : BitVec 64) : Bool := o.base ≤ addr && addr < o.limit

def VmObject.SameRange (o o' : VmObject) : Prop := o.base = o'.base ∧ o.length = o'.length

theorem VmObject.SameRange.limit {o o' : VmObject} (h : o.SameRange o') : o.limit = o'.limit := by
  rw [VmObject.limit, h.1, h.2, VmObject.limit]

/-- A node of the list: the head in `vm_space`, or the `list_node` of an object. -/
inductive SpaceNode where
  | head
  | obj (id : Nat)
  deriving DecidableEq, Repr

/-- `struct vm_space`, but for its mutex: a call holds it from the first access to the last. -/
structure VmSpace where
  /-- The link fields of the list. -/
  links : Links SpaceNode
  /-- The objects that have been allocated. -/
  objs : Nat → VmObject
  /-- The next object that `kmalloc` returns. -/
  nextId : Nat
  startAddress : BitVec 64
  endAddress : BitVec 64
  mmuRoot : Nat
  mappedAnon : BitVec 64
  mappedFile : BitVec 64
  residentAnon : BitVec 64
  residentFile : BitVec 64

/-- The objects on the list from a node on. -/
def VmSpace.collect (space : VmSpace) : Nat → SpaceNode → List Nat
  | 0, _ => []
  | _ + 1, .head => []
  | fuel + 1, .obj i => i :: space.collect fuel (space.links.next (.obj i))

def VmSpace.ids (space : VmSpace) : List Nat :=
  space.collect (space.nextId + 1) (space.links.next .head)

/-- What the list says about the address space. -/
def VmSpace.objects (space : VmSpace) : List VmObject := space.ids.map space.objs

/-! ## The functions -/

def spaceReplaceBefore (space : VmSpace) (before range : Nat) : VmSpace :=
  let obj := space.objs before
  let base := (space.objs range).limit
  let free := obj.length ≤ base - obj.base
  let length := if free then obj.length else obj.length - (base - obj.base)
  let links := listAddTail space.links (.obj before) (.obj range)
  { space with
    objs := update space.objs before { obj with base := base, length := length }
    links := if free then listDel links (.obj before) else links }

/-- How the loop of `space_check_range` ends. -/
inductive RangeCheck where
  /-- An object has the new base. -/
  | before (cur : Nat)
  /-- An object begins behind the new base and within the new range. -/
  | after (cur : Nat)
  /-- Neither; this is where the loop variable is. -/
  | clear (cur : SpaceNode)

def checkLoop (space : VmSpace) (range : VmObject) : Nat → SpaceNode → Except MmFault RangeCheck
  | 0, _ => .error .brokenList
  | _ + 1, .head => .ok (.clear .head)
  | fuel + 1, .obj i =>
    let cur := space.objs i
    if cur.base ≤ range.base then
      if range.base < cur.limit then .ok (.before i)
      else checkLoop space range fuel (space.links.next (.obj i))
    else if cur.base < range.limit then .ok (.after i)
    else .ok (.clear (.obj i))

/-- `space_check_range`; `space_replace_after` says no. -/
def spaceCheckRange (space : VmSpace) (range : Nat) (replace : Bool) :
    Except MmFault (Bool × VmSpace) :=
  let obj := space.objs range
  if obj.base < space.startAddress then .ok (false, space)
  else if space.endAddress ≤ obj.limit then .ok (false, space)
  else do
    match ← checkLoop space obj (space.nextId + 1) (space.links.next .head) with
    | .before cur =>
      return if replace then (true, spaceReplaceBefore space cur range) else (false, space)
    | .after _ => return (false, space)
    | .clear cur =>
      return (true,
        { space with
          links :=
            if listEmpty space.links .head then listAdd space.links .head (.obj range)
            else listAddTail space.links cur (.obj range) })

/-- A pointer to an object, as a list node; null stands for the head. -/
def nodeOf : Option Nat → SpaceNode
  | none => .head
  | some i => .obj i

/-- The end of the object before, or the start of the space. -/
def prevEnd (space : VmSpace) : Option Nat → BitVec 64
  | none => space.startAddress
  | some i => (space.objs i).limit

/-- The loop of `space_find_free_range`, with `prev` and `alloc_base`. -/
def fitLoop (space : VmSpace) (length : BitVec 64) :
    Nat → Option Nat → SpaceNode → BitVec 64 → Except MmFault (Option Nat × BitVec 64)
  | 0, _, _, _ => .error .brokenList
  | _ + 1, prev, .head, allocBase => .ok (prev, allocBase)
  | fuel + 1, prev, .obj i, allocBase =>
    let cur := space.objs i
    if prevEnd space prev + length ≤ cur.base then .ok (prev, prevEnd space prev)
    else
      fitLoop space length fuel (some i) (space.links.next (.obj i))
        (if space.links.next (.obj i) = .head then cur.limit else allocBase)

/-- The part of `space_find_free_range` that finds `prev` and `alloc_base`. -/
def findGap (space : VmSpace) (length : BitVec 64) : Except MmFault (Option Nat × BitVec 64) :=
  if listEmpty space.links .head then .ok (none, space.startAddress)
  else fitLoop space length (space.nextId + 1) none (space.links.next .head) 0

def spaceFindFreeRange (space : VmSpace) (range : Nat) : Except MmFault (Bool × VmSpace) := do
  let (prev, allocBase) ← findGap space (space.objs range).length
  if allocBase = 0 then return (false, space)
  else
    return (true,
      { space with
        objs := update space.objs range { space.objs range with base := allocBase }
        links := listAdd space.links (nodeOf prev) (.obj range) })

/-- The first object on the list that passes a test. -/
def findLoop (space : VmSpace) (test : VmObject → Bool) : Nat → SpaceNode →
    Except MmFault (Option Nat)
  | 0, _ => .error .brokenList
  | _ + 1, .head => .ok none
  | fuel + 1, .obj i =>
    if test (space.objs i) then .ok (some i)
    else findLoop space test fuel (space.links.next (.obj i))

def vmSpaceGetRange (space : VmSpace) (base : BitVec 64) : Except MmFault (Option Nat) :=
  findLoop space (fun cur => cur.contains base) (space.nextId + 1) (space.links.next .head)

/-! ## The same on lists -/

/-- What is left of an object whose range begins with `range`, behind it. -/
def replaceBefore (range cur : VmObject) : List VmObject :=
  if cur.length ≤ range.limit - cur.base then []
  else [{ cur with base := range.limit, length := cur.length - (range.limit - cur.base) }]

/-- `space_check_range` on the list of objects. -/
def placeObj (replace : Bool) (range : VmObject) : List VmObject → Option (List VmObject)
  | [] => some [range]
  | cur :: rest =>
    if cur.base ≤ range.base then
      if range.base < cur.limit then
        if replace then some (range :: (replaceBefore range cur ++ rest)) else none
      else (placeObj replace range rest).map (cur :: ·)
    else if cur.base < range.limit then none
    else some (range :: cur :: rest)

/-- `space_find_free_range` on the list of objects: the address that is found. -/
def fitBase (length : BitVec 64) : BitVec 64 → List VmObject → BitVec 64
  | p, [] => p
  | p, cur :: rest => if p + length ≤ cur.base then p else fitBase length cur.limit rest

/-- The list with the new object at that address. -/
def fitObj (length : BitVec 64) (range : VmObject) : BitVec 64 → List VmObject → List VmObject
  | _, [] => [range]
  | p, cur :: rest =>
    if p + length ≤ cur.base then range :: cur :: rest
    else cur :: fitObj length range cur.limit rest

/-! ## Well-formed lists -/

/-- The links are a ring through the objects. -/
structure VmSpace.Ok (space : VmSpace) : Prop where
  ring : IsRing space.links .head (space.ids.map .obj)
  bound : ∀ i ∈ space.ids, i < space.nextId

/-- The node that a piece of the list begins with. -/
def firstNode : List Nat → SpaceNode
  | [] => .head
  | i :: _ => .obj i

theorem firstNode_eq (is : List Nat) : (is.map SpaceNode.obj).headD .head = firstNode is := by
  cases is <;> rfl

theorem nodeOf_eq (is : List Nat) : (is.map SpaceNode.obj).getLastD .head = nodeOf is.getLast? := by
  induction is using reverseRecOn with
  | nil => rfl
  | append_singleton is i _ => simp [nodeOf]

variable {is : List Nat} {i : Nat} {list : VmObject → Option (List VmObject)}

theorem nodup_of_ring {l : Links SpaceNode} (h : IsRing l .head (is.map .obj)) : is.Nodup :=
  h.nodup_tail.of_map _

section walk

variable {space : VmSpace} {as bs : List Nat} {fuel : Nat}

theorem next_obj (h : IsRing space.links .head ((as ++ i :: bs).map .obj)) :
    space.links.next (.obj i) = firstNode bs := by
  rw [map_append] at h
  rw [h.next_mem, firstNode_eq]

theorem next_head (h : IsRing space.links .head (as.map .obj)) :
    space.links.next .head = firstNode as := by
  rw [h.next_head, firstNode_eq]

theorem collect_eq (h : IsRing space.links .head ((as ++ bs).map .obj)) (hfuel : bs.length < fuel) :
    space.collect fuel (firstNode bs) = bs := by
  induction fuel generalizing as bs with
  | zero => omega
  | succ fuel ih =>
    rcases bs with _ | ⟨_, _⟩
    · rfl
    rw [firstNode, VmSpace.collect, next_obj h]
    rw [append_cons] at h
    rw [ih h (Nat.lt_of_succ_lt_succ hfuel)]

section

variable (h : IsRing space.links .head (as.map .obj))

include h

variable (hb : ∀ i ∈ as, i < space.nextId)

include hb

theorem length_of_ring : as.length < space.nextId + 1 := by
  have hsub : as.length ≤ (range space.nextId).length :=
    (nodup_of_ring h).subperm (fun i hi => mem_range.2 (hb i hi)) |>.length_le
  rw [length_range] at hsub
  omega

theorem ids_of_ring : space.ids = as := by
  rw [VmSpace.ids, next_head h]
  exact @collect_eq space [] as _ h (length_of_ring h hb)

theorem VmSpace.Ok.of_ring : space.Ok ∧ space.ids = as := by
  have hids := ids_of_ring h hb
  refine ⟨⟨?_, ?_⟩, hids⟩
  · rwa [hids]
  · rwa [hids]

end

/-- How the loop of `space_check_range` ends, told by the list. -/
inductive CheckEnd (space : VmSpace) (range : VmObject) (bs : List Nat) : RangeCheck → Prop where
  | before (cs ds : List Nat) (i : Nat) : bs = cs ++ i :: ds →
      (∀ replace o, o.SameRange range → placeObj replace o (bs.map space.objs) = if replace then
        some (cs.map space.objs ++ o :: (replaceBefore range (space.objs i) ++ ds.map space.objs))
        else none) → CheckEnd space range bs (.before i)
  | after (i : Nat) :
      (∀ replace o, o.SameRange range → placeObj replace o (bs.map space.objs) = none) →
      CheckEnd space range bs (.after i)
  | clear (cs ds : List Nat) : bs = cs ++ ds →
      (∀ replace o, o.SameRange range → placeObj replace o (bs.map space.objs) =
        some (cs.map space.objs ++ o :: ds.map space.objs)) →
      CheckEnd space range bs (.clear (firstNode ds))

theorem CheckEnd.cons {range : VmObject} {r : RangeCheck} (h : CheckEnd space range bs r)
    (hpass : ∀ replace o, o.SameRange range →
      placeObj replace o ((i :: bs).map space.objs) =
        (placeObj replace o (bs.map space.objs)).map (space.objs i :: ·)) :
    CheckEnd space range (i :: bs) r := by
  cases h with
  | before cs ds j hbs hplace =>
    refine .before (i :: cs) ds j (by rw [hbs]; rfl) fun replace o ho => ?_
    rw [hpass replace o ho, hplace replace o ho]
    cases replace <;> rfl
  | after j hplace =>
    exact .after j fun replace o ho => by rw [hpass replace o ho, hplace replace o ho]; rfl
  | clear cs ds hbs hplace =>
    refine .clear (i :: cs) ds (by rw [hbs]; rfl) fun replace o ho => ?_
    rw [hpass replace o ho, hplace replace o ho]
    rfl

theorem checkLoop_end {range : VmObject} (h : IsRing space.links .head ((as ++ bs).map .obj))
    (hfuel : bs.length < fuel) :
    ∃ r, checkLoop space range fuel (firstNode bs) = .ok r ∧ CheckEnd space range bs r := by
  induction fuel generalizing as bs with
  | zero => omega
  | succ fuel ih =>
    rcases bs with _ | ⟨i, bs⟩
    · exact ⟨_, rfl, .clear [] [] rfl fun _ _ _ => rfl⟩
    rw [firstNode, checkLoop, next_obj h]
    by_cases hbase : (space.objs i).base ≤ range.base
    · by_cases hlimit : range.base < (space.objs i).limit
      · rw [if_pos hbase, if_pos hlimit]
        refine ⟨_, rfl, .before [] bs i rfl fun replace o ho => ?_⟩
        simp [placeObj, ho.1, hbase, hlimit, replaceBefore, ho.limit]
      rw [if_pos hbase, if_neg hlimit]
      rw [append_cons] at h
      obtain ⟨r, hr, hend⟩ := ih h (Nat.lt_of_succ_lt_succ hfuel)
      refine ⟨r, hr, hend.cons fun replace o ho => ?_⟩
      rw [map_cons, placeObj, ho.1, if_pos hbase, if_neg hlimit]
    · by_cases hlimit : (space.objs i).base < range.limit
      · rw [if_neg hbase, if_pos hlimit]
        refine ⟨_, rfl, .after i fun replace o ho => ?_⟩
        rw [map_cons, placeObj, ho.1, ho.limit, if_neg hbase, if_pos hlimit]
      · rw [if_neg hbase, if_neg hlimit]
        refine ⟨_, rfl, .clear [] (i :: bs) rfl fun replace o ho => ?_⟩
        simp [placeObj, ho.1, ho.limit, hbase, hlimit]

/-- What the loop of `space_find_free_range` finds, told by the list. -/
theorem fitLoop_eq {length allocBase : BitVec 64}
    (h : IsRing space.links .head ((as ++ bs).map .obj)) (hfuel : bs.length < fuel)
    (halloc : bs = [] → allocBase = prevEnd space as.getLast?) : ∃ cs ds, bs = cs ++ ds ∧
      fitLoop space length fuel as.getLast? (firstNode bs) allocBase =
        .ok ((as ++ cs).getLast?, fitBase length (prevEnd space as.getLast?) (bs.map space.objs)) ∧
      ∀ o, fitObj length o (prevEnd space as.getLast?) (bs.map space.objs) =
        cs.map space.objs ++ o :: ds.map space.objs := by
  induction bs generalizing as fuel allocBase with
    obtain ⟨fuel, rfl⟩ := Nat.exists_eq_succ_of_ne_zero (by omega : fuel ≠ 0)
  | nil =>
    refine ⟨[], [], rfl, ?_, fun _ => rfl⟩
    rw [halloc rfl, append_nil]
    rfl
  | cons i bs ih =>
    rw [length_cons] at hfuel
    rw [firstNode, fitLoop, next_obj h, map_cons, fitBase]
    by_cases hfit : prevEnd space as.getLast? + length ≤ (space.objs i).base
    · refine ⟨[], i :: bs, rfl, ?_, fun o => ?_⟩
      · rw [if_pos hfit, if_pos hfit, append_nil]
      · simp [fitObj, hfit]
    rw [if_neg hfit, if_neg hfit]
    have hlast : (as ++ [i]).getLast? = some i := getLast?_concat
    rw [append_cons] at h
    have hfuel' : bs.length < fuel := by omega
    have halloc' : bs = [] → (if firstNode bs = .head then (space.objs i).limit else allocBase) =
        prevEnd space (as ++ [i]).getLast? := fun hnil => by rw [hnil, hlast]; rfl
    obtain ⟨cs, ds, rfl, hloop, hobj⟩ := ih h hfuel' halloc'
    rw [hlast] at hloop hobj
    refine ⟨i :: cs, ds, rfl, ?_, fun o => ?_⟩
    · rwa [append_cons]
    · rw [fitObj, if_neg hfit]
      exact congrArg _ (hobj o)

theorem findLoop_eq {test : VmObject → Bool} (h : IsRing space.links .head ((as ++ bs).map .obj))
    (hfuel : bs.length < fuel) : findLoop space test fuel (firstNode bs) =
      .ok (bs.find? fun i => test (space.objs i)) := by
  induction fuel generalizing as bs with
  | zero => omega
  | succ fuel ih =>
    rcases bs with _ | ⟨i, _⟩
    · rfl
    rw [firstNode, findLoop, next_obj h, find?_cons]
    rw [append_cons] at h
    cases htest : test (space.objs i) with
    | true => rfl
    | false => exact ih h (Nat.lt_of_succ_lt_succ hfuel)

end walk

/-! ## What the functions do to the list -/

/-- The space with the object `id` overwritten. -/
def VmSpace.put (space : VmSpace) (id : Nat) (o : VmObject) : VmSpace :=
  { space with objs := update space.objs id o }

/-- The spaces differ in their objects only. -/
def VmSpace.Relinked (space space' : VmSpace) : Prop :=
  space' = { space with links := space'.links, objs := space'.objs }

theorem VmSpace.relinked (space : VmSpace) (links : Links SpaceNode) (objs : Nat → VmObject) :
    space.Relinked { space with links := links, objs := objs } := rfl

section ops

variable {space space' : VmSpace} {id : Nat}

theorem collect_congr (h : space'.links = space.links) (fuel : Nat) (node : SpaceNode) :
    space'.collect fuel node = space.collect fuel node := by
  induction fuel generalizing node with
  | zero => rfl
  | succ fuel ih =>
    cases node with
    | head => rfl
    | obj i => rw [VmSpace.collect, VmSpace.collect, ih, h]

theorem ids_congr (hl : space'.links = space.links) (hn : space'.nextId = space.nextId) :
    space'.ids = space.ids := by
  simp [VmSpace.ids, collect_congr hl, hl, hn]

theorem VmSpace.Ok.congr (h : space.Ok) (hl : space'.links = space.links)
    (hn : space'.nextId = space.nextId) : space'.Ok := by
  have hids := ids_congr hl hn
  refine ⟨?_, ?_⟩
  · rw [hids, hl]
    exact h.ring
  · rw [hids, hn]
    exact h.bound

theorem map_update_of_notMem (h : id ∉ is) (objs : Nat → VmObject) (o : VmObject) :
    is.map (update objs id o) = is.map objs :=
  map_congr_left fun i hi => update_of_ne (fun he : i = id => h (he ▸ hi)) o objs

theorem map_update_middle {as bs : List Nat} (h : (as ++ id :: bs).Nodup) (objs : Nat → VmObject)
    (o : VmObject) : (as ++ id :: bs).map (update objs id o) = as.map objs ++ o :: bs.map objs := by
  rw [nodup_middle, nodup_cons, mem_append, not_or] at h
  rw [map_append, map_cons, map_update_of_notMem h.1.1, map_update_of_notMem h.1.2, update_self]

theorem notMem_nodes (h : id ∉ is) : SpaceNode.obj id ∉ SpaceNode.head :: is.map SpaceNode.obj := by
  simpa using h

/-- What it means that an object has been put on the list: whatever is written into its other
fields, the list is the one that `list` says. -/
structure VmSpace.Linked (space space' : VmSpace) (id : Nat)
    (list : VmObject → Option (List VmObject)) : Prop where
  ok : space'.Ok
  relinked : space.Relinked space'
  mem : id ∈ space'.ids
  objects : ∀ o, o.SameRange (space'.objs id) → list o = some (space'.put id o).objects

theorem VmSpace.Linked.congr {list' : VmObject → Option (List VmObject)}
    (h : space.Linked space' id list) (he : ∀ o, o.SameRange (space'.objs id) → list' o = list o) :
    space.Linked space' id list' :=
  ⟨h.ok, h.relinked, h.mem, fun o ho => (he o ho).trans (h.objects o ho)⟩

theorem VmSpace.Linked.of_ring (as bs : List Nat) (hr : space.Relinked space')
    (hring : IsRing space'.links .head ((as ++ id :: bs).map .obj)) (hlt : id < space.nextId)
    (hb : ∀ i ∈ as ++ bs, i < space.nextId)
    (hlist : ∀ o, o.SameRange (space'.objs id) →
    list o = some (as.map space'.objs ++ o :: bs.map space'.objs)) :
    space.Linked space' id list := by
  have hnext : space'.nextId = space.nextId := by rw [hr]
  have hb' : ∀ i ∈ as ++ id :: bs, i < space'.nextId := by
    intro i hi
    rw [hnext]
    rw [mem_append, mem_cons] at hi
    rcases hi with hi | rfl | hi
    · exact hb i (mem_append_left bs hi)
    · exact hlt
    · exact hb i (mem_append_right as hi)
  obtain ⟨hok, hids⟩ := VmSpace.Ok.of_ring hring hb'
  refine ⟨hok, hr, by rw [hids]; simp, fun o ho => ?_⟩
  have hput : (space'.put id o).ids = space'.ids := ids_congr rfl rfl
  rw [hlist o ho, VmSpace.objects, hput, hids]
  exact congrArg some (map_update_middle (nodup_of_ring hring) _ o).symm

variable (h : space.Ok) {cs ds : List Nat}

include h

theorem linked_clear (hid : id ∉ space.ids) (hlt : id < space.nextId) (hids : space.ids = cs ++ ds)
    (hlist : ∀ o, o.SameRange (space.objs id) →
    list o = some (cs.map space.objs ++ o :: ds.map space.objs)) : space.Linked { space with
        links :=
          if listEmpty space.links .head then listAdd space.links .head (.obj id)
          else listAddTail space.links (firstNode ds) (.obj id) } id list := by
  have hbound := h.bound
  have hring := h.ring
  rw [hids] at hbound hring hid
  have hnew := notMem_nodes hid
  rw [map_append] at hring hnew
  refine VmSpace.Linked.of_ring cs ds (space.relinked _ _) ?_ hlt hbound hlist
  rw [map_append]
  by_cases hempty : listEmpty space.links .head
  · -- an empty list has only one place
    have hadd := listAdd_isRing hring hnew
    rw [if_pos hempty]
    rw [listEmpty_eq hring, decide_eq_true_iff, append_eq_nil_iff] at hempty
    rwa [hempty.1] at hadd ⊢
  · rw [if_neg hempty, ← firstNode_eq]
    exact listAddTail_isRing hring hnew

theorem linked_before (hid : id ∉ space.ids) (hlt : id < space.nextId)
    (hids : space.ids = cs ++ i :: ds) (hlist : ∀ o, o.SameRange (space.objs id) →
      list o = some (cs.map space.objs ++ o ::
      (replaceBefore (space.objs id) (space.objs i) ++ ds.map space.objs))) :
    (spaceReplaceBefore space i id).objs id = space.objs id ∧
      space.Linked (spaceReplaceBefore space i id) id list := by
  have hbound := h.bound
  have hring := h.ring
  rw [hids] at hbound hring hid
  have hnodup := nodup_of_ring hring
  rw [nodup_middle, nodup_cons, mem_append, not_or] at hnodup
  have hnew := notMem_nodes hid
  rw [map_append] at hring hnew
  have hself : (spaceReplaceBefore space i id).objs id = space.objs id :=
    update_of_ne (fun he => hid (by rw [he]; simp)) ..
  -- the other objects are as before
  have hcs : cs.map (spaceReplaceBefore space i id).objs = cs.map space.objs :=
    map_update_of_notMem hnodup.1.1 ..
  have hds : ds.map (spaceReplaceBefore space i id).objs = ds.map space.objs :=
    map_update_of_notMem hnodup.1.2 ..
  -- the new object comes in front of the old one
  have hadd : IsRing (listAddTail space.links (.obj i) (.obj id)) .head
      ((cs.map .obj ++ [.obj id]) ++ .obj i :: ds.map .obj) := by
    rw [append_assoc, singleton_append]
    exact listAddTail_isRing hring hnew
  have hr : space.Relinked (spaceReplaceBefore space i id) := rfl
  refine ⟨hself, ?_⟩
  by_cases hfree : (space.objs i).length ≤ (space.objs id).limit - (space.objs i).base
  · have hlinks : (spaceReplaceBefore space i id).links =
        listDel (listAddTail space.links (.obj i) (.obj id)) (.obj i) := if_pos hfree
    refine VmSpace.Linked.of_ring cs ds hr ?_ hlt (fun j hj => ?_) fun o ho => ?_
    · rw [hlinks, map_append, map_cons, append_cons]
      exact listDel_isRing hadd
    · refine hbound j ?_
      rw [mem_append, mem_cons] at *
      tauto
    · rw [hself] at ho
      rw [hlist o ho, hcs, hds, replaceBefore, if_pos hfree, nil_append]
  · have hlinks : (spaceReplaceBefore space i id).links =
        listAddTail space.links (.obj i) (.obj id) := if_neg hfree
    have hobj : (spaceReplaceBefore space i id).objs i =
        { space.objs i with
          base := (space.objs id).limit
          length := (space.objs i).length - ((space.objs id).limit - (space.objs i).base) } := by
      rw [spaceReplaceBefore]
      simp [hfree]
    refine VmSpace.Linked.of_ring cs (i :: ds) hr ?_ hlt hbound fun o ho => ?_
    · rwa [hlinks, map_append, map_cons, append_cons]
    · rw [hself] at ho
      rw [hlist o ho, hcs, map_cons, hds, hobj, replaceBefore, if_neg hfree, singleton_append]

/-- **`space_check_range`** is `placeObj`, within the bounds of the space. -/
theorem spaceCheckRange_spec (hid : id ∉ space.ids) (hlt : id < space.nextId) (replace : Bool) :
    (∃ space', spaceCheckRange space id replace = .ok (true, space') ∧
      space.startAddress ≤ (space.objs id).base ∧ (space.objs id).limit < space.endAddress ∧
      space'.objs id = space.objs id ∧ space.Linked space' id fun o =>
      placeObj replace o space.objects) ∨
    (spaceCheckRange space id replace = .ok (false, space) ∧
      ((space.objs id).base < space.startAddress ∨ space.endAddress ≤ (space.objs id).limit ∨
        placeObj replace (space.objs id) space.objects = none)) := by
  by_cases hstart : (space.objs id).base < space.startAddress
  · exact .inr ⟨by rw [spaceCheckRange, if_pos hstart], .inl hstart⟩
  by_cases hend : space.endAddress ≤ (space.objs id).limit
  · exact .inr ⟨by rw [spaceCheckRange, if_neg hstart, if_pos hend], .inr (.inl hend)⟩
  have hbound : space.startAddress ≤ (space.objs id).base ∧
      (space.objs id).limit < space.endAddress := by
    rw [BitVec.not_lt] at hstart
    rw [BitVec.not_le] at hend
    exact ⟨hstart, hend⟩
  obtain ⟨r, hloop, hr⟩ :=
    @checkLoop_end space [] space.ids (space.nextId + 1) (space.objs id) h.ring
    (length_of_ring h.ring h.bound)
  rw [← next_head h.ring] at hloop
  have hcheck : spaceCheckRange space id replace = (do
      match r with
      | .before cur =>
        return if replace then (true, spaceReplaceBefore space cur id) else (false, space)
      | .after _ => return (false, space)
      | .clear cur =>
        return (true, { space with
            links :=
              if listEmpty space.links .head then listAdd space.links .head (.obj id)
              else listAddTail space.links cur (.obj id) }) : Except MmFault (Bool × VmSpace)) := by
    rw [spaceCheckRange, if_neg hstart, if_neg hend, hloop]
    rfl
  have hself : VmObject.SameRange (space.objs id) (space.objs id) := ⟨rfl, rfl⟩
  cases hr with
  | after i hplace => exact .inr ⟨hcheck, .inr (.inr (hplace replace _ hself))⟩
  | clear cs ds hids hplace =>
    exact .inl ⟨_, hcheck, hbound.1, hbound.2, rfl, linked_clear h hid hlt hids fun o ho =>
      hplace replace o ho⟩
  | before cs ds i hids hplace =>
    rcases replace with _ | _
    · exact .inr ⟨hcheck, .inr (.inr (hplace false _ hself))⟩
    obtain ⟨hsame, hlinked⟩ := linked_before h hid hlt hids fun o ho => hplace true o ho
    exact .inl ⟨_, hcheck, hbound.1, hbound.2, hsame, hlinked⟩

theorem findGap_eq (length : BitVec 64) : ∃ cs ds, space.ids = cs ++ ds ∧
    findGap space length = .ok (cs.getLast?, fitBase length space.startAddress space.objects) ∧
    ∀ o, fitObj length o space.startAddress space.objects = cs.map space.objs ++ o ::
    ds.map space.objs := by
  rw [findGap, listEmpty_eq h.ring]
  by_cases hnil : space.ids = []
  · refine ⟨[], [], hnil, ?_, fun o => ?_⟩
    · rw [VmSpace.objects, hnil]
      rfl
    · rw [VmSpace.objects, hnil]
      rfl
  · obtain ⟨cs, ds, hids, hfit, hobj⟩ := @fitLoop_eq space [] space.ids (space.nextId + 1) length 0
      h.ring (length_of_ring h.ring h.bound) fun he => absurd he hnil
    refine ⟨cs, ds, hids, ?_, hobj⟩
    rwa [if_neg (by simpa using hnil), next_head h.ring]

/-- **`space_find_free_range`** is `fitObj`, from the start of the space on. -/
theorem spaceFindFreeRange_spec (hid : id ∉ space.ids) (hlt : id < space.nextId) :
    (∃ space', spaceFindFreeRange space id = .ok (true, space') ∧
      fitBase (space.objs id).length space.startAddress space.objects ≠ 0 ∧
      space'.objs id = { space.objs id with
        base := fitBase (space.objs id).length space.startAddress space.objects } ∧
      space.Linked space' id fun o =>
      some (fitObj (space.objs id).length o space.startAddress space.objects)) ∨
    (spaceFindFreeRange space id = .ok (false, space) ∧
      fitBase (space.objs id).length space.startAddress space.objects = 0) := by
  obtain ⟨cs, ds, hids, hgap, hobj⟩ := findGap_eq h (space.objs id).length
  by_cases hzero : fitBase (space.objs id).length space.startAddress space.objects = 0
  · refine .inr ⟨?_, hzero⟩
    rw [spaceFindFreeRange, hgap]
    exact if_pos hzero
  have hring := h.ring
  have hbound := h.bound
  rw [hids] at hring hid hbound
  have hnew := notMem_nodes hid
  rw [map_append] at hring hnew
  rw [mem_append, not_or] at hid
  refine .inl ⟨_, by rw [spaceFindFreeRange, hgap]; exact if_neg hzero, hzero,
    update_self .., VmSpace.Linked.of_ring cs ds (space.relinked _ _) ?_ hlt hbound
      fun o _ => ?_⟩
  · rw [map_append]
    exact nodeOf_eq cs ▸ listAdd_isRing hring hnew
  · rw [hobj, map_update_of_notMem hid.1, map_update_of_notMem hid.2]

/-- **`vm_space_get_range`** finds the first object that has the address. -/
theorem vmSpaceGetRange_eq (addr : BitVec 64) : vmSpaceGetRange space addr =
    .ok (space.ids.find? fun i => (space.objs i).contains addr) := by
  rw [vmSpaceGetRange, next_head h.ring]
  exact @findLoop_eq space [] space.ids _ _ h.ring (length_of_ring h.ring h.bound)

theorem unlink_spec (hi : i ∈ space.ids) :
    let space' := { space with links := listDel space.links (.obj i) }
    space'.Ok ∧ ∃ cs ds, space.ids = cs ++ i :: ds ∧ space'.ids = cs ++ ds := by
  obtain ⟨cs, ds, hids⟩ := append_of_mem hi
  have hring := h.ring
  have hbound := h.bound
  rw [hids] at hring hbound
  rw [map_append] at hring
  have hdel := listDel_isRing hring
  rw [← map_append] at hdel
  obtain ⟨hok, hids'⟩ := @VmSpace.Ok.of_ring { space with links := listDel space.links (.obj i) }
    (cs ++ ds) hdel fun j hj => hbound j (by
      rw [mem_append] at *
      tauto)
  exact ⟨hok, cs, ds, hids, hids'⟩

end ops

end Monolith.Mm
