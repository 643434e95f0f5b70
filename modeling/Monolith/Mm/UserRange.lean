import Monolith.Mm.Placement

/-!
# User mappings and the end of user space

A user space under any sequence of `sys_mmap` and `sys_munmap`.  Sizes and addresses are taken as
they come: `align_up` of a size close to 2^64 is 0, a fixed address close to 2^64 gives an end that
wraps around and passes the check against `end_address`, and `space_find_free_range` does not look
at `end_address` at all.  So objects can leave the user half (`mmap_leaves_userspace`).

`Inside` says when a request stays inside its space, and `userObjects_inside` that nothing else is
needed.
-/

namespace Monolith.Mm

open Fallible Fs Transition List Option VmObject Except
open BitVec (le_def lt_def)

/-! ## Requests that stay inside -/

/-- There is room for `len` bytes in front of one of the objects or behind the last of them, before
`limit`; on the way to it no end wraps around. -/
def Fits (limit len : Nat) : Nat → List VmObject → Prop
  | p, [] => p + len ≤ limit
  | p, cur :: rest => p + len ≤ cur.lo ∨ p + len < 2 ^ 64 ∧ Fits limit len cur.hi rest

instance Fits.decidable (limit len : Nat) :
    (p : Nat) → (xs : List VmObject) → Decidable (Fits limit len p xs)
  | p, [] => inferInstanceAs (Decidable (p + len ≤ limit))
  | p, cur :: rest =>
    have := Fits.decidable limit len cur.hi rest
    inferInstanceAs (Decidable (p + len ≤ cur.lo ∨ p + len < 2 ^ 64 ∧ Fits limit len cur.hi rest))

/-- The request is for a range without wrap-around; if the address is left open, there is room. -/
structure Inside (space : VmSpace) (info : VmMappingInfo) : Prop where
  round : info.length.toNat + 4095 < 2 ^ 64
  hint : info.virtBase ≠ 0 ∨ info.replace → (alignDown info.virtBase).toNat + info.len < 2 ^ 64
  gap : ¬ (info.virtBase ≠ 0 ∨ info.replace) →
    Fits space.endAddress.toNat info.len space.startAddress.toNat space.objects

/-- All objects are in the space. -/
def InBounds (start limit : Nat) (xs : List VmObject) : Prop :=
  ∀ o ∈ xs, start ≤ o.lo ∧ o.hi ≤ limit

variable {env : VmEnv} {st st' : VmState} {info : VmMappingInfo} {start limit len : Nat}
  {o x : VmObject} {xs ys : List VmObject}

/-! ## The list stays in bounds -/

/-- Something is left of an object just when it goes on behind the new one. -/
theorem replaceBefore_eq (ho : o.NoWrap) (hle : x.base ≤ o.base) :
    (o.limit - x.base).toNat = o.hi - x.lo ∧
      (x.length ≤ o.limit - x.base ↔ x.hi ≤ o.hi) := by
  have hlim := toNat_limit ho
  have hxo : x.lo ≤ o.hi := (le_def.1 hle).trans (Nat.le_add_right ..)
  have hsub : (o.limit - x.base).toNat = o.hi - x.lo := by
    rw [BitVec.toNat_sub_of_le, hlim, VmObject.lo]
    rwa [le_def, hlim]
  refine ⟨hsub, ?_⟩
  have hxhi : x.hi = x.lo + x.length.toNat := rfl
  rw [le_def]
  omega

theorem exists_replaceBefore (ho : o.NoWrap) (hle : x.base ≤ o.base) (h : o.hi < x.hi) :
    ∃ y, replaceBefore o x = [y] := by
  rw [replaceBefore, if_neg]
  · exact ⟨_, rfl⟩
  · rw [(replaceBefore_eq ho hle).2]
    omega

variable {y : VmObject} {space : VmSpace} {ret addr : BitVec 64} {args : MmapArgs}
  {openFiles : Nat → Int} {len p : BitVec 64}

theorem hi_replaceBefore (ho : o.NoWrap) (hle : x.base ≤ o.base) (hy : y ∈ replaceBefore o x) :
    y.lo = o.hi ∧ y.hi = x.hi ∧ o.hi < x.hi ∧
      y.prot = x.prot ∧ y.flags = x.flags ∧ y.file = x.file ∧ y.offset = x.offset := by
  obtain ⟨hsub, hend⟩ := replaceBefore_eq ho hle
  have hxo : x.lo ≤ o.hi := (le_def.1 hle).trans (Nat.le_add_right ..)
  rw [replaceBefore] at hy
  split_ifs at hy with hlong
  · cases hy
  rw [hend] at hlong
  have hxhi : x.hi = x.lo + x.length.toNat := rfl
  have hyhi : y.hi = y.lo + y.length.toNat := rfl
  rw [mem_singleton] at hy
  have hlen : y.length.toNat = x.length.toNat - (o.hi - x.lo) := by
    rw [hy]
    rw [BitVec.toNat_sub_of_le, hsub]
    rw [le_def]
    omega
  have hlo : y.lo = o.hi := by rw [hy]; exact toNat_limit ho
  refine ⟨hlo, by omega, by omega, ?_⟩
  rw [hy]
  exact ⟨rfl, rfl, rfl, rfl⟩

theorem mem_placeObj {replace : Bool} (h : placeObj replace o xs = some ys) (hy : y ∈ ys) :
    y = o ∨ y ∈ xs ∨ ∃ x ∈ xs, x.base ≤ o.base ∧ y ∈ replaceBefore o x := by
  induction xs generalizing ys with
  | nil =>
    rw [placeObj, some_inj] at h
    rw [← h, mem_singleton] at hy
    exact .inl hy
  | cons x xs ih =>
    rw [placeObj] at h
    split at h
    · rename_i hle
      split at h
      · rw [ite_none_right_eq_some, some_inj] at h
        rw [← h.2, mem_cons, mem_append] at hy
        rcases hy with hy | hy | hy
        · exact .inl hy
        · exact .inr (.inr ⟨x, mem_cons_self, hle, hy⟩)
        · exact .inr (.inl (mem_cons_of_mem x hy))
      · obtain ⟨zs, hzs, rfl⟩ := map_eq_some_iff.1 h
        rcases mem_cons.1 hy with rfl | hy
        · exact .inr (.inl mem_cons_self)
        rcases ih hzs hy with hy | hy | ⟨z, hz, hy⟩
        · exact .inl hy
        · exact .inr (.inl (mem_cons_of_mem x hy))
        · exact .inr (.inr ⟨z, mem_cons_of_mem x hz, hy⟩)
    · rw [ite_none_left_eq_some, some_inj] at h
      rw [← h.2, mem_cons] at hy
      exact hy.imp id .inl

theorem mem_fitObj (hy : y ∈ fitObj len o p xs) : y = o ∨ y ∈ xs := by
  induction xs generalizing p with
  | nil =>
    rw [fitObj, mem_singleton] at hy
    exact .inl hy
  | cons x xs ih =>
    rw [fitObj] at hy
    split at hy
    · exact mem_cons.1 hy
    rcases mem_cons.1 hy with rfl | hy
    · exact .inr mem_cons_self
    · exact (ih hy).imp id (mem_cons_of_mem x)

/-- **First fit finds the room that there is.** -/
theorem fitBase_inBounds (hlim : limit < 2 ^ 64) (hp : start ≤ p.toNat)
    (hxs : InBounds start limit xs) (h : Fits limit len.toNat p.toNat xs) :
    start ≤ (fitBase len p xs).toNat ∧ (fitBase len p xs).toNat + len.toNat ≤ limit := by
  induction xs generalizing p with
  | nil => exact ⟨hp, h⟩
  | cons x xs ih =>
    obtain ⟨hlo, hhi⟩ := hxs x mem_cons_self
    have hx : x.limit.toNat = x.hi := toNat_limit (lt_of_le_of_lt hhi hlim)
    have hxx : x.lo ≤ x.hi := Nat.le_add_right ..
    have hwrap : p.toNat + len.toNat < 2 ^ 64 := by
      rcases h with h | h
      · omega
      · exact h.1
    have hle : p + len ≤ x.base ↔ p.toNat + len.toNat ≤ x.lo := by
      rw [le_def, BitVec.toNat_add_of_lt hwrap, VmObject.lo]
    rw [fitBase]
    split_ifs with hfit
    · rw [hle] at hfit
      exact ⟨hp, by omega⟩
    rcases h with h | ⟨-, h⟩
    · exact absurd (hle.2 h) hfit
    · refine ih (by omega) (fun y hy => hxs y (mem_cons_of_mem x hy)) ?_
      rwa [hx]

theorem Inside.object (hin : Inside space info)
    (hxs : InBounds space.startAddress.toNat space.endAddress.toNat space.objects)
    (hlo : o.lo = (mapBase space.startAddress space.objects info).toNat)
    (hhi : o.hi = (mapBase space.startAddress space.objects info).toNat + info.len)
    (h : mapList space.startAddress space.endAddress space.objects info o = some ys) :
    space.startAddress.toNat ≤ o.lo ∧ o.hi ≤ space.endAddress.toNat := by
  by_cases hhint : info.virtBase ≠ 0 ∨ info.replace
  · rw [mapList, if_pos hhint, ite_none_left_eq_some, not_or] at h
    have ho : o.NoWrap := by
      rw [VmObject.NoWrap, hhi, mapBase, if_pos hhint]
      exact hin.hint hhint
    rw [le_def, toNat_limit ho, not_le, lt_def, not_lt] at h
    exact ⟨h.1.1, h.1.2.le⟩
  · rw [hlo, hhi, mapBase, if_neg hhint]
    exact fitBase_inBounds space.endAddress.isLt le_rfl hxs (hin.gap hhint)

theorem mem_mapList {first last : BitVec 64} (ho : o.NoWrap)
    (h : mapList first last xs info o = some ys) (hy : y ∈ ys) :
    y = o ∨ y ∈ xs ∨ ∃ x ∈ xs, y.lo = o.hi ∧ y.hi = x.hi ∧ o.hi < x.hi := by
  by_cases hhint : info.virtBase ≠ 0 ∨ info.replace
  · rw [mapList, if_pos hhint, ite_none_left_eq_some] at h
    rcases mem_placeObj h.2 hy with hy | hy | ⟨x, hx, hle, hy⟩
    · exact .inl hy
    · exact .inr (.inl hy)
    · obtain ⟨hylo, hyhi, hlt, -⟩ := hi_replaceBefore ho hle hy
      exact .inr (.inr ⟨x, hx, hylo, hyhi, hlt⟩)
  · rw [mapList, if_neg hhint, ite_none_left_eq_some, some_inj] at h
    rw [← h.2] at hy
    exact (mem_fitObj hy).imp id .inl

/-- **A request that stays inside** leaves all objects inside, and makes none empty. -/
theorem vmSpaceMap_inBounds (hok : st.space.Ok) (hin : Inside st.space info)
    (hxs : InBounds st.space.startAddress.toNat st.space.endAddress.toNat st.space.objects)
    (h : vmSpaceMap env st info = .ok (ret, st')) :
    InBounds st.space.startAddress.toNat st.space.endAddress.toNat st'.space.objects ∧
      (0 < info.len → (∀ o ∈ st.space.objects, o.lo < o.hi) →
      ∀ o ∈ st'.space.objects, o.lo < o.hi) := by
  obtain ⟨-, -, ⟨-, hobjs, -⟩ | ⟨-, hsome⟩⟩ := vmSpaceMap_objects hok h
  · rw [hobjs]
    exact ⟨hxs, fun _ hne => hne⟩
  obtain ⟨hlo, hhi⟩ := @hi_mapObject env info (mapBase st.space.startAddress st.space.objects info)
  have hobj := hin.object hxs hlo hhi hsome
  have ho : (mapObject env info (mapBase st.space.startAddress st.space.objects info)).NoWrap :=
    lt_of_le_of_lt hobj.2 st.space.endAddress.isLt
  refine ⟨fun y hy => ?_, fun hlen hne y hy => ?_⟩
  · rcases mem_mapList ho hsome hy with rfl | hy | ⟨x, hx, hylo, hyhi, -⟩
    · exact hobj
    · exact hxs y hy
    · have := hxs x hx
      omega
  · rcases mem_mapList ho hsome hy with rfl | hy | ⟨x, hx, hylo, hyhi, hlt⟩
    · omega
    · exact hne y hy
    · omega

/-! ## The system calls of a process -/

/-- The calls on the space of a process. -/
inductive MmapCall where
  | mmap (args : MmapArgs)
  | munmap (addr size : BitVec 64)

def mmapStep (env : VmEnv) (openFiles : Nat → Int) (st : VmState) : MmapCall → Option VmState
  | .mmap args => (sysMmap env openFiles st args).toOption.map (·.2)
  | .munmap addr size => (sysMunmap env st addr size).toOption.map (·.2)

/-- The mapping that a call asks for stays inside the space.  Where the file comes from makes no
difference. -/
def MmapCall.Inside (st : VmState) : MmapCall → Prop
  | .mmap args => Mm.Inside st.space args.info
  | .munmap _ _ => True

/-- What holds of the space of a process. -/
structure UserInv (st : VmState) : Prop where
  ok : st.space.Ok
  start : st.space.startAddress = vmUserspaceBase
  limit : st.space.endAddress = vmUserspaceEnd
  inBounds : InBounds vmUserspaceBase.toNat vmUserspaceEnd.toNat st.space.objects
  nonempty : ∀ o ∈ st.space.objects, o.lo < o.hi

theorem UserInv.of_frame (h : UserInv st) (hok : st'.space.Ok)
    (hframe : st'.space.frame = st.space.frame)
    (hin : InBounds vmUserspaceBase.toNat vmUserspaceEnd.toNat st'.space.objects)
    (hne : ∀ o ∈ st'.space.objects, o.lo < o.hi) : UserInv st' := by
  rw [Prod.mk.injEq, Prod.mk.injEq] at hframe
  exact ⟨hok, hframe.1.trans h.start, hframe.2.1.trans h.limit, hin, hne⟩

theorem UserInv.map (h : UserInv st) (hin : Inside st.space info) (hlen : 0 < info.len)
    (hmap : vmSpaceMap env st info = .ok (ret, st')) : UserInv st' := by
  obtain ⟨hok, hframe, -⟩ := vmSpaceMap_objects h.ok hmap
  have hxs := h.inBounds
  rw [← h.start, ← h.limit] at hxs
  obtain ⟨hin', hne⟩ := vmSpaceMap_inBounds h.ok hin hxs hmap
  rw [h.start, h.limit] at hin'
  exact h.of_frame hok hframe hin' (hne hlen h.nonempty)

/-- The mapping that `sys_mmap` asks `vm_space_map` for. -/
def MmapArgs.request (openFiles : Nat → Int) (args : MmapArgs) : VmMappingInfo :=
  if has args.flags mapAnonymous then args.info else args.fileInfo (openFiles args.fd.toNat).toNat

/-- A file mapping is placed like one without a file. -/
theorem MmapArgs.placed_request (openFiles : Nat → Int) (args : MmapArgs) :
    (args.request openFiles).length = args.size ∧ (args.request openFiles).virtBase =
    args.info.virtBase ∧
      (args.request openFiles).replace = args.info.replace := by
  rw [MmapArgs.request]
  split
  · exact ⟨rfl, rfl, rfl⟩
  refine ⟨rfl, rfl, ?_⟩
  simp only [VmMappingInfo.replace, MmapArgs.fileInfo, MmapArgs.info]
  cases has args.flags mapFixed <;> rfl

theorem sysMmap_cases (h : sysMmap env openFiles st args = .ok (ret, st')) :
    st' = st ∨ args.size ≠ 0 ∧ vmSpaceMap env st (args.request openFiles) = .ok (ret, st') := by
  have hsame : ∀ {e : BitVec 64}, (ok (e, st) : Except MmFault (BitVec 64 × VmState)) =
      .ok (ret, st') → st' = st ∨ args.size ≠ 0 ∧
        vmSpaceMap env st (args.request openFiles) = .ok (ret, st') := by
    intro e h
    rw [ok.injEq, Prod.mk.injEq] at h
    exact .inl h.2.symm
  rw [sysMmap] at h
  split at h
  · exact hsame h
  rename_i hvalid
  have hsize : args.size ≠ 0 := fun h0 => hvalid (by rw [MmapArgs.invalid, h0]; rfl)
  rw [MmapArgs.request] at hsame ⊢
  split at h
  · rename_i hanon
    rw [if_pos hanon] at hsame ⊢
    split at h
    · exact hsame h
    split at h
    · exact hsame h
    · exact .inr ⟨hsize, h⟩
  · rename_i hanon
    rw [if_neg hanon] at hsame ⊢
    split at h
    · exact hsame h
    split at h
    · exact hsame h
    split at h
    · exact hsame h
    · exact .inr ⟨hsize, h⟩

theorem MmapArgs.len_request (openFiles : Nat → Int) (args : MmapArgs) :
    (args.request openFiles).len = args.info.len := by
  rw [VmMappingInfo.len, (args.placed_request openFiles).1]
  rfl

theorem Inside.request (h : Inside space args.info) (openFiles : Nat → Int) :
    Inside space (args.request openFiles) := by
  obtain ⟨hlength, hvirt, hreplace⟩ := args.placed_request openFiles
  have hlen := args.len_request openFiles
  refine ⟨hlength ▸ h.round, ?_, ?_⟩
  · rw [hvirt, hreplace, hlen]
    exact h.hint
  · rw [hvirt, hreplace, hlen]
    exact h.gap

theorem sysMmap_inv (h : UserInv st) (hin : Inside st.space args.info)
    (hcall : sysMmap env openFiles st args = .ok (ret, st')) : UserInv st' := by
  rcases sysMmap_cases hcall with rfl | ⟨hsize, hmap⟩
  · exact h
  refine h.map (hin.request openFiles) ?_ hmap
  have hpos : args.info.length.toNat ≠ 0 := fun h0 => hsize (BitVec.eq_of_toNat_eq h0)
  rw [args.len_request, VmMappingInfo.len, toNat_alignUp hin.round]
  omega

theorem sysMunmap_cases {size : BitVec 64} {ret : Int}
    (h : sysMunmap env st addr size = .ok (ret, st')) :
    st' = st ∨ vmSpaceUnmap env st addr = .ok st' := by
  rw [sysMunmap] at h
  split at h
  · rw [ok.injEq, Prod.mk.injEq] at h
    exact .inl h.2.symm
  · obtain ⟨st₁, hunmap, ⟨-, rfl⟩⟩ := bind_pure_eq_ok.1 h
    exact .inr hunmap

theorem UserInv.newUser {root : Nat} (hnew : st.space = VmSpace.newUser root) :
    UserInv st ∧ st.space.objects = [] := by
  obtain ⟨hok, hobjs⟩ := VmSpace.new_ok vmUserspaceBase vmUserspaceEnd root
  rw [VmSpace.newUser] at hnew
  rw [← hnew] at hok hobjs
  refine ⟨⟨hok, by rw [hnew]; rfl, by rw [hnew]; rfl, ?_, ?_⟩, hobjs⟩
  · rw [hobjs]
    exact nofun
  · rw [hobjs]
    exact nofun

theorem mmapStep_inv (h : UserInv st) {call : MmapCall} (hin : call.Inside st)
    (hstep : mmapStep env openFiles st call = some st') : UserInv st' := by
  cases call with obtain ⟨⟨ret, st₁⟩, hcall, rfl⟩ := map_toOption_eq_some.1 hstep
  | mmap args => exact sysMmap_inv h hin hcall
  | munmap addr size =>
    rcases sysMunmap_cases hcall with hsame | hunmap
    · rwa [hsame]
    obtain ⟨hok, hframe, hsub⟩ := vmSpaceUnmap_objects h.ok hunmap
    exact h.of_frame hok hframe (fun o ho => h.inBounds o (hsub.mem ho))
      fun o ho => h.nonempty o (hsub.mem ho)

/-! ## The user half -/

theorem getPagetableIndex_lt_of_lt (h : addr.toNat < 2 ^ 47) :
    (getPagetableIndex addr 4).val < 256 := by
  rw [getPagetableIndex_val addr (le_refl 4)]
  norm_num
  omega

theorem VmObject.contains_iff (ho : o.NoWrap) : o.contains addr = true ↔ o.lo ≤ addr.toNat ∧
    addr.toNat < o.hi := by
  rw [VmObject.contains, Bool.and_eq_true, decide_eq_true_iff, decide_eq_true_iff, lt_def,
    toNat_limit ho]
  rfl

theorem toNat_pageAt (ho : o.NoWrap) {k : Nat} (hk : k < pageCount o.length) :
    (pageAt o.base k).toNat = o.lo + k * 4096 ∧ o.lo + k * 4096 < o.hi := by
  have hlt : k * 4096 < o.length.toNat := by
    rw [pageCount] at hk
    omega
  have hhi : o.hi = o.lo + o.length.toNat := rfl
  rw [VmObject.NoWrap] at ho
  refine ⟨?_, by omega⟩
  have hmul : (BitVec.ofNat 64 k * pageSize).toNat = k * 4096 := by
    change k % 2 ^ 64 * 4096 % 2 ^ 64 = _
    omega
  rw [pageAt, BitVec.toNat_add, hmul]
  exact Nat.mod_eq_of_lt (by change o.lo + k * 4096 < 2 ^ 64; omega)

/-- **User mappings stay in user space**, in every run whose requests stay inside: every object is
non-empty and between the bounds of the space, and neither its pages nor any other address in it has
a PML4 index of the upper half. -/
theorem userObjects_inside (env : VmEnv) (openFiles : Nat → Int) {st₀ st : VmState} {root : Nat}
    (hnew : st₀.space = VmSpace.newUser root) {calls : List MmapCall}
    (hinside : Along (mmapStep env openFiles) (fun s call => call.Inside s) st₀ calls)
    (hrun : run (mmapStep env openFiles) st₀ calls = some st) :
    ∀ o ∈ st.space.objects, 0 < o.length.toNat ∧ vmUserspaceBase.toNat ≤ o.base.toNat ∧
      o.base.toNat + o.length.toNat ≤ vmUserspaceEnd.toNat ∧
      (∀ k < pageCount o.length, (getPagetableIndex (pageAt o.base k) 4).val < 256) ∧
      ∀ addr, o.contains addr = true → (getPagetableIndex addr 4).val < 256 := by
  have h : UserInv st :=
    run_induction (fun s a t hs ha hst => mmapStep_inv hs ha hst)
    (UserInv.newUser hnew).1 hinside hrun
  intro o ho
  obtain ⟨hlo, hhi⟩ := h.inBounds o ho
  have hend : vmUserspaceEnd.toNat < 2 ^ 47 := by decide
  have hwrap : o.NoWrap := by
    rw [VmObject.NoWrap]
    omega
  have hne := h.nonempty o ho
  have hlen : o.hi = o.lo + o.length.toNat := rfl
  refine ⟨by omega, hlo, hhi, fun k hk => ?_, fun addr haddr => ?_⟩
  · have hpage := toNat_pageAt hwrap hk
    exact getPagetableIndex_lt_of_lt (by omega)
  · have := (contains_iff hwrap).1 haddr
    exact getPagetableIndex_lt_of_lt (by omega)

/-- Two pages at the end of the address space. -/
def wrapArgs : MmapArgs where
  addr := 0xfffffffffffff000
  size := 0x2000
  prot := 1
  flags := 0x32
  fd := -1
  offset := 0

/-- **A fixed mapping that wraps around is accepted**: the end of the range is 0x1000, which is
below the end of the space.  The page goes below PML4 entry 511, which the kernel shares. -/
theorem mmap_leaves_userspace :
    ∃ st', sysMmap noFiles (fun _ => -1) (freshSpace .newUser) wrapArgs =
    .ok (0xfffffffffffff000, st') ∧
      (∃ o ∈ st'.space.objects, vmUserspaceEnd.toNat < o.base.toNat) ∧
      has (st'.m.mem 1 511) ptePresent = true ∧ mmuGetPhys st'.m 1 0xfffffffffffff000 =
      { base := 0xf000, prot := 9, flags := 0, present := true } := by
  refine ⟨_, rfl, ?_, ?_, ?_⟩
  · decide
  · decide
  · decide

/-- A page of memory, anywhere. -/
def pageArgs : MmapArgs where
  addr := 0
  size := 0x1000
  prot := 3
  flags := 0x22
  fd := -1
  offset := 0

theorem userObjects_inside_onePage :
    ∃ st, run (mmapStep noFiles fun _ => -1) (freshSpace .newUser) [.mmap pageArgs] = some st ∧
      st.space.objects.length = 1 ∧
      ∀ o ∈ st.space.objects, o.base.toNat + o.length.toNat ≤ vmUserspaceEnd.toNat := by
  have hinside : Along (mmapStep noFiles fun _ => -1) (fun s call => call.Inside s)
      (freshSpace .newUser) [.mmap pageArgs] :=
    ⟨⟨by decide, by decide, by decide⟩, fun _ _ => trivial⟩
  refine ⟨_, rfl, by decide, fun o ho => ?_⟩
  have hrun : run (mmapStep noFiles fun _ => -1) (freshSpace .newUser) [.mmap pageArgs] = some _ :=
    rfl
  have hnew : (freshSpace .newUser).space = VmSpace.newUser 1 := rfl
  exact (userObjects_inside noFiles _ hnew hinside hrun o ho).2.2.1

end Monolith.Mm
