import Monolith.Mm.Ownership
import Monolith.Mm.UserRange

/-!
# All address spaces together

The kernel space and any number of user spaces over one physical memory: spaces are made and
destroyed, and in between `vm_space_map`, `vm_space_unmap` and `vm_page_fault` are called on them in
any order, by the kernel or by `sys_mmap` and `sys_munmap`.

`frames_owned` is about every run whose requests stay inside their spaces: a frame that an entry
owns is in use, has no other owner anywhere, and is neither a table nor the page of zeros nor a page
of a file; and no frame is freed twice.
-/

namespace Monolith.Mm

open Function Fallible TableForest Fs Transition Option

/-! ## The system -/

/-- The memory and the address spaces. -/
structure VmSys where
  m : MmState
  /-- The reference counts of the open files. -/
  refs : Nat → BitVec 32
  kernel : Nat
  /-- The spaces there are.  Number 0 is `kernel_vm_space`. -/
  space : Nat → Option VmSpace

inductive VmCall where
  | map (info : VmMappingInfo)
  | mmap (openFiles : Nat → Int) (args : MmapArgs)
  | unmap (addr : BitVec 64)
  | munmap (addr size : BitVec 64)
  /-- `page_fault_handler`, which rounds `cr2` down. -/
  | fault (cr2 : BitVec 64) (flags : BitVec 32) (wild : Wild)

inductive VmAction where
  | new (i : Nat)
  | call (i : Nat) (c : VmCall)
  | destroy (i : Nat)
  /-- `pmm_allocate` for something else. -/
  | alloc

/-- A call; what it returns to its caller is left out. -/
def VmCall.exec (env : VmEnv) (st : VmState) : VmCall → Except MmFault VmState
  | .map info => do
    let r ← vmSpaceMap env st info
    return r.2
  | .mmap openFiles args => do
    let r ← sysMmap env openFiles st args
    return r.2
  | .unmap addr => vmSpaceUnmap env st addr
  | .munmap addr size => do
    let r ← sysMunmap env st addr size
    return r.2
  | .fault cr2 flags wild => do
    let r ← vmPageFault env st (alignDown cr2) flags wild
    return r.2

def VmSys.view (s : VmSys) (space : VmSpace) : VmState :=
  { m := s.m, space := space, refs := s.refs }

def VmSys.step (env : VmEnv) (s : VmSys) : VmAction → Option VmSys
  | .new i =>
    if i = 0 ∨ (s.space i).isSome then none
    else (vmUserspaceNew s.m s.kernel).toOption.map fun r =>
      { s with m := r.2, space := update s.space i (some r.1) }
  | .call i c =>
    (s.space i).bind fun space => (c.exec env (s.view space)).toOption.map fun st =>
      { s with m := st.m, refs := st.refs, space := update s.space i (some st.space) }
  | .destroy i =>
    if i = 0 then none
    else (s.space i).bind fun space => (vmSpaceDestroy env (s.view space)).toOption.map fun st =>
      { s with m := st.m, refs := st.refs, space := update s.space i none }
  | .alloc => (pmmAllocate s.m.pmm).toOption.map fun r => { s with m := { s.m with pmm := r.2 } }

/-- The kernel space alone, with nothing in it. -/
def VmSys.boot (m : MmState) (K : Nat) (refs : Nat → BitVec 32) : VmSys where
  m := m
  refs := refs
  kernel := K
  space i := if i = 0 then some (VmSpace.newKernel K) else none

def VmCall.request : VmCall → Option VmMappingInfo
  | .map info => some info
  | .mmap openFiles args => some (args.request openFiles)
  | _ => none

/-- The mappings that are asked for stay inside their spaces. -/
def VmSys.Inside (s : VmSys) : VmAction → Prop
  | .call i c => ∀ space info, s.space i = some space → c.request = some info → Mm.Inside space info
  | _ => True

variable {s : VmSys} {env : VmEnv} {K : Nat} {m : MmState} {lab : Labels}

theorem VmSys.inside_call {i : Nat} {c : VmCall} {space : VmSpace} {info : VmMappingInfo}
    (hspace : s.space i = some space) (hinfo : c.request = some info) (h : Mm.Inside space info) :
    s.Inside (.call i c) := by
  intro _ _ hspace' hinfo'
  rwa [← some.inj (hspace.symm.trans hspace'), ← some.inj (hinfo.symm.trans hinfo')]

/-- The frames that many mappings may share: the page of zeros, and the pages of the files. -/
def VmEnv.Reserved (env : VmEnv) (f : Nat) : Prop :=
  f = frameOf env.zeroCowmem ∨ ∃ fd pages, env.node fd = .ramfs (some pages) ∧ f ∈ pages

/-! ## A call on one space -/

/-- The pages that a call maps are allowed. -/
def VmCall.Allowed (env : VmEnv) (st : VmState) (Q : BitVec 64 → BitVec 32 → Bool → Prop) :
    VmCall → Prop
  | .map info => Mm.Allowed env info Q
  | .mmap openFiles args => Mm.Allowed env (args.request openFiles) Q
  | .unmap _ => True
  | .munmap _ _ => True
  | .fault cr2 flags wild => ∀ o ∈ st.space.objects, o.contains (alignDown cr2) = true →
      (∀ phys, Q phys o.prot true) ∧
      ∀ spage, ReadFault env o (alignDown cr2) flags spage →
        Q (pageData wild spage - vmDmapBase) (o.prot &&& ~~~protWrite) false

/-- The space number `i` is in order: its objects are between its bounds, and what is between the
bounds of a user space belongs to its own root. -/
structure SpaceOk (K : Nat) (lab : Labels) (i : Nat) (space : VmSpace) : Prop where
  ok : space.Ok
  root : IsRoot lab space.mmuRoot
  inBounds : InBounds space.startAddress.toNat space.endAddress.toNat space.objects
  kernel : i = 0 → space.mmuRoot = K
  user : i ≠ 0 → space.mmuRoot ≠ K ∧ space.endAddress = vmUserspaceEnd

/-- The addresses that belong to a root itself. -/
def Own (K r : Nat) (v : BitVec 64) : Prop := (shape K).home r (getPagetableIndex v 4) = r

section call

variable {env : VmEnv} {K i : Nat} {lab lab' : Labels} {space space' : VmSpace} {st st' : VmState}
  {Q : BitVec 64 → BitVec 32 → Bool → Prop} {info : VmMappingInfo} {c : VmCall}

section

variable (h : SpaceOk K lab i space)

include h

theorem SpaceOk.congr (hroots : IsRoot lab' space.mmuRoot) :
    SpaceOk K lab' i space := ⟨h.ok, hroots, h.inBounds, h.kernel, h.user⟩

theorem SpaceOk.of_frame (hok : space'.Ok) (hroots : IsRoot lab' space.mmuRoot)
    (hframe : space'.frame = space.frame)
    (hin : InBounds space.startAddress.toNat space.endAddress.toNat space'.objects) :
    SpaceOk K lab' i space' := by
  rw [VmSpace.frame, VmSpace.frame, Prod.mk.injEq, Prod.mk.injEq] at hframe
  obtain ⟨hstart, hend, hroot⟩ := hframe
  rw [← hstart, ← hend] at hin
  exact ⟨hok, hroot ▸ hroots, hin, by rw [hroot]; exact h.kernel, by rw [hroot, hend]; exact h.user⟩

theorem SpaceOk.own {v : BitVec 64} (hv : v.toNat ≤ space.endAddress.toNat) :
    Own K space.mmuRoot v := by
  by_cases hi : i = 0
  · rw [h.kernel hi]
    exact ite_self _
  · rw [(h.user hi).2] at hv
    refine home_of_lt K _ (getPagetableIndex_lt_of_lt (lt_of_le_of_lt hv ?_))
    decide

theorem SpaceOk.noWrap {o : VmObject} (ho : o ∈ space.objects) : o.NoWrap :=
  lt_of_le_of_lt (h.inBounds o ho).2 space.endAddress.isLt

theorem SpaceOk.own_page :
    ∀ o ∈ space.objects, ∀ k < pageCount o.length, Own K space.mmuRoot (pageAt o.base k) := by
  intro o ho k hk
  have hpage := toNat_pageAt (h.noWrap ho) hk
  have hbound := (h.inBounds o ho).2
  exact h.own (by omega)

end

/-- And so are those of an object that is about to be filled in. -/
theorem SpaceOk.own_placed (h : SpaceOk K lab i st.space) (hin : Inside st.space info) :
    ∀ st₁, Placed st info st₁ → ∀ k < pageCount (alignUp info.length),
      Own K st.space.mmuRoot (pageAt (mapBase st.space.startAddress st.space.objects info) k) := by
  intro st₁ P k hk
  have hlist := P.linked.objects _ (P.obj ▸ ⟨rfl, rfl⟩ :
    (info.rangeAt (mapBase st.space.startAddress st.space.objects info)).SameRange
      (st₁.space.objs st.space.nextId))
  obtain ⟨hlo, hhi⟩ := @hi_rangeAt info (mapBase st.space.startAddress st.space.objects info)
  obtain ⟨-, hend⟩ := hin.object h.inBounds hlo hhi hlist
  have hwrap : (info.rangeAt (mapBase st.space.startAddress st.space.objects info)).NoWrap :=
    lt_of_le_of_lt hend st.space.endAddress.isLt
  have hpage :=
    @toNat_pageAt (info.rangeAt (mapBase st.space.startAddress st.space.objects info)) hwrap k hk
  exact h.own (hpage.1 ▸ (hpage.2.trans_le hend).le)

/-- What a call does to the space, and to the page tables. -/
structure Called (K i : Nat) (Q : BitVec 64 → BitVec 32 → Bool → Prop) (st st' : VmState) :
    Prop where
  ok : st'.space.Ok
  frame : st'.space.frame = st.space.frame
  inBounds : InBounds st.space.startAddress.toNat st.space.endAddress.toNat st'.space.objects
  steps : PageSteps st.space.mmuRoot (Own K st.space.mmuRoot) Q st.m st'.m

variable (h : SpaceOk K lab i st.space)

include h

theorem SpaceOk.refl : Called K i Q st st := ⟨h.ok, rfl, h.inBounds, .refl⟩

theorem SpaceOk.map (hin : Inside st.space info)
    (hA : Allowed env info Q) {ret : BitVec 64} (hmap : vmSpaceMap env st info = .ok (ret, st')) :
    Called K i Q st st' := by
  obtain ⟨hok, hframe, -⟩ := vmSpaceMap_objects h.ok hmap
  exact ⟨hok, hframe, (vmSpaceMap_inBounds h.ok hin h.inBounds hmap).1,
    vmSpaceMap_steps h.ok hA (h.own_placed hin) hmap⟩

theorem SpaceOk.unmap {addr : BitVec 64} (hunmap : vmSpaceUnmap env st addr = .ok st') :
    Called K i Q st st' := by
  obtain ⟨hok, hframe, hsub⟩ := vmSpaceUnmap_objects h.ok hunmap
  exact ⟨hok, hframe, fun o ho => h.inBounds o (hsub.mem ho),
    vmSpaceUnmap_steps h.ok h.own_page hunmap⟩

/-- **Every call**, seen from the page tables. -/
theorem VmCall.exec_called (hin : ∀ info, c.request = some info → Inside st.space info)
    (hA : c.Allowed env st Q) (hexec : c.exec env st = .ok st') : Called K i Q st st' := by
  cases c with
  | map info =>
    obtain ⟨⟨ret, st₁⟩, hmap, rfl⟩ := bind_pure_eq_ok.1 hexec
    exact h.map (hin info rfl) hA hmap
  | mmap openFiles args =>
    obtain ⟨⟨ret, st₁⟩, hmap, rfl⟩ := bind_pure_eq_ok.1 hexec
    rcases sysMmap_cases hmap with rfl | ⟨-, hmap⟩
    · exact h.refl
    · exact h.map (hin _ rfl) hA hmap
  | unmap addr => exact h.unmap hexec
  | munmap addr size =>
    obtain ⟨⟨ret, st₁⟩, hunmap, rfl⟩ := bind_pure_eq_ok.1 hexec
    rcases sysMunmap_cases hunmap with rfl | hunmap
    · exact h.refl
    · exact h.unmap hunmap
  | fault cr2 flags wild =>
    obtain ⟨⟨handled, st₁⟩, hfault, rfl⟩ := bind_pure_eq_ok.1 hexec
    rcases vmPageFault_cases h.ok hfault with ⟨-, rfl⟩ | ⟨o, ho, hcontains, hfault⟩
    · exact h.refl
    obtain ⟨hown, hread⟩ := hA o ho hcontains
    have haddr := (VmObject.contains_iff (h.noWrap ho)).1 hcontains
    have hbound := (h.inBounds o ho).2
    obtain ⟨hre, hsteps⟩ := rangeFault_steps (h.own (by omega)) hown hread hfault
    exact ⟨hre.ok h.ok, hre.frame, by rw [hre.objects]; exact h.inBounds, hsteps⟩

end call

/-! ## The spaces -/

/-- All spaces are in order, and no two have one root. -/
structure Spaces (K : Nat) (lab : Labels) (f : Nat → Option VmSpace) : Prop where
  ok : ∀ i space, f i = some space → SpaceOk K lab i space
  inj : ∀ i j space space', f i = some space → f j = some space' → space.mmuRoot = space'.mmuRoot →
    i = j

section spaces

variable {K i : Nat} {lab lab' : Labels} {space : VmSpace} {f : Nat → Option VmSpace}

theorem Spaces.relabel (h : Spaces K lab f)
    (hroots : ∀ i space, f i = some space → IsRoot lab' space.mmuRoot) : Spaces K lab' f :=
  ⟨fun i space hi => (h.ok i space hi).congr (hroots i space hi), h.inj⟩

theorem Spaces.put (h : Spaces K lab f) (hok : SpaceOk K lab i space)
    (hne : ∀ j space', j ≠ i → f j = some space' → space'.mmuRoot ≠ space.mmuRoot) :
    Spaces K lab (update f i (some space)) := by
  have hcases j space' (hj : update f i (some space) j = some space') :
      (j = i ∧ space' = space) ∨ (j ≠ i ∧ f j = some space') := by
    by_cases hji : j = i
    · rw [hji, update_self, some_inj] at hj
      exact .inl ⟨hji, hj.symm⟩
    · rw [update_of_ne hji] at hj
      exact .inr ⟨hji, hj⟩
  refine ⟨fun j space' hj => ?_, fun j k space' space'' hj hk he => ?_⟩
  · rcases hcases j space' hj with ⟨rfl, rfl⟩ | ⟨-, hj⟩
    · exact hok
    · exact h.ok j space' hj
  rcases hcases j space' hj with ⟨rfl, rfl⟩ | ⟨hji, hfj⟩
  · rcases hcases k space'' hk with ⟨rfl, -⟩ | ⟨hki, hfk⟩
    · rfl
    · exact absurd he.symm (hne k space'' hki hfk)
  · rcases hcases k space'' hk with ⟨rfl, rfl⟩ | ⟨-, hfk⟩
    · exact absurd he (hne j space' hji hfj)
    · exact h.inj j k space' space'' hfj hfk he

theorem Spaces.erase (h : Spaces K lab f) (i : Nat) : Spaces K lab (update f i none) ∧
    ∀ j space', update f i none j = some space' → j ≠ i ∧ f j = some space' := by
  have hcases := fun j space' (hj : update f i none j = some space') => eq_some_of_update_none hj
  exact ⟨⟨fun j space' hj => h.ok j space' (hcases j space' hj).2, fun j k space' space'' hj hk =>
    h.inj j k space' space'' (hcases j space' hj).2 (hcases k space'' hk).2⟩, hcases⟩

end spaces

/-! ## Every action keeps the invariant -/

/-- The frames have their owners, and the spaces their roots. -/
structure VmSys.Inv (res : Nat → Prop) (s : VmSys) (lab : Labels) : Prop where
  owned : Owned s.kernel res s.m lab
  kernel : IsRoot lab s.kernel
  spaces : Spaces s.kernel lab s.space

/-- What an action does, said once. -/
inductive VmSys.Effect (res : Nat → Prop) (Q : BitVec 64 → BitVec 32 → Bool → Prop) (s : VmSys)
    (lab : Labels) : VmAction → VmSys → Labels → Prop where
  | new {i r : Nat} {m' : MmState} : i ≠ 0 → NewRoot s.kernel r s.m lab m' →
      Effect res Q s lab (.new i)
        { s with m := m', space := update s.space i (some (VmSpace.newUser r)) }
        (update lab r (some (r, [])))
  | call {i : Nat} {c : VmCall} {space : VmSpace} {st' : VmState} {lab' : Labels} :
      s.space i = some space → Called s.kernel i Q (s.view space) st' →
      Kept s.kernel space.mmuRoot res Q s.m lab st'.m lab' →
      Effect res Q s lab (.call i c)
        { s with m := st'.m, refs := st'.refs, space := update s.space i (some st'.space) } lab'
  | destroy {i : Nat} {space : VmSpace} {m : MmState} {st' : VmState} {lab₁ lab' : Labels} : i ≠ 0 →
      s.space i = some space → Kept s.kernel space.mmuRoot res Q s.m lab m lab₁ →
      Destroyed s.kernel space.mmuRoot m lab₁ st'.m lab' →
      Effect res Q s lab (.destroy i)
        { s with m := st'.m, refs := st'.refs, space := update s.space i none } lab'
  | alloc {m' : MmState} : Kept s.kernel s.kernel res Q s.m lab m' lab →
      Effect res Q s lab .alloc { s with m := m' } lab

/-- The pages that an action maps are allowed. -/
def VmSys.Allowed (env : VmEnv) (Q : BitVec 64 → BitVec 32 → Bool → Prop) (s : VmSys) :
    VmAction → Prop
  | .call i c => ∀ space, s.space i = some space → c.Allowed env (s.view space) Q
  | _ => True

section step

variable {env : VmEnv} {res : Nat → Prop} {Q : BitVec 64 → BitVec 32 → Bool → Prop} {s s' : VmSys}
  {lab lab' : Labels} {a : VmAction}

theorem VmSys.step_effect (h : s.Inv res lab) (hin : s.Inside a) (hA : s.Allowed env Q a)
    (hstep : s.step env a = some s') : ∃ lab', s.Effect res Q lab a s' lab' := by
  cases a with
  | new i =>
    obtain ⟨hi, hstep⟩ := ite_none_left_eq_some.1 hstep
    obtain ⟨⟨space, m'⟩, hnew, rfl⟩ := map_toOption_eq_some.1 hstep
    obtain ⟨⟨r, m₁⟩, hroot, hnew⟩ := bind_eq_ok.1 hnew
    obtain ⟨rfl, rfl⟩ := hnew
    exact ⟨_, .new (not_or.1 hi).1 (newUserRoot_spec h.owned.tables h.kernel hroot)⟩
  | call i c =>
    obtain ⟨space, hspace, hstep⟩ := bind_eq_some_iff.1 hstep
    obtain ⟨st', hexec, rfl⟩ := map_toOption_eq_some.1 hstep
    have hok := h.spaces.ok i space hspace
    have hc : Called s.kernel i Q (s.view space) st' :=
      VmCall.exec_called hok (fun info => hin space info hspace) (hA space hspace) hexec
    obtain ⟨lab', hkept⟩ := h.owned.pageSteps hok.root (fun _ hv => hv) hc.steps
    exact ⟨lab', .call hspace hc hkept⟩
  | destroy i =>
    obtain ⟨hi, hstep⟩ := ite_none_left_eq_some.1 hstep
    obtain ⟨space, hspace, hstep⟩ := bind_eq_some_iff.1 hstep
    obtain ⟨st', hdestroy, rfl⟩ := map_toOption_eq_some.1 hstep
    have hok := h.spaces.ok i space hspace
    obtain ⟨m, hsteps, hm⟩ :=
      @vmSpaceDestroy_steps _ Q env (s.view space) st' hok.ok hok.own_page hdestroy
    obtain ⟨lab₁, hkept⟩ := h.owned.pageSteps hok.root (fun _ hv => hv) hsteps
    obtain ⟨lab', D⟩ :=
      mmuDestroy_spec hkept.owned.tables ((hkept.roots _).2 hok.root) (hok.user hi).1 hm
    exact ⟨lab', .destroy hi hspace hkept D⟩
  | alloc =>
    obtain ⟨⟨phys, pmm⟩, halloc, rfl⟩ := map_toOption_eq_some.1 hstep
    exact ⟨lab, .alloc (h.owned.take halloc).1⟩

theorem VmSys.Effect.inv (h : s.Inv res lab) (E : s.Effect res Q lab a s' lab') :
    s'.Inv res lab' := by
  cases E with
  | @new i r m' hi N =>
    have hroot := fun r₀ (hr₀ : IsRoot lab r₀) => N.isRoot h.owned.tables hr₀
    obtain ⟨hok, hobjs⟩ := VmSpace.new_ok vmUserspaceBase vmUserspaceEnd r
    have hin : InBounds vmUserspaceBase.toNat vmUserspaceEnd.toNat (VmSpace.newUser r).objects := by
      exact nofun
    have hspaces : Spaces s.kernel (update lab r (some (r, []))) s.space :=
      h.spaces.relabel fun j space hj => (hroot _ (h.spaces.ok j space hj).root).1
    refine ⟨h.owned.newRoot h.kernel N, (hroot _ h.kernel).1,
      hspaces.put ?_ fun j space' _ hj => ?_⟩
    · exact ⟨hok, update_self .., hin, fun h0 => absurd h0 hi,
        fun _ => ⟨(hroot _ h.kernel).2.symm, rfl⟩⟩
    · exact (hroot _ (h.spaces.ok j space' hj).root).2
  | @call i c space st' lab' hspace hc hkept =>
    have hspaces : Spaces s.kernel lab' s.space :=
      h.spaces.relabel fun j space hj => (hkept.roots _).2 (h.spaces.ok j space hj).root
    have hok := (hspaces.ok i space hspace).of_frame hc.ok (hspaces.ok i space hspace).root hc.frame
      hc.inBounds
    refine ⟨hkept.owned, (hkept.roots _).2 h.kernel, hspaces.put hok fun j space' hji hj he =>
      hji ?_⟩
    have hroot : st'.space.mmuRoot = space.mmuRoot := congrArg (·.2.2) hc.frame
    exact hspaces.inj j i space' space hj hspace (he.trans hroot)
  | @destroy i space m st' lab₁ lab' hi hspace hkept D =>
    have hok := h.spaces.ok i space hspace
    have hleft : ∀ r₀, IsRoot lab r₀ → r₀ ≠ space.mmuRoot → IsRoot lab' r₀ :=
      fun r₀ hr₀ hne => (D.isRoot r₀).2 ⟨(hkept.roots r₀).2 hr₀, hne⟩
    obtain ⟨hspaces, hcases⟩ := h.spaces.erase i
    refine ⟨hkept.owned.destroyed D, hleft _ h.kernel (hok.user hi).1.symm,
      hspaces.relabel fun j space' hj => hleft _ (hspaces.ok j space' hj).root fun he => ?_⟩
    obtain ⟨hji, hj⟩ := hcases j space' hj
    exact hji (h.spaces.inj j i space' space hj hspace he)
  | alloc hkept => exact ⟨hkept.owned, h.kernel, h.spaces⟩

end step

/-! ## Every run -/

/-- The machine before the first user space: the tables of the kernel, which own nothing, and the
frames that are shared. -/
structure Boot (env : VmEnv) (m : MmState) (K : Nat) (lab : Labels) : Prop where
  tables : Tables K m lab
  roots : ∀ r, IsRoot lab r ↔ r = K
  reserved : ∀ f, env.Reserved f → Taken m lab f
  noOwner : ∀ u, has (pte K m K u) pteOwner = false
  noDouble : m.pmm.doubleFree = false

theorem Boot.of_newPgdir {m₀ m : MmState} (hpmm : m₀.pmm.Ok)
    (hnew : mmuNewPgdir m₀ = .ok (K, m)) (hdouble : m₀.pmm.doubleFree = false)
    (hres : ∀ f, env.Reserved f →
      FrameOk f ∧ m₀.pmm.isFree f = false ∧ f / 64 < m₀.pmm.bitmap.length) :
      ∃ lab, Boot env m K lab := by
  simp only [mmuNewPgdir, bind_eq_ok, pure_eq_ok, Prod.mk.injEq] at hnew
  obtain ⟨⟨phys, pmm⟩, halloc, rfl, rfl⟩ := hnew
  obtain ⟨hfree, -, hpmm', hdouble', hlength, T⟩ :=
    @Tables.plant (frameOf phys) m₀ _ phys (Tables.empty (frameOf phys) hpmm) pmm halloc
    (fun _ => 0)
      fun _ => .inl rfl
  refine ⟨_, T, fun r => ?_, fun f hf => ?_, fun u => ?_, hdouble'.trans hdouble⟩
  · constructor
    · intro hr
      by_contra hne
      simp [IsRoot, hne] at hr
    · rintro rfl
      exact update_self ..
  · obtain ⟨hok, hused, hbound⟩ := hres f hf
    have hne : f ≠ frameOf phys := fun he => by simp [he, hfree] at hused
    exact ⟨hok, by rw [hpmm', hused,
      Bool.false_and], by rw [hlength]; exact hbound, update_of_ne hne ..⟩
  · have hrow : update m₀.mem (frameOf phys) (fun _ => 0) (frameOf phys) = fun _ => 0 :=
      update_self ..
    rw [pte_of_zero (congrFun hrow _)]
    rfl

theorem VmSys.inv_boot (h : Boot env m K lab)
    (refs : Nat → BitVec 32) : (VmSys.boot m K refs).Inv env.Reserved lab := by
  have hK : IsRoot lab K := (h.roots K).2 rfl
  have hno r u (hr : IsRoot lab r) : has (pte K m r u) pteOwner ≠ true := by
    rw [(h.roots r).1 hr, h.noOwner]
    exact Bool.false_ne_true
  obtain ⟨hok, hobjs⟩ := VmSpace.new_ok vmVmallocBase vmKernelBase K
  have hcases i space (hi : (VmSys.boot m K refs).space i = some space) : i = 0 ∧
      space = VmSpace.newKernel K := by
    obtain ⟨h0, hi⟩ := ite_none_right_eq_some.1 hi
    exact ⟨h0, (some.inj hi).symm⟩
  refine ⟨⟨h.tables, h.reserved, fun r u hr ho => absurd ho (hno r u hr),
    fun r u _ _ hr _ ho => absurd ho (hno r u hr), h.noDouble⟩, hK, fun i space hi => ?_,
    fun i j space space' hi hj _ => ?_⟩
  · obtain ⟨rfl, rfl⟩ := hcases i space hi
    refine ⟨hok, hK, ?_, fun _ => rfl, fun h0 => absurd rfl h0⟩
    exact nofun
  · exact (hcases i space hi).1.trans (hcases j space' hj).1.symm

/-- Any page may be mapped. -/
def anyMapping : BitVec 64 → BitVec 32 → Bool → Prop := fun _ _ _ => True

theorem VmSys.allowed_any (env : VmEnv) (s : VmSys) (a : VmAction) :
    s.Allowed env anyMapping a := by
  have hA : ∀ info, Mm.Allowed env info anyMapping := fun info =>
    ⟨fun _ _ _ => trivial, fun _ _ _ _ => trivial, fun _ _ _ => trivial, fun _ _ _ _ => trivial⟩
  cases a with
  | call i c =>
    intro space _
    cases c with
    | map info => exact hA info
    | mmap openFiles args => exact hA _
    | unmap addr | munmap addr size => trivial
    | fault cr2 flags wild => exact fun _ _ _ => ⟨fun _ => trivial, fun _ _ => trivial⟩
  | new i | destroy i | alloc => trivial

/-- **The invariant holds in every run** whose requests stay inside their spaces. -/
theorem VmSys.inv_run (hboot : Boot env m K lab) {refs : Nat → BitVec 32} {as : List VmAction}
    (hinside : Along (VmSys.step env) VmSys.Inside (VmSys.boot m K refs) as)
    (hrun : run (VmSys.step env) (VmSys.boot m K refs) as = some s) :
    ∃ lab, s.Inv env.Reserved lab := by
  refine run_induction (I := fun s => ∃ lab, s.Inv env.Reserved lab) (fun s a t hs ha hst => ?_)
    ⟨lab, VmSys.inv_boot hboot refs⟩ hinside hrun
  obtain ⟨lab₁, h₁⟩ := hs
  obtain ⟨lab₂, E⟩ := s.step_effect h₁ ha (s.allowed_any env a) hst
  exact ⟨lab₂, E.inv h₁⟩

/-- **Every frame has one owner.**  In every run from boot whose requests stay inside their spaces,
the frame of an entry with the `OWNER` bit is allocated; it is not the page of zeros, not a page of
a file, and not a table; an entry with the bit that names it too is the same entry.  And nothing is
freed that is free. -/
theorem frames_owned (env : VmEnv) {m : MmState} {K : Nat} {lab : Labels} (hboot : Boot env m K lab)
    (refs : Nat → BitVec 32) {as : List VmAction} {s : VmSys}
    (hinside : Along (VmSys.step env) VmSys.Inside (VmSys.boot m K refs) as)
    (hrun : run (VmSys.step env) (VmSys.boot m K refs) as = some s) :
    s.m.pmm.doubleFree = false ∧
    ∀ i space u, s.space i = some space →
      has (mmuGetPhys s.m space.mmuRoot u).flags vmFlagOwner = true →
      let f := frameOf (mmuGetPhys s.m space.mmuRoot u).base
      s.m.pmm.isFree f = false ∧ f / 64 < s.m.pmm.bitmap.length ∧
      (mmuGetPhys s.m space.mmuRoot u).base ≠ env.zeroCowmem ∧
      (∀ fd pages, env.node fd = .ramfs (some pages) → f ∉ pages) ∧
      (∀ j space' p, s.space j = some space' → p.length ≤ 3 →
        walk (shape s.kernel) s.m.mem space'.mmuRoot p ≠ some f) ∧
      ∀ j space' u', s.space j = some space' →
        has (mmuGetPhys s.m space'.mmuRoot u').flags vmFlagOwner = true →
        frameOf (mmuGetPhys s.m space'.mmuRoot u').base = f →
        leafTable s.kernel s.m space'.mmuRoot u' = leafTable s.kernel s.m space.mmuRoot u ∧
          getPagetableIndex u' 1 = getPagetableIndex u 1 := by
  obtain ⟨lab', hinv⟩ := VmSys.inv_run hboot hinside hrun
  have hroot := fun j space' hj => (hinv.spaces.ok j space' hj).root
  refine ⟨hinv.owned.noDouble, fun i space u hi ho => ?_⟩
  rw [owner_mmuGetPhys s.kernel] at ho
  rw [base_mmuGetPhys s.kernel]
  obtain ⟨htak, hres⟩ := hinv.owned.owner _ u (hroot i space hi) ho
  refine ⟨htak.used, htak.bound, fun hz => hres (.inl ?_), fun fd pages hnode hmem =>
    hres (.inr ⟨fd, pages, hnode, hmem⟩), fun j space' p hj hp hw => ?_,
    fun j space' u' hj ho' hf => ?_⟩
  · rw [pteFrame, hz]
  · have hlab := hinv.owned.tables.forest.walk_place (hroot j space' hj) hp hw
    exact absurd (htak.noTable.symm.trans hlab) (some_ne_none _).symm
  · rw [owner_mmuGetPhys s.kernel] at ho'
    rw [base_mmuGetPhys s.kernel] at hf
    have hslot := hinv.owned.unique _ u' _ u (hroot j space' hj) (hroot i space hi) ho' ho hf
    exact hinv.owned.tables.entry_of_slot (hroot j space' hj) (hroot i space hi)
      (ne_zero_of_owner ho')
      (ne_zero_of_owner ho) hslot

/-- One file, of one page in frame 14; the page of zeros is frame 15. -/
def oneFile : VmEnv where
  zeroCowmem := 0xf000
  node fd := if fd = 0 then .ramfs (some [14]) else .other

/-- Sixteen frames, of which the last two are taken. -/
def fourteenFrames : MmState :=
  { sixteenFrames with pmm := { sixteenFrames.pmm with bitmap := [0x3ffe] } }

theorem oneFile_reserved {f : Nat} (h : oneFile.Reserved f) :
    FrameOk f ∧ fourteenFrames.pmm.isFree f = false ∧
    f / 64 < fourteenFrames.pmm.bitmap.length := by
  rcases h with rfl | ⟨fd, pages, hnode, hmem⟩
  · exact ⟨⟨by decide, by decide⟩, by decide, by decide⟩
  simp only [oneFile] at hnode
  split at hnode
  · cases hnode
    rw [List.mem_singleton.1 hmem]
    exact ⟨⟨by decide, by decide⟩, by decide, by decide⟩
  · cases hnode

/-- The kernel root is in frame 1. -/
def kernelOnly : MmState where
  mem := update sixteenFrames.mem 1 fun _ => 0
  pmm := { bitmap := [0x3ffc], available := 14, used := 2, doubleFree := false }

theorem kernelOnly_boot : ∃ lab, Boot oneFile kernelOnly 1 lab :=
  Boot.of_newPgdir (Pmm.ok_of_word rfl (by decide))
    (rfl : mmuNewPgdir fourteenFrames = .ok (1, kernelOnly)) rfl
    fun _ => oneFile_reserved

/-- Nothing to find where no page is. -/
def noWild : Wild := ⟨0, fun _ => 0⟩

/-- A page of a new space is mapped, and written to. -/
def writeOnePage : List VmAction :=
  [.new 1, .call 1 (.map anyPage), .call 1 (.fault 0x10123 7 noWild)]

theorem frames_owned_onePage :
    ∃ s space, run (VmSys.step oneFile) (VmSys.boot kernelOnly 1 fun _ => 1) writeOnePage = some s ∧
      s.space 1 = some space ∧ has (mmuGetPhys s.m space.mmuRoot 0x10000).flags vmFlagOwner = true ∧
      s.m.pmm.isFree (frameOf (mmuGetPhys s.m space.mmuRoot 0x10000).base) = false := by
  obtain ⟨lab, hboot⟩ := kernelOnly_boot
  have hinside : Along (VmSys.step oneFile) VmSys.Inside (VmSys.boot kernelOnly 1 fun _ => 1)
      writeOnePage := by
    refine .cons rfl trivial (.cons rfl ?_ (.cons rfl ?_ trivial))
    · exact VmSys.inside_call rfl rfl ⟨by decide, by decide, by decide⟩
    · exact fun _ _ _ hinfo => nomatch hinfo
  refine ⟨_, _, rfl, rfl, by decide, ?_⟩
  exact ((frames_owned oneFile hboot (fun _ => 1) hinside rfl).2 1 _ 0x10000 rfl (by decide)).1

end Monolith.Mm
