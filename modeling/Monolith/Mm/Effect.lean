import Monolith.Mm.Layout

/-!
# What the calls do to the page tables

Whatever `vm_space_map`, `vm_page_fault`, `vm_space_unmap` and `vm_space_destroy` do to memory, they
do one page at a time, and in one of five ways (`PageStep`): a page that belongs to somebody else is
mapped, a new page is made and mapped as the space's own, a new page is made and forgotten, an entry
is cleared, or an entry is cleared and the page it owned given back.

Every invariant of the page tables is proved for these five, once.
-/

namespace Monolith.Mm

open Function Fallible Intrusive Fs Relation Except List

/-- What happens to one page below `root`, at an address in `V`.  `Q` says which pages may be
mapped, with which protection, and whether the page is made for the mapping. -/
inductive PageStep (root : Nat) (V : BitVec 64 → Prop) (Q : BitVec 64 → BitVec 32 → Bool → Prop) :
    MmState → MmState → Prop where
  | share {m m' : MmState} {phys virt : BitVec 64} {prot flags : BitVec 32} : V virt →
      Q phys prot false → has flags vmFlagOwner = false → mmuMap m root phys virt prot flags =
      .ok m' → PageStep root V Q m m'
  | own {m m' : MmState} {phys virt : BitVec 64} {prot flags : BitVec 32} {pmm : Pmm}
      (words words' : Fin 512 → BitVec 64) : V virt → Q phys prot true →
      has flags vmFlagOwner = true → pmmAllocate m.pmm = .ok (phys, pmm) →
      mmuMap { mem := update m.mem (frameOf phys) words, pmm := pmm } root phys virt prot
        flags = .ok m' →
      PageStep root V Q m { m' with mem := update m'.mem (frameOf phys) words' }
  | take {m : MmState} {phys : BitVec 64} {pmm : Pmm} : pmmAllocate m.pmm = .ok (phys, pmm) →
      PageStep root V Q m { m with pmm := pmm }
  | unmap {m m' : MmState} {virt : BitVec 64} : V virt → mmuUnmap m root virt = .ok m' →
      PageStep root V Q m m'
  | release {m m' : MmState} {virt : BitVec 64} {pmm : Pmm} : V virt →
      has (mmuGetPhys m root virt).flags vmFlagOwner = true →
      pmmFree m.pmm (mmuGetPhys m root virt).base = .ok pmm →
      mmuUnmap { m with pmm := pmm } root virt = .ok m' → PageStep root V Q m m'

abbrev PageSteps (root : Nat) (V : BitVec 64 → Prop) (Q : BitVec 64 → BitVec 32 → Bool → Prop) :
    MmState → MmState → Prop := ReflTransGen (PageStep root V Q)

variable {V : BitVec 64 → Prop} {Q : BitVec 64 → BitVec 32 → Bool → Prop} {env : VmEnv}
  {st st' : VmState} {info : VmMappingInfo} {range : VmObject} {addr : BitVec 64}

variable {m m' : MmState} {root : Nat} {phys virt : BitVec 64} {prot flags : BitVec 32} {pmm : Pmm}
  {k : Nat}

section Own

variable (hV : V virt) (hQ : Q phys prot true) (hflags : has flags vmFlagOwner = true)
  (halloc : pmmAllocate m.pmm = .ok (phys, pmm))

include hV hQ hflags halloc

theorem PageStep.own_before (words : Fin 512 → BitVec 64)
    (hmap : mmuMap { mem := update m.mem (frameOf phys) words, pmm := pmm } root phys virt prot
    flags = .ok m') : PageStep root V Q m m' := by
  have hown := PageStep.own words (m'.mem (frameOf phys)) hV hQ hflags halloc hmap
  rwa [update_eq_self] at hown

variable (hmap : mmuMap { m with pmm := pmm } root phys virt prot flags = .ok m')

include hmap

theorem PageStep.own_after (words' : Fin 512 → BitVec 64) :
    PageStep root V Q m { m' with mem := update m'.mem (frameOf phys) words' } := by
  rw [← update_eq_self (frameOf phys) m.mem] at hmap
  exact .own (m.mem (frameOf phys)) words' hV hQ hflags halloc hmap

theorem PageStep.own_plain : PageStep root V Q m m' := by
  rw [← update_eq_self (frameOf phys) m.mem] at hmap
  exact .own_before hV hQ hflags halloc (m.mem (frameOf phys)) hmap

end Own

/-! ## `vm_space_map` -/

/-- The pages that `vm_space_map` maps for `info` are allowed. -/
structure Allowed (env : VmEnv) (info : VmMappingInfo) (Q : BitVec 64 → BitVec 32 → Bool → Prop) :
    Prop where
  zero : info.isFile = false → info.isDevice = false → info.prefault = false →
    Q env.zeroCowmem info.mmuProt false
  fresh : info.isFile = false → info.isDevice = false → info.prefault = true →
    ∀ phys, Q phys info.mmuProt true
  device : info.isFile = false → info.isDevice = true → ∀ phys, Q phys info.mmuProt false
  framebuffer : info.isFile = true → (∃ address, env.node info.fd = .efifb (some address)) →
    ∀ phys prot, Q phys prot false

theorem mapRound_steps {base : BitVec 64} (hA : Allowed env info Q)
    (hfile : info.isFile = false) (hV : V (pageAt base k))
    (h : mapRound env info base k st = .ok st') : PageSteps st.space.mmuRoot V Q st.m st'.m := by
  obtain ⟨⟨phys, flags, st₁⟩, hback, h⟩ := bind_eq_ok.1 h
  obtain ⟨m, hmap, rfl⟩ := bind_pure_eq_ok.1 h
  rw [backing] at hback
  rw [mmuMapReadable] at hmap
  cases hdev : info.isDevice with rw [hdev] at hback
  | true =>
    cases hback
    split at hmap
    · exact .single (.share hV (hA.device hfile hdev _) rfl hmap)
    · cases hmap
      exact .refl
  | false =>
    cases hpre : info.prefault with rw [hpre] at hback
    | true =>
      obtain ⟨⟨phys', pmm⟩, halloc, hback⟩ := bind_eq_ok.1 hback
      cases hback
      split at hmap
      · exact .single (.own_plain hV (hA.fresh hfile hdev hpre phys) rfl halloc hmap)
      · cases hmap
        exact .single (.take halloc)
    | false =>
      cases hback
      split at hmap
      · exact .single (.share hV (hA.zero hfile hdev hpre) rfl hmap)
      · cases hmap
        exact .refl

theorem fillRange_steps {id : Nat} (hA : Allowed env info Q)
    (hV : ∀ k < pageCount (st.space.objs id).length, V (pageAt (st.space.objs id).base k))
    (h : fillRange env st id info = .ok st') : PageSteps st.space.mmuRoot V Q st.m st'.m := by
  rw [fillRange] at h
  split_ifs at h with hfile
  · cases hnode : env.node info.fd with
    | ramfs data =>
      rw [hnode, fopsMmap, ok.injEq] at h
      rw [← h]
    | efifb address =>
      rw [hnode] at h
      rcases address with _ | address
      · rw [fopsMmap, efifbMmap, ok.injEq] at h
        rw [← h]
      obtain ⟨m, hmap, rfl⟩ := bind_pure_eq_ok.1 h
      refine forRange_ok (I := fun _ m => PageSteps st.space.mmuRoot V Q st.m m)
        (fun k m m' _ hk hm hbody => hm.tail ?_) .refl hmap
      rw [zero_add] at hk
      exact .share (hV k hk) (hA.framebuffer hfile ⟨address, hnode⟩ _ _) rfl hbody
    | other =>
      rw [hnode] at h
      cases h
  · have hloop := forRange_ok (I := fun _ s => s.space.mmuRoot = st.space.mmuRoot ∧
        PageSteps st.space.mmuRoot V Q st.m s.m)
      (fun k s s' _ hk hs hbody => ?_) ⟨rfl, .refl⟩ h
    · exact hloop.2
    rw [zero_add] at hk
    have hsteps := mapRound_steps hA (Bool.not_eq_true _ ▸ hfile) (hV k hk) hbody
    rw [hs.1] at hsteps
    exact ⟨(mapRound_recount hbody).1.mmuRoot.trans hs.1, hs.2.trans hsteps⟩

theorem vmSpaceMap_steps (hok : st.space.Ok) (hA : Allowed env info Q)
    (hV : ∀ st₁, Placed st info st₁ → ∀ k < pageCount (alignUp info.length),
      V (pageAt (mapBase st.space.startAddress st.space.objects info) k)) {ret : BitVec 64}
    (h : vmSpaceMap env st info = .ok (ret, st')) : PageSteps st.space.mmuRoot V Q st.m st'.m := by
  rcases vmSpaceMap_cases hok h with ⟨-, rfl, -⟩ | ⟨st₁, P, hfill, -⟩
  · exact .refl
  have hroot : st₁.space.mmuRoot = st.space.mmuRoot := congrArg (·.2.2) P.frame
  rw [← hroot, ← P.m]
  refine fillRange_steps hA ?_ hfill
  rw [P.obj]
  exact hV st₁ P

/-! ## Taking pages away -/

theorem freeRound_steps (hV : V (pageAt range.base k))
    (h : freeRound env range k st = .ok st') : PageSteps st.space.mmuRoot V Q st.m st'.m := by
  obtain ⟨pmm, hfree, h⟩ := bind_eq_ok.1 h
  obtain ⟨m, hunmap, rfl⟩ := bind_pure_eq_ok.1 h
  rw [pmmFreeIf] at hfree
  split_ifs at hfree with hfreed
  · refine .single (.release hV ?_ hfree hunmap)
    rw [freesPage] at hfreed
    split at hfreed <;> exact (Bool.and_eq_true _ _ ▸ hfreed).2
  · cases hfree
    exact .single (.unmap hV hunmap)

theorem vmFreeRange_steps (hV : ∀ k < pageCount range.length, V (pageAt range.base k))
    (h : vmFreeRange env st range = .ok st') : PageSteps st.space.mmuRoot V Q st.m st'.m := by
  obtain ⟨st₁, hloop, rfl⟩ := bind_pure_eq_ok.1 h
  have hsteps := forRange_ok (I := fun _ s => s.space.mmuRoot = st.space.mmuRoot ∧
      PageSteps st.space.mmuRoot V Q st.m s.m)
    (fun k s s' _ hk hs hbody => ?_) ⟨rfl, .refl⟩ hloop
  · exact hsteps.2
  rw [zero_add] at hk
  have hsteps := freeRound_steps (Q := Q) (hV k hk) hbody
  rw [hs.1] at hsteps
  exact ⟨(freeRound_recount hbody).mmuRoot.trans hs.1, hs.2.trans hsteps⟩

theorem vmSpaceUnmap_steps (hok : st.space.Ok)
    (hV : ∀ o ∈ st.space.objects, ∀ k < pageCount o.length, V (pageAt o.base k))
    (h : vmSpaceUnmap env st addr = .ok st') : PageSteps st.space.mmuRoot V Q st.m st'.m := by
  rcases vmSpaceUnmap_cases hok h with ⟨rfl, -⟩ | ⟨cs, ds, o, st₁, hobjs, -, hm, -, -,
    hframe, hfree⟩
  · exact .refl
  have hroot : st₁.space.mmuRoot = st.space.mmuRoot := congrArg (·.2.2) hframe
  rw [← hroot, ← hm]
  refine vmFreeRange_steps (hV o ?_) hfree
  rw [hobjs]
  exact mem_append_right cs mem_cons_self

theorem destroyLoop_steps {as bs : List Nat} {fuel : Nat}
    (hring : IsRing st.space.links .head ((as ++ bs).map .obj))
    (hV : ∀ i ∈ bs, ∀ k < pageCount (st.space.objs i).length, V (pageAt (st.space.objs i).base k))
    (h : destroyLoop env fuel (firstNode bs) st = .ok st') :
    st.space.Recount st'.space ∧ PageSteps st.space.mmuRoot V Q st.m st'.m := by
  induction bs generalizing as fuel st with
  | nil =>
    rcases fuel with _ | _
    · cases h
    rw [firstNode, destroyLoop, ok.injEq] at h
    rw [← h]
    exact ⟨.refl _, .refl⟩
  | cons i bs ih =>
    rcases fuel with _ | _
    · cases h
    obtain ⟨st₁, hfree, h⟩ := bind_eq_ok.1 h
    rw [next_obj hring] at h
    have hre := vmFreeRange_recount hfree
    have hsteps := vmFreeRange_steps (Q := Q) (hV i mem_cons_self) hfree
    rw [append_cons] at hring
    rw [← hre.links] at hring
    have hV' : ∀ j ∈ bs, ∀ k < pageCount (st₁.space.objs j).length,
        V (pageAt (st₁.space.objs j).base k) := by
      rw [hre.objs]
      exact fun j hj => hV j (mem_cons_of_mem i hj)
    obtain ⟨hre', hsteps'⟩ := ih hring hV' h
    rw [hre.mmuRoot] at hsteps'
    exact ⟨hre.trans hre', hsteps.trans hsteps'⟩

/-- **`vm_space_destroy`** takes the pages of all objects away, and then the tables. -/
theorem vmSpaceDestroy_steps (hok : st.space.Ok)
    (hV : ∀ o ∈ st.space.objects, ∀ k < pageCount o.length, V (pageAt o.base k))
    (h : vmSpaceDestroy env st = .ok st') :
    ∃ m, PageSteps st.space.mmuRoot V Q st.m m ∧ mmuDestroy m st.space.mmuRoot = .ok st'.m := by
  obtain ⟨st₁, hloop, h⟩ := bind_eq_ok.1 h
  obtain ⟨m, hdestroy, rfl⟩ := bind_pure_eq_ok.1 h
  rw [next_head hok.ring] at hloop
  obtain ⟨hre, hsteps⟩ := @destroyLoop_steps V Q env st st₁ [] st.space.ids _ hok.ring
    (fun i hi => hV _ (mem_map_of_mem hi)) hloop
  rw [hre.mmuRoot] at hdestroy
  exact ⟨st₁.m, hsteps, hdestroy⟩

/-! ## `vm_page_fault` -/

/-- The page of a file object that a fault at `addr` finds, or none at the end of the file. -/
def FaultPage (env : VmEnv) (range : VmObject) (addr : BitVec 64) (spage : Option Nat) : Prop :=
  ∃ fd pages, range.file = some fd ∧ env.node fd = .ramfs (some pages) ∧
    ramfsWalk pages (range.offset + (addr - range.base)) = (0, spage)

variable {flags : BitVec 32} {wild : Wild} {handled : Bool}

theorem or_protWrite (h : has prot protWrite = true) : prot ||| protWrite = prot := by
  rw [has_protWrite] at h
  have hbit : ∀ i < 32, protWrite.getLsbD i = decide (i = 1) := by decide
  refine BitVec.eq_of_getLsbD_eq fun i hi => ?_
  rw [BitVec.getLsbD_or, hbit i hi]
  by_cases h1 : i = 1
  · simp [h1, h]
  · simp [h1]

theorem cowFault_steps (hV : V addr) (hown : ∀ phys, Q phys range.prot true)
    (hwrite : has range.prot protWrite = true)
    (h : cowFault env st range addr = .ok (handled, st')) :
    st.space.Recount st'.space ∧ PageSteps st.space.mmuRoot V Q st.m st'.m := by
  obtain ⟨⟨newPhys, pmm⟩, halloc, h⟩ := bind_eq_ok.1 h
  dsimp only at h
  split at h
  · obtain ⟨-, rfl⟩ := h
    exact ⟨.refl _, .single (.take halloc)⟩
  obtain ⟨m, hmap, ⟨-, rfl⟩⟩ := bind_pure_eq_ok.1 h
  rw [or_protWrite hwrite] at hmap
  refine ⟨⟨rfl, rfl, rfl, rfl, rfl, rfl⟩, .single (.own_before hV (hown _) ?_ halloc _ hmap)⟩
  rw [has_vmFlagOwner, BitVec.getLsbD_or, show vmFlagOwner.getLsbD 4 = true from rfl, Bool.or_true]

theorem ramfsVmFault_steps {data : Option (List Nat)} (hV : V addr)
    (hown : ∀ phys, Q phys range.prot true)
    (hread : ∀ pages spage, data = some pages →
    ramfsWalk pages (range.offset + (addr - range.base)) = (0, spage) →
      ¬ (has range.prot protWrite = true ∧ has flags vmFaultWrite = true) →
      has range.prot protRead = true →
      Q (pageData wild spage - vmDmapBase) (range.prot &&& ~~~protWrite) false)
    (h : ramfsVmFault data st range addr flags wild = .ok (handled, st')) :
    st.space.Recount st'.space ∧ PageSteps st.space.mmuRoot V Q st.m st'.m := by
  rcases data with _ | pages
  · cases h
  rw [ramfsVmFault] at h
  obtain ⟨⟨offset, spage⟩, hwalk⟩ :
      ∃ r, ramfsWalk pages (range.offset + (addr - range.base)) = r := ⟨_, rfl⟩
  rw [hwalk] at h
  dsimp only at h
  split at h
  · obtain ⟨-, rfl⟩ := h
    exact ⟨.refl _, .refl⟩
  rename_i hoffset
  rw [not_not] at hoffset
  rw [hoffset] at hwalk
  split at h
  · obtain ⟨st₁, hcopy, ⟨-, rfl⟩⟩ := bind_pure_eq_ok.1 h
    obtain ⟨⟨page, pmm⟩, halloc, hcopy⟩ := bind_eq_ok.1 hcopy
    obtain ⟨m, hmap, hcopy⟩ := bind_eq_ok.1 hcopy
    split at hcopy
    · rw [pure_eq_ok] at hcopy
      rw [← hcopy]
      exact ⟨⟨rfl, rfl, rfl, rfl, rfl, rfl⟩, .single (.own_after hV (hown _) rfl halloc hmap _)⟩
    · cases hcopy
  · rename_i hnowrite
    split at h
    · rename_i hprot
      obtain ⟨m, hmap, ⟨-, rfl⟩⟩ := bind_pure_eq_ok.1 h
      exact ⟨.refl _, .single (.share hV (hread pages spage rfl hwalk hnowrite hprot) rfl hmap)⟩
    · obtain ⟨-, rfl⟩ := h
      exact ⟨.refl _, .refl⟩

/-- The faults in which a page of a file is mapped as it is. -/
structure ReadFault (env : VmEnv) (range : VmObject) (addr : BitVec 64) (flags : BitVec 32)
    (spage : Option Nat) : Prop where
  absent : has flags vmFaultPresent = false
  page : FaultPage env range addr spage
  nowrite : ¬ (has range.prot protWrite = true ∧ has flags vmFaultWrite = true)
  read : has range.prot protRead = true

theorem rangeFault_steps (hV : V addr) (hown : ∀ phys, Q phys range.prot true)
    (hread : ∀ spage, ReadFault env range addr flags spage →
      Q (pageData wild spage - vmDmapBase) (range.prot &&& ~~~protWrite) false)
    (h : rangeFault env st range addr flags wild = .ok (handled, st')) :
    st.space.Recount st'.space ∧ PageSteps st.space.mmuRoot V Q st.m st'.m := by
  have hsame : ∀ {b : Bool}, (ok (b, st) : Except MmFault (Bool × VmState)) = .ok (handled, st') →
      st.space.Recount st'.space ∧ PageSteps st.space.mmuRoot V Q st.m st'.m := by
    intro b h
    obtain ⟨-, rfl⟩ := h
    exact ⟨.refl _, .refl⟩
  rw [rangeFault] at h
  split at h
  · exact hsame h
  rename_i hallowed
  split at h
  · split at h
    · rename_i hcow
      -- a write is let through only if the object can be written to
      have hwrite : has range.prot protWrite = true := by
        rw [Bool.not_eq_true', Bool.not_eq_false, faultAllowed, Bool.and_eq_true, Bool.and_eq_true,
          hcow.1] at hallowed
        simpa using hallowed.1.1
      exact cowFault_steps hV hown hwrite h
    · exact hsame h
  · rename_i habsent
    split at h
    · split at h
      · rename_i data hops hnode
        obtain ⟨fd, hfd, hnode⟩ := Option.map_eq_some_iff.1 hnode
        refine ramfsVmFault_steps hV hown
          (fun pages spage hdata hwalk hnowrite hprot => hread spage ?_) h
        rw [hdata] at hnode
        exact ⟨(Bool.not_eq_true _).mp habsent, ⟨fd, pages, hfd, hnode, hwalk⟩, hnowrite, hprot⟩
      · cases h
    · exact hsame h

/-- **`vm_page_fault`** refuses, or is about an object that has the address. -/
theorem vmPageFault_cases (hok : st.space.Ok)
    (h : vmPageFault env st addr flags wild = .ok (handled, st')) :
    (handled = false ∧ st' = st) ∨ ∃ o ∈ st.space.objects, o.contains addr = true ∧
      rangeFault env st o addr flags wild = .ok (handled, st') := by
  rw [vmPageFault] at h
  split at h
  · rw [ok.injEq, Prod.mk.injEq] at h
    exact .inl ⟨h.1.symm, h.2.symm⟩
  obtain ⟨found, hfound, h⟩ := bind_eq_ok.1 h
  rw [vmSpaceGetRange_eq hok, ok.injEq] at hfound
  rcases found with _ | _
  · rw [pure_eq_ok, Prod.mk.injEq] at h
    exact .inl ⟨h.1.symm, h.2.symm⟩
  have hmem := mem_of_find?_eq_some hfound
  have hcontains := find?_some hfound
  exact .inr ⟨_, mem_map_of_mem hmem, hcontains, h⟩

end Monolith.Mm
