import Monolith.Mm.System

/-!
# Copy on write

What a user space can write to is its own.  The page of zeros and the pages of the files are mapped
by whoever asks for them, but without write permission; a write makes a copy, which has the `OWNER`
bit. So `Guarded` holds of every entry of the lower half, and with it no two processes see a page
that one of them can write to (`cow_isolation`).

There is one way around it.  A read fault at the offset of a file that is exactly its length finds
no page; `ramfs_vm_fault` takes the list head for one, and maps whatever frame the word in front of
it names (`fileEnd_shows_frame`).
-/

namespace Monolith.Mm

open Fallible TableForest Fs Transition BitVec List

theorem writable_mmuGetPhys (K : Nat) (m : MmState) (r : Nat) (u : BitVec 64) :
    has (mmuGetPhys m r u).prot protWrite = has (pte K m r u) pteWritable := by
  cases hl : leafTable K m r u with
  | none => rw [mmuGetPhys_of_none hl, pte_of_none hl]; rfl
  | some t => rw [mmuGetPhys_of_leafTable hl, has_mappingOf_write]

/-! ## The pages of a file -/

variable {pages : List Nat} {offset rest addr w u : BitVec 64} {o : VmObject} {r₀ : Nat}
  {Q : BitVec 64 → BitVec 32 → Bool → Prop}

theorem mem_of_ramfsWalk {page : Nat} (h : ramfsWalk pages offset = (rest, some page)) :
    page ∈ pages := by
  induction pages generalizing offset with
  | nil => cases h
  | cons p pages ih =>
    rw [ramfsWalk] at h
    split at h
    · cases h
      exact mem_cons_self
    · exact mem_cons_of_mem p (ih h)

theorem rest_of_ramfsWalk (h : ramfsWalk pages offset = (rest, none)) :
    offset = rest + BitVec.ofNat 64 (pages.length * 4096) := by
  induction pages generalizing offset with
  | nil =>
    rw [ramfsWalk, Prod.mk.injEq] at h
    rw [h.1]
    exact (add_zero rest).symm
  | cons p pages ih =>
    rw [ramfsWalk] at h
    split at h
    · cases h
    have hrest := ih h
    have hsucc : BitVec.ofNat 64 ((p :: pages).length * 4096) =
        BitVec.ofNat 64 (pages.length * 4096) + pageSize := by
      rw [length_cons, Nat.add_mul, ofNat_add]
      rfl
    rw [hsucc, ← add_assoc, ← hrest, sub_add_cancel]

/-- The address is where the file of the object ends. -/
def FileEnd (env : VmEnv) (o : VmObject) (addr : BitVec 64) : Prop :=
  ∃ fd pages, o.file = some fd ∧ env.node fd = .ramfs (some pages) ∧
    o.offset + (addr - o.base) = BitVec.ofNat 64 (pages.length * 4096)

theorem FaultPage.fileEnd {env : VmEnv} (h : FaultPage env o addr none) : FileEnd env o addr := by
  obtain ⟨fd, pages, hfile, hnode, hwalk⟩ := h
  refine ⟨fd, pages, hfile, hnode, ?_⟩
  rw [rest_of_ramfsWalk hwalk, zero_add]

/-! ## What may be mapped -/

/-- A page of its own, or one of the shared pages without write permission. -/
def CowMapping (env : VmEnv) (phys : BitVec 64) (prot : BitVec 32) (owner : Bool) : Prop :=
  owner = true ∨ (PhysOk phys ∧ env.Reserved (frameOf phys) ∧ has prot protWrite = false)

/-- An entry that is empty, owns its frame, or shows a shared page without write permission. -/
def Guarded (env : VmEnv) (w : BitVec 64) : Prop :=
  w = 0 ∨ has w pteOwner = true ∨ (env.Reserved (pteFrame w) ∧ has w pteWritable = false)

/-- The requests of the processes are for memory and for files, and nobody reads where a file ends.
The kernel may ask for what it likes. -/
def VmSys.CowSafe (env : VmEnv) (s : VmSys) : VmAction → Prop
  | .call i c => i ≠ 0 →
    (∀ info, c.request = some info → info.isDevice = false ∧
      (info.isFile = true → ∀ address, env.node info.fd ≠ .efifb (some address))) ∧
    ∀ cr2 flags wild, c = .fault cr2 flags wild → ∀ space o, s.space i = some space →
      o ∈ space.objects → o.contains (alignDown cr2) = true → FileEnd env o (alignDown cr2) →
      has flags vmFaultPresent = true ∨
      (has o.prot protWrite = true ∧ has flags vmFaultWrite = true) ∨
        has o.prot protRead = false
  | _ => True

section allowed

variable {env : VmEnv} {info : VmMappingInfo} {s : VmSys} {lab : Labels} {i : Nat} {c : VmCall}

theorem Written.guarded (h : Written (CowMapping env) w) : Guarded env w := by
  rcases h with h | ⟨phys, prot, flags, rfl, howner | ⟨hphys, hres, hwrite⟩⟩
  · exact .inl h
  · exact .inr (.inl ((has_pteOf_owner ..).trans howner))
  · refine .inr (.inr ⟨?_, (has_pteOf_writable ..).trans hwrite⟩)
    rwa [pteFrame_pteOf _ _ hphys]

theorem has_and_not_write (prot : BitVec 32) : has (prot &&& ~~~protWrite) protWrite = false := by
  rw [has_protWrite]
  simp [protWrite]

/-- What is not handed out page by page is mapped without write permission. -/
theorem mmuProt_write (hfile : info.isFile = false) (hdev : info.isDevice = false)
    (hpre : info.prefault = false) : has info.mmuProt protWrite = false := by
  have hcow : info.cow = has info.prot protWrite := by
    rw [VmMappingInfo.cow, hfile, hdev, hpre, Bool.not_false, Bool.and_true, Bool.and_true,
      Bool.and_true]
  rw [VmMappingInfo.mmuProt, hcow]
  split_ifs with hwrite
  · exact has_and_not_write _
  · exact Bool.not_eq_true _ ▸ hwrite

/-- **What `vm_space_map` maps** without a device. -/
theorem allowed_cow (hzero : PhysOk env.zeroCowmem) (hdev : info.isDevice = false)
    (hfb : info.isFile = true → ∀ address, env.node info.fd ≠ .efifb (some address)) :
    Allowed env info (CowMapping env) where
  zero hfile _ hpre := .inr ⟨hzero, .inl rfl, mmuProt_write hfile hdev hpre⟩
  fresh _ _ _ _ := .inl rfl
  device _ h _ := by rw [hdev] at h; cases h
  framebuffer hfile h _ _ := by
    obtain ⟨address, haddress⟩ := h
    exact absurd haddress (hfb hfile address)

theorem VmSys.CowSafe.allowed (h : s.Inv env.Reserved lab) (hzero : PhysOk env.zeroCowmem)
    (hi : i ≠ 0) (hsafe : s.CowSafe env (.call i c)) :
    s.Allowed env (CowMapping env) (.call i c) := by
  obtain ⟨hreq, hend⟩ := hsafe hi
  intro space hspace
  cases c with
  | map info => exact allowed_cow hzero (hreq info rfl).1 (hreq info rfl).2
  | mmap openFiles args => exact allowed_cow hzero (hreq _ rfl).1 (hreq _ rfl).2
  | unmap addr | munmap addr size => trivial
  | fault cr2 flags wild =>
    intro o ho hcontains
    refine ⟨fun _ => .inl rfl, fun spage R => .inr ?_⟩
    cases spage with
    | none =>
      rcases hend cr2 flags wild rfl space o hspace ho hcontains R.page.fileEnd with hp | hw | hr
      · exact absurd (R.absent.symm.trans hp) Bool.false_ne_true
      · exact absurd hw R.nowrite
      · exact absurd (R.read.symm.trans hr) Bool.false_ne_true.symm
    | some page =>
      obtain ⟨fd, pages, -, hnode, hwalk⟩ := R.page
      have hres : env.Reserved page := .inr ⟨fd, pages, hnode, mem_of_ramfsWalk hwalk⟩
      have hok := (h.owned.reserved page hres).ok
      have hphys : pageData wild (some page) - vmDmapBase = frameAddr page :=
        BitVec.add_sub_cancel ..
      rw [hphys]
      refine ⟨physOk_frameAddr hok.2, ?_, has_and_not_write _⟩
      rwa [frameOf_frameAddr hok.2]

end allowed

/-! ## Every action keeps the entries guarded -/

/-- The lower halves of the user roots. -/
def VmSys.Cow (env : VmEnv) (s : VmSys) (lab : Labels) : Prop :=
  ∀ r u, IsRoot lab r → r ≠ s.kernel → ¬ Upper u → Guarded env (pte s.kernel s.m r u)

section step

variable {env : VmEnv} {s s' : VmSys} {lab lab' : Labels} {a : VmAction} {K r : Nat}
  {m m' : MmState} {res : Nat → Prop}

theorem Kept.guarded (hk : Kept K r res (CowMapping env) m lab m' lab')
    (hr₀ : IsRoot lab r₀) (h : Guarded env (Mm.pte K m r₀ u)) : Guarded env (Mm.pte K m' r₀ u) := by
  rcases hk.pte r₀ u hr₀ with he | ⟨hw, -⟩
  · rwa [he]
  · exact hw.guarded

/-- What the kernel maps is not in the lower half of a user root. -/
theorem Kept.pte_user (hk : Kept K K res Q m lab m' lab') (hr₀ : IsRoot lab r₀) (hne : r₀ ≠ K)
    (hu : ¬ Upper u) : Mm.pte K m' r₀ u = Mm.pte K m r₀ u := by
  rcases hk.pte r₀ u hr₀ with he | ⟨-, hslot⟩
  · exact he
  · rw [slot, home_of_lt K r₀ (lt_of_not_ge hu)] at hslot
    exact absurd hslot hne

theorem VmSys.Effect.cow (h : s.Inv env.Reserved lab) (hcow : s.Cow env lab)
    (E : s.Effect env.Reserved (CowMapping env) lab a s' lab') : s'.Cow env lab' := by
  intro r₀ u hr₀ hne hu
  cases E with
  | @new i r m' hi N =>
    by_cases he : r₀ = r
    · rw [he]
      exact .inl ((N.pte_new h.owned.tables h.kernel u).trans (if_neg hu))
    · rw [IsRoot, Function.update_of_ne he] at hr₀
      rw [N.pte h.owned.tables hr₀ u]
      exact hcow r₀ u hr₀ hne hu
  | call hspace hc hkept =>
    rw [hkept.roots] at hr₀
    exact hkept.guarded hr₀ (hcow r₀ u hr₀ hne hu)
  | @destroy i space m st' lab₁ lab' hi hspace hkept D =>
    obtain ⟨hr₁, hne'⟩ := (D.isRoot r₀).1 hr₀
    rw [D.pte r₀ u hr₁ hne']
    rw [hkept.roots] at hr₁
    exact hkept.guarded hr₁ (hcow r₀ u hr₁ hne hu)
  | alloc hkept => exact hkept.guarded hr₀ (hcow r₀ u hr₀ hne hu)

theorem VmSys.Effect.cow_kernel {c : VmCall} (h : s.Inv env.Reserved lab) (hcow : s.Cow env lab)
    (E : s.Effect env.Reserved Q lab (.call 0 c) s' lab') : s'.Cow env lab' := by
  intro r₀ u hr₀ hne hu
  cases E with
  | @call _ _ space st' lab' hspace hc hkept =>
    rw [(h.spaces.ok 0 space hspace).kernel rfl] at hkept
    rw [hkept.roots] at hr₀
    rw [hkept.pte_user hr₀ hne hu]
    exact hcow r₀ u hr₀ hne hu

theorem VmSys.cow_step (hzero : PhysOk env.zeroCowmem) (h : s.Inv env.Reserved lab)
    (hcow : s.Cow env lab) (hin : s.Inside a) (hsafe : s.CowSafe env a)
    (hstep : s.step env a = some s') : ∃ lab', s'.Inv env.Reserved lab' ∧ s'.Cow env lab' := by
  have hcow' : s.Allowed env (CowMapping env) a → ∃ lab', s'.Inv env.Reserved lab' ∧
      s'.Cow env lab' := by
    intro hA
    obtain ⟨lab', E⟩ := s.step_effect h hin hA hstep
    exact ⟨lab', E.inv h, E.cow h hcow⟩
  cases a with
  | new i => exact hcow' trivial
  | call i c =>
    rcases eq_or_ne i 0 with rfl | hi
    · obtain ⟨lab', E⟩ := s.step_effect h hin (s.allowed_any env _) hstep
      exact ⟨lab', E.inv h, E.cow_kernel h hcow⟩
    · exact hcow' (hsafe.allowed h hzero hi)
  | destroy i | alloc => exact hcow' trivial

end step

/-! ## What is guarded is isolated -/

section isolation

variable {env : VmEnv} {s : VmSys} {lab : Labels} {i : Nat} {space : VmSpace} {u : BitVec 64}

theorem Guarded.owner (h : Guarded env w) (hw : has w pteWritable = true) :
    has w pteOwner = true := by
  rcases h with rfl | h | ⟨-, h⟩
  · cases hw
  · exact h
  · simp [h] at hw

theorem VmSys.Cow.guarded (h : s.Inv env.Reserved lab) (hcow : s.Cow env lab) (hi : i ≠ 0)
    (hspace : s.space i = some space) (hu : ¬ Upper u) :
    Guarded env (pte s.kernel s.m space.mmuRoot u) :=
  hcow _ u (h.spaces.ok i space hspace).root ((h.spaces.ok i space hspace).user hi).1 hu

theorem VmSys.Cow.unique (h : s.Inv env.Reserved lab) (hcow : s.Cow env lab)
    (hspace : s.space i = some space) (hu : ¬ Upper u)
    (ho : has (pte s.kernel s.m space.mmuRoot u) pteOwner = true) {j : Nat} {space' : VmSpace}
    {u' : BitVec 64} (hj : j ≠ 0) (hspace' : s.space j = some space') (hu' : ¬ Upper u')
    (hf : pteFrame (pte s.kernel s.m space'.mmuRoot u') = pteFrame
    (pte s.kernel s.m space.mmuRoot u)) : i = j ∧ vpn u = vpn u' := by
  have hroot := (h.spaces.ok i space hspace).root
  have hroot' := (h.spaces.ok j space' hspace').root
  obtain ⟨htak, hres⟩ := h.owned.owner _ u hroot ho
  rcases hcow.guarded h hj hspace' hu' with hz | ho' | ⟨hres', -⟩
  · rw [hz] at hf
    exact absurd (hf ▸ htak.ok.1) (by decide)
  · have hslot := h.owned.unique _ u _ u' hroot hroot' ho ho' hf.symm
    rw [slot, slot, home_of_lt _ _ (lt_of_not_ge hu), home_of_lt _ _ (lt_of_not_ge hu'),
      Prod.mk.injEq] at hslot
    exact ⟨h.spaces.inj i j space space' hspace hspace' hslot.1, hslot.2⟩
  · rw [hf] at hres'
    exact absurd hres' hres

theorem and_not_trans {a b c : BitVec 32} (hab : a &&& ~~~b = 0) (hbc : b &&& ~~~c = 0) :
    a &&& ~~~c = 0 := by
  refine eq_of_getLsbD_eq fun i hi => ?_
  have hab := congrArg (fun x => getLsbD x i) hab
  have hbc := congrArg (fun x => getLsbD x i) hbc
  simp only [getLsbD_and, getLsbD_not, hi, decide_true, Bool.true_and] at hab hbc ⊢
  revert hab hbc
  cases a.getLsbD i <;> cases b.getLsbD i <;> cases c.getLsbD i <;> simp

/-- **A fault gives no permission that the object does not have.** -/
theorem VmSys.Inv.fault_prot {res : Nat → Prop} {flags : BitVec 32}
    {wild : Wild} {handled : Bool} {st' : VmState} (h : s.Inv res lab)
    (hspace : s.space i = some space) (ho : o ∈ space.objects) (hcontains : o.contains addr = true)
    (hfault : rangeFault env (s.view space) o addr flags wild = .ok (handled, st')) {r : Nat}
    (hr : IsRoot lab r) (hne : pte s.kernel st'.m r u ≠ pte s.kernel s.m r u)
    (hz : pte s.kernel st'.m r u ≠ 0) :
    (mappingOf (pte s.kernel st'.m r u)).prot &&& ~~~o.prot = 0 := by
  have hok := h.spaces.ok i space hspace
  have haddr := (VmObject.contains_iff (hok.noWrap ho)).1 hcontains
  have hbound := (hok.inBounds o ho).2
  have hown : Own s.kernel space.mmuRoot addr := hok.own (by omega)
  have hread : o.prot &&& ~~~protWrite &&& ~~~o.prot = 0 := by
    rw [BitVec.and_assoc, BitVec.and_comm (~~~protWrite), ← BitVec.and_assoc, BitVec.and_not_self]
    exact zero_and
  obtain ⟨-, hsteps⟩ := rangeFault_steps (Q := fun _ prot _ => prot &&& ~~~o.prot = 0) hown
    (fun _ => and_not_self o.prot) (fun _ _ => hread) hfault
  obtain ⟨lab', hk⟩ := h.owned.pageSteps hok.root (fun _ hv => hv) hsteps
  rcases hk.pte r u hr with he | ⟨he | ⟨phys, prot, flags, he, hprot⟩, -⟩
  · exact absurd he hne
  · exact absurd he hz
  · rw [he]
    exact and_not_trans (prot_mappingOf_pteOf ..) hprot

end isolation

/-! ## Every run -/

/-- **Processes do not see each other's pages.**  In every run from boot in which processes ask for
memory and files inside their spaces, and nobody reads where a file ends: a page of the lower half
that can be written to is not the page of zeros and not a page of a file, and no other page of any
process is in the same frame.  And a fault that is handled gives no entry a permission that its
object does not have. -/
theorem cow_isolation (env : VmEnv) (hzero : PhysOk env.zeroCowmem) {m : MmState} {K : Nat}
    {lab : Labels} (hboot : Boot env m K lab) (refs : Nat → BitVec 32) {as : List VmAction}
    {s : VmSys} (hsafe : Along (VmSys.step env) (fun s a => s.Inside a ∧ s.CowSafe env a)
    (VmSys.boot m K refs) as) (hrun : run (VmSys.step env) (VmSys.boot m K refs) as = some s) :
    (∀ i space u, i ≠ 0 → s.space i = some space → ¬ Upper u →
      has (mmuGetPhys s.m space.mmuRoot u).prot protWrite = true →
      (mmuGetPhys s.m space.mmuRoot u).base ≠ env.zeroCowmem ∧
      (∀ fd pages, env.node fd = .ramfs (some pages) →
        frameOf (mmuGetPhys s.m space.mmuRoot u).base ∉ pages) ∧
      ∀ j space' u', j ≠ 0 → s.space j = some space' → ¬ Upper u' →
        frameOf (mmuGetPhys s.m space'.mmuRoot u').base = frameOf
        (mmuGetPhys s.m space.mmuRoot u).base →
        i = j ∧ vpn u = vpn u') ∧ ∀ i space addr flags wild st', s.space i = some space →
      vmPageFault env (s.view space) addr flags wild = .ok (true, st') →
      ∃ o ∈ space.objects, o.contains addr = true ∧ ∀ j space' u, s.space j = some space' →
        pte s.kernel st'.m space'.mmuRoot u ≠ pte s.kernel s.m space'.mmuRoot u →
        pte s.kernel st'.m space'.mmuRoot u ≠ 0 →
        (mappingOf (pte s.kernel st'.m space'.mmuRoot u)).prot &&& ~~~o.prot = 0 := by
  obtain ⟨lab', hinv, hcow⟩ : ∃ lab, s.Inv env.Reserved lab ∧ s.Cow env lab := by
    refine run_induction (I := fun s => ∃ lab, s.Inv env.Reserved lab ∧ s.Cow env lab)
      (fun s a t hs ha hst => ?_) ⟨lab, VmSys.inv_boot hboot refs, ?_⟩ hsafe hrun
    · obtain ⟨lab₁, h₁, hcow₁⟩ := hs
      exact s.cow_step hzero h₁ hcow₁ ha.1 ha.2 hst
    · exact fun r u hr hne _ => absurd ((hboot.roots r).1 hr) hne
  refine ⟨fun i space u hi hspace hu hw => ?_, fun i space addr flags wild st' hspace hfault => ?_⟩
  · rw [writable_mmuGetPhys s.kernel] at hw
    have ho := (hcow.guarded hinv hi hspace hu).owner hw
    obtain ⟨-, hres⟩ := hinv.owned.owner _ u (hinv.spaces.ok i space hspace).root ho
    rw [base_mmuGetPhys s.kernel]
    refine ⟨fun hz => hres (.inl ?_), fun fd pages hnode hmem =>
      hres (.inr ⟨fd, pages, hnode, hmem⟩), fun j space' u' hj hspace' hu' hf => ?_⟩
    · rw [pteFrame, hz]
    · rw [base_mmuGetPhys s.kernel] at hf
      exact hcow.unique hinv hspace hu ho hj hspace' hu' hf
  · have hok := hinv.spaces.ok i space hspace
    rcases @vmPageFault_cases env (s.view space) st' addr flags wild true hok.ok hfault with
      ⟨hfalse, -⟩ | ⟨o, ho, hcontains, hrange⟩
    · cases hfalse
    · exact ⟨o, ho, hcontains, fun j space' u hspace' =>
        hinv.fault_prot hspace ho hcontains hrange (hinv.spaces.ok j space' hspace').root⟩

/-- The first open file is the file `size` bytes of which are mapped to be read. -/
def fileArgs (size : BitVec 64) : MmapArgs where
  addr := 0
  size := size
  prot := 1
  flags := mapPrivate
  fd := 0
  offset := 0

/-- One process writes to a page of its own, another maps the file of one page and touches it at
`cr2`. -/
def writeAndRead (size cr2 : BitVec 64) (wild : Wild) : List VmAction :=
  [.new 1, .call 1 (.mmap (fun _ => -1) pageArgs), .call 1 (.fault 0x10000 7 noWild),
    .new 2, .call 2 (.mmap (fun _ => 0) (fileArgs size)), .call 2 (.fault cr2 4 wild)]

/-- What is in front of the list head happens to name frame 6. -/
def strayWord : Wild := ⟨0xffff800000006000, fun _ => 0⟩

/-- **A page behind the end of a file shows the page of another process.**  The file has one page,
and two are mapped; the read fault at the second is handled with the frame that the first process
writes to. -/
theorem fileEnd_shows_frame :
    Along (VmSys.step oneFile) VmSys.Inside (VmSys.boot kernelOnly 1 fun _ => 1)
      (writeAndRead 0x2000 0x11000 strayWord) ∧
    ∃ s space space', run (VmSys.step oneFile) (VmSys.boot kernelOnly 1 fun _ => 1)
        (writeAndRead 0x2000 0x11000 strayWord) = some s ∧
      s.space 1 = some space ∧ s.space 2 = some space' ∧ ¬ Upper 0x10000 ∧ ¬ Upper 0x11000 ∧
      mmuGetPhys s.m space.mmuRoot 0x10000 =
      { base := 0x6000, prot := 11, flags := 16, present := true } ∧
      mmuGetPhys s.m space'.mmuRoot 0x11000 =
      { base := 0x6000, prot := 9, flags := 0, present := true } := by
  refine ⟨?_, _, _, _, rfl, rfl, rfl, by decide, by decide, by decide, by decide⟩
  refine .cons rfl trivial
    (.cons rfl ?_ (.cons rfl ?_ (.cons rfl trivial (.cons rfl ?_ (.cons rfl ?_
    trivial)))))
  · exact VmSys.inside_call rfl rfl ⟨by decide, by decide, by decide⟩
  · exact fun _ _ _ hinfo => nomatch hinfo
  · exact VmSys.inside_call rfl rfl ⟨by decide, by decide, by decide⟩
  · exact fun _ _ _ hinfo => nomatch hinfo

theorem cow_isolation_writeAndRead :
    ∃ s space space', run (VmSys.step oneFile) (VmSys.boot kernelOnly 1 fun _ => 1)
        (writeAndRead 0x1000 0x10000 noWild) = some s ∧ s.space 1 = some space ∧
        s.space 2 = some space' ∧
      (mmuGetPhys s.m space'.mmuRoot 0x10000).present = true ∧
      frameOf (mmuGetPhys s.m space'.mmuRoot 0x10000).base ≠
        frameOf (mmuGetPhys s.m space.mmuRoot 0x10000).base := by
  obtain ⟨lab, hboot⟩ := kernelOnly_boot
  have hsafe : Along (VmSys.step oneFile) (fun s a => s.Inside a ∧ s.CowSafe oneFile a)
      (VmSys.boot kernelOnly 1 fun _ => 1) (writeAndRead 0x1000 0x10000 noWild) := by
    refine .cons rfl ⟨trivial, trivial⟩ (.cons rfl ⟨?_, ?_⟩ (.cons rfl ⟨?_, ?_⟩
      (.cons rfl ⟨trivial, trivial⟩ (.cons rfl ⟨?_, ?_⟩ (.cons rfl ⟨?_, ?_⟩ trivial)))))
    · exact VmSys.inside_call rfl rfl ⟨by decide, by decide, by decide⟩
    · refine fun _ => ⟨fun info hinfo => ?_, nofun⟩
      cases hinfo
      exact ⟨by decide, nofun⟩
    · exact fun _ _ _ hinfo => nomatch hinfo
    · refine fun _ => ⟨nofun, fun cr2 flags wild hc => ?_⟩
      cases hc
      exact fun _ _ _ _ _ _ => .inl (by decide)
    · exact VmSys.inside_call rfl rfl ⟨by decide, by decide, by decide⟩
    · refine fun _ => ⟨fun info hinfo => ?_, nofun⟩
      cases hinfo
      exact ⟨by decide, fun _ => nofun⟩
    · exact fun _ _ _ hinfo => nomatch hinfo
    · refine fun _ => ⟨nofun, fun cr2 flags wild hc space o hspace ho hcontains hend => ?_⟩
      cases hc
      cases hspace
      obtain ⟨fd, pages, hfile, hnode, hoffset⟩ := hend
      have hobj := mem_singleton.1 (show o ∈ [_] from ho)
      subst hobj
      cases hfile
      cases hnode
      exact absurd hoffset (by decide)
  refine ⟨_, _, _, rfl, rfl, rfl, by decide, fun hf => ?_⟩
  have h := ((cow_isolation oneFile (by decide) hboot _ hsafe rfl).1 1 _ 0x10000 (by decide) rfl
    (by decide) (by decide)).2.2 2 _ 0x10000 (by decide) rfl (by decide) hf
  exact absurd h.1 (by decide)

end Monolith.Mm
