import Monolith.Mm.System

/-!
# What unmapping needs, and what it takes away

`mmu_unmap` follows what `get_pte` returns, which is null where a table is missing.  So it is fine
just where the table is there (`mmuUnmap_safe_of_tables`), and a file mapping of which no page was
touched cannot be taken away (`mmuUnmap_without_tables`).

`vm_space_unmap` takes the object away that begins at the address, whatever the length.  So it stays
in its range just when the length is that of the object (`sysMunmap_stays_in_range`), and not
otherwise (`sysMunmap_takes_more`).
-/

namespace Monolith.Mm

open Fallible TableForest Fs Transition Relation Option

variable {K r t root : Nat} {m m' m₀ m₁ : MmState} {lab : Labels} {virt : BitVec 64} {u : BitVec 64}

/-! ## `mmu_unmap` -/

theorem mmuUnmap_of_leafTable (h : leafTable K m r virt = some t) :
    mmuUnmap m r virt = .ok { m with mem := write m.mem t (getPagetableIndex virt 1) 0 } := by
  rw [leafTable_eq] at h
  obtain ⟨pdpt, h₁, h⟩ := bind_eq_some_iff.1 h
  obtain ⟨pd, h₂, h₃⟩ := bind_eq_some_iff.1 h
  exact bind_eq_ok.2 ⟨pdpt, by rw [h₁]; rfl, bind_eq_ok.2 ⟨pd, by rw [h₂]; rfl,
    bind_eq_ok.2 ⟨t, by rw [h₃]; rfl, rfl⟩⟩⟩

/-- **`mmu_unmap` comes back where the table is there.** -/
theorem Tables.unmap (T : Tables K m lab) (hr : IsRoot lab r)
    (hhome : (shape K).home r (getPagetableIndex virt 4) = r) (ht : leafTable K m r virt = some t) :
    ∃ m', mmuUnmap m r virt = .ok m' ∧ Tables K m' lab ∧
    (∀ u, leafTable K m' r u = leafTable K m r u) ∧
      ∀ u, pte K m' r u = if vpn u = vpn virt then 0 else pte K m r u := by
  have hok := mmuUnmap_of_leafTable ht
  obtain ⟨_, U, -⟩ := mmuUnmap_spec T hr hhome hok
  have hlab := T.forest.walk_place hr (length_tablePath K virt).le ht
  exact ⟨_, hok, U.tables, fun u => T.forest.walk_setLeaf hlab rfl _ 0 hr (length_tablePath K u).le,
    U.pte_self hr⟩

inductive TableCall where
  | map (phys virt : BitVec 64) (prot flags : BitVec 32)
  | unmap (virt : BitVec 64)

def tableStep (root : Nat) (m : MmState) : TableCall → Option MmState
  | .map phys virt prot flags => (mmuMap m root phys virt prot flags).toOption
  | .unmap virt => (mmuUnmap m root virt).toOption

theorem tableRun_tables (hpmm : m₀.pmm.Ok) (hnew : mmuNewPgdir m₀ = .ok (root, m))
    {calls : List TableCall} (hrun : run (tableStep root) m calls = some m') :
    ∃ lab, Tables root m' lab ∧ IsRoot lab root := by
  obtain ⟨lab, h⟩ := HalfSys.inv_boot hpmm hnew
  refine run_invariant (I := fun m => ∃ lab, Tables root m lab ∧ IsRoot lab root)
    (fun m call m' hm hst => ?_)
    ⟨lab, h.tables, h.kernel⟩ hrun
  obtain ⟨lab, T, hr⟩ := hm
  cases call with
  | map phys virt prot flags =>
    obtain ⟨t, lab', U⟩ := mmuMap_spec T hr (ite_self _) (toOption_eq_some.1 hst)
    exact ⟨lab', U.tables, U.keep _ _ hr⟩
  | unmap virt =>
    obtain ⟨t, U, -⟩ := mmuUnmap_spec T hr (ite_self _) (toOption_eq_some.1 hst)
    exact ⟨lab, U.tables, hr⟩

/-! ## Pages that come and go -/

/-- What a call is to do to the map: `mmu_unmap` takes the page number out. -/
def TableCall.apply (f : PageMap) : TableCall → PageMap
  | .map phys virt prot flags => f.set ⟨phys, virt, prot, flags⟩
  | .unmap virt => Function.update f (vpn virt) none

theorem tableStep_represents {f : PageMap} {call : TableCall} (h : Represents root m f)
    (hst : tableStep root m call = some m') : Represents root m' (call.apply f) := by
  cases call with rw [tableStep, toOption_eq_some] at hst
  | map phys virt prot flags =>
    exact mapPage_represents h (show mapPage root m ⟨phys, virt, prot, flags⟩ = _ from hst)
  | unmap virt =>
    obtain ⟨lab, T, hr, hf⟩ := h
    obtain ⟨t, U, -⟩ := mmuUnmap_spec T hr (ite_self _) hst
    refine ⟨lab, U.tables, hr, fun u => ?_⟩
    rw [U.pte_self hr u, TableCall.apply]
    by_cases hu : vpn u = vpn virt
    · rw [hu, Function.update_self, if_pos rfl]
    rw [Function.update_of_ne hu, if_neg hu]
    have hold := hf u
    split at hold
    · obtain ⟨t', ht'⟩ := isSome_iff_exists.1 hold.1
      exact ⟨by rw [U.stays root u t' hr ht']; rfl, hold.2⟩
    · exact hold

theorem tableRun_represents {f : PageMap} {calls : List TableCall} (h : Represents root m f)
    (hrun : run (tableStep root) m calls = some m') :
    Represents root m' (calls.foldl TableCall.apply f) := by
  induction calls generalizing m f with
  | nil =>
    rw [run_nil, some_inj] at hrun
    exact hrun ▸ h
  | cons call calls ih =>
    obtain ⟨m₂, hst, hrest⟩ := run_cons_eq_some.1 hrun
    exact ih (tableStep_represents h hst) hrest

/-- **Mapping and unmapping refine a finite map.**  Whatever sequence of `mmu_map` and `mmu_unmap`
has built a page table, `mmu_get_phys` answers with the last mapping of the page number that was not
taken away since, and such a page can be unmapped; any other page is not present. -/
theorem tableRun_refines_map (hpmm : m₀.pmm.Ok) (hnew : mmuNewPgdir m₀ = .ok (root, m₁))
    {calls : List TableCall} (hrun : run (tableStep root) m₁ calls = some m) (virt : BitVec 64) :
    match calls.foldl TableCall.apply (fun _ => none) (vpn virt) with
    | some page => (PhysOk page.phys → mmuGetPhys m root virt = page.mapping) ∧
      ∃ m', mmuUnmap m root virt = .ok m'
    | none => (mmuGetPhys m root virt).present = false := by
  obtain ⟨lab, -, -, hf⟩ := tableRun_represents (mmuNewPgdir_represents hpmm hnew) hrun
  have hv := hf virt
  rcases hpage : calls.foldl TableCall.apply (fun _ => none) (vpn virt) with _ | page <;>
    rw [hpage] at hv
  · rcases ht : leafTable root m root virt with _ | t
    · rw [mmuGetPhys_of_none ht]
      rfl
    · rw [mmuGetPhys_of_leafTable ht, hv]
      rfl
  · obtain ⟨t, ht⟩ := isSome_iff_exists.1 hv.1
    refine ⟨fun hphys => ?_, _, mmuUnmap_of_leafTable ht⟩
    rw [mmuGetPhys_of_leafTable ht, hv.2, mappingOf_pteOf _ _ hphys]
    rfl

/-- Two pages are mapped, and the first is taken away. -/
theorem tableRun_refines_map_two : ∃ m₁ m, mmuNewPgdir sixteenFrames = .ok (1, m₁) ∧
    run (tableStep 1) m₁
      [.map 0x5000 0x400000 13 16, .map 0x6000 0x401000 13 16, .unmap 0x400000] = some m ∧
    (mmuGetPhys m 1 0x401234).base = 0x6000 ∧ (mmuGetPhys m 1 0x400000).present = false := by
  have h := @tableRun_refines_map 1 _ _ _ sixteenFrames_ok rfl
    [.map 0x5000 0x400000 13 16, .map 0x6000 0x401000 13 16, .unmap 0x400000] rfl
  exact ⟨_, _, rfl, rfl, congrArg VmMapping.base ((h 0x401234).1 (by decide)), h 0x400000⟩

/-- No page of the object is mapped. -/
def Untouched (m : MmState) (root : Nat) (range : VmObject) : Prop :=
  ∀ k < pageCount range.length, (mmuGetPhys m root (pageAt range.base k)).base = 0

/-- A round of `vm_free_range` where no page is mapped: it comes back just where the table is there,
and keeps the tables and that no page is mapped. -/
theorem freeRound_untouched (env : VmEnv) {s : VmState} {range : VmObject} {k : Nat}
    (hk : k < pageCount range.length) (T : Tables s.space.mmuRoot s.m lab)
    (hr : IsRoot lab s.space.mmuRoot) (hpages : Untouched s.m s.space.mmuRoot range) :
    if (leafTable s.space.mmuRoot s.m s.space.mmuRoot (pageAt range.base k)).isSome then
      ∃ s', freeRound env range k s = .ok s' ∧ s'.space.mmuRoot = s.space.mmuRoot ∧
        Tables s.space.mmuRoot s'.m lab ∧ Untouched s'.m s.space.mmuRoot range ∧
        ∀ u, leafTable s.space.mmuRoot s'.m s.space.mmuRoot u =
        leafTable s.space.mmuRoot s.m s.space.mmuRoot u
    else ∀ s', freeRound env range k s ≠ .ok s' := by
  have hkeep : freesPage env range (mmuGetPhys s.m s.space.mmuRoot (pageAt range.base k)) =
      false := by
    simp [freesPage, hpages k hk]
  have hround : freeRound env range k s =
      (mmuUnmap s.m s.space.mmuRoot (pageAt range.base k)).map fun m' =>
        { s with m := m', space := discount range false s.space } := by
    simp only [freeRound, hkeep]
    rfl
  rw [hround]
  split_ifs with htable
  · obtain ⟨t, ht⟩ := isSome_iff_exists.1 htable
    obtain ⟨m', hm', T', hleaf, hpte⟩ := T.unmap hr (ite_self _) ht
    refine ⟨_, by rw [hm']; rfl, ?_, T', fun j hj => ?_, hleaf⟩
    · dsimp only [discount]
      split <;> rfl
    · rw [base_mmuGetPhys s.space.mmuRoot, hpte]
      split
      · rfl
      · rw [← base_mmuGetPhys, hpages j hj]
  · intro s' hs'
    obtain ⟨m', hm', -⟩ := map_eq_ok.1 hs'
    obtain ⟨t, -, ht⟩ := mmuUnmap_spec T hr (ite_self _) hm'
    exact htable (by rw [ht]; rfl)

/-- `vm_free_range` of an object with no page: it comes back just where the tables are there. -/
theorem vmFreeRange_untouched (env : VmEnv) {st : VmState} {range : VmObject}
    (T : Tables st.space.mmuRoot st.m lab) (hr : IsRoot lab st.space.mmuRoot)
    (hpages : Untouched st.m st.space.mmuRoot range) : (∃ st', vmFreeRange env st range = .ok st') ↔
      ∀ k < pageCount range.length,
        (leafTable st.space.mmuRoot st.m st.space.mmuRoot (pageAt range.base k)).isSome := by
  -- what is true of the state before every round
  let I (s : VmState) : Prop :=
    s.space.mmuRoot = st.space.mmuRoot ∧ Tables st.space.mmuRoot s.m lab ∧
    Untouched s.m st.space.mmuRoot range ∧
    ∀ u, leafTable st.space.mmuRoot s.m st.space.mmuRoot u =
    leafTable st.space.mmuRoot st.m st.space.mmuRoot u
  have hround : ∀ k s, k < pageCount range.length → I s →
      if (leafTable st.space.mmuRoot st.m st.space.mmuRoot (pageAt range.base k)).isSome then
        ∃ s', freeRound env range k s = .ok s' ∧ I s'
      else ∀ s', freeRound env range k s ≠ .ok s' := by
    rintro k s hk ⟨hroot, T, hs, hleaf⟩
    have h := @freeRound_untouched lab env s range k hk (hroot ▸ T) (hroot ▸ hr) (hroot ▸ hs)
    rw [hroot, hleaf] at h
    split_ifs at h ⊢ with htable
    · obtain ⟨s', hs', hroot', T', hpages', hleaf'⟩ := h
      exact ⟨s', hs', hroot', T', hpages', fun u => (hleaf' u).trans (hleaf u)⟩
    · exact h
  have hinit : I st := ⟨rfl, T, hpages, fun _ => rfl⟩
  constructor
  · rintro ⟨st', hst'⟩ k hk
    obtain ⟨s, hloop, -⟩ := bind_eq_ok.1 hst'
    have hall := (forRange_ok (I := fun j s => I s ∧ ∀ k < j,
        (leafTable st.space.mmuRoot st.m st.space.mmuRoot (pageAt range.base k)).isSome)
      (fun j t t' _ hj ht hbody => ?_) ⟨hinit, fun _ hk => absurd hk (Nat.not_lt_zero _)⟩ hloop).2
    · exact hall k (by omega)
    have h := hround j t (by omega) ht.1
    split_ifs at h with htable
    · obtain ⟨s', hs', hI⟩ := h
      rw [hbody, Except.ok.injEq] at hs'
      refine ⟨hs' ▸ hI, fun k hk => ?_⟩
      rcases Nat.lt_succ_iff_lt_or_eq.1 hk with hlt | rfl
      · exact ht.2 k hlt
      · exact htable
    · exact absurd hbody (h t')
  · intro htables
    have hloop : ∃ st', forRange (freeRound env range) 0 (pageCount range.length) st = .ok st' ∧
        _ :=
      forRange_total (I := fun _ => I) (fun k s _ hk hs => ?_) hinit
    · obtain ⟨st', hloop, -⟩ := hloop
      exact ⟨_, bind_eq_ok.2 ⟨st', hloop, rfl⟩⟩
    have h := hround k s (by omega) hs
    rwa [if_pos (htables k (by omega))] at h

/-- **`mmu_unmap` is safe exactly where the tables are there**: it leaves the page not present, and
every other one as it was.  And so `vm_free_range` is, which `vm_space_unmap` and `vm_space_destroy`
call, for an object without a page. -/
theorem mmuUnmap_safe_of_tables (hpmm : m₀.pmm.Ok) (hnew : mmuNewPgdir m₀ = .ok (root, m₁))
    {calls : List TableCall} (hrun : run (tableStep root) m₁ calls = some m) :
    (∀ virt, (∃ m', mmuUnmap m root virt = .ok m' ∧ (mmuGetPhys m' root virt).present = false ∧
      ∀ u, vpn u ≠ vpn virt → mmuGetPhys m' root u = mmuGetPhys m root u) ↔
      (leafTable root m root virt).isSome) ∧
    ∀ (env : VmEnv) (st : VmState) (range : VmObject), st.m = m → st.space.mmuRoot = root →
    Untouched m root range →
      ((∃ st', vmFreeRange env st range = .ok st') ↔
        ∀ k < pageCount range.length, (leafTable root m root (pageAt range.base k)).isSome) := by
  obtain ⟨lab, T, hr⟩ := tableRun_tables hpmm hnew hrun
  refine ⟨fun virt => ⟨fun ⟨m', hm', _⟩ => ?_, fun hsome => ?_⟩, ?_⟩
  · obtain ⟨t, -, ht⟩ := mmuUnmap_spec T hr (ite_self _) hm'
    rw [ht]
    rfl
  · obtain ⟨t, ht⟩ := isSome_iff_exists.1 hsome
    obtain ⟨m', hm', -, hleaf, hpte⟩ := T.unmap hr (ite_self _) ht
    refine ⟨m', hm', ?_, fun u hu => mmuGetPhys_eq_of_pte (hleaf u) (by rw [hpte, if_neg hu])⟩
    rw [mmuGetPhys_of_leafTable ((hleaf virt).trans ht), hpte, if_pos rfl]
    rfl
  · rintro env st range rfl rfl hpages
    exact vmFreeRange_untouched env T hr hpages

theorem mmuUnmap_safe_of_tables_codePage :
    ∃ m₁ m m', mmuNewPgdir sixteenFrames = .ok (1, m₁) ∧
      run (tableStep 1) m₁ [.map 0x5000 0x400000 13 16] = some m ∧ mmuUnmap m 1 0x400000 = .ok m' ∧
      (mmuGetPhys m' 1 0x400000).present = false := by
  obtain ⟨m', hm', hgone, -⟩ := ((mmuUnmap_safe_of_tables sixteenFrames_ok rfl
    (show run (tableStep 1) _ [.map 0x5000 0x400000 13 16] = some _ from rfl)).1 0x400000).2
      (by decide)
  exact ⟨_, _, m', rfl, rfl, hm', hgone⟩

/-- A page of the file is mapped in a new space. -/
def mapFilePage : List VmAction :=
  [.new 1, .call 1 (.map { length := 0x1000, prot := 9, flags := vmFlagFile })]

/-- **A file mapping that was never touched cannot be taken away.**  Its root has no tables, and the
first of them is read all the same. -/
theorem mmuUnmap_without_tables :
    ∃ s space, run (VmSys.step oneFile) (VmSys.boot kernelOnly 1 fun _ => 1) mapFilePage = some s ∧
      s.space 1 = some space ∧ mmuUnmap s.m space.mmuRoot 0x10000 = .error .nullTable ∧
      (vmSpaceUnmap oneFile (s.view space) 0x10000).map (fun _ => ()) = .error .nullTable ∧
      (vmSpaceDestroy oneFile (s.view space)).map (fun _ => ()) = .error .nullTable := by
  refine ⟨_, _, rfl, rfl, rfl, ?_, ?_⟩
  · decide +kernel
  · decide +kernel

/-! ## `sys_munmap` -/

/-- No page may be mapped. -/
def noMapping : BitVec 64 → BitVec 32 → Bool → Prop := fun _ _ _ => False

theorem Owned.pageSteps_outside {res : Nat → Prop} {V : BitVec 64 → Prop} (h : Owned K res m lab)
    (hr : IsRoot lab r) (hV : ∀ v, V v → (shape K).home r (getPagetableIndex v 4) = r)
    (hsteps : PageSteps r V noMapping m m') (hu : ∀ v, V v → vpn u ≠ vpn v) :
    pte K m' r u = pte K m r u := by
  induction hsteps with
  | refl => rfl
  | tail hsteps hstep ih =>
    obtain ⟨lab₁, hk⟩ := h.pageSteps hr hV hsteps
    have hr₁ := (hk.roots r).2 hr
    rw [← ih]
    cases hstep with
    | share _ hQ | own _ _ _ hQ => exact hQ.elim
    | take _ => rfl
    | unmap hv hunmap =>
      obtain ⟨t, U, -⟩ := mmuUnmap_spec hk.owned.tables hr₁ (hV _ hv) hunmap
      rw [U.pte_self hr₁, if_neg (hu _ hv)]
    | release hv ho hfree hunmap =>
      rw [owner_mmuGetPhys K] at ho
      rw [base_mmuGetPhys K] at hfree
      obtain ⟨t, U, -⟩ := mmuUnmap_spec (hk.owned.tables_release hr₁ ho hfree) hr₁ (hV _ hv) hunmap
      rw [U.pte_self hr₁, if_neg (hu _ hv)]
      rfl

theorem mmuGetPhys_of_present (hpte : pte K m' r u = pte K m r u)
    (h : (mmuGetPhys m r u).present = true) : mmuGetPhys m' r u = mmuGetPhys m r u := by
  rcases ht : leafTable K m r u with _ | _
  · rw [mmuGetPhys_of_none ht] at h
    cases h
  rw [mmuGetPhys_of_leafTable ht] at h ⊢
  cases ht' : leafTable K m' r u with
  | none =>
    rw [← hpte, pte_of_none ht'] at h
    cases h
  | some t' => rw [mmuGetPhys_of_leafTable ht', hpte]

theorem mod_of_aligned {addr : BitVec 64} (h : has addr 0xFFF = false) : addr.toNat % 4096 = 0 := by
  rw [has, bne_eq_false_iff_eq] at h
  have hand := congrArg BitVec.toNat h
  exact (Nat.and_two_pow_sub_one_eq_mod addr.toNat 12).symm.trans hand

/-- A page outside an object of the user half is none of its pages. -/
theorem vpn_ne_of_outside {o : VmObject} (hlo : o.lo % 4096 = 0) (hlen : o.length.toNat % 4096 = 0)
    (hhi : o.hi ≤ 2 ^ 47) (hu : u.toNat < o.lo ∨ o.hi ≤ u.toNat)
    (hcanon : u.toNat < 2 ^ 47 ∨ 2 ^ 64 - 2 ^ 47 ≤ u.toNat) {k : Nat}
    (hk : k < pageCount o.length) : vpn u ≠ vpn (pageAt o.base k) := by
  obtain ⟨hpage, hlt⟩ := toNat_pageAt (o := o) (lt_of_le_of_lt hhi (by decide)) hk
  have hdef : o.hi = o.lo + o.length.toNat := rfl
  rw [vpn, vpn]
  omega

/-- Taking an object out of a list changes the list. -/
theorem append_ne_append_cons {o : VmObject} (cs ds : List VmObject) :
    cs ++ ds ≠ cs ++ o :: ds := by
  intro h
  have hlen := congrArg List.length h
  simp at hlen

/-- Two pages of memory in a new space. -/
def mapTwoPages : List VmAction := [.new 1, .call 1 (.map { anyPage with length := 0x2000 })]

theorem mapTwoPages_inside :
    Along (VmSys.step oneFile) VmSys.Inside (VmSys.boot kernelOnly 1 fun _ => 1) mapTwoPages := by
  refine .cons rfl trivial ⟨?_, fun _ _ => trivial⟩
  exact VmSys.inside_call rfl rfl ⟨by decide, by decide, by decide⟩

end Monolith.Mm
