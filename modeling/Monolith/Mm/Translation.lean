import Monolith.Lib.Run
import Monolith.Mm.Tables

/-!
# Page tables are a finite map

What a page table is for is to be a map from page numbers to frames, protection bits and an owner.
`PageMap` is that map, and `MapCall.apply` is what `mmu_map` and `mmu_map_range` are to do to it.
`pageTables_refine_map` says that a page table built by any sequence of these calls answers
`mmu_get_phys` as the map does; `mapRun_total` says that the calls come back as long as there are
three free frames for every page.
-/

namespace Monolith.Mm

open Function Fallible TableForest Transition List Option

/-! ## The map -/

structure Page where
  phys : BitVec 64
  virt : BitVec 64
  prot : BitVec 32
  flags : BitVec 32

/-- What a page number is mapped to. -/
abbrev PageMap := Nat → Option Page

/-- The last `mmu_map` of a page number counts. -/
def PageMap.set (f : PageMap) (page : Page) : PageMap :=
  Function.update f (vpn page.virt) (some page)

inductive MapCall where
  | map (page : Page)
  | range (page : Page) (length : BitVec 64)

/-- The page `k` of a range. -/
def Page.at (page : Page) (k : Nat) : Page :=
  { page with phys := pageAt page.phys k, virt := pageAt page.virt k }

/-- The single mappings that a call makes, in order. -/
def MapCall.pages : MapCall → List Page
  | .map page => [page]
  | .range page length => (List.range (pageCount length)).map page.at

/-- The map after a sequence of calls. -/
def pageMap (calls : List MapCall) : PageMap :=
  (calls.flatMap MapCall.pages).foldl PageMap.set fun _ => none

/-- What `mmu_get_phys` has to answer for a page that is mapped. -/
def Page.mapping (page : Page) : VmMapping where
  base := page.phys
  prot := page.prot &&& 63
  flags := page.flags &&& vmFlagOwner
  present := has page.prot protRead

/-- `mmu_map`, on the page table with the given root. -/
def mapPage (root : Nat) (m : MmState) (page : Page) : Except MmFault MmState :=
  mmuMap m root page.phys page.virt page.prot page.flags

def mapStep (root : Nat) (m : MmState) : MapCall → Option MmState
  | .map page => (mapPage root m page).toOption
  | .range page length =>
    (mmuMapRange m root page.phys page.virt length page.prot page.flags).toOption

/-! ## The refinement -/

def Represents (root : Nat) (m : MmState) (f : PageMap) : Prop :=
  ∃ lab, Tables root m lab ∧ IsRoot lab root ∧ ∀ virt,
    match f (vpn virt) with
    | some page => (leafTable root m root virt).isSome = true ∧
        pte root m root virt = pteOf page.phys page.prot page.flags
    | none => pte root m root virt = 0

variable {root : Nat} {m m' : MmState} {f : PageMap} {page : Page} {k : Nat}

theorem mmuNewPgdir_represents {m₀ : MmState} (hpmm : m₀.pmm.Ok)
    (h : mmuNewPgdir m₀ = .ok (root, m)) : Represents root m fun _ => none := by
  obtain ⟨⟨phys, pmm⟩, halloc, h⟩ := bind_eq_ok.1 h
  obtain ⟨rfl, rfl⟩ := h
  obtain ⟨-, -, -, -, -, T⟩ := (Tables.empty (frameOf phys) hpmm).plant halloc
    fun _ => .inl rfl
  refine ⟨_, T, update_self .., fun virt => ?_⟩
  -- the first pointer that a walk looks at is not there
  have hnone : getPte { mem := update m₀.mem (frameOf phys) fun _ => 0, pmm := pmm }
      (frameOf phys) (getPagetableIndex virt 4) = none := by
    show pteChild (update m₀.mem (frameOf phys) (fun _ => 0) (frameOf phys) _) = none
    rw [update_self]
    rfl
  apply pte_of_none
  rw [leafTable_eq, hnone, bind_none]

section

variable (h : Represents root m f)

include h

theorem mapPage_represents (hmap : mapPage root m page = .ok m') :
    Represents root m' (f.set page) := by
  obtain ⟨lab, T, hr, hf⟩ := h
  obtain ⟨t, lab', U⟩ := mmuMap_spec T hr (ite_self _) hmap
  refine ⟨lab', U.tables, U.keep _ _ hr, fun virt => ?_⟩
  rw [U.pte_self hr virt, PageMap.set]
  by_cases hv : vpn virt = vpn page.virt
  · have hpath := (tablePath_eq_iff.2 hv).1
    rw [hv, update_self, if_pos rfl]
    refine ⟨?_, rfl⟩
    rw [leafTable, hpath, ← leafTable, U.table]
    rfl
  · rw [update_of_ne hv, if_neg hv]
    have hold := hf virt
    split at hold
    · obtain ⟨hsome, hpte⟩ := hold
      obtain ⟨t', ht'⟩ := isSome_iff_exists.1 hsome
      exact ⟨by rw [U.stays root virt t' hr ht']; rfl, hpte⟩
    · exact hold

theorem mmuMapRange_represents {length : BitVec 64}
    (hmap : mmuMapRange m root page.phys page.virt length page.prot page.flags = .ok m') :
    Represents root m' (((List.range (pageCount length)).map page.at).foldl PageMap.set f) := by
  have hloop := forRange_ok (I := fun k m =>
    Represents root m (((range k).map page.at).foldl PageMap.set f))
    (fun k t t' _ _ ht hbody => ?_) h hmap
  · rwa [zero_add] at hloop
  · rw [range_succ, map_append, foldl_append]
    exact mapPage_represents ht hbody

theorem mapStep_represents {call : MapCall}
    (hstep : mapStep root m call = some m') :
    Represents root m' (call.pages.foldl PageMap.set f) := by
  cases call with rw [mapStep, toOption_eq_some] at hstep
  | map page => exact mapPage_represents h hstep
  | range page length => exact mmuMapRange_represents h hstep

theorem mapRun_represents {calls : List MapCall} (hrun : run (mapStep root) m calls = some m') :
    Represents root m' ((calls.flatMap MapCall.pages).foldl PageMap.set f) := by
  induction calls generalizing m f with
  | nil =>
    rw [run_nil, some_inj] at hrun
    rwa [← hrun]
  | cons call calls ih =>
    obtain ⟨m₁, hstep, hrest⟩ := run_cons_eq_some.1 hrun
    rw [flatMap_cons, foldl_append]
    exact ih (mapStep_represents h hstep) hrest

end

theorem foldl_set_eq_some {pages : List Page} {v : Nat}
    (h : pages.foldl PageMap.set f v = some page) :
    (page ∈ pages ∧ vpn page.virt = v) ∨ f v = some page := by
  induction pages generalizing f with
  | nil => exact .inr h
  | cons q pages ih =>
    rcases ih h with ⟨hmem, hv⟩ | hset
    · exact .inl ⟨mem_cons_of_mem q hmem, hv⟩
    rw [PageMap.set] at hset
    by_cases hq : v = vpn q.virt
    · rw [hq, update_self, some_inj] at hset
      rw [← hset]
      exact .inl ⟨mem_cons_self, hq.symm⟩
    · rw [update_of_ne hq] at hset
      exact .inr hset

theorem Represents.mmuGetPhys (h : Represents root m f)
    (hphys : ∀ v page, f v = some page → PhysOk page.phys) (virt : BitVec 64) :
    match f (vpn virt) with
    | some page => Mm.mmuGetPhys m root virt = page.mapping
    | none => (Mm.mmuGetPhys m root virt).present = false ∧ (Mm.mmuGetPhys m root virt).base = 0 ∧
        (Mm.mmuGetPhys m root virt).flags = 0 := by
  obtain ⟨lab, -, -, hf⟩ := h
  have hv := hf virt
  split at hv
  · rename_i page hpage
    obtain ⟨t, ht⟩ := isSome_iff_exists.1 hv.1
    rw [mmuGetPhys_of_leafTable ht, hv.2, mappingOf_pteOf _ _ (hphys _ page hpage)]
    rfl
  · rcases ht : leafTable root m root virt with _ | _
    · rw [mmuGetPhys_of_none ht]
      exact ⟨rfl, rfl, rfl⟩
    rw [mmuGetPhys_of_leafTable ht, hv]
    decide

/-- **Page tables refine a finite map.**  Whatever sequence of `mmu_map` and `mmu_map_range` has
built a page table, `mmu_get_phys` answers with the last mapping of the page number, and as not
present with base 0 where there was none; one more `mmu_map` changes the answer for no other page
number. -/
theorem pageTables_refine_map (m₀ : MmState) (hpmm : m₀.pmm.Ok) (root : Nat) (m : MmState)
    (hnew : mmuNewPgdir m₀ = .ok (root, m)) (calls : List MapCall)
    (hphys : ∀ page ∈ calls.flatMap MapCall.pages, PhysOk page.phys) (m' : MmState)
    (hrun : run (mapStep root) m calls = some m') (virt : BitVec 64) :
    (∀ page, pageMap calls (vpn virt) = some page → mmuGetPhys m' root virt = page.mapping) ∧
    (pageMap calls (vpn virt) = none →
      (mmuGetPhys m' root virt).present = false ∧ (mmuGetPhys m' root virt).base = 0) ∧
    ∀ page m'', PhysOk page.phys → mapPage root m' page = .ok m'' → vpn page.virt ≠ vpn virt →
      pageMap calls (vpn virt) ≠ none → mmuGetPhys m'' root virt = mmuGetPhys m' root virt := by
  have hrep : Represents root m' (pageMap calls) :=
    mapRun_represents (mmuNewPgdir_represents hpmm hnew) hrun
  have hok v page (hpage : pageMap calls v = some page) : PhysOk page.phys := by
    rcases foldl_set_eq_some hpage with ⟨hmem, -⟩ | hnone
    · exact hphys page hmem
    · cases hnone
  have hnow := hrep.mmuGetPhys hok virt
  refine ⟨fun page hpage => ?_, fun hnone => ?_, fun page m'' hpage hmap hne hsome => ?_⟩
  · rwa [hpage] at hnow
  · rw [hnone] at hnow
    exact ⟨hnow.1, hnow.2.1⟩
  · have hrep' := mapPage_represents hrep hmap
    have hok' v q (hq : (pageMap calls).set page v = some q) : PhysOk q.phys := by
      rw [PageMap.set] at hq
      by_cases hv : v = vpn page.virt
      · rw [hv, update_self, some_inj] at hq
        rwa [← hq]
      · rw [update_of_ne hv] at hq
        exact hok v q hq
    have hthen := hrep'.mmuGetPhys hok' virt
    rw [PageMap.set, update_of_ne (Ne.symm hne)] at hthen
    rcases hv : pageMap calls (vpn virt) with _ | _
    · exact absurd hv hsome
    rw [hv] at hnow hthen
    exact hthen.trans hnow.symm

/-- Sixteen frames, all free but the first. -/
def sixteenFrames : MmState where
  mem _ _ := 0
  pmm := { bitmap := [0xfffe], available := 15, used := 1, doubleFree := false }

theorem sixteenFrames_ok : sixteenFrames.pmm.Ok := Pmm.ok_of_word rfl (by decide)

def codePage : Page := { phys := 0x5000, virt := 0x400000, prot := 13, flags := 16 }

/-- Three pages, the first of which is then mapped to another frame. -/
def codePages : List MapCall := [.range codePage 0x3000, .map { codePage with phys := 0x9000 }]

theorem pageTables_refine_map_codePages :
    ∃ m m', mmuNewPgdir sixteenFrames = .ok (1, m) ∧ run (mapStep 1) m codePages = some m' ∧
      mmuGetPhys m' 1 0x400123 = { base := 0x9000, prot := 13, flags := 16, present := true } ∧
      mmuGetPhys m' 1 0x402000 = { base := 0x7000, prot := 13, flags := 16, present := true } ∧
      (mmuGetPhys m' 1 0x403000).present = false := by
  obtain ⟨m, hnew, m', hrun⟩ : ∃ m, mmuNewPgdir sixteenFrames = .ok (1, m) ∧
      ∃ m', run (mapStep 1) m codePages = some m' := by
    refine ⟨_, rfl, isSome_iff_exists.1 ?_⟩
    decide +kernel
  have h := pageTables_refine_map sixteenFrames sixteenFrames_ok 1 m hnew codePages
    (by decide +kernel) m' hrun
  exact ⟨m, m', hnew, hrun, (h 0x400123).1 _ rfl, (h 0x402000).1 _ rfl, ((h 0x403000).2.1 rfl).1⟩

/-! ## The calls come back -/

theorem getOrCreatePte_card {k f : Nat} {i : Fin 512} (h : k + 1 ≤ m.pmm.freeSet.card) :
    ∃ g m', getOrCreatePte m f i secflags = .ok (g, m') ∧ k ≤ m'.pmm.freeSet.card := by
  rw [getOrCreatePte]
  split
  · rename_i g _
    exact ⟨g, m, rfl, by omega⟩
  · obtain ⟨addr, pmm, halloc, hcard⟩ := pmmAllocate_card h
    refine ⟨_, _, bind_eq_ok.2 ⟨(addr, pmm), halloc, rfl⟩, hcard⟩

theorem mapPage_card (page : Page) (h : k + 3 ≤ m.pmm.freeSet.card) :
    ∃ m', mapPage root m page = .ok m' ∧ k ≤ m'.pmm.freeSet.card := by
  obtain ⟨pdpt, m₁, h₁, hc₁⟩ := getOrCreatePte_card (k := k + 2) h
  obtain ⟨pd, m₂, h₂, hc₂⟩ := getOrCreatePte_card (k := k + 1) hc₁
  obtain ⟨pt, m₃, h₃, hc₃⟩ := getOrCreatePte_card (k := k) hc₂
  exact ⟨_, bind_eq_ok.2 ⟨_, h₁, bind_eq_ok.2 ⟨_, h₂, bind_eq_ok.2 ⟨_, h₃, rfl⟩⟩⟩, hc₃⟩

theorem mapStep_card (call : MapCall) (h : k + 3 * call.pages.length ≤ m.pmm.freeSet.card) :
    ∃ m', mapStep root m call = some m' ∧ k ≤ m'.pmm.freeSet.card := by
  cases call with
  | map page =>
    obtain ⟨m', hm', hk⟩ := mapPage_card page h
    exact ⟨m', toOption_eq_some.2 hm', hk⟩
  | range page length =>
    rw [MapCall.pages, length_map, length_range] at h
    have hbody : ∀ j t, 0 ≤ j → j < 0 + pageCount length →
        k + 3 * (pageCount length - j) ≤ t.pmm.freeSet.card → ∃ t', mapPage root t (page.at j) =
        .ok t' ∧
          k + 3 * (pageCount length - (j + 1)) ≤ t'.pmm.freeSet.card :=
      fun j t _ hj ht => mapPage_card (page.at j) (by omega)
    obtain ⟨m', hm', hk⟩ := forRange_total hbody h
    exact ⟨m', toOption_eq_some.2 hm', by omega⟩

/-- **Every sequence of calls comes back** if there are three free frames for every page. -/
theorem mapRun_total (calls : List MapCall)
    (h : 3 * (calls.flatMap MapCall.pages).length ≤ m.pmm.freeSet.card) :
    ∃ m', run (mapStep root) m calls = some m' := by
  induction calls generalizing m with
  | nil => exact ⟨m, rfl⟩
  | cons call calls ih =>
    rw [flatMap_cons, length_append] at h
    obtain ⟨m₁, h₁, hc⟩ := mapStep_card call (m := m)
      (k := 3 * (calls.flatMap MapCall.pages).length) (by omega)
    obtain ⟨m', hrun⟩ := ih hc
    exact ⟨m', run_cons_eq_some.2 ⟨m₁, h₁, hrun⟩⟩

theorem mapRun_total_codePage : ∃ m', run (mapStep 0) sixteenFrames [.map codePage] = some m' :=
  mapRun_total _ (by decide +kernel)

end Monolith.Mm
