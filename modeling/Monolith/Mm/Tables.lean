import Monolith.Mm.Mmu

/-!
# What `mmu.c` does to the page tables

The forest of page tables under `mmu_map` and `mmu_unmap`.  On its way to the entry `mmu_map` may
add tables; that is `Grow`, which changes no translation and only takes frames that were free.  Then
one entry is written, which is `PteUpdate`: `mmuMap_spec` and `mmuUnmap_spec` are all that is used
of the two functions from here on.
-/

namespace Monolith.Mm

open Function Fallible TableForest Option Prod

variable {K r : Nat} {m m' m₁ m₂ : MmState} {lab lab' lab₁ lab₂ : Labels}

variable {f r₀ t : Nat} {virt phys w : BitVec 64} {g : Nat} {p : List (Fin 512)} {i : Fin 512}
  {u : BitVec 64} {pmm : Pmm}

theorem Tables.notFree (T : Tables K m lab) {l : Nat × List (Fin 512)} (h : lab f = some l) :
    m.pmm.isFree f = false :=
  (T.frame f l h).2.1

theorem Tables.lab_of_isFree (T : Tables K m lab) (h : m.pmm.isFree f = true) : lab f = none := by
  cases hl : lab f with
  | none => rfl
  | some l => simp [T.notFree hl] at h

theorem pteChild_create {n : Nat} (h : FrameOk n) :
    pteChild (frameAddr n &&& pageMask4K ||| secflags ||| ptePresent) = some n := by
  have hbits : ∀ i, i < 64 → 12 ≤ i → (secflags ||| ptePresent).getLsbD i = false := by decide
  have haddr : pteAddress (frameAddr n &&& pageMask4K ||| (secflags ||| ptePresent)) =
      frameAddr n :=
    pteAddress_or (physOk_frameAddr h.2) fun i hlo hhi => hbits i (by omega) hlo
  have hpresent : has (frameAddr n &&& pageMask4K ||| (secflags ||| ptePresent)) ptePresent =
      true := by
    rw [has_ptePresent, BitVec.getLsbD_or]
    have h0 : (secflags ||| ptePresent).getLsbD 0 = true := by decide
    rw [h0, Bool.or_true]
  rw [BitVec.or_assoc, pteChild, if_pos ⟨hpresent, by rw [haddr]; exact frameAddr_ne_zero h⟩, haddr,
    frameOf_frameAddr h.2]

/-! ## Growing -/

/-- From `m` to `m'` only tables of the root `r` have been added, each in a frame that was free. -/
structure Grow (K r : Nat) (m : MmState) (lab : Labels) (m' : MmState) (lab' : Labels) : Prop where
  tables : Tables K m' lab'
  keep : ∀ f l, lab f = some l → lab' f = some l
  fresh : ∀ f l, lab' f = some l → lab f = none → m.pmm.isFree f = true ∧ l.1 = r
  free : ∀ n, m'.pmm.isFree n = (m.pmm.isFree n && (lab' n).isNone)
  pte : ∀ r₀ virt, IsRoot lab r₀ → pte K m' r₀ virt = pte K m r₀ virt
  stays : ∀ r₀ is t, IsRoot lab r₀ → is.length ≤ 3 → walk (shape K) m.mem r₀ is = some t →
    walk (shape K) m'.mem r₀ is = some t
  other : ∀ r₀ i is, IsRoot lab r₀ → (shape K).home r₀ i ≠ r → (i :: is).length ≤ 3 →
    walk (shape K) m'.mem r₀ (i :: is) = walk (shape K) m.mem r₀ (i :: is)
  /-- The words of the roots stay, but for empty ones of `r`. -/
  row : ∀ r₀ i, IsRoot lab r₀ → (r₀ = r → pteChild (m.mem r₀ i) ≠ none) →
    m'.mem r₀ i = m.mem r₀ i
  length : m'.pmm.bitmap.length = m.pmm.bitmap.length
  doubleFree : m'.pmm.doubleFree = m.pmm.doubleFree

theorem Grow.refl (T : Tables K m lab) (r : Nat) : Grow K r m lab m lab where
  tables := T
  keep _ _ h := h
  fresh f l h hn := by rw [hn] at h; cases h
  free n := by
    cases hl : lab n with
    | none => simp
    | some l => simp [T.notFree hl]
  pte _ _ _ := rfl
  stays _ _ _ _ _ h := h
  other _ _ _ _ _ _ := rfl
  row _ _ _ _ := rfl
  length := rfl
  doubleFree := rfl

theorem Grow.root (G : Grow K r m lab m' lab') (h : IsRoot lab r₀) : IsRoot lab' r₀ := G.keep r₀ _ h

theorem Grow.trans (G : Grow K r m lab m₁ lab₁) (G' : Grow K r m₁ lab₁ m₂ lab₂) :
    Grow K r m lab m₂ lab₂ where
  tables := G'.tables
  keep f l h := G'.keep f l (G.keep f l h)
  fresh f l h hn := by
    rcases hl : lab₁ f with _ | l'
    · obtain ⟨hfree, hroot⟩ := G'.fresh f l h hl
      rw [G.free, Bool.and_eq_true] at hfree
      exact ⟨hfree.1, hroot⟩
    rw [G'.keep f l' hl, some_inj] at h
    rw [← h]
    exact G.fresh f l' hl hn
  free n := by
    rw [G'.free, G.free, Bool.and_assoc]
    cases hl : lab₁ n with
    | none => rw [isNone_none, Bool.true_and]
    | some l => rw [G'.keep n l hl, Bool.and_self]
  pte r₀ virt h := by rw [G'.pte r₀ virt (G.root h), G.pte r₀ virt h]
  stays r₀ is t h hl hw := G'.stays r₀ is t (G.root h) hl (G.stays r₀ is t h hl hw)
  other r₀ i is h hne hl := by rw [G'.other r₀ i is (G.root h) hne hl, G.other r₀ i is h hne hl]
  row r₀ i h hne := by
    have h₁ := G.row r₀ i h hne
    rw [← h₁] at hne
    rw [G'.row r₀ i (G.root h) hne, h₁]
  length := by rw [G'.length, G.length]
  doubleFree := by rw [G'.doubleFree, G.doubleFree]

theorem createPte_grow (T : Tables K m lab) (hf : lab f = some (r, p))
    (hp : p.length < 3) (hhome : p = [] → (shape K).home r i = r) (hnone : getPte m f i = none)
    (h : createPte m f i secflags = .ok (g, m')) :
    ∃ lab', Grow K r m lab m' lab' ∧ lab' g = some (r, p ++ [i]) := by
  obtain ⟨⟨ptPhys, pmm⟩, halloc, h⟩ := bind_eq_ok.1 h
  obtain ⟨n, rfl, hfree, hlen, hpmm, hlength, hdouble⟩ := pmmAllocate_spec halloc
  have hok : FrameOk n := T.pmmOk n hfree
  have hnl : lab n = none := T.lab_of_isFree hfree
  simp only [frameOf_frameAddr hok.2, pure_eq_ok, mk.injEq] at h
  obtain ⟨rfl, rfl⟩ := h
  have hw := pteChild_create hok
  have hfn : f ≠ n := fun he => by rw [he, hnl] at hf; cases hf
  refine ⟨update lab n (some (r, p ++ [i])), ?_, update_self ..⟩
  refine ⟨⟨T.forest.attach hf hp hhome hnone hnl hw, fun x l hx => ?_, fun x hx => ?_⟩,
    fun x l hx => ?_, fun x l hx hxn => ?_, fun x => ?_, fun r₀ virt hr₀ => ?_,
    fun r₀ is t hr₀ hl hwalk => ?_, fun r₀ j is hr₀ hne hl => ?_, fun r₀ j hr₀ hne => ?_, hlength,
    hdouble⟩
  · by_cases hxn : x = n
    · rw [hxn, hpmm, hlength]
      exact ⟨hok, by simp, hlen⟩
    rw [update_of_ne hxn] at hx
    obtain ⟨hxok, hxfree, hxlen⟩ := T.frame x l hx
    rw [hpmm, hlength, hxfree]
    exact ⟨hxok, rfl, hxlen⟩
  · rw [hpmm, Bool.and_eq_true] at hx
    exact T.pmmOk x hx.1
  · rw [update_of_ne fun hxn => by rw [hxn, hnl] at hx; cases hx]
    exact hx
  · by_cases he : x = n
    · rw [he, update_self, some_inj] at hx
      rw [he, ← hx]
      exact ⟨hfree, rfl⟩
    · simp [he, hxn] at hx
  · rw [hpmm]
    by_cases he : x = n
    · simp [he]
    rw [update_of_ne he, decide_eq_true he]
    cases hx : m.pmm.isFree x with
    | false => rfl
    | true => rw [T.lab_of_isFree hx]; rfl
  · exact T.forest.entry_attach hf hp hnone hnl hw hr₀ rfl _
  · have hl' : ([] : List (Fin 512)).length + is.length ≤ (shape K).depth := by
      simpa [shape] using hl
    rcases T.forest.walk_attach hnone hnl hw hfn hr₀ hl' with heq | ⟨hold, -⟩
    · exact heq.trans hwalk
    · simp [hold] at hwalk
  · refine T.forest.walk_frame (fun x r₁ q k hx hq hnext => ?_) hr₀ hne hl
    have hxn : x ≠ n := fun he => by rw [he, hnl] at hx; cases hx
    have hfi : ¬ (x = f ∧ k = i) := by
      intro hfi
      rw [hfi.1, hf, some_inj, mk.injEq] at hx
      rw [← hx.1, ← hx.2, hfi.2, (shape K).next_of_home hhome] at hnext
      exact hnext rfl
    exact congrArg (shape K).child (attached_of_ne (S := shape K) hxn hfi)
  · refine attached_of_ne (S := shape K) (fun he => ?_) fun hfi => ?_
    · simp [he, IsRoot, hnl] at hr₀
    rw [hfi.1, IsRoot, hf, some_inj, mk.injEq] at hr₀
    rw [hfi.1, hfi.2] at hne
    exact hne hr₀.1.symm hnone

theorem getOrCreatePte_grow (T : Tables K m lab)
    (hf : lab f = some (r, p)) (hp : p.length < 3) (hhome : p = [] → (shape K).home r i = r)
    (h : getOrCreatePte m f i secflags = .ok (g, m')) :
    ∃ lab', Grow K r m lab m' lab' ∧ lab' g = some (r, p ++ [i]) := by
  rw [getOrCreatePte] at h
  split at h
  · rename_i pte hpte
    rw [Except.ok.injEq, mk.injEq] at h
    obtain ⟨rfl, rfl⟩ := h
    have hg := T.forest.down f r p i pte hf hp hpte
    rw [(shape K).next_of_home hhome] at hg
    exact ⟨lab, Grow.refl T r, hg⟩
  · rename_i hnone
    exact createPte_grow T hf hp hhome hnone h

/-! ## Writing an entry -/

/-- From `m` to `m'` tables may have been added, and then the entry of `virt` below the root `r`,
which is in the table `t`, has been set to `w`. -/
structure PteUpdate (K r : Nat) (virt w : BitVec 64) (t : Nat) (m : MmState) (lab : Labels)
    (m' : MmState) (lab' : Labels) : Prop where
  tables : Tables K m' lab'
  keep : ∀ f l, lab f = some l → lab' f = some l
  fresh : ∀ f l, lab' f = some l → lab f = none → m.pmm.isFree f = true ∧ l.1 = r
  free : ∀ n, m'.pmm.isFree n = (m.pmm.isFree n && (lab' n).isNone)
  /-- The table is where the root leads. -/
  table : leafTable K m' r virt = some t
  /-- One entry changes, for every root that leads to it. -/
  pte : ∀ r₀ u, IsRoot lab r₀ → pte K m' r₀ u =
    if leafTable K m' r₀ u = some t ∧ getPagetableIndex u 1 = getPagetableIndex virt 1 then w
    else pte K m r₀ u
  stays : ∀ r₀ u t', IsRoot lab r₀ → leafTable K m r₀ u = some t' → leafTable K m' r₀ u = some t'
  other : ∀ r₀ u, IsRoot lab r₀ → (shape K).home r₀ (getPagetableIndex u 4) ≠ r →
    leafTable K m' r₀ u = leafTable K m r₀ u
  /-- The words of the roots stay, but for empty ones of `r`. -/
  row : ∀ r₀ i, IsRoot lab r₀ → (r₀ = r → pteChild (m.mem r₀ i) ≠ none) →
    m'.mem r₀ i = m.mem r₀ i
  length : m'.pmm.bitmap.length = m.pmm.bitmap.length
  doubleFree : m'.pmm.doubleFree = m.pmm.doubleFree

theorem length_tablePath (K : Nat) (virt : BitVec 64) :
    (tablePath virt).length = (shape K).depth := rfl

theorem place_tablePath (K r : Nat) (virt : BitVec 64) : (shape K).place r (tablePath virt) =
      ((shape K).home r (getPagetableIndex virt 4), tablePath virt) := rfl

theorem Grow.write (G : Grow K r m lab m₁ lab₁) (ht : lab₁ t = some (r, tablePath virt))
    (w : BitVec 64) : PteUpdate K r virt w t m lab
    { m₁ with mem := TableForest.write m₁.mem t (getPagetableIndex virt 1) w } lab₁ := by
  have F := G.tables.forest
  have hroot : IsRoot lab₁ r := F.root_of_lab ht
  have hwalk : ∀ r₀ u, IsRoot lab₁ r₀ → leafTable K
      { m₁ with mem := TableForest.write m₁.mem t (getPagetableIndex virt 1) w } r₀ u =
        leafTable K m₁ r₀ u :=
    fun r₀ u hr₀ => F.walk_setLeaf ht rfl _ w hr₀ (length_tablePath K u).le
  refine ⟨⟨F.setLeaf ht rfl _ w, G.tables.frame, G.tables.pmmOk⟩, G.keep, G.fresh, G.free, ?_,
    fun r₀ u hr₀ => ?_, fun r₀ u t' hr₀ hl => ?_, fun r₀ u hr₀ hne => ?_, fun r₀ i hr₀ hne => ?_,
    G.length, G.doubleFree⟩
  · rw [hwalk r virt hroot]
    exact F.walk_of_lab ht
  · rw [hwalk r₀ u (G.root hr₀), ← G.pte r₀ u hr₀]
    exact F.entry_setLeaf ht rfl _ w (G.root hr₀) (length_tablePath K u).le _
  · rw [hwalk r₀ u (G.root hr₀)]
    exact G.stays r₀ _ t' hr₀ (length_tablePath K u).le hl
  · rw [hwalk r₀ u (G.root hr₀)]
    exact G.other r₀ _ _ hr₀ hne (length_tablePath K u).le
  · rw [← G.row r₀ i hr₀ hne]
    refine write_of_table_ne (fun he => ?_) _ i w
    -- the table of the entry is no root
    have hr₁ := G.root hr₀
    rw [he, IsRoot, ht, some_inj, mk.injEq] at hr₁
    cases hr₁.2

/-- **`mmu_map`** sets one entry. -/
theorem mmuMap_spec (T : Tables K m lab) (hr : IsRoot lab r) {prot flags : BitVec 32}
    (hhome : (shape K).home r (getPagetableIndex virt 4) = r)
    (h : mmuMap m r phys virt prot flags = .ok m') :
    ∃ t lab', PteUpdate K r virt (pteOf phys prot flags) t m lab m' lab' := by
  obtain ⟨⟨pdpt, m₁⟩, h₁, h⟩ := bind_eq_ok.1 h
  obtain ⟨lab₁, G₁, hpdpt⟩ := getOrCreatePte_grow T hr (by decide) (fun _ => hhome) h₁
  obtain ⟨⟨pd, m₂⟩, h₂, h⟩ := bind_eq_ok.1 h
  obtain ⟨lab₂, G₂, hpd⟩ := getOrCreatePte_grow G₁.tables hpdpt (by simp) nofun h₂
  obtain ⟨⟨pt, m₃⟩, h₃, h⟩ := bind_eq_ok.1 h
  obtain ⟨lab₃, G₃, hpt⟩ := getOrCreatePte_grow G₂.tables hpd (by simp) nofun h₃
  rw [pure_eq_ok] at h
  rw [← h]
  exact ⟨pt, lab₃, ((G₁.trans G₂).trans G₃).write hpt _⟩

/-- **`mmu_unmap`** clears one, in a table that has to be there. -/
theorem mmuUnmap_spec (T : Tables K m lab) (hr : IsRoot lab r)
    (hhome : (shape K).home r (getPagetableIndex virt 4) = r) (h : mmuUnmap m r virt = .ok m') :
    ∃ t, PteUpdate K r virt 0 t m lab m' lab ∧ leafTable K m r virt = some t := by
  simp only [mmuUnmap, bind_eq_ok, pure_eq_ok] at h
  obtain ⟨pdpt, h₁, pd, h₂, pt, h₃, rfl⟩ := h
  have hderef : ∀ (o : Option Nat) (x : Nat), deref o = .ok x → o = some x := by
    intro o x ho
    cases o with
    | none => cases ho
    | some y => rw [Except.ok.inj ho]
  have hleaf : leafTable K m r virt = some pt := by
    rw [leafTable_eq, hderef _ _ h₁, bind_some, hderef _ _ h₂, bind_some, hderef _ _ h₃]
  have hpt := T.forest.walk_place hr (length_tablePath K virt).le hleaf
  rw [place_tablePath, hhome] at hpt
  exact ⟨pt, (Grow.refl T r).write hpt 0, hleaf⟩

section

variable (U : PteUpdate K r virt w t m lab m' lab')

include U

theorem PteUpdate.lab_table (hr : IsRoot lab r) (hr₀ : IsRoot lab r₀)
    (ht : leafTable K m' r₀ u = some t) :
    (shape K).home r₀ (getPagetableIndex u 4) = (shape K).home r (getPagetableIndex virt 4) ∧
      tablePath u = tablePath virt := by
  have hu := U.tables.forest.walk_place (U.keep _ _ hr₀) (length_tablePath K u).le ht
  have hv := U.tables.forest.walk_place (U.keep _ _ hr) (length_tablePath K virt).le U.table
  rw [hv, some_inj, mk.injEq] at hu
  exact ⟨hu.1.symm, hu.2.symm⟩

theorem PteUpdate.pte_self (hr : IsRoot lab r) (u : BitVec 64) :
    Mm.pte K m' r u = if vpn u = vpn virt then w else Mm.pte K m r u := by
  rw [U.pte r u hr]
  by_cases hu : vpn u = vpn virt
  · obtain ⟨hpath, hidx⟩ := tablePath_eq_iff.2 hu
    have ht : leafTable K m' r u = some t := by
      rw [leafTable, hpath]
      exact U.table
    rw [if_pos hu, if_pos ⟨ht, hidx⟩]
  · rw [if_neg hu, if_neg]
    exact fun hc => hu (tablePath_eq_iff.1 ⟨(U.lab_table hr hr hc.1).2, hc.2⟩)

theorem PteUpdate.pte_other (hr : IsRoot lab r)
    (hhome : (shape K).home r (getPagetableIndex virt 4) = r) (hr₀ : IsRoot lab r₀)
    (hne : (shape K).home r₀ (getPagetableIndex u 4) ≠ r) : Mm.pte K m' r₀ u = Mm.pte K m r₀ u := by
  rw [U.pte r₀ u hr₀, if_neg]
  exact fun hc => hne ((U.lab_table hr hr₀ hc.1).1.trans hhome)

/-! ## Where the tables stay as they are -/

end

theorem Tables.leafTable_congr (T : Tables K m lab)
    (hagree : ∀ f l, lab f = some l → m'.mem f = m.mem f) (hr₀ : IsRoot lab r₀) (u : BitVec 64) :
    leafTable K m' r₀ u = leafTable K m r₀ u :=
  T.forest.walk_congr (fun f _ _ j hf _ => congrFun (hagree f _ hf) j) hr₀ (length_tablePath K u).le

theorem Tables.pte_congr (T : Tables K m lab) (hagree : ∀ f l, lab f = some l → m'.mem f = m.mem f)
    (hr₀ : IsRoot lab r₀) (u : BitVec 64) : pte K m' r₀ u = pte K m r₀ u := by
  have ht := T.leafTable_congr hagree hr₀ u
  rcases hl : leafTable K m r₀ u with _ | t
  · rw [pte_of_none hl, pte_of_none (ht.trans hl)]
  have hlab := T.forest.walk_place hr₀ (length_tablePath K u).le hl
  rw [pte, pte, entry_of_walk hl, entry_of_walk (ht.trans hl), hagree t _ hlab]

theorem Tables.allocate (T : Tables K m lab) (halloc : pmmAllocate m.pmm = .ok (phys, pmm)) :
    Tables K { m with pmm := pmm } lab := by
  obtain ⟨n, -, -, -, hpmm, hlength, -⟩ := pmmAllocate_spec halloc
  refine ⟨T.forest, fun f l hl => ?_, fun f hf => ?_⟩
  · obtain ⟨hfok, hused, hbound⟩ := T.frame f l hl
    exact ⟨hfok, by rw [hpmm, hused, Bool.false_and], by rw [hlength]; exact hbound⟩
  · rw [hpmm, Bool.and_eq_true] at hf
    exact T.pmmOk f hf.1

/-! ## Roots -/

theorem Tables.empty (K : Nat) (h : m.pmm.Ok) : Tables K m fun _ => none where
  forest := ⟨nofun, nofun, nofun, nofun, nofun⟩
  frame := nofun
  pmmOk := h

/-- **A new root**, with the entries `row`. -/
theorem Tables.plant (T : Tables K m lab) {pmm : Pmm} (halloc : pmmAllocate m.pmm = .ok (phys, pmm))
    {row : Fin 512 → BitVec 64} (hrow : ∀ j, row j = 0 ∨ ∃ r', IsRoot lab r' ∧ row j = m.mem r' j ∧
      (shape K).home (frameOf phys) j = (shape K).home r' j) :
    m.pmm.isFree (frameOf phys) = true ∧ FrameOk (frameOf phys) ∧
      (∀ n, pmm.isFree n = (m.pmm.isFree n && decide (n ≠ frameOf phys))) ∧
      pmm.doubleFree = m.pmm.doubleFree ∧ pmm.bitmap.length = m.pmm.bitmap.length ∧
      Tables K { mem := update m.mem (frameOf phys) row, pmm := pmm }
        (update lab (frameOf phys) (some (frameOf phys, []))) := by
  obtain ⟨n, rfl, hfree, hlen, hpmm, hlength, hdouble⟩ := pmmAllocate_spec halloc
  have hok : FrameOk n := T.pmmOk n hfree
  rw [frameOf_frameAddr hok.2] at hrow ⊢
  refine ⟨hfree, hok, hpmm, hdouble, hlength, T.forest.plant (T.lab_of_isFree hfree) hrow,
    fun x l hx => ?_, fun x hx => ?_⟩
  · by_cases hxn : x = n
    · rw [hxn, hpmm, hlength]
      exact ⟨hok, by simp, hlen⟩
    rw [update_of_ne hxn] at hx
    obtain ⟨hxok, hxfree, hxlen⟩ := T.frame x l hx
    rw [hpmm, hlength, hxfree]
    exact ⟨hxok, rfl, hxlen⟩
  · rw [hpmm, Bool.and_eq_true] at hx
    exact T.pmmOk x hx.1

end Monolith.Mm
