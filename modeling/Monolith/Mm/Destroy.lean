import Monolith.Mm.Tables

/-!
# `mmu_destroy`

The three nested loops of `mmu_destroy` take the tables of a root out of the forest, the ones at the
last level first, and give their frames back.  `Prune` says what such a loop leaves alone:
everything that is not below the table it works on.  Each loop is the same statement one level up
(`destroyEntries_prune`), and `mmuDestroy_spec` puts the three together: the tables of the root are
gone, no other root sees a difference, and no frame is freed that was free.
-/

namespace Monolith.Mm

open Function Fallible TableForest List Option

variable {K r : Nat} {q : List (Fin 512)} {m m' m₁ m₂ : MmState} {lab lab' lab₁ lab₂ : Labels}
  {p : List (Fin 512)} {i : Fin 512} {g f : Nat} {addr : BitVec 64} {pmm : Pmm}
  {below : MmState → Nat →
    Except MmFault MmState}

/-- From `m` to `m'` only tables below the place `(r, q)` have been taken out, and freed. -/
structure Prune (K r : Nat) (q : List (Fin 512)) (m : MmState) (lab : Labels) (m' : MmState)
    (lab' : Labels) : Prop where
  tables : Tables K m' lab'
  old : ∀ f l, lab' f = some l → lab f = some l
  /-- A table that is gone was below the place. -/
  gone : ∀ f r₁ p, lab f = some (r₁, p) → lab' f = none → r₁ = r ∧ q <+: p ∧ p ≠ q
  free : ∀ n, m'.pmm.isFree n = (m.pmm.isFree n || ((lab n).isSome && (lab' n).isNone))
  /-- Words that do not lead below the place stay. -/
  mem : ∀ f r₁ p j, lab f = some (r₁, p) → ¬ (((shape K).next r₁ p j).1 = r ∧ q <+: p) →
    m'.mem f j = m.mem f j
  length : m'.pmm.bitmap.length = m.pmm.bitmap.length
  doubleFree : m'.pmm.doubleFree = m.pmm.doubleFree

theorem Prune.refl (T : Tables K m lab) (r : Nat) (q : List (Fin 512)) :
    Prune K r q m lab m lab where
  tables := T
  old _ _ h := h
  gone f r₁ p h hn := by rw [h] at hn; cases hn
  free n := by cases lab n <;> simp
  mem _ _ _ _ _ _ := rfl
  length := rfl
  doubleFree := rfl

theorem Prune.keep (P : Prune K r q m lab m' lab') {f r₁ : Nat}
    (hf : lab f = some (r₁, p)) (hne : ¬ (r₁ = r ∧ q <+: p ∧ p ≠ q)) : lab' f = some (r₁, p) := by
  rcases hl : lab' f with _ | l
  · exact absurd (P.gone f r₁ p hf hl) hne
  rw [P.old f l hl] at hf
  rw [hf]

theorem Prune.mono (P : Prune K r (q ++ [i]) m lab m' lab') : Prune K r q m lab m' lab' where
  tables := P.tables
  old := P.old
  gone f r₁ p hf hn := by
    obtain ⟨hr, hq, -⟩ := P.gone f r₁ p hf hn
    refine ⟨hr, (prefix_append q [i]).trans hq, fun he => ?_⟩
    have hlen := hq.length_le
    rw [he, length_append, length_singleton] at hlen
    omega
  free := P.free
  mem f r₁ p j hf hne := P.mem f r₁ p j hf fun hc => hne ⟨hc.1, (prefix_append q [i]).trans hc.2⟩
  length := P.length
  doubleFree := P.doubleFree

theorem Prune.trans (P : Prune K r q m lab m₁ lab₁) (P' : Prune K r q m₁ lab₁ m₂ lab₂) :
    Prune K r q m lab m₂ lab₂ where
  tables := P'.tables
  old f l h := P.old f l (P'.old f l h)
  gone f r₁ p hf hn := by
    rcases hl : lab₁ f with _ | l
    · exact P.gone f r₁ p hf hl
    rw [P.old f l hl] at hf
    exact P'.gone f r₁ p (hf ▸ hl) hn
  free n := by
    rw [P'.free, P.free]
    cases hl₁ : lab₁ n with
    | none =>
      have hl₂ : lab₂ n = none := by
        cases hl : lab₂ n with
        | none => rfl
        | some l => rw [P'.old n l hl] at hl₁; cases hl₁
      simp [hl₂]
    | some l => simp [P.old n l hl₁]
  mem f r₁ p j hf hne := by
    by_cases hgone : r₁ = r ∧ q <+: p ∧ p ≠ q
    · -- a table below the place: its words lead below the place, too
      exfalso
      have hp : p ≠ [] := fun h0 => by
        rw [h0, prefix_nil] at hgone
        exact hgone.2.2 hgone.2.1.symm
      exact hne ⟨by rw [(shape K).next_of_ne hp]; exact hgone.1, hgone.2.1⟩
    · rw [P'.mem f r₁ p j (P.keep hf hgone) hne, P.mem f r₁ p j hf hne]
  length := by rw [P'.length, P.length]
  doubleFree := by rw [P'.doubleFree, P.doubleFree]

/-! ## One table -/

theorem home_of_lt (K r : Nat) (hi : i.val < 256) : (shape K).home r i = r := if_neg (by omega)

theorem home_of_le (K r : Nat) (hi : 256 ≤ i.val) : (shape K).home r i = K := if_pos hi

theorem frameOf_of_pteChild {raw : BitVec 64} (h : pteChild raw = some g) :
    has raw ptePresent = true ∧ frameOf (pteAddress raw) = g := by
  obtain ⟨hc, h⟩ := ite_none_right_eq_some.1 h
  exact ⟨hc.1, some.inj h⟩

theorem Tables.erase (T : Tables K m lab) {l₀ : Nat × List (Fin 512)} (hg : lab g = some l₀)
    (haddr : frameOf addr = g) (hfree : pmmFree m.pmm addr = .ok pmm)
    {mem : Nat → Fin 512 → BitVec 64} (F : Forest (shape K) mem (update lab g none)) :
    Tables K { mem := mem, pmm := pmm } (update lab g none) := by
  obtain ⟨hpmm, hlength, -⟩ := pmmFree_spec hfree
  rw [haddr] at hpmm
  refine ⟨F, fun x l hx => ?_, fun x hx => ?_⟩
  · obtain ⟨hxg, hx⟩ := eq_some_of_update_none hx
    obtain ⟨hxok, hxfree, hxlen⟩ := T.frame x l hx
    rw [hpmm, hlength, hxfree, decide_eq_false hxg]
    exact ⟨hxok, rfl, hxlen⟩
  · rw [hpmm, Bool.or_eq_true, decide_eq_true_eq] at hx
    rcases hx with hx | hx
    · exact T.pmmOk x hx
    · rw [hx]
      exact (T.frame g _ hg).1

/-- **A table is freed and its entry cleared.** -/
theorem Tables.release (T : Tables K m lab) (hf : lab f = some (r, q))
    (hq : q.length < 3) (hlow : q = [] → i.val < 256) (hc : pteChild (m.mem f i) = some g)
    (hlast : q.length + 1 < 3 → ∀ j, pteChild (m.mem g j) = none)
    (hfree : pmmFree m.pmm (pteAddress (m.mem f i)) = .ok pmm) :
    Prune K r q m lab { mem := write m.mem f i 0, pmm := pmm } (update lab g none) := by
  have hhome : q = [] → (shape K).home r i = r := fun h => home_of_lt K r (hlow h)
  have hg := T.forest.down f r q i g hf hq hc
  rw [(shape K).next_of_home hhome] at hg
  obtain ⟨hpmm, hlength, hdouble⟩ := pmmFree_spec hfree
  rw [(frameOf_of_pteChild hc).2] at hpmm hdouble
  have hone : q = [] → ∀ r', lab r' = some (r', []) → (shape K).home r' i = r → r' = r := by
    intro h r' _ hr'
    rwa [home_of_lt K r' (hlow h)] at hr'
  refine ⟨T.erase hg (frameOf_of_pteChild hc).2 hfree (T.forest.detach hf hq hc hhome hone hlast),
    fun x l hx => ?_, fun x r₁ p hx hn => ?_, fun n => ?_, fun x r₁ p j hx hne => ?_, hlength, ?_⟩
  · exact (eq_some_of_update_none hx).2
  · by_cases hxg : x = g
    · rw [hxg, hg, some_inj, Prod.mk.injEq] at hx
      rw [← hx.1, ← hx.2]
      exact ⟨rfl, prefix_append q [i], fun he => by simp at he⟩
    · simp [hxg, hx] at hn
  · rw [hpmm]
    by_cases hn : n = g
    · simp [hn, hg]
    · rw [update_of_ne hn, decide_eq_false hn]
      cases lab n <;> simp
  · refine write_of_ne (fun hfi => hne ?_) 0
    rw [hfi.1, hf, some_inj, Prod.mk.injEq] at hx
    rw [← hx.1, ← hx.2, hfi.2, (shape K).next_of_home hhome]
    exact ⟨rfl, prefix_refl q⟩
  · rw [hdouble, T.notFree hg, Bool.or_false]

/-! ## The loops -/

/-- What a loop of `mmu_destroy` needs of the one inside it, at the tables below `(r, q)`. -/
def Prunes (K r : Nat) (q : List (Fin 512)) (below : MmState → Nat → Except MmFault MmState) :
    Prop :=
  ∀ m lab g i, Tables K m lab → lab g = some (r, q ++ [i]) → ∃ m' lab', below m g = .ok m' ∧
    Prune K r (q ++ [i]) m lab m' lab' ∧ (q.length + 1 < 3 → ∀ j, pteChild (m'.mem g j) = none)

theorem Tables.pmmFree (T : Tables K m lab) {l : Nat × List (Fin 512)} (hg : lab g = some l)
    (haddr : frameOf addr = g) : ∃ pmm, Mm.pmmFree m.pmm addr = .ok pmm := by
  rw [Mm.pmmFree, haddr]
  exact ⟨_, if_pos (T.frame g l hg).2.2⟩

theorem destroyEntries_prune (hbelow : Prunes K r q below) (hq : q.length < 3) {n : Nat}
    (hn : n ≤ 512) (hlow : q = [] → n ≤ 256) (T : Tables K m lab) (hf : lab f = some (r, q)) :
    ∃ m', destroyEntries below n m f = .ok m' ∧ ∃ lab', Prune K r q m lab m' lab' ∧
      ∀ j : Fin 512, j.val < n → pteChild (m'.mem f j) = none := by
  have hloop : ∃ m', destroyEntries below n m f = .ok m' ∧ _ :=
    forRange_total (I := fun i m' => ∃ lab', Prune K r q m lab m' lab' ∧
      ∀ j : Fin 512, j.val < i → pteChild (m'.mem f j) = none)
    (fun i t _ hi ht => ?_) ⟨lab, Prune.refl T r q, fun j hj => absurd hj (by omega)⟩
  · rwa [zero_add] at hloop
  obtain ⟨lab₁, P, hclear⟩ := ht
  have hval : (Fin.ofNat 512 i).val = i := Nat.mod_eq_of_lt (by omega)
  have hf₁ : lab₁ f = some (r, q) := P.keep hf fun hc => hc.2.2 rfl
  -- the entries before `i`, and `i` itself
  have hsplit : ∀ j : Fin 512, j.val < i + 1 → j.val < i ∨ j = Fin.ofNat 512 i := by
    intro j hj
    rcases lt_or_ge j.val i with hlt | hge
    · exact .inl hlt
    · exact .inr (Fin.ext (by rw [hval]; omega))
  split_ifs with hpresent
  · have hzero : t.mem f (Fin.ofNat 512 i) ≠ 0 := by
      intro h0
      rw [h0] at hpresent
      exact absurd hpresent (by decide)
    obtain ⟨g, hg⟩ := (P.tables.forest.full f r q (Fin.ofNat 512 i) hf₁ hq).resolve_left hzero
    have hlowi : q = [] → (Fin.ofNat 512 i).val < 256 := fun h0 => by
      have := hlow h0
      omega
    have hlg := P.tables.forest.down f r q _ g hf₁ hq hg
    rw [(shape K).next_of_home fun h0 => home_of_lt K r (hlowi h0)] at hlg
    obtain ⟨m₁, lab₂, hb, P₂, hempty⟩ := hbelow t lab₁ g _ P.tables hlg
    -- the loop inside does not touch the table itself
    have hrow : ∀ j, m₁.mem f j = t.mem f j := fun j => by
      refine P₂.mem f r q j hf₁ fun hc => ?_
      have hlen := hc.2.length_le
      rw [length_append, length_singleton] at hlen
      omega
    have hf₂ : lab₂ f = some (r, q) := P₂.keep hf₁ fun hc => by
      have hlen := hc.2.1.length_le
      rw [length_append, length_singleton] at hlen
      omega
    have hg₁ : pteChild (m₁.mem f (Fin.ofNat 512 i)) = some g := by rwa [hrow]
    obtain ⟨pmm, hfree⟩ :=
      P₂.tables.pmmFree (P₂.keep hlg fun hc => hc.2.2 rfl) (frameOf_of_pteChild hg₁).2
    have P₃ := P₂.tables.release hf₂ hq hlowi hg₁ hempty hfree
    rw [← (frameOf_of_pteChild hg).2] at hb
    refine ⟨_, bind_eq_ok.2 ⟨m₁, hb, bind_eq_ok.2 ⟨pmm, hfree, rfl⟩⟩, _, (P.trans P₂.mono).trans P₃,
      fun j hj => ?_⟩
    dsimp only
    by_cases hji : j = Fin.ofNat 512 i
    · rw [hji, write_self]
      rfl
    · rw [write_of_ne fun hc => hji hc.2, hrow]
      exact hclear j ((hsplit j hj).resolve_right hji)
  · refine ⟨t, rfl, lab₁, P, fun j hj => ?_⟩
    rcases hsplit j hj with hlt | hji
    · exact hclear j hlt
    · rw [hji, pteChild, if_neg fun hc => hpresent hc.1]

/-- A loop over a whole table takes the table apart. -/
theorem destroyEntries_prunes (hbelow : ∀ i, Prunes K r (q ++ [i]) below) (hq : q.length + 1 < 3) :
    Prunes K r q (destroyEntries below 512) := by
  intro m lab g i T hg
  have hlen : (q ++ [i]).length < 3 := by rwa [length_append]
  obtain ⟨m', hm', lab', P, hclear⟩ :=
    destroyEntries_prune (hbelow i) hlen le_rfl (fun h0 => by simp at h0) T hg
  exact ⟨m', lab', hm', P, fun _ j => hclear j j.isLt⟩

theorem prunes_last (hq : q.length = 2) : Prunes K r q fun m _ => .ok m :=
  fun m lab _ _ T _ => ⟨m, lab, rfl, Prune.refl T r _, fun hlt => by omega⟩

/-- What `mmu_destroy` leaves of the forest. -/
structure Destroyed (K r : Nat) (m : MmState) (lab : Labels) (m' : MmState) (lab' : Labels) :
    Prop where
  tables : Tables K m' lab'
  old : ∀ f l, lab' f = some l → lab f = some l
  /-- The tables of the root are gone, and no other. -/
  gone : ∀ f r₁ p, lab f = some (r₁, p) → (lab' f = none ↔ r₁ = r)
  free : ∀ n, m'.pmm.isFree n = (m.pmm.isFree n || ((lab n).isSome && (lab' n).isNone))
  /-- The other roots are as before. -/
  row : ∀ r₀ j, IsRoot lab r₀ → r₀ ≠ r → m'.mem r₀ j = m.mem r₀ j
  leafTable : ∀ r₀ u, IsRoot lab r₀ → r₀ ≠ r → leafTable K m' r₀ u = leafTable K m r₀ u
  pte : ∀ r₀ u, IsRoot lab r₀ → r₀ ≠ r → pte K m' r₀ u = pte K m r₀ u
  length : m'.pmm.bitmap.length = m.pmm.bitmap.length
  doubleFree : m'.pmm.doubleFree = m.pmm.doubleFree

theorem Destroyed.isRoot (D : Destroyed K r m lab m' lab') (r₀ : Nat) :
    IsRoot lab' r₀ ↔ IsRoot lab r₀ ∧ r₀ ≠ r := by
  constructor
  · intro h
    have hold := D.old r₀ _ h
    refine ⟨hold, fun he => ?_⟩
    have hgone := (D.gone r₀ r₀ [] hold).2 he
    simp [IsRoot, hgone] at h
  · rintro ⟨h, hne⟩
    cases hl : lab' r₀ with
    | none => exact absurd ((D.gone r₀ r₀ [] h).1 hl) hne
    | some l => rw [IsRoot, hl, ← D.old r₀ l hl, h]

theorem home_ne_of_ne (hrK : r ≠ K) {r₀ : Nat} (hne : r₀ ≠ r) (i : Fin 512) :
    (shape K).home r₀ i ≠ r := by
  by_cases hi : 256 ≤ i.val
  · rw [home_of_le K r₀ hi]
    exact Ne.symm hrK
  · rwa [home_of_lt K r₀ (by omega)]

/-- The lower half of a root is cleared. -/
def Cleared (m : MmState) (r : Nat) : Prop :=
  ∀ i : Fin 512, i.val < 256 → pteChild (m.mem r i) = none

variable (T : Tables K m lab)

include T

/-- Nothing hangs on it, as the upper half is the kernel's. -/
theorem Tables.childless (hrK : r ≠ K) (hclear : Cleared m r) (g : Nat) (i : Fin 512) :
    lab g ≠ some (r, [i]) := by
  intro hg
  obtain ⟨f, hf, hc⟩ := T.forest.up g r [] i hg
  rw [T.forest.root f r hf] at hc
  have hhome := T.forest.home_of_lab hg
  by_cases hi : i.val < 256
  · simp [show (shape K).child (m.mem r i) = none from hclear i hi] at hc
  · rw [home_of_le K r (by omega)] at hhome
    exact hrK hhome.symm

theorem Tables.alone (hr : IsRoot lab r) (hrK : r ≠ K) (hclear : Cleared m r)
    (hf : lab f = some (r, p)) : f = r := by
  rcases p with _ | ⟨i, _⟩
  · exact T.forest.root f r hf
  exfalso
  have hwalk := T.forest.walk_of_lab hf
  rw [walk_cons, bind_eq_some_iff] at hwalk
  obtain ⟨g, hg, -⟩ := hwalk
  have hlg := T.forest.down r r [] i g hr (by decide : 0 < 3) hg
  rw [Shape.next, T.forest.home_of_lab hf] at hlg
  exact T.childless hrK hclear g i hlg

/-- **`mmu_destroy`** of a root that is not the kernel's. -/
theorem mmuDestroy_total (hr : IsRoot lab r) (hrK : r ≠ K) :
    ∃ m' lab', mmuDestroy m r = .ok m' ∧ Destroyed K r m lab m' lab' := by
  have hprunes : Prunes K r [] (destroyEntries (destroyEntries (fun m _ => .ok m) 512) 512) :=
    destroyEntries_prunes (fun i => destroyEntries_prunes (fun j => prunes_last rfl) (by simp))
      (by simp)
  obtain ⟨m₁, hloops, lab₁, P, hclear⟩ :=
    destroyEntries_prune hprunes (by simp) (by decide) (fun _ => le_rfl) T hr
  have hr₁ : IsRoot lab₁ r := P.keep hr fun hc => hc.2.2 rfl
  have hframe := frameOf_frameAddr (P.tables.frame r _ hr₁).1.2
  obtain ⟨pmm, hfree⟩ := P.tables.pmmFree hr₁ hframe
  obtain ⟨hpmm, hlength, hdouble⟩ := pmmFree_spec hfree
  rw [hframe] at hpmm hdouble
  have hrow : ∀ f r₁ p j, lab f = some (r₁, p) → ((shape K).next r₁ p j).1 ≠ r →
      m₁.mem f j = m.mem f j := fun f r₁ p j hf hne => P.mem f r₁ p j hf fun hc => hne hc.1
  refine ⟨_, update lab₁ r none, bind_eq_ok.2 ⟨m₁, hloops, bind_eq_ok.2 ⟨pmm, hfree, rfl⟩⟩, ?_⟩
  refine ⟨P.tables.erase hr₁ hframe hfree
    (P.tables.forest.uproot hr₁ (P.tables.childless hrK hclear)),
    fun x l hx => ?_, fun x r₁ p hx => ?_, fun n => ?_, fun r₀ j hr₀ hne => ?_,
    fun r₀ u hr₀ hne => ?_, fun r₀ u hr₀ hne => ?_, hlength.trans P.length, ?_⟩
  · exact P.old x l (eq_some_of_update_none hx).2
  · constructor
    · intro hn
      by_cases hxr : x = r
      · rw [hxr, hr, some_inj, Prod.mk.injEq] at hx
        exact hx.1.symm
      · rw [update_of_ne hxr] at hn
        exact (P.gone x r₁ p hx hn).1
    · intro hr₁'
      by_cases hxr : x = r
      · rw [hxr, update_self]
      rw [update_of_ne hxr]
      rcases hl : lab₁ x with _ | l
      · rfl
      have hold := P.old x l hl
      rw [hx] at hold
      rw [← hold, hr₁'] at hl
      exact absurd (P.tables.alone hr₁ hrK hclear hl) hxr
  · rw [hpmm, P.free]
    by_cases hn : n = r
    · rw [hn, hr]
      simp
    · rw [update_of_ne hn, decide_eq_false hn, Bool.or_false]
  · exact hrow r₀ r₀ [] j hr₀ (home_ne_of_ne hrK hne j)
  · exact T.forest.walk_frame (fun x r₁ p j hx _ hn => congrArg _ (hrow x r₁ p j hx hn)) hr₀
      (home_ne_of_ne hrK hne _) (length_tablePath K u).le
  · refine T.forest.entry_frame (fun x r₁ p j hx _ hn => congrArg _ (hrow x r₁ p j hx hn))
      (fun x r₁ p j hx hp hn => hrow x r₁ p j hx ?_) hr₀ (home_ne_of_ne hrK hne _)
      (length_tablePath K u) _
    rw [(shape K).next_of_ne (fun h0 => by rw [h0] at hp; cases hp)]
    exact hn
  · rw [hdouble, P.tables.notFree hr₁, Bool.or_false, P.doubleFree]

theorem mmuDestroy_spec (hr : IsRoot lab r) (hrK : r ≠ K)
    (h : mmuDestroy m r = .ok m') : ∃ lab', Destroyed K r m lab m' lab' := by
  obtain ⟨m₁, lab', h₁, D⟩ := mmuDestroy_total T hr hrK
  obtain rfl : m' = m₁ := Except.ok.inj (h.symm.trans h₁)
  exact ⟨lab', D⟩

end Monolith.Mm
