import Monolith.Mm.Effect
import Monolith.Mm.KernelHalf

/-!
# Who owns a frame

An entry with the `OWNER` bit owns the frame it names.  Nothing else records that: the bit is set
when a page is made for a mapping, and looked at when the page is taken away.

`Owned` is the invariant: a frame with an owner is in use, is no table, is not one of the frames
that are shared (`res`), and has no second owner.  `Owned.pageStep` keeps it, whatever happens to a
page, and so does what happens to a root (`Owned.newRoot`, `Owned.destroyed`).
-/

namespace Monolith.Mm

open Function Fallible TableForest Relation

/-! ## Entries and frames -/

/-- Which entry it is: the root that has the table it is in, and the page.  Two roots may lead to
one entry. -/
def slot (K r : Nat) (u : BitVec 64) : Nat × Nat :=
  ((shape K).home r (getPagetableIndex u 4), vpn u)

/-- The frame that an entry names. -/
def pteFrame (w : BitVec 64) : Nat := frameOf (pteAddress w)

/-- A frame that is in use, but not for a table. -/
structure Taken (m : MmState) (lab : Labels) (f : Nat) : Prop where
  ok : FrameOk f
  used : m.pmm.isFree f = false
  bound : f / 64 < m.pmm.bitmap.length
  noTable : lab f = none

variable {K r : Nat} {res : Nat → Prop} {m m' m₁ m₂ : MmState} {lab lab' lab₁ lab₂ : Labels}
  {virt w : BitVec 64} {t : Nat} {V : BitVec 64 → Prop} {Q : BitVec 64 → BitVec 32 → Bool → Prop}
  {phys : BitVec 64} {f : Nat} {pmm : Pmm}

theorem pteFrame_pteOf (prot flags : BitVec 32) (h : PhysOk phys) :
    pteFrame (pteOf phys prot flags) = frameOf phys := by
  rw [pteFrame, pteAddress_pteOf prot flags h]

theorem base_mmuGetPhys (K : Nat) (m : MmState) (r : Nat) (u : BitVec 64) :
    (mmuGetPhys m r u).base = pteAddress (pte K m r u) := by
  cases hl : leafTable K m r u with
  | none => rw [mmuGetPhys_of_none hl, pte_of_none hl]; rfl
  | some t => rw [mmuGetPhys_of_leafTable hl]; rfl

theorem owner_mmuGetPhys (K : Nat) (m : MmState) (r : Nat) (u : BitVec 64) :
    has (mmuGetPhys m r u).flags vmFlagOwner = has (pte K m r u) pteOwner := by
  rcases hl : leafTable K m r u with _ | _
  · rw [mmuGetPhys_of_none hl, pte_of_none hl]; rfl
  rw [mmuGetPhys_of_leafTable hl]
  show has (if has (pte K m r u) pteOwner then vmFlagOwner else 0) vmFlagOwner = _
  cases has (pte K m r u) pteOwner with
  | false | true => rfl

theorem ne_zero_of_owner (h : has w pteOwner = true) : w ≠ 0 := by
  rintro rfl
  cases h

theorem Tables.entry_of_slot (T : Tables K m lab) {r r' : Nat} {u u' : BitVec 64}
    (hr : IsRoot lab r) (hr' : IsRoot lab r') (hu : pte K m r u ≠ 0) (hu' : pte K m r' u' ≠ 0)
    (hslot : slot K r u = slot K r' u') :
    leafTable K m r u = leafTable K m r' u' ∧ getPagetableIndex u 1 = getPagetableIndex u' 1 := by
  rw [slot, Prod.mk.injEq] at hslot
  obtain ⟨hpath, hidx⟩ := tablePath_eq_iff.2 hslot.2
  rcases ht : leafTable K m r u with _ | _
  · exact absurd (pte_of_none ht) hu
  rcases ht' : leafTable K m r' u' with _ | _
  · exact absurd (pte_of_none ht') hu'
  have h₀ := T.forest.walk_place hr (length_tablePath K u).le ht
  have h₁ := T.forest.walk_place hr' (length_tablePath K u').le ht'
  rw [place_tablePath, hslot.1, hpath] at h₀
  rw [T.forest.lab_inj h₀ h₁]
  exact ⟨rfl, hidx⟩

section

variable (U : PteUpdate K r virt w t m lab m' lab')

include U

/-- **An update of an entry is seen in its slot**, and nowhere else. -/
theorem PteUpdate.pte_slot (hr : IsRoot lab r) {r₀ : Nat} (hr₀ : IsRoot lab r₀) (u : BitVec 64) :
    (slot K r₀ u = slot K r virt ∧ Mm.pte K m' r₀ u = w) ∨
      (Mm.pte K m' r₀ u = Mm.pte K m r₀ u ∧
      (slot K r₀ u = slot K r virt → Mm.pte K m r₀ u = 0)) := by
  have hpte := U.pte r₀ u hr₀
  split_ifs at hpte with hc
  · obtain ⟨hhome, hpath⟩ := U.lab_table hr hr₀ hc.1
    exact .inl ⟨Prod.ext hhome (tablePath_eq_iff.1 ⟨hpath, hc.2⟩), hpte⟩
  refine .inr ⟨hpte, fun hslot => ?_⟩
  rw [slot, Prod.mk.injEq] at hslot
  obtain ⟨hpath, hidx⟩ := tablePath_eq_iff.2 hslot.2
  rcases ht : leafTable K m r₀ u with _ | t₀
  · exact pte_of_none ht
  -- the table was there, so it is the one that was written to
  have ht' := U.stays r₀ u t₀ hr₀ ht
  have h₀ := U.tables.forest.walk_place (U.keep _ _ hr₀) (length_tablePath K u).le ht'
  have h₁ := U.tables.forest.walk_place (U.keep _ _ hr) (length_tablePath K virt).le U.table
  rw [place_tablePath, hslot.1, hpath] at h₀
  rw [U.tables.forest.lab_inj h₀ h₁] at ht'
  exact absurd ⟨ht', hidx⟩ hc

theorem PteUpdate.taken (h : Taken m lab f) : Taken m' lab' f where
  ok := h.ok
  used := by rw [U.free, h.used, Bool.false_and]
  bound := by rw [U.length]; exact h.bound
  noTable := by
    rcases hl : lab' f with _ | l
    · rfl
    have hfree := (U.fresh f l hl h.noTable).1
    rw [h.used] at hfree
    cases hfree

theorem PteUpdate.isRoot (hr : IsRoot lab r) (r₀ : Nat) : IsRoot lab' r₀ ↔ IsRoot lab r₀ := by
  refine ⟨fun h => ?_, U.keep r₀ _⟩
  rcases hl : lab r₀ with _ | l
  · have hr₀ : r₀ = r := (U.fresh r₀ _ h hl).2
    rw [hr₀, hr] at hl
    cases hl
  have hkeep := U.keep r₀ l hl
  rw [h] at hkeep
  rw [IsRoot, hl, hkeep]

/-! ## The invariant -/

end

/-- **Every frame has at most one owner.**  The frames `res` have none. -/
structure Owned (K : Nat) (res : Nat → Prop) (m : MmState) (lab : Labels) : Prop where
  tables : Tables K m lab
  reserved : ∀ f, res f → Taken m lab f
  owner : ∀ r u, IsRoot lab r → has (pte K m r u) pteOwner = true →
    Taken m lab (pteFrame (pte K m r u)) ∧ ¬ res (pteFrame (pte K m r u))
  unique : ∀ r u r' u', IsRoot lab r → IsRoot lab r' → has (pte K m r u) pteOwner = true →
    has (pte K m r' u') pteOwner = true → pteFrame (pte K m r u) = pteFrame (pte K m r' u') →
    slot K r u = slot K r' u'
  noDouble : m.pmm.doubleFree = false

/-- Nothing new is owned, and what was in use still is. -/
theorem Owned.transfer (h : Owned K res m lab) (T : Tables K m' lab')
    (htaken : ∀ f, Taken m lab f → Taken m' lab' f)
    (hpte : ∀ r u, IsRoot lab' r → has (pte K m' r u) pteOwner = true →
      ∃ r₁, IsRoot lab r₁ ∧ slot K r₁ u = slot K r u ∧ pte K m r₁ u = pte K m' r u)
    (hdouble : m'.pmm.doubleFree = m.pmm.doubleFree) : Owned K res m' lab' where
  tables := T
  reserved f hf := htaken f (h.reserved f hf)
  owner r u hr ho := by
    obtain ⟨r₁, hr₁, -, he⟩ := hpte r u hr ho
    rw [← he] at ho ⊢
    obtain ⟨htak, hres⟩ := h.owner r₁ u hr₁ ho
    exact ⟨htaken _ htak, hres⟩
  unique r u r' u' hr hr' ho ho' hf := by
    obtain ⟨r₁, hr₁, hs, he⟩ := hpte r u hr ho
    obtain ⟨r₂, hr₂, hs', he'⟩ := hpte r' u' hr' ho'
    rw [← he] at ho hf
    rw [← he'] at ho' hf
    rw [← hs, ← hs']
    exact h.unique r₁ u r₂ u' hr₁ hr₂ ho ho' hf
  noDouble := hdouble.trans h.noDouble

/-- **An entry is written.**  If it is to own a frame, nobody else does. -/
theorem Owned.update (h : Owned K res m lab) (hr : IsRoot lab r)
    (U : PteUpdate K r virt w t m lab m' lab')
    (hw : has w pteOwner = true → Taken m lab (pteFrame w) ∧ ¬ res (pteFrame w) ∧
      ∀ r₀ u, IsRoot lab r₀ → has (pte K m r₀ u) pteOwner = true →
        pteFrame (pte K m r₀ u) ≠ pteFrame w) : Owned K res m' lab' where
  tables := U.tables
  reserved f hf := U.taken (h.reserved f hf)
  owner r₀ u hr₀ ho := by
    rw [U.isRoot hr] at hr₀
    rcases U.pte_slot hr hr₀ u with ⟨-, he⟩ | ⟨he, -⟩
    · rw [he] at ho ⊢
      exact ⟨U.taken (hw ho).1, (hw ho).2.1⟩
    · rw [he] at ho ⊢
      obtain ⟨htak, hres⟩ := h.owner r₀ u hr₀ ho
      exact ⟨U.taken htak, hres⟩
  unique r₀ u r₁ u' hr₀ hr₁ ho ho' hf := by
    rw [U.isRoot hr] at hr₀ hr₁
    rcases U.pte_slot hr hr₀ u with ⟨hs, he⟩ | ⟨he, -⟩
    · rcases U.pte_slot hr hr₁ u' with ⟨hs', he'⟩ | ⟨he', -⟩
      · rw [hs, hs']
      rw [he] at ho hf
      rw [he'] at ho' hf
      exact absurd hf.symm ((hw ho).2.2 r₁ u' hr₁ ho')
    · rcases U.pte_slot hr hr₁ u' with ⟨hs', he'⟩ | ⟨he', -⟩
      · rw [he] at ho hf
        rw [he'] at ho' hf
        exact absurd hf ((hw ho').2.2 r₀ u hr₀ ho)
      · rw [he] at ho hf
        rw [he'] at ho' hf
        exact h.unique r₀ u r₁ u' hr₀ hr₁ ho ho' hf
  noDouble := U.doubleFree.trans h.noDouble

/-! ## What happens to a page -/

/-- What may be in an entry that was written: nothing, or a page that `Q` allows. -/
def Written (Q : BitVec 64 → BitVec 32 → Bool → Prop) (w : BitVec 64) : Prop :=
  w = 0 ∨ ∃ phys prot flags, w = pteOf phys prot flags ∧ Q phys prot (has flags vmFlagOwner)

/-- The invariant is kept; no root comes or goes, and the entries are the same or were written.
Only entries of the root `r` were. -/
structure Kept (K r : Nat) (res : Nat → Prop) (Q : BitVec 64 → BitVec 32 → Bool → Prop)
    (m : MmState) (lab : Labels) (m' : MmState) (lab' : Labels) : Prop where
  owned : Owned K res m' lab'
  roots : ∀ r₀, IsRoot lab' r₀ ↔ IsRoot lab r₀
  pte : ∀ r₀ u, IsRoot lab r₀ → pte K m' r₀ u = pte K m r₀ u ∨
    Written Q (pte K m' r₀ u) ∧ (slot K r₀ u).1 = r

theorem Kept.trans (h : Kept K r res Q m lab m₁ lab₁) (h' : Kept K r res Q m₁ lab₁ m₂ lab₂) :
    Kept K r res Q m lab m₂ lab₂ where
  owned := h'.owned
  roots r₀ := (h'.roots r₀).trans (h.roots r₀)
  pte r₀ u hr₀ := by
    rcases h'.pte r₀ u ((h.roots r₀).2 hr₀) with he | hw
    · rw [he]
      exact h.pte r₀ u hr₀
    · exact .inr hw

theorem Owned.update_kept (h : Owned K res m lab) (hr : IsRoot lab r)
    (hhome : (shape K).home r (getPagetableIndex virt 4) = r)
    (U : PteUpdate K r virt w t m lab m' lab')
    (hw : has w pteOwner = true → Taken m lab (pteFrame w) ∧ ¬ res (pteFrame w) ∧
      ∀ r₀ u, IsRoot lab r₀ → has (pte K m r₀ u) pteOwner = true →
        pteFrame (pte K m r₀ u) ≠ pteFrame w) (hQ :
        Written Q w) : Kept K r res Q m lab m' lab' where
  owned := h.update hr U hw
  roots := U.isRoot hr
  pte r₀ u hr₀ := by
    rcases U.pte_slot hr hr₀ u with ⟨hslot, he⟩ | ⟨he, -⟩
    · rw [he, hslot]
      exact .inr ⟨hQ, hhome⟩
    · exact .inl he

theorem Tables.mem_fill {f g : Nat} {l : Nat × List (Fin 512)} (hf : lab f = none)
    (hg : lab g = some l) (words : Fin 512 → BitVec 64) : update m.mem f words g = m.mem g := by
  refine update_of_ne (fun he => ?_) ..
  rw [he, hf] at hg
  cases hg

theorem Tables.pte_fill (T : Tables K m lab) (hf : lab f = none) (words : Fin 512 → BitVec 64)
    (pmm : Pmm) (hr : IsRoot lab r) (u : BitVec 64) :
    pte K { mem := update m.mem f words, pmm := pmm } r u = pte K m r u :=
  T.pte_congr (fun _ _ hg => mem_fill hf hg words) hr u

section

variable (h : Owned K res m lab)

include h

theorem Owned.fill (hf : lab f = none) (words : Fin 512 → BitVec 64) :
    Kept K r res Q m lab { m with mem := Function.update m.mem f words } lab := by
  have T : Tables K { m with mem := Function.update m.mem f words } lab :=
    ⟨h.tables.forest.congr fun g _ _ j hg _ => congrFun (Tables.mem_fill hf hg words) j,
    h.tables.frame,
      h.tables.pmmOk⟩
  have hpte := fun r u (hr : IsRoot lab r) => h.tables.pte_fill hf words m.pmm hr u
  exact ⟨h.transfer T (fun g hg => ⟨hg.ok, hg.used, hg.bound, hg.noTable⟩)
    (fun r u hr _ => ⟨r, hr, rfl, (hpte r u hr).symm⟩) rfl, fun r => Iff.rfl, fun r u hr =>
    .inl (hpte r u hr)⟩

theorem Owned.take (halloc : pmmAllocate m.pmm = .ok (phys, pmm)) :
    Kept K r res Q m lab { m with pmm := pmm } lab ∧ PhysOk phys ∧
      Taken { m with pmm := pmm } lab (frameOf phys) ∧ ¬ res (frameOf phys) ∧
      ∀ r u, IsRoot lab r → has (pte K m r u) pteOwner = true →
      pteFrame (pte K m r u) ≠ frameOf phys := by
  obtain ⟨n, rfl, hfree, hlen, hpmm, hlength, hdouble⟩ := pmmAllocate_spec halloc
  have hok : FrameOk n := h.tables.pmmOk n hfree
  rw [frameOf_frameAddr hok.2]
  have hfresh : ∀ f, Taken m lab f → f ≠ n := by
    intro f hf he
    rw [he] at hf
    rw [hf.used] at hfree
    cases hfree
  refine ⟨⟨h.transfer (h.tables.allocate halloc) (fun f hf => ?_)
    (fun r u hr _ => ⟨r, hr, rfl, rfl⟩) hdouble,
    fun r => Iff.rfl, fun r u _ => .inl rfl⟩, physOk_frameAddr hok.2, ⟨hok, ?_, ?_, ?_⟩, ?_, ?_⟩
  · exact ⟨hf.ok,
      by rw [hpmm, hf.used, Bool.false_and], by rw [hlength]; exact hf.bound, hf.noTable⟩
  · simp [hpmm]
  · rw [hlength]
    exact hlen
  · exact h.tables.lab_of_isFree hfree
  · exact fun hres => hfresh n (h.reserved n hres) rfl
  · exact fun r u hr ho => hfresh _ (h.owner r u hr ho).1

variable (hr : IsRoot lab r)

include hr

theorem Owned.tables_release (ho : has (pte K m r virt) pteOwner = true)
    (hfree : pmmFree m.pmm (pteAddress (pte K m r virt)) = .ok pmm) :
    Tables K { m with pmm := pmm } lab := by
  obtain ⟨hpmm, hlength, -⟩ := pmmFree_spec hfree
  change ∀ n, pmm.isFree n = (m.pmm.isFree n || decide (n = pteFrame (pte K m r virt))) at hpmm
  obtain ⟨htak, -⟩ := h.owner r virt hr ho
  refine ⟨h.tables.forest, fun f l hl => ?_, fun f hf => ?_⟩
  · obtain ⟨hfok, hused, hbound⟩ := h.tables.frame f l hl
    have hne : f ≠ pteFrame (pte K m r virt) := fun he => by
      rw [he, htak.noTable] at hl
      cases hl
    exact ⟨hfok, by rw [hpmm, hused, decide_eq_false hne,
      Bool.or_false], by rw [hlength]; exact hbound⟩
  · rw [hpmm, Bool.or_eq_true, decide_eq_true_iff] at hf
    rcases hf with hf | rfl
    · exact h.tables.pmmOk f hf
    · exact htak.ok

/-- **A page is given back**: its frame was in use, and its owner was the only one. -/
theorem Owned.release (hhome : (shape K).home r (getPagetableIndex virt 4) = r)
    (ho : has (mmuGetPhys m r virt).flags vmFlagOwner = true)
    (hfree : pmmFree m.pmm (mmuGetPhys m r virt).base = .ok pmm)
    (hunmap : mmuUnmap { m with pmm := pmm } r virt = .ok m') : Kept K r res Q m lab m' lab := by
  rw [owner_mmuGetPhys K] at ho
  rw [base_mmuGetPhys K] at hfree
  have T := h.tables_release hr ho hfree
  obtain ⟨hpmm, hlength, hdouble⟩ := pmmFree_spec hfree
  obtain ⟨htak, hres⟩ := h.owner r virt hr ho
  change ∀ n, pmm.isFree n = (m.pmm.isFree n || decide (n = pteFrame (pte K m r virt))) at hpmm
  change pmm.doubleFree = (m.pmm.doubleFree || m.pmm.isFree (pteFrame (pte K m r virt))) at hdouble
  rw [htak.used, Bool.or_false] at hdouble
  have hstill f (hf : Taken m lab f) (hne : f ≠ pteFrame (pte K m r virt)) : Taken
      { m with pmm := pmm } lab f := by
    exact ⟨hf.ok, by rw [hpmm, hf.used, decide_eq_false hne, Bool.or_false],
      by rw [hlength]; exact hf.bound, hf.noTable⟩
  obtain ⟨t, U, -⟩ := mmuUnmap_spec T hr hhome hunmap
  have hold r₀ u (hr₀ : IsRoot lab r₀) (ho₀ : has (pte K m' r₀ u) pteOwner = true) :
      pte K m' r₀ u = pte K m r₀ u ∧ pteFrame (pte K m r₀ u) ≠ pteFrame (pte K m r virt) := by
    rcases U.pte_slot hr hr₀ u with ⟨-, he⟩ | ⟨he, hslot⟩
    · rw [he] at ho₀
      cases ho₀
    replace he : pte K m' r₀ u = pte K m r₀ u := he
    refine ⟨he, fun hf => ?_⟩
    rw [he] at ho₀
    have hzero : pte K m r₀ u = 0 := hslot (h.unique r₀ u r virt hr₀ hr ho₀ ho hf)
    rw [hzero] at ho₀
    cases ho₀
  refine ⟨⟨U.tables, fun f hf => ?_, fun r₀ u hr₀ ho₀ => ?_,
    fun r₀ u r₁ u' hr₀ hr₁ ho₀ ho₁ hf => ?_, ?_⟩, fun r₀ => Iff.rfl, fun r₀ u hr₀ => ?_⟩
  · exact U.taken (hstill f (h.reserved f hf) fun he => hres (he ▸ hf))
  · obtain ⟨he, hne⟩ := hold r₀ u hr₀ ho₀
    rw [he] at ho₀ ⊢
    obtain ⟨htak₀, hres₀⟩ := h.owner r₀ u hr₀ ho₀
    exact ⟨U.taken (hstill _ htak₀ hne), hres₀⟩
  · obtain ⟨he, -⟩ := hold r₀ u hr₀ ho₀
    obtain ⟨he', -⟩ := hold r₁ u' hr₁ ho₁
    rw [he] at ho₀ hf
    rw [he'] at ho₁ hf
    exact h.unique r₀ u r₁ u' hr₀ hr₁ ho₀ ho₁ hf
  · exact U.doubleFree.trans (hdouble.trans h.noDouble)
  · rcases U.pte_slot hr hr₀ u with ⟨hslot, he⟩ | ⟨he, -⟩
    · rw [hslot]
      exact .inr ⟨.inl he, hhome⟩
    · exact .inl he

section

variable (hV : ∀ v, V v → (shape K).home r (getPagetableIndex v 4) = r)

include hV

/-- **Whatever happens to a page keeps the invariant.** -/
theorem Owned.pageStep (hstep : PageStep r V Q m m') :
    ∃ lab', Kept K r res Q m lab m' lab' := by
  cases hstep with
  | share hv hQ hflags hmap =>
    obtain ⟨t, lab', U⟩ := mmuMap_spec h.tables hr (hV _ hv) hmap
    refine ⟨lab', h.update_kept hr (hV _ hv) U (fun hw => ?_)
      (.inr ⟨_, _, _, rfl, by rwa [hflags]⟩)⟩
    rw [has_pteOf_owner, hflags] at hw
    cases hw
  | own words words' hv hQ hflags halloc hmap =>
    rename_i m₂ phys virt prot flags pmm
    obtain ⟨htake, hphys, htak, hres, hfresh⟩ := h.take (r := r) (Q := Q) halloc
    have hfill : Kept K r res Q { m with pmm := pmm } lab
        { mem := Function.update m.mem (frameOf phys) words, pmm := pmm } lab :=
      htake.owned.fill htak.noTable words
    have h₁ := htake.trans hfill
    obtain ⟨t, lab', U⟩ := mmuMap_spec h₁.owned.tables hr (hV _ hv) hmap
    have htak₁ : Taken { mem := Function.update m.mem (frameOf phys) words, pmm := pmm } lab
        (frameOf phys) := ⟨htak.ok, htak.used, htak.bound, htak.noTable⟩
    have hmapped :=
      h₁.owned.update_kept hr (hV _ hv) U (fun _ => ?_) (.inr ⟨_, _, _, rfl, by rwa [hflags]⟩)
    · exact ⟨lab', (h₁.trans hmapped).trans (hmapped.owned.fill (U.taken htak₁).noTable words')⟩
    rw [pteFrame_pteOf _ _ hphys]
    refine ⟨htak₁, hres, fun r₀ u hr₀ ho => ?_⟩
    rw [h.tables.pte_fill htak.noTable words pmm hr₀] at ho ⊢
    exact hfresh r₀ u hr₀ ho
  | take halloc => exact ⟨lab, (h.take halloc).1⟩
  | unmap hv hunmap =>
    obtain ⟨t, U, -⟩ := mmuUnmap_spec h.tables hr (hV _ hv) hunmap
    exact ⟨lab, h.update_kept hr (hV _ hv) U (fun hw => absurd hw (by decide)) (.inl rfl)⟩
  | release hv ho hfree hunmap => exact ⟨lab, h.release hr (hV _ hv) ho hfree hunmap⟩

theorem Owned.pageSteps (hsteps : PageSteps r V Q m m') :
    ∃ lab', Kept K r res Q m lab m' lab' := by
  induction hsteps with
  | refl => exact ⟨lab, h, fun _ => Iff.rfl, fun _ _ _ => .inl rfl⟩
  | tail _ hstep ih =>
    obtain ⟨lab₁, hk⟩ := ih
    obtain ⟨lab₂, hk'⟩ := hk.owned.pageStep ((hk.roots r).2 hr) hV hstep
    exact ⟨lab₂, hk.trans hk'⟩

end

/-! ## What happens to a root -/

end

theorem NewRoot.pte_new (N : NewRoot K r m lab m') (T : Tables K m lab) (hK : IsRoot lab K)
    (u : BitVec 64) : Mm.pte K m' r u = if Upper u then Mm.pte K m K u else 0 := by
  have hrow := N.row (getPagetableIndex u 4)
  split_ifs with hup
  · rw [Upper] at hup
    rw [if_pos hup, ← N.agree T hK] at hrow
    have hwalk : Mm.leafTable K m' r u = Mm.leafTable K m' K u := by
      simp [Mm.leafTable, tablePath, walk_cons, hrow]
    rw [← N.pte T hK u, Mm.pte, Mm.pte, entry, entry]
    rw [Mm.leafTable, Mm.leafTable] at hwalk
    rw [hwalk]
  · rw [Upper] at hup
    rw [if_neg hup] at hrow
    exact pte_of_zero hrow

theorem Owned.newRoot (h : Owned K res m lab) (hK : IsRoot lab K) (N : NewRoot K r m lab m') :
    Owned K res m' (Function.update lab r (some (r, []))) := by
  refine h.transfer N.tables (fun f hf => ?_) (fun r₀ u hr₀ ho => ?_) N.doubleFree
  · have hne : f ≠ r := fun he => by
      have hused := hf.used
      rw [he, N.isFree] at hused
      cases hused
    exact ⟨hf.ok, by rw [N.free, hf.used, Bool.false_and], by rw [N.length]; exact hf.bound,
      by rw [update_of_ne hne]; exact hf.noTable⟩
  · by_cases hne : r₀ = r
    · rw [hne, N.pte_new h.tables hK] at ho ⊢
      split_ifs at ho with hup
      · refine ⟨K, hK, ?_, (if_pos hup).symm⟩
        rw [slot, slot, home_of_le K _ hup, home_of_le K _ hup]
      · cases ho
    · rw [IsRoot, update_of_ne hne] at hr₀
      exact ⟨r₀, hr₀, rfl, (N.pte h.tables hr₀ u).symm⟩

/-- **A root that is destroyed** leaves the frames of the others alone. -/
theorem Owned.destroyed (h : Owned K res m lab) (D : Destroyed K r m lab m' lab') :
    Owned K res m' lab' := by
  refine h.transfer D.tables (fun f hf => ?_) (fun r₀ u hr₀ ho => ?_) D.doubleFree
  · have hnone : lab' f = none := by
      rcases hl : lab' f with _ | l
      · rfl
      have hlab := D.old f l hl
      rw [hf.noTable] at hlab
      cases hlab
    exact ⟨hf.ok, by rw [D.free, hf.used, hf.noTable]; rfl, by rw [D.length]; exact hf.bound, hnone⟩
  · obtain ⟨hr₁, hne⟩ := (D.isRoot r₀).1 hr₀
    exact ⟨r₀, hr₁, rfl, (D.pte r₀ u hr₁ hne).symm⟩

end Monolith.Mm
