import Monolith.Mm.Destroy
import Monolith.Mm.Translation

/-!
# The kernel half of the address spaces

Every user root gets the upper half of the kernel root by `mmu_clone`, as `vm_userspace_new` makes
it: the 256 words are copied, so the tables below them are shared.  Here is the kernel root with any
number of user roots under any sequence of mappings, and of roots that come and go.

`kernelHalf_coherent` says that a user root and the kernel root agree on every upper-half address
whose PML4 entry was there when the root was made, and that nothing done to user roots changes a
translation of the kernel.  `mmuDestroy_gives_back` is about one user root from beginning to end.
-/

namespace Monolith.Mm

open Function Fallible TableForest Transition Option List

/-! ## The system -/

/-- The kernel root, the user roots, and the memory they are in. -/
structure HalfSys where
  m : MmState
  kernel : Nat
  /-- The user roots that have not been destroyed. -/
  users : List Nat
  /-- History: which words of the kernel root were present when a user root was made. -/
  shared : Nat → Fin 512 → Bool

inductive HalfAction where
  /-- The page tables of `vm_userspace_new`. -/
  | newUser
  /-- `mmu_map` on the kernel root, in the upper half. -/
  | kernelMap (phys virt : BitVec 64) (prot flags : BitVec 32)
  /-- `mmu_unmap` on the kernel root, in the upper half. -/
  | kernelUnmap (virt : BitVec 64)
  /-- `mmu_map` on a user root, in the lower half. -/
  | userMap (r : Nat) (phys virt : BitVec 64) (prot flags : BitVec 32)
  /-- `mmu_unmap` on a user root, in the lower half. -/
  | userUnmap (r : Nat) (virt : BitVec 64)
  /-- `mmu_destroy` of a user root. -/
  | destroy (r : Nat)

def Upper (virt : BitVec 64) : Prop := 256 ≤ (getPagetableIndex virt 4).val

instance (virt : BitVec 64) : Decidable (Upper virt) := inferInstanceAs (Decidable (256 ≤ _))

def HalfSys.step (s : HalfSys) : HalfAction → Option HalfSys
  | .newUser =>
    (newUserRoot s.m s.kernel).toOption.map fun r =>
      { s with
        m := r.2
        users := r.1 :: s.users
        shared := Function.update s.shared r.1 fun i => has (s.m.mem s.kernel i) ptePresent }
  | .kernelMap phys virt prot flags =>
    if Upper virt then
      (mmuMap s.m s.kernel phys virt prot flags).toOption.map fun m => { s with m := m }
    else none
  | .kernelUnmap virt =>
    if Upper virt then (mmuUnmap s.m s.kernel virt).toOption.map fun m => { s with m := m }
    else none
  | .userMap r phys virt prot flags =>
    if r ∈ s.users ∧ ¬ Upper virt then
      (mmuMap s.m r phys virt prot flags).toOption.map fun m => { s with m := m }
    else none
  | .userUnmap r virt =>
    if r ∈ s.users ∧ ¬ Upper virt then
      (mmuUnmap s.m r virt).toOption.map fun m => { s with m := m }
    else none
  | .destroy r =>
    if r ∈ s.users then
      (mmuDestroy s.m r).toOption.map fun m => { s with m := m, users := s.users.erase r }
    else none

/-- What is done to user roots only. -/
def HalfAction.ofUser : HalfAction → Prop
  | .kernelMap .. | .kernelUnmap _ => False
  | _ => True

/-- The kernel root after `mmu_new_pgdir`, and no user roots. -/
def HalfSys.boot (m : MmState) (kernel : Nat) : HalfSys where
  m := m
  kernel := kernel
  users := []
  shared _ _ := false

/-! ## The invariant -/

/-- The roots are in order, and a user root has the words of the kernel root that were there when it
was made. -/
structure HalfSys.Inv (s : HalfSys) (lab : Labels) : Prop where
  tables : Tables s.kernel s.m lab
  kernel : IsRoot lab s.kernel
  user : ∀ r ∈ s.users, IsRoot lab r ∧ r ≠ s.kernel
  nodup : s.users.Nodup
  shared : ∀ r ∈ s.users, ∀ i : Fin 512, 256 ≤ i.val → s.shared r i = true →
    s.m.mem r i = s.m.mem s.kernel i ∧ pteChild (s.m.mem s.kernel i) ≠ none

variable {m m' : MmState} {r K r₀ : Nat} {virt : BitVec 64} {lab : Labels} {s s' : HalfSys}
  {a : HalfAction} {w : BitVec 64} {t : Nat} {lab' : Labels}

theorem mmuGetPhys_eq_of_pte (ht : leafTable K m' r virt = leafTable K m r virt)
    (hp : pte K m' r virt = pte K m r virt) : mmuGetPhys m' r virt = mmuGetPhys m r virt := by
  cases hl : leafTable K m r virt with
  | none => rw [mmuGetPhys_of_none hl, mmuGetPhys_of_none (ht.trans hl)]
  | some t => rw [mmuGetPhys_of_leafTable hl, mmuGetPhys_of_leafTable (ht.trans hl), hp]

/-! ## A new user root -/

/-- What `vm_userspace_new` does to the page tables. -/
structure NewRoot (K r : Nat) (m : MmState) (lab : Labels) (m' : MmState) : Prop where
  isFree : m.pmm.isFree r = true
  ok : FrameOk r
  tables : Tables K m' (Function.update lab r (some (r, [])))
  free : ∀ n, m'.pmm.isFree n = (m.pmm.isFree n && decide (n ≠ r))
  row : ∀ i, m'.mem r i = if 256 ≤ i.val then m.mem K i else 0
  mem : ∀ f, f ≠ r → m'.mem f = m.mem f
  length : m'.pmm.bitmap.length = m.pmm.bitmap.length
  doubleFree : m'.pmm.doubleFree = m.pmm.doubleFree

theorem newUserRoot_spec (T : Tables K m lab) (hK : IsRoot lab K)
    (h : newUserRoot m K = .ok (r, m')) : NewRoot K r m lab m' := by
  simp only [newUserRoot, mmuNewPgdir, bind_eq_ok, pure_eq_ok, Prod.mk.injEq] at h
  obtain ⟨⟨root, m₁⟩, ⟨⟨phys, pmm⟩, halloc, rfl, rfl⟩, rfl, rfl⟩ := h
  have hrow : ∀ j : Fin 512, (if 256 ≤ j.val then m.mem K j else 0) = (0 : BitVec 64) ∨
      ∃ r', IsRoot lab r' ∧ (if 256 ≤ j.val then m.mem K j else 0) = m.mem r' j ∧
        (shape K).home (frameOf phys) j = (shape K).home r' j := by
    intro j
    by_cases hj : 256 ≤ j.val
    · exact .inr ⟨K, hK, if_pos hj, by rw [home_of_le K _ hj, home_of_le K _ hj]⟩
    · exact .inl (if_neg hj)
  obtain ⟨hfree, hok, hpmm, hdouble, hlength, T'⟩ := T.plant halloc hrow
  have hKr : K ≠ frameOf phys := fun he => by
    have hlab := T.lab_of_isFree hfree
    rw [← he, hK] at hlab
    cases hlab
  -- the copy reads the kernel root, which is another table
  have hmem : (mmuClone { mem := update m.mem (frameOf phys) fun _ => 0, pmm := pmm } K
      (frameOf phys) 0).mem = update m.mem (frameOf phys) fun i =>
        if 256 ≤ i.val then m.mem K i else 0 := by
    show update (update m.mem (frameOf phys) fun _ => 0) (frameOf phys)
      (fun i => if 256 ≤ i.val then (update m.mem (frameOf phys) fun _ => 0) K i
        else (update m.mem (frameOf phys) fun _ => 0) (frameOf phys) i) = _
    rw [update_idem, update_of_ne hKr, update_self]
  refine ⟨hfree, hok, ?_, hpmm, fun i => ?_, fun f hf => ?_, hlength, hdouble⟩
  · have hstate : mmuClone { mem := update m.mem (frameOf phys) fun _ => 0, pmm := pmm } K
        (frameOf phys) 0 = { mem := update m.mem (frameOf phys) fun i =>
          if 256 ≤ i.val then m.mem K i else 0, pmm := pmm } := by
      rw [← hmem]
      rfl
    rwa [hstate]
  · rw [hmem, update_self]
  · rw [hmem, update_of_ne hf]

section

variable (N : NewRoot K r m lab m')

include N

variable (T : Tables K m lab)

include T

theorem NewRoot.agree {f : Nat} {l : Nat × List (Fin 512)} (hf : lab f = some l) :
    m'.mem f = m.mem f := by
  refine N.mem f fun he => ?_
  have hlab := T.lab_of_isFree N.isFree
  simp [← he, hf] at hlab

theorem NewRoot.leafTable (hr₀ : IsRoot lab r₀) (u : BitVec 64) :
    leafTable K m' r₀ u = leafTable K m r₀ u :=
  T.leafTable_congr (fun _ _ => N.agree T) hr₀ u

theorem NewRoot.pte (hr₀ : IsRoot lab r₀) (u : BitVec 64) : pte K m' r₀ u = pte K m r₀ u :=
  T.pte_congr (fun _ _ => N.agree T) hr₀ u

theorem NewRoot.isRoot (h : IsRoot lab r₀) : IsRoot (update lab r (some (r, []))) r₀ ∧ r₀ ≠ r := by
  have hne : r₀ ≠ r := fun he => by
    have hlab := T.lab_of_isFree N.isFree
    rw [← he, h] at hlab
    cases hlab
  exact ⟨by rw [IsRoot, update_of_ne hne]; exact h, hne⟩

/-! ## Every call keeps the invariant -/

end

section step

variable {s : HalfSys} {lab lab' : Labels} {r : Nat} {m' : MmState}

/-- The words that are shared stay, whichever root is written to. -/
theorem HalfSys.Inv.update (h : s.Inv lab)
    (U : PteUpdate s.kernel r virt w t s.m lab m' lab') : HalfSys.Inv { s with m := m' } lab' where
  tables := U.tables
  kernel := U.keep _ _ h.kernel
  user r₀ hr₀ := ⟨U.keep _ _ (h.user r₀ hr₀).1, (h.user r₀ hr₀).2⟩
  nodup := h.nodup
  shared r₀ hr₀ i hi hs := by
    obtain ⟨hword, hchild⟩ := h.shared r₀ hr₀ i hi hs
    have hk : m'.mem s.kernel i = s.m.mem s.kernel i := U.row _ i h.kernel fun _ => hchild
    have hu : m'.mem r₀ i = s.m.mem r₀ i :=
      U.row _ i (h.user r₀ hr₀).1 fun _ => by rw [hword]; exact hchild
    rw [hk, hu]
    exact ⟨hword, hchild⟩

theorem HalfSys.Inv.newUser (h : s.Inv lab) (N : NewRoot s.kernel r s.m lab m') :
    HalfSys.Inv { s with
        m := m'
        users := r :: s.users
        shared := Function.update s.shared r fun i => has (s.m.mem s.kernel i) ptePresent }
      (Function.update lab r (some (r, []))) := by
  have hne : ∀ r₀, IsRoot lab r₀ → r₀ ≠ r := fun _ hr₀ => (N.isRoot h.tables hr₀).2
  have hroot : ∀ r₀, IsRoot lab r₀ → IsRoot (Function.update lab r (some (r, []))) r₀ :=
    fun _ hr₀ => (N.isRoot h.tables hr₀).1
  refine ⟨N.tables, hroot _ h.kernel, fun r₀ hr₀ => ?_, ?_, fun r₀ hr₀ i hi hs => ?_⟩
  · rcases mem_cons.1 hr₀ with rfl | hr₀
    · exact ⟨Function.update_self .., (hne _ h.kernel).symm⟩
    · exact ⟨hroot r₀ (h.user r₀ hr₀).1, (h.user r₀ hr₀).2⟩
  · exact nodup_cons.2 ⟨fun hr => hne r (h.user r hr).1 rfl, h.nodup⟩
  · replace hs : Function.update s.shared r (fun i => has (s.m.mem s.kernel i) ptePresent) r₀ i =
        true := hs
    rw [N.agree h.tables h.kernel]
    rcases mem_cons.1 hr₀ with rfl | hr₀
    · rw [Function.update_self] at hs
      refine ⟨by rw [N.row, if_pos hi], ?_⟩
      -- a word of the kernel root that is not zero leads to a table
      rcases h.tables.forest.full _ _ [] i h.kernel (by decide : 0 < 3) with hzero | hchild
      · rw [show s.m.mem s.kernel i = 0 from hzero] at hs
        cases hs
      · obtain ⟨g, hg⟩ := hchild
        rw [show pteChild (s.m.mem s.kernel i) = some g from hg]
        exact some_ne_none g
    · rw [Function.update_of_ne (hne r₀ (h.user r₀ hr₀).1)] at hs
      rw [N.agree h.tables (h.user r₀ hr₀).1]
      exact h.shared r₀ hr₀ i hi hs

theorem HalfSys.Inv.destroy (h : s.Inv lab) (hr : r ∈ s.users)
    (D : Destroyed s.kernel r s.m lab m' lab') :
    HalfSys.Inv { s with m := m', users := s.users.erase r } lab' := by
  have hroot : ∀ r₀, IsRoot lab r₀ → r₀ ≠ r → IsRoot lab' r₀ :=
    fun r₀ hr₀ hne => (D.isRoot r₀).2 ⟨hr₀, hne⟩
  have hkr : s.kernel ≠ r := (h.user r hr).2.symm
  have hmem : ∀ r₀ ∈ s.users.erase r, r₀ ∈ s.users ∧ r₀ ≠ r := fun r₀ hr₀ =>
    ⟨mem_of_mem_erase hr₀, fun he => h.nodup.not_mem_erase (he ▸ hr₀)⟩
  refine ⟨D.tables, hroot _ h.kernel hkr, fun r₀ hr₀ => ?_, h.nodup.erase r,
    fun r₀ hr₀ i hi hs => ?_⟩
  · obtain ⟨hmem₀, hne⟩ := hmem r₀ hr₀
    exact ⟨hroot r₀ (h.user r₀ hmem₀).1 hne, (h.user r₀ hmem₀).2⟩
  · obtain ⟨hmem₀, hne⟩ := hmem r₀ hr₀
    rw [D.row _ i h.kernel hkr, D.row _ i (h.user r₀ hmem₀).1 hne]
    exact h.shared r₀ hmem₀ i hi hs

end step

/-- What a call does, said once. -/
inductive HalfSys.Effect (s : HalfSys) (lab : Labels) : HalfAction → HalfSys → Labels → Prop where
  | newUser {r : Nat} {m' : MmState} : NewRoot s.kernel r s.m lab m' →
      Effect s lab .newUser
        { s with
          m := m'
          users := r :: s.users
          shared := Function.update s.shared r fun i => has (s.m.mem s.kernel i) ptePresent }
        (Function.update lab r (some (r, [])))
  /-- An entry of the kernel root is written. -/
  | kernel {a : HalfAction} {virt w : BitVec 64} {t : Nat} {m' : MmState} {lab' : Labels} :
      ¬ a.ofUser → PteUpdate s.kernel s.kernel virt w t s.m lab m' lab' →
      Effect s lab a { s with m := m' } lab'
  /-- An entry of a user root is written, in its own half. -/
  | user {a : HalfAction} {r : Nat} {virt w : BitVec 64} {t : Nat} {m' : MmState} {lab' : Labels} :
      r ∈ s.users → (shape s.kernel).home r (getPagetableIndex virt 4) = r →
      PteUpdate s.kernel r virt w t s.m lab m' lab' → Effect s lab a { s with m := m' } lab'
  | destroy {r : Nat} {m' : MmState} {lab' : Labels} : r ∈ s.users →
      Destroyed s.kernel r s.m lab m' lab' →
      Effect s lab (.destroy r) { s with m := m', users := s.users.erase r } lab'

theorem HalfSys.step_effect (h : s.Inv lab) (hstep : s.step a = some s') :
    ∃ lab', s.Effect lab a s' lab' := by
  cases a with
  | newUser =>
    obtain ⟨⟨r, m'⟩, hr, rfl⟩ := map_toOption_eq_some.1 hstep
    exact ⟨_, .newUser (newUserRoot_spec h.tables h.kernel hr)⟩
  | kernelMap phys virt prot flags =>
    obtain ⟨hup, m', hm, rfl⟩ := ite_map_toOption_eq_some.1 hstep
    obtain ⟨t, lab', U⟩ := mmuMap_spec h.tables h.kernel (home_of_le _ _ hup) hm
    exact ⟨lab', .kernel id U⟩
  | kernelUnmap virt =>
    obtain ⟨hup, m', hm, rfl⟩ := ite_map_toOption_eq_some.1 hstep
    obtain ⟨t, U, -⟩ := mmuUnmap_spec h.tables h.kernel (home_of_le _ _ hup) hm
    exact ⟨lab, .kernel id U⟩
  | userMap r phys virt prot flags =>
    obtain ⟨⟨hr, hup⟩, m', hm, rfl⟩ := ite_map_toOption_eq_some.1 hstep
    have hhome := home_of_lt s.kernel r (lt_of_not_ge hup)
    obtain ⟨t, lab', U⟩ := mmuMap_spec h.tables (h.user r hr).1 hhome hm
    exact ⟨lab', .user hr hhome U⟩
  | userUnmap r virt =>
    obtain ⟨⟨hr, hup⟩, m', hm, rfl⟩ := ite_map_toOption_eq_some.1 hstep
    have hhome := home_of_lt s.kernel r (lt_of_not_ge hup)
    obtain ⟨t, U, -⟩ := mmuUnmap_spec h.tables (h.user r hr).1 hhome hm
    exact ⟨lab, .user hr hhome U⟩
  | destroy r =>
    obtain ⟨hr, m', hm, rfl⟩ := ite_map_toOption_eq_some.1 hstep
    obtain ⟨lab', D⟩ := mmuDestroy_spec h.tables (h.user r hr).1 (h.user r hr).2 hm
    exact ⟨lab', .destroy hr D⟩

theorem HalfSys.Effect.inv (h : s.Inv lab) (E : s.Effect lab a s' lab') : s'.Inv lab' := by
  cases E with
  | newUser N => exact h.newUser N
  | kernel _ U | user _ _ U => exact h.update U
  | destroy hr D => exact h.destroy hr D

/-- **The user roots do not reach the kernel's translations**: not by being made, not by a mapping,
and not by being destroyed. -/
theorem HalfSys.Effect.kernel_phys (h : s.Inv lab) (E : s.Effect lab a s' lab') (hu : a.ofUser)
    (virt : BitVec 64) : mmuGetPhys s'.m s.kernel virt = mmuGetPhys s.m s.kernel virt := by
  have hhome : (shape s.kernel).home s.kernel (getPagetableIndex virt 4) = s.kernel := ite_self _
  cases E with
  | newUser N =>
    exact mmuGetPhys_eq_of_pte (N.leafTable h.tables h.kernel virt) (N.pte h.tables h.kernel virt)
  | kernel hnot _ => exact absurd hu hnot
  | @user _ r _ _ _ m' lab' hr hr' U =>
    have hne : (shape s.kernel).home s.kernel (getPagetableIndex virt 4) ≠ r :=
      hhome.trans_ne (h.user r hr).2.symm
    exact mmuGetPhys_eq_of_pte (U.other _ virt h.kernel hne)
      (U.pte_other (h.user r hr).1 hr' h.kernel hne)
  | destroy hr D =>
    have hne := (h.user _ hr).2.symm
    exact mmuGetPhys_eq_of_pte (D.leafTable _ virt h.kernel hne) (D.pte _ virt h.kernel hne)

/-! ## Every run -/

theorem HalfSys.inv_boot {m₀ : MmState} (hpmm : m₀.pmm.Ok) (hboot : mmuNewPgdir m₀ = .ok (K, m)) :
    ∃ lab, (HalfSys.boot m K).Inv lab := by
  simp only [mmuNewPgdir, bind_eq_ok, pure_eq_ok, Prod.mk.injEq] at hboot
  obtain ⟨⟨phys, pmm⟩, halloc, rfl, rfl⟩ := hboot
  obtain ⟨-, -, -, -, -, T⟩ :=
    @Tables.plant (frameOf phys) m₀ _ phys (Tables.empty (frameOf phys) hpmm)
    pmm halloc (fun _ => 0) fun _ => .inl rfl
  exact ⟨_, T, update_self .., nofun, nodup_nil, nofun⟩

theorem HalfSys.inv_run {as : List HalfAction} (h : ∃ lab, s.Inv lab)
    (hrun : run HalfSys.step s as = some s') : ∃ lab, s'.Inv lab := by
  refine run_invariant (I := fun s => ∃ lab, s.Inv lab) (fun s a t ⟨lab, hinv⟩ hst => ?_) h hrun
  obtain ⟨lab', E⟩ := s.step_effect hinv hst
  exact ⟨lab', E.inv hinv⟩

/-- **The kernel half is shared coherently.**  After any run, a user root and the kernel root
translate alike every upper-half address whose PML4 entry was present when the root was made; and no
call on a user root changes any translation of the kernel. -/
theorem kernelHalf_coherent {m₀ m : MmState} {K : Nat} (hpmm : m₀.pmm.Ok)
    (hboot : mmuNewPgdir m₀ = .ok (K, m)) {as : List HalfAction} {s : HalfSys}
    (hrun : run HalfSys.step (HalfSys.boot m K) as = some s) :
    (∀ r ∈ s.users, ∀ virt, Upper virt → s.shared r (getPagetableIndex virt 4) = true →
      mmuGetPhys s.m r virt = mmuGetPhys s.m s.kernel virt) ∧ ∀ a s', a.ofUser →
      s.step a = some s' → ∀ virt,
      mmuGetPhys s'.m s.kernel virt = mmuGetPhys s.m s.kernel virt := by
  obtain ⟨lab, hinv⟩ := HalfSys.inv_run (HalfSys.inv_boot hpmm hboot) hrun
  refine ⟨fun r hr virt hup hs => ?_, fun a s' hu hstep virt => ?_⟩
  · -- where the words are the same, so are the translations
    rw [mmuGetPhys, mmuGetPhys, getPte, (hinv.shared r hr _ hup hs).1, ← getPte]
  · obtain ⟨lab', E⟩ := s.step_effect hinv hstep
    exact E.kernel_phys hinv hu virt

/-- A kernel page is mapped, a user root is made, and a page is mapped there. -/
def kernelThenUser : List HalfAction :=
  [.kernelMap 0x5000 0xffff800000000000 3 0, .newUser, .userMap 5 0x6000 0x400000 9 0]

theorem kernelHalf_coherent_kernelThenUser :
    ∃ m s, mmuNewPgdir sixteenFrames = .ok (1, m) ∧
    run HalfSys.step (HalfSys.boot m 1) kernelThenUser = some s ∧
      mmuGetPhys s.m 1 0xffff800000000000 =
      { base := 0x5000, prot := 3, flags := 0, present := true } ∧
      mmuGetPhys s.m 5 0xffff800000000000 = mmuGetPhys s.m 1 0xffff800000000000 := by
  refine ⟨_, _, rfl, rfl, ?_, ?_⟩
  · decide
  exact (kernelHalf_coherent sixteenFrames_ok rfl
    (show run HalfSys.step _ kernelThenUser = some _ from rfl)).1 5 (by decide) _ (by decide)
    (by decide)

/-! ## What `mmu_destroy` gives back -/

/-- `mmu_map` or `mmu_unmap` on the user root `r`. -/
def HalfAction.On (r : Nat) : HalfAction → Prop
  | .userMap r' .. => r' = r
  | .userUnmap r' _ => r' = r
  | _ => False

/-- Since `s₀` frames have been taken for the tables of `r`, and for nothing else. -/
structure HalfSys.Grown (s₀ : HalfSys) (r : Nat) (s : HalfSys) (lab : Labels) : Prop where
  inv : s.Inv lab
  mem : r ∈ s.users
  free : ∀ n, s₀.m.pmm.isFree n = true ↔ s.m.pmm.isFree n = true ∨ ∃ p, lab n = some (r, p)
  doubleFree : s.m.pmm.doubleFree = s₀.m.pmm.doubleFree

section grown

variable {s₀ s s' : HalfSys} {lab lab' : Labels} {r : Nat} {m' : MmState}

theorem HalfSys.Grown.update (h : s₀.Grown r s lab)
    (U : PteUpdate s.kernel r virt w t s.m lab m' lab') : s₀.Grown r { s with m := m' } lab' where
  inv := h.inv.update U
  mem := h.mem
  free n := by
    rw [h.free, U.free, Bool.and_eq_true]
    constructor
    · rintro (hfree | ⟨p, hp⟩)
      · cases hl : lab' n with
        | none => exact .inl ⟨hfree, rfl⟩
        | some l =>
          exact .inr ⟨l.2, by rw [← (U.fresh n l hl (h.inv.tables.lab_of_isFree hfree)).2]⟩
      · exact .inr ⟨p, U.keep n _ hp⟩
    · rintro (hfree | ⟨p, hp⟩)
      · exact .inl hfree.1
      cases hl : lab n with
      | none => exact .inl (U.fresh n _ hp hl).1
      | some l => exact .inr ⟨p, (U.keep n l hl).symm.trans hp⟩
  doubleFree := U.doubleFree.trans h.doubleFree

theorem HalfSys.Grown.step (h : s₀.Grown r s lab) (ha : a.On r) (hstep : s.step a = some s') :
    ∃ lab', s₀.Grown r s' lab' := by
  have hroot := (h.inv.user r h.mem).1
  cases a with
  | userMap r' phys virt prot flags =>
    obtain rfl : r' = r := ha
    obtain ⟨⟨-, hup⟩, m', hm, rfl⟩ := ite_map_toOption_eq_some.1 hstep
    obtain ⟨t, lab', U⟩ := mmuMap_spec h.inv.tables hroot (home_of_lt _ _ (lt_of_not_ge hup)) hm
    exact ⟨lab', h.update U⟩
  | userUnmap r' virt =>
    obtain rfl : r' = r := ha
    obtain ⟨⟨-, hup⟩, m', hm, rfl⟩ := ite_map_toOption_eq_some.1 hstep
    obtain ⟨t, U, -⟩ := mmuUnmap_spec h.inv.tables hroot (home_of_lt _ _ (lt_of_not_ge hup)) hm
    exact ⟨lab, h.update U⟩
  | _ => exact ha.elim

theorem NewRoot.grown (N : NewRoot s.kernel r s.m lab m') (h : s.Inv lab) :
    s.Grown r { s with
        m := m'
        users := r :: s.users
        shared := Function.update s.shared r fun i => has (s.m.mem s.kernel i) ptePresent }
      (Function.update lab r (some (r, []))) where
  inv := h.newUser N
  mem := mem_cons_self
  free n := by
    rw [N.free]
    rcases eq_or_ne n r with rfl | hne
    · simp [N.isFree]
    -- no other table can be of a root that was not there
    have hlab : ∀ p, lab n ≠ some (r, p) := fun p hp => by
      have hr := h.tables.forest.root_of_lab hp
      simp [h.tables.lab_of_isFree N.isFree] at hr
    simp [hne, hlab]
  doubleFree := N.doubleFree

end grown

/-- **`mmu_destroy` gives back the tables of its root**, and nothing else: when a user root is made,
any sequence of mappings is made and taken back in its own half, and the root is destroyed, then the
frames that are free are those that were free before.  None of them was given back twice. -/
theorem mmuDestroy_gives_back {m₀ m : MmState} {K : Nat} (hpmm : m₀.pmm.Ok)
    (hboot : mmuNewPgdir m₀ = .ok (K, m)) {as : List HalfAction} {s₀ s₁ s₂ : HalfSys}
    (hrun : run HalfSys.step (HalfSys.boot m K) as = some s₀) (hclean : s₀.m.pmm.doubleFree = false)
    (hnew : s₀.step .newUser = some s₁) {r : Nat} (hr : s₁.users = r :: s₀.users)
    {calls : List HalfAction} (hcalls : Along HalfSys.step (fun _ a => a.On r) s₁ calls)
    (hrun' : run HalfSys.step s₁ calls = some s₂) :
    ∃ s₃, s₂.step (.destroy r) = some s₃ ∧ s₃.m.pmm.doubleFree = false ∧
      ∀ n, s₃.m.pmm.isFree n = s₀.m.pmm.isFree n := by
  obtain ⟨lab₀, hinv⟩ := HalfSys.inv_run (HalfSys.inv_boot hpmm hboot) hrun
  obtain ⟨⟨r', m'⟩, hroot, rfl⟩ := map_eq_some_iff.1 hnew
  obtain rfl : r' = r := (cons.inj hr).1
  have N := newUserRoot_spec hinv.tables hinv.kernel (toOption_eq_some.1 hroot)
  obtain ⟨lab, h⟩ := run_induction (I := fun s => ∃ lab, s₀.Grown r' s lab)
    (fun s a t hs ha hst => hs.elim fun _ h => h.step ha hst) ⟨_, N.grown hinv⟩ hcalls hrun'
  obtain ⟨hr', hrK⟩ := h.inv.user r' h.mem
  obtain ⟨m₃, lab₃, hm₃, D⟩ := mmuDestroy_total h.inv.tables hr' hrK
  refine ⟨{ s₂ with m := m₃, users := s₂.users.erase r' }, ?_,
    D.doubleFree.trans (h.doubleFree.trans hclean), fun n => ?_⟩
  · rw [HalfSys.step, if_pos h.mem, hm₃]
    rfl
  rw [Bool.eq_iff_iff, h.free, D.free, Bool.or_eq_true, Bool.and_eq_true, isSome_iff_exists,
    isNone_iff_eq_none]
  refine or_congr_right ⟨?_, ?_⟩
  · rintro ⟨⟨⟨r₁, p⟩, hp⟩, hnone⟩
    obtain rfl := (D.gone n r₁ p hp).1 hnone
    exact ⟨p, hp⟩
  · rintro ⟨p, hp⟩
    exact ⟨⟨_, hp⟩, (D.gone n r' p hp).2 rfl⟩

/-- One page in the first user root. -/
def userPage : List HalfAction := [.userMap 2 0x6000 0x400000 9 0]

theorem mmuDestroy_gives_back_userPage :
    ∃ m s₁ s₂ s₃, mmuNewPgdir sixteenFrames = .ok (1, m) ∧ (HalfSys.boot m 1).step .newUser =
    some s₁ ∧
      run HalfSys.step s₁ userPage = some s₂ ∧ s₂.step (.destroy 2) = some s₃ ∧
      s₂.m.pmm.isFree 2 = false ∧ s₃.m.pmm.isFree 2 = true := by
  obtain ⟨s₃, hs₃, -, hfree⟩ := mmuDestroy_gives_back sixteenFrames_ok rfl
    (show run HalfSys.step _ [] = some _ from rfl) rfl rfl rfl
    (show Along HalfSys.step (fun _ a => a.On 2) _ userPage from ⟨rfl, fun _ _ => trivial⟩) rfl
  exact ⟨_, _, _, s₃, rfl, rfl, rfl, hs₃, by decide, (hfree 2).trans (by decide)⟩

end Monolith.Mm
