import Monolith.Mm.Ownership

/-!
# The entries that `vm_space_map` leaves behind

`Filled` says what is in the entry of the page number `k` of a new object, once `vm_space_map` is
done with it; what was there before is still there if the object cannot be read, or if it is filled
when it is touched.  `fillRange_filled` is about all pages of an object together.
-/

namespace Monolith.Mm

open Fallible TableForest Fs Except

variable {K r n : Nat} {m m' : MmState} {lab lab' : Labels} {virt w base : BitVec 64} {env : VmEnv}
  {info : VmMappingInfo} {st st' : VmState} {pmm : Pmm} {k : Nat} {old : BitVec 64}

/-! ## One page -/

/-- From `m` to `m'` the entry of `virt` below `r` was set to `w`, and frames may have been
taken. -/
structure Wrote (K r : Nat) (virt w : BitVec 64) (m m' : MmState) (lab' : Labels) : Prop where
  tables : Tables K m' lab'
  root : IsRoot lab' r
  free : ∀ n, m'.pmm.isFree n = true → m.pmm.isFree n = true
  pte : ∀ u, pte K m' r u = if vpn u = vpn virt then w else pte K m r u

theorem PteUpdate.wrote {t : Nat} (U : PteUpdate K r virt w t m lab m' lab') (hr : IsRoot lab r) :
    Wrote K r virt w m m' lab' where
  tables := U.tables
  root := U.keep _ _ hr
  free n h := by
    rw [U.free, Bool.and_eq_true] at h
    exact h.1
  pte := U.pte_self hr

theorem Wrote.skip (T : Tables K m lab) (hr : IsRoot lab r) (virt : BitVec 64) :
    Wrote K r virt (Mm.pte K m r virt) m m lab := by
  refine ⟨T, hr, fun _ h => h, fun u => ?_⟩
  split_ifs with hu
  · exact pte_of_vpn hu
  · rfl

theorem Wrote.allocate {phys : BitVec 64} (halloc : pmmAllocate m.pmm = .ok (phys, pmm))
    (h : Wrote K r virt w { m with pmm := pmm } m' lab') : Wrote K r virt w m m' lab' := by
  obtain ⟨x, -, -, -, hpmm, -⟩ := pmmAllocate_spec halloc
  refine ⟨h.tables, h.root, fun n hn => ?_, h.pte⟩
  have hfree := h.free n hn
  rw [hpmm, Bool.and_eq_true] at hfree
  exact hfree.1

/-- The entry of page `k`: the device's page, the framebuffer's, a page that was free, or the page
of zeros; or what was there. -/
def Filled (env : VmEnv) (info : VmMappingInfo) (pmm : Pmm) (k : Nat) (old w : BitVec 64) : Prop :=
  if info.isFile then
    match env.node info.fd with
    | .efifb (some address) => w = pteOf (pageAt (address - vmDmapBase) k)
      (info.prot ||| protWritecombine) 0
    | _ => w = old
  else if has info.prot protRead then
    if info.isDevice then w = pteOf (pageAt (alignDown info.physBase) k) info.mmuProt 0
    else if info.prefault then
      ∃ n, pmm.isFree n = true ∧ w = pteOf (frameAddr n) info.mmuProt vmFlagOwner
    else w = pteOf env.zeroCowmem info.mmuProt 0
  else w = old

theorem Filled.mono {pmm pmm' : Pmm}
    (hfree : ∀ n, pmm.isFree n = true → pmm'.isFree n = true) (h : Filled env info pmm k old w) :
    Filled env info pmm' k old w := by
  rw [Filled] at h ⊢
  split
  · rename_i hfile
    rwa [if_pos hfile] at h
  rename_i hfile
  rw [if_neg hfile] at h
  split
  · rename_i hread
    rw [if_pos hread] at h
    split
    · rename_i hdev
      rwa [if_pos hdev] at h
    rename_i hdev
    rw [if_neg hdev] at h
    split
    · rename_i hpre
      rw [if_pos hpre] at h
      obtain ⟨n, hn, hw⟩ := h
      exact ⟨n, hfree n hn, hw⟩
    · rename_i hpre
      rwa [if_neg hpre] at h
  · rename_i hread
    rwa [if_neg hread] at h

theorem has_mmuProt_read (info : VmMappingInfo) :
    has info.mmuProt protRead = has info.prot protRead := by
  rw [VmMappingInfo.mmuProt]
  split
  · have hbit : (~~~protWrite).getLsbD 0 = true := by decide
    rw [has_protRead, has_protRead, BitVec.getLsbD_and, hbit, Bool.and_true]
  · rfl

theorem mapRound_wrote (T : Tables K st.m lab) (hr : IsRoot lab st.space.mmuRoot)
    (hhome : (shape K).home st.space.mmuRoot (getPagetableIndex (pageAt base k) 4) =
    st.space.mmuRoot)
    (hfile : info.isFile = false) (h : mapRound env info base k st = .ok st') :
    ∃ w lab', Wrote K st.space.mmuRoot (pageAt base k) w st.m st'.m lab' ∧
      Filled env info st.m.pmm k (pte K st.m st.space.mmuRoot (pageAt base k)) w := by
  obtain ⟨⟨phys, flags, st₁⟩, hback, h⟩ := bind_eq_ok.1 h
  obtain ⟨m, hmap, rfl⟩ := bind_pure_eq_ok.1 h
  have hfilled : ∀ old w, (if has info.prot protRead then
      if info.isDevice then w = pteOf (pageAt (alignDown info.physBase) k) info.mmuProt 0
      else if info.prefault then
        ∃ n, st.m.pmm.isFree n = true ∧ w = pteOf (frameAddr n) info.mmuProt vmFlagOwner
      else w = pteOf env.zeroCowmem info.mmuProt 0
    else w = old) → Filled env info st.m.pmm k old w := by
    intro old w hw
    rw [Filled, if_neg (by rw [hfile]; exact Bool.false_ne_true)]
    exact hw
  rw [backing] at hback
  rw [mmuMapReadable, has_mmuProt_read] at hmap
  by_cases hread : has info.prot protRead = true
  · simp only [if_pos hread] at hmap hfilled
    by_cases hdev : info.isDevice = true
    · simp only [if_pos hdev] at hback hfilled
      cases hback
      obtain ⟨t, lab', U⟩ := mmuMap_spec T hr hhome hmap
      exact ⟨_, lab', U.wrote hr, hfilled _ _ rfl⟩
    · simp only [if_neg hdev] at hback hfilled
      by_cases hpre : info.prefault = true
      · simp only [if_pos hpre] at hback hfilled
        obtain ⟨⟨phys', pmm⟩, halloc, hback⟩ := bind_eq_ok.1 hback
        cases hback
        obtain ⟨x, rfl, hx, -⟩ := pmmAllocate_spec halloc
        obtain ⟨t, lab', U⟩ := mmuMap_spec (T.allocate halloc) hr hhome hmap
        exact ⟨_, lab', (U.wrote hr).allocate halloc, hfilled _ _ ⟨x, hx, rfl⟩⟩
      · simp only [if_neg hpre] at hback hfilled
        cases hback
        obtain ⟨t, lab', U⟩ := mmuMap_spec T hr hhome hmap
        exact ⟨_, lab', U.wrote hr, hfilled _ _ rfl⟩
  · simp only [if_neg hread] at hmap hfilled
    rw [ok.injEq] at hmap
    rw [← hmap]
    split at hback
    · cases hback
      exact ⟨_, lab, .skip T hr _, hfilled _ _ rfl⟩
    split at hback
    · obtain ⟨⟨phys', pmm⟩, halloc, hback⟩ := bind_eq_ok.1 hback
      cases hback
      exact ⟨_, lab, (Wrote.skip (T.allocate halloc) hr _).allocate halloc, hfilled _ _ rfl⟩
    · cases hback
      exact ⟨_, lab, .skip T hr _, hfilled _ _ rfl⟩

/-! ## All pages -/

/-- **A loop that writes one page in each round**, no page twice: each entry is as its round left
it. -/
theorem forRange_wrote {σ : Type} (get : σ → MmState) (J : σ → Prop)
    {R : Nat → BitVec 64 → BitVec 64 → Prop} {body : Nat → σ → Except MmFault σ} {s s' : σ}
    (hinj : ∀ j < n, ∀ k < n, vpn (pageAt base j) = vpn (pageAt base k) → j = k)
    (hbody : ∀ k t t' lab, k < n → J t → Tables K (get t) lab → IsRoot lab r →
      (∀ x, (get t).pmm.isFree x = true → (get s).pmm.isFree x = true) → body k t = .ok t' →
      J t' ∧ ∃ w lab', Wrote K r (pageAt base k) w (get t) (get t') lab' ∧
      R k (pte K (get t) r (pageAt base k)) w)
    (T : Tables K (get s) lab) (hr : IsRoot lab r) (hJ : J s) (h : forRange body 0 n s = .ok s') :
    ∀ k < n, R k (pte K (get s) r (pageAt base k)) (pte K (get s') r (pageAt base k)) := by
  have hloop := forRange_ok (I := fun i t => J t ∧ ∃ lab, Tables K (get t) lab ∧ IsRoot lab r ∧
      (∀ x, (get t).pmm.isFree x = true → (get s).pmm.isFree x = true) ∧ ∀ k < n,
        (k < i → R k (pte K (get s) r (pageAt base k)) (pte K (get t) r (pageAt base k))) ∧
        (i ≤ k → pte K (get t) r (pageAt base k) = pte K (get s) r (pageAt base k)))
    (fun i t t' _ hi hI hbody' => ?_)
    ⟨hJ, lab, T, hr, fun _ h => h, fun k _ =>
    ⟨fun h0 => absurd h0 (Nat.not_lt_zero k), fun _ => rfl⟩⟩ h
  · obtain ⟨-, lab', -, -, -, hall⟩ := hloop
    exact fun k hk => (hall k hk).1 (by omega)
  rw [zero_add] at hi
  obtain ⟨hJt, labt, Tt, hrt, hfree, hall⟩ := hI
  obtain ⟨hJt', w, lab', W, hR⟩ := hbody i t t' labt hi hJt Tt hrt hfree hbody'
  refine ⟨hJt', lab', W.tables, W.root, fun x hx => hfree x (W.free x hx), fun k hk => ?_⟩
  rw [W.pte]
  rcases eq_or_ne k i with rfl | hki
  · rw [if_pos rfl]
    rw [(hall k hk).2 le_rfl] at hR
    exact ⟨fun _ => hR, fun hlt => absurd hlt (by omega)⟩
  · rw [if_neg fun hv => hki (hinj k hk i hi hv)]
    exact ⟨fun hlt => (hall k hk).1 (by omega), fun hle => (hall k hk).2 (by omega)⟩

/-- **Filling in an object** leaves every page of it as it should be. -/
theorem fillRange_filled {id : Nat} (T : Tables K st.m lab) (hr : IsRoot lab st.space.mmuRoot)
    (hobj : st.space.objs id = info.rangeAt base) (hhome : ∀ k < pageCount (alignUp info.length),
      (shape K).home st.space.mmuRoot (getPagetableIndex (pageAt base k) 4) = st.space.mmuRoot)
    (hinj : ∀ j < pageCount (alignUp info.length), ∀ k < pageCount (alignUp info.length),
      vpn (pageAt base j) = vpn (pageAt base k) → j = k) (h : fillRange env st id info = .ok st') :
    ∀ k < pageCount (alignUp info.length), Filled env info st.m.pmm k
      (pte K st.m st.space.mmuRoot (pageAt base k))
      (pte K st'.m st.space.mmuRoot (pageAt base k)) := by
  have hbase : (st.space.objs id).base = base := by rw [hobj]; rfl
  have hlen : (st.space.objs id).length = alignUp info.length := by rw [hobj]; rfl
  have hprot : (st.space.objs id).prot = info.prot := by rw [hobj]; rfl
  rw [fillRange] at h
  split_ifs at h with hfile
  · have hsame : ∀ k, (∀ address, env.node info.fd ≠ .efifb (some address)) → st'.m = st.m →
        Filled env info st.m.pmm k (pte K st.m st.space.mmuRoot (pageAt base k))
          (pte K st'.m st.space.mmuRoot (pageAt base k)) := by
      intro k hnode hm
      rw [Filled, if_pos hfile, hm]
      split
      · rename_i address heq
        exact absurd heq (hnode address)
      · rfl
    cases hnode : env.node info.fd with
    | ramfs data =>
      rw [hnode, fopsMmap, ok.injEq] at h
      exact fun k _ => hsame k (by simp [hnode]) (by rw [← h])
    | efifb address =>
      rw [hnode] at h
      rcases address with _ | _
      · rw [fopsMmap, efifbMmap, ok.injEq] at h
        exact fun k _ => hsame k (by simp [hnode]) (by rw [← h])
      obtain ⟨m, hmap, rfl⟩ := bind_pure_eq_ok.1 h
      rw [hbase, hlen, hprot] at hmap
      refine forRange_wrote (fun m => m) (fun _ => True) hinj
        (fun k t t' lab hk _ Tt hrt _ hbody => ⟨trivial, ?_⟩) T hr trivial hmap
      obtain ⟨x, lab', U⟩ := mmuMap_spec Tt hrt (hhome k hk) hbody
      refine ⟨_, lab', U.wrote hrt, ?_⟩
      rw [Filled, if_pos hfile, hnode]
    | other =>
      rw [hnode] at h
      cases h
  · rw [hbase, hlen] at h
    refine forRange_wrote VmState.m (fun s => s.space.mmuRoot = st.space.mmuRoot) hinj
      (fun k t t' lab hk hJ Tt hrt hfree hbody => ?_) T hr rfl h
    rw [← hJ] at hrt
    have hhome' := hhome k hk
    rw [← hJ] at hhome'
    obtain ⟨w, lab', W, F⟩ := mapRound_wrote Tt hrt hhome' (Bool.not_eq_true _ ▸ hfile) hbody
    rw [hJ] at W F
    exact ⟨(mapRound_recount hbody).1.mmuRoot.trans hJ, w, lab', W, F.mono hfree⟩

/-! ## What is not there any more -/

/-- The frame `p` of page `k` gives way to another one: something else is mapped there.  An object
without the right to read, and a file that is filled when it is touched, leave the page alone. -/
def Overwritten (env : VmEnv) (info : VmMappingInfo) (k : Nat) (p : BitVec 64) : Prop :=
  if info.isFile then
    match env.node info.fd with
    | .efifb (some address) => has info.prot protRead = true →
      p ≠ pageAt (address - vmDmapBase) k &&& frameMask
    | _ => False
  else has info.prot protRead = true ∧
    if info.isDevice then p ≠ pageAt (alignDown info.physBase) k &&& frameMask
    else info.prefault = true ∨ p ≠ env.zeroCowmem &&& frameMask

/-- **A page that was there translates to another frame**, or not at all, just when its frame is
overwritten. -/
theorem Filled.overwritten (hpmm : pmm.Ok) (F : Filled env info pmm k old w)
    (hold : has old ptePresent = true) (hfree : pmm.isFree (frameOf (pteAddress old)) = false) :
    ¬ (has w ptePresent = true ∧ pteAddress w = pteAddress old) ↔
    Overwritten env info k (pteAddress old) := by
  have hsame : w = old → (¬ (has w ptePresent = true ∧ pteAddress w = pteAddress old) ↔ False) := by
    rintro rfl
    exact iff_false_intro fun hn => hn ⟨hold, rfl⟩
  have hnew : ∀ phys flags, has info.prot protRead = true → w = pteOf phys info.mmuProt flags →
      (¬ (has w ptePresent = true ∧ pteAddress w = pteAddress old) ↔
        pteAddress old ≠ phys &&& frameMask) := by
    rintro phys flags hread rfl
    rw [has_pteOf_present, has_mmuProt_read, pteAddress_pteOf_and, and_iff_right hread]
    exact not_congr eq_comm
  rw [Filled] at F
  rw [Overwritten]
  split at F
  · rename_i hfile
    rw [if_pos hfile]
    split at F
    · rw [F, has_pteOf_present, pteAddress_pteOf_and]
      have hread : has (info.prot ||| protWritecombine) protRead = has info.prot protRead := by
        have hbit : protWritecombine.getLsbD 0 = false := by decide
        rw [has_protRead, has_protRead, BitVec.getLsbD_or, hbit, Bool.or_false]
      rw [hread, not_and]
      exact imp_congr_right fun _ => not_congr eq_comm
    · exact hsame F
  · rename_i hfile
    rw [if_neg hfile]
    split at F
    · rename_i hread
      rw [and_iff_right hread]
      split at F
      · rename_i hdev
        rw [if_pos hdev]
        exact hnew _ _ hread F
      rename_i hdev
      rw [if_neg hdev]
      split at F
      · rename_i hpre
        obtain ⟨x, hx, hw⟩ := F
        refine iff_of_true ?_ (.inl hpre)
        rw [hnew _ _ hread hw]
        -- the frame was free, and the old one was not
        have hok := hpmm x hx
        have hmask : frameAddr x &&& frameMask = frameAddr x :=
          (pteAddress_pteOf_and (frameAddr x) 0 0).symm.trans
            (pteAddress_pteOf 0 0 (physOk_frameAddr hok.2))
        intro he
        simp [he, hmask, frameOf_frameAddr hok.2, hx] at hfree
      · rename_i hpre
        rw [or_iff_right hpre]
        exact hnew _ _ hread F
    · rename_i hread
      rw [hsame F]
      exact (iff_false_intro fun hc => hread hc.1).symm

end Monolith.Mm
