import Mathlib.Algebra.Group.Pi.Basic
import Monolith.Fs.Slots

/-!
# The account of open files, call by call

What `vfs_open`, `vfs_openat`, `vfs_dup`, `vfs_close` and `vfs_getdents` do to the slots: which
references are taken and which are given back (`Kept`).  None of them follows a pointer to freed
memory.

An account is strict if every reference has a holder.  `vfs_open_internal` takes its reference to
the node before it looks for a slot, and keeps it if there is none; so a strict account needs a free
slot (`CanOpen`).
-/

namespace Monolith.Fs

open Function Fallible Count Ventry Vfs List
open Option (some_inj)

/-- One reference to the slot. -/
def mark (fd : Fin 64) : Fin 64 → Nat := fun i => one (decide (i = fd))

/-- The heap and the account are in order, and entries that were linked still are.  The slots have
lost `loss` references, and gained `gain`. -/
structure Kept (strict : Bool) (v w : Vfs) (loss gain : Fin 64 → Nat) : Prop where
  heap : HeapOk w
  files : FilesOk strict w
  linked : ∀ a, Linked v a → Linked w a
  rc : ∀ i, w.rc i + loss i = v.rc i + gain i

/-- The reference that a call which opens a file returns. -/
def gained : Except Errno (Fin 64) → Fin 64 → Nat
  | .ok fd => mark fd
  | .error _ => 0

/-- A file can be opened: the nodes of entries are linked, another reference to a node can be
counted, and in a strict account there is a slot. -/
structure CanOpen (strict : Bool) (v : Vfs) : Prop where
  links : EntriesOk true v
  room : ∀ a n, v.vnodes a = some n → n.ref.toNat + 1 < 2 ^ 32
  slot : strict = true → freeSlot v ≠ none

variable {fd : Fin 64} {query cwd d : Addr} {e : Ventry}

section Kept

variable {strict : Bool} {u v w : Vfs} {loss gain loss' gain' : Fin 64 → Nat}

theorem Kept.refl (H : HeapOk v) (F : FilesOk strict v) : Kept strict v v 0 0 :=
  ⟨H, F, fun _ h => h, fun _ => rfl⟩

theorem Kept.trans (K : Kept strict u v loss gain) (K' : Kept strict v w loss' gain') :
    Kept strict u w (loss + loss') (gain + gain') := by
  refine ⟨K'.heap, K'.files, fun a h => K'.linked a (K.linked a h), fun i => ?_⟩
  have h := K.rc i
  have h' := K'.rc i
  show w.rc i + (loss i + loss' i) = u.rc i + (gain i + gain' i)
  omega

theorem Kept.after (K : Kept strict u v 0 0) (K' : Kept strict v w loss gain) :
    Kept strict u w loss gain := by
  have h := K.trans K'
  rwa [zero_add, zero_add] at h

theorem Kept.before (K : Kept strict u v loss gain) (K' : Kept strict v w 0 0) :
    Kept strict u w loss gain := by
  have h := K.trans K'
  exact h

theorem Grown.rc (G : Grown v w) (i : Fin 64) : w.rc i = v.rc i := by
  rw [Vfs.rc, Vfs.rc, G.openFiles]

theorem kept_of_grown (F : FilesOk strict v) (H : HeapOk w) (G : Grown v w) : Kept strict v w 0 0 :=
  ⟨H, F.grown H G, fun _ => G.linked, fun i => by rw [G.rc]⟩

theorem CanOpen.of_strict (F : FilesOk true v) (h : freeSlot v ≠ none) : CanOpen true v := by
  refine ⟨F.entries, fun a n hn => ?_, fun _ => h⟩
  have hused : usedBy v a ≤ 64 := by
    have := countP_le_length (p := fun i => (v.openFiles i).isOn a) (l := finRange 64)
    exact this
  have href := (F.refs a n hn).2 rfl
  omega

theorem freeSlot_congr (h : w.openFiles = v.openFiles) : freeSlot w = freeSlot v := by
  rw [freeSlot, freeSlot, h]

theorem freeSlot_refcount (h : freeSlot v = some fd) : (v.openFiles fd).refcount = 0 := by
  have hfound := find?_some h
  exact of_decide_eq_true hfound

theorem CanOpen.grown (C : CanOpen strict v) (H : HeapOk w) (G : Grown v w) : CanOpen strict w := by
  refine ⟨C.links.grown H G, fun a n hn => ?_, fun hs => freeSlot_congr G.openFiles ▸ C.slot hs⟩
  rcases hv : v.vnodes a with _ | m
  · rw [(G.fresh a n hn hv).1]
    decide
  obtain ⟨k, hk, -⟩ := G.node a m hv
  rw [hn, some_inj] at hk
  rw [hk]
  exact C.room a m hv

end Kept

/-! ## Opening -/

section Opening

variable {strict : Bool} {v w : Vfs} {node : Addr} {n : Vnode}

theorem FilesOk.recountNode (F : FilesOk strict v) (hn : v.vnodes node = some n) {ref : BitVec 32}
    (hcovers : Covers strict ref.toNat (usedBy v node)) :
    FilesOk strict (v.setVnode node { n with ref }) := by
  refine ⟨⟨fun fd hfd => (F.slot fd hfd).recounted hn rfl rfl rfl, F.idle, fun b m' hm' => ?_,
    fun i j m' k' hi hj hm' hk' hms hks hd => ?_, fun b e m' he hm' => ?_⟩, fun hs sock hsock => ?_⟩
  · rcases eq_or_ne b node with rfl | hb
    · rw [vnodes_set_self, some_inj] at hm'
      exact hm' ▸ hcovers
    · exact F.refs b m' ((vnodes_set_ne _ _ hb).symm.trans hm')
  · obtain ⟨m, hm, hmode, hdata, -⟩ := node_of_recounted hn hm'
    obtain ⟨k, hk, hmode', hdata', -⟩ := node_of_recounted hn hk'
    exact F.single i j m k hi hj hm hk (hmode ▸ hms) (hmode' ▸ hks) (by rw [hdata, hdata', hd])
  · obtain ⟨m, hm, hmode, -, hlink⟩ := node_of_recounted hn hm'
    rw [← hmode, ← hlink]
    exact F.entries b e m he hm
  · obtain ⟨fd, m, hfd, hm, hmode, hdata⟩ := F.shut hs sock hsock
    obtain ⟨m', hm', hmode', hdata', -⟩ := node_recounted hn hm
    exact ⟨fd, m', hfd, hm', hmode' ▸ hmode, hdata'.trans hdata⟩

variable (H : HeapOk v) (F : FilesOk strict v)

include H F

omit H F in
theorem rc_opened {path : Addr} (hfree : (v.openFiles fd).refcount = 0)
    (hsame : w.openFiles = v.openFiles) (i : Fin 64) :
    (w.setFile fd (openedFile node path)).rc i = v.rc i + mark fd i := by
  rw [rc_setFile, mark]
  by_cases hi : i = fd
  · rw [if_pos hi, decide_eq_true hi, hi, Vfs.rc, hfree]
    rfl
  · simp [hi, Vfs.rc, hsame]

theorem FilesOk.vfsOpenInternal (he : v.ventries query = some e) (hen : e.node ≠ 0)
    (C : CanOpen strict v) (device : Except Errno Unit) :
    Meets IsFreed (vfsOpenInternal v e.node query device) fun r =>
    Kept strict v r.2 0 (gained r.1) := by
  obtain ⟨n, hn⟩ := H.node query e he hen
  refine (meets_vnode fun _ => ⟨n, hn⟩).bind fun n' ⟨_, hn'⟩ => ?_
  rw [hn] at hn'
  cases hn'
  rcases fopsOpen n device with _ | _
  · exact meets_ok.2 (.refl H F)
  refine Meets.bind (Q := fun u => u = v.setVnode e.node { n with ref := n.ref + 1 }) ?_ fun u hu =>
    ?_
  · refine (meets_vnode fun _ => ⟨n, hn⟩).bind fun n' ⟨_, hn'⟩ => meets_ok.2 ?_
    rw [hn, some_inj] at hn'
    rw [hn']
  subst hu
  obtain ⟨hsock, hlink⟩ := C.links query e n he hn
  have hmax := C.room _ n hn
  have hadd : (n.ref + 1).toNat = n.ref.toNat + 1 := by exact Nat.mod_eq_of_lt hmax
  rw [freeSlot_congr (show (v.setVnode e.node { n with ref := n.ref + 1 }).openFiles =
    v.openFiles from rfl)]
  cases hfree : freeSlot v with
  | none =>
    -- the reference is not given back
    have hs : strict = false := by
      cases strict with
      | false => rfl
      | true => exact absurd hfree (C.slot rfl)
    subst hs
    refine meets_ok.2 ⟨H.setVnode hen _, F.recountNode hn ⟨?_, nofun⟩, fun _ h => h, fun _ => rfl⟩
    rw [hadd]
    exact Nat.le_succ_of_le (F.refs _ n hn).1
  | some fd =>
    have hzero := freeSlot_refcount hfree
    refine meets_ok.2 ⟨(H.setVnode hen _).setFile .., ⟨F.toSlotsOk.opened hzero hen hn hmax
      (.inr ⟨hsock, hlink rfl, e, he, rfl⟩) (fun hs => ?_), fun hs sock hsock' =>
        (F.shut hs sock hsock').opened hzero hn⟩, fun _ h => h, fun i => ?_⟩
    · simp [hsock] at hs
    · exact rc_opened hzero rfl i

theorem FilesOk.openEntry (hq : Live v query) (C : CanOpen strict v) (device : Except Errno Unit) :
    Meets IsFreed (openEntry v query device) fun r => Kept strict v r.2 0 (gained r.1) := by
  refine (meets_ventryRef (.inr hq)).bind fun v₁ ⟨R, hlive⟩ => ?_
  have H₁ := H.recount R
  have G₁ := R.toThinned.grown
  have K₁ := kept_of_grown F H₁ G₁
  refine (meets_ventry (.inr hlive)).bind fun e he => meets_ite (fun _ => ?_) fun hen => ?_
  · refine (H₁.ventryPut hlive).bind fun v₂ ⟨H₂, T⟩ => meets_ok.2 ?_
    exact K₁.after (kept_of_grown K₁.files H₂ T.grown)
  refine (K₁.files.vfsOpenInternal H₁ he hen (C.grown H₁ G₁) device).bind ?_
  rintro ⟨fd, v₂⟩ K₂
  cases fd with
  | ok fd => exact meets_ok.2 (K₁.after K₂)
  | error errno =>
    have hlink : Linked v₂ query := K₂.linked query ⟨e, he, hen⟩
    refine (meets_ventryPut hlink).bind fun v₃ R' => meets_ok.2 ?_
    exact (K₁.after K₂).before (kept_of_grown K₂.files (K₂.heap.recount R') R'.toThinned.grown)

theorem FilesOk.vfsOpenat {dir : Addr} (hdir : Ptr v dir) (path : Str) (C : CanOpen strict v)
    (device : Except Errno Unit) :
    Meets IsFreed (vfsOpenat v dir path device) fun r => Kept strict v r.2 0 (gained r.1) := by
  refine (H.vfsLookupAt hdir path false).bind ?_
  rintro ⟨found, v₁⟩ ⟨H₁, L, hfound⟩
  have K₁ := kept_of_grown F H₁ L.toThinned.grown
  rcases found with _ | query
  · exact meets_ok.2 K₁
  refine (K₁.files.openEntry H₁ (hfound query rfl) (C.grown H₁ L.toThinned.grown) device).mono
    fun r K₂ => ?_
  exact K₁.after K₂

theorem FilesOk.vfsOpen (hcwd : Linked v cwd) (path : Str) (creat : Bool) {new : Fresh}
    (hnew : creat = true → new.Ok v) (C : CanOpen strict v) (device : Except Errno Unit) :
    Meets IsFreed (vfsOpen v cwd path creat new device) fun r =>
    Kept strict v r.2 0 (gained r.1) := by
  refine (H.vfsLookup (.inr hcwd.live) path false).bind ?_
  rintro ⟨found, v₁⟩ ⟨H₁, L, hfound⟩
  have G₁ := L.toThinned.grown
  have K₁ := kept_of_grown F H₁ G₁
  cases found with
  | ok query =>
    refine (K₁.files.openEntry H₁ (hfound query rfl) (C.grown H₁ G₁) device).mono fun r K₂ =>
      K₁.after K₂
  | error errno =>
    refine meets_ite (fun hc => ?_) fun _ => meets_ok.2 K₁
    have hcwd₁ := K₁.linked cwd hcwd
    refine (H₁.vfsCreate (.inr hcwd₁.live) (L.fresh (hnew hc.2)) path (by decide)).bind ?_
    rintro ⟨created, v₂⟩ ⟨H₂, G₂⟩
    have K₂ := K₁.after (kept_of_grown K₁.files H₂ G₂)
    have C₂ := (C.grown H₁ G₁).grown H₂ G₂
    rcases created with _ | _
    · exact meets_ok.2 K₂
    refine (H₂.vfsLookup (.inr (K₂.linked cwd hcwd).live) path false).bind ?_
    rintro ⟨again, v₃⟩ ⟨H₃, L₃, hagain⟩
    have K₃ := K₂.after (kept_of_grown K₂.files H₃ L₃.toThinned.grown)
    rcases again with _ | query
    · exact meets_error.2 id
    refine (K₃.files.openEntry H₃ (hagain query rfl) (C₂.grown H₃ L₃.toThinned.grown) device).mono
      fun r K₄ => ?_
    exact K₃.after K₄

end Opening

/-! ## References to slots -/

section References

variable {strict : Bool} {v w : Vfs} {fd : Fin 64} (H : HeapOk v) (F : FilesOk strict v)

theorem refcount_ne_zero (h : 0 < v.rc fd) : (v.openFiles fd).refcount ≠ 0 := by
  intro h0
  simp [Vfs.rc, h0] at h

include F

theorem FilesOk.inode_eq_zero_iff : (v.openFiles fd).inode = 0 ↔ (v.openFiles fd).refcount = 0 := by
  refine ⟨fun h => ?_, F.idle fd⟩
  by_contra hne
  exact (F.slot fd hne).inode h

include H

section

variable (hpos : 0 < v.rc fd)

include hpos

theorem FilesOk.refFile (hmax : v.rc fd + 1 < 2 ^ 32) :
    Kept strict v (v.refFile fd) 0 (mark fd) := by
  have hadd : ((v.openFiles fd).refcount + 1).toNat = v.rc fd + 1 := by exact Nat.mod_eq_of_lt hmax
  have hne : (v.openFiles fd).refcount + 1 ≠ 0 := by
    intro h0
    rw [h0] at hadd
    cases hadd
  refine ⟨H.setFile .., F.recounted (refcount_ne_zero hpos) hne, fun _ h => h, fun i => ?_⟩
  rw [Vfs.refFile, rc_setFile]
  show _ + 0 = v.rc i + one (decide (i = fd))
  by_cases hi : i = fd
  · rwa [if_pos hi, decide_eq_true hi, hi]
  · simp [hi]

theorem FilesOk.vfsDup (hmax : v.rc fd + 1 < 2 ^ 32) :
    (vfsDup v fd).1 = .ok fd ∧ Kept strict v (vfsDup v fd).2 0 (mark fd) := by
  have hinode : (v.openFiles fd).inode ≠ 0 := mt F.inode_eq_zero_iff.1 (refcount_ne_zero hpos)
  rw [Fs.vfsDup, if_neg hinode]
  exact ⟨rfl, F.refFile H hpos hmax⟩

theorem FilesOk.keptPut : Meets IsFreed (v.putFile fd) fun w => Kept strict v w (mark fd) 0 :=
  (F.putFile H (refcount_ne_zero hpos)).mono fun _ ⟨H', F', hlinked, hrc⟩ => ⟨H', F', hlinked, hrc⟩

theorem FilesOk.vfsClose :
    Meets IsFreed (vfsClose v fd) fun r => r.1 = .ok () ∧ Kept strict v r.2 (mark fd) 0 := by
  have hinode : (v.openFiles fd).inode ≠ 0 := mt F.inode_eq_zero_iff.1 (refcount_ne_zero hpos)
  rw [Fs.vfsClose, if_neg hinode]
  exact (F.keptPut H hpos).bind fun w K => meets_ok.2 ⟨rfl, K⟩

end

omit H F in
theorem meets_genericFsGetdents {limit head : BitVec 64} {cs : List Addr}
    (hcs : ∀ c ∈ cs, Linked v c) :
    Meets IsFreed (genericFsGetdents limit cs head v) fun r => Recount v r.2 := by
  induction cs generalizing v head with
  | nil => exact meets_ok.2 (.refl v)
  | cons c cs ih =>
    rw [genericFsGetdents]
    refine meets_ite (fun _ => meets_ok.2 (.refl v)) fun _ => ?_
    have hc := hcs c mem_cons_self
    refine (meets_ventryRef (.inr hc.live)).bind fun v₁ ⟨R₁, hlive₁⟩ => ?_
    refine (meets_ventryRef (.inr hlive₁)).bind fun v₂ ⟨R₂, hlive₂⟩ => ?_
    have R := R₁.trans R₂
    refine (meets_ventry (.inr hlive₂)).bind fun e _ => ?_
    refine (meets_ventryPut (R.toThinned.linked hc)).bind fun v₃ R₃ => ?_
    have R' := R.trans R₃
    refine (ih fun d hd => R'.toThinned.linked (hcs d (mem_cons_of_mem _ hd))).mono fun r R₄ => ?_
    exact R'.trans R₄

theorem FilesOk.vfsGetdents (hpos : 0 < v.rc fd) (buffer length disk : BitVec 64) :
    Meets IsFreed (vfsGetdents v fd buffer length disk) fun r => Kept strict v r.2 0 0 := by
  obtain ⟨hinode, n, hn, hkind⟩ := F.slot fd (refcount_ne_zero hpos)
  rw [Fs.vfsGetdents, if_neg hinode]
  refine (meets_vnode fun _ => ⟨n, hn⟩).bind fun n' ⟨_, hn'⟩ => ?_
  refine meets_ite (fun _ => meets_ok.2 (.refl H F)) fun hdir => meets_ite (fun _ => ?_) fun _ =>
    meets_ok.2 (.refl H F)
  have hpath : Ptr v (v.openFiles fd).path := by
    rcases hkind with S | S
    · exact .inl S.path
    · obtain ⟨e, he, -⟩ := S.path
      exact .inr ⟨e, he⟩
  refine (meets_ventry hpath).bind fun p hp => ?_
  have hpn : p.node ≠ 0 := by
    rcases hkind with S | S
    · rw [S.path, H.null] at hp
      cases hp
    · obtain ⟨e, he, hen⟩ := S.path
      rw [hp, some_inj] at he
      rwa [he, hen]
  have hchildren : ∀ c ∈ p.children, Linked v c := fun c hc => by
    obtain ⟨f, hf, hfn, -⟩ := H.child _ p hp hpn c hc
    exact ⟨f, hf, hfn⟩
  refine (meets_genericFsGetdents hchildren).bind ?_
  rintro ⟨head, v₁⟩ R
  exact meets_ok.2 (kept_of_grown F (H.recount R) R.toThinned.grown)

end References

/-! ## Removing entries -/

/-- The entry at `d` can be removed: nothing leads to it but its directory, and no slot is open on
it. -/
structure Removable (v : Vfs) (d : Addr) : Prop extends Detachable v d where
  unused : ∀ fd, (v.openFiles fd).refcount ≠ 0 → (v.openFiles fd).path ≠ d

/-- What is left when the entry at `d` is gone: the heap and the account are in order, the slots are
as they were. -/
structure Removed (v w : Vfs) (d : Addr) : Prop where
  heap : HeapOk w
  files : FilesOk false w
  linked : ∀ a, a ≠ d → Linked v a → Linked w a
  rc : ∀ i, w.rc i = v.rc i

/-- The node of an entry loses a link or is freed; of the other nodes only links change, and a node
that a slot is open on keeps one. -/
structure NodeLost (v u : Vfs) (node : Addr) : Prop extends NodeGone v u node where
  sockets : u.sockets = v.sockets
  keep : ∀ a n, a ≠ node → v.vnodes a = some n → ∃ k, u.vnodes a = some { n with nlink := k } ∧
    (0 < usedBy v a → n.nlink ≠ 0 → k ≠ 0) ∧ (Anonymous v a → k = n.nlink)
  back : ∀ a m, u.vnodes a = some m → ∃ n, v.vnodes a = some n ∧ m.mode = n.mode ∧
    (a ≠ node → m.ref = n.ref ∧ m.data = n.data)

section Removal

variable {v u w : Vfs} {d : Addr} {e : Ventry}

theorem Kept.removed (K : Kept false u v 0 0) (R : Removed v w d) : Removed u w d := by
  refine ⟨R.heap, R.files, fun a ha h => R.linked a ha (K.linked a h), fun i => ?_⟩
  have hrc := K.rc i
  rwa [R.rc i]

theorem Removable.looked (R : Removable v d) (L : Looked v w) : Removable w d := by
  refine ⟨⟨fun f hf => ?_, L.rootNode ▸ R.root, fun mp hmp => R.mountpoint mp (L.mounts ▸ hmp),
    fun a f mp hf hm => ?_⟩, fun fd hfd => ?_⟩
  · obtain ⟨g, hg, hb⟩ := L.back d f hf
    rw [children_of_bare hb]
    exact R.children g hg
  · obtain ⟨g, hg, hb⟩ := L.back a f hf
    exact R.mountRoot a g mp hg (mount_of_bare hb ▸ hm)
  · rw [L.openFiles] at hfd ⊢
    exact R.unused fd hfd

variable (H : HeapOk v) (F : FilesOk false v) (he : v.ventries d = some e) (hen : e.node ≠ 0)
  (R : Removable v d)

include H F he hen R

theorem Removable.usedBy_eq_zero : usedBy v e.node = 0 := by
  rcases Nat.eq_zero_or_pos (usedBy v e.node) with h | h
  · exact h
  obtain ⟨fd, hfd, hinode⟩ := exists_of_usedBy h
  obtain ⟨-, n, -, S | S⟩ := F.slot fd hfd
  · exact absurd hinode.symm (S.anonymous d e he)
  obtain ⟨f, hf, hfn⟩ := S.path
  have hsame := H.single d e _ f he hf hen (hinode ▸ hfn.symm)
  exact absurd hsame.symm (R.unused fd hfd)

theorem Removable.inode_ne (hfd : (v.openFiles fd).refcount ≠ 0) :
    (v.openFiles fd).inode ≠ e.node := by
  intro hinode
  have hpos := usedBy_pos hfd
  simp [hinode, R.usedBy_eq_zero H F he hen] at hpos

theorem Removable.detach (N : NodeLost v u e.node) :
    Meets IsFreed (detach u d) fun w => Removed v w d := by
  refine (H.detach he hen R.toDetachable N.toNodeGone).mono ?_
  rintro w ⟨Hw, hnodes, hopen, hsockets, hkeep, hback⟩
  have hmode : ∀ b m, w.vnodes b = some m → ∃ n, v.vnodes b = some n ∧ m.mode = n.mode ∧
      (b ≠ e.node → m.ref = n.ref ∧ m.data = n.data) := fun b m hm => N.back b m (hnodes ▸ hm)
  refine ⟨Hw, ⟨⟨fun fd hfd => ?_, fun fd hfd => ?_, fun b m hm => ?_,
    fun i j m k hi hj hm hk hms hks hd => ?_,
    fun b f m hf hm => ?_⟩, nofun⟩, fun a ha hlink => ?_, fun i => ?_⟩
  · rw [hopen] at hfd ⊢
    have hne := R.inode_ne H F he hen hfd
    have S := F.slot fd hfd
    refine S.mono (fun n hn => ?_) (fun _ _ _ h => by rw [hsockets, N.sockets]; exact h)
      (fun f hf hfn => ?_)
      fun hanon b f hf hfn => ?_
    · obtain ⟨k, hk, hpos, hsame⟩ := N.keep _ n hne hn
      exact ⟨{ n with nlink := k }, hnodes ▸ hk, rfl, rfl, hpos (usedBy_pos hfd), hsame⟩
    · obtain ⟨f', hf', hfn'⟩ := hkeep _ f (R.unused fd hfd) hf (hfn ▸ S.inode)
      exact ⟨f', hf', hfn'.trans hfn⟩
    · obtain ⟨g, hg, hgn⟩ := hback b f hf (hfn ▸ S.inode)
      exact hanon b g hg (hgn.trans hfn)
  · rw [hopen] at hfd ⊢
    exact F.idle fd hfd
  · rw [usedBy_congr hopen]
    obtain ⟨n, hn, -, hrest⟩ := hmode b m hm
    by_cases hb : b = e.node
    · rw [hb, R.usedBy_eq_zero H F he hen]
      exact ⟨Nat.zero_le _, nofun⟩
    · rw [(hrest hb).1]
      exact F.refs b n hn
  · rw [hopen] at hi hj hm hk ⊢
    obtain ⟨m', hm', hmm, hm''⟩ := hmode _ m hm
    obtain ⟨k', hk', hkk, hk''⟩ := hmode _ k hk
    have hmd := (hm'' (R.inode_ne H F he hen hi)).2
    have hkd := (hk'' (R.inode_ne H F he hen hj)).2
    exact F.single i j m' k' hi hj hm' hk' (hmm ▸ hms) (hkk ▸ hks) (by rw [← hmd, ← hkd, hd])
  · have hfn : f.node ≠ 0 := by
      intro h0
      rw [h0, Hw.nullNode] at hm
      cases hm
    obtain ⟨g, hg, hgn⟩ := hback b f hf hfn
    obtain ⟨n, hn, hmm, -⟩ := hmode _ m hm
    rw [hmm]
    exact ⟨(F.entries b g n hg (hgn ▸ hn)).1, nofun⟩
  · obtain ⟨g, hg, hgn⟩ := hlink
    obtain ⟨f, hf, hfn⟩ := hkeep a g ha hg hgn
    exact ⟨f, hf, hfn ▸ hgn⟩
  · rw [Vfs.rc, Vfs.rc, hopen]

end Removal

section Remove

variable {v w : Vfs} (H : HeapOk v) (F : FilesOk false v)

include H F

theorem meets_dropNode (he : v.ventries d = some e) (hen : e.node ≠ 0) :
    Meets IsFreed (dropNode v e.node) fun u => NodeLost v u e.node := by
  obtain ⟨n, hn⟩ := H.node d e he hen
  have hsock := (F.entries d e n he hn).1
  -- whatever becomes of the node, the others stay
  have hlost : ∀ {u : Vfs} {o : Option Vnode}, (∀ m, o = some m → m.mode = n.mode) →
      u = { v with vnodes := update v.vnodes e.node o } → NodeLost v u e.node := by
    rintro u o ho rfl
    refine ⟨⟨rfl, rfl, rfl, rfl, rfl, fun a m ha hm => ⟨m, (update_of_ne ha ..).trans hm⟩, ?_⟩, rfl,
      fun a m ha hm => ⟨m.nlink, (update_of_ne ha ..).trans hm, fun _ h => h, fun _ => rfl⟩,
      fun a m hm => ?_⟩
    · exact (update_of_ne hen.symm ..).trans H.nullNode
    dsimp only at hm
    by_cases ha : a = e.node
    · rw [ha, update_self] at hm
      exact ⟨n, ha ▸ hn, ho m hm, fun h => absurd ha h⟩
    · rw [update_of_ne ha] at hm
      exact ⟨m, hm, rfl, fun _ => ⟨rfl, rfl⟩⟩
  refine (meets_vnode fun _ => ⟨n, hn⟩).bind fun n' hn' => ?_
  obtain rfl := some_inj.1 (hn.symm.trans hn'.2)
  refine meets_ite (fun _ => ?_) fun _ => meets_ok.2 (hlost (fun m hm => ?_) rfl)
  · have hself : (v.setVnode e.node { n with nlink := 0 }).vnodes e.node =
      some { n with nlink := 0 } :=
      vnodes_set_self ..
    refine (meets_vnodePut hself fun hs => ?_).mono fun u hu => ?_
    · simp [show sIssock n.mode = true from hs] at hsock
    rcases hu with ⟨-, rfl⟩ | ⟨-, rfl⟩
    · refine hlost (o := some { n with nlink := 0, ref := n.ref - 1 }) (fun m hm => ?_) ?_
      · rw [← some_inj.1 hm]
      · simp [Vfs.setVnode, update_idem]
    · refine hlost (o := none) (by simp) ?_
      simp only [Vfs.setVnode, update_idem]
      rw [if_neg (by rw [hsock]; exact Bool.false_ne_true)]
  · rw [← some_inj.1 hm]

theorem FilesOk.vfsUnlink (hcwd : Ptr v cwd) (path : Str)
    (hR : ∀ d u, vfsLookup v cwd path false = .ok (.ok d, u) → Removable v d) :
    Meets IsFreed (vfsUnlink v cwd path) fun r => Kept false v r.2 0 0 ∨
      ∃ d u, vfsLookup v cwd path false = .ok (.ok d, u) ∧ Removed v r.2 d := by
  refine (H.vfsLookup hcwd path false).eq.bind ?_
  rintro ⟨found, v₁⟩ ⟨hlookup, H₁, L, hfound⟩
  have K₁ := kept_of_grown F H₁ L.toThinned.grown
  rcases found with _ | d
  · exact meets_ok.2 (.inl K₁)
  have R := (hR d v₁ hlookup).looked L
  refine (meets_ventry (.inr (hfound d rfl))).bind fun e he => ?_
  refine (H₁.meets_node he).bind fun n ⟨hen, _⟩ =>
    meets_ite (fun _ => meets_ok.2 (.inl K₁)) fun _ => ?_
  refine (meets_dropNode H₁ K₁.files he hen).bind fun u N => ?_
  refine (R.detach H₁ K₁.files he hen N).bind fun w hw => meets_ok.2 (.inr ⟨d, v₁, hlookup, ?_⟩)
  exact K₁.removed hw

omit F in
/-- What `procfs_remove` does to nodes: a link of the directory less, and the node is freed. -/
theorem meets_procfsNodes {d : Addr} {e : Ventry} (he : v.ventries d = some e) (hen : e.node ≠ 0)
    (hlink : ∀ p n, v.ventries e.parent = some p → v.vnodes p.node = some n → 0 < usedBy v p.node →
    n.nlink ≠ 1) :
    Meets IsFreed (dropParentLink v e.parent >>= fun u => kfreeNode u e.node) fun u =>
    NodeLost v u e.node := by
  obtain ⟨n, hn⟩ := H.node d e he hen
  -- a node of the file system in between
  have hfree : ∀ u : Vfs, u = { v with vnodes := u.vnodes } → (∀ a m, v.vnodes a = some m → ∃ k,
      u.vnodes a = some { m with nlink := k } ∧ (0 < usedBy v a → m.nlink ≠ 0 → k ≠ 0) ∧
        (Anonymous v a → k = m.nlink)) → (∀ a m, u.vnodes a = some m → ∃ k, v.vnodes a = some k ∧
          m.mode = k.mode ∧ m.ref = k.ref ∧ m.data = k.data) →
      Meets IsFreed (kfreeNode u e.node) fun w => NodeLost v w e.node := by
    intro u hu hkeep hback
    obtain ⟨k, hk, -⟩ := hkeep _ n hn
    rw [kfreeNode]
    refine (meets_vnode fun _ => ⟨_, hk⟩).bind fun _ _ => meets_ok.2 ?_
    have hother : ∀ a, a ≠ e.node → update u.vnodes e.node none a = u.vnodes a :=
      fun a ha => update_of_ne ha ..
    refine ⟨⟨by rw [hu], by rw [hu], by rw [hu], by rw [hu], by rw [hu], fun a m ha hm => ?_, ?_⟩,
      by rw [hu], fun a m ha hm => ?_, fun a m hm => ?_⟩
    · obtain ⟨k, hk, -⟩ := hkeep a m hm
      exact ⟨_, (hother a ha).trans hk⟩
    · refine (hother 0 hen.symm).trans ?_
      rcases h0 : u.vnodes 0 with _ | m
      · rfl
      obtain ⟨k, hk, -⟩ := hback 0 m h0
      rw [H.nullNode] at hk
      cases hk
    · obtain ⟨k, hk, hrest⟩ := hkeep a m hm
      exact ⟨k, (hother a ha).trans hk, hrest⟩
    · by_cases ha : a = e.node
      · rw [ha] at hm
        cases (update_self ..).symm.trans hm
      · obtain ⟨k, hk, hmode, href, hdata⟩ := hback a m ((hother a ha).symm.trans hm)
        exact ⟨k, hk, hmode, fun _ => ⟨href, hdata⟩⟩
  have hsame : Meets IsFreed (kfreeNode v e.node) fun w => NodeLost v w e.node :=
    hfree v rfl (fun a m hm => ⟨m.nlink, hm, fun _ h => h, fun _ => rfl⟩) fun a m hm =>
    ⟨m, hm, rfl, rfl, rfl⟩
  rw [dropParentLink]
  by_cases hp0 : e.parent = 0
  · rwa [if_pos hp0, ok_bind]
  rw [if_neg hp0]
  obtain ⟨p, hp, hpn, -⟩ := H.parent d e he hen hp0
  obtain ⟨pn, hpn'⟩ := H.node _ p hp hpn
  rw [ventry_eq hp0 hp, ok_bind, if_neg hpn, vnode_eq hpn hpn', ok_bind, ok_bind]
  refine hfree _ rfl (fun a m hm => ?_) fun a m hm => ?_
  · by_cases ha : a = p.node
    · rw [ha, hpn', some_inj] at hm
      rw [ha, ← hm]
      refine ⟨pn.nlink - 1, vnodes_set_self .., fun hused hne h0 => ?_, fun hanon => ?_⟩
      · exact hlink p pn hp hpn' hused (by bv_omega)
      · exact absurd rfl (hanon _ p hp)
    · exact ⟨m.nlink, (vnodes_set_ne _ _ ha).trans hm, fun _ h => h, fun _ => rfl⟩
  · by_cases ha : a = p.node
    · rw [ha, vnodes_set_self, some_inj] at hm
      exact ⟨pn, ha ▸ hpn', hm ▸ rfl, hm ▸ rfl, hm ▸ rfl⟩
    · exact ⟨m, (vnodes_set_ne _ _ ha).symm.trans hm, rfl, rfl, rfl⟩

theorem FilesOk.procfsRemove {root : Addr} (hroot : Ptr v root) (path : Str)
    (hR : ∀ d u, vfsLookupAt v root path false = .ok (.ok d, u) → Removable v d ∧
    ∀ e p n, v.ventries d = some e →
      v.ventries e.parent = some p → v.vnodes p.node = some n → 0 < usedBy v p.node → n.nlink ≠ 1) :
    Meets IsFreed (procfsRemove v root path) fun w => Kept false v w 0 0 ∨
      ∃ d u, vfsLookupAt v root path false = .ok (.ok d, u) ∧ Removed v w d := by
  refine (H.vfsLookupAt hroot path false).eq.bind ?_
  rintro ⟨found, v₁⟩ ⟨hlookup, H₁, L, hfound⟩
  have K₁ := kept_of_grown F H₁ L.toThinned.grown
  rcases found with _ | d
  · exact meets_ok.2 (.inl K₁)
  obtain ⟨R, hlink⟩ := hR d v₁ hlookup
  have R₁ := R.looked L
  refine (meets_ventry (.inr (hfound d rfl))).bind fun e he => ?_
  refine (H₁.meets_node he).bind fun n ⟨hen, _⟩ => ?_
  have hnodes := meets_procfsNodes H₁ he hen fun p n hp hn hused => by
    obtain ⟨g, hg, hb⟩ := L.back d e he
    obtain ⟨q, hq, hb'⟩ := L.back _ p hp
    rw [parent_of_bare hb] at hq
    rw [node_of_bare hb', L.vnodes] at hn
    rw [node_of_bare hb', usedBy_congr L.openFiles] at hused
    exact hlink g q n hg hq hn hused
  rw [← bind_assoc]
  refine hnodes.bind fun u N => ?_
  exact (R₁.detach H₁ K₁.files he hen N).mono fun w hw => .inr ⟨d, v₁, hlookup, K₁.removed hw⟩

end Remove

end Monolith.Fs
