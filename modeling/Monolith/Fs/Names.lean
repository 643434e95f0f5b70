import Monolith.Lib.Mounts
import Monolith.Fs.HeapRemoval
import Mathlib.Algebra.Group.Pi.Lemmas
import Mathlib.Data.BitVec
import Mathlib.Data.List.Find

/-!
# The name space

What `vfs_lookup_at` is for, without its hash table: a path is followed component by component,
where each component is looked for among the children of what is mounted on the directory
(`spaceOf`).

The hash table does not show as long as the entries in it are those that are in the directories:
every entry has a node, the names in a directory differ, and only directories in which names are
looked up have children (`NamesOk`).  Then `vfs_lookup_at` is that walk (`NamesOk.vfsLookupAt`),
with one exception.  The first thing it does is to ask the hash table for the path as a whole, below
the directory it starts in and not below what is mounted on it.
-/

namespace Monolith.Fs

open Fallible Path List Option Ventry Except

/-! ## What a path names -/

def mountOf (v : Vfs) (a : Addr) : Option Mount := (v.ventries a).bind Ventry.mount

/-- What is seen at an entry: the root of what is mounted there.  On the root nothing is ever seen
but itself. -/
def seenAt (v : Vfs) (a : Addr) : Option Addr :=
  match (if a ≠ v.rootNode then mountOf v a else none) with
  | none => some a
  | some mp => mp.root

/-- Where `..` leads. -/
def aboveOf (v : Vfs) (a : Addr) : Option Addr :=
  if parentOf v a ≠ 0 then some (parentOf v a)
  else
    match v.mounts.find? fun mp => mp.root = some a with
    | none => none
    | some mp =>
      if mp.mountpoint = v.rootNode then some v.rootNode
      else if parentOf v mp.mountpoint = 0 then none
      else some (parentOf v mp.mountpoint)

/-- The directories of a file system and what is mounted on them. -/
def spaceOf (v : Vfs) : Space (BitVec 8) Addr where
  isDir a := sIsdir (modeOf v a)
  up := aboveOf v
  child a name := (childrenOf v a).find? fun c => nameOf v c = name
  seen := seenAt v

/-- Something is mounted on the entry, and seen there. -/
def Covered (v : Vfs) (a : Addr) : Prop := a ≠ v.rootNode ∧ mountOf v a ≠ none

instance (v : Vfs) (a : Addr) : Decidable (Covered v a) := inferInstanceAs (Decidable (_ ∧ _))

/-- The node of an entry: only a directory has children, and only one in which names are looked
up. -/
structure NodeOk (e : Ventry) (n : Vnode) : Prop where
  dir : e.children ≠ [] ∨ e.parent = 0 → sIsdir n.mode = true
  lookup : e.children ≠ [] → n.iops.lookup = true
  ops : n.iops.create = true ∨ n.iops.mkdir = true ∨ n.iops.mknod = true → n.iops.lookup = true

/-- The heap is in order, every entry has a node, and the children of a directory are found by their
names.  A file system that is mounted has a root without a parent, on which nothing else is
mounted. -/
structure NamesOk (v : Vfs) : Prop extends HeapOk v where
  linked : ∀ a e, v.ventries a = some e → e.node ≠ 0
  valid : ∀ a e, v.ventries a = some e → e.parent ≠ 0 → NameOk e.name
  unique : ∀ a e b f, v.ventries a = some e → v.ventries b = some f → e.parent ≠ 0 →
    e.parent = f.parent → e.name = f.name → a = b
  above : ∀ a e, v.ventries a = some e → e.parent ≠ a
  nodeOk : ∀ a e n, v.ventries a = some e → v.vnodes e.node = some n → NodeOk e n
  rootParent : parentOf v v.rootNode = 0
  top : ∀ a e, v.ventries a = some e → e.parent = 0 → ¬Covered v a
  mountRoot : ∀ a mp, mountOf v a = some mp → ∃ r, mp.root = some r ∧ parentOf v r = 0
  mountpoint : ∀ mp ∈ v.mounts, mountOf v mp.mountpoint ≠ none

/-! ## What a lookup leaves -/

section Views

variable {v w : Vfs} {a : Addr} {e : Ventry}

theorem seenAt_of_bare (h : ¬Covered v a) : seenAt v a = some a := by
  rw [seenAt]
  split_ifs with hroot
  · rw [not_not.1 fun hm => h ⟨hroot, hm⟩]
  · rfl

theorem mountOf_eq (h : v.ventries a = some e) : mountOf v a = e.mount := by simp [mountOf, h]

theorem Looked.bare (L : Looked v w) (a : Addr) :
    (w.ventries a).map Ventry.bare = (v.ventries a).map Ventry.bare := by
  cases hw : w.ventries a with
  | some f =>
    obtain ⟨e, he, hb⟩ := L.back a f hw
    rw [he, map_some, map_some, hb]
  | none =>
    rcases hv : v.ventries a with _ | e
    · rfl
    obtain ⟨f, hf⟩ := L.live a ⟨e, hv⟩
    simp [hw] at hf

theorem Looked.read {β : Type} (L : Looked v w) (f : Ventry → β) (hf : ∀ e, f e = f e.bare)
    (a : Addr) : (w.ventries a).map f = (v.ventries a).map f := by
  have h := congrArg (Option.map f) (L.bare a)
  rw [Option.map_map, Option.map_map] at h
  rwa [show f ∘ Ventry.bare = f from funext fun e => (hf e).symm] at h

section

variable (L : Looked v w)

include L

namespace Looked

theorem nameOf : nameOf w = nameOf v :=
  funext fun a => congrArg (·.getD []) (L.read Ventry.name (fun _ => rfl) a)

theorem parentOf : parentOf w = parentOf v :=
  funext fun a => congrArg (·.getD 0) (L.read Ventry.parent (fun _ => rfl) a)

theorem childrenOf : childrenOf w = childrenOf v :=
  funext fun a => congrArg (·.getD []) (L.read Ventry.children (fun _ => rfl) a)

theorem mountOf : mountOf w = mountOf v := by
  funext a
  have h := congrArg (·.bind id) (L.read Ventry.mount (fun _ => rfl) a)
  simp only [bind_map] at h
  exact h

theorem modeOf : modeOf w = modeOf v := by
  funext a
  have h := congrArg (fun o => ((o.bind v.vnodes).map Vnode.mode).getD 0)
    (L.read Ventry.node (fun _ => rfl) a)
  simp only [bind_map] at h
  rwa [Fs.modeOf, L.vnodes]

theorem seenAt : seenAt w = seenAt v := by
  funext a
  rw [Fs.seenAt, Fs.seenAt, L.mountOf, L.rootNode]

theorem aboveOf : aboveOf w = aboveOf v := by
  funext a
  rw [Fs.aboveOf, Fs.aboveOf, L.parentOf, L.mounts, L.rootNode]

theorem covered (a : Addr) : Covered w a ↔ Covered v a := by simp [Covered, L.mountOf, L.rootNode]

/-- **A lookup does not change what paths name.** -/
theorem spaceOf : spaceOf w = spaceOf v := by
  simp [Fs.spaceOf, L.modeOf, L.aboveOf, L.childrenOf, L.nameOf, L.seenAt]

end Looked

end

theorem NodeOk.congr {f : Ventry} {n m : Vnode} (O : NodeOk e n)
    (hchildren : f.children = e.children) (hparent : f.parent = e.parent) (hmode : m.mode = n.mode)
    (hiops : m.iops = n.iops) : NodeOk f m := by
  refine ⟨?_, ?_, ?_⟩
  · rw [hchildren, hparent, hmode]
    exact O.dir
  · rw [hchildren, hiops]
    exact O.lookup
  · rw [hiops]
    exact O.ops

theorem NamesOk.looked (N : NamesOk v) (L : Looked v w) (H : HeapOk w) : NamesOk w where
  toHeapOk := H
  linked a f hf := by
    obtain ⟨e, he, hb⟩ := L.back a f hf
    rw [node_of_bare hb]
    exact N.linked a e he
  valid a f hf := by
    obtain ⟨e, he, hb⟩ := L.back a f hf
    rw [parent_of_bare hb, name_of_bare hb]
    exact N.valid a e he
  unique a f b g hf hg := by
    obtain ⟨e, he, hb⟩ := L.back a f hf
    obtain ⟨d, hd, hb'⟩ := L.back b g hg
    rw [parent_of_bare hb, name_of_bare hb, parent_of_bare hb', name_of_bare hb']
    exact N.unique a e b d he hd
  above a f hf := by
    obtain ⟨e, he, hb⟩ := L.back a f hf
    rw [parent_of_bare hb]
    exact N.above a e he
  nodeOk a f n hf hn := by
    obtain ⟨e, he, hb⟩ := L.back a f hf
    rw [node_of_bare hb, L.vnodes] at hn
    exact (N.nodeOk a e n he hn).congr (children_of_bare hb) (parent_of_bare hb) rfl rfl
  rootParent := by
    rw [L.parentOf, L.rootNode]
    exact N.rootParent
  top a f hf := by
    obtain ⟨e, he, hb⟩ := L.back a f hf
    rw [parent_of_bare hb, L.covered]
    exact N.top a e he
  mountRoot a mp := by
    rw [L.mountOf, L.parentOf]
    exact N.mountRoot a mp
  mountpoint := by
    rw [L.mounts, L.mountOf]
    exact N.mountpoint

end Views

/-! ## One tree -/

/-- Nothing is mounted but the root, and every other entry is in the hash table. -/
structure OneTree (v : Vfs) : Prop where
  mounts : v.mounts = [⟨v.rootNode, some v.rootNode⟩]
  bare : ∀ a, ¬Covered v a
  top : ∀ a e, v.ventries a = some e → e.parent = 0 → a = v.rootNode
  cached : ∃ buckets, CacheOk v buckets ∧
    ∀ a e, v.ventries a = some e → e.parent ≠ 0 → a ∈ buckets (dcacheHash e.parent e.name)

/-- `w` is `v` but for the counters of its entries. -/
structure Counted (v w : Vfs) : Prop extends Recount v w where
  eq : w = { v with ventries := w.ventries }

/-- What a lookup leaves: it puts entries into the hash table, unless all are there already. -/
structure Visited (v w : Vfs) : Prop extends Looked v w where
  counted : OneTree v → Counted v w

section OneTree

variable {u v w : Vfs} {a : Addr} {e : Ventry}

theorem OneTree.recount (O : OneTree v) (R : Recount v w) : OneTree w where
  mounts := by rw [R.mounts, R.rootNode, O.mounts]
  bare a := by
    rw [R.covered]
    exact O.bare a
  top a f hf hp := by
    obtain ⟨e, he, hb⟩ := R.back a f hf
    rw [R.rootNode]
    exact O.top a e he (parent_of_bare hb ▸ hp)
  cached := by
    obtain ⟨buckets, C, hall⟩ := O.cached
    refine ⟨buckets, C.recount R, fun a f hf => ?_⟩
    obtain ⟨e, he, hb⟩ := R.back a f hf
    rw [parent_of_bare hb, name_of_bare hb]
    exact hall a e he

theorem OneTree.mem_bucket (O : OneTree v) {buckets : Nat → List Addr} (C : CacheOk v buckets)
    (he : v.ventries a = some e) (hp : e.parent ≠ 0) :
    a ∈ buckets (dcacheHash e.parent e.name) := by
  obtain ⟨buckets', C', hall⟩ := O.cached
  exact (C'.chain _).unique (C.chain _) ▸ hall a e he hp

theorem Counted.refl (v : Vfs) : Counted v v := ⟨.refl v, rfl⟩

theorem Counted.trans (R : Counted u v) (R' : Counted v w) : Counted u w :=
  ⟨R.toRecount.trans R'.toRecount, by rw [R'.eq, R.eq]⟩

theorem Counted.visited (R : Counted v w) : Visited v w := ⟨R.toLooked, fun _ => R⟩

theorem Visited.refl (v : Vfs) : Visited v v := (Counted.refl v).visited

theorem Visited.oneTree (L : Visited v w) (O : OneTree v) : OneTree w :=
  O.recount (L.counted O).toRecount

theorem Visited.trans (L : Visited u v) (L' : Visited v w) : Visited u w :=
  ⟨L.toLooked.trans L'.toLooked, fun O => (L.counted O).trans (L'.counted (L.oneTree O))⟩

theorem NamesOk.recount (N : NamesOk v) (R : Counted v w) : NamesOk w :=
  N.looked R.toLooked (N.toHeapOk.recount R.toRecount)

end OneTree

/-! ## The counters -/

def countOf (v : Vfs) (a : Addr) : BitVec 32 := ((v.ventries a).map Ventry.count).getD 0

/-- The counters of `w` are those of `v` with `k` added. -/
def Tally (v w : Vfs) (k : Addr → BitVec 32) : Prop := ∀ b, countOf w b = countOf v b + k b

section Tally

variable {u v w : Vfs} {a : Addr} {e e' : Ventry} {k l : Addr → BitVec 32}

theorem countOf_eq (h : v.ventries a = some e) : countOf v a = e.count := by simp [countOf, h]

theorem Tally.refl (v : Vfs) : Tally v v 0 := fun _ => (add_zero _).symm

theorem Tally.trans (T : Tally u v k) (T' : Tally v w l) : Tally u w (k + l) := fun b => by
  rw [T' b, T b, Pi.add_apply, add_assoc]

theorem tally_setVentry (h : v.ventries a = some e) {c : BitVec 32} (hc : e'.count = e.count + c) :
    Tally v (v.setVentry a e') (Pi.single a c) := by
  intro b
  by_cases hb : b = a
  · rw [hb, countOf_eq (v.ventries_set_self e'), countOf_eq h, Pi.single_eq_same, hc]
  · rw [countOf, countOf, Vfs.ventries_set_ne _ _ hb, Pi.single_eq_of_ne hb, add_zero]

/-- A lookup in one tree gives back every reference that it takes, and leaves nothing behind. -/
theorem Visited.eq_of_tally (L : Visited v w) (T : Tally v w 0) (O : OneTree v) : w = v := by
  have R := L.counted O
  rw [R.eq]
  suffices h : w.ventries = v.ventries by rw [h]
  funext a
  cases hv : v.ventries a with
  | none =>
    by_contra hsome
    obtain ⟨f, hf⟩ := ne_none_iff_exists'.1 hsome
    obtain ⟨e, he, -⟩ := R.back a f hf
    simp [hv] at he
  | some e =>
    obtain ⟨f, hf⟩ := R.live a ⟨e, hv⟩
    have hbare := R.bare a
    have hnext := congrFun R.next a
    have hcount := T a
    rw [hf, hv] at hbare
    rw [nextOf_eq hf, nextOf_eq hv] at hnext
    rw [countOf_eq hf, countOf_eq hv, Pi.zero_apply, add_zero] at hcount
    rw [hf]
    cases e
    cases hbare
    cases hnext
    cases hcount
    rfl

end Tally

/-! ## One component -/

variable {c dir : Addr} {name : Str} {d : Ventry} {path : Str} {a : Addr}

section Component

variable {v : Vfs} {a : Addr} {e : Ventry}

theorem ventryPut_eq (ha : a ≠ 0) (h : v.ventries a = some e) (hn : e.node ≠ 0) :
    ventryPut v a = .ok (v.setVentry a { e with count := e.count - 1 }) := by
  rw [ventryPut, ventry_eq ha h]
  show (if 1 < e.count then _ else if e.node ≠ 0 then _ else _) = _
  rw [if_pos hn, ite_self]

theorem traverseMount_eq (h : v.ventries a = some e) : traverseMount v a e =
    match seenAt v a with
    | some dir => .ok dir
    | none => .error .enoent := by
  rw [traverseMount, seenAt, mountOf_eq h]
  cases (if a ≠ v.rootNode then e.mount else none) with
  | none => rfl
  | some mp => cases hr : mp.root <;> simp only [hr]

variable (N : NamesOk v)

include N

namespace NamesOk

theorem put (h : Live v a) :
    ∃ w, ventryPut v a = .ok w ∧ Counted v w ∧ Tally v w (-Pi.single a 1) := by
  obtain ⟨e, he⟩ := h
  refine ⟨_, ventryPut_eq (N.ne_zero ⟨e, he⟩) he (N.linked a e he),
    ⟨recount_setVentry he _, rfl⟩, ?_⟩
  rw [← Pi.single_neg]
  exact tally_setVentry he (sub_eq_add_neg ..)

theorem ref (h : Live v a) :
    ∃ w, ventryRef v a = .ok w ∧ Counted v w ∧ Tally v w (Pi.single a 1) := by
  obtain ⟨e, he⟩ := h
  exact ⟨_, ventryRef_eq (N.ne_zero ⟨e, he⟩) he, ⟨recount_setVentry he _, rfl⟩,
    tally_setVentry he rfl⟩

theorem node_of (h : v.ventries a = some e) : ∃ n, v.vnodes e.node = some n ∧ NodeOk e n := by
  obtain ⟨n, hn⟩ := N.node a e h (N.linked a e h)
  exact ⟨n, hn, N.nodeOk a e n h hn⟩

theorem parentOf_live (h : v.ventries a = some e) (hp : e.parent ≠ 0) :
    ∃ p, v.ventries e.parent = some p ∧ a ∈ p.children := by
  obtain ⟨p, hpar, -, hmem⟩ := N.parent a e h (N.linked a e h) hp
  exact ⟨p, hpar, hmem⟩

theorem child_eq_some (hdir : dir ≠ 0) :
    (spaceOf v).child dir name = some c ↔ ∃ f, v.ventries c = some f ∧ f.parent = dir ∧
    f.name = name := by
  have hiff c : c ∈ childrenOf v dir ↔ ∃ f, v.ventries c = some f ∧ f.parent = dir := by
    constructor
    · intro hmem
      rcases hd : v.ventries dir with _ | d
      · simp [childrenOf, hd] at hmem
      rw [childrenOf_eq hd] at hmem
      obtain ⟨f, hf, -, hpar⟩ := N.child dir d hd (N.linked dir d hd) c hmem
      exact ⟨f, hf, hpar⟩
    · rintro ⟨f, hf, rfl⟩
      obtain ⟨p, hp, hmem⟩ := N.parentOf_live hf hdir
      rwa [childrenOf_eq hp]
  constructor
  · intro h
    have hname := find?_some (show (childrenOf v dir).find? _ = some c from h)
    obtain ⟨f, hf, hpar⟩ :=
      (hiff c).1 (mem_of_find?_eq_some (show (childrenOf v dir).find? _ = some c from h))
    rw [decide_eq_true_eq, nameOf_eq hf] at hname
    exact ⟨f, hf, hpar, hname⟩
  · rintro ⟨f, hf, hpar, hname⟩
    show (childrenOf v dir).find? _ = some c
    rcases hfind : (childrenOf v dir).find? fun c => nameOf v c = name with _ | b
    · refine absurd ?_ (find?_eq_none.1 hfind c ((hiff c).2 ⟨f, hf, hpar⟩))
      simp [nameOf_eq hf, hname]
    -- the names in a directory differ
    obtain ⟨g, hg, hpar'⟩ := (hiff b).1 (mem_of_find?_eq_some hfind)
    have hname' := find?_some hfind
    rw [decide_eq_true_eq, nameOf_eq hg] at hname'
    rw [N.unique b g c f hg hf (hpar' ▸ hdir) (hpar'.trans hpar.symm) (hname'.trans hname.symm)]

theorem of_child (hdir : dir ≠ 0) (h : (spaceOf v).child dir name = some c) :
    NameOk name ∧ (spaceOf v).isDir dir = true := by
  obtain ⟨f, hf, hpar, hname⟩ := (N.child_eq_some hdir).1 h
  refine ⟨hname ▸ N.valid c f hf (hpar ▸ hdir), ?_⟩
  obtain ⟨p, hp, hmem⟩ := N.parentOf_live hf (hpar ▸ hdir)
  rw [hpar] at hp
  obtain ⟨n, hn, O⟩ := N.node_of hp
  exact (congrArg sIsdir (modeOf_eq hp hn)).trans (O.dir (.inl (ne_nil_of_mem hmem)))

theorem dcacheGet (hdir : dir ≠ 0) (name : Str) : ∃ hit, dcacheGet v dir name = .ok hit ∧
    ((hit ≠ 0 ∧ (spaceOf v).child dir name = some hit) ∨
      hit = 0 ∧ ∃ buckets, CacheOk v buckets ∧
      CacheHit v dir name (buckets (dcacheHash dir name)) 0) := by
  obtain ⟨buckets, C⟩ := N.cache
  have hfuel : (buckets (dcacheHash dir name)).length < 2 ^ 64 :=
    length_lt_of_nodup (C.nodup _) fun x hx => N.ne_zero (C.live hx)
  refine ⟨_, dcacheFind_eq (C.chain _) (fun x hx => C.live hx) hfuel, ?_⟩
  rcases hfind : (buckets (dcacheHash dir name)).find? fun x => parentOf v x = dir ∧
    nameOf v x = name with _ | _
  · refine .inr ⟨rfl, buckets, C, ?_⟩
    intro x hx h
    exact find?_eq_none.1 hfind x hx (decide_eq_true h)
  obtain ⟨f, hf⟩ := C.live (mem_of_find?_eq_some hfind)
  have hhit := find?_some hfind
  rw [decide_eq_true_eq, parentOf_eq hf, nameOf_eq hf] at hhit
  exact .inl ⟨N.ne_zero ⟨f, hf⟩, (N.child_eq_some hdir).2 ⟨f, hf, hhit⟩⟩

theorem lookupUp (h : v.ventries a = some e) : lookupUp v a e = .ok ((aboveOf v a).getD 0) := by
  rw [Fs.lookupUp, aboveOf, parentOf_eq h]
  split_ifs
  · rfl
  cases hfind : v.mounts.find? fun mp => mp.root = some a with
  | none => rfl
  | some mp =>
    dsimp only
    by_cases hroot : mp.mountpoint = v.rootNode
    · simp [hroot]
    obtain ⟨f, hf, -⟩ := N.mounts mp (mem_of_find?_eq_some hfind)
    rw [if_neg hroot, if_neg hroot, ventry_eq (N.ne_zero ⟨f, hf⟩) hf, parentOf_eq hf]
    split_ifs with h0
    · exact congrArg ok h0
    · rfl

end NamesOk

/-! What is found is there. -/

namespace NamesOk

theorem live_seen (h : Live v a) (hseen : seenAt v a = some dir) : Live v dir := by
  obtain ⟨e, he⟩ := h
  refine (N.toHeapOk.traverseMount (a := a) (e := e) he ?_).1
  rw [traverseMount_eq he, hseen]

theorem live_up {b : Addr} (h : Live v a) (hup : aboveOf v a = some b) : Live v b := by
  obtain ⟨e, he⟩ := h
  have hb : b ≠ 0 := by
    rintro rfl
    rw [aboveOf] at hup
    split_ifs at hup with hp
    · exact hp (some_inj.1 hup)
    split at hup
    · cases hup
    split at hup
    · exact N.ne_zero N.root.live (some_inj.1 hup)
    split at hup
    · cases hup
    · rename_i hp
      exact hp (some_inj.1 hup)
  have hptr := (N.toHeapOk.lookupUp he (N.linked a e he)).2 _ (N.lookupUp he)
  rw [hup] at hptr
  exact hptr.resolve_left hb

theorem live_child (h : Live v dir) (hchild : (spaceOf v).child dir name = some c) : Live v c := by
  obtain ⟨f, hf, -⟩ := (N.child_eq_some (N.ne_zero h)).1 hchild
  exact ⟨f, hf⟩

theorem live_step {next : Addr} (h : Live v a) (hstep : (spaceOf v).step dots a name = some next) :
    Live v next := by
  rw [Space.step] at hstep
  split at hstep
  · exact some_inj.1 hstep ▸ h
  split at hstep
  · exact N.live_up h hstep
  · obtain ⟨dir, hdir, hstep⟩ := bind_eq_some_iff.1 hstep
    exact N.live_child (N.live_seen h hdir) hstep

theorem genericFsLookup (hd : v.ventries dir = some d) (component : Str) :
    genericFsLookup component d.children v = .ok (((spaceOf v).child dir component).getD 0, v) := by
  have hlive : ∀ c ∈ d.children, c ≠ 0 ∧ ∃ f, v.ventries c = some f ∧ f.node ≠ 0 := by
    intro c hc
    obtain ⟨f, hf, hfn, -⟩ := N.child dir d hd (N.linked dir d hd) c hc
    exact ⟨N.ne_zero ⟨f, hf⟩, f, hf, hfn⟩
  have hfind : d.children.find? (fun c => (nameOf v c).take 64 = component.take 64) =
      (spaceOf v).child dir component := by
    show _ = (childrenOf v dir).find? _
    rw [childrenOf_eq hd]
    refine find?_congr fun c hc => ?_
    obtain ⟨-, f, hf, -⟩ := hlive c hc
    rw [nameOf_eq hf, decide_eq_decide]
    exact ⟨eq_of_take_eq (N.name c f hf), fun h => by rw [h]⟩
  rw [genericFsLookup_eq hlive, hfind]

/-- The search among the children, and the entry that it puts into the hash table. -/
theorem lookupChild (hd : v.ventries dir = some d) {component : Str}
    (hmiss : ∃ buckets, CacheOk v buckets ∧
    CacheHit v dir component (buckets (dcacheHash dir component)) 0) :
    ∃ w, lookupChild v component d.children = .ok (((spaceOf v).child dir component).getD 0, w) ∧
      NamesOk w ∧ Visited v w ∧ Tally v w 0 := by
  rw [Fs.lookupChild, N.genericFsLookup hd]
  show ∃ w, (if ((spaceOf v).child dir component).getD 0 ≠ 0 then _ else _) = _ ∧ _
  rcases hchild : (spaceOf v).child dir component with _ | c
  · exact ⟨v, rfl, N, .refl v, .refl v⟩
  obtain ⟨f, hf, hpar, hname⟩ := (N.child_eq_some (N.ne_zero ⟨d, hd⟩)).1 hchild
  have hc := N.ne_zero ⟨f, hf⟩
  obtain ⟨buckets, C, hmiss⟩ := hmiss
  have hnew : c ∉ buckets (dcacheHash f.parent f.name) := by
    rw [hpar, hname]
    exact fun hin => hmiss c hin ⟨by rw [parentOf_eq hf, hpar], by rw [nameOf_eq hf, hname]⟩
  have hinsert := (N.toHeapOk.dcacheInsert ⟨f, hf⟩ hf ⟨buckets, C, hnew⟩).2
  rw [getD_some, if_pos hc]
  rw [dcacheInsert, ventry_eq hc hf] at hinsert ⊢
  obtain ⟨H, L⟩ := hinsert _ rfl
  have T := tally_setVentry hf
    (show { f with next := v.hashTable (dcacheHash f.parent f.name) }.count =
    f.count + 0 from (add_zero _).symm)
  rw [Pi.single_zero] at T
  have V : Visited v _ := ⟨L, fun O => absurd (O.mem_bucket C hf (hpar ▸ N.ne_zero ⟨d, hd⟩)) hnew⟩
  exact ⟨_, rfl, N.looked L H, V, T⟩

end NamesOk

/-- What one component leads to, as the loop has it: null and an error both end it with
`-ENOENT`. -/
def Leads (next : Option Addr) (r : Except Errno Addr) : Prop :=
  match next with
  | some a => r = .ok a
  | none => r = .ok 0 ∨ r = .error .enoent

omit N in
theorem leads_getD (next : Option Addr) : Leads next (.ok (next.getD 0)) := by
  cases next with
  | none => exact .inl rfl
  | some a => rfl

theorem NamesOk.lookupNext (h : Live v a) (component : Str) :
    ∃ r w, lookupNext v a component = .ok (r, w) ∧
    Leads ((spaceOf v).step dots a component) r ∧ NamesOk w ∧ Visited v w ∧
    Tally v w (-Pi.single a 1) := by
  obtain ⟨e, he⟩ := h
  have ha := N.ne_zero ⟨e, he⟩
  -- the cases that end with `ventry_put(current)`
  have hput : ∀ (next : Option Addr) (r : Except Errno Addr), Leads next r → ∃ r' w,
      (ventryPut v a >>= fun w => ok (r, w)) = .ok (r', w) ∧ Leads next r' ∧ NamesOk w ∧
      Visited v w ∧
        Tally v w (-Pi.single a 1) := by
    intro next r hr
    obtain ⟨w, hw, R, T⟩ := N.put ⟨e, he⟩
    rw [hw]
    exact ⟨r, w, rfl, hr, N.recount R, R.visited, T⟩
  rw [Fs.lookupNext, ventry_eq ha he]
  show ∃ r w, (if component = [dot] then _ else _) = _ ∧ _
  rw [Space.step]
  by_cases hdot : component = [dot]
  · rw [if_pos hdot, if_pos (show component = dots.here from hdot)]
    exact hput _ _ rfl
  rw [if_neg hdot, if_neg (show component ≠ dots.here from hdot)]
  by_cases hdotdot : component = [dot, dot]
  · rw [if_pos hdotdot, if_pos (show component = dots.above from hdotdot), N.lookupUp he]
    exact hput _ _ (leads_getD _)
  rw [if_neg hdotdot, if_neg (show component ≠ dots.above from hdotdot), traverseMount_eq he]
  show ∃ r w, _ ∧ Leads ((seenAt v a).bind _) r ∧ _
  rcases hseen : seenAt v a with _ | dir
  · exact hput _ _ (.inr rfl)
  have hdir := N.live_seen ⟨e, he⟩ hseen
  -- the reference goes to what is seen
  obtain ⟨v₁, hv₁, R, T⟩ : ∃ v₁, enterMount v a dir = .ok v₁ ∧ Counted v v₁ ∧
      Tally v v₁ (-Pi.single a 1 + Pi.single dir 1) := by
    rw [enterMount]
    by_cases hsame : dir = a
    · rw [if_pos hsame, hsame, neg_add_cancel]
      exact ⟨v, rfl, .refl v, .refl v⟩
    obtain ⟨v₁, hv₁, R₁, T₁⟩ := N.put ⟨e, he⟩
    obtain ⟨v₂, hv₂, R₂, T₂⟩ := (N.recount R₁).ref (R₁.live dir hdir)
    rw [if_neg hsame, hv₁]
    exact ⟨v₂, hv₂, R₁.trans R₂, T₁.trans T₂⟩
  have hback : -Pi.single a 1 + Pi.single dir 1 + -Pi.single dir 1 =
      (-Pi.single a 1 : Addr → BitVec 32) :=
    add_neg_cancel_right ..
  have N₁ := N.recount R
  have hdir₁ := R.live dir hdir
  dsimp only
  rw [hv₁, bind_some, ← R.toLooked.spaceOf]
  show ∃ r w, (Fs.dcacheGet v₁ dir component >>= fun hit => _) = _ ∧ _
  obtain ⟨hit, hget, ⟨hhit, hchild⟩ | ⟨rfl, hmiss⟩⟩ := N₁.dcacheGet (N₁.ne_zero hdir₁) component
  · -- in the hash table
    obtain ⟨w, hw, R', T'⟩ := N₁.put hdir₁
    rw [hget]
    show ∃ r w, (if hit ≠ 0 then _ else _) = _ ∧ _
    rw [if_pos hhit, hw, hchild]
    exact ⟨.ok hit, w, rfl, rfl, N₁.recount R', (R.trans R').visited, hback ▸ T.trans T'⟩
  · obtain ⟨d, hd⟩ := hdir₁
    have hdn := N₁.linked dir d hd
    obtain ⟨n, hn⟩ := N₁.node dir d hd hdn
    rw [hget, ventry_eq (N₁.ne_zero ⟨d, hd⟩) hd]
    show ∃ r w, (v₁.vnode d.node >>= fun n => _) = _ ∧ _
    rw [vnode_eq hdn hn]
    show ∃ r w, (if n.iops.lookup = true then _ else _) = _ ∧ _
    by_cases hop : n.iops.lookup = true
    · obtain ⟨v₂, hv₂, N₂, L, T₀⟩ := N₁.lookupChild hd hmiss
      obtain ⟨w, hw, R', T'⟩ := N₂.put (L.live dir ⟨d, hd⟩)
      rw [if_pos hop, hv₂]
      show ∃ r w, (ventryPut v₂ dir >>= fun w => _) = _ ∧ _
      rw [hw]
      refine ⟨_, w, rfl, leads_getD _, N₂.recount R', (R.visited.trans L).trans R'.visited, ?_⟩
      rw [← hback, ← add_zero (-Pi.single a 1 + Pi.single dir 1)]
      exact (T.trans T₀).trans T'
    · -- a directory in which nothing is looked up has no children
      have hnone : (spaceOf v₁).child dir component = none := by
        have hchildren : d.children = [] := by
          by_contra hne
          exact hop ((N₁.nodeOk dir d n hd hn).lookup hne)
        show (childrenOf v₁ dir).find? _ = none
        rw [childrenOf_eq hd, hchildren, find?_nil]
      obtain ⟨w, hw, R', T'⟩ := N₁.put ⟨d, hd⟩
      rw [if_neg hop, hw, hnone]
      exact ⟨_, w, rfl, .inr rfl, N₁.recount R', (R.trans R').visited, hback ▸ T.trans T'⟩

end Component

/-! ## The loop -/

section Loop

variable {v : Vfs} {a : Addr}

theorem NamesOk.lookupEnd (N : NamesOk v) (h : Live v a) :
    lookupEnd v a = .ok (lookupStatus ((spaceOf v).arrive a), v) := by
  obtain ⟨e, he⟩ := h
  have ha := N.ne_zero ⟨e, he⟩
  rw [Fs.lookupEnd, if_neg ha, ventry_eq ha he]
  show ok (Fs.traverseMount v a e, v) = _
  rw [traverseMount_eq he, Space.arrive, show (spaceOf v).seen a = seenAt v a from rfl]
  cases seenAt v a <;> rfl

theorem NamesOk.lookupLoop (N : NamesOk v) (parent : Bool) {fuel : Nat}
    (hfuel : path.length ≤ fuel) (hnul : 0 ∉ path) (h : Live v a) :
    ∃ w, lookupLoop parent fuel v a (zeroed path) =
        .ok (lookupStatus ((spaceOf v).walk dots parent a (components slash path)), w) ∧
      NamesOk w ∧ Visited v w ∧ Tally v w 0 := by
  induction fuel generalizing v a path with
  | zero =>
    obtain rfl : path = [] := length_eq_zero_iff.1 (Nat.le_zero.1 hfuel)
    exact ⟨v, N.lookupEnd h, N, .refl v, .refl v⟩
  | succ fuel ih =>
    rcases path with _ | ⟨c, cs⟩
    · exact ⟨v, N.lookupEnd h, N, .refl v, .refl v⟩
    have hnul' := hnul
    rw [mem_cons, not_or] at hnul'
    by_cases hslash : c = slash
    · -- a separator is skipped
      subst hslash
      exact ih N (Nat.le_of_succ_le_succ hfuel) hnul'.2 h
    have hzero : c ≠ 0 := fun h0 => hnul'.1 h0.symm
    have hbuffer : zeroed (c :: cs) = c :: zeroed cs := by simp [zeroed, hslash]
    obtain ⟨v₁, hv₁, R, T⟩ := N.ref h
    have N₁ := N.recount R
    have hback : Pi.single a 1 + -Pi.single a 1 = (0 : Addr → BitVec 32) := add_neg_cancel _
    obtain ⟨e, he⟩ := R.live a h
    have hen := N₁.linked a e he
    obtain ⟨n, hn⟩ := N₁.node a e he hen
    have hdir : (spaceOf v).isDir a = sIsdir n.mode := by
      rw [← R.toLooked.spaceOf]
      exact congrArg sIsdir (modeOf_eq he hn)
    rw [hbuffer, Fs.lookupLoop, if_neg hzero, if_neg (N.ne_zero h), hv₁, ← hbuffer]
    dsimp only
    rw [takeWhile_zeroed hnul, drop_zeroed, components_of_ne hslash, Space.walk, hdir]
    show ∃ w, (v₁.ventry a >>= fun e => _) = _ ∧ _
    rw [ventry_eq (N₁.ne_zero ⟨e, he⟩) he]
    show ∃ w, (v₁.vnode e.node >>= fun n => _) = _ ∧ _
    rw [vnode_eq hen hn]
    show ∃ w, (if sIsdir n.mode = true then _ else _) = _ ∧ _
    rcases sIsdir n.mode with _ | _
    · obtain ⟨w, hw, R', T'⟩ := N₁.put ⟨e, he⟩
      rw [hw]
      exact ⟨w, rfl, N₁.recount R', (R.trans R').visited, hback ▸ T.trans T'⟩
    have hrest : 0 ∉ (c :: cs).dropWhile (· ≠ slash) := fun h => hnul ((dropWhile_sublist _).mem h)
    rw [if_pos rfl, if_neg Bool.false_ne_true.symm]
    by_cases hlast : parent = true ∧ components slash ((c :: cs).dropWhile (· ≠ slash)) = []
    · obtain ⟨w, hw, R', T'⟩ := N₁.put ⟨e, he⟩
      have N' := N₁.recount R'
      rw [if_pos ⟨(all_zeroed hrest).2 hlast.2, hlast.1⟩, if_pos hlast, hw]
      refine ⟨w, (N'.lookupEnd (R'.live a ⟨e, he⟩)).trans ?_, N', (R.trans R').visited,
        hback ▸ T.trans T'⟩
      rw [(R.trans R').toLooked.spaceOf]
    · rw [if_neg fun h => hlast ⟨h.2, (all_zeroed hrest).1 h.1⟩, if_neg hlast]
      obtain ⟨r, v₂, hv₂, hr, N₂, L, T'⟩ := N₁.lookupNext ⟨e, he⟩ ((c :: cs).takeWhile (· ≠ slash))
      have L₂ := R.visited.trans L
      have T₂ : Tally v v₂ 0 := hback ▸ T.trans T'
      rw [hv₂]
      rw [R.toLooked.spaceOf] at hr
      cases hstep : (spaceOf v).step dots a ((c :: cs).takeWhile (· ≠ slash)) with rw [hstep] at hr
      | none =>
        obtain rfl | rfl := hr
        · exact ⟨v₂, lookupLoop_zero .., N₂, L₂, T₂⟩
        · exact ⟨v₂, rfl, N₂, L₂, T₂⟩
      | some next =>
        obtain rfl : r = .ok next := hr
        have hlen : (((c :: cs).dropWhile (· ≠ slash)).drop 1).length ≤ fuel := by
          rw [length_drop]
          have := (@List.dropWhile_sublist _ (c :: cs) fun x => decide (x ≠ slash)).length_le
          omega
        obtain ⟨w, hw, N', L', T₃⟩ := ih N₂ hlen (fun h => hrest (mem_of_mem_drop h))
          (L₂.live next (N.live_step h hstep))
        refine ⟨w, ?_, N', L₂.trans L', add_zero (0 : Addr → BitVec 32) ▸ T₂.trans T₃⟩
        rw [drop_one_dropWhile, L₂.spaceOf] at hw
        rw [← hw]
        show Fs.lookupLoop parent fuel v₂ next ((zeroed _).drop 1) = _
        rw [zeroed, zeroed, ← map_drop]

/-- **`vfs_lookup_at` is the walk**, unless it starts where something is mounted and asks for a name
that is below it. -/
theorem NamesOk.vfsLookupAt (N : NamesOk v) (parent : Bool) {start : Addr} (hs : Live v start)
    (hnul : 0 ∉ path) (hlen : path.length ≤ 1023)
    (hcover : Covered v start → (spaceOf v).child start path = none) :
    ∃ w, vfsLookupAt v start path parent =
        .ok (lookupStatus ((spaceOf v).walk dots parent start (components slash path)), w) ∧
      NamesOk w ∧ Visited v w ∧ Tally v w 0 := by
  have hs0 := N.ne_zero hs
  rw [Fs.vfsLookupAt]
  obtain ⟨hit, hget, ⟨hhit, hchild⟩ | ⟨rfl, -⟩⟩ := N.dcacheGet hs0 path
  · -- the path is the name of a child
    obtain ⟨f, hf, hpar, -⟩ := (N.child_eq_some hs0).1 hchild
    obtain ⟨hok, hdir⟩ := N.of_child hs0 hchild
    have hseen : seenAt v start = some start :=
      seenAt_of_bare fun hc => by simp [hcover hc] at hchild
    obtain ⟨s, hse⟩ := hs
    have hstep : (spaceOf v).step dots start path = some hit := by
      rw [Space.step, if_neg hok.dot, if_neg hok.dotdot]
      show (seenAt v start).bind _ = _
      rwa [hseen]
    refine ⟨v, ?_, N, .refl v, .refl v⟩
    rw [hget]
    show (if hit ≠ 0 then _ else _) = _
    rw [if_pos hhit, ventry_eq hhit hf, components_name hok.ne_nil hok.slash, Space.walk,
      if_neg (by rw [hdir]; exact Bool.false_ne_true.symm), hstep]
    show (v.ventry (if parent = true then f.parent else hit) >>= fun r => _) = _
    have hend := fun {b : Addr} (hb : Live v b) => N.lookupEnd hb
    simp only [Fs.lookupEnd] at hend
    cases parent with
    | true => rw [if_pos rfl, hpar, if_pos ⟨rfl, rfl⟩, ← hend ⟨s, hse⟩, if_neg hs0]
    | false =>
      rw [if_neg Bool.false_ne_true]
      show _ = ok (lookupStatus ((spaceOf v).arrive hit), v)
      rw [← hend ⟨f, hf⟩, if_neg hhit]
  · obtain ⟨w, hw, hrest⟩ := N.lookupLoop parent le_rfl hnul hs
    refine ⟨w, ?_, hrest⟩
    rwa [hget, ok_bind, if_neg (not_not.2 rfl), if_neg (by omega)]

end Loop

/-! ## Queries -/

def Query.seek (v : Vfs) (q : Query) : Except Failure Addr :=
  (spaceOf v).walk dots q.parent q.start (components slash q.path)

/-- What a lookup should answer: `kmalloc` has no room for a path of 1024 bytes. -/
def Query.answer (v : Vfs) (q : Query) : Except VfsFault (Except Errno Addr) :=
  if q.path.length ≤ 1023 then .ok (lookupStatus (q.seek v)) else .error (.tooBig
    (q.path.length + 1))

/-- It starts at an entry, with a string, and does not ask for a name below an entry on which
something is mounted. -/
structure Query.Plain (v : Vfs) (q : Query) : Prop where
  live : Live v q.start
  nul : 0 ∉ q.path
  covered : Covered v q.start → (spaceOf v).child q.start q.path = none

/-- The lookup of a task in `cwd`. -/
def queryOf (v : Vfs) (cwd : Addr) (path : Str) (parent : Bool) : Query :=
  match path with
  | c :: rest => if c = slash then ⟨v.rootNode, rest, parent⟩ else ⟨cwd, path, parent⟩
  | [] => ⟨cwd, path, parent⟩

section Query

variable {v w : Vfs} {q : Query}

theorem vfsLookup_eq (v : Vfs) (cwd : Addr) (path : Str) (parent : Bool) :
    vfsLookup v cwd path parent = (queryOf v cwd path parent).call v := by
  rcases path with _ | ⟨_, _⟩
  · rfl
  rw [vfsLookup, queryOf]
  split <;> rfl

theorem queryOf_parent (v : Vfs) (cwd : Addr) (path : Str) (parent : Bool) :
    (queryOf v cwd path parent).parent = parent := by
  rcases path with _ | ⟨_, _⟩
  · rfl
  rw [queryOf]
  split <;> rfl

theorem components_queryOf (v : Vfs) (cwd : Addr) (path : Str) (parent : Bool) :
    components slash (queryOf v cwd path parent).path = components slash path := by
  rcases path with _ | ⟨_, _⟩
  · rfl
  rw [queryOf]
  split_ifs with hc
  · rw [hc, components_sep]
  · rfl

theorem Looked.seek (L : Looked v w) (q : Query) : q.seek w = q.seek v := by
  rw [Query.seek, Query.seek, L.spaceOf]

theorem Query.Plain.looked (P : q.Plain v) (L : Looked v w) : q.Plain w :=
  ⟨L.live _ P.live, P.nul, by rw [L.covered, L.spaceOf]; exact P.covered⟩

variable (N : NamesOk v) (P : q.Plain v)

include N P

theorem NamesOk.call_of_length (hlen : q.path.length ≤ 1023) :
    ∃ w, q.call v = .ok (lookupStatus (q.seek v), w) ∧ NamesOk w ∧ Visited v w ∧ Tally v w 0 :=
  N.vfsLookupAt q.parent P.live P.nul hlen P.covered

theorem NamesOk.call_of_long (hlen : ¬q.path.length ≤ 1023) :
    q.call v = .error (.tooBig (q.path.length + 1)) := by
  have hs0 := N.ne_zero P.live
  rw [Query.call, Fs.vfsLookupAt]
  obtain ⟨hit, hget, ⟨-, hchild⟩ | ⟨rfl, -⟩⟩ := N.dcacheGet hs0 q.path
  · have hshort := (N.of_child hs0 hchild).1.short
    omega
  · rw [hget, ok_bind, if_neg (not_not.2 rfl), if_pos (by omega)]

theorem NamesOk.call_eq : (q.call v).map Prod.fst = q.answer v := by
  rw [Query.answer]
  split_ifs with hlen
  · obtain ⟨w, hw, -⟩ := N.call_of_length P hlen
    rw [hw]
    rfl
  · rw [N.call_of_long P hlen]
    rfl

theorem NamesOk.call_ok {r : Except Errno Addr} (h : q.call v = .ok (r, w)) :
    r = lookupStatus (q.seek v) ∧ NamesOk w ∧ Visited v w ∧ Tally v w 0 := by
  by_cases hlen : q.path.length ≤ 1023
  · obtain ⟨w', hw, N', L⟩ := N.call_of_length P hlen
    rw [hw] at h
    obtain ⟨rfl, rfl⟩ := h
    exact ⟨rfl, N', L⟩
  · simp [N.call_of_long P hlen] at h

omit P in
theorem NamesOk.bare_of_seen (ha : Live v a) (h : seenAt v a = some dir) : ¬Covered v dir := by
  rintro ⟨hroot, hmount⟩
  obtain ⟨d, hd⟩ := N.live_seen ha h
  rw [seenAt] at h
  split at h
  · rename_i hnone
    cases h
    rw [if_pos hroot] at hnone
    exact hmount hnone
  · rename_i mp hsome
    rw [ite_eq_iff] at hsome
    obtain ⟨-, hmp⟩ | ⟨-, hmp⟩ := hsome
    · obtain ⟨r, hr, hr0⟩ := N.mountRoot a mp hmp
      rw [hr, some_inj] at h
      rw [h, parentOf_eq hd] at hr0
      exact N.top dir d hd hr0 ⟨hroot, hmount⟩
    · cases hmp

omit P in
/-- **What a path names** is there, and nothing is mounted on it. -/
theorem NamesOk.seek_ok {a : Addr} (hs : Live v q.start) (h : q.seek v = .ok a) :
    Live v a ∧ ¬Covered v a := by
  obtain ⟨b, hb, hseen⟩ :=
    Space.walk_eq_ok (P := Live v) (fun _ _ _ hcur hstep => N.live_step hcur hstep) hs h
  exact ⟨N.live_seen hb hseen, N.bare_of_seen hb hseen⟩

end Query

end Monolith.Fs
