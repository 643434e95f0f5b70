import Monolith.Fs.Remove

/-!
# The heap of entries and nodes

An entry is *linked* as long as it has a node.  `HeapOk` says what every pointer of a linked entry
leads to: its node is there and is its own, its parent and its children are linked, the roots of
mounts are; and the buckets of the hash table are lists of entries that are there.  Entries without
a node can be left over; they have counters and a place in the hash table, and that is all.

Looking up a path keeps that, and everything else but counters and the links of the hash table
(`Looked`). A pointer to freed memory is never followed on the way, and the entry that is found is
there (`HeapOk.vfsLookupAt`).
-/

namespace Monolith.Fs

open Function Fallible List Option Ventry Vfs Except

/-- A pointer to freed memory is followed, or freed again. -/
def IsFreed : VfsFault → Prop
  | .freed _ => True
  | _ => False

def Live (v : Vfs) (a : Addr) : Prop := ∃ e, v.ventries a = some e

/-- The entry is there and has a node. -/
def Linked (v : Vfs) (a : Addr) : Prop := ∃ e, v.ventries a = some e ∧ e.node ≠ 0

/-- The buckets of the hash table are lists of entries, each in the bucket of its name. -/
structure CacheOk (v : Vfs) (buckets : Nat → List Addr) : Prop where
  chain : ∀ h, Chain (nextOf v) 0 (v.hashTable h) (buckets h)
  nodup : ∀ h, (buckets h).Nodup
  bucket : ∀ h, ∀ a ∈ buckets h, ∃ e, v.ventries a = some e ∧ dcacheHash e.parent e.name = h

/-- Where the pointers lead to. -/
structure HeapOk (v : Vfs) : Prop where
  null : v.ventries 0 = none
  nullNode : v.vnodes 0 = none
  node : ∀ a e, v.ventries a = some e → e.node ≠ 0 → ∃ n, v.vnodes e.node = some n
  single : ∀ a e b f, v.ventries a = some e → v.ventries b = some f → e.node ≠ 0 →
    e.node = f.node → a = b
  parent : ∀ a e, v.ventries a = some e → e.node ≠ 0 → e.parent ≠ 0 →
    ∃ p, v.ventries e.parent = some p ∧ p.node ≠ 0 ∧ a ∈ p.children
  child : ∀ a e, v.ventries a = some e → e.node ≠ 0 → ∀ c ∈ e.children,
    ∃ f, v.ventries c = some f ∧ f.node ≠ 0 ∧ f.parent = a
  mount : ∀ a e mp r, v.ventries a = some e → e.mount = some mp → mp.root = some r → Linked v r
  mounts : ∀ mp ∈ v.mounts, Linked v mp.mountpoint
  root : Linked v v.rootNode
  name : ∀ a e, v.ventries a = some e → e.name.length ≤ 63
  cache : ∃ buckets, CacheOk v buckets

variable {v w : Vfs} {a dir : Addr} {name : Str}

theorem Linked.live (h : Linked v a) : Live v a := by
  obtain ⟨e, he, -⟩ := h
  exact ⟨e, he⟩

theorem HeapOk.ne_zero (H : HeapOk v) (h : Live v a) : a ≠ 0 := by
  rintro rfl
  obtain ⟨e, he⟩ := h
  rw [H.null] at he
  cases he

/-- The heap is still in order, if the entries are the same and their nodes are still there. -/
theorem HeapOk.congr (H : HeapOk v) (hentries : w.ventries = v.ventries)
    (htable : w.hashTable = v.hashTable) (hroot : w.rootNode = v.rootNode)
    (hmounts : w.mounts = v.mounts) (hnull : w.vnodes 0 = none)
    (hnode : ∀ b e n, v.ventries b = some e → v.vnodes e.node = some n →
    ∃ m, w.vnodes e.node = some m) : HeapOk w := by
  have hlinked : Linked w = Linked v := by
    funext b
    rw [Linked, hentries, Linked]
  refine ⟨hentries ▸ H.null, hnull, fun b e he hn => ?_, hentries ▸ H.single, hentries ▸ H.parent,
    hentries ▸ H.child, hlinked ▸ hentries ▸ H.mount, hlinked ▸ hmounts ▸ H.mounts,
    hlinked ▸ hroot ▸ H.root, hentries ▸ H.name, ?_⟩
  · rw [hentries] at he
    obtain ⟨n, hn⟩ := H.node b e he hn
    exact hnode b e n he hn
  obtain ⟨buckets, C⟩ := H.cache
  refine ⟨buckets, fun i => ?_, C.nodup, hentries ▸ C.bucket⟩
  rw [htable, show nextOf w = nextOf v by funext b; rw [nextOf, nextOf, hentries]]
  exact C.chain i

/-! ## What a lookup changes -/

/-- An entry without its link in the hash table and its counter. -/
def Ventry.bare (e : Ventry) : Ventry := { e with next := 0, count := 0 }

section Bare

variable {e f : Ventry} (h : f.bare = e.bare)

include h

theorem Ventry.name_of_bare : f.name = e.name := show f.bare.name = e.bare.name by rw [h]
theorem Ventry.node_of_bare : f.node = e.node := show f.bare.node = e.bare.node by rw [h]
theorem Ventry.parent_of_bare : f.parent = e.parent := show f.bare.parent = e.bare.parent by rw [h]
theorem Ventry.children_of_bare : f.children = e.children :=
  show f.bare.children = e.bare.children by rw [h]
theorem Ventry.mount_of_bare : f.mount = e.mount := show f.bare.mount = e.bare.mount by rw [h]

end Bare

/-- The file systems differ in counters, in the hash table, and in entries without a node that `w`
does not have. -/
structure Thinned (v w : Vfs) : Prop where
  vnodes : w.vnodes = v.vnodes
  openFiles : w.openFiles = v.openFiles
  sockets : w.sockets = v.sockets
  rootNode : w.rootNode = v.rootNode
  mounts : w.mounts = v.mounts
  keep : ∀ a e, v.ventries a = some e → e.node ≠ 0 → ∃ f, w.ventries a = some f ∧ f.bare = e.bare
  back : ∀ a f, w.ventries a = some f → ∃ e, v.ventries a = some e ∧ f.bare = e.bare

/-- They have the same entries. -/
structure Looked (v w : Vfs) : Prop extends Thinned v w where
  live : ∀ a, Live v a → Live w a

/-- They differ in counters only. -/
structure Recount (v w : Vfs) : Prop extends Looked v w where
  next : nextOf w = nextOf v
  hashTable : w.hashTable = v.hashTable

section Thinned

variable {u v w : Vfs} {a : Addr} {e e' : Ventry}

theorem Thinned.refl (v : Vfs) : Thinned v v :=
  ⟨rfl, rfl, rfl, rfl, rfl, fun _ e h _ => ⟨e, h, rfl⟩, fun _ f h => ⟨f, h, rfl⟩⟩

theorem Thinned.trans (T : Thinned u v) (T' : Thinned v w) : Thinned u w where
  vnodes := T'.vnodes.trans T.vnodes
  openFiles := T'.openFiles.trans T.openFiles
  sockets := T'.sockets.trans T.sockets
  rootNode := T'.rootNode.trans T.rootNode
  mounts := T'.mounts.trans T.mounts
  keep a e h hn := by
    obtain ⟨f, hf, hb⟩ := T.keep a e h hn
    obtain ⟨g, hg, hb'⟩ := T'.keep a f hf (node_of_bare hb ▸ hn)
    exact ⟨g, hg, hb'.trans hb⟩
  back a g h := by
    obtain ⟨f, hf, hb⟩ := T'.back a g h
    obtain ⟨e, he, hb'⟩ := T.back a f hf
    exact ⟨e, he, hb.trans hb'⟩

theorem Thinned.linked (T : Thinned v w) (h : Linked v a) : Linked w a := by
  obtain ⟨e, he, hn⟩ := h
  obtain ⟨f, hf, hb⟩ := T.keep a e he hn
  exact ⟨f, hf, node_of_bare hb ▸ hn⟩

theorem Looked.refl (v : Vfs) : Looked v v := ⟨.refl v, fun _ h => h⟩

theorem Looked.trans (L : Looked u v) (L' : Looked v w) : Looked u w :=
  ⟨L.toThinned.trans L'.toThinned, fun a h => L'.live a (L.live a h)⟩

theorem Recount.refl (v : Vfs) : Recount v v := ⟨.refl v, rfl, rfl⟩

theorem Recount.trans (R : Recount u v) (R' : Recount v w) : Recount u w :=
  ⟨R.toLooked.trans R'.toLooked, R'.next.trans R.next, R'.hashTable.trans R.hashTable⟩

theorem Looked.views (L : Looked v w) (h : Live v a) :
    nameOf w a = nameOf v a ∧ parentOf w a = parentOf v a := by
  obtain ⟨f, hf⟩ := L.live a h
  obtain ⟨e, he, hb⟩ := L.back a f hf
  rw [nameOf_eq hf, nameOf_eq he, parentOf_eq hf, parentOf_eq he]
  exact ⟨name_of_bare hb, parent_of_bare hb⟩

theorem looked_setVentry (h : v.ventries a = some e) (hb : e'.bare = e.bare) :
    Looked v (v.setVentry a e') := by
  refine ⟨⟨rfl, rfl, rfl, rfl, rfl, fun b f hf _ => ?_, fun b f hf => ?_⟩, fun b hlive => ?_⟩
  · by_cases hba : b = a
    · rw [hba, h, some_inj] at hf
      exact ⟨e', hba ▸ ventries_set_self .., hf ▸ hb⟩
    · exact ⟨f, (ventries_set_ne _ _ hba).trans hf, rfl⟩
  · by_cases hba : b = a
    · rw [hba, ventries_set_self, some_inj] at hf
      exact ⟨e, hba ▸ h, hf ▸ hb⟩
    · exact ⟨f, (ventries_set_ne _ _ hba) ▸ hf, rfl⟩
  · by_cases hba : b = a
    · exact ⟨e', hba ▸ ventries_set_self ..⟩
    · obtain ⟨f, hf⟩ := hlive
      exact ⟨f, (ventries_set_ne _ _ hba).trans hf⟩

/-- **All that is left to show** is that the hash table is in order. -/
theorem HeapOk.thinned (H : HeapOk v) (T : Thinned v w) (hcache : ∃ buckets, CacheOk w buckets) :
    HeapOk w where
  null := by
    by_contra hne
    obtain ⟨f, hf⟩ := ne_none_iff_exists'.1 hne
    obtain ⟨e, he, -⟩ := T.back 0 f hf
    exact H.ne_zero ⟨e, he⟩ rfl
  nullNode := T.vnodes ▸ H.nullNode
  node a f hf hn := by
    obtain ⟨e, he, hb⟩ := T.back a f hf
    rw [node_of_bare hb] at hn ⊢
    rw [T.vnodes]
    exact H.node a e he hn
  single a f b g hf hg hn hfg := by
    obtain ⟨e, he, hb⟩ := T.back a f hf
    obtain ⟨d, hd, hb'⟩ := T.back b g hg
    rw [node_of_bare hb] at hn hfg
    rw [node_of_bare hb'] at hfg
    exact H.single a e b d he hd hn hfg
  parent a f hf hn hp := by
    obtain ⟨e, he, hb⟩ := T.back a f hf
    rw [node_of_bare hb] at hn
    rw [parent_of_bare hb] at hp ⊢
    obtain ⟨p, hpar, hpn, hmem⟩ := H.parent a e he hn hp
    obtain ⟨q, hq, hb'⟩ := T.keep _ p hpar hpn
    exact ⟨q, hq, node_of_bare hb' ▸ hpn, children_of_bare hb' ▸ hmem⟩
  child a f hf hn c hc := by
    obtain ⟨e, he, hb⟩ := T.back a f hf
    rw [node_of_bare hb] at hn
    rw [children_of_bare hb] at hc
    obtain ⟨g, hg, hgn, hgp⟩ := H.child a e he hn c hc
    obtain ⟨g', hg', hb'⟩ := T.keep c g hg hgn
    exact ⟨g', hg', node_of_bare hb' ▸ hgn, (parent_of_bare hb').trans hgp⟩
  mount a f mp r hf hm hr := by
    obtain ⟨e, he, hb⟩ := T.back a f hf
    exact T.linked (H.mount a e mp r he (mount_of_bare hb ▸ hm) hr)
  mounts mp hmp := T.linked (H.mounts mp (T.mounts ▸ hmp))
  root := by
    rw [T.rootNode]
    exact T.linked H.root
  name a f hf := by
    obtain ⟨e, he, hb⟩ := T.back a f hf
    rw [name_of_bare hb]
    exact H.name a e he
  cache := hcache

end Thinned

/-! ## The hash table -/

section Cache

variable {v : Vfs} {a : Addr} {e e' : Ventry} {buckets : Nat → List Addr}

theorem CacheOk.live (C : CacheOk v buckets) {h : Nat} {x : Addr} (hx : x ∈ buckets h) :
    Live v x := by
  obtain ⟨e, he, -⟩ := C.bucket h x hx
  exact ⟨e, he⟩

theorem CacheOk.recount (C : CacheOk v buckets) (R : Recount v w) : CacheOk w buckets := by
  refine ⟨fun i => ?_, C.nodup, fun i x hx => ?_⟩
  · rw [R.next, R.hashTable]
    exact C.chain i
  obtain ⟨e, he, hhash⟩ := C.bucket i x hx
  obtain ⟨f, hf⟩ := R.live x ⟨e, he⟩
  obtain ⟨e', he', hb⟩ := R.back x f hf
  rw [he, some_inj] at he'
  rw [he', ← parent_of_bare hb, ← name_of_bare hb] at hhash
  exact ⟨f, hf, hhash⟩

theorem CacheOk.insert (C : CacheOk v buckets) (ha : a ≠ 0) (h : v.ventries a = some e)
    (hnew : a ∉ buckets (dcacheHash e.parent e.name)) (hentry : w.ventries = update v.ventries a
      (some { e with next := v.hashTable (dcacheHash e.parent e.name) }))
    (htable : w.hashTable = update v.hashTable (dcacheHash e.parent e.name) a) :
    CacheOk w (update buckets (dcacheHash e.parent e.name)
    (a :: buckets (dcacheHash e.parent e.name))) := by
  have hother : ∀ i, a ∉ buckets i := by
    intro i hi
    obtain ⟨f, hf, hhash⟩ := C.bucket i a hi
    rw [h, some_inj] at hf
    rw [← hf] at hhash
    exact hnew (hhash ▸ hi)
  have hself : w.ventries a = some { e with next := v.hashTable (dcacheHash e.parent e.name) } := by
    rw [hentry, update_self]
  have hold : ∀ i, ∀ x ∈ buckets i, w.ventries x = v.ventries x := by
    intro i x hx
    have hxa : x ≠ a := by
      rintro rfl
      exact hother i hx
    rw [hentry, update_of_ne hxa]
  have hnext : ∀ i, ∀ x ∈ buckets i, nextOf w x = nextOf v x := by
    intro i x hx
    simp [nextOf, hold i x hx]
  have hbucket i x (hx : x ∈ buckets i) : ∃ f, w.ventries x = some f ∧
      dcacheHash f.parent f.name = i := by
    rw [hold i x hx]
    exact C.bucket i x hx
  refine ⟨fun i => ?_, fun i => ?_, fun i x hx => ?_⟩
  · by_cases hi : i = dcacheHash e.parent e.name
    · rw [htable, hi, update_self, update_self]
      exact ((C.chain _).congr (hnext _)).push ha (nextOf_eq hself)
    · rw [htable, update_of_ne hi, update_of_ne hi]
      exact (C.chain i).congr (hnext i)
  · by_cases hi : i = dcacheHash e.parent e.name
    · rw [hi, update_self]
      exact nodup_cons.2 ⟨hnew, C.nodup _⟩
    · rw [update_of_ne hi]
      exact C.nodup i
  · by_cases hi : i = dcacheHash e.parent e.name
    · rw [hi, update_self, mem_cons] at hx
      rcases hx with rfl | hx
      · exact ⟨_, hself, hi.symm⟩
      · exact hi ▸ hbucket _ x hx
    · rw [update_of_ne hi] at hx
      exact hbucket i x hx

end Cache

/-! ## Following pointers -/

section Pointers

variable {v : Vfs} {a : Addr} {e : Ventry}

/-- A pointer to an entry that is null or to one that is there. -/
def Ptr (v : Vfs) (a : Addr) : Prop := a = 0 ∨ Live v a

theorem Looked.ptr (L : Looked v w) (h : Ptr v a) : Ptr w a := h.imp id (L.live a)

theorem meets_ventry (h : Ptr v a) : Meets IsFreed (v.ventry a) fun e => v.ventries a = some e := by
  refine ⟨fun fault hfault => ?_, fun e he => (ventry_eq_ok.1 he).2⟩
  rw [Vfs.ventry] at hfault
  split_ifs at hfault with ha
  · cases hfault
    exact id
  · obtain ⟨e, he⟩ := h.resolve_left ha
    simp [he] at hfault

theorem meets_ventry_bind {β : Type} {Q : β → Prop} {k : Ventry → Except VfsFault β}
    (he : v.ventries a = some e) (hk : Meets IsFreed (k e) Q) :
    Meets IsFreed (v.ventry a >>= k) Q := by
  refine (meets_ventry (.inr ⟨e, he⟩)).bind fun f hf => ?_
  obtain rfl := mem_unique he hf
  exact hk

theorem meets_vnode (h : a ≠ 0 → ∃ n, v.vnodes a = some n) :
    Meets IsFreed (v.vnode a) fun n => a ≠ 0 ∧ v.vnodes a = some n := by
  refine ⟨fun fault hfault => ?_, fun n hn => vnode_eq_ok.1 hn⟩
  rw [Vfs.vnode] at hfault
  split_ifs at hfault with ha
  · cases hfault
    exact id
  · obtain ⟨n, hn⟩ := h ha
    simp [hn] at hfault

theorem recount_setVentry (h : v.ventries a = some e) (count : BitVec 32) :
    Recount v (v.setVentry a { e with count }) := by
  refine ⟨looked_setVentry h rfl, ?_, rfl⟩
  funext b
  by_cases hba : b = a
  · rw [hba, nextOf_eq (v.ventries_set_self _), nextOf_eq h]
  · rw [nextOf, nextOf, ventries_set_ne _ _ hba]

theorem meets_ventryRef (h : Ptr v a) :
    Meets IsFreed (ventryRef v a) fun w => Recount v w ∧ Live w a :=
  (meets_ventry h).bind fun e he => meets_ok.2 ⟨recount_setVentry he (e.count + 1), _,
    v.ventries_set_self _⟩

theorem meets_ventryPut (h : Linked v a) : Meets IsFreed (ventryPut v a) fun w => Recount v w := by
  obtain ⟨e, he, hn⟩ := h
  refine meets_ventry_bind he ?_
  dsimp only
  rw [if_pos hn, ite_self]
  exact meets_ok.2 (recount_setVentry he (e.count - 1))

variable (H : HeapOk v)

include H

theorem HeapOk.meets_node (h : v.ventries a = some e) :
    Meets IsFreed (v.vnode e.node) fun n => e.node ≠ 0 ∧ v.vnodes e.node = some n :=
  meets_vnode (H.node a e h)

theorem HeapOk.recount (R : Recount v w) : HeapOk w := by
  obtain ⟨buckets, C⟩ := H.cache
  exact H.thinned R.toThinned ⟨buckets, C.recount R⟩

theorem HeapOk.dcacheInsert (h : Live v a) {e : Ventry} (he : v.ventries a = some e)
    (hnew : ∃ buckets, CacheOk v buckets ∧ a ∉ buckets (dcacheHash e.parent e.name)) :
    Meets IsFreed (dcacheInsert v a) fun w => HeapOk w ∧ Looked v w := by
  refine meets_ventry_bind he (meets_ok.2 ?_)
  obtain ⟨buckets, C, hnew⟩ := hnew
  have L := @looked_setVentry v a e
    { e with next := v.hashTable (dcacheHash e.parent e.name) } he rfl
  -- the table itself is no entry
  have L' : Looked v
      { v.setVentry a { e with next := v.hashTable (dcacheHash e.parent e.name) } with
      hashTable := update v.hashTable (dcacheHash e.parent e.name) a } :=
    ⟨⟨rfl, rfl, rfl, rfl, rfl, L.keep, L.back⟩, L.live⟩
  exact ⟨H.thinned L'.toThinned ⟨_, C.insert (H.ne_zero h) he hnew rfl rfl⟩, L'⟩

end Pointers

/-! ## `fs/lookup.c` -/

section Lookup

variable {v : Vfs} {a : Addr} {e : Ventry}

/-- What is found in the hash table, or that there is nothing. -/
def CacheHit (v : Vfs) (parent : Addr) (name : Str) (buckets : List Addr) (hit : Addr) : Prop :=
  if hit = 0 then ∀ x ∈ buckets, ¬(parentOf v x = parent ∧ nameOf v x = name)
  else Live v hit ∧ parentOf v hit = parent ∧ nameOf v hit = name

theorem meets_dcacheFind {parent : Addr} {xs : List Addr} {cur : Addr} (fuel : Nat)
    (hchain : Chain (nextOf v) 0 cur xs) (hlive : ∀ x ∈ xs, Live v x) :
    Meets IsFreed (dcacheFind v parent name fuel cur) fun hit => CacheHit v parent name xs hit := by
  induction fuel generalizing cur xs with
  | zero => exact meets_error.2 id
  | succ fuel ih =>
    refine meets_ite (fun hcur => meets_ok.2 ?_) fun hcur => ?_
    · -- the end of the bucket
      cases xs with
      | nil => exact fun x hx => absurd hx not_mem_nil
      | cons x xs => exact absurd (hchain.1.symm.trans hcur) hchain.2.1
    · rcases xs with _ | ⟨_, _⟩
      · exact absurd hchain hcur
      obtain ⟨rfl, -, hrest⟩ := hchain
      refine (meets_ventry (.inr (hlive cur mem_cons_self))).bind fun e he => ?_
      rw [nextOf_eq he] at hrest
      refine meets_ite (fun hit => meets_ok.2 ?_) fun hmiss => ?_
      · rw [CacheHit, if_neg hcur, parentOf_eq he, nameOf_eq he]
        exact ⟨⟨e, he⟩, hit⟩
      refine (ih hrest fun y hy => hlive y (mem_cons_of_mem cur hy)).mono fun hit hhit => ?_
      rw [CacheHit] at hhit ⊢
      split_ifs at hhit with h0
      · rw [if_pos h0]
        intro y hy
        rcases mem_cons.1 hy with rfl | hy
        · rwa [parentOf_eq he, nameOf_eq he]
        · exact hhit y hy
      · rwa [if_neg h0]

variable (H : HeapOk v)

include H

theorem HeapOk.dcacheGet (parent : Addr) (name : Str) :
    Meets IsFreed (dcacheGet v parent name) fun hit => ∃ buckets, CacheOk v buckets ∧
      CacheHit v parent name (buckets (dcacheHash parent name)) hit := by
  obtain ⟨buckets, C⟩ := H.cache
  exact (meets_dcacheFind _ (C.chain _) fun x hx => C.live hx).mono fun hit hhit =>
    ⟨buckets, C, hhit⟩

theorem HeapOk.traverseMount (h : v.ventries a = some e) {r : Addr}
    (hr : traverseMount v a e = .ok r) : Live v r ∧ (e.node ≠ 0 → Linked v r) := by
  rw [Fs.traverseMount] at hr
  split_ifs at hr
  · rcases hm : e.mount with _ | mp
    · rw [hm, ok.injEq] at hr
      rw [← hr]
      exact ⟨⟨e, h⟩, fun hn => ⟨e, h, hn⟩⟩
    rw [hm] at hr
    dsimp only at hr
    rcases hroot : mp.root with _ | root
    · simp [hroot] at hr
    rw [hroot, ok.injEq] at hr
    rw [← hr]
    have hl := H.mount a e mp root h hm hroot
    exact ⟨hl.live, fun _ => hl⟩
  · rw [ok.injEq] at hr
    rw [← hr]
    exact ⟨⟨e, h⟩, fun hn => ⟨e, h, hn⟩⟩

theorem HeapOk.lookupUp (h : v.ventries a = some e) (hn : e.node ≠ 0) :
    Meets IsFreed (lookupUp v a e) fun next => Ptr v next := by
  refine meets_ite (fun hp => meets_ok.2 ?_) fun _ => ?_
  · obtain ⟨p, hpar, -⟩ := H.parent a e h hn hp
    exact .inr ⟨p, hpar⟩
  split
  · exact meets_ok.2 (.inl rfl)
  rename_i mp hfind
  obtain ⟨f, hf, hfn⟩ := H.mounts mp (mem_of_find?_eq_some hfind)
  refine meets_ite (fun _ => meets_ok.2 (.inr H.root.live)) fun _ => ?_
  refine meets_ventry_bind hf (meets_ok.2 ?_)
  by_cases hp : f.parent = 0
  · exact .inl hp
  · obtain ⟨p, hpar, -⟩ := H.parent _ f hf hfn hp
    exact .inr ⟨p, hpar⟩

omit H in
theorem meets_enterMount (ha : Linked v a) (hdir : Linked v dir) :
    Meets IsFreed (enterMount v a dir) fun w => Recount v w := by
  rw [Fs.enterMount]
  refine meets_ite (fun _ => meets_ok.2 (.refl v)) fun _ => ?_
  refine (meets_ventryPut ha).bind fun w R => ?_
  exact (meets_ventryRef (.inr (R.live dir hdir.live))).mono fun u ⟨R', _⟩ => R.trans R'

omit H in
theorem meets_genericFsLookup {path : Str} {cs : List Addr} (hcs : ∀ c ∈ cs, Linked v c) :
    Meets IsFreed (genericFsLookup path cs v) fun r => Recount v r.2 ∧
      (r.1 ≠ 0 → r.1 ∈ cs ∧ (nameOf v r.1).take 64 = path.take 64) := by
  induction cs generalizing v with
  | nil => exact meets_ok.2 ⟨.refl v, fun h => absurd rfl h⟩
  | cons c cs ih =>
    have hc := hcs c mem_cons_self
    rw [Fs.genericFsLookup]
    refine (meets_ventryRef (.inr hc.live)).bind ?_
    rintro v₁ ⟨R₁, hlive⟩
    refine (meets_ventry (.inr hlive)).bind fun e he => ?_
    refine (meets_ventryPut (R₁.linked hc)).bind fun v₂ R₂ => ?_
    have R := R₁.trans R₂
    obtain ⟨e₀, he₀, hb⟩ := R₁.back c e he
    refine meets_ite (fun hname => meets_ok.2 ⟨R, fun _ => ⟨mem_cons_self, ?_⟩⟩) fun _ => ?_
    · rwa [nameOf_eq he₀, ← name_of_bare hb]
    refine (ih fun d hd => R.linked (hcs d (mem_cons_of_mem c hd))).mono
      fun r hr => ⟨R.trans hr.1, fun h0 => ?_⟩
    obtain ⟨hmem, hname⟩ := hr.2 h0
    rw [(R.views (hcs _ (mem_cons_of_mem c hmem)).live).1] at hname
    exact ⟨mem_cons_of_mem c hmem, hname⟩

omit H in
theorem eq_of_take_eq {name path : Str} (hlen : name.length ≤ 63)
    (h : name.take 64 = path.take 64) : name = path := by
  have hlens := congrArg length h
  rw [length_take, length_take] at hlens
  rwa [take_of_length_le (by omega), take_of_length_le (by omega)] at h

namespace HeapOk

theorem lookupChild (hdir : v.ventries dir = some e) (hn : e.node ≠ 0) {component : Str}
    (hmiss : ∃ buckets, CacheOk v buckets ∧
    CacheHit v dir component (buckets (dcacheHash dir component)) 0) :
    Meets IsFreed (lookupChild v component e.children) fun r => HeapOk r.2 ∧ Looked v r.2 ∧
    Ptr r.2 r.1 := by
  have hchild : ∀ c ∈ e.children, Linked v c := by
    intro c hc
    obtain ⟨f, hf, hfn, -⟩ := H.child dir e hdir hn c hc
    exact ⟨f, hf, hfn⟩
  refine (meets_genericFsLookup hchild).bind ?_
  rintro ⟨next, v₁⟩ ⟨R, hnext⟩
  refine meets_ite (fun h0 => ?_) fun h0 =>
    meets_ok.2 ⟨H.recount R, R.toLooked, .inl (not_not.1 h0)⟩
  obtain ⟨hmem, hname⟩ := hnext h0
  obtain ⟨f, hf, hfn, hfp⟩ := H.child dir e hdir hn next hmem
  obtain ⟨g, hg, hb⟩ := R.keep next f hf hfn
  rw [nameOf_eq hf] at hname
  replace hname := eq_of_take_eq (H.name next f hf) hname
  obtain ⟨buckets, C, hmiss⟩ := hmiss
  have hnew : next ∉ buckets (dcacheHash g.parent g.name) := by
    rw [parent_of_bare hb, name_of_bare hb, hfp, hname]
    intro hin
    exact hmiss next hin ⟨by rw [parentOf_eq hf, hfp], by rw [nameOf_eq hf, hname]⟩
  refine ((H.recount R).dcacheInsert ⟨g, hg⟩ hg ⟨buckets, C.recount R, hnew⟩).bind fun w ⟨H', L⟩ =>
    ?_
  exact meets_ok.2 ⟨H', R.toLooked.trans L, .inr (L.live next ⟨g, hg⟩)⟩

theorem lookupNext (hlink : Linked v a) (component : Str) :
    Meets IsFreed (lookupNext v a component) fun r =>
      HeapOk r.2 ∧ Looked v r.2 ∧ ∀ next, r.1 = .ok next → Ptr r.2 next := by
  have hput : ∀ {r : Except Errno Addr}, (∀ next, r = .ok next → Ptr v next) →
      Meets IsFreed (ventryPut v a >>= fun w => .ok (r, w)) fun r =>
        HeapOk r.2 ∧ Looked v r.2 ∧ ∀ next, r.1 = .ok next → Ptr r.2 next :=
    fun hr => (meets_ventryPut hlink).bind fun w R =>
      meets_ok.2 ⟨H.recount R, R.toLooked, fun next h => R.ptr (hr next h)⟩
  obtain ⟨e, he, hn⟩ := hlink
  refine meets_ventry_bind he ?_
  refine meets_ite (fun _ => hput ?_) fun _ => meets_ite (fun _ => ?_) fun _ => ?_
  · rintro _ ⟨⟩
    exact .inr ⟨e, he⟩
  · refine (H.lookupUp he hn).bind fun next hnext => hput ?_
    rintro _ ⟨⟩
    exact hnext
  · rcases hm : Fs.traverseMount v a e with _ | dir
    · exact hput nofun
    have hdir := (H.traverseMount he hm).2 hn
    refine (meets_enterMount ⟨e, he, hn⟩ hdir).bind fun v₁ R => ?_
    have H₁ := H.recount R
    have hdir₁ := R.linked hdir
    refine (H₁.dcacheGet dir component).bind fun hit hhit => ?_
    refine meets_ite (fun h0 => ?_) fun h0 => ?_
    · -- in the hash table
      obtain ⟨buckets, -, hhit⟩ := hhit
      rw [CacheHit, if_neg h0] at hhit
      refine (meets_ventryPut hdir₁).bind fun w R' => meets_ok.2 ?_
      refine ⟨H₁.recount R', (R.trans R').toLooked, ?_⟩
      rintro _ ⟨⟩
      exact .inr (R'.live hit hhit.1)
    · rw [not_not.1 h0] at hhit
      obtain ⟨d, hd, hdn⟩ := hdir₁
      refine meets_ventry_bind hd ?_
      refine (H₁.meets_node hd).bind fun n _ => meets_ite (fun _ => ?_) fun _ => ?_
      · refine (H₁.lookupChild hd hdn hhit).bind ?_
        rintro ⟨next, v₂⟩ ⟨H₂, L, hnext⟩
        refine (meets_ventryPut (L.linked ⟨d, hd, hdn⟩)).bind fun w R' => meets_ok.2 ?_
        refine ⟨H₂.recount R', (R.toLooked.trans L).trans R'.toLooked, ?_⟩
        rintro _ ⟨⟩
        exact R'.ptr hnext
      · refine (meets_ventryPut ⟨d, hd, hdn⟩).bind fun w R' => meets_ok.2 ?_
        exact ⟨H₁.recount R', (R.trans R').toLooked, nofun⟩

theorem lookupEnd (h : Ptr v a) : Meets IsFreed (lookupEnd v a) fun r =>
    HeapOk r.2 ∧ Looked v r.2 ∧ ∀ b, r.1 = .ok b → Live r.2 b := by
  refine meets_ite (fun _ => meets_ok.2 ⟨H, .refl v, nofun⟩) fun _ => ?_
  refine (meets_ventry h).bind fun e he => meets_ok.2 ⟨H, .refl v, fun b hb => ?_⟩
  exact (H.traverseMount he hb).1

/-- **The loop** arrives at an entry that is there, or nowhere. -/
theorem lookupLoop (parent : Bool) (fuel : Nat) (h : Ptr v a) (rest : Str) :
    Meets IsFreed (lookupLoop parent fuel v a rest) fun r =>
      HeapOk r.2 ∧ Looked v r.2 ∧ ∀ b, r.1 = .ok b → Live r.2 b := by
  induction fuel generalizing v a rest with
  | zero => exact H.lookupEnd h
  | succ fuel ih =>
    rcases rest with _ | ⟨_, cs⟩
    · exact H.lookupEnd h
    refine meets_ite (fun _ => ih H h cs) fun _ => meets_ite (fun _ => H.lookupEnd h) fun _ => ?_
    refine (meets_ventryRef h).bind fun v₁ ⟨R, hlive⟩ => ?_
    have H₁ := H.recount R
    refine (meets_ventry (.inr hlive)).bind fun e he => ?_
    -- an entry without a node is not a directory that a walk goes on from
    refine (H₁.meets_node he).bind fun n ⟨hn, _⟩ => ?_
    have hlink : Linked v₁ a := ⟨e, he, hn⟩
    refine meets_ite (fun _ => ?_) fun _ => ?_
    · refine meets_ite (fun _ => ?_) fun _ => ?_
      · refine (meets_ventryPut hlink).bind fun v₂ R' => ?_
        refine ((H₁.recount R').lookupEnd (.inr (R'.live a hlive))).mono fun r ⟨H₃, L, hr⟩ => ?_
        exact ⟨H₃, (R.trans R').toLooked.trans L, hr⟩
      refine (H₁.lookupNext hlink _).bind ?_
      rintro ⟨next, v₂⟩ ⟨H₂, L, hnext⟩
      rcases next with _ | next
      · exact meets_ok.2 ⟨H₂, R.toLooked.trans L, nofun⟩
      refine (ih H₂ (hnext next rfl) _).mono fun r ⟨H₃, L', hr⟩ => ?_
      exact ⟨H₃, (R.toLooked.trans L).trans L', hr⟩
    · refine (meets_ventryPut hlink).bind fun v₂ R' => meets_ok.2 ?_
      exact ⟨H₁.recount R', (R.trans R').toLooked, nofun⟩

/-- **`vfs_lookup_at` follows no pointer to freed memory**, and what it finds is there. -/
theorem vfsLookupAt {start : Addr} (h : Ptr v start) (path : Str) (parent : Bool) :
    Meets IsFreed (vfsLookupAt v start path parent) fun r =>
      HeapOk r.2 ∧ Looked v r.2 ∧ ∀ b, r.1 = .ok b → Live r.2 b := by
  refine (H.dcacheGet start path).bind fun hit hhit => meets_ite (fun h0 => ?_) fun _ => ?_
  · obtain ⟨buckets, -, hhit⟩ := hhit
    rw [CacheHit, if_neg h0] at hhit
    refine (meets_ventry (.inr hhit.1)).bind fun e he => ?_
    have hres : Ptr v (if parent = true then e.parent else hit) := by
      cases parent with
      | true =>
        rw [parentOf_eq he] at hhit
        rwa [hhit.2.1]
      | false => exact .inr hhit.1
    refine (meets_ventry hres).bind fun r hr => meets_ok.2 ⟨H, .refl v, fun b hb => ?_⟩
    exact (H.traverseMount hr hb).1
  · refine meets_ite (fun _ => meets_error.2 id) fun _ => ?_
    exact H.lookupLoop parent _ h _

theorem vfsLookup {cwd : Addr} (h : Ptr v cwd) (path : Str) (parent : Bool) :
    Meets IsFreed (vfsLookup v cwd path parent) fun r =>
      HeapOk r.2 ∧ Looked v r.2 ∧ ∀ b, r.1 = .ok b → Live r.2 b := by
  rcases path with _ | ⟨c, rest⟩
  · exact H.vfsLookupAt h [] parent
  exact meets_ite (fun _ => H.vfsLookupAt (.inr H.root.live) rest parent)
    fun _ => H.vfsLookupAt h (c :: rest) parent

end HeapOk

end Lookup

end Monolith.Fs
