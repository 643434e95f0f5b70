import Monolith.Fs.HeapEntries

/-!
# Entries that go

An entry that has lost its node is freed with the last reference to it, and is out of the hash table
before (`HeapOk.ventryPut`).  `vfs_unlink` and `procfs_remove` take the node away from an entry and
the entry out of its directory; if nothing leads to the entry any more, that leaves the heap in
order (`HeapOk.detach`).
-/

namespace Monolith.Fs

open Function Fallible List Option Vfs Ventry

/-! ## The last reference to an entry without a node -/

section Free

variable {v : Vfs} {a : Addr} {e : Ventry} {buckets : Nat → List Addr}

/-- The loop of `dcache_remove` finds the entry before `a`, or `a` is not in the bucket. -/
theorem meets_dcacheUnlink {xs : List Addr} {cur : Addr} (fuel : Nat)
    (hchain : Chain (nextOf v) 0 cur xs) (hlive : ∀ x ∈ xs, Live v x) (ha : a ≠ 0)
    (he : v.ventries a = some e) (hcur : cur ≠ a) :
    Meets IsFreed (dcacheUnlink v a fuel cur) fun w => (a ∉ xs ∧ w = v) ∨
      ∃ ys p zs f, xs = ys ++ p :: a :: zs ∧ v.ventries p = some f ∧ p ≠ a ∧
        w = (v.setVentry p { f with next := e.next }).setVentry a { e with next := 0 } := by
  induction fuel generalizing cur xs with
  | zero => exact meets_error.2 id
  | succ fuel ih =>
    refine meets_ite (fun h0 => meets_ok.2 (.inl ⟨?_, rfl⟩)) fun h0 => ?_
    · cases xs with
      | nil => exact not_mem_nil
      | cons x xs => exact absurd (hchain.1.symm.trans h0) hchain.2.1
    rcases xs with _ | ⟨_, xs⟩
    · exact absurd hchain h0
    obtain ⟨rfl, -, hrest⟩ := hchain
    refine (meets_ventry (.inr (hlive cur mem_cons_self))).bind fun f hf => ?_
    rw [nextOf_eq hf] at hrest
    refine meets_ite (fun hnext => ?_) fun hnext => ?_
    · have hkeep : (v.setVentry cur { f with next := e.next }).ventries a = some e :=
        (ventries_set_ne _ _ hcur.symm).trans he
      refine meets_ventry_bind he (meets_ventry_bind hkeep (meets_ok.2 (.inr ?_)))
      rcases xs with _ | ⟨y, ys⟩
      · exact absurd (hnext.symm.trans hrest) ha
      obtain rfl : a = y := hnext.symm.trans hrest.1
      exact ⟨[], cur, ys, f, rfl, hf, hcur, rfl⟩
    · refine (ih hrest (fun y hy => hlive y (mem_cons_of_mem cur hy)) hnext).mono fun w hw => ?_
      rcases hw with ⟨hout, rfl⟩ | ⟨ys, p, zs, g, rfl, hfound⟩
      · refine .inl ⟨fun hin => ?_, rfl⟩
        rcases mem_cons.1 hin with hin | hin
        · exact hcur hin.symm
        · exact hout hin
      · exact .inr ⟨cur :: ys, p, zs, g, rfl, hfound⟩

theorem CacheOk.not_mem_of_ne (C : CacheOk v buckets) (he : v.ventries a = some e) {i : Nat}
    (hi : i ≠ dcacheHash e.parent e.name) : a ∉ buckets i := by
  intro hin
  obtain ⟨f, hf, hhash⟩ := C.bucket i a hin
  obtain rfl := mem_unique he hf
  exact hi hhash.symm

/-- An entry that had no node is not there any more, neither in the hash table. -/
theorem HeapOk.erase (H : HeapOk v) (C : CacheOk v buckets) {u : Vfs} (he : v.ventries a = some e)
    (hn : e.node = 0)
    (hsame : u.vnodes = v.vnodes ∧ u.openFiles = v.openFiles ∧ u.sockets = v.sockets ∧
      u.rootNode = v.rootNode ∧ u.mounts = v.mounts) (hnone : u.ventries a = none)
    (hold : ∀ x, x ≠ a → (u.ventries x).map Ventry.bare = (v.ventries x).map Ventry.bare)
    (hchain : Chain (nextOf u) 0 (u.hashTable (dcacheHash e.parent e.name))
      ((buckets (dcacheHash e.parent e.name)).erase a)) (hother :
      ∀ i, i ≠ dcacheHash e.parent e.name →
      u.hashTable i = v.hashTable i ∧ ∀ x ∈ buckets i, nextOf u x = nextOf v x) : HeapOk u ∧
      Thinned v u := by
  have hkeep x f (hx : x ≠ a) (hf : v.ventries x = some f) : ∃ g, u.ventries x = some g ∧
      g.bare = f.bare := by
    have h := hold x hx
    rwa [hf, map_some, map_eq_some_iff] at h
  have T : Thinned v u := by
    obtain ⟨hvnodes, hopen, hsock, hroot, hmounts⟩ := hsame
    refine ⟨hvnodes, hopen, hsock, hroot, hmounts, fun x f hf hfn => hkeep x f ?_ hf,
      fun x g hg => ?_⟩
    · rintro rfl
      obtain rfl := mem_unique he hf
      exact hfn hn
    have hxa : x ≠ a := by
      rintro rfl
      simp [hnone] at hg
    have h := hold x hxa
    rw [hg, map_some, eq_comm, map_eq_some_iff] at h
    obtain ⟨f, hf, hb⟩ := h
    exact ⟨f, hf, hb.symm⟩
  refine ⟨H.thinned T ⟨fun i => (buckets i).erase a, fun i => ?_, fun i => (C.nodup i).erase a,
    fun i x hx => ?_⟩, T⟩
  · by_cases hi : i = dcacheHash e.parent e.name
    · rwa [hi]
    · rw [erase_of_not_mem (C.not_mem_of_ne he hi), (hother i hi).1]
      exact (C.chain i).congr (hother i hi).2
  · obtain ⟨hxa, hx⟩ := (C.nodup i).mem_erase_iff.1 hx
    obtain ⟨f, hf, hhash⟩ := C.bucket i x hx
    obtain ⟨g, hg, hb⟩ := hkeep x f hxa hf
    rw [← parent_of_bare hb, ← name_of_bare hb] at hhash
    exact ⟨g, hg, hhash⟩

/-- **An entry without a node is freed**: it is out of the hash table before. -/
theorem HeapOk.free (H : HeapOk v) (he : v.ventries a = some e) (hn : e.node = 0) :
    Meets IsFreed (dcacheRemove v a >>= fun w => .ok (ventryFree w a)) fun u => HeapOk u ∧
    Thinned v u := by
  have ha := H.ne_zero ⟨e, he⟩
  obtain ⟨buckets, C⟩ := H.cache
  have hchain := C.chain (dcacheHash e.parent e.name)
  have hnd := C.nodup (dcacheHash e.parent e.name)
  refine Meets.bind (Q := fun w => HeapOk (ventryFree w a) ∧ Thinned v (ventryFree w a)) ?_
    fun w hw => meets_ok.2 hw
  refine meets_ventry_bind he (meets_ite (fun hhead => meets_ok.2 ?_) fun hhead => ?_)
  · -- the first in its bucket
    generalize hu : ventryFree _ a = u
    have hentries : u.ventries = update v.ventries a none := by
      rw [← hu]
      exact update_idem ..
    have htable : u.hashTable = update v.hashTable (dcacheHash e.parent e.name) e.next := by
      rw [← hu]
      rfl
    have hnext : ∀ x, x ≠ a → nextOf u x = nextOf v x := fun x hx => by simp [nextOf, hentries, hx]
    refine H.erase C he hn (by subst hu; exact ⟨rfl, rfl, rfl, rfl, rfl⟩) (by simp [hentries])
      (fun x hx => by rw [hentries, update_of_ne hx]) ?_ fun i hi =>
      ⟨by rw [htable, update_of_ne hi], fun x hx =>
        hnext x fun hxa => C.not_mem_of_ne he hi (hxa ▸ hx)⟩
    rw [hhead] at hchain
    rcases hb : buckets (dcacheHash e.parent e.name) with _ | ⟨x, _⟩
    · rw [hb] at hchain
      exact absurd hchain ha
    rw [hb] at hchain hnd
    obtain ⟨rfl, -, hrest⟩ := hchain
    rw [nextOf_eq he] at hrest
    rw [erase_cons_head, htable, update_self]
    refine hrest.congr fun x hx => hnext x ?_
    rintro rfl
    exact (nodup_cons.1 hnd).1 hx
  · refine (meets_dcacheUnlink _ hchain (fun x hx => C.live hx) ha he hhead).mono fun w hw => ?_
    rcases hw with ⟨hout, rfl⟩ | ⟨ys, p, zs, f, hbucket, hf, hpa, rfl⟩
    · -- not in the hash table
      have hold : ∀ x, x ≠ a → (ventryFree w a).ventries x = w.ventries x :=
        fun x hx => update_of_ne hx ..
      have hnext : ∀ x, x ≠ a → nextOf (ventryFree w a) x = nextOf w x := fun x hx => by
        rw [nextOf, nextOf, hold x hx]
      refine H.erase C he hn ⟨rfl, rfl, rfl, rfl, rfl⟩ (update_self ..)
        (fun x hx => by rw [hold x hx]) ?_
        fun i hi => ⟨rfl, fun x hx => hnext x fun hxa => C.not_mem_of_ne he hi (hxa ▸ hx)⟩
      rw [erase_of_not_mem hout]
      refine hchain.congr fun x hx => hnext x ?_
      rintro rfl
      exact hout hx
    · -- behind another one
      generalize hu : ventryFree _ a = u
      have hentries : u.ventries = update (update v.ventries p (some { f with next := e.next })) a
        none := by
        rw [← hu]
        exact update_idem ..
      have htable : u.hashTable = v.hashTable := by
        rw [← hu]
        rfl
      have hp : u.ventries p = some { f with next := e.next } := by simp [hentries, hpa]
      have hold : ∀ x, x ≠ a → x ≠ p → u.ventries x = v.ventries x :=
        fun x hx hxp => by simp [hentries, hx, hxp]
      have hnext : ∀ x, x ≠ a → x ≠ p → nextOf u x = nextOf v x :=
        fun x hx hxp => by simp [nextOf, hold x hx hxp]
      refine H.erase C he hn (by subst hu; exact ⟨rfl, rfl, rfl, rfl, rfl⟩) (by simp [hentries])
        (fun x hx => ?_) ?_ fun i hi => ⟨by rw [htable], fun x hx => ?_⟩
      · by_cases hxp : x = p
        · rw [hxp, hp, hf]
          rfl
        · rw [hold x hx hxp]
      · rw [hbucket] at hchain hnd
        obtain ⟨hys, hps, hdisj⟩ := nodup_append.1 hnd
        have hpz := nodup_cons.1 hps
        have haz := nodup_cons.1 hpz.2
        have hay : a ∉ ys := fun hin => hdisj a hin a (by simp) rfl
        have hpy : p ∉ ys := fun hin => hdisj p hin p (by simp) rfl
        have herase : (ys ++ p :: a :: zs).erase a = ys ++ p :: zs := by
          rw [erase_append_right _ hay, erase_cons_tail (by simpa using hpa), erase_cons_head]
        rw [hbucket, herase, htable]
        refine hchain.skip (fun y hy => hnext y ?_ ?_) ?_
        · rintro rfl
          exact (mem_append.1 hy).elim hay haz.1
        · rintro rfl
          exact (mem_append.1 hy).elim hpy fun hin => hpz.1 (mem_cons_of_mem a hin)
        · rw [nextOf_eq hp, nextOf_eq he]
      · -- the entry before it is of the same bucket
        obtain ⟨f', hf', hhash⟩ := C.bucket (dcacheHash e.parent e.name) p (by rw [hbucket]; simp)
        exact hnext x (fun hxa => C.not_mem_of_ne he hi (hxa ▸ hx)) fun hxp =>
          C.not_mem_of_ne hf' (hhash ▸ hi) (hxp ▸ hx)

/-- **A reference is given back**, to whatever entry. -/
theorem HeapOk.ventryPut (H : HeapOk v) (h : Live v a) :
    Meets IsFreed (ventryPut v a) fun w => HeapOk w ∧ Thinned v w := by
  obtain ⟨e, he⟩ := h
  by_cases hn : e.node ≠ 0
  · exact (meets_ventryPut ⟨e, he, hn⟩).mono fun w R => ⟨H.recount R, R.toThinned⟩
  refine meets_ventry_bind he ?_
  have R := recount_setVentry he (e.count - 1)
  refine meets_ite (fun _ => meets_ok.2 ⟨H.recount R, R.toThinned⟩) fun _ => ?_
  rw [if_neg hn]
  refine ((H.recount R).free (v.ventries_set_self _) (not_not.1 hn)).mono fun w ⟨H', T⟩ => ?_
  exact ⟨H', R.toThinned.trans T⟩

end Free

/-! ## Removing an entry -/

/-- Nothing in the file system leads to the entry but its directory: there is nothing below it, and
it has to do with no mount. -/
structure Detachable (v : Vfs) (d : Addr) : Prop where
  children : ∀ e, v.ventries d = some e → e.children = []
  root : d ≠ v.rootNode
  mountpoint : ∀ mp ∈ v.mounts, mp.mountpoint ≠ d
  mountRoot : ∀ a e mp, v.ventries a = some e → e.mount = some mp → mp.root ≠ some d

section Detach

variable {v u : Vfs} {d : Addr} {e : Ventry}

/-- The entry at `a` after `dentry->node = nullptr; list_del(&dentry->sibling);` for the entry at
`d` in the directory `parent`. -/
def cutEntry (d parent a : Addr) (g : Ventry) : Ventry :=
  { g with
    node := if a = d then 0 else g.node
    children := if a = parent then g.children.filter (· ≠ d) else g.children }

/-- `u` is `v` with the entry at `d` cut off; its node may be gone. -/
structure Cut (v u : Vfs) (d parent : Addr) (node : Addr) : Prop where
  rootNode : u.rootNode = v.rootNode
  mounts : u.mounts = v.mounts
  hashTable : u.hashTable = v.hashTable
  ventries : ∀ a, u.ventries a = (v.ventries a).map (cutEntry d parent a)
  vnodes : ∀ a n, a ≠ node → v.vnodes a = some n → ∃ m, u.vnodes a = some m
  null : u.vnodes 0 = none

section Cut

variable (K : Cut v u d e.parent e.node) (he : v.ventries d = some e) {a : Addr} {f : Ventry}

include K

theorem Cut.keep {g : Ventry} (hg : v.ventries a = some g) :
    u.ventries a = some (cutEntry d e.parent a g) := by
  simp [K.ventries, hg]

theorem Cut.back (hf : u.ventries a = some f) :
    ∃ g, v.ventries a = some g ∧ f = cutEntry d e.parent a g := by
  rw [K.ventries, map_eq_some_iff] at hf
  obtain ⟨g, hg, rfl⟩ := hf
  exact ⟨g, hg, rfl⟩

theorem Cut.back_node (hf : u.ventries a = some f) (hfn : f.node ≠ 0) :
    ∃ g, v.ventries a = some g ∧ f = cutEntry d e.parent a g ∧ a ≠ d ∧ f.node = g.node ∧
    g.node ≠ 0 := by
  obtain ⟨g, hg, rfl⟩ := K.back hf
  have ha : a ≠ d := fun ha => hfn (if_pos ha)
  have hnode : (cutEntry d e.parent a g).node = g.node := if_neg ha
  exact ⟨g, hg, rfl, ha, hnode, hnode ▸ hfn⟩

theorem Cut.linked (h : Linked v a) (ha : a ≠ d) : Linked u a := by
  obtain ⟨g, hg, hgn⟩ := h
  refine ⟨_, K.keep hg, ?_⟩
  rwa [cutEntry, if_neg ha]

theorem Cut.cache {buckets : Nat → List Addr} (C : CacheOk v buckets) : CacheOk u buckets := by
  have hnext : nextOf u = nextOf v := by
    funext a
    rw [nextOf, nextOf, K.ventries]
    cases v.ventries a <;> rfl
  refine ⟨fun i => ?_, C.nodup, fun i x hx => ?_⟩
  · rw [hnext, K.hashTable]
    exact C.chain i
  · obtain ⟨g, hg, hhash⟩ := C.bucket i x hx
    exact ⟨_, K.keep hg, hhash⟩

include he

theorem HeapOk.cut (H : HeapOk v) (D : Detachable v d) : HeapOk u where
  null := by
    rw [K.ventries, H.null]
    rfl
  nullNode := K.null
  node a f hf hfn := by
    obtain ⟨g, hg, rfl, ha, hnode, hgn⟩ := K.back_node hf hfn
    rw [hnode]
    obtain ⟨n, hn⟩ := H.node a g hg hgn
    refine K.vnodes _ n (fun heq => ha ?_) hn
    exact H.single a g d e hg he hgn heq
  single a f b f' hf hf' hfn heq := by
    obtain ⟨g, hg, -, -, hnode, hgn⟩ := K.back_node hf hfn
    obtain ⟨g', hg', -, -, hnode', -⟩ := K.back_node hf' (heq ▸ hfn)
    exact H.single a g b g' hg hg' hgn (hnode.symm.trans (heq.trans hnode'))
  parent a f hf hfn hpar := by
    obtain ⟨g, hg, rfl, ha, -, hgn⟩ := K.back_node hf hfn
    obtain ⟨p, hp, hpn, hmem⟩ := H.parent a g hg hgn hpar
    have hpd : g.parent ≠ d := by
      intro hpd
      rw [hpd] at hp
      simp [D.children p hp] at hmem
    refine ⟨_, K.keep hp, ?_, ?_⟩
    · show (if g.parent = d then 0 else p.node) ≠ 0
      rwa [if_neg hpd]
    show a ∈ if g.parent = e.parent then _ else _
    split
    · exact mem_filter.2 ⟨hmem, by simpa using ha⟩
    · exact hmem
  child a f hf hfn c hc := by
    obtain ⟨g, hg, rfl, -, -, hgn⟩ := K.back_node hf hfn
    have hin : c ∈ g.children ∧ c ≠ d := by
      change c ∈ (if a = e.parent then _ else _) at hc
      split_ifs at hc with hne
      · rw [mem_filter] at hc
        exact ⟨hc.1, by simpa using hc.2⟩
      refine ⟨hc, ?_⟩
      rintro rfl
      obtain ⟨g', hg', -, hpar⟩ := H.child a g hg hgn c hc
      rw [he, some_inj] at hg'
      exact hne (hg' ▸ hpar).symm
    obtain ⟨g', hg', hgn', hpar⟩ := H.child a g hg hgn c hin.1
    refine ⟨_, K.keep hg', ?_, hpar⟩
    rwa [cutEntry, if_neg hin.2]
  mount a f mp r hf hm hr := by
    obtain ⟨g, hg, rfl⟩ := K.back hf
    refine K.linked (H.mount a g mp r hg hm hr) ?_
    rintro rfl
    exact D.mountRoot a g mp hg hm hr
  mounts mp hmp := by
    rw [K.mounts] at hmp
    exact K.linked (H.mounts mp hmp) (D.mountpoint mp hmp)
  root := by
    rw [K.rootNode]
    exact K.linked H.root D.root.symm
  name a f hf := by
    obtain ⟨g, hg, rfl⟩ := K.back hf
    exact H.name a g hg
  cache := by
    obtain ⟨buckets, C⟩ := H.cache
    exact ⟨buckets, K.cache C⟩

end Cut

/-- The same file system but for its nodes, of which all but one are still there. -/
structure NodeGone (v u : Vfs) (node : Addr) : Prop where
  ventries : u.ventries = v.ventries
  hashTable : u.hashTable = v.hashTable
  rootNode : u.rootNode = v.rootNode
  mounts : u.mounts = v.mounts
  openFiles : u.openFiles = v.openFiles
  vnodes : ∀ a n, a ≠ node → v.vnodes a = some n → ∃ m, u.vnodes a = some m
  null : u.vnodes 0 = none

theorem meets_siblingDel (H : HeapOk v) (he : v.ventries d = some e) (hn : e.node ≠ 0)
    (N : NodeGone v u e.node) :
    Meets IsFreed (siblingDel (u.setVentry d { e with node := 0 }) d e.parent) fun w =>
      Cut v w d e.parent e.node ∧ w.openFiles = v.openFiles ∧ w.sockets = u.sockets ∧
      w.vnodes = u.vnodes := by
  have hother : ∀ a, a ≠ d → (u.setVentry d { e with node := 0 }).ventries a = v.ventries a :=
    fun a ha => by
    rw [ventries_set_ne _ _ ha, N.ventries]
  refine meets_ite (fun h0 => meets_ok.2 ?_) fun h0 => ?_
  · refine ⟨⟨N.rootNode, N.mounts, N.hashTable, fun a => ?_, N.vnodes, N.null⟩, N.openFiles,
      rfl, rfl⟩
    rcases eq_or_ne a d with rfl | ha
    · have hne : a ≠ e.parent := h0 ▸ H.ne_zero ⟨e, he⟩
      rw [ventries_set_self, he, map_some, cutEntry, if_pos rfl, if_neg hne]
    rw [hother a ha]
    rcases hv : v.ventries a with _ | g
    · rfl
    have hne : a ≠ e.parent := h0 ▸ H.ne_zero ⟨g, hv⟩
    rw [map_some, cutEntry, if_neg ha, if_neg hne]
  · obtain ⟨p, hp, hpn, hmem⟩ := H.parent d e he hn h0
    -- the directory, which may be the entry itself as far as the heap goes
    have hp' : (u.setVentry d { e with node := 0 }).ventries e.parent =
        some { p with node := if e.parent = d then 0 else p.node } := by
      by_cases hpd : e.parent = d
      · rw [hpd, he] at hp
        cases hp
        rw [if_pos hpd]
        exact (congrArg _ hpd).trans (ventries_set_self ..)
      · rw [hother _ hpd, hp, if_neg hpd]
    refine meets_ventry_bind hp' (meets_ok.2 ?_)
    refine ⟨⟨N.rootNode, N.mounts, N.hashTable, fun a => ?_, N.vnodes, N.null⟩, N.openFiles,
      rfl, rfl⟩
    by_cases hap : a = e.parent
    · rw [hap, ventries_set_self, hp, map_some, cutEntry, if_pos rfl]
    rw [ventries_set_ne _ _ hap]
    rcases eq_or_ne a d with rfl | ha
    · rw [ventries_set_self, he, map_some, cutEntry, if_pos rfl, if_neg hap]
    rw [hother a ha]
    cases hv : v.ventries a with
    | none => rfl
    | some g => rw [map_some, cutEntry, if_neg ha, if_neg hap]

/-- **The entry is taken out of its directory** and loses its node, which has gone before. -/
theorem HeapOk.detach (H : HeapOk v) (he : v.ventries d = some e) (hn : e.node ≠ 0)
    (D : Detachable v d) (N : NodeGone v u e.node) :
    Meets IsFreed (detach u d) fun w => HeapOk w ∧ w.vnodes = u.vnodes ∧ w.openFiles = v.openFiles ∧
      w.sockets = u.sockets ∧
      (∀ a g, a ≠ d → v.ventries a = some g → g.node ≠ 0 → ∃ f, w.ventries a = some f ∧
      f.node = g.node) ∧
      ∀ a f, w.ventries a = some f → f.node ≠ 0 → ∃ g, v.ventries a = some g ∧ g.node = f.node := by
  have he' : u.ventries d = some e := N.ventries ▸ he
  refine meets_ventry_bind he' ?_
  refine (meets_siblingDel H he hn N).bind fun u' ⟨K, hopen, hsock, hnodes⟩ => ?_
  have Hu : HeapOk u' := H.cut K he D
  refine (Hu.ventryPut ⟨_, K.keep he⟩).mono fun w ⟨Hw, T⟩ => ?_
  refine ⟨Hw, T.vnodes.trans hnodes, T.openFiles.trans hopen, T.sockets.trans hsock,
    fun a g ha hg hgn => ?_, fun a f hf hfn => ?_⟩
  · have hcut : (cutEntry d e.parent a g).node = g.node := if_neg ha
    obtain ⟨f, hf, hb⟩ := T.keep a _ (K.keep hg) (hcut.symm ▸ hgn)
    exact ⟨f, hf, (node_of_bare hb).trans hcut⟩
  obtain ⟨f', hf', hb⟩ := T.back a f hf
  obtain ⟨g, hg, rfl⟩ := K.back hf'
  rw [node_of_bare hb] at hfn ⊢
  by_cases ha : a = d
  · exact absurd (if_pos ha) hfn
  · exact ⟨g, hg, (if_neg ha).symm⟩

end Detach

end Monolith.Fs
