import Monolith.Fs.Heap

/-!
# Entries that come

What `vfs_create`, `procfs_mkdir` and `procfs_create` leave is a heap in order, with one entry and
one node more (`Grown`).
-/

namespace Monolith.Fs

open Function Fallible Vfs
open Option (some_inj)

/-! ## Nodes and new entries -/

/-- `w` has the entries and the nodes of `v`, and maybe some that are new.  The count of links of a
node changes only if an entry has it, and does not become 0. -/
structure Grown (v w : Vfs) : Prop where
  openFiles : w.openFiles = v.openFiles
  sockets : w.sockets = v.sockets
  rootNode : w.rootNode = v.rootNode
  mounts : w.mounts = v.mounts
  keep : ∀ a e, v.ventries a = some e → e.node ≠ 0 → ∃ f, w.ventries a = some f ∧ f.node = e.node
  node : ∀ a n, v.vnodes a = some n → ∃ k, w.vnodes a = some { n with nlink := k } ∧
    (n.nlink ≠ 0 → k ≠ 0) ∧ ((∀ b e, v.ventries b = some e → e.node ≠ a) → k = n.nlink)
  fresh : ∀ a n, w.vnodes a = some n → v.vnodes a = none →
    n.ref = 0 ∧ sIssock n.mode = false ∧ n.nlink ≠ 0
  origin : ∀ a e, w.ventries a = some e → e.node ≠ 0 →
    (∃ b f, v.ventries b = some f ∧ f.node = e.node) ∨ v.vnodes e.node = none

section Grown

variable {u v w : Vfs} {a : Addr}

theorem Thinned.grown (T : Thinned v w) : Grown v w where
  openFiles := T.openFiles
  sockets := T.sockets
  rootNode := T.rootNode
  mounts := T.mounts
  keep a e he hn := by
    obtain ⟨f, hf, hb⟩ := T.keep a e he hn
    exact ⟨f, hf, Ventry.node_of_bare hb⟩
  node a n hn := ⟨n.nlink, T.vnodes ▸ hn, id, fun _ => rfl⟩
  fresh a n hn hnone := by simp [T.vnodes, hnone] at hn
  origin a f hf _ := by
    obtain ⟨e, he, hb⟩ := T.back a f hf
    exact .inl ⟨a, e, he, (Ventry.node_of_bare hb).symm⟩

theorem Grown.trans (H : HeapOk u) (G : Grown u v) (G' : Grown v w) : Grown u w where
  openFiles := G'.openFiles.trans G.openFiles
  sockets := G'.sockets.trans G.sockets
  rootNode := G'.rootNode.trans G.rootNode
  mounts := G'.mounts.trans G.mounts
  keep a e he hn := by
    obtain ⟨f, hf, hfe⟩ := G.keep a e he hn
    obtain ⟨g, hg, hgf⟩ := G'.keep a f hf (hfe ▸ hn)
    exact ⟨g, hg, hgf.trans hfe⟩
  node a n hn := by
    obtain ⟨k, hk, hne, hsame⟩ := G.node a n hn
    obtain ⟨l, hl, hne', hsame'⟩ := G'.node a _ hk
    refine ⟨l, hl, fun h => hne' (hne h), fun hno => (hsame' fun b f hf hfa => ?_).trans
      (hsame hno)⟩
    -- an entry of the second state has the node of one of the first
    have ha : a ≠ 0 := by
      rintro rfl
      rw [H.nullNode] at hn
      cases hn
    rcases G.origin b f hf (hfa ▸ ha) with ⟨c, e, he, hef⟩ | hnone
    · exact hno c e he (hef.trans hfa)
    · simp [hfa, hn] at hnone
  fresh a n hn hnone := by
    rcases hv : v.vnodes a with _ | m
    · exact G'.fresh a n hn hv
    obtain ⟨href, hsock, hlink⟩ := G.fresh a m hv hnone
    obtain ⟨k, hk, hne, -⟩ := G'.node a m hv
    rw [hn, some_inj] at hk
    rw [hk]
    exact ⟨href, hsock, hne hlink⟩
  origin a e he hn := by
    rcases G'.origin a e he hn with ⟨b, f, hf, hfe⟩ | hnone
    · rcases G.origin b f hf (hfe ▸ hn) with ⟨c, g, hg, hgf⟩ | hnone
      · exact .inl ⟨c, g, hg, hgf.trans hfe⟩
      · exact .inr (hfe ▸ hnone)
    rcases hu : u.vnodes e.node with _ | n
    · exact .inr rfl
    obtain ⟨k, hk, -⟩ := G.node _ n hu
    simp [hnone] at hk

theorem Grown.linked (G : Grown v w) (h : Linked v a) : Linked w a := by
  obtain ⟨e, he, hn⟩ := h
  obtain ⟨f, hf, hfe⟩ := G.keep a e he hn
  exact ⟨f, hf, hfe ▸ hn⟩

end Grown

/-! ## One entry more -/

variable {v w : Vfs} {a root : Addr} {n : Vnode} {mode : BitVec 32}

theorem HeapOk.setVnode (H : HeapOk v) (ha : a ≠ 0) (n : Vnode) : HeapOk (v.setVnode a n) := by
  refine H.congr rfl rfl rfl rfl ((vnodes_set_ne _ _ ha.symm).trans H.nullNode) fun b e m he hm =>
    ?_
  by_cases hb : e.node = a
  · exact ⟨n, hb ▸ vnodes_set_self ..⟩
  · exact ⟨m, (vnodes_set_ne _ _ hb).trans hm⟩

/-- `w` is `v` with one entry more: `d` at `x`, in its directory if it has one. -/
structure Added (v w : Vfs) (x : Addr) (d : Ventry) : Prop where
  rootNode : w.rootNode = v.rootNode
  mounts : w.mounts = v.mounts
  hashTable : w.hashTable = v.hashTable
  vnodes : ∀ a n, v.vnodes a = some n → w.vnodes a = some n
  entry : w.ventries x = some d
  keep : ∀ a e, v.ventries a = some e → ∃ f, w.ventries a = some f ∧ SameEntry e f ∧
    ∀ c, c ∈ f.children ↔ c ∈ e.children ∨ (a = d.parent ∧ c = x)
  live : ∀ a, Live w a → a ≠ x → Live v a
  fresh : v.ventries x = none
  children : d.children = []
  mount : d.mount = none

section Added

variable {v w : Vfs} {x a : Addr} {d : Ventry} (A : Added v w x d)

include A

theorem Added.cases {f : Ventry} (h : w.ventries a = some f) : (a = x ∧ f = d) ∨
    ∃ e, v.ventries a = some e ∧ SameEntry e f ∧ ∀ c, c ∈ f.children ↔ c ∈ e.children ∨
    (a = d.parent ∧ c = x) := by
  by_cases ha : a = x
  · rw [ha, A.entry, some_inj] at h
    exact .inl ⟨ha, h.symm⟩
  obtain ⟨e, he⟩ := A.live a ⟨f, h⟩ ha
  obtain ⟨g, hg, hrest⟩ := A.keep a e he
  obtain rfl := Option.mem_unique h hg
  exact .inr ⟨e, he, hrest⟩

theorem Added.linked (h : Linked v a) : Linked w a := by
  obtain ⟨e, he, hn⟩ := h
  obtain ⟨f, hf, S, -⟩ := A.keep a e he
  exact ⟨f, hf, S.node ▸ hn⟩

theorem Added.cache {buckets : Nat → List Addr} (C : CacheOk v buckets) : CacheOk w buckets := by
  refine ⟨fun i => ?_, C.nodup, fun i x hx => ?_⟩
  · rw [A.hashTable]
    refine (C.chain i).congr fun x hx => ?_
    obtain ⟨e, he⟩ := C.live hx
    obtain ⟨f, hf, S, -⟩ := A.keep x e he
    rw [nextOf_eq hf, nextOf_eq he, S.next]
  · obtain ⟨e, he, hhash⟩ := C.bucket i x hx
    obtain ⟨f, hf, S, -⟩ := A.keep x e he
    exact ⟨f, hf, by rw [S.parent, S.name, hhash]⟩

theorem HeapOk.added (H : HeapOk v) (hx : x ≠ 0) (hnull : w.vnodes 0 = none)
    (hname : d.name.length ≤ 63) (hlive : ∃ n, w.vnodes d.node = some n)
    (hnode : ∀ a e, v.ventries a = some e → e.node ≠ d.node)
    (hup : d.parent ≠ 0 → Linked v d.parent) : HeapOk w where
  null := by
    by_contra hne
    obtain ⟨f, hf⟩ := Option.ne_none_iff_exists'.1 hne
    obtain ⟨h0, -⟩ | ⟨e, he, -⟩ := A.cases hf
    · exact hx h0.symm
    · exact H.ne_zero ⟨e, he⟩ rfl
  nullNode := hnull
  node a f hf hn := by
    obtain ⟨rfl, rfl⟩ | ⟨e, he, S, -⟩ := A.cases hf
    · exact hlive
    rw [S.node] at hn ⊢
    obtain ⟨n, hn⟩ := H.node a e he hn
    exact ⟨n, A.vnodes _ n hn⟩
  single a f b g hf hg hn hfg := by
    obtain ⟨rfl, rfl⟩ | ⟨e, he, S, -⟩ := A.cases hf <;> obtain ⟨rfl, rfl⟩ | ⟨e', he', S', -⟩ :=
      A.cases hg
    · rfl
    · rw [S'.node] at hfg
      exact absurd hfg.symm (hnode b e' he')
    · rw [S.node] at hfg
      exact absurd hfg (hnode a e he)
    · rw [S.node] at hn hfg
      rw [S'.node] at hfg
      exact H.single a e b e' he he' hn hfg
  parent a f hf hn hpar := by
    obtain ⟨rfl, rfl⟩ | ⟨e, he, S, -⟩ := A.cases hf
    · obtain ⟨p, hp, hpn⟩ := hup hpar
      obtain ⟨q, hq, S, hmem⟩ := A.keep _ p hp
      exact ⟨q, hq, S.node ▸ hpn, (hmem a).2 (.inr ⟨rfl, rfl⟩)⟩
    rw [S.node] at hn
    rw [S.parent] at hpar ⊢
    obtain ⟨q, hq, hqn, hin⟩ := H.parent a e he hn hpar
    obtain ⟨q', hq', S', hmem⟩ := A.keep _ q hq
    exact ⟨q', hq', S'.node ▸ hqn, (hmem a).2 (.inl hin)⟩
  child a f hf hn c hc := by
    obtain ⟨rfl, rfl⟩ | ⟨e, he, S, hmem⟩ := A.cases hf
    · simp [A.children] at hc
    rw [S.node] at hn
    rcases (hmem c).1 hc with hc | ⟨rfl, rfl⟩
    · obtain ⟨g, hg, hgn, hgp⟩ := H.child a e he hn c hc
      obtain ⟨g', hg', S', -⟩ := A.keep c g hg
      exact ⟨g', hg', S'.node ▸ hgn, S'.parent.trans hgp⟩
    refine ⟨d, A.entry, ?_, rfl⟩
    obtain ⟨n, hn'⟩ := hlive
    intro h0
    rw [h0, hnull] at hn'
    cases hn'
  mount a f mp r hf hm hr := by
    obtain ⟨rfl, rfl⟩ | ⟨e, he, S, -⟩ := A.cases hf
    · simp [A.mount] at hm
    · exact A.linked (H.mount a e mp r he (S.mount ▸ hm) hr)
  mounts mp hmp := A.linked (H.mounts mp (A.mounts ▸ hmp))
  root := by
    rw [A.rootNode]
    exact A.linked H.root
  name a f hf := by
    obtain ⟨rfl, rfl⟩ | ⟨e, he, S, -⟩ := A.cases hf
    · exact hname
    · rw [S.name]
      exact H.name a e he
  cache := by
    obtain ⟨buckets, C⟩ := H.cache
    exact ⟨buckets, A.cache C⟩

end Added

/-- `w` is `v` with the entry `d` at `dirent`, the last in the directory `parent`. -/
structure Appended (v w : Vfs) (parent dirent : Addr) (p d : Ventry) : Prop where
  rootNode : w.rootNode = v.rootNode
  mounts : w.mounts = v.mounts
  hashTable : w.hashTable = v.hashTable
  vnodes : w.vnodes = v.vnodes
  ventries : w.ventries = update
    (update v.ventries parent (some { p with children := p.children ++ [dirent] })) dirent (some d)
  parent_eq : v.ventries parent = some p
  fresh : v.ventries dirent = none
  up : d.parent = parent
  children : d.children = []
  mount : d.mount = none

theorem Appended.added {parent dirent : Addr} {p d : Ventry} (A : Appended v w parent dirent p d) :
    Added v w dirent d := by
  refine ⟨A.rootNode, A.mounts, A.hashTable, fun a n hn => A.vnodes ▸ hn, ?_, fun a e h => ?_,
    fun a ⟨f, h⟩ ha => ?_, A.fresh, A.children, A.mount⟩
  · rw [A.ventries, update_self]
  · have ha : a ≠ dirent := by
      rintro rfl
      simp [A.fresh] at h
    rw [A.ventries, update_of_ne ha, A.up]
    rcases eq_or_ne a parent with rfl | hpa
    · rw [A.parent_eq, some_inj] at h
      rw [update_self]
      refine ⟨_, rfl, h ▸ ⟨rfl, rfl, rfl, rfl, rfl⟩, fun c => ?_⟩
      rw [List.mem_append, List.mem_singleton, and_iff_right rfl, h]
    · rw [update_of_ne hpa]
      exact ⟨e, h, ⟨rfl, rfl, rfl, rfl, rfl⟩, fun c => (or_iff_left fun h => hpa h.1).symm⟩
  · rw [A.ventries, update_of_ne ha] at h
    by_cases hpa : a = parent
    · exact ⟨p, hpa ▸ A.parent_eq⟩
    · rw [update_of_ne hpa] at h
      exact ⟨f, h⟩

/-! ## Making entries -/

/-- `u` is `v` with a new node, to which an entry can be made. -/
structure WithNode (v u : Vfs) (inode : Addr) : Prop where
  ventries : u.ventries = v.ventries
  sockets : u.sockets = v.sockets
  hashTable : u.hashTable = v.hashTable
  rootNode : u.rootNode = v.rootNode
  mounts : u.mounts = v.mounts
  openFiles : u.openFiles = v.openFiles
  node : ∀ a n, v.vnodes a = some n → ∃ k, u.vnodes a = some { n with nlink := k } ∧
    (n.nlink ≠ 0 → k ≠ 0) ∧ ((∀ b e, v.ventries b = some e → e.node ≠ a) → k = n.nlink)
  made : ∃ n, u.vnodes inode = some n ∧ n.ref = 0 ∧ sIssock n.mode = false ∧ n.nlink + 1 ≠ 0
  only : ∀ a n, u.vnodes a = some n → v.vnodes a = none → a = inode
  null : u.vnodes 0 = none

section Making

variable {v u : Vfs} {parent : Addr} {p : Ventry} {path : Str} {new : Fresh}

/-- The entry that `appendDirent` makes. -/
def plainDirent (parent : Addr) (path : Str) (inode : Addr) : Ventry :=
  { name := ventryName path, node := inode, parent, children := [], next := 0, mount := none,
    count := 0 }

theorem length_ventryName (path : Str) : (ventryName path).length ≤ 63 := by
  rw [ventryName, List.length_take]
  exact Nat.min_le_left ..

theorem appendDirent_eq (hp0 : parent ≠ 0) (hp : v.ventries parent = some p)
    (hd : new.dirent ≠ 0) (hfresh : v.ventries new.dirent = none) (hi : new.inode ≠ 0)
    (hn : v.vnodes new.inode = some n) :
    appendDirent v parent path new = .ok { v.setVnode new.inode { n with nlink := n.nlink + 1 } with
      ventries := update (update v.ventries parent
        (some { p with children := p.children ++ [new.dirent] })) new.dirent
        (some (plainDirent parent path new.inode)) } := by
  have hne : parent ≠ new.dirent := by
    rintro rfl
    simp [hfresh] at hp
  rw [appendDirent, ventryNew, vnode_eq hi hn]
  show (Vfs.ventry (Vfs.setVentry _ new.dirent _) new.dirent >>= fun d => _) = _
  rw [ventry_eq hd (ventries_set_self ..)]
  show (Vfs.ventry (Vfs.setVentry _ new.dirent _) parent >>= fun q => _) = _
  rw [ventry_eq hp0 (show _ = some p by
    rw [ventries_set_ne _ _ hne, ventries_set_ne _ _ hne]
    exact hp)]
  refine congrArg Except.ok ?_
  simp only [Vfs.setVentry, Vfs.setVnode, update_idem, plainDirent]
  rw [update_comm hne]

theorem linkDirent_eq_append (v : Vfs) (parent : Addr) (path : Str) (new : Fresh) :
    linkDirent v parent path new =
      appendDirent v parent path new >>= fun w => dcacheInsert w new.dirent := by
  rw [appendDirent]
  simp only [bind_assoc]
  rfl

variable (H : HeapOk v)

include H

theorem HeapOk.node_ne (ha : a ≠ 0) (hnone : v.vnodes a = none) :
    ∀ b e, v.ventries b = some e → e.node ≠ a := by
  rintro b e he rfl
  obtain ⟨n, hn⟩ := H.node b e he ha
  simp [hnone] at hn

theorem HeapOk.newInode (hp : Live v parent) (hnew : new.Ok v) (mode : BitVec 32) :
    Meets IsFreed (newInode v parent mode new) fun u => ∃ p n, v.ventries parent = some p ∧
      p.node ≠ 0 ∧ u = v.setVnode new.inode n ∧ n.ref = 0 ∧ n.nlink = 0 ∧ n.mode = mode := by
  rw [Fs.newInode, vnodeNew]
  have H₁ := H.setVnode hnew.inode_ne_zero
    { mode, dev := 0, nlink := 0, ref := 0, data := 0, iops := noIops }
  refine (meets_ventry (.inr hp)).bind fun p hp => ?_
  refine (H₁.meets_node hp).bind fun pn hpn => ?_
  refine (meets_vnode fun _ => ⟨_, vnodes_set_self ..⟩).bind fun n hn => meets_ok.2 ?_
  rw [vnodes_set_self, some_inj] at hn
  refine ⟨p, { n with iops := pn.iops }, hp, hpn.1, ?_, ?_⟩
  · simp [Vfs.setVnode, update_idem]
  · rw [← hn.2]
    exact ⟨rfl, rfl, rfl⟩

theorem HeapOk.withNode (hnew : new.Ok v) (href : n.ref = 0) (hsock : sIssock n.mode = false)
    (hlink : n.nlink + 1 ≠ 0) : WithNode v (v.setVnode new.inode n) new.inode where
  ventries := rfl
  sockets := rfl
  hashTable := rfl
  rootNode := rfl
  mounts := rfl
  openFiles := rfl
  node a m hm := by
    have ha : a ≠ new.inode := by
      rintro rfl
      simp [hnew.inode] at hm
    exact ⟨m.nlink, (vnodes_set_ne _ _ ha).trans hm, id, fun _ => rfl⟩
  made := ⟨n, vnodes_set_self .., href, hsock, hlink⟩
  only a m hm hnone := by
    by_contra ha
    simp [vnodes_set_ne _ _ ha, hnone] at hm
  null := (vnodes_set_ne _ _ hnew.inode_ne_zero.symm).trans H.nullNode

theorem WithNode.link {q : Ventry} {m : Vnode} (W : WithNode v u new.inode) (hnew : new.Ok v)
    (hq : v.ventries parent = some q) (hqn : q.node ≠ 0) (hm : u.vnodes q.node = some m)
    (hmax : ∀ n, v.vnodes q.node = some n → m.nlink = n.nlink ∧ n.nlink + 1 ≠ 0) :
    WithNode v (u.setVnode q.node { m with nlink := m.nlink + 1 }) new.inode := by
  have hne : q.node ≠ new.inode := H.node_ne hnew.inode_ne_zero hnew.inode parent q hq
  refine ⟨W.ventries, W.sockets, W.hashTable, W.rootNode, W.mounts, W.openFiles, fun a n hn =>
    ?_, ?_, fun a n hn hnone => ?_, ?_⟩
  · obtain ⟨k, hk, hpos, hsame⟩ := W.node a n hn
    rcases eq_or_ne a q.node with rfl | ha
    · rw [hm, some_inj] at hk
      refine ⟨m.nlink + 1, ?_, fun _ => ?_, fun hno => absurd rfl (hno parent q hq)⟩
      · rw [vnodes_set_self, hk]
      · rw [(hmax n hn).1]
        exact (hmax n hn).2
    · exact ⟨k, (vnodes_set_ne _ _ ha).trans hk, hpos, hsame⟩
  · obtain ⟨n, hn, hrest⟩ := W.made
    exact ⟨n, (vnodes_set_ne _ _ hne.symm).trans hn, hrest⟩
  · by_cases ha : a = q.node
    · obtain ⟨n', hn'⟩ := H.node parent q hq hqn
      simp [ha, hn'] at hnone
    · rw [vnodes_set_ne _ _ ha] at hn
      exact W.only a n hn hnone
  · exact (vnodes_set_ne _ _ hqn.symm).trans W.null

theorem WithNode.heapOk {inode : Addr} (W : WithNode v u inode) : HeapOk u := by
  refine H.congr W.ventries W.hashTable W.rootNode W.mounts W.null fun b e n _ hn => ?_
  obtain ⟨k, hk, -⟩ := W.node _ n hn
  exact ⟨_, hk⟩

theorem HeapOk.appendDirent (hp : v.ventries parent = some p) (hpn : p.node ≠ 0) (hnew : new.Ok v)
    (W : WithNode v u new.inode) (path : Str) :
    Meets IsFreed (appendDirent u parent path new) fun w => HeapOk w ∧ Grown v w ∧
      ∃ d buckets, w.ventries new.dirent = some d ∧ CacheOk w buckets ∧
      ∀ h, new.dirent ∉ buckets h := by
  obtain ⟨n, hn, href, hsock, hlink⟩ := W.made
  have hentries := W.ventries
  have hp' : u.ventries parent = some p := hentries ▸ hp
  have hfresh : u.ventries new.dirent = none := hentries ▸ hnew.dirent
  have hp0 := H.ne_zero ⟨p, hp⟩
  rw [appendDirent_eq hp0 hp' hnew.dirent_ne_zero hfresh hnew.inode_ne_zero hn]
  refine meets_ok.2 ?_
  have Hu := (W.heapOk H).setVnode hnew.inode_ne_zero { n with nlink := n.nlink + 1 }
  generalize hw : ({ u.setVnode new.inode { n with nlink := n.nlink + 1 } with
    ventries := update (update u.ventries parent
      (some { p with children := p.children ++ [new.dirent] })) new.dirent
      (some (plainDirent parent path new.inode)) } : Vfs) = w
  have A : Appended (u.setVnode new.inode { n with nlink := n.nlink + 1 }) w parent new.dirent p
      (plainDirent parent path new.inode) := by
    subst hw
    exact ⟨rfl, rfl, rfl, rfl, rfl, hp', hfresh, rfl, rfl, rfl⟩
  have hother := H.node_ne hnew.inode_ne_zero hnew.inode
  have Hw : HeapOk w :=
    Hu.added A.added hnew.dirent_ne_zero (A.vnodes ▸ Hu.nullNode) (length_ventryName path)
    ⟨_, A.vnodes ▸ vnodes_set_self ..⟩ (fun a e he => hother a e (hentries ▸ he)) fun _ =>
    ⟨p, hp', hpn⟩
  refine ⟨Hw, ?_, ?_⟩
  · refine ⟨?_, ?_, ?_, ?_, fun a e he _ => ?_, fun a m hm => ?_, fun a m hm hnone => ?_,
      fun a f hf hf0 => ?_⟩
    · rw [← hw]
      exact W.openFiles
    · rw [← hw]
      exact W.sockets
    · rw [← hw]
      exact W.rootNode
    · rw [← hw]
      exact W.mounts
    · obtain ⟨f, hf, S, -⟩ := A.added.keep a e (hentries ▸ he)
      exact ⟨f, hf, S.node⟩
    · have ha : a ≠ new.inode := by
        rintro rfl
        simp [hnew.inode] at hm
      obtain ⟨k, hk, hrest⟩ := W.node a m hm
      refine ⟨k, ?_, hrest⟩
      rw [A.vnodes, vnodes_set_ne _ _ ha, hk]
    · have ha : a = new.inode := by
        by_contra ha
        rw [A.vnodes, vnodes_set_ne _ _ ha] at hm
        exact ha (W.only a m hm hnone)
      rw [A.vnodes, ha, vnodes_set_self, some_inj] at hm
      rw [← hm]
      exact ⟨href, hsock, hlink⟩
    · obtain ⟨rfl, rfl⟩ | ⟨e, he, S, -⟩ := A.added.cases hf
      · exact .inr hnew.inode
      · exact .inl ⟨a, e, hentries ▸ he, S.node.symm⟩
  · obtain ⟨buckets, C⟩ := Hu.cache
    refine ⟨_, buckets, A.added.entry, A.added.cache C, fun h hin => ?_⟩
    obtain ⟨e, he⟩ := C.live hin
    cases hfresh.symm.trans he

theorem HeapOk.linkDirent (hp : v.ventries parent = some p) (hpn : p.node ≠ 0) (hnew : new.Ok v)
    (W : WithNode v u new.inode) (path : Str) :
    Meets IsFreed (linkDirent u parent path new) fun w => HeapOk w ∧ Grown v w := by
  rw [linkDirent_eq_append]
  refine (H.appendDirent hp hpn hnew W path).bind fun w ⟨Hw, G, d, buckets, hd, C, hout⟩ => ?_
  refine (Hw.dcacheInsert ⟨d, hd⟩ hd ⟨buckets, C, hout _⟩).mono fun w' ⟨H', L⟩ => ?_
  exact ⟨H', G.trans H L.toThinned.grown⟩

theorem HeapOk.genericFsCreate (hp : Live v parent) (hnew : new.Ok v) (path : Str)
    (hsock : sIssock (sIfreg ||| mode) = false) :
    Meets IsFreed (genericFsCreate v parent path mode new) fun w => HeapOk w ∧ Grown v w := by
  refine (H.newInode hp hnew _).bind ?_
  rintro _ ⟨p, n, hp, hpn, rfl, href, hlink, hmode⟩
  exact H.linkDirent hp hpn hnew (H.withNode hnew href (hmode ▸ hsock) (by rw [hlink]; decide)) path

theorem HeapOk.genericFsMkdir (hp : Live v parent) (hnew : new.Ok v) (path : Str)
    (hsock : sIssock (sIfdir ||| mode) = false)
    (hmax : ∀ a n, v.vnodes a = some n → n.nlink + 1 ≠ 0) :
    Meets IsFreed (genericFsMkdir v parent path mode new) fun w => HeapOk w ∧ Grown v w := by
  refine (H.newInode hp hnew _).bind ?_
  rintro _ ⟨p, n, hp, hpn, rfl, href, hlink, hmode⟩
  refine (meets_vnode fun _ => ⟨n, vnodes_set_self ..⟩).bind fun n' hn' => ?_
  obtain rfl := some_inj.1 ((vnodes_set_self ..).symm.trans hn'.2)
  have hidem : (v.setVnode new.inode n).setVnode new.inode { n with nlink := n.nlink + 1 } =
      v.setVnode new.inode { n with nlink := n.nlink + 1 } := by
    simp [Vfs.setVnode, update_idem]
  rw [hidem]
  have W : WithNode v (v.setVnode new.inode { n with nlink := n.nlink + 1 }) new.inode :=
    H.withNode hnew href (hmode ▸ hsock) (show n.nlink + 1 + 1 ≠ 0 by rw [hlink]; decide)
  refine meets_ventry_bind hp ?_
  refine ((W.heapOk H).meets_node hp).bind fun pn hpn' => ?_
  refine H.linkDirent hp hpn hnew (W.link H hnew hp hpn hpn'.2 fun m hm => ⟨?_, hmax _ m hm⟩) path
  have hne := H.node_ne hnew.inode_ne_zero hnew.inode parent p hp
  rw [vnodes_set_ne _ _ hne, hm, some_inj] at hpn'
  rw [hpn'.2]

omit H in
theorem Looked.fresh {w : Vfs} (L : Looked v w) (hnew : new.Ok v) : new.Ok w := by
  refine ⟨hnew.dirent_ne_zero, hnew.inode_ne_zero, ?_, L.vnodes ▸ hnew.inode⟩
  by_contra hne
  obtain ⟨f, hf⟩ := Option.ne_none_iff_exists'.1 hne
  obtain ⟨e, he, -⟩ := L.back _ f hf
  simp [hnew.dirent] at he

theorem HeapOk.vfsCreate {cwd : Addr} (hcwd : Ptr v cwd) (hnew : new.Ok v) (path : Str)
    (hsock : sIssock (sIfreg ||| mode) = false) :
    Meets IsFreed (vfsCreate v cwd path mode new) fun r => HeapOk r.2 ∧ Grown v r.2 := by
  refine (H.vfsLookup hcwd path true).bind ?_
  rintro ⟨found, v₁⟩ ⟨H₁, L₁, hfound⟩
  rcases found with _ | parent
  · exact meets_ok.2 ⟨H₁, L₁.toThinned.grown⟩
  refine (H₁.vfsLookupAt (.inr (hfound parent rfl)) _ false).bind ?_
  rintro ⟨found', v₂⟩ ⟨H₂, L₂, -⟩
  have L := L₁.trans L₂
  cases found' with
  | ok a => exact meets_ok.2 ⟨H₂, L.toThinned.grown⟩
  | error errno =>
    have hparent := L₂.live parent (hfound parent rfl)
    refine (meets_ventry (.inr hparent)).bind fun p hp => ?_
    refine (H₂.meets_node hp).bind fun n _ => meets_ite (fun _ => ?_) fun _ => ?_
    · refine (H₂.genericFsCreate hparent (L.fresh hnew) _ hsock).bind fun w ⟨H', G⟩ => meets_ok.2 ?_
      exact ⟨H', L.toThinned.grown.trans H G⟩
    · exact meets_ok.2 ⟨H₂, L.toThinned.grown⟩

theorem HeapOk.procfsNewEntry (hroot : Ptr v root) (path : Str)
    {make : Vfs → Addr → Str → Except VfsFault Vfs}
    (hmake : ∀ u parent name, HeapOk u → Looked v u → Live u parent →
      Meets IsFreed (make u parent name) fun w => HeapOk w ∧ Grown u w) :
    Meets IsFreed (procfsNewEntry make v root path) fun w => HeapOk w ∧ Grown v w := by
  refine (H.vfsLookupAt hroot path true).bind ?_
  rintro ⟨found, v₁⟩ ⟨H₁, L₁, hfound⟩
  rcases found with _ | parent
  · exact meets_ok.2 ⟨H₁, L₁.toThinned.grown⟩
  refine (H₁.vfsLookupAt (.inr (hfound parent rfl)) _ false).bind ?_
  rintro ⟨found', v₂⟩ ⟨H₂, L₂, -⟩
  have L := L₁.trans L₂
  cases found' with
  | ok a => exact meets_ok.2 ⟨H₂, L.toThinned.grown⟩
  | error errno =>
    refine (hmake v₂ parent _ H₂ L (L₂.live parent (hfound parent rfl))).mono fun w ⟨H', G⟩ => ?_
    exact ⟨H', L.toThinned.grown.trans H G⟩

theorem HeapOk.procfsMkdir (hroot : Ptr v root) (hnew : new.Ok v) (path : Str)
    (hmax : ∀ a n, v.vnodes a = some n → n.nlink + 1 ≠ 0) :
    Meets IsFreed (procfsMkdir v root path new) fun w => HeapOk w ∧ Grown v w :=
  H.procfsNewEntry hroot path fun u parent name Hu L hp =>
    Hu.genericFsMkdir hp (L.fresh hnew) name (by decide) fun a n hn => hmax a n (L.vnodes ▸ hn)

theorem HeapOk.procfsCreate (hroot : Ptr v root) (hnew : new.Ok v) (path : Str) :
    Meets IsFreed (procfsCreate v root path new) fun w => HeapOk w ∧ Grown v w := by
  refine H.procfsNewEntry hroot path fun u parent name Hu L hp => ?_
  have hnew' := L.fresh hnew
  refine (Hu.newInode hp hnew' _).bind ?_
  rintro _ ⟨p, n, hp, hpn, rfl, href, hlink, hmode⟩
  have W := Hu.withNode hnew' href (hmode ▸ (by decide : sIssock (sIfreg ||| 0o444) = false))
    (by rw [hlink]; decide)
  exact (Hu.appendDirent hp hpn hnew' W name).mono fun w ⟨H', G, _⟩ => ⟨H', G⟩

omit H in
theorem meets_kmallocFresh (v : Vfs) (new : Fresh) :
    Meets IsFreed (kmallocFresh v new) fun _ => new.Ok v := by
  rw [kmallocFresh]
  exact meets_ite (fun h => meets_ok.2 h) fun _ => meets_error.2 id

theorem HeapOk.procfsRegisterProcess (hroot : Linked v root) (pid : Nat) (new : FreshProcess)
    (hmax : ∀ a n, v.vnodes a = some n → n.nlink + 1 ≠ 0) :
    Meets IsFreed (procfsRegisterProcess v root pid new) fun w => HeapOk w ∧ Grown v w := by
  refine (meets_kmallocFresh v new.dir).bind fun _ hdir => ?_
  refine (H.procfsMkdir (.inr hroot.live) hdir _ hmax).bind fun v₁ ⟨H₁, G₁⟩ => ?_
  refine (meets_kmallocFresh v₁ new.status).bind fun _ hstatus => ?_
  refine (H₁.procfsCreate (.inr (G₁.linked hroot).live) hstatus _).bind fun v₂ ⟨H₂, G₂⟩ => ?_
  have G := G₁.trans H G₂
  refine (meets_kmallocFresh v₂ new.maps).bind fun _ hmaps => ?_
  refine (H₂.procfsCreate (.inr (G.linked hroot).live) hmaps _).mono fun v₃ ⟨H₃, G₃⟩ => ?_
  exact ⟨H₃, G.trans H G₃⟩

end Making

end Monolith.Fs
