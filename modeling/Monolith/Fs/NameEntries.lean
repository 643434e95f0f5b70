import Monolith.Fs.Mount

/-!
# Names that come and go

A new entry gets a name that its directory does not have yet, because the lookup of that name has
failed (`NamesOk.free_name`); an entry that nobody holds is freed when it is removed, and leaves the
hash table at once. So both leave a name space in order: `NamesOk.vfsNewEntry` and
`NamesOk.procfsNewEntry` for entries that come, `NamesOk.vfsUnlink` and `NamesOk.procfsRemove` for
those that go.
-/

namespace Monolith.Fs

open Function Fallible Path Option Except Ventry Vfs List

/-! ## What is kept -/

/-- The entries of `v` are in `w`, where they were, and with what was mounted on them. -/
structure Extends (v w : Vfs) : Prop where
  rootNode : w.rootNode = v.rootNode
  live : ∀ a, Live v a → Live w a
  parentOf : ∀ a, Live v a → parentOf w a = parentOf v a
  mountOf : ∀ a, Live v a → mountOf w a = mountOf v a

section Extends

variable {u v w : Vfs} {a : Addr}

theorem Extends.refl (v : Vfs) : Extends v v := ⟨rfl, fun _ h => h, fun _ _ => rfl, fun _ _ => rfl⟩

theorem Extends.trans (E : Extends u v) (E' : Extends v w) : Extends u w where
  rootNode := E'.rootNode.trans E.rootNode
  live a h := E'.live a (E.live a h)
  parentOf a h := (E'.parentOf a (E.live a h)).trans (E.parentOf a h)
  mountOf a h := (E'.mountOf a (E.live a h)).trans (E.mountOf a h)

theorem Looked.extends (L : Looked v w) : Extends v w :=
  ⟨L.rootNode, L.live, fun _ _ => by rw [L.parentOf], fun _ _ => by rw [L.mountOf]⟩

theorem Extends.isRoot (E : Extends v w) (h : IsRoot v a) : IsRoot w a :=
  ⟨E.live a h.1, (E.parentOf a h.1).trans h.2⟩

theorem Extends.bare (E : Extends v w) (hlive : Live v a) (h : ¬Covered v a) : ¬Covered w a := by
  rwa [Covered, E.rootNode, E.mountOf a hlive]

end Extends

/-! ## Nodes -/

section Nodes

variable {v w : Vfs}

/-- The nodes that entries have stay what they are, and nothing but nodes and sockets changes. -/
theorem NamesOk.nodes (N : NamesOk v)
    (heq : w = { v with vnodes := w.vnodes, sockets := w.sockets })
    (hkeep : ∀ a e n, v.ventries a = some e → v.vnodes e.node = some n →
      ∃ m, w.vnodes e.node = some m ∧ m.mode = n.mode ∧ m.iops = n.iops)
      (hnull : w.vnodes 0 = none) :
    NamesOk w ∧ Extends v w := by
  rw [heq]
  refine ⟨⟨⟨N.null, hnull, fun a e he hn => ?_, N.single, N.parent, N.child, N.mount, N.mounts,
    N.root, N.name, ?_⟩,
    N.linked, N.valid, N.unique, N.above, fun a e m he hm => ?_, N.rootParent, N.top, N.mountRoot,
    N.mountpoint⟩, rfl, fun _ h => h, fun _ _ => rfl, fun _ _ => rfl⟩
  · obtain ⟨n, hn⟩ := N.node a e he hn
    obtain ⟨m, hm, -⟩ := hkeep a e n he hn
    exact ⟨m, hm⟩
  · obtain ⟨buckets, C⟩ := N.cache
    exact ⟨buckets, C.chain, C.nodup, C.bucket⟩
  · obtain ⟨n, hn, O⟩ := N.node_of he
    obtain ⟨m', hm', hmode, hiops⟩ := hkeep a e n he hn
    obtain rfl := mem_unique hm' hm
    exact O.congr rfl rfl hmode hiops

theorem NamesOk.nodesKept (N : NamesOk v) (K : NodesKept v w) (hnull : w.vnodes 0 = none) :
    NamesOk w :=
  (N.nodes (by rw [K.eq]) (fun _ _ n _ hn => K.keep _ n hn) hnull).1

theorem NodesKept.extends (K : NodesKept v w) : Extends v w := by
  rw [K.eq]
  exact ⟨rfl, fun _ h => h, fun _ _ => rfl, fun _ _ => rfl⟩

theorem NodesKept.oneTree (K : NodesKept v w) (O : OneTree v) : OneTree w := by
  obtain ⟨buckets, C, hall⟩ := O.cached
  rw [K.eq]
  exact ⟨O.mounts, O.bare, O.top, buckets, ⟨C.chain, C.nodup, C.bucket⟩, hall⟩

theorem NodesKept.child (K : NodesKept v w) (a : Addr) (name : Str) :
    (spaceOf w).child a name = (spaceOf v).child a name := by
  rw [K.eq]
  rfl

end Nodes

/-! ## Entries that come -/

section Coming

variable {v u w : Vfs} {parent dirent : Addr} {p d : Ventry}

theorem Added.extends (A : Added u w dirent d) : Extends u w := by
  refine ⟨A.rootNode, fun a ⟨e, he⟩ => ?_, fun a => A.parentOf, fun a _ => A.mountOf a⟩
  obtain ⟨f, hf, -⟩ := A.keep a e he
  exact ⟨f, hf⟩

theorem Added.oneTree (A : Added v u dirent d) (O : OneTree v) (hd : dirent ≠ 0) (hp : d.parent ≠ 0)
    (h : dcacheInsert u dirent = .ok w) : OneTree w := by
  obtain ⟨buckets, C, hall⟩ := O.cached
  have hout : dirent ∉ buckets (dcacheHash d.parent d.name) := fun hin => by
    obtain ⟨e, he⟩ := C.live hin
    cases A.fresh.symm.trans he
  rw [dcacheInsert, ventry_eq hd A.entry, ok_bind, ok.injEq] at h
  have C' : CacheOk w _ := (A.cache C).insert hd A.entry hout (h ▸ rfl) (h ▸ rfl)
  have hroot : w.rootNode = v.rootNode := by
    rw [← h]
    exact A.rootNode
  have hnew : ∀ {f}, w.ventries dirent = some f → f.parent = d.parent ∧ f.name = d.name ∧
      f.mount = none := by
    intro f hf
    rw [← h, ventries_set_self, some_inj] at hf
    exact hf ▸ ⟨rfl, rfl, A.mount⟩
  have hold : ∀ {a f}, w.ventries a = some f → a ≠ dirent → ∃ e, v.ventries a = some e ∧
      SameEntry e f := by
    intro a f hf ha
    rw [← h, ventries_set_ne _ _ ha] at hf
    obtain ⟨heq, -⟩ | ⟨e, he, S, -⟩ := A.cases hf
    · exact absurd heq ha
    · exact ⟨e, he, S⟩
  refine ⟨?_, ?_, fun a f hf hf0 => ?_, _, C', fun a f hf hf0 => ?_⟩
  · rw [hroot, ← O.mounts, ← h]
    exact A.mounts
  · rintro a ⟨hne, hm⟩
    obtain ⟨mp, hmp⟩ := ne_none_iff_exists'.1 hm
    obtain ⟨f, hf, hfm⟩ := bind_eq_some_iff.1 hmp
    by_cases ha : a = dirent
    · cases (hnew (ha ▸ hf)).2.2.symm.trans hfm
    obtain ⟨e, he, S⟩ := hold hf ha
    refine O.bare a ⟨hroot ▸ hne, ?_⟩
    rw [mountOf_eq he, ← S.mount, hfm]
    exact some_ne_none mp
  · by_cases ha : a = dirent
    · exact absurd ((hnew (ha ▸ hf)).1.symm.trans hf0) hp
    obtain ⟨e, he, S⟩ := hold hf ha
    rw [hroot]
    exact O.top a e he (S.parent ▸ hf0)
  · by_cases ha : a = dirent
    · rw [ha] at hf ⊢
      rw [(hnew hf).1, (hnew hf).2.1, update_self]
      exact mem_cons_self
    obtain ⟨e, he, S⟩ := hold hf ha
    have hmem := hall a e he (S.parent ▸ hf0)
    rw [S.parent, S.name]
    by_cases hsame : dcacheHash e.parent e.name = dcacheHash d.parent d.name
    · rw [hsame] at hmem ⊢
      rw [update_self]
      exact mem_cons_of_mem _ hmem
    · rwa [update_of_ne hsame]

theorem NamesOk.appended (N : NamesOk u) (A : Appended u w parent dirent p d) (hd : dirent ≠ 0)
    {pn n : Vnode} (hpn : u.vnodes p.node = some pn) (hdir : sIsdir pn.mode = true)
    (hlookup : pn.iops.lookup = true) (hn : u.vnodes d.node = some n) (hiops : n.iops = pn.iops)
    (hother : ∀ a e, u.ventries a = some e → e.node ≠ d.node) (hname : NameOk d.name)
    (hfree : (spaceOf u).child parent d.name = none) : NamesOk w := by
  have hp0 : parent ≠ 0 := N.ne_zero ⟨p, A.parent_eq⟩
  have H : HeapOk w :=
    N.toHeapOk.added A.added hd (A.vnodes ▸ N.nullNode) hname.short ⟨n, A.vnodes ▸ hn⟩ hother
    fun _ => A.up ▸ ⟨p, A.parent_eq, N.linked parent p A.parent_eq⟩
  refine N.added A.added H ?_ (fun _ => hname) (fun b e he _ hpar hnm => ?_) ?_
    (fun k hk => ?_) fun q m hq hm => ?_
  · intro h0
    rw [h0, N.nullNode] at hn
    cases hn
  · simp [(N.child_eq_some hp0).2 ⟨e, he, hpar.trans A.up, hnm⟩] at hfree
  · rintro rfl
    have hfresh := A.fresh
    simp [A.up, A.parent_eq] at hfresh
  · rw [A.vnodes, hn, some_inj] at hk
    rw [← hk]
    refine ⟨?_, fun h => absurd A.children h, ?_⟩
    · rintro (h | h)
      · exact absurd A.children h
      · exact absurd (A.up.symm.trans h) hp0
    · rw [hiops]
      exact (N.nodeOk parent p pn A.parent_eq hpn).ops
  · rw [A.up, A.parent_eq, some_inj] at hq
    rw [← hq, hpn, some_inj] at hm
    exact hm ▸ ⟨hdir, hlookup⟩

variable {new : Fresh} {path : Str} {pn : Vnode} (N : NamesOk v) (hp : v.ventries parent = some p)
  (hpn : v.vnodes p.node = some pn) (hdir : sIsdir pn.mode = true) (hlookup : pn.iops.lookup = true)
  (hnew : new.Ok v) (K : Prepared v u pn new) (hname : NameOk (ventryName path))
  (hfree : (spaceOf v).child parent (ventryName path) = none)

include N hp hpn hdir hlookup hnew K hname hfree

theorem NamesOk.appendDirent (h : appendDirent u parent path new = .ok w) :
    NamesOk w ∧ Extends v w ∧ (∃ buckets, CacheOk w buckets ∧ ∀ i, new.dirent ∉ buckets i) ∧
    (OneTree v → ∀ w', dcacheInsert w new.dirent = .ok w' → OneTree w') := by
  obtain ⟨n, hn, hiops⟩ := K.node
  have Nu := N.nodesKept K.kept (K.null N.nullNode)
  have hventries : u.ventries = v.ventries := by rw [K.kept.eq]
  have hp0 := N.ne_zero ⟨p, hp⟩
  have hfresh : u.ventries new.dirent = none := hventries ▸ hnew.dirent
  have hp' : u.ventries parent = some p := hventries ▸ hp
  rw [appendDirent_eq hp0 hp' hnew.dirent_ne_zero hfresh hnew.inode_ne_zero hn, ok.injEq] at h
  -- the link of the new node is counted
  have K₁ : NodesKept u (u.setVnode new.inode { n with nlink := n.nlink + 1 }) :=
    nodesKept_setVnode fun m hm => by
    rw [hn, some_inj] at hm
    exact hm ▸ ⟨rfl, rfl⟩
  have N₁ := Nu.nodesKept K₁ ((vnodes_set_ne _ _ hnew.inode_ne_zero.symm).trans Nu.nullNode)
  have A : Appended (u.setVnode new.inode { n with nlink := n.nlink + 1 }) w parent new.dirent p
      (plainDirent parent path new.inode) := by
    rw [← h]
    exact ⟨rfl, rfl, rfl, rfl, rfl, hp', hfresh, rfl, rfl, rfl⟩
  have hother : ∀ a e, u.ventries a = some e → e.node ≠ new.inode := by
    rw [hventries]
    exact N.toHeapOk.node_ne hnew.inode_ne_zero hnew.inode
  obtain ⟨pn', hpn', hmode, hops⟩ := K.kept.keep _ pn hpn
  have hfree' : (spaceOf (u.setVnode new.inode { n with nlink := n.nlink + 1 })).child parent
      (ventryName path) = none := by
    rwa [K₁.child, K.kept.child]
  refine ⟨N₁.appended A hnew.dirent_ne_zero ((vnodes_set_ne _ _ (hother parent p hp')).trans hpn')
    (hmode ▸ hdir) (hops ▸ hlookup) (vnodes_set_self ..) (hiops.trans hops.symm) hother hname
    hfree', (K.kept.extends.trans K₁.extends).trans A.added.extends, ?_,
    fun O w' => A.added.oneTree (K₁.oneTree (K.kept.oneTree O)) hnew.dirent_ne_zero hp0⟩
  obtain ⟨buckets, C⟩ := N₁.cache
  refine ⟨buckets, A.added.cache C, fun i hin => ?_⟩
  obtain ⟨e, he⟩ := C.live hin
  cases hfresh.symm.trans he

theorem NamesOk.linkDirent (h : linkDirent u parent path new = .ok w) :
    NamesOk w ∧ Extends v w ∧ (OneTree v → OneTree w) := by
  rw [linkDirent_eq_append, bind_eq_ok] at h
  obtain ⟨u', happend, hinsert⟩ := h
  obtain ⟨N', E, ⟨buckets, C, hout⟩, hone⟩ :=
    N.appendDirent hp hpn hdir hlookup hnew K hname hfree happend
  obtain ⟨d, hd, -⟩ := bind_eq_ok.1 hinsert
  replace hd := (ventry_eq_ok.1 hd).2
  obtain ⟨H, L⟩ := (N'.toHeapOk.dcacheInsert ⟨d, hd⟩ hd ⟨buckets, C, hout _⟩).2 w hinsert
  exact ⟨N'.looked L H, E.trans L.extends, fun O => hone O w hinsert⟩

end Coming

/-! ## The name of a new entry -/

/-- What is made, by its path: no name of it has more than 63 bytes, and the last one is not
`..`. -/
structure PathOk (path : Str) : Prop where
  short : ∀ c ∈ components slash path, c.length ≤ 63
  last : dots.above ∉ components slash (basename path)

/-- Where the last name may be `..` if it leads somewhere. -/
structure NewPath (v : Vfs) (path : Str) : Prop where
  short : ∀ c ∈ components slash path, c.length ≤ 63
  last : dots.above ∈ components slash (basename path) → ∀ a, Live v a → aboveOf v a ≠ none

variable {path : Str} {q : Query} {parent root : Addr} {r : Except Errno Unit} {new : Fresh}
  {v₁ v₂ : Vfs} {cwd : Addr}

theorem PathOk.fits (h : PathOk path) (v : Vfs) : NewPath v path :=
  ⟨h.short, fun hin => absurd hin h.last⟩

section Name

variable {v w : Vfs} {a : Addr}

variable (N : NamesOk v)

include N

theorem NamesOk.exists_seen (a : Addr) : ∃ b, seenAt v a = some b := by
  by_cases hc : Covered v a
  · obtain ⟨mp, hmp⟩ := ne_none_iff_exists'.1 hc.2
    obtain ⟨r, hr, -⟩ := N.mountRoot a mp hmp
    refine ⟨r, ?_⟩
    rwa [seenAt, if_pos hc.1, hmp]
  · exact ⟨a, seenAt_of_bare hc⟩

theorem NamesOk.isDir_of_seek (hq : q.parent = true) (hs : Live v q.start)
    (hne : components slash q.path ≠ []) (h : q.seek v = .ok a) : (spaceOf v).isDir a = true := by
  rw [Query.seek, hq] at h
  obtain ⟨b, hb, hdir, hseen⟩ := Space.walk_parent_eq_ok (P := Live v)
    (fun _ _ _ hcur hstep => N.live_step hcur hstep) hs hne h
  change seenAt v b = some a at hseen
  by_cases hc : Covered v b
  · -- the root of a file system is a directory
    obtain ⟨mp, hmp⟩ := ne_none_iff_exists'.1 hc.2
    obtain ⟨r, hr, hr0⟩ := N.mountRoot b mp hmp
    obtain ⟨e, he⟩ := N.live_seen hb hseen
    rw [seenAt, if_pos hc.1, hmp] at hseen
    obtain rfl : r = a := mem_unique hr hseen
    obtain ⟨n, hn, O⟩ := N.node_of he
    rw [parentOf_eq he] at hr0
    exact (congrArg sIsdir (modeOf_eq he hn)).trans (O.dir (.inr hr0))
  · rw [seenAt_of_bare hc, some_inj] at hseen
    exact hseen ▸ hdir

/-- **The name of a new entry** is one that its directory does not have. -/
theorem NamesOk.free_name {why : Failure} (hpath : NewPath v path) (hlive : Live v a)
    (hbare : ¬Covered v a) (hdir : components slash path ≠ [] → (spaceOf v).isDir a = true)
    (h : Query.seek v ⟨a, basename path, false⟩ = .error why) :
    NameOk (ventryName (basename path)) ∧ (spaceOf v).child a (ventryName (basename path)) = none ∧
      (spaceOf v).isDir a = true := by
  have hseen : (spaceOf v).seen a = some a := seenAt_of_bare hbare
  obtain ⟨pre, -, -, hslash⟩ := basename_split path
  have hne : components slash (basename path) ≠ [] := by
    intro hnil
    simp [Query.seek, hnil, Space.walk, Space.arrive, hseen] at h
  obtain ⟨hcomp, hnil, hmem⟩ :=
    ventryName_eq hslash hne fun c hc => hpath.short c (components_basename path hc)
  have hin := components_basename path (hcomp ▸ mem_singleton_self _)
  have hadir := hdir (ne_nil_of_mem hin)
  rw [Query.seek, hcomp] at h
  have hlast : ventryName (basename path) ≠ dots.above := by
    intro heq
    obtain ⟨next, hnext⟩ := ne_none_iff_exists'.1
      (hpath.last (by rw [hcomp, heq]; exact mem_singleton_self _) a hlive)
    obtain ⟨b, hb⟩ := N.exists_seen next
    rw [heq, Space.walk_dotdot (by decide), hadir,
      show (spaceOf v).up a = some next from hnext] at h
    simp [Space.arrive, show (spaceOf v).seen next = some b from hb] at h
  obtain ⟨hhere, hchild⟩ :=
    Space.walk_name_eq_error hadir hseen hlast (fun next _ => N.exists_seen next) h
  exact ⟨⟨hnil, hmem, hhere, hlast, hpath.short _ hin⟩, hchild, hadir⟩

/-! ## `vfs_create`, `vfs_mkdir`, `vfs_mknod` and those of `procfs` -/

theorem NamesOk.two_lookups {r : Except Errno Addr} (P : q.Plain v) (hnul : 0 ∉ path)
    (hfirst : q.call v = .ok (.ok parent, v₁))
    (hsecond : Fs.vfsLookupAt v₁ parent (basename path) false = .ok (r, v₂)) :
    NamesOk v₂ ∧ Visited v v₂ ∧
      q.seek v = .ok parent ∧ lookupStatus (Query.seek v ⟨parent, basename path, false⟩) = r := by
  obtain ⟨hseek, N₁, L₁, -⟩ := N.call_ok P hfirst
  replace hseek := lookupStatus_eq_ok.1 hseek.symm
  obtain ⟨hlive, hbare⟩ := N.seek_ok P.live hseek
  have hnul' : 0 ∉ basename path := by
    obtain ⟨pre, -, hsplit, -⟩ := basename_split path
    intro h
    rw [hsplit] at hnul
    exact hnul (mem_append_right _ h)
  obtain ⟨hfound, N₂, L₂, -⟩ := N₁.call_ok (q := ⟨parent, basename path, false⟩)
    ⟨L₁.live parent hlive, hnul', fun h => absurd ((L₁.covered parent).1 h) hbare⟩ hsecond
  rw [L₁.seek] at hfound
  exact ⟨N₂, L₁.trans L₂, hseek, hfound.symm⟩

/-- If the second one fails, there is a place for the entry. -/
theorem NamesOk.new_place {errno : Errno} (hq : q.parent = true)
    (hcomp : components slash q.path = components slash path) (hpath : NewPath v path)
    (hnul : 0 ∉ path) (P : q.Plain v) (hfirst : q.call v = .ok (.ok parent, v₁))
    (hsecond : Fs.vfsLookupAt v₁ parent (basename path) false = .ok (.error errno, v₂)) :
    NamesOk v₂ ∧ Visited v v₂ ∧ NameOk (ventryName (basename path)) ∧
      (spaceOf v₂).child parent (ventryName (basename path)) = none ∧
      ∃ p pn, v₂.ventries parent = some p ∧ v₂.vnodes p.node = some pn ∧ sIsdir pn.mode = true := by
  obtain ⟨N₂, L, hseek, hmiss⟩ := N.two_lookups P hnul hfirst hsecond
  obtain ⟨hlive, hbare⟩ := N.seek_ok P.live hseek
  obtain ⟨why, hwhy⟩ := lookupStatus_eq_error hmiss
  obtain ⟨hname, hfree, hisdir⟩ := N.free_name hpath hlive hbare
    (fun hne => N.isDir_of_seek hq P.live (hcomp ▸ hne) hseek) hwhy
  rw [← L.spaceOf] at hfree hisdir
  obtain ⟨p, hp⟩ := L.live parent hlive
  obtain ⟨pn, hpn, -⟩ := N₂.node_of hp
  exact ⟨N₂, L, hname, hfree, p, pn, hp, hpn,
    (congrArg sIsdir (modeOf_eq hp hpn)).symm.trans hisdir⟩

theorem NamesOk.vfsNewEntry {op : InodeOps → Bool}
    {make : Vfs → Addr → Str → Except VfsFault (Except Errno Unit × Vfs)} (hpath : NewPath v path)
    (hnul : 0 ∉ path) (P : (queryOf v cwd path true).Plain v) (hnew : new.Ok v)
    (hop : ∀ iops : InodeOps, op iops = true → iops.create = true ∨ iops.mkdir = true ∨
    iops.mknod = true)
    (hmake : ∀ u parent p pn name r w, u.ventries parent = some p → u.vnodes p.node = some pn →
    new.Ok u →
      make u parent name = .ok (r, w) →
      (∃ u', Prepared u u' pn new ∧ Fs.linkDirent u' parent name new = .ok w) ∨ w = u)
    (h : vfsNewEntry op make v cwd path = .ok (r, w)) :
    NamesOk w ∧ Extends v w ∧ (OneTree v → OneTree w) := by
  rw [Fs.vfsNewEntry, vfsLookup_eq, bind_eq_ok] at h
  obtain ⟨⟨first, v₁⟩, hfirst, h⟩ := h
  rcases first with _ | parent
  · obtain ⟨-, N₁, L₁, -⟩ := N.call_ok P hfirst
    obtain ⟨-, rfl⟩ := h
    exact ⟨N₁, L₁.extends, L₁.oneTree⟩
  obtain ⟨⟨second, v₂⟩, hsecond, h⟩ := bind_eq_ok.1 h
  cases second with
  | ok a =>
    obtain ⟨N₂, L, -⟩ := N.two_lookups P hnul hfirst hsecond
    obtain ⟨-, rfl⟩ := h
    exact ⟨N₂, L.extends, L.oneTree⟩
  | error errno =>
    obtain ⟨N₂, L, hname, hfree, p, pn, hp, hpn, hdir⟩ :=
      N.new_place (queryOf_parent ..) (components_queryOf ..) hpath hnul P hfirst hsecond
    simp only [bind_eq_ok, ventry_eq_ok, vnode_eq_ok] at h
    obtain ⟨p', ⟨-, hp'⟩, pn', ⟨-, hpn'⟩, h⟩ := h
    obtain rfl := mem_unique hp hp'
    obtain rfl := mem_unique hpn hpn'
    split_ifs at h with hops
    · obtain ⟨u', K, hlink⟩ | rfl := hmake v₂ parent p pn _ _ _ hp hpn (L.fresh hnew) h
      · obtain ⟨N₃, E, hone⟩ :=
          N₂.linkDirent hp hpn hdir ((N₂.nodeOk parent p pn hp hpn).ops (hop _ hops))
          (L.fresh hnew) K hname hfree hlink
        exact ⟨N₃, L.extends.trans E, fun O => hone (L.oneTree O)⟩
      · exact ⟨N₂, L.extends, L.oneTree⟩
    · obtain ⟨-, rfl⟩ := h
      exact ⟨N₂, L.extends, L.oneTree⟩

theorem NamesOk.makeCall {m : Make} (hpath : NewPath v m.path) (hnul : 0 ∉ m.path)
    (P : (queryOf v m.cwd m.path true).Plain v) (hnew : m.new.Ok v) (h : m.call v = .ok (r, w)) :
    NamesOk w ∧ Extends v w ∧ (OneTree v → OneTree w) := by
  rw [Make.call] at h
  split at h
  · refine N.vfsNewEntry hpath hnul P hnew (fun _ h => .inl h)
      (fun u parent p pn name r w hp hpn hnew h => ?_) h
    obtain ⟨w', hmake, h⟩ := bind_eq_ok.1 h
    obtain ⟨-, rfl⟩ := h
    exact .inl (genericFsCreate_eq hp hpn hnew hmake)
  · refine N.vfsNewEntry hpath hnul P hnew (fun _ h => .inr (.inl h))
      (fun u parent p pn name r w hp hpn hnew h => ?_) h
    obtain ⟨w', hmake, h⟩ := bind_eq_ok.1 h
    obtain ⟨-, rfl⟩ := h
    exact .inl (genericFsMkdir_eq hp hpn hnew hmake)
  · exact N.vfsNewEntry hpath hnul P hnew (fun _ h => .inr (.inr h))
      (fun u parent p pn name r w hp hpn hnew h => genericFsMknod_eq hp hpn hnew h) h

variable (hpath : PathOk path) (P : Query.Plain v ⟨root, path, true⟩) (hnew : new.Ok v)
  (hlookup : ∀ a e n, Query.seek v ⟨root, path, true⟩ = .ok a → v.ventries a = some e →
    v.vnodes e.node = some n → n.iops.lookup = true)

include hpath P hnew hlookup

/-- **`procfs_mkdir` and `procfs_create`**, in a directory in which names are looked up. -/
theorem NamesOk.procfsNewEntry {make : Vfs → Addr → Str → Except VfsFault Vfs}
    (hmake : ∀ u parent p pn name w, u.ventries parent = some p → u.vnodes p.node = some pn →
    new.Ok u →
      make u parent name = .ok w → ∃ u', Prepared u u' pn new ∧
      (Fs.linkDirent u' parent name new = .ok w ∨ Fs.appendDirent u' parent name new = .ok w))
    (h : procfsNewEntry make v root path = .ok w) : NamesOk w ∧ Extends v w := by
  obtain ⟨⟨first, v₁⟩, hfirst, h⟩ := bind_eq_ok.1 h
  obtain ⟨hseek, N₁, L₁, -⟩ := N.call_ok P hfirst
  rcases first with _ | parent
  · obtain rfl := ok.inj h
    exact ⟨N₁, L₁.extends⟩
  obtain ⟨⟨second, v₂⟩, hsecond, h⟩ := bind_eq_ok.1 h
  cases second with
  | ok a =>
    obtain ⟨N₂, L, -⟩ := N.two_lookups P P.nul hfirst hsecond
    obtain rfl := ok.inj h
    exact ⟨N₂, L.extends⟩
  | error errno =>
    obtain ⟨N₂, L, hname, hfree, p, pn, hp, hpn, hdir⟩ :=
      N.new_place rfl rfl (hpath.fits v) P.nul P hfirst hsecond
    have hops : pn.iops.lookup = true := by
      obtain ⟨e, he, hb⟩ := L.back parent p hp
      refine hlookup parent e pn (lookupStatus_eq_ok.1 hseek.symm) he ?_
      rwa [← node_of_bare hb, ← L.vnodes]
    have hnew' := L.fresh hnew
    obtain ⟨u', K, hlink | happend⟩ := hmake v₂ parent p pn _ _ hp hpn hnew' h
    · obtain ⟨N₃, E, -⟩ := N₂.linkDirent hp hpn hdir hops hnew' K hname hfree hlink
      exact ⟨N₃, L.extends.trans E⟩
    · obtain ⟨N₃, E, -⟩ := N₂.appendDirent hp hpn hdir hops hnew' K hname hfree happend
      exact ⟨N₃, L.extends.trans E⟩

theorem NamesOk.procfsMkdir (h : procfsMkdir v root path new = .ok w) :
    NamesOk w ∧ Extends v w := by
  refine N.procfsNewEntry hpath P hnew hlookup (fun u parent p pn name w hp hpn hnew h => ?_) h
  obtain ⟨u', K, hlink⟩ := genericFsMkdir_eq hp hpn hnew h
  exact ⟨u', K, .inl hlink⟩

theorem NamesOk.procfsCreate (h : procfsCreate v root path new = .ok w) :
    NamesOk w ∧ Extends v w := by
  refine N.procfsNewEntry hpath P hnew hlookup (fun u parent p pn name w hp hpn hnew h => ?_) h
  obtain ⟨u', hinode, happend⟩ := bind_eq_ok.1 h
  obtain ⟨n, rfl, hiops⟩ := newInode_eq hp hpn hnew hinode
  exact ⟨_, hnew.prepared hiops, .inr happend⟩

end Name

/-! ## Entries that go -/

/-- Nobody holds the entry, nothing is below it and nothing is mounted on it, and it is in a
directory. -/
def Unused (v : Vfs) (d : Addr) : Prop :=
  ∃ e, v.ventries d = some e ∧ e.count = 0 ∧ e.children = [] ∧ e.mount = none ∧ e.parent ≠ 0

/-- The same file system but for its nodes, and those other than `node` have their modes and
operations. -/
structure Dropped (v u : Vfs) (node : Addr) : Prop where
  eq : u = { v with vnodes := u.vnodes, sockets := u.sockets }
  keep : ∀ a n, a ≠ node → v.vnodes a = some n → ∃ m, u.vnodes a = some m ∧ m.mode = n.mode ∧
    m.iops = n.iops
  null : v.vnodes 0 = none → u.vnodes 0 = none

section Going

variable {v u w : Vfs} {a d node : Addr} {e : Ventry}

theorem Dropped.trans (D : Dropped u v node) (D' : Dropped v w node) : Dropped u w node := by
  refine ⟨?_, fun a n ha hn => ?_, fun h => D'.null (D.null h)⟩
  · rw [D'.eq, D.eq]
  obtain ⟨m, hm, hmode, hiops⟩ := D.keep a n ha hn
  obtain ⟨k, hk, hmode', hiops'⟩ := D'.keep a m ha hm
  exact ⟨k, hk, hmode'.trans hmode, hiops'.trans hiops⟩

theorem dropped_setVnode {n m : Vnode} (ha : a ≠ 0) (hn : v.vnodes a = some n)
    (hmode : m.mode = n.mode) (hiops : m.iops = n.iops) : Dropped v (v.setVnode a m) node := by
  refine ⟨rfl, fun b k _ hk => ?_, fun h => (vnodes_set_ne _ _ ha.symm).trans h⟩
  by_cases hb : b = a
  · rw [hb, hn, some_inj] at hk
    exact ⟨m, hb ▸ vnodes_set_self .., hk ▸ ⟨hmode, hiops⟩⟩
  · exact ⟨k, (vnodes_set_ne _ _ hb).trans hk, rfl, rfl⟩

theorem dropped_erase (sockets : Addr → Bool) :
    Dropped v { v with sockets, vnodes := update v.vnodes node none } node := by
  refine ⟨rfl, fun b k hb hk => ⟨k, (update_of_ne hb ..).trans hk, rfl, rfl⟩, fun h => ?_⟩
  by_cases h0 : (0 : Addr) = node
  · subst h0
    simp
  · exact (update_of_ne h0 ..).trans h

theorem vnodePut_dropped (h : vnodePut v a = .ok u) : Dropped v u a := by
  simp only [vnodePut, bind_eq_ok, vnode_eq_ok] at h
  obtain ⟨n, ⟨ha, hn⟩, h⟩ := h
  have D : Dropped v (v.setVnode a { n with ref := n.ref - 1 }) a := dropped_setVnode ha hn rfl rfl
  split at h
  · simp only [vnodeFree, bind_eq_ok] at h
    obtain ⟨n', -, h⟩ := h
    split at h
    · simp only [bind_eq_ok] at h
      obtain ⟨v', hsock, h⟩ := h
      rw [socketPut] at hsock
      split at hsock
      · cases hsock
      split at hsock
      · obtain rfl := ok.inj hsock
        obtain rfl := ok.inj h
        exact D.trans (dropped_erase _)
      · cases hsock
    · obtain rfl := ok.inj h
      exact D.trans (dropped_erase _)
  · obtain rfl := ok.inj h
    exact D

theorem dropNode_dropped (h : dropNode v a = .ok u) : Dropped v u a := by
  simp only [dropNode, bind_eq_ok, vnode_eq_ok] at h
  obtain ⟨n, ⟨ha, hn⟩, h⟩ := h
  split at h
  · have D : Dropped v (v.setVnode a { n with nlink := 0 }) a := dropped_setVnode ha hn rfl rfl
    exact D.trans (vnodePut_dropped h)
  · obtain rfl := ok.inj h
    exact dropped_setVnode ha hn rfl rfl

theorem dropParentLink_dropped (h : dropParentLink v parent = .ok u) : Dropped v u node := by
  have hrefl : Dropped v v node := ⟨rfl, fun a n _ hn => ⟨n, hn, rfl, rfl⟩, id⟩
  rw [dropParentLink] at h
  split at h
  · obtain rfl := ok.inj h
    exact hrefl
  simp only [bind_eq_ok] at h
  obtain ⟨p, -, h⟩ := h
  split at h
  · obtain rfl := ok.inj h
    exact hrefl
  simp only [bind_eq_ok, vnode_eq_ok] at h
  obtain ⟨n, ⟨hp0, hn⟩, h⟩ := h
  obtain rfl := ok.inj h
  exact dropped_setVnode hp0 hn rfl rfl

theorem kfreeNode_dropped (h : kfreeNode v a = .ok u) : Dropped v u a := by
  simp only [kfreeNode, bind_eq_ok] at h
  obtain ⟨n, -, h⟩ := h
  obtain rfl := ok.inj h
  exact dropped_erase v.sockets

theorem Dropped.nodeGone (D : Dropped v u node) (hnull : v.vnodes 0 = none) :
    NodeGone v u node := by
  refine ⟨?_, ?_, ?_, ?_, ?_, fun a n ha hn => ?_, D.null hnull⟩
  · rw [D.eq]
  · rw [D.eq]
  · rw [D.eq]
  · rw [D.eq]
  · rw [D.eq]
  · obtain ⟨m, hm, -⟩ := D.keep a n ha hn
    exact ⟨m, hm⟩

variable (N : NamesOk v)

include N

theorem NamesOk.detachable (h : Unused v d) : Detachable v d := by
  obtain ⟨e, he, -, hchildren, hmount, hparent⟩ := h
  have hpar : parentOf v d = e.parent := parentOf_eq he
  refine ⟨fun f hf => ?_, ?_, fun mp hmp hd => ?_, fun a f mp hf hm hr => ?_⟩
  · rw [he, some_inj] at hf
    exact hf ▸ hchildren
  · rintro rfl
    exact hparent (hpar ▸ N.rootParent)
  · refine N.mountpoint mp hmp ?_
    rw [hd, mountOf_eq he, hmount]
  · obtain ⟨r, hr', hr0⟩ := N.mountRoot a mp (by rw [mountOf_eq hf, hm])
    rw [hr, some_inj] at hr'
    rw [← hr', hpar] at hr0
    exact hparent hr0

/-- **An entry that nobody holds** is gone when it is taken out of its directory. -/
theorem NamesOk.detach (hunused : Unused v d) (he : v.ventries d = some e) (D : Dropped v u e.node)
    (h : detach u d = .ok w) : NamesOk w ∧ ∀ a, IsRoot v a → IsRoot w a := by
  have Dt := N.detachable hunused
  obtain ⟨e', he', hcount, -, -, hparent⟩ := hunused
  rw [he] at he'
  cases he'
  have G := D.nodeGone N.nullNode
  have hd0 := N.ne_zero ⟨e, he⟩
  rw [Fs.detach, ventry_eq hd0 (G.ventries ▸ he), ok_bind, bind_eq_ok] at h
  obtain ⟨u', hsib, hput⟩ := h
  obtain ⟨K, -, -, hnodes⟩ := (meets_siblingDel N.toHeapOk he (N.linked d e he) G).2 u' hsib
  have Hu := N.toHeapOk.cut K he Dt
  obtain ⟨Hw, T⟩ := (Hu.ventryPut ⟨_, K.keep he⟩).2 w hput
  -- the last reference is given back, so the entry is freed
  have hgone : w.ventries d = none := by
    have hcut : (cutEntry d e.parent d e).node = 0 := if_pos rfl
    have hcount' : (cutEntry d e.parent d e).count = 0 := hcount
    rw [Fs.ventryPut, ventry_eq hd0 (K.keep he), ok_bind] at hput
    rw [if_neg (by rw [hcount']; decide), if_neg (not_not.2 hcut), bind_eq_ok] at hput
    obtain ⟨w', -, hfree⟩ := hput
    rw [← ok.inj hfree]
    exact update_self ..
  have hback : ∀ {a f}, w.ventries a = some f → a ≠ d ∧ ∃ g, v.ventries a = some g ∧
      f.name = g.name ∧ f.parent = g.parent ∧ f.mount = g.mount ∧ f.node = g.node ∧
      (f.children ≠ [] → g.children ≠ []) := by
    intro a f hf
    have had : a ≠ d := by
      rintro rfl
      simp [hgone] at hf
    obtain ⟨f', hf', hb⟩ := T.back a f hf
    obtain ⟨g, hg, rfl⟩ := K.back hf'
    have hname := name_of_bare hb
    have hpar := parent_of_bare hb
    have hmount := mount_of_bare hb
    refine ⟨had, g, hg, hname, hpar, hmount, ?_, ?_⟩
    · rw [node_of_bare hb]
      exact if_neg had
    rw [children_of_bare hb, cutEntry]
    dsimp only
    split
    · intro hne hnil
      rw [hnil] at hne
      exact hne rfl
    · exact id
  have hkeep : ∀ {a g}, v.ventries a = some g → a ≠ d → ∃ f, w.ventries a = some f ∧
      f.parent = g.parent ∧ f.mount = g.mount := by
    intro a g hg had
    have hcut : (cutEntry d e.parent a g).node = g.node := if_neg had
    obtain ⟨f, hf, hb⟩ := T.keep a _ (K.keep hg) (hcut.symm ▸ N.linked a g hg)
    have hpar := parent_of_bare hb
    have hmount := mount_of_bare hb
    exact ⟨f, hf, hpar, hmount⟩
  have hroots : ∀ a, IsRoot v a → IsRoot w a := by
    rintro a ⟨⟨g, hg⟩, h0⟩
    have had : a ≠ d := by
      rintro rfl
      rw [parentOf_eq he] at h0
      exact hparent h0
    obtain ⟨f, hf, hpar, -⟩ := hkeep hg had
    rw [parentOf_eq hg] at h0
    exact ⟨⟨f, hf⟩, by rw [parentOf_eq hf, hpar, h0]⟩
  have hrootNode : w.rootNode = v.rootNode := T.rootNode.trans K.rootNode
  refine ⟨⟨Hw, fun a f hf => ?_, fun a f hf => ?_, fun a f b g hf hg => ?_, fun a f hf => ?_,
    fun a f n hf hn => ?_, ?_, fun a f hf => ?_, fun a mp hm => ?_, fun mp hmp => ?_⟩, hroots⟩
  · obtain ⟨-, g, hg, -, -, -, hnode, -⟩ := hback hf
    rw [hnode]
    exact N.linked a g hg
  · obtain ⟨-, g, hg, hname, hpar, -⟩ := hback hf
    rw [hname, hpar]
    exact N.valid a g hg
  · obtain ⟨-, f', hf', hname, hpar, -⟩ := hback hf
    obtain ⟨-, g', hg', hname', hpar', -⟩ := hback hg
    rw [hname, hpar, hname', hpar']
    exact N.unique a f' b g' hf' hg'
  · obtain ⟨-, g, hg, -, hpar, -⟩ := hback hf
    rw [hpar]
    exact N.above a g hg
  · obtain ⟨had, g, hg, -, hpar, -, hnode, hchildren⟩ := hback hf
    obtain ⟨m, hm, O⟩ := N.node_of hg
    have hne : g.node ≠ e.node := fun heq => had (N.single a g d e hg he (N.linked a g hg) heq)
    obtain ⟨m', hm', hmode, hiops⟩ := D.keep _ m hne hm
    rw [T.vnodes, hnodes, hnode, hm', some_inj] at hn
    rw [← hn]
    refine ⟨fun hf' => ?_, fun hf' => ?_, ?_⟩
    · rw [hmode]
      exact O.dir (hf'.imp hchildren fun h0 => hpar ▸ h0)
    · rw [hiops]
      exact O.lookup (hchildren hf')
    · rw [hiops]
      exact O.ops
  · rw [hrootNode]
    exact (hroots _ ⟨N.root.live, N.rootParent⟩).2
  · obtain ⟨-, g, hg, -, hpar, hmount, -⟩ := hback hf
    rw [hpar, Covered, hrootNode, mountOf_eq hf, hmount, ← mountOf_eq hg]
    exact N.top a g hg
  · obtain ⟨f, hf, hm⟩ := bind_eq_some_iff.1 hm
    obtain ⟨-, g, hg, -, -, hmount, -⟩ := hback hf
    obtain ⟨r, hr, hr0⟩ := N.mountRoot a mp (by rw [mountOf_eq hg, ← hmount, hm])
    exact ⟨r, hr, (hroots r ⟨(N.mount a g mp r hg (hmount ▸ hm) hr).live, hr0⟩).2⟩
  · rw [T.mounts, K.mounts] at hmp
    have hne : mp.mountpoint ≠ d := Dt.mountpoint mp hmp
    obtain ⟨g, hg, -⟩ := N.mounts mp hmp
    obtain ⟨f, hf, -, hmount⟩ := hkeep hg hne
    rw [mountOf_eq hf, hmount, ← mountOf_eq hg]
    exact N.mountpoint mp hmp

omit N in
theorem Looked.unused (L : Looked v w) (T : Tally v w 0) (h : Unused v d) : Unused w d := by
  obtain ⟨e, he, hcount, hchildren, hmount, hparent⟩ := h
  obtain ⟨f, hf⟩ := L.live d ⟨e, he⟩
  obtain ⟨e', he', hb⟩ := L.back d f hf
  rw [he] at he'
  cases he'
  have hc := T d
  rw [countOf_eq hf, countOf_eq he, Pi.zero_apply, add_zero] at hc
  exact ⟨f, hf, hc.trans hcount, (children_of_bare hb).trans hchildren,
    (mount_of_bare hb).trans hmount, parent_of_bare hb ▸ hparent⟩

theorem NamesOk.vfsUnlink (P : (queryOf v cwd path false).Plain v)
    (hunused : ∀ a, (queryOf v cwd path false).seek v = .ok a → Unused v a)
    (h : vfsUnlink v cwd path = .ok (r, w)) : NamesOk w ∧ ∀ a, IsRoot v a → IsRoot w a := by
  rw [Fs.vfsUnlink, vfsLookup_eq, bind_eq_ok] at h
  obtain ⟨⟨found, v₁⟩, hcall, h⟩ := h
  obtain ⟨hseek, N₁, L, T⟩ := N.call_ok P hcall
  rcases found with _ | d
  · obtain ⟨-, rfl⟩ := h
    exact ⟨N₁, fun a => L.isRoot⟩
  have hd := L.unused T (hunused d (lookupStatus_eq_ok.1 hseek.symm))
  simp only [bind_eq_ok, ventry_eq_ok] at h
  obtain ⟨e, ⟨-, he⟩, n, -, h⟩ := h
  split at h
  · obtain ⟨-, rfl⟩ := h
    exact ⟨N₁, fun a => L.isRoot⟩
  simp only [bind_eq_ok] at h
  obtain ⟨u, hdrop, w', hdetach, h⟩ := h
  obtain ⟨-, rfl⟩ := h
  obtain ⟨N', hroots⟩ := N₁.detach hd he (dropNode_dropped hdrop) hdetach
  exact ⟨N', fun a ha => hroots a (L.isRoot ha)⟩

theorem NamesOk.procfsRemove (P : Query.Plain v ⟨root, path, false⟩)
    (hunused : ∀ a, Query.seek v ⟨root, path, false⟩ = .ok a → Unused v a)
    (h : procfsRemove v root path = .ok w) : NamesOk w ∧ ∀ a, IsRoot v a → IsRoot w a := by
  obtain ⟨⟨found, v₁⟩, hcall, h⟩ := bind_eq_ok.1 h
  obtain ⟨hseek, N₁, L, T⟩ := N.call_ok P hcall
  rcases found with _ | d
  · obtain rfl := ok.inj h
    exact ⟨N₁, fun a => L.isRoot⟩
  have hd := L.unused T (hunused d (lookupStatus_eq_ok.1 hseek.symm))
  simp only [bind_eq_ok, ventry_eq_ok] at h
  obtain ⟨e, ⟨-, he⟩, -, -, u, hlink, u', hfree, hdetach⟩ := h
  obtain ⟨N', hroots⟩ :=
    N₁.detach hd he ((dropParentLink_dropped hlink).trans (kfreeNode_dropped hfree)) hdetach
  exact ⟨N', fun a ha => hroots a (L.isRoot ha)⟩

end Going

end Monolith.Fs
