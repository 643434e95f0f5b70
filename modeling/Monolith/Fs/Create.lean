import Monolith.Fs.Lookup

/-!
# New entries

`vfs_create`, `vfs_mkdir` and `vfs_mknod` look up the directory and the name of the new entry, make
a node for it with the operations of the directory's (`Prepared`), and link it into the directory
and into the hash table.  The name is the last one of the path (`basename_split`), as long as it
fits into the entry (`ventryName_eq`).
-/

namespace Monolith.Fs

open Function Fallible Path Transition List Vfs Option Except

/-! ## One entry more -/

/-- An old entry in the new state: only the children of the directory differ. -/
structure SameEntry (e e' : Ventry) : Prop where
  name : e'.name = e.name
  node : e'.node = e.node
  parent : e'.parent = e.parent
  next : e'.next = e.next
  mount : e'.mount = e.mount

/-- Memory for a new entry that nothing uses. -/
structure Fresh.Ok (new : Fresh) (v : Vfs) : Prop where
  dirent_ne_zero : new.dirent ≠ 0
  inode_ne_zero : new.inode ≠ 0
  dirent : v.ventries new.dirent = none
  inode : v.vnodes new.inode = none

instance (new : Fresh) (v : Vfs) : Decidable (new.Ok v) :=
  decidable_of_iff (new.dirent ≠ 0 ∧ new.inode ≠ 0 ∧ v.ventries new.dirent = none ∧
    v.vnodes new.inode = none) ⟨fun ⟨a, b, c, d⟩ => ⟨a, b, c, d⟩, fun ⟨a, b, c, d⟩ => ⟨a, b, c, d⟩⟩

/-- `w` is `v` but for its nodes, and those that were there have their modes and operations. -/
structure NodesKept (v w : Vfs) : Prop where
  eq : w = { v with vnodes := w.vnodes }
  keep : ∀ a n, v.vnodes a = some n → ∃ n', w.vnodes a = some n' ∧ n'.mode = n.mode ∧
    n'.iops = n.iops

variable {w : Vfs} {mode : BitVec 32} {pn : Vnode} {r : Except Failure Addr} {a : Addr}

theorem NodesKept.trans {u v : Vfs} (h : NodesKept u v) (h' : NodesKept v w) : NodesKept u w := by
  refine ⟨?_, fun a n hn => ?_⟩
  · rw [h'.eq, h.eq]
  obtain ⟨n', hn', hm, hi⟩ := h.keep a n hn
  obtain ⟨n'', hn'', hm', hi'⟩ := h'.keep a n' hn'
  exact ⟨n'', hn'', hm'.trans hm, hi'.trans hi⟩

theorem nodesKept_setVnode {v : Vfs} {a : Addr} {m : Vnode}
    (h : ∀ n, v.vnodes a = some n → m.mode = n.mode ∧ m.iops = n.iops) :
    NodesKept v (v.setVnode a m) := by
  refine ⟨rfl, fun b n hn => ?_⟩
  by_cases hb : b = a
  · subst hb
    exact ⟨m, vnodes_set_self .., h n hn⟩
  · exact ⟨n, (vnodes_set_ne _ _ hb).trans hn, rfl, rfl⟩

section Generic

variable {v : Vfs} {parent : Addr} {p : Ventry} {path : Str} {new : Fresh}

theorem Fresh.Ok.nodesKept (hnew : new.Ok v) (n : Vnode) : NodesKept v (v.setVnode new.inode n) :=
  nodesKept_setVnode fun m hm => by simp [hnew.inode] at hm

theorem newInode_eq {v' : Vfs} (hp : v.ventries parent = some p) (hpn : v.vnodes p.node = some pn)
    (hnew : new.Ok v) (h : newInode v parent mode new = .ok v') : ∃ n, v' = v.setVnode new.inode n ∧
    n.iops = pn.iops := by
  simp only [newInode, bind_eq_ok, ventry_eq_ok, vnode_eq_ok, ok.injEq] at h
  obtain ⟨q, ⟨-, hq⟩, pn', ⟨-, hpn'⟩, n, -, rfl⟩ := h
  have hqp : q = p := mem_unique hq hp
  have hne : q.node ≠ new.inode := by
    intro h
    simp [← hqp, h, hnew.inode] at hpn
  rw [vnodeNew, vnodes_set_ne _ _ hne, hqp, hpn, some_inj] at hpn'
  refine ⟨{ n with iops := pn'.iops }, ?_, by rw [hpn']⟩
  simp [vnodeNew, Vfs.setVnode, update_idem]

/-- What `generic_fs_create`, `generic_fs_mkdir` and `generic_fs_mknod` do before they link the
entry: there is a node for it, with the operations of the directory's, and the links of the
directory may be counted. -/
structure Prepared (v u : Vfs) (pn : Vnode) (new : Fresh) : Prop where
  kept : NodesKept v u
  null : v.vnodes 0 = none → u.vnodes 0 = none
  node : ∃ n, u.vnodes new.inode = some n ∧ n.iops = pn.iops

theorem Fresh.Ok.prepared (hnew : new.Ok v) {n : Vnode} (hiops : n.iops = pn.iops) :
    Prepared v (v.setVnode new.inode n) pn new :=
  ⟨hnew.nodesKept n, fun hnull => (vnodes_set_ne _ _ hnew.inode_ne_zero.symm).trans hnull, n,
    vnodes_set_self .., hiops⟩

section

variable (hp : v.ventries parent = some p)

include hp

section

variable (hpn : v.vnodes p.node = some pn)

include hpn

theorem genericFsCreate_eq (hnew : new.Ok v) (h : genericFsCreate v parent path mode new = .ok w) :
    ∃ u, Prepared v u pn new ∧ linkDirent u parent path new = .ok w := by
  simp only [genericFsCreate, bind_eq_ok] at h
  obtain ⟨v', hinode, hlink⟩ := h
  obtain ⟨n, rfl, hiops⟩ := newInode_eq hp hpn hnew hinode
  exact ⟨_, hnew.prepared hiops, hlink⟩

theorem genericFsMkdir_eq (hnew : new.Ok v) (h : genericFsMkdir v parent path mode new = .ok w) :
    ∃ u, Prepared v u pn new ∧ linkDirent u parent path new = .ok w := by
  simp only [genericFsMkdir, bind_eq_ok, ventry_eq_ok, vnode_eq_ok] at h
  obtain ⟨v', hinode, n, ⟨-, hn⟩, q, -, qn, ⟨hq0, hqn⟩, hlink⟩ := h
  obtain ⟨n', rfl, hiops⟩ := newInode_eq hp hpn hnew hinode
  rw [vnodes_set_self] at hn
  -- the two counts of links
  have K₁ := @nodesKept_setVnode (v.setVnode new.inode n') new.inode { n with nlink := n.nlink + 1 }
    fun m hm => by
      rw [vnodes_set_self, hn, some_inj] at hm
      exact hm ▸ ⟨rfl, rfl⟩
  have K₂ := @nodesKept_setVnode ((v.setVnode new.inode n').setVnode new.inode
    { n with nlink := n.nlink + 1 }) q.node { qn with nlink := qn.nlink + 1 } fun m hm => by
      rw [hqn, some_inj] at hm
      exact hm ▸ ⟨rfl, rfl⟩
  obtain ⟨n'', hn'', -, hi⟩ := (K₁.trans K₂).keep _ n' (vnodes_set_self ..)
  refine ⟨_, ⟨(hnew.nodesKept n').trans (K₁.trans K₂), fun hnull => ?_, n'', hn'', hi.trans hiops⟩,
    hlink⟩
  rw [vnodes_set_ne _ _ hq0.symm, vnodes_set_ne _ _ hnew.inode_ne_zero.symm]
  exact (vnodes_set_ne _ _ hnew.inode_ne_zero.symm).trans hnull

theorem genericFsMknod_eq {dev : BitVec 64} {r : Except Errno Unit}
    (hnew : new.Ok v) (h : genericFsMknod v parent path mode dev new = .ok (r, w)) :
    (∃ u, Prepared v u pn new ∧ linkDirent u parent path new = .ok w) ∨ w = v := by
  simp only [genericFsMknod, bind_eq_ok] at h
  obtain ⟨v', hinode, h⟩ := h
  obtain ⟨n, rfl, hiops⟩ := newInode_eq hp hpn hnew hinode
  by_cases hdev : sIschr mode = true ∨ sIsblk mode = true
  · rw [if_pos hdev] at h
    generalize (if sIschr mode = true then (v.setVnode new.inode n).chardevs dev
      else (v.setVnode new.inode n).blockdevs dev) = registered at h
    rcases registered with _ | _
    · cases h
    rw [if_pos rfl] at h
    simp only [bind_eq_ok, vnode_eq_ok, vnodes_set_self, some_inj, ok.injEq, Prod.mk.injEq] at h
    obtain ⟨_, ⟨-, rfl⟩, _, hlink, -, rfl⟩ := h
    have hset : (v.setVnode new.inode n).setVnode new.inode { n with dev } =
        v.setVnode new.inode { n with dev } := by
      simp [Vfs.setVnode, update_idem]
    rw [hset] at hlink
    exact .inl ⟨_, hnew.prepared (show { n with dev }.iops = pn.iops from hiops), hlink⟩
  · rw [if_neg hdev, ok.injEq, Prod.mk.injEq] at h
    rw [← h.2, Vfs.setVnode, update_idem, ← hnew.inode, update_eq_self]
    exact .inr rfl

end

end

end Generic

/-! ## The last name of a path -/

/-- Whether a name can start behind `pre`. -/
def AtName (pre : Str) : Prop := pre = [] ∨ ∃ q, pre = q ++ [slash]

/-- The loop has found a place for a name, and behind it `mid` without a slash. -/
theorem basenameFrom_split {pre mid : Str} (hpre : AtName pre) (hmid : slash ∉ mid) (cs : Str) :
    ∃ pre', AtName pre' ∧ pre ++ mid ++ cs = pre' ++ basenameFrom (mid ++ cs) cs ∧
      slash ∉ (basenameFrom (mid ++ cs) cs).dropLast := by
  induction cs generalizing pre mid with
  | nil =>
    refine ⟨pre, hpre, by simp [basenameFrom], fun h => hmid ?_⟩
    rw [append_nil] at h
    exact (dropLast_sublist mid).mem h
  | cons c cs ih =>
    rcases cs with _ | ⟨_, _⟩
    · refine ⟨pre, hpre, append_assoc .., ?_⟩
      rwa [basenameFrom, dropLast_concat]
    rw [basenameFrom]
    by_cases hc : c = slash
    · have := @ih (pre ++ mid ++ [c]) [] (.inr ⟨pre ++ mid, by rw [hc]⟩) not_mem_nil
      rw [if_pos hc]
      simpa using this
    have hmid' : slash ∉ mid ++ [c] := by simpa using ⟨hmid, fun h => hc h.symm⟩
    have := ih hpre hmid'
    rw [if_neg hc]
    simpa using this

theorem basename_split (path : Str) : ∃ pre, AtName pre ∧ path = pre ++ basename path ∧
    slash ∉ (basename path).dropLast :=
  basenameFrom_split (.inl rfl) not_mem_nil path

theorem components_basename (path : Str) :
    components slash (basename path) ⊆ components slash path := by
  obtain ⟨pre, rfl | ⟨q, rfl⟩, hpath, -⟩ := basename_split path
  · rw [nil_append] at hpath
    rw [← hpath]
    exact Subset.refl _
  · rw [append_assoc, singleton_append] at hpath
    rw [hpath, components_append_sep, ← hpath]
    exact subset_append_right ..

/-- **A name of at most 63 bytes** is the name that the entry gets, whether a slash follows it or
not. -/
theorem ventryName_eq {name : Str} (hslash : slash ∉ name.dropLast)
    (hne : components slash name ≠ []) (hshort : ∀ c ∈ components slash name, c.length ≤ 63) :
    components slash name = [ventryName name] ∧ ventryName name ≠ [] ∧ slash ∉ ventryName name := by
  have hnil : name ≠ [] := by
    rintro rfl
    exact hne rfl
  obtain ⟨init, x, rfl⟩ : ∃ init x, name = init ++ [x] :=
    ⟨name.dropLast, name.getLast hnil, (dropLast_concat_getLast hnil).symm⟩
  rw [dropLast_concat] at hslash
  by_cases hx : x = slash
  · subst hx
    rw [components_append_sep, components_nil, append_nil] at hne hshort ⊢
    have hinit : init ≠ [] := by
      rintro rfl
      exact hne rfl
    have hc := components_name hinit hslash
    have hlen := hshort init (by rw [hc]; exact mem_singleton_self _)
    have hpos := length_pos_iff.2 hinit
    have hname : ventryName (init ++ [slash]) = init := by
      have hcopy : (init ++ [slash]).take 64 = init ++ [slash] := take_of_length_le (by simp; omega)
      rw [ventryName, hcopy, if_pos ⟨by simp; omega, by simp⟩, dropLast_concat,
        take_of_length_le hlen]
    rw [hname]
    exact ⟨hc, hinit, hslash⟩
  · have hmem : slash ∉ init ++ [x] := by simpa using ⟨hslash, fun h => hx h.symm⟩
    have hc := components_name hnil hmem
    have hlen := hshort _ (by rw [hc]; exact mem_singleton_self _)
    have hname : ventryName (init ++ [x]) = init ++ [x] := by
      have hcopy : (init ++ [x]).take 64 = init ++ [x] := take_of_length_le (by omega)
      rw [ventryName, hcopy, if_neg (by simp [hx]), take_of_length_le hlen]
    rw [hname]
    exact ⟨hc, hnil, hmem⟩

/-! ## `vfs_create`, `vfs_mkdir` and `vfs_mknod` -/

theorem lookupStatus_eq_ok : lookupStatus r = .ok a ↔ r = .ok a := by
  rcases r with (_ | _) | _ <;> simp [lookupStatus]

theorem lookupStatus_eq_error {errno : Errno} (h : lookupStatus r = .error errno) :
    ∃ e, r = .error e := by
  cases r with
  | error e => exact ⟨e, rfl⟩
  | ok a => cases h

/-! ## File systems that are built entry by entry -/

inductive NewEntry where
  | create (mode : BitVec 32)
  | mkdir (mode : BitVec 32)
  | mknod (mode : BitVec 32) (dev : BitVec 64)
  deriving DecidableEq, Repr

/-- A call of `vfs_create`, `vfs_mkdir` or `vfs_mknod` by a task in `cwd`. -/
structure Make where
  entry : NewEntry
  cwd : Addr
  path : Str
  new : Fresh
  deriving DecidableEq, Repr

/-- The task is in an entry, the path is a string that is not empty, its names have at most 63
bytes, and the allocator gives memory that is not in use. -/
def Make.Ok (m : Make) (v : Vfs) : Prop :=
  (v.ventries m.cwd).isSome = true ∧ m.path ≠ [] ∧ 0 ∉ m.path ∧
    (∀ c ∈ components slash m.path, c.length ≤ 63) ∧ m.new.Ok v

instance (m : Make) (v : Vfs) : Decidable (m.Ok v) := inferInstanceAs (Decidable (_ ∧ _))

def Make.call (v : Vfs) (m : Make) : Except VfsFault (Except Errno Unit × Vfs) :=
  match m.entry with
  | .create mode => vfsCreate v m.cwd m.path mode m.new
  | .mkdir mode => vfsMkdir v m.cwd m.path mode m.new
  | .mknod mode dev => vfsMknod v m.cwd m.path mode dev m.new

def Make.step (v : Vfs) (m : Make) : Option Vfs :=
  if m.Ok v then (m.call v).toOption.map Prod.snd else none

/-- A lookup: where it starts, the path and the flag. -/
structure Query where
  start : Addr
  path : Str
  parent : Bool
  deriving DecidableEq, Repr

/-- It starts at an entry, with a string that fits the buffer. -/
def Query.Ok (q : Query) (v : Vfs) : Prop := (v.ventries q.start).isSome = true ∧ 0 ∉ q.path ∧
    q.path.length ≤ 1023

instance (q : Query) (v : Vfs) : Decidable (q.Ok v) := inferInstanceAs (Decidable (_ ∧ _))

def Query.call (v : Vfs) (q : Query) : Except VfsFault (Except Errno Addr × Vfs) :=
  vfsLookupAt v q.start q.path q.parent

def lookups : Vfs → List Query → Except VfsFault Vfs
  | v, [] => .ok v
  | v, q :: qs => q.call v >>= fun r => lookups r.2 qs

def Query.walk (v : Vfs) (q : Query) : Except Failure Addr :=
  (treeOf v).walk dots q.parent q.start (components slash q.path)

end Monolith.Fs
