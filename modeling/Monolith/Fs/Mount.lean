import Monolith.Fs.Names

/-!
# Mounting: `fs/filesystem.c` and `fs/super.c`

`vfs_mount` looks up its target, lets the file system make a superblock, and puts the mount on the
entry that it found.  What it found is what is seen at the target, so on a target that is a mount
point already the new mount is put on the root of the old one; and what is put on the root is never
seen.

On an entry with a parent the name space has one more mount afterwards, and is the same otherwise
(`NamesOk.mounts`).
-/

namespace Monolith.Fs

open Fallible Path Option Vfs List

/-! ## `fs/filesystem.c` -/

inductive FileSystem where
  | ramfs
  | procfs
  | fatfs
  deriving DecidableEq, Repr

/-- `fs->name`; the roots that are made are called that, too. -/
def FileSystem.name : FileSystem → Str
  | .ramfs => [0x72, 0x61, 0x6d, 0x66, 0x73]
  | .procfs => [0x70, 0x72, 0x6f, 0x63, 0x66, 0x73]
  | .fatfs => [0x66, 0x61, 0x74, 0x66, 0x73]

/-- `FS_FLAG_NODEV` -/
def FileSystem.nodev : FileSystem → Bool
  | .ramfs => true
  | .procfs => true
  | .fatfs => false

/-- `filesystem_lookup`, once all of them are registered. -/
def filesystemLookup (name : Str) : Option FileSystem :=
  [.ramfs, .procfs, .fatfs].find? fun fs => fs.name.take 32 = name.take 32

/-! ## `fs/super.c` -/

/-- A root for a superblock, in fresh memory. -/
def newRoot (v : Vfs) (new : Fresh) (name : Str) (iops : InodeOps) : Except VfsFault Vfs := do
  let v := vnodeNew v new.inode (sIfdir ||| 0o755)
  let n ← v.vnode new.inode
  ventryNew (v.setVnode new.inode { n with iops }) new.dirent name new.inode

/-- `sb_ops->init`, with the root of the superblock.  There is one superblock of `procfs`.  The one
of `fatfs` gets its root when it is first asked for, and here at once; its header, from the disk, is
good or not. -/
def superInit (v : Vfs) (procfs : Addr) (blockdev : Bool) (new : Fresh)
    (disk : Except VfsFault (Except Errno Unit)) :
    FileSystem → Except VfsFault (Except Errno Addr × Vfs)
  | .ramfs => do
    let v ← newRoot v new FileSystem.ramfs.name ramfsIops
    .ok (.ok new.dirent, v)
  | .procfs => .ok (.ok procfs, v)
  | .fatfs =>
    -- `bdev->bd_ops->pread_blocks`
    if blockdev = false then .error .null
    else do
      let header ← disk
      match header with
      | .error errno => .ok (.error errno, v)
      | .ok () => do
        let v ← newRoot v new FileSystem.fatfs.name noIops
        .ok (.ok new.dirent, v)

/-- The block device that `src` names, or none; and whether there is one. -/
def mountSource (v : Vfs) (cwd : Addr) : Option Str → Except VfsFault (Except Errno Bool × Vfs)
  | none => .ok (.ok false, v)
  | some src => do
    let (query, v) ← vfsLookup v cwd src false
    match query with
    | .error errno => .ok (.error errno, v)
    | .ok query => do
      let e ← v.ventry query
      let n ← v.vnode e.node
      .ok (.ok (v.blockdevs n.dev), v)

/-- What `vfs_mount` is called with, by a task in `cwd`; memory for a root, and what is on the
disk. -/
structure MountCall where
  cwd : Addr
  src : Option Str
  target : Str
  fstype : Str
  new : Fresh
  disk : Except VfsFault (Except Errno Unit)

/-- The mount of a file system with the root `root` on the entry `query`. -/
def putMount (v : Vfs) (query root : Addr) : Except VfsFault Vfs := do
  let q ← v.ventry query
  .ok { v.setVentry query { q with mount := some ⟨query, some root⟩ } with
        mounts := v.mounts ++ [⟨query, some root⟩] }

/-- The part of `vfs_mount` behind the lookup of the target, for a file system `fs`. -/
def mountOn (v : Vfs) (procfs : Addr) (m : MountCall) (fs : FileSystem) (query : Addr) :
    Except VfsFault (Except Errno Unit × Vfs) := do
  let (blockdev, v) ← mountSource v m.cwd m.src
  match blockdev with
  | .error errno => .ok (.error errno, v)
  | .ok blockdev => do
    let (root, v) ← superInit v procfs blockdev m.new m.disk fs
    match root with
    | .error errno => .ok (.error errno, v)
    | .ok root => do
      let v ← putMount v query root
      .ok (.ok (), v)

/-- `vfs_mount` -/
def vfsMount (v : Vfs) (procfs : Addr) (m : MountCall) :
    Except VfsFault (Except Errno Unit × Vfs) :=
  match filesystemLookup m.fstype with
  | none => .ok (.error .enodev, v)
  | some fs =>
    if fs.nodev ∧ m.src.isSome then .ok (.error .einval, v)
    else if fs.nodev = false ∧ m.src = none then .ok (.error .enotblk, v)
    else do
      let (query, v) ← vfsLookup v m.cwd m.target false
      match query with
      | .error errno => .ok (.error errno, v)
      | .ok query => mountOn v procfs m fs query

/-- The root of the superblock that `vfs_mount` mounts. -/
def MountCall.root (m : MountCall) (procfs : Addr) : Addr :=
  if filesystemLookup m.fstype = some .procfs then procfs else m.new.dirent

/-! ## One more entry -/

section Added

variable {v w : Vfs} {x a : Addr} {d : Ventry} (A : Added v w x d)

include A

theorem Added.parentOf (h : Live v a) : parentOf w a = parentOf v a := by
  obtain ⟨e, he⟩ := h
  obtain ⟨f, hf, S, -⟩ := A.keep a e he
  rw [parentOf_eq hf, parentOf_eq he, S.parent]

theorem Added.mountOf (a : Addr) : mountOf w a = mountOf v a := by
  cases hw : w.ventries a with
  | some f =>
    rw [mountOf_eq hw]
    obtain ⟨rfl, rfl⟩ | ⟨e, he, S, -⟩ := A.cases hw
    · simp [A.mount, Fs.mountOf, A.fresh]
    · rw [mountOf_eq he, S.mount]
  | none =>
    rcases hv : v.ventries a with _ | e
    · rw [Fs.mountOf, Fs.mountOf, hw, hv]
    obtain ⟨f, hf, -⟩ := A.keep a e hv
    simp [hw] at hf

theorem NamesOk.added (N : NamesOk v) (H : HeapOk w) (hnode : d.node ≠ 0)
    (hname : d.parent ≠ 0 → NameOk d.name)
    (hnew : ∀ b e, v.ventries b = some e → d.parent ≠ 0 → e.parent = d.parent → e.name ≠ d.name)
    (habove : d.parent ≠ x) (hok : ∀ n, w.vnodes d.node = some n → NodeOk d n)
    (hup : ∀ p n, v.ventries d.parent = some p →
      v.vnodes p.node = some n → sIsdir n.mode = true ∧ n.iops.lookup = true) : NamesOk w := by
  refine ⟨H, fun a f hf => ?_, fun a f hf hfp => ?_, fun a f b g hf hg hfp hpar hnm => ?_,
    fun a f hf => ?_,
    fun a f k hf hk => ?_, ?_, fun a f hf hfp => ?_, fun a mp hm => ?_, fun mp hmp => ?_⟩
  · obtain ⟨rfl, rfl⟩ | ⟨e, he, S, -⟩ := A.cases hf
    · exact hnode
    · rw [S.node]
      exact N.linked a e he
  · obtain ⟨rfl, rfl⟩ | ⟨e, he, S, -⟩ := A.cases hf
    · exact hname hfp
    · rw [S.name]
      exact N.valid a e he (S.parent ▸ hfp)
  · obtain ⟨rfl, rfl⟩ | ⟨e, he, S, -⟩ := A.cases hf <;> obtain ⟨rfl, rfl⟩ | ⟨e', he', S', -⟩ :=
      A.cases hg
    · rfl
    · exact absurd (S'.name.symm.trans hnm.symm)
        (hnew b e' he' hfp (S'.parent.symm.trans hpar.symm))
    · rw [S.parent] at hfp hpar
      exact absurd (S.name.symm.trans hnm) (hnew a e he (hpar ▸ hfp) hpar)
    · rw [S.parent] at hfp
      rw [S.parent, S'.parent] at hpar
      rw [S.name, S'.name] at hnm
      exact N.unique a e b e' he he' hfp hpar hnm
  · obtain ⟨rfl, rfl⟩ | ⟨e, he, S, -⟩ := A.cases hf
    · exact habove
    · rw [S.parent]
      exact N.above a e he
  · obtain ⟨rfl, rfl⟩ | ⟨e, he, S, hmem⟩ := A.cases hf
    · exact hok k hk
    obtain ⟨n, hn, O⟩ := N.node_of he
    rw [S.node, A.vnodes _ n hn, some_inj] at hk
    subst hk
    by_cases had : a = d.parent
    · -- the directory
      obtain ⟨hdir, hlookup⟩ := hup e n (had ▸ he) hn
      exact ⟨fun _ => hdir, fun _ => hlookup, O.ops⟩
    have hchildren : f.children ≠ [] → e.children ≠ [] := by
      intro hfc
      obtain ⟨c, hc⟩ := exists_mem_of_ne_nil _ hfc
      exact ne_nil_of_mem (((hmem c).1 hc).resolve_right fun h => had h.1)
    exact ⟨fun h => O.dir (h.imp hchildren fun h0 => S.parent ▸ h0),
      fun h => O.lookup (hchildren h), O.ops⟩
  · rw [A.rootNode, A.parentOf N.root.live]
    exact N.rootParent
  · rw [Covered, A.mountOf, A.rootNode]
    obtain ⟨rfl, rfl⟩ | ⟨e, he, S, -⟩ := A.cases hf
    · rintro ⟨-, hm⟩
      rw [Fs.mountOf, A.fresh] at hm
      exact hm rfl
    · exact N.top a e he (S.parent ▸ hfp)
  · rw [A.mountOf] at hm
    obtain ⟨r, hr, hr0⟩ := N.mountRoot a mp hm
    obtain ⟨e, he, hmount⟩ := bind_eq_some_iff.1 hm
    exact ⟨r, hr, (A.parentOf (N.mount a e mp r he hmount hr).live).trans hr0⟩
  · rw [A.mountOf]
    exact N.mountpoint mp (A.mounts ▸ hmp)

end Added

/-! ## One more root -/

/-- `u` has the objects of `v`, as they were, and perhaps others. -/
structure Beyond (v u : Vfs) : Prop where
  rootNode : u.rootNode = v.rootNode
  mounts : u.mounts = v.mounts
  ventries : ∀ a e, v.ventries a = some e → u.ventries a = some e
  vnodes : ∀ a n, v.vnodes a = some n → u.vnodes a = some n

/-- Of the entries `u` has one more, which is a root. -/
structure Rooted (v u : Vfs) (d : Addr) : Prop extends Beyond v u where
  hashTable : u.hashTable = v.hashTable
  keep : ∀ a, a ≠ d → u.ventries a = v.ventries a
  fresh : v.ventries d = none
  ne_zero : d ≠ 0
  null : u.vnodes 0 = none
  entry : ∃ e, u.ventries d = some e ∧ e.parent = 0 ∧ e.children = [] ∧ e.mount = none ∧
    e.name.length ≤ 63 ∧
    e.node ≠ 0 ∧ v.vnodes e.node = none ∧ ∃ n, u.vnodes e.node = some n ∧ NodeOk e n

section Rooted

variable {v u : Vfs} {d a : Addr}

theorem Beyond.refl (v : Vfs) : Beyond v v := ⟨rfl, rfl, fun _ _ h => h, fun _ _ h => h⟩

theorem Beyond.live (B : Beyond v u) (h : Live v a) : Live u a := by
  obtain ⟨e, he⟩ := h
  exact ⟨e, B.ventries a e he⟩

theorem Beyond.views (B : Beyond v u) (h : Live v a) :
    nameOf u a = nameOf v a ∧ parentOf u a = parentOf v a ∧
    childrenOf u a = childrenOf v a ∧ mountOf u a = mountOf v a := by
  obtain ⟨e, he⟩ := h
  have hu := B.ventries a e he
  rw [nameOf_eq hu, nameOf_eq he, parentOf_eq hu, parentOf_eq he, childrenOf_eq hu,
    childrenOf_eq he, mountOf_eq hu, mountOf_eq he]
  exact ⟨rfl, rfl, rfl, rfl⟩

variable (R : Rooted v u d)

include R

theorem Rooted.namesOk (N : NamesOk v) : NamesOk u := by
  obtain ⟨e, he, hpar, hchildren, hmount, hname, hen, hfresh, n, hn, O⟩ := R.entry
  have A : Added v u d e := by
    refine ⟨R.rootNode, R.mounts, R.hashTable, R.vnodes, he, fun b g hg => ?_,
      fun b ⟨f, hf⟩ hb => ⟨f, R.keep b hb ▸ hf⟩, R.fresh, hchildren, hmount⟩
    refine ⟨g, R.ventries b g hg, ⟨rfl, rfl, rfl, rfl, rfl⟩, fun c => ?_⟩
    exact (or_iff_left fun h => N.ne_zero ⟨g, hg⟩ (h.1.trans hpar)).symm
  have H : HeapOk u := by
    refine N.toHeapOk.added A R.ne_zero R.null hname ⟨n, hn⟩ (fun b g hg hne => ?_) fun h =>
      absurd hpar h
    obtain ⟨m, hm⟩ := N.node b g hg (hne ▸ hen)
    simp [hne, hfresh] at hm
  refine N.added A H hen (fun h => absurd hpar h) (fun _ _ _ h => absurd hpar h)
    (hpar ▸ R.ne_zero.symm)
    (fun k hk => mem_unique hn hk ▸ O) fun p k hp => ?_
  rw [hpar, N.null] at hp
  cases hp

end Rooted

variable {v u : Vfs} {new : Fresh} {cwd : Addr} {t r : Addr}

theorem newRoot_rooted {name : Str} {iops : InodeOps} (hnull : v.vnodes 0 = none)
    (hnew : new.Ok v) (hops : iops.create = true ∨ iops.mkdir = true ∨ iops.mknod = true →
    iops.lookup = true)
    (h : newRoot v new name iops = .ok u) : Rooted v u new.dirent := by
  simp only [newRoot, vnodeNew, ventryNew, bind_eq_ok, vnode_eq_ok, vnodes_set_self, some_inj,
    Except.ok.injEq] at h
  obtain ⟨_, ⟨-, rfl⟩, _, ⟨-, rfl⟩, rfl⟩ := h
  have hnode : ∀ a, a ≠ new.inode → ∀ n m k : Vnode,
      (((v.setVnode new.inode n).setVnode new.inode m).setVnode new.inode k).vnodes a =
      v.vnodes a := by
    intro a ha n m k
    rw [vnodes_set_ne _ _ ha, vnodes_set_ne _ _ ha, vnodes_set_ne _ _ ha]
  refine ⟨⟨rfl, rfl, fun a e he => ?_, fun a n hn => ?_⟩, rfl, fun a ha => ventries_set_ne _ _ ha,
    hnew.dirent, hnew.dirent_ne_zero, (hnode 0 hnew.inode_ne_zero.symm _ _ _).trans hnull, _,
    ventries_set_self .., rfl, rfl, rfl, length_ventryName _, hnew.inode_ne_zero, hnew.inode, _,
    vnodes_set_self .., fun _ => (by decide : sIsdir (sIfdir ||| 0o755) = true),
    fun h => absurd rfl h, hops⟩
  · refine (ventries_set_ne _ _ ?_).trans he
    rintro rfl
    simp [hnew.dirent] at he
  · refine (hnode a ?_ _ _ _).trans hn
    rintro rfl
    simp [hnew.inode] at hn

/-! ## The mount on an entry -/

/-- The root is one of a file system that is mounted somewhere. -/
def Mounted (v : Vfs) (r : Addr) : Prop := ∃ mp ∈ v.mounts, mp.root = some r

/-- The entry at `a` once `mp` is put on the one at `t`. -/
def mountEntry (t : Addr) (mp : Mount) (a : Addr) (e : Ventry) : Ventry :=
  { e with mount := if a = t then some mp else e.mount }

/-- `w` is `u` with the root `r` mounted on the entry at `t`. -/
structure PutMount (u w : Vfs) (t r : Addr) : Prop where
  rootNode : w.rootNode = u.rootNode
  hashTable : w.hashTable = u.hashTable
  vnodes : w.vnodes = u.vnodes
  mounts : w.mounts = u.mounts ++ [⟨t, some r⟩]
  ventries : ∀ a, w.ventries a = (u.ventries a).map (mountEntry t ⟨t, some r⟩ a)

theorem putMount_ok {u w : Vfs} (h : putMount u t r = .ok w) : PutMount u w t r := by
  simp only [putMount, bind_eq_ok, ventry_eq_ok, Except.ok.injEq] at h
  obtain ⟨q, ⟨-, hq⟩, rfl⟩ := h
  refine ⟨rfl, rfl, rfl, rfl, fun a => ?_⟩
  by_cases ha : a = t
  · rw [ha, hq]
    refine (ventries_set_self ..).trans ?_
    rw [map_some, mountEntry, if_pos rfl]
  refine (ventries_set_ne _ _ ha).trans ?_
  cases u.ventries a with
  | none => rfl
  | some e => rw [map_some, mountEntry, if_neg ha]

section PutMount

variable {u w : Vfs} {t r a : Addr} (M : PutMount u w t r)

include M

namespace PutMount

theorem keep {e : Ventry} (h : u.ventries a = some e) :
    w.ventries a = some (mountEntry t ⟨t, some r⟩ a e) := by
  simp [M.ventries, h]

theorem back {f : Ventry} (h : w.ventries a = some f) :
    ∃ e, u.ventries a = some e ∧ f = mountEntry t ⟨t, some r⟩ a e := by
  rw [M.ventries, map_eq_some_iff] at h
  obtain ⟨e, he, rfl⟩ := h
  exact ⟨e, he, rfl⟩

theorem linked (h : Linked u a) : Linked w a := by
  obtain ⟨e, he, hn⟩ := h
  exact ⟨_, M.keep he, hn⟩

theorem views : nextOf w = nextOf u ∧ nameOf w = nameOf u ∧ parentOf w = parentOf u ∧
    childrenOf w = childrenOf u ∧ modeOf w = modeOf u := by
  simp only [funext_iff, nextOf, nameOf, parentOf, childrenOf, modeOf, M.ventries, M.vnodes]
  refine ⟨fun a => ?_, fun a => ?_, fun a => ?_, fun a => ?_, fun a => ?_⟩ <;>
    cases u.ventries a <;> rfl

theorem mountOf_self (h : Live u t) : mountOf w t = some ⟨t, some r⟩ := by
  obtain ⟨e, he⟩ := h
  rw [mountOf_eq (M.keep he), mountEntry, if_pos rfl]

theorem mountOf_of_ne (ha : a ≠ t) : mountOf w a = mountOf u a := by
  rw [mountOf, mountOf, M.ventries]
  cases u.ventries a with
  | none => rfl
  | some e => simp [mountEntry, ha]

theorem heapOk (H : HeapOk u) (ht : Linked u t) (hr : Linked u r) : HeapOk w := by
  refine ⟨?_, M.vnodes ▸ H.nullNode, fun a f hf => ?_, fun a f b g hf hg => ?_,
    fun a f hf hn hp => ?_,
    fun a f hf hn c hc => ?_, fun a f mp s hf hm hs => ?_, fun mp hmp => ?_, ?_, fun a f hf =>
    ?_, ?_⟩
  · rw [M.ventries, H.null]
    rfl
  · obtain ⟨e, he, rfl⟩ := M.back hf
    rw [M.vnodes]
    exact H.node a e he
  · obtain ⟨e, he, rfl⟩ := M.back hf
    obtain ⟨d, hd, rfl⟩ := M.back hg
    exact H.single a e b d he hd
  · obtain ⟨e, he, rfl⟩ := M.back hf
    obtain ⟨p, hpar, hrest⟩ := H.parent a e he hn hp
    exact ⟨_, M.keep hpar, hrest⟩
  · obtain ⟨e, he, rfl⟩ := M.back hf
    obtain ⟨g, hg, hrest⟩ := H.child a e he hn c hc
    exact ⟨_, M.keep hg, hrest⟩
  · obtain ⟨e, he, rfl⟩ := M.back hf
    rw [mountEntry] at hm
    split at hm
    · cases hm
      cases hs
      exact M.linked hr
    · exact M.linked (H.mount a e mp s he hm hs)
  · rw [M.mounts, mem_append, mem_singleton] at hmp
    rcases hmp with hmp | rfl
    · exact M.linked (H.mounts mp hmp)
    · exact M.linked ht
  · rw [M.rootNode]
    exact M.linked H.root
  · obtain ⟨e, he, rfl⟩ := M.back hf
    exact H.name a e he
  · obtain ⟨buckets, C⟩ := H.cache
    refine ⟨buckets, fun i => ?_, C.nodup, fun i x hx => ?_⟩
    · rw [M.views.1, M.hashTable]
      exact C.chain i
    · obtain ⟨e, he, hhash⟩ := C.bucket i x hx
      exact ⟨_, M.keep he, hhash⟩

/-- **A mount on an entry with a parent**, or on the root. -/
theorem namesOk (N : NamesOk u) (ht : Live u t) (hr : Live u r) (hr0 : parentOf u r = 0)
    (htop : t = u.rootNode ∨ parentOf u t ≠ 0) : NamesOk w := by
  have hlinked : ∀ {a}, Live u a → Linked u a := by
    rintro a ⟨e, he⟩
    exact ⟨e, he, N.linked a e he⟩
  refine ⟨M.heapOk N.toHeapOk (hlinked ht) (hlinked hr), fun a f hf => ?_, fun a f hf => ?_,
    fun a f b g hf hg => ?_, fun a f hf => ?_, fun a f n hf hn => ?_, ?_, fun a f hf hp => ?_,
    fun a mp hm => ?_, fun mp hmp => ?_⟩
  · obtain ⟨e, he, rfl⟩ := M.back hf
    exact N.linked a e he
  · obtain ⟨e, he, rfl⟩ := M.back hf
    exact N.valid a e he
  · obtain ⟨e, he, rfl⟩ := M.back hf
    obtain ⟨d, hd, rfl⟩ := M.back hg
    exact N.unique a e b d he hd
  · obtain ⟨e, he, rfl⟩ := M.back hf
    exact N.above a e he
  · obtain ⟨e, he, rfl⟩ := M.back hf
    rw [M.vnodes] at hn
    exact (N.nodeOk a e n he hn).congr rfl rfl rfl rfl
  · rw [M.views.2.2.1, M.rootNode]
    exact N.rootParent
  · obtain ⟨e, he, rfl⟩ := M.back hf
    rintro ⟨hroot, hm⟩
    rw [M.rootNode] at hroot
    rcases eq_or_ne a t with rfl | ha
    · exact (htop.resolve_left hroot) (by rw [parentOf_eq he]; exact hp)
    · rw [M.mountOf_of_ne ha] at hm
      exact N.top a e he hp ⟨hroot, hm⟩
  · rw [M.views.2.2.1]
    by_cases ha : a = t
    · rw [ha, M.mountOf_self ht, some_inj] at hm
      exact ⟨r, hm ▸ rfl, hr0⟩
    · rw [M.mountOf_of_ne ha] at hm
      exact N.mountRoot a mp hm
  · by_cases ha : mp.mountpoint = t
    · rw [ha, M.mountOf_self ht]
      exact some_ne_none _
    rw [M.mounts, mem_append, mem_singleton] at hmp
    rcases hmp with hmp | rfl
    · rw [M.mountOf_of_ne ha]
      exact N.mountpoint mp hmp
    · exact absurd rfl ha

/-- Where `..` leads does not change, but for the root `r` if it was not mounted before. -/
theorem aboveOf (N : NamesOk v) (B : Beyond v u) (ha : Live v a)
    (h : a ≠ r ∨ Mounted v a) : aboveOf w a = aboveOf v a := by
  have hfind : w.mounts.find? (fun mp => mp.root = some a) = v.mounts.find? fun mp =>
      mp.root = some a := by
    rw [M.mounts, B.mounts, find?_append]
    cases hmp : v.mounts.find? fun mp => mp.root = some a with
    | some mp => rfl
    | none =>
      rcases h with hne | ⟨mp, hmem, hroot⟩
      · have hr : ¬(some r = some a) := fun h => hne (some_inj.1 h).symm
        simp [hr]
      · exact absurd (decide_eq_true hroot) (find?_eq_none.1 hmp mp hmem)
  rw [Fs.aboveOf, Fs.aboveOf, hfind, M.views.2.2.1, (B.views ha).2.1, M.rootNode, B.rootNode]
  cases hmp : v.mounts.find? fun mp => mp.root = some a with
  | none => rfl
  | some mp =>
    dsimp only
    rw [(B.views (N.mounts mp (mem_of_find?_eq_some hmp)).live).2.1]

/-- **What paths name** once `r` is mounted on an entry that is not the root: the file system `u`
may have `r` in addition to what `v` has. -/
theorem mounts_space (N : NamesOk v) (B : Beyond v u) (ht : Live v t) (hroot : t ≠ v.rootNode) :
    Space.Mounts (spaceOf v) (spaceOf w) (Live v) t r := by
  obtain ⟨-, hname, -, hchildren, hmode⟩ := M.views
  have hviews := fun {a} (h : Live v a) => B.views h
  refine ⟨fun a ha => ?_, fun a name ha => ?_, fun a ha hne => M.aboveOf N B ha (.inl hne),
    fun a ha hne => ?_, ?_,
    fun a b ha => N.live_up ha, fun a name b ha => N.live_child ha, fun a b ha => N.live_seen ha⟩
  · obtain ⟨e, he⟩ := ha
    obtain ⟨n, hn⟩ := N.node a e he (N.linked a e he)
    show sIsdir (modeOf w a) = sIsdir (modeOf v a)
    rw [hmode, modeOf_eq (B.ventries a e he) (B.vnodes _ n hn), modeOf_eq he hn]
  · show (childrenOf w a).find? _ = (childrenOf v a).find? _
    rw [hchildren, (hviews ha).2.2.1, hname]
    refine find?_congr fun c hc => ?_
    obtain ⟨e, he⟩ := ha
    rw [childrenOf_eq he] at hc
    obtain ⟨f, hf, -⟩ := N.child a e he (N.linked a e he) c hc
    rw [(hviews ⟨f, hf⟩).1]
  · show seenAt w a = seenAt v a
    rw [seenAt, seenAt, M.rootNode, B.rootNode, M.mountOf_of_ne hne, (hviews ha).2.2.2]
  · show seenAt w t = some r
    simp [seenAt, M.rootNode, B.rootNode, hroot, M.mountOf_self (B.live ht)]

end PutMount

end PutMount

/-! ## `vfs_mount` -/

/-- The entry is there, and is the root of a file system. -/
def IsRoot (v : Vfs) (a : Addr) : Prop := Live v a ∧ parentOf v a = 0

section VfsMount

variable {v w : Vfs} {a procfs : Addr} {m : MountCall}

theorem Looked.isRoot (L : Looked v w) (h : IsRoot v a) : IsRoot w a :=
  ⟨L.live a h.1, by rw [L.parentOf]; exact h.2⟩

theorem Beyond.isRoot (B : Beyond v w) (h : IsRoot v a) : IsRoot w a :=
  ⟨B.live h.1, (B.views h.1).2.1.trans h.2⟩

theorem PutMount.isRoot (M : PutMount v w t r) (h : IsRoot v a) : IsRoot w a := by
  obtain ⟨⟨e, he⟩, h0⟩ := h
  exact ⟨⟨_, M.keep he⟩, by rw [M.views.2.2.1]; exact h0⟩

theorem Rooted.isRoot {d : Addr} (R : Rooted v w d) : IsRoot w d := by
  obtain ⟨e, he, hpar, -⟩ := R.entry
  exact ⟨⟨e, he⟩, by rw [parentOf_eq he, hpar]⟩

theorem NamesOk.mountSource (N : NamesOk v) {src : Option Str} {r : Except Errno Bool}
    (hsrc : ∀ path, src = some path → (queryOf v cwd path false).Plain v)
    (h : mountSource v cwd src = .ok (r, w)) : NamesOk w ∧ Looked v w := by
  rcases src with _ | path
  · obtain ⟨-, rfl⟩ := h
    exact ⟨N, .refl v⟩
  rw [Fs.mountSource, vfsLookup_eq, bind_eq_ok] at h
  obtain ⟨⟨found, v₁⟩, hcall, h⟩ := h
  obtain ⟨-, N₁, ⟨L, -⟩, -⟩ := N.call_ok (hsrc path rfl) hcall
  rcases found with _ | _
  · obtain ⟨-, rfl⟩ := h
    exact ⟨N₁, L⟩
  simp only [bind_eq_ok] at h
  obtain ⟨e, -, n, -, h⟩ := h
  obtain ⟨-, rfl⟩ := h
  exact ⟨N₁, L⟩

theorem NamesOk.superInit (N : NamesOk v) (hroot : IsRoot v procfs) {blockdev : Bool}
    (hnew : new.Ok v) {disk : Except VfsFault (Except Errno Unit)} {fs : FileSystem}
    {r : Except Errno Addr} (h : superInit v procfs blockdev new disk fs = .ok (r, w)) :
    (∃ errno, r = .error errno ∧ w = v) ∨
      r = .ok (if fs = .procfs then procfs else new.dirent) ∧ NamesOk w ∧ Beyond v w ∧
        IsRoot w (if fs = .procfs then procfs else new.dirent) := by
  have hmade : ∀ {name iops u}, (iops.create = true ∨ iops.mkdir = true ∨ iops.mknod = true →
      iops.lookup = true) →
      newRoot v new name iops = .ok u → NamesOk u ∧ Beyond v u ∧ IsRoot u new.dirent := by
    intro name iops u hops hu
    have R := newRoot_rooted N.nullNode hnew hops hu
    exact ⟨R.namesOk N, R.toBeyond, R.isRoot⟩
  cases fs with
  | ramfs =>
    obtain ⟨u, hu, h⟩ := bind_eq_ok.1 h
    obtain ⟨rfl, rfl⟩ := h
    exact .inr ⟨rfl, hmade (by decide) hu⟩
  | procfs =>
    obtain ⟨rfl, rfl⟩ := h
    exact .inr ⟨rfl, N, .refl v, hroot⟩
  | fatfs =>
    rw [Fs.superInit] at h
    split at h
    · cases h
    obtain ⟨header, -, h⟩ := bind_eq_ok.1 h
    rcases header with errno | _
    · obtain ⟨rfl, rfl⟩ := h
      exact .inl ⟨errno, rfl, rfl⟩
    obtain ⟨u, hu, h⟩ := bind_eq_ok.1 h
    obtain ⟨rfl, rfl⟩ := h
    exact .inr ⟨rfl, hmade (by decide) hu⟩

/-- Where the lookup of the target goes. -/
def MountCall.query (m : MountCall) (v : Vfs) : Query := queryOf v m.cwd m.target false

/-- The paths of the call are strings, and they do not ask for names below an entry on which
something is mounted; the allocator gives memory that is not in use. -/
structure MountCall.Ok (m : MountCall) (v : Vfs) : Prop where
  target : (m.query v).Plain v
  src : ∀ path, m.src = some path → (queryOf v m.cwd path false).Plain v
  new : m.new.Ok v

/-- The mount of the call `m` on the entry at `t`: lookups, a root of a superblock, and the mount
itself. -/
structure MountedOn (v w : Vfs) (procfs : Addr) (m : MountCall) (t : Addr) (u₀ u : Vfs) : Prop where
  seek : (m.query v).seek v = .ok t
  short : (m.query v).path.length ≤ 1023
  looked : Looked v u₀
  namesOk₀ : NamesOk u₀
  beyond : Beyond u₀ u
  namesOk : NamesOk u
  root : IsRoot u (m.root procfs)
  put : PutMount u w t (m.root procfs)

theorem Query.Plain.queryOf_looked {path : Str} {parent : Bool}
    (P : (queryOf v cwd path parent).Plain v) (L : Looked v w) :
    (queryOf w cwd path parent).Plain w := by
  have heq : queryOf w cwd path parent = queryOf v cwd path parent := by
    cases path <;> simp only [queryOf, L.rootNode]
  rw [heq]
  exact P.looked L

theorem NamesOk.vfsMount (N : NamesOk v) (hroot : IsRoot v procfs) (hm : m.Ok v)
    {r : Except Errno Unit} (h : vfsMount v procfs m = .ok (r, w)) :
    (∃ errno, r = .error errno ∧ NamesOk w ∧ Looked v w) ∨
      r = .ok () ∧ ∃ t u₀ u, MountedOn v w procfs m t u₀ u := by
  rw [Fs.vfsMount] at h
  rcases hfs : filesystemLookup m.fstype with _ | fs
  · rw [hfs] at h
    obtain ⟨rfl, rfl⟩ := h
    exact .inl ⟨_, rfl, N, .refl v⟩
  rw [hfs] at h
  dsimp only at h
  split at h
  · obtain ⟨rfl, rfl⟩ := h
    exact .inl ⟨_, rfl, N, .refl v⟩
  split at h
  · obtain ⟨rfl, rfl⟩ := h
    exact .inl ⟨_, rfl, N, .refl v⟩
  rw [vfsLookup_eq, bind_eq_ok] at h
  obtain ⟨⟨found, v₁⟩, hcall, h⟩ := h
  obtain ⟨hfound, N₁, ⟨L₁, -⟩, -⟩ := N.call_ok hm.target hcall
  have hshort : (m.query v).path.length ≤ 1023 := by
    by_contra hlong
    cases hcall.symm.trans (N.call_of_long hm.target hlong)
  rcases found with _ | t
  · obtain ⟨rfl, rfl⟩ := h
    exact .inl ⟨_, rfl, N₁, L₁⟩
  obtain ⟨⟨blockdev, v₂⟩, hsource, h⟩ := bind_eq_ok.1 h
  obtain ⟨N₂, L₂⟩ :=
    N₁.mountSource (fun path hpath => (hm.src path hpath).queryOf_looked L₁) hsource
  have L := L₁.trans L₂
  rcases blockdev with _ | _
  · obtain ⟨rfl, rfl⟩ := h
    exact .inl ⟨_, rfl, N₂, L⟩
  rw [bind_eq_ok] at h
  obtain ⟨⟨root, u⟩, hinit, h⟩ := h
  obtain ⟨errno, rfl, rfl⟩ | ⟨rfl, N₃, B, hr⟩ :=
    N₂.superInit (L.isRoot hroot) (L.fresh hm.new) hinit
  · obtain ⟨rfl, rfl⟩ := h
    exact .inl ⟨_, rfl, N₂, L⟩
  obtain ⟨w', hput, h⟩ := bind_eq_ok.1 h
  obtain ⟨rfl, rfl⟩ := h
  have heq : (if fs = .procfs then procfs else m.new.dirent) = m.root procfs := by
    rw [MountCall.root, hfs]
    simp
  rw [heq] at hr hput
  exact .inr ⟨rfl, t, v₂, u, lookupStatus_eq_ok.1 hfound.symm, hshort, L, N₂, B, N₃, hr,
    putMount_ok hput⟩

end VfsMount

end Monolith.Fs
