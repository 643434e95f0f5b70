import Monolith.Fs.NameEntries
import Monolith.Fs.Slots
import Monolith.Proc.Calls

/-!
# The name space over time

The kernel's calls of `fs/` one after the other, from `vfs_init` and `procfs_init` on: lookups,
entries that are made, mounts, files that are opened, listed and closed, references that are taken
and given back, and entries that are removed.  `Op.Fits` is the condition under which a call leaves
the name space in order; what it excludes are starts of paths that are mounted over, entries that
are removed while somebody holds them, and names that an entry cannot have.

* `NamesOk.step`: such a call keeps `NamesOk`.
* `lookup_transparent`: so in every state that such calls lead to, a lookup answers what the walk
  over the directories answers, whatever is in the hash table.
-/

namespace Monolith.Fs

open Function Fallible Path Transition List Option Except Prod

/-! ## Files -/

variable {device : Except Errno Unit} {r : Except Errno (Fin 64)} {new : Fresh} {fd : Fin 64}
  {proc : Fresh} {chardevs blockdevs : BitVec 64 → Bool} {op : Op}

section Files

variable {v w : Vfs} {a : Addr} (N : NamesOk v)

include N

theorem NamesOk.setFile (fd : Fin 64) (f : FileDescriptor) : NamesOk (v.setFile fd f) :=
  ⟨N.toHeapOk.setFile fd f, N.linked, N.valid, N.unique, N.above, N.nodeOk, N.rootParent, N.top,
    N.mountRoot, N.mountpoint⟩

omit N in
theorem extends_setFile (fd : Fin 64) (f : FileDescriptor) : Extends v (v.setFile fd f) :=
  ⟨rfl, fun _ h => h, fun _ _ => rfl, fun _ _ => rfl⟩

namespace NamesOk

theorem ventryRef (h : ventryRef v a = .ok w) : NamesOk w ∧ Extends v w := by
  obtain ⟨e, he, -⟩ := bind_eq_ok.1 h
  obtain ⟨w', hw, R, -⟩ := N.ref ⟨e, (ventry_eq_ok.1 he).2⟩
  obtain rfl := ok.inj (hw.symm.trans h)
  exact ⟨N.recount R, R.extends⟩

theorem ventryPut (h : ventryPut v a = .ok w) : NamesOk w ∧ Extends v w := by
  obtain ⟨e, he, -⟩ := bind_eq_ok.1 h
  obtain ⟨w', hw, R, -⟩ := N.put ⟨e, (ventry_eq_ok.1 he).2⟩
  obtain rfl := ok.inj (hw.symm.trans h)
  exact ⟨N.recount R, R.extends⟩

theorem countNode {n m : Vnode} (ha : a ≠ 0) (hn : v.vnodes a = some n) (hmode : m.mode = n.mode)
    (hiops : m.iops = n.iops) : NamesOk (v.setVnode a m) ∧ Extends v (v.setVnode a m) := by
  have K : NodesKept v (v.setVnode a m) := nodesKept_setVnode fun k hk => by
    rw [hn, some_inj] at hk
    exact hk ▸ ⟨hmode, hiops⟩
  exact ⟨N.nodesKept K ((Vfs.vnodes_set_ne _ _ ha.symm).trans N.nullNode), K.extends⟩

theorem vnodeRef (h : vnodeRef v a = .ok w) : NamesOk w ∧ Extends v w := by
  obtain ⟨n, hn, h⟩ := bind_eq_ok.1 h
  obtain ⟨ha, hn⟩ := vnode_eq_ok.1 hn
  obtain rfl := ok.inj h
  exact N.countNode ha hn rfl rfl

theorem dropped (D : Dropped v w a) (hanon : Anonymous v a) : NamesOk w ∧ Extends v w :=
  N.nodes D.eq (fun b e n he hn => D.keep _ n (hanon b e he) hn) (D.null N.nullNode)

theorem vnodePut (hlinks : ∀ n, v.vnodes a = some n → n.nlink = 0 → Anonymous v a)
    (h : vnodePut v a = .ok w) : NamesOk w ∧ Extends v w := by
  have D := vnodePut_dropped h
  obtain ⟨n, hn, h⟩ := bind_eq_ok.1 h
  obtain ⟨ha, hn⟩ := vnode_eq_ok.1 hn
  by_cases hnlink : n.nlink = 0
  · exact N.dropped D (hlinks n hn hnlink)
  rw [if_neg fun hlast => hnlink hlast.2] at h
  obtain rfl := ok.inj h
  exact N.countNode ha hn rfl rfl

theorem putFile
    (hlinks : ∀ n, v.vnodes (v.openFiles fd).inode = some n → n.nlink = 0 →
    Anonymous v (v.openFiles fd).inode)
    (h : v.putFile fd = .ok w) : NamesOk w ∧ Extends v w := by
  rw [Vfs.putFile] at h
  have N₁ := N.setFile fd { v.openFiles fd with refcount := (v.openFiles fd).refcount - 1 }
  have E₁ := extends_setFile (v := v) fd
    { v.openFiles fd with refcount := (v.openFiles fd).refcount - 1 }
  split at h
  · obtain rfl := ok.inj h
    exact ⟨N₁, E₁⟩
  simp only [bind_eq_ok] at h
  obtain ⟨n, -, v₂, hnode, v₃, hpath, h⟩ := h
  obtain rfl := ok.inj h
  obtain ⟨N₂, E₂⟩ := N₁.vnodePut hlinks hnode
  have h₃ : NamesOk v₃ ∧ Extends v₂ v₃ := by
    rw [putPath] at hpath
    split at hpath
    · obtain rfl := ok.inj hpath
      exact ⟨N₂, .refl v₂⟩
    · exact N₂.ventryPut hpath
  exact ⟨h₃.1.setFile .., ((E₁.trans E₂).trans h₃.2).trans (extends_setFile ..)⟩

theorem vfsOpenInternal {node path : Addr} (h : vfsOpenInternal v node path device = .ok (r, w)) :
    NamesOk w ∧ Extends v w := by
  obtain ⟨n, -, h⟩ := bind_eq_ok.1 h
  split at h
  · obtain ⟨-, rfl⟩ := h
    exact ⟨N, .refl v⟩
  obtain ⟨v₁, href, h⟩ := bind_eq_ok.1 h
  obtain ⟨N₁, E₁⟩ := N.vnodeRef href
  split at h
  · obtain ⟨-, rfl⟩ := h
    exact ⟨N₁, E₁⟩
  · obtain ⟨-, rfl⟩ := h
    exact ⟨N₁.setFile .., E₁.trans (extends_setFile ..)⟩

theorem openEntry {query : Addr} (h : openEntry v query device = .ok (r, w)) :
    NamesOk w ∧ Extends v w := by
  obtain ⟨v₁, href, h⟩ := bind_eq_ok.1 h
  obtain ⟨N₁, E₁⟩ := N.ventryRef href
  obtain ⟨e, -, h⟩ := bind_eq_ok.1 h
  split at h
  · obtain ⟨v₂, hput, h⟩ := bind_eq_ok.1 h
    obtain ⟨-, rfl⟩ := h
    obtain ⟨N₂, E₂⟩ := N₁.ventryPut hput
    exact ⟨N₂, E₁.trans E₂⟩
  · obtain ⟨⟨fd, v₂⟩, hopen, h⟩ := bind_eq_ok.1 h
    obtain ⟨N₂, E₂⟩ := N₁.vfsOpenInternal hopen
    cases fd with
    | ok fd =>
      obtain ⟨-, rfl⟩ := h
      exact ⟨N₂, E₁.trans E₂⟩
    | error errno =>
      obtain ⟨v₃, hput, h⟩ := bind_eq_ok.1 h
      obtain ⟨-, rfl⟩ := h
      obtain ⟨N₃, E₃⟩ := N₂.ventryPut hput
      exact ⟨N₃, (E₁.trans E₂).trans E₃⟩

theorem genericFsGetdents {limit head end_ : BitVec 64} {cs : List Addr}
    (h : genericFsGetdents limit cs head v = .ok (end_, w)) : NamesOk w ∧ Extends v w := by
  induction cs generalizing v head with
  | nil =>
    obtain ⟨-, rfl⟩ := ok_pair h
    exact ⟨N, .refl v⟩
  | cons c cs ih =>
    rw [Fs.genericFsGetdents] at h
    split at h
    · obtain ⟨-, rfl⟩ := ok_pair h
      exact ⟨N, .refl v⟩
    simp only [bind_eq_ok] at h
    obtain ⟨v₁, h₁, v₂, h₂, e, -, v₃, h₃, h⟩ := h
    obtain ⟨N₁, E₁⟩ := N.ventryRef h₁
    obtain ⟨N₂, E₂⟩ := N₁.ventryRef h₂
    obtain ⟨N₃, E₃⟩ := N₂.ventryPut h₃
    obtain ⟨N', E'⟩ := ih N₃ h
    exact ⟨N', ((E₁.trans E₂).trans E₃).trans E'⟩

theorem vfsGetdents {buffer length disk : BitVec 64} {r : Except Errno (BitVec 64)}
    (h : vfsGetdents v fd buffer length disk = .ok (r, w)) : NamesOk w ∧ Extends v w := by
  have hsame : w = v → NamesOk w ∧ Extends v w := by
    rintro rfl
    exact ⟨N, .refl w⟩
  rw [Fs.vfsGetdents] at h
  split at h
  · exact hsame (ok_pair h).2.symm
  obtain ⟨n, -, h⟩ := bind_eq_ok.1 h
  split at h
  · exact hsame (ok_pair h).2.symm
  split at h
  · simp only [bind_eq_ok] at h
    obtain ⟨p, -, ⟨head, v₁⟩, hlist, h⟩ := h
    obtain ⟨-, rfl⟩ := h
    exact N.genericFsGetdents hlist
  · exact hsame (ok_pair h).2.symm

end NamesOk

end Files

/-! ## Opening -/

/-- It starts at an entry on which nothing is mounted, with a string. -/
structure Query.Clear (v : Vfs) (q : Query) : Prop where
  live : Live v q.start
  nul : 0 ∉ q.path
  bare : ¬Covered v q.start

section Opening

variable {v w : Vfs} {q : Query} {cwd : Addr} {path : Str}

theorem Query.Clear.plain (C : q.Clear v) : q.Plain v := ⟨C.live, C.nul, fun hc => absurd hc C.bare⟩

theorem Query.Clear.extends (C : q.Clear v) (E : Extends v w) : q.Clear w :=
  ⟨E.live _ C.live, C.nul, E.bare C.live C.bare⟩

theorem queryOf_true (v : Vfs) (cwd : Addr) (path : Str) :
    queryOf v cwd path true = { queryOf v cwd path false with parent := true } := by
  rcases path with _ | ⟨_, _⟩
  · rfl
  rw [queryOf, queryOf]
  split <;> rfl

theorem Query.Clear.true (C : (queryOf v cwd path false).Clear v) :
    (queryOf v cwd path true).Clear v := by
  rw [queryOf_true]
  exact ⟨C.live, C.nul, C.bare⟩

theorem Extends.queryOf (E : Extends v w) (cwd : Addr) (path : Str) (parent : Bool) :
    queryOf w cwd path parent = queryOf v cwd path parent := by
  cases path <;> simp only [Fs.queryOf, E.rootNode]

theorem nul_of_queryOf {parent : Bool} (h : 0 ∉ (queryOf v cwd path parent).path) : 0 ∉ path := by
  rcases path with _ | ⟨_, _⟩
  · exact not_mem_nil
  rw [queryOf] at h
  split_ifs at h with hc
  · rw [mem_cons, hc]
    exact not_or.2 ⟨by decide, h⟩
  · exact h

variable (N : NamesOk v)

include N

theorem NamesOk.vfsOpenat {dir : Addr} (C : Query.Clear v ⟨dir, path, false⟩)
    (h : vfsOpenat v dir path device = .ok (r, w)) : NamesOk w ∧ Extends v w := by
  obtain ⟨⟨found, v₁⟩, hcall, h⟩ := bind_eq_ok.1 h
  obtain ⟨-, N₁, L₁, -⟩ := N.call_ok C.plain hcall
  cases found with
  | ok query =>
    obtain ⟨N₂, E₂⟩ := N₁.openEntry h
    exact ⟨N₂, L₁.extends.trans E₂⟩
  | error errno =>
    obtain ⟨-, rfl⟩ := h
    exact ⟨N₁, L₁.extends⟩

theorem NamesOk.vfsOpen {creat : Bool} (C : (queryOf v cwd path false).Clear v)
    (hpath : creat = true → PathOk path) (hnew : creat = true → new.Ok v)
    (h : vfsOpen v cwd path creat new device = .ok (r, w)) : NamesOk w ∧ Extends v w := by
  rw [Fs.vfsOpen, vfsLookup_eq, bind_eq_ok] at h
  obtain ⟨⟨found, v₁⟩, hcall, h⟩ := h
  obtain ⟨-, N₁, L₁, -⟩ := N.call_ok C.plain hcall
  have E₁ := L₁.extends
  have C₁ : (queryOf v₁ cwd path false).Clear v₁ := by
    rw [E₁.queryOf]
    exact C.extends E₁
  cases found with
  | ok query =>
    obtain ⟨N₂, E₂⟩ := N₁.openEntry h
    exact ⟨N₂, E₁.trans E₂⟩
  | error errno =>
    dsimp only at h
    split_ifs at h with hcreat
    · rw [bind_eq_ok] at h
      obtain ⟨⟨created, v₂⟩, hmake, h⟩ := h
      obtain ⟨N₂, E₂, -⟩ :=
        N₁.makeCall (m := ⟨.create 0o666, cwd, path, new⟩) ((hpath hcreat.2).fits _)
        (nul_of_queryOf C.nul) C₁.true.plain (L₁.fresh (hnew hcreat.2)) hmake
      have E := E₁.trans E₂
      rcases created with _ | _
      · obtain ⟨-, rfl⟩ := h
        exact ⟨N₂, E⟩
      rw [openCreated, vfsLookup_eq, bind_eq_ok] at h
      obtain ⟨⟨again, v₃⟩, hcall', h⟩ := h
      have C₂ : (queryOf v₂ cwd path false).Clear v₂ := by
        rw [E.queryOf]
        exact C.extends E
      obtain ⟨-, N₃, L₃, -⟩ := N₂.call_ok C₂.plain hcall'
      cases again with
      | ok query =>
        obtain ⟨N₄, E₄⟩ := N₃.openEntry h
        exact ⟨N₄, (E.trans L₃.extends).trans E₄⟩
      | error errno => cases h
    · obtain ⟨-, rfl⟩ := h
      exact ⟨N₁, E₁⟩

end Opening

/-! ## The kernel -/

/-- The file system, and the root of `procfs`. -/
structure Kernel where
  vfs : Vfs
  procfs : Addr

/-- A call of `fs/`, and the one of `net/` that opens a file.  `ref` and `put` are those of whoever
keeps a pointer to an entry: a task to its directory, a caller to what a lookup has found. -/
inductive Op where
  | lookup (q : Query)
  | make (m : Make)
  | mount (m : MountCall)
  | «open» (cwd : Addr) (path : Str) (creat : Bool) (new : Fresh) (device : Except Errno Unit)
  | openat (dir : Addr) (path : Str) (device : Except Errno Unit)
  | socket (new : Proc.FreshSocket)
  | dup (fd : Fin 64)
  | refFile (fd : Fin 64)
  | close (fd : Fin 64)
  | putFile (fd : Fin 64)
  | getdents (fd : Fin 64) (buffer length disk : BitVec 64)
  | ref (a : Addr)
  | put (a : Addr)
  | unlink (cwd : Addr) (path : Str)
  | procfsMkdir (path : Str) (new : Fresh)
  | procfsCreate (path : Str) (new : Fresh)
  | procfsRemove (path : Str)

/-- The file of a new socket, or none if there is no slot for it. -/
def openSocket (v : Vfs) (new : Proc.FreshSocket) : Except VfsFault Vfs := do
  let (fd, v) ← vfsOpenInternal (Proc.socketCreate v new) new.inode 0 (.ok ())
  match fd with
  | .ok _ => .ok v
  | .error _ => socketPut v new.socket

namespace Op

/-- What the call leaves of the file system. -/
def call (s : Kernel) : Op → Except VfsFault Vfs
  | .lookup q => (q.call s.vfs).map snd
  | .make m => (m.call s.vfs).map snd
  | .mount m => (vfsMount s.vfs s.procfs m).map snd
  | .open cwd path creat new device => (vfsOpen s.vfs cwd path creat new device).map snd
  | .openat dir path device => (vfsOpenat s.vfs dir path device).map snd
  | .socket new => openSocket s.vfs new
  | .dup fd => .ok (vfsDup s.vfs fd).2
  | .refFile fd => .ok (s.vfs.refFile fd)
  | .close fd => (vfsClose s.vfs fd).map snd
  | .putFile fd => s.vfs.putFile fd
  | .getdents fd buffer length disk => (vfsGetdents s.vfs fd buffer length disk).map snd
  | .ref a => ventryRef s.vfs a
  | .put a => ventryPut s.vfs a
  | .unlink cwd path => (vfsUnlink s.vfs cwd path).map snd
  | .procfsMkdir path new => Fs.procfsMkdir s.vfs s.procfs path new
  | .procfsCreate path new => Fs.procfsCreate s.vfs s.procfs path new
  | .procfsRemove path => Fs.procfsRemove s.vfs s.procfs path

def queries (s : Kernel) : Op → List Query
  | .lookup q => [q]
  | .make m => [queryOf s.vfs m.cwd m.path true]
  | .mount m => m.query s.vfs :: (m.src.map fun path => queryOf s.vfs m.cwd path false).toList
  | .open cwd path .. => [queryOf s.vfs cwd path false]
  | .openat dir path _ => [⟨dir, path, false⟩]
  | .unlink cwd path => [queryOf s.vfs cwd path false]
  | .procfsMkdir path _ => [⟨s.procfs, path, true⟩]
  | .procfsCreate path _ => [⟨s.procfs, path, true⟩]
  | .procfsRemove path => [⟨s.procfs, path, false⟩]
  | _ => []

def memory (s : Kernel) : Op → Prop
  | .make m => m.new.Ok s.vfs
  | .mount m => m.new.Ok s.vfs
  | .open _ _ creat new _ => creat = true → new.Ok s.vfs
  | .socket new => Proc.FreshSocket.Ok s.vfs new
  | .procfsMkdir _ new => new.Ok s.vfs
  | .procfsCreate _ new => new.Ok s.vfs
  | _ => True

instance (s : Kernel) (op : Op) : Decidable (op.memory s) := by
  cases op <;> simp only [memory] <;> infer_instance

/-- Paths are strings and start at entries that are there; the allocator gives memory that is not in
use. -/
def Possible (s : Kernel) (op : Op) : Prop :=
  (∀ q ∈ op.queries s, (s.vfs.ventries q.start).isSome = true ∧ 0 ∉ q.path) ∧ op.memory s

instance (s : Kernel) (op : Op) : Decidable (op.Possible s) := inferInstanceAs (Decidable (_ ∧ _))

end Op

def Kernel.step (s : Kernel) (op : Op) : Option Kernel :=
  if op.Possible s then (op.call s).toOption.map fun vfs => { s with vfs } else none

def procName : Str := [0x70, 0x72, 0x6f, 0x63]

/-- `vfs_init` and `procfs_init` -/
def boot (new proc : Fresh) (chardevs blockdevs : BitVec 64 → Bool) : Option Kernel :=
  if new.dirent ≠ 0 ∧ new.inode ≠ 0 ∧ proc.Ok (vfsInit new chardevs blockdevs) then
    (newRoot (vfsInit new chardevs blockdevs) proc procName procfsIops).toOption.map fun vfs =>
    ⟨vfs, proc.dirent⟩
  else none

/-! ## The condition -/

/-- What a call must not do to the entries:
* a name that is made has at most 63 bytes and is not `..`;
* `procfs` makes entries only in directories in which names are looked up;
* nothing is mounted on the root of a mounted file system, other than the root of all;
* an entry that is removed is not in use;
* the last reference to a node is not given back while an entry has the node, unless there are links
  to it. -/
def Op.Harmless (s : Kernel) : Op → Prop
  | .make m => PathOk m.path
  | .open _ path creat _ _ => creat = true → PathOk path
  | .mount m => ∀ t, (m.query s.vfs).seek s.vfs = .ok t → t = s.vfs.rootNode ∨ parentOf s.vfs t ≠ 0
  | .close fd | .putFile fd => ∀ n, s.vfs.vnodes (s.vfs.openFiles fd).inode = some n → n.nlink = 0 →
      Anonymous s.vfs (s.vfs.openFiles fd).inode
  | .unlink cwd path => ∀ a, (queryOf s.vfs cwd path false).seek s.vfs = .ok a → Unused s.vfs a
  | .procfsMkdir path _ | .procfsCreate path _ => PathOk path ∧
      ∀ a e n, Query.seek s.vfs ⟨s.procfs, path, true⟩ = .ok a → s.vfs.ventries a = some e →
        s.vfs.vnodes e.node = some n → n.iops.lookup = true
  | .procfsRemove path => ∀ a, Query.seek s.vfs ⟨s.procfs, path, false⟩ = .ok a → Unused s.vfs a
  | _ => True

/-- And no path starts at an entry on which something is mounted. -/
def Op.Fits (s : Kernel) (op : Op) : Prop :=
  (∀ q ∈ op.queries s, ¬Covered s.vfs q.start) ∧ op.Harmless s

/-! ## What every call keeps -/

/-- The name space is in order. -/
structure Kernel.Ok (s : Kernel) : Prop where
  names : NamesOk s.vfs
  root : IsRoot s.vfs s.procfs

variable {s : Kernel} {m : MountCall}

section Step

variable {v w : Vfs}

/-- The beginning: one directory, which is the root. -/
theorem namesOk_vfsInit (hd : new.dirent ≠ 0) (hi : new.inode ≠ 0)
    (chardevs blockdevs : BitVec 64 → Bool) : NamesOk (vfsInit new chardevs blockdevs) := by
  generalize hv : vfsInit new chardevs blockdevs = v
  have hroot : v.rootNode = new.dirent := hv ▸ rfl
  have hmounts : v.mounts = [⟨new.dirent, some new.dirent⟩] := hv ▸ rfl
  obtain ⟨e, hentries, hpar, hchildren, hen, hmount, hname⟩ : ∃ e,
      v.ventries = update (fun _ => none) new.dirent (some e) ∧ e.parent = 0 ∧ e.children = [] ∧
        e.node = new.inode ∧ e.mount = some ⟨new.dirent, some new.dirent⟩ ∧ e.name.length ≤ 63 := by
    rw [← hv]
    exact ⟨_, rfl, rfl, rfl, rfl, rfl, (by decide : [slash].length ≤ 63)⟩
  obtain ⟨n, hnodes, hdir, hlookup⟩ : ∃ n, v.vnodes = update (fun _ => none) new.inode (some n) ∧
      sIsdir n.mode = true ∧ n.iops.lookup = true := by
    rw [← hv]
    exact ⟨_, rfl, (by decide : sIsdir (sIfdir ||| 0o777) = true), rfl⟩
  have he : v.ventries new.dirent = some e := by rw [hentries, update_self]
  have hn : v.vnodes new.inode = some n := by rw [hnodes, update_self]
  have honly : ∀ {a f}, v.ventries a = some f → a = new.dirent ∧ f = e := by
    intro a f hf
    by_cases ha : a = new.dirent
    · rw [ha, he, some_inj] at hf
      exact ⟨ha, hf.symm⟩
    · simp [hentries, ha] at hf
  have hlinked : Linked v new.dirent := ⟨e, he, hen.symm ▸ hi⟩
  refine ⟨⟨?_, ?_, fun a f hf _ => ?_, fun a f b g hf hg _ _ => ?_, fun a f hf _ hp => ?_,
    fun a f hf _ c hc => ?_,
    fun a f mp r hf hm hr => ?_, fun mp hmp => ?_, hroot.symm ▸ hlinked, fun a f hf => ?_,
    fun _ => [], fun i => ?_, fun _ => nodup_nil, fun i x hx => absurd hx not_mem_nil⟩,
    fun a f hf => ?_, fun a f hf hp => ?_, fun a f b g hf hg _ _ _ => ?_, fun a f hf => ?_,
    fun a f m hf hm => ?_, ?_, fun a f hf _ hc => ?_, fun a mp hm => ?_, fun mp hmp => ?_⟩
  · rw [hentries, update_of_ne hd.symm]
  · rw [hnodes, update_of_ne hi.symm]
  · obtain ⟨-, rfl⟩ := honly hf
    exact ⟨n, hen.symm ▸ hn⟩
  · exact (honly hf).1.trans (honly hg).1.symm
  · rw [(honly hf).2] at hp
    exact absurd hpar hp
  · simp [(honly hf).2, hchildren] at hc
  · rw [(honly hf).2, hmount, some_inj] at hm
    rw [← hm, some_inj] at hr
    exact hr ▸ hlinked
  · rw [hmounts, mem_singleton] at hmp
    exact hmp.symm ▸ hlinked
  · exact (honly hf).2.symm ▸ hname
  · rw [← hv]
    exact rfl
  · rw [(honly hf).2, hen]
    exact hi
  · rw [(honly hf).2] at hp
    exact absurd hpar hp
  · exact (honly hf).1.trans (honly hg).1.symm
  · rw [(honly hf).1, (honly hf).2, hpar]
    exact hd.symm
  · rw [(honly hf).2, hen, hn, some_inj] at hm
    rw [← hm]
    exact ⟨fun _ => hdir, fun _ => hlookup, fun _ => hlookup⟩
  · rw [hroot, parentOf_eq he, hpar]
  · exact hc.1 ((honly hf).1.trans hroot.symm)
  · obtain ⟨f, hf, hm⟩ := bind_eq_some_iff.1 hm
    rw [(honly hf).2, hmount, some_inj] at hm
    exact ⟨new.dirent, hm ▸ rfl, by rw [parentOf_eq he, hpar]⟩
  · rw [hmounts, mem_singleton] at hmp
    rw [hmp, mountOf_eq he, hmount]
    exact some_ne_none _

theorem kernelOk_boot (h : boot new proc chardevs blockdevs = some s) : s.Ok := by
  obtain ⟨hnew, h⟩ := ite_none_right_eq_some.1 h
  obtain ⟨hd, hi, hproc⟩ := hnew
  obtain ⟨v, hv, rfl⟩ := map_eq_some_iff.1 h
  have N := namesOk_vfsInit hd hi chardevs blockdevs
  have R := newRoot_rooted N.nullNode hproc (by decide) (toOption_eq_some.1 hv)
  exact ⟨R.namesOk N, R.isRoot⟩

variable (N : NamesOk v)

include N

theorem NamesOk.openSocket {new : Proc.FreshSocket} (hnew : Proc.FreshSocket.Ok v new)
    (h : openSocket v new = .ok w) : NamesOk w ∧ Extends v w := by
  obtain ⟨-, hi, -, hfresh⟩ := hnew
  have hsockets : ∀ {u : Vfs} (sockets : Addr → Bool), NamesOk u →
      NamesOk { u with sockets } ∧ Extends u { u with sockets } := by
    intro u sockets N
    refine ⟨⟨⟨N.null, N.nullNode, N.node, N.single, N.parent, N.child, N.mount, N.mounts, N.root,
      N.name, ?_⟩, N.linked, N.valid, N.unique, N.above, N.nodeOk, N.rootParent, N.top, N.mountRoot,
      N.mountpoint⟩, rfl, fun _ h => h, fun _ _ => rfl, fun _ _ => rfl⟩
    obtain ⟨buckets, C⟩ := N.cache
    exact ⟨buckets, C.chain, C.nodup, C.bucket⟩
  obtain ⟨N₁, E₁⟩ := hsockets (update v.sockets new.socket true) N
  have K : NodesKept { v with sockets := update v.sockets new.socket true }
    (Proc.socketCreate v new) :=
    nodesKept_setVnode fun k hk => by cases hfresh.symm.trans hk
  have N₂ := N₁.nodesKept K ((Vfs.vnodes_set_ne _ _ hi.symm).trans N.nullNode)
  have E₂ := E₁.trans K.extends
  obtain ⟨⟨fd, v₃⟩, hopen, h⟩ := bind_eq_ok.1 h
  obtain ⟨N₃, E₃⟩ := N₂.vfsOpenInternal hopen
  cases fd with
  | ok fd =>
    obtain rfl := ok.inj h
    exact ⟨N₃, E₂.trans E₃⟩
  | error errno =>
    dsimp only at h
    rw [socketPut] at h
    split at h
    · cases h
    split at h
    · obtain rfl := ok.inj h
      obtain ⟨N₄, E₄⟩ := hsockets (update v₃.sockets new.socket false) N₃
      exact ⟨N₄, (E₂.trans E₃).trans E₄⟩
    · cases h

theorem NamesOk.mountCall {procfs : Addr} {r : Except Errno Unit} (hroot : IsRoot v procfs)
    (hm : m.Ok v) (htop : ∀ t, (m.query v).seek v = .ok t → t = v.rootNode ∨ parentOf v t ≠ 0)
    (h : Fs.vfsMount v procfs m = .ok (r, w)) : NamesOk w ∧ ∀ a, IsRoot v a → IsRoot w a := by
  obtain ⟨errno, -, N', L⟩ | ⟨-, t, u₀, u, M⟩ := N.vfsMount hroot hm h
  · exact ⟨N', fun a => L.isRoot⟩
  have hlive := (N.seek_ok hm.target.live M.seek).1
  have hlive₀ := M.looked.live t hlive
  refine ⟨M.put.namesOk M.namesOk (M.beyond.live hlive₀) M.root.1 M.root.2 ?_, fun a ha =>
    M.put.isRoot (M.beyond.isRoot (M.looked.isRoot ha))⟩
  rw [M.beyond.rootNode, M.looked.rootNode, (M.beyond.views hlive₀).2.1, M.looked.parentOf]
  exact htop t M.seek

end Step

theorem Op.Possible.clear (hpossible : op.Possible s)
    (hbare : ∀ q ∈ op.queries s, ¬Covered s.vfs q.start) :
    ∀ q ∈ op.queries s, q.Clear s.vfs := fun q hq =>
  ⟨isSome_iff_exists.1 (hpossible.1 q hq).1, (hpossible.1 q hq).2, hbare q hq⟩

theorem MountCall.ok_of_clear (hpossible : (Op.mount m).Possible s)
    (hclear : ∀ q ∈ (Op.mount m).queries s, q.Clear s.vfs) : m.Ok s.vfs := by
  refine ⟨(hclear _ mem_cons_self).plain, fun path hpath => ?_, hpossible.2⟩
  refine (hclear _ (mem_cons_of_mem _ ?_)).plain
  rw [hpath]
  exact mem_singleton_self _

theorem Kernel.Ok.step {t : Kernel} (K : s.Ok) (hfits : op.Fits s) (h : s.step op = some t) :
    t.Ok := by
  obtain ⟨hposs, v, hv, rfl⟩ := ite_map_toOption_eq_some.1 h
  obtain ⟨hbare, hharm⟩ := hfits
  have hclear := hposs.clear hbare
  have hmem := hposs.2
  have hext : NamesOk v ∧ Extends s.vfs v → Kernel.Ok { s with vfs := v } :=
    fun ⟨N, E⟩ => ⟨N, E.isRoot K.root⟩
  have hroots : (NamesOk v ∧ ∀ a, IsRoot s.vfs a → IsRoot v a) → Kernel.Ok { s with vfs := v } :=
    fun ⟨N, hr⟩ => ⟨N, hr _ K.root⟩
  have N := K.names
  cases op with
  | lookup q =>
    obtain ⟨⟨r, w⟩, hcall, rfl⟩ := map_eq_ok.1 hv
    obtain ⟨-, N', L, -⟩ := N.call_ok (hclear q (mem_singleton_self _)).plain hcall
    exact hext ⟨N', L.extends⟩
  | make m =>
    obtain ⟨⟨r, w⟩, hcall, rfl⟩ := map_eq_ok.1 hv
    have C := hclear _ (mem_singleton_self _)
    obtain ⟨N', E, -⟩ := N.makeCall (PathOk.fits hharm _) (nul_of_queryOf C.nul) C.plain hmem hcall
    exact hext ⟨N', E⟩
  | mount m =>
    obtain ⟨⟨r, w⟩, hcall, rfl⟩ := map_eq_ok.1 hv
    exact hroots (N.mountCall K.root (MountCall.ok_of_clear hposs hclear) hharm hcall)
  | «open» cwd path creat new device =>
    obtain ⟨⟨r, w⟩, hcall, rfl⟩ := map_eq_ok.1 hv
    exact hext (N.vfsOpen (hclear _ (mem_singleton_self _)) hharm hmem hcall)
  | openat dir path device =>
    obtain ⟨⟨r, w⟩, hcall, rfl⟩ := map_eq_ok.1 hv
    exact hext (N.vfsOpenat (hclear _ (mem_singleton_self _)) hcall)
  | socket new => exact hext (N.openSocket hmem hv)
  | dup fd =>
    obtain rfl := ok.inj hv
    rw [vfsDup]
    split
    · exact K
    · exact ⟨N.setFile .., (extends_setFile ..).isRoot K.root⟩
  | refFile fd =>
    obtain rfl := ok.inj hv
    exact ⟨N.setFile .., (extends_setFile ..).isRoot K.root⟩
  | close fd =>
    obtain ⟨⟨r, w⟩, hcall, rfl⟩ := map_eq_ok.1 hv
    rw [vfsClose] at hcall
    split at hcall
    · obtain ⟨-, rfl⟩ := hcall
      exact K
    · obtain ⟨w', hput, hcall⟩ := bind_eq_ok.1 hcall
      obtain ⟨-, rfl⟩ := hcall
      exact hext (N.putFile hharm hput)
  | putFile fd => exact hext (N.putFile hharm hv)
  | getdents fd buffer length disk =>
    obtain ⟨⟨r, w⟩, hcall, rfl⟩ := map_eq_ok.1 hv
    exact hext (N.vfsGetdents hcall)
  | ref a => exact hext (N.ventryRef hv)
  | put a => exact hext (N.ventryPut hv)
  | unlink cwd path =>
    obtain ⟨⟨r, w⟩, hcall, rfl⟩ := map_eq_ok.1 hv
    exact hroots (N.vfsUnlink (hclear _ (mem_singleton_self _)).plain hharm hcall)
  | procfsMkdir path new =>
    exact hext (N.procfsMkdir hharm.1 (hclear _ (mem_singleton_self _)).plain hmem hharm.2 hv)
  | procfsCreate path new =>
    exact hext (N.procfsCreate hharm.1 (hclear _ (mem_singleton_self _)).plain hmem hharm.2 hv)
  | procfsRemove path =>
    exact hroots (N.procfsRemove (hclear _ (mem_singleton_self _)).plain hharm hv)

/-- **Every state** that such calls lead to. -/
theorem kernelOk_of_run {k : Kernel} {ops : List Op}
    (hboot : boot new proc chardevs blockdevs = some s)
    (hfits : Along Kernel.step (fun s op => op.Fits s) s ops)
    (hrun : run Kernel.step s ops = some k) : k.Ok :=
  run_induction (I := Kernel.Ok) (fun _ _ _ K hfits h => K.step hfits h)
    (kernelOk_boot hboot) hfits hrun

/-! ## Lookups -/

/-- The same file system with nothing in the hash table. -/
def Vfs.uncached (v : Vfs) : Vfs := { v with hashTable := fun _ => 0 }

theorem NamesOk.uncached {v : Vfs} (N : NamesOk v) : NamesOk v.uncached :=
  ⟨⟨N.null, N.nullNode, N.node, N.single, N.parent, N.child, N.mount, N.mounts, N.root, N.name,
    fun _ => [], fun _ => rfl, fun _ => nodup_nil, fun _ _ hx => absurd hx not_mem_nil⟩,
    N.linked, N.valid, N.unique, N.above, N.nodeOk, N.rootParent, N.top, N.mountRoot, N.mountpoint⟩

/-- **The hash table is transparent.**  After any calls that fit, a lookup that does not start at an
entry on which something is mounted answers what it answers with nothing in the hash table, and that
is what the walk over the directories gives; the entry that it finds has a node. -/
theorem lookup_transparent {new proc : Fresh} {chardevs blockdevs : BitVec 64 → Bool} {s k : Kernel}
    {ops : List Op} (hboot : boot new proc chardevs blockdevs = some s)
    (hfits : Along Kernel.step (fun s op => op.Fits s) s ops)
    (hrun : run Kernel.step s ops = some k) (q : Query) (hq : q.Clear k.vfs) :
    (q.call k.vfs).map fst = (q.call k.vfs.uncached).map fst ∧
    (q.call k.vfs).map fst = q.answer k.vfs ∧
      ∀ a v, q.call k.vfs = .ok (.ok a, v) → Linked k.vfs a ∧ Linked v a := by
  have N := (kernelOk_of_run hboot hfits hrun).names
  have hempty : (q.call k.vfs.uncached).map fst = q.answer k.vfs :=
    N.uncached.call_eq ⟨hq.live, hq.nul, hq.plain.covered⟩
  refine ⟨(N.call_eq hq.plain).trans hempty.symm, N.call_eq hq.plain, fun a v h => ?_⟩
  obtain ⟨hseek, N', L, -⟩ := N.call_ok hq.plain h
  obtain ⟨⟨e, he⟩, -⟩ := N.seek_ok hq.live (lookupStatus_eq_ok.1 hseek.symm)
  obtain ⟨f, hf⟩ := L.live a ⟨e, he⟩
  exact ⟨⟨e, he, N.linked a e he⟩, f, hf, N'.linked a f hf⟩

/-- A small kernel: its root is the entry at 0x2000, and the one of `procfs` that at 0x4000. -/
def smallBoot : Option Kernel :=
  boot ⟨0x1000, 0x2000⟩ ⟨0x3000, 0x4000⟩ (fun _ => false) fun _ => false

/-- `mkdir("d")`, for the entry at 0x6000. -/
def makeD : Make := ⟨.mkdir 0o755, 0x2000, [0x64], ⟨0x5000, 0x6000⟩⟩

/-- `mount("ramfs")` on `target`. -/
def ramfsOn (target : Str) (new : Fresh) : MountCall :=
  ⟨0x2000, none, target, FileSystem.ramfs.name, new, .ok (.ok ())⟩

/-- On `d`, for the entry at 0xa000. -/
def mountD : MountCall := ramfsOn [0x64] ⟨0x9000, 0xa000⟩

theorem lookup_transparent_mount : ∃ s k, smallBoot = some s ∧
    run Kernel.step s [.make makeD, .mount mountD] = some k ∧
    (Query.call k.vfs ⟨0x2000, [0x64], false⟩).map fst = .ok (.ok 0xa000) ∧
    (Query.call k.vfs.uncached ⟨0x2000, [0x64], false⟩).map fst = .ok (.ok 0xa000) := by
  obtain ⟨s, hs, hbare, k₁, hmake, hbare₁, hseek, hpar, k, hmount, hlive, hclear, hcall⟩ :
      ∃ s, smallBoot = some s ∧ (∀ q ∈ Op.queries s (.make makeD), ¬Covered s.vfs q.start) ∧
      ∃ k₁, Kernel.step s (.make makeD) = some k₁ ∧
      (∀ q ∈ Op.queries k₁ (.mount mountD), ¬Covered k₁.vfs q.start) ∧
      (mountD.query k₁.vfs).seek k₁.vfs = .ok 0x6000 ∧ parentOf k₁.vfs 0x6000 ≠ 0 ∧
      ∃ k, Kernel.step k₁ (.mount mountD) = some k ∧ (k.vfs.ventries 0x2000).isSome ∧
      ¬Covered k.vfs 0x2000 ∧
        (Query.call k.vfs ⟨0x2000, [0x64], false⟩).map fst = .ok (.ok 0xa000) := by
    decide +kernel
  have hpath : PathOk makeD.path := ⟨by decide +kernel, by decide +kernel⟩
  have hharmless : (Op.mount mountD).Harmless k₁ := by
    intro t ht
    obtain rfl := Except.ok.inj (hseek.symm.trans ht)
    exact .inr hpar
  have hfits : Along Kernel.step (fun s op => op.Fits s) s [.make makeD, .mount mountD] :=
    .cons hmake ⟨hbare, hpath⟩ (.cons hmount ⟨hbare₁, hharmless⟩ trivial)
  have hrun : run Kernel.step s [.make makeD, .mount mountD] = some k :=
    run_cons_eq_some.2 ⟨k₁, hmake, run_cons_eq_some.2 ⟨k, hmount, rfl⟩⟩
  exact ⟨s, k, hs, hrun, hcall, (lookup_transparent hs hfits hrun ⟨0x2000, [0x64], false⟩
    ⟨isSome_iff_exists.1 hlive, by decide, hclear⟩).1.symm.trans hcall⟩

/-- **Lookups compose**, as `openat` needs: after any calls that fit, a path with a part behind it
names what that part names from the entry of the path, if nothing is mounted where the path ends. -/
theorem lookup_append {new proc : Fresh} {chardevs blockdevs : BitVec 64 → Bool} {s k : Kernel}
    {ops : List Op} (hboot : boot new proc chardevs blockdevs = some s)
    (hfits : Along Kernel.step (fun s op => op.Fits s) s ops)
    (hrun : run Kernel.step s ops = some k) {a b : Addr} {path rest : Str} {parent : Bool}
    (hq : Query.Clear k.vfs ⟨a, path ++ slash :: rest, parent⟩)
    (hlen : path.length + rest.length < 1023) (hrest : components slash rest ≠ [] ∨ parent = false)
    (hbare : ∀ c, (spaceOf k.vfs).place dots a (components slash path) = some c → ¬Covered k.vfs c)
    (hb : (Query.call k.vfs ⟨a, path, false⟩).map fst = .ok (.ok b)) :
    (Query.call k.vfs ⟨a, path ++ slash :: rest, parent⟩).map fst =
      (Query.call k.vfs ⟨b, rest, parent⟩).map fst := by
  have N := (kernelOk_of_run hboot hfits hrun).names
  have hnul := not_or.1 (mt mem_append.2 hq.nul)
  have hpath : Query.Clear k.vfs ⟨a, path, false⟩ := ⟨hq.live, hnul.1, hq.bare⟩
  rw [N.call_eq hpath.plain, Query.answer, if_pos (show path.length ≤ 1023 by omega), ok.injEq,
    lookupStatus_eq_ok] at hb
  obtain ⟨hlive, hb'⟩ := N.seek_ok hpath.live hb
  -- the first walk ends at the entry itself
  obtain ⟨c, hplace, hseen⟩ := Space.place_of_walk hb
  obtain rfl : c = b := some.inj ((seenAt_of_bare (hbare c hplace)).symm.trans hseen)
  have hnext : Query.Clear k.vfs ⟨c, rest, parent⟩ :=
    ⟨hlive, fun h => hnul.2 (mem_cons_of_mem _ h), hb'⟩
  have hlen' : (path ++ slash :: rest).length ≤ 1023 := by simp; omega
  rw [N.call_eq hq.plain, N.call_eq hnext.plain, Query.answer, Query.answer, if_pos hlen',
    if_pos (show rest.length ≤ 1023 by omega), Query.seek, Query.seek, components_append_sep,
    Space.walk_append hplace hrest]

theorem lookup_append_mkdir : ∃ s k, smallBoot = some s ∧ run Kernel.step s [.make makeD] = some k ∧
    (Query.call k.vfs ⟨0x2000, [0x64] ++ slash :: [0x2e], false⟩).map fst =
      (Query.call k.vfs ⟨0x6000, [0x2e], false⟩).map fst := by
  obtain ⟨s, hs, hbare, k, hrun, hlive, hclear, hplace, hd, hcall⟩ : ∃ s, smallBoot = some s ∧
      (∀ q ∈ Op.queries s (.make makeD), ¬Covered s.vfs q.start) ∧
      ∃ k, run Kernel.step s [.make makeD] = some k ∧
        (k.vfs.ventries 0x2000).isSome ∧ ¬Covered k.vfs 0x2000 ∧
        (spaceOf k.vfs).place dots 0x2000 (components slash [0x64]) = some 0x6000 ∧
        ¬Covered k.vfs 0x6000 ∧
        (Query.call k.vfs ⟨0x2000, [0x64], false⟩).map fst = .ok (.ok 0x6000) := by
    decide +kernel
  have hpath : PathOk makeD.path := ⟨by decide +kernel, by decide +kernel⟩
  have hfits : Along Kernel.step (fun s op => op.Fits s) s [.make makeD] :=
    ⟨⟨hbare, hpath⟩, fun _ _ => trivial⟩
  exact ⟨s, k, hs, hrun, lookup_append hs hfits hrun ⟨isSome_iff_exists.1 hlive, by decide, hclear⟩
    (by decide)
    (.inr rfl) (fun c hc => some.inj (hplace.symm.trans hc) ▸ hd) hcall⟩

/-- `mkdir("d")`, `creat("x")` by a task in `d`, and `mount("ramfs")` on `d`. -/
def mountOver : List Op :=
  [.make makeD, .make ⟨.create 0o644, 0x6000, [0x78], ⟨0x7000, 0x8000⟩⟩,
    .mount (ramfsOn [0x64] ⟨0x9000, 0xa000⟩)]

/-- `/proc/1/status`, of process 1, is opened twice before `procfs_remove`. -/
def removeOpen : List Op :=
  [.procfsMkdir (pidStr 1) ⟨0x5000, 0x6000⟩, .procfsCreate (statusPath 1) ⟨0x7000, 0x8000⟩,
    .make ⟨.mkdir 0o755, 0x2000, procName, ⟨0x9000, 0xa000⟩⟩,
    .mount ⟨0x2000, none, procName, FileSystem.procfs.name, ⟨0xb000, 0xc000⟩, .ok (.ok ())⟩,
    .open 0xa000 (slash :: procName ++ slash :: statusPath 1) false ⟨0, 0⟩ (.ok ()),
    .open 0xa000 (slash :: procName ++ slash :: statusPath 1) false ⟨0, 0⟩ (.ok ()),
    .procfsRemove (statusPath 1)]

/-- A task in `d` finds the `x` that is mounted over; and the lookup of `/proc/1/status` finds an
entry without a node. -/
theorem lookup_not_transparent :
    (∃ k, (smallBoot.bind fun s => run Kernel.step s mountOver) = some k ∧
      (Query.call k.vfs ⟨0x6000, [0x78], false⟩).map fst = .ok (.ok 0x8000) ∧
      (Query.call k.vfs.uncached ⟨0x6000, [0x78], false⟩).map fst = .ok (.error .enoent)) ∧
    ∃ k, (smallBoot.bind fun s => run Kernel.step s removeOpen) = some k ∧
      (Query.call k.vfs ⟨0x2000, procName ++ slash :: statusPath 1, false⟩).map fst =
      .ok (.ok 0x8000) ∧
      (Query.call k.vfs.uncached ⟨0x2000, procName ++ slash :: statusPath 1, false⟩).map fst =
      .ok (.error .enoent) ∧ (k.vfs.ventries 0x8000).map Ventry.node = some 0 := by
  decide +kernel

end Monolith.Fs
