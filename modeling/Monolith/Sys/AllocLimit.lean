import Monolith.Fs.Create
import Monolith.Sys.UserSizes

/-!
# When a size is small enough

`call_fits` says for each of the calls of `Monolith.Sys.UserSizes` exactly when it does not reach
the panic of `kmalloc`.  A function that allocates nothing, or only for a string that has been
looked up already, never does; each of the others has a condition, and the condition of a call is
put together from those of the functions that it comes to call.
-/

namespace Monolith.Sys

open Net (Netdev SockaddrIn udpGetEphemeralPort)
open Fallible Fs Mm List Option Except

/-! ## When a path is short enough -/

/-- The string is not too long to be copied, or it is found without being copied. -/
def LookupFits (v : Vfs) (start : Addr) (path : Str) : Prop :=
  dcacheGet v start path = .ok 0 → path.length < 1024

/-- The same for a path, of which a slash at the beginning is not looked up. -/
def PathFits (v : Vfs) (cwd : Addr) (path : Str) : Prop :=
  if path.head? = some slash then LookupFits v v.rootNode path.tail else LookupFits v cwd path

variable {size : BitVec 64} {α : Type} {fuel : Nat} {parent : Bool} {path : Str} {mode : BitVec 32}
  {x : Except VfsFault α} {c : Caller}

theorem allocate_eq_ok : allocate size = .ok () ↔ size.toNat ≤ 1024 := by
  rw [← not_lt, ← kmCacheFor_eq_none, allocate]
  cases kmCacheFor (slabInit kmCaches) size.toNat with
  | none => exact iff_of_false nofun (not_not.2 rfl)
  | some i => exact iff_of_true rfl nofun

theorem fits_allocate : Fits (allocate size) ↔ size.toNat ≤ 1024 := by
  rw [← allocate_eq_ok, allocate]
  cases kmCacheFor (slabInit kmCaches) size.toNat with
  | none => exact iff_of_false (fun h => h _ rfl trivial) nofun
  | some i => exact iff_of_true avoids_ok rfl

theorem fits_allocate_bind {f : Unit → Except VfsFault α} :
    Fits (allocate size >>= f) ↔ size.toNat ≤ 1024 ∧ Fits (f ()) := by
  refine avoids_bind.trans (fits_allocate.and (Iff.refl _) |>.trans (and_congr_right fun h => ?_))
  rw [allocate_eq_ok.2 h]
  exact ⟨fun hf => hf () rfl, fun hf _ _ => hf⟩

section Vfs

variable {v : Vfs} {a b : Addr} {name component : Str}

theorem fits_ventry : Fits (v.ventry a) := by
  rw [Vfs.ventry]
  split
  · exact avoids_error.2 id
  split
  · exact avoids_ok
  · exact avoids_error.2 id

theorem fits_vnode : Fits (v.vnode a) := by
  rw [Vfs.vnode]
  split
  · exact avoids_error.2 id
  split
  · exact avoids_ok
  · exact avoids_error.2 id

theorem fits_ventryRef : Fits (ventryRef v a) := fits_ventry.bind fun _ => avoids_ok

theorem fits_dcacheUnlink : Fits (dcacheUnlink v a fuel b) := by
  induction fuel generalizing b with
  | zero => exact avoids_error.2 id
  | succ fuel ih =>
    refine avoids_ite_ok.2 fun _ => fits_ventry.bind fun e =>
      avoids_ite.2 ⟨fun _ => ?_, fun _ => ih⟩
    exact fits_ventry.bind fun _ => fits_ventry.bind fun _ => avoids_ok

theorem fits_ventryPut : Fits (ventryPut v a) := by
  refine fits_ventry.bind fun e => avoids_ite_ok.2 fun _ => avoids_ite_ok.2 fun _ => ?_
  exact (fits_ventry.bind fun _ => avoids_ite_ok.2 fun _ => fits_dcacheUnlink).bind fun _ =>
    avoids_ok

theorem fits_dcacheFind {parent : Addr} : Fits (dcacheFind v parent name fuel a) := by
  induction fuel generalizing a with
  | zero => exact avoids_error.2 id
  | succ fuel ih =>
    exact avoids_ite_ok.2 fun _ => fits_ventry.bind fun _ => avoids_ite_ok.2 fun _ => ih

theorem fits_dcacheInsert : Fits (dcacheInsert v a) := fits_ventry.bind fun _ => avoids_ok

theorem fits_genericFsLookup {cs : List Addr} : Fits (genericFsLookup path cs v) := by
  induction cs generalizing v with
  | nil => exact avoids_ok
  | cons c cs ih =>
    exact fits_ventryRef.bind fun _ => fits_ventry.bind fun _ => fits_ventryPut.bind fun _ =>
      avoids_ite_ok.2 fun _ => ih

theorem fits_lookupUp {e : Ventry} : Fits (lookupUp v a e) := by
  refine avoids_ite_ok.2 fun _ => ?_
  split
  · exact avoids_ok
  · exact avoids_ite_ok.2 fun _ => fits_ventry.bind fun _ => avoids_ok

theorem fits_lookupChild {children : List Addr} : Fits (lookupChild v component children) := by
  refine fits_genericFsLookup.bind fun _ => avoids_ite.2 ⟨fun _ => ?_, fun _ => avoids_ok⟩
  exact fits_dcacheInsert.bind fun _ => avoids_ok

theorem fits_enterMount : Fits (enterMount v a b) :=
  avoids_ite_ok.2 fun _ => fits_ventryPut.bind fun _ => fits_ventryRef

theorem fits_lookupNext : Fits (lookupNext v a component) := by
  have hput : ∀ {v : Vfs} {a : Addr} {r : Except Errno Addr},
      Fits (ventryPut v a >>= fun v => (.ok (r, v) : Except VfsFault (Except Errno Addr × Vfs))) :=
    fits_ventryPut.bind fun _ => avoids_ok
  refine fits_ventry.bind fun e => avoids_ite.2 ⟨fun _ => hput, fun _ => ?_⟩
  refine avoids_ite.2 ⟨fun _ => ?_, fun _ => ?_⟩
  · exact fits_lookupUp.bind fun _ => hput
  split
  · exact hput
  refine fits_enterMount.bind fun _ => fits_dcacheFind.bind fun _ => ?_
  refine avoids_ite.2 ⟨fun _ => hput, fun _ => ?_⟩
  refine fits_ventry.bind fun _ => fits_vnode.bind fun _ =>
    avoids_ite.2 ⟨fun _ => ?_, fun _ => hput⟩
  exact fits_lookupChild.bind fun _ => hput

theorem fits_lookupEnd : Fits (lookupEnd v a) :=
  avoids_ite_ok.2 fun _ => fits_ventry.bind fun _ => avoids_ok

theorem fits_lookupLoop : Fits (lookupLoop parent fuel v a path) := by
  induction fuel generalizing v a path with
  | zero => exact fits_lookupEnd
  | succ fuel ih =>
    rcases path with _ | ⟨_, _⟩
    · exact fits_lookupEnd
    refine avoids_ite.2 ⟨fun _ => ih, fun _ => avoids_ite.2 ⟨fun _ => fits_lookupEnd, fun _ => ?_⟩⟩
    refine fits_ventryRef.bind fun _ => fits_ventry.bind fun _ => fits_vnode.bind fun _ =>
      avoids_ite.2 ⟨fun _ => avoids_ite.2 ⟨fun _ => ?_, fun _ => ?_⟩, fun _ => ?_⟩
    · exact fits_ventryPut.bind fun _ => fits_lookupEnd
    · refine fits_lookupNext.bind fun (next, v) => ?_
      cases next with
      | error errno => exact avoids_ok
      | ok next => exact ih
    · exact fits_ventryPut.bind fun _ => avoids_ok

/-- A string that is not in the hash table is copied, however long it is. -/
theorem vfsLookupAt_long (hmiss : dcacheGet v a path = .ok 0) (hlong : 1024 ≤ path.length) :
    vfsLookupAt v a path parent = .error (.tooBig (path.length + 1)) := by
  refine bind_eq_error.2 (.inr ⟨0, hmiss, ?_⟩)
  rw [if_neg (not_not.2 rfl), if_pos (by omega)]

/-- **The lookup of a path** panics where the path is copied and too long. -/
theorem fits_vfsLookupAt : Fits (vfsLookupAt v a path parent) ↔ LookupFits v a path := by
  refine ⟨fun h hmiss => Nat.lt_of_not_le fun hlong => ?_, fun h => ?_⟩
  · exact h _ (vfsLookupAt_long hmiss hlong) trivial
  refine avoids_bind.2 ⟨fits_dcacheFind, fun hit hget =>
    avoids_ite.2 ⟨fun _ => ?_, fun hmiss => ?_⟩⟩
  · exact fits_ventry.bind fun _ => fits_ventry.bind fun _ => avoids_ok
  rw [not_not.1 hmiss] at hget
  have hshort := h hget
  rw [if_neg (by omega)]
  exact fits_lookupLoop

theorem fits_vfsLookup : Fits (vfsLookup v a path parent) ↔ PathFits v a path := by
  rcases path with _ | ⟨c, _⟩
  · exact fits_vfsLookupAt
  rw [vfsLookup, PathFits]
  by_cases hc : c = slash
  · rw [if_pos hc, if_pos (by rw [hc]; rfl)]
    exact fits_vfsLookupAt
  · rw [if_neg hc, if_neg (by simpa using hc)]
    exact fits_vfsLookupAt

/-! ## Paths that have been looked up are short -/

theorem lookupFits_of_lt (h : path.length < 1024) : LookupFits v a path := fun _ => h

theorem pathFits_of_lt (h : path.length < 1024) : PathFits v a path := by
  rw [PathFits]
  split
  · refine lookupFits_of_lt ?_
    rw [length_tail]
    omega
  · exact lookupFits_of_lt h

theorem dcacheFind_name {parent : Addr} (h : dcacheFind v parent name fuel a = .ok b) (hb : b ≠ 0) :
    ∃ e, v.ventries b = some e ∧ e.name = name := by
  induction fuel generalizing a with
  | zero => cases h
  | succ fuel ih =>
    rw [dcacheFind] at h
    split at h
    · cases h
      exact absurd rfl hb
    obtain ⟨e, he, h⟩ := bind_eq_ok.1 h
    split_ifs at h with hname
    · cases h
      exact ⟨e, (ventry_eq_ok.1 he).2, hname.2⟩
    · exact ih h

variable (hnames : ∀ a e, v.ventries a = some e → e.name.length < 64) {r : Except Errno Addr × Vfs}

include hnames

theorem length_of_vfsLookupAt (h : vfsLookupAt v a path parent = .ok r) :
    path.length < 1024 := by
  have hfits : LookupFits v a path := by
    rw [← fits_vfsLookupAt, h]
    exact avoids_ok
  obtain ⟨hit, hget, -⟩ := bind_eq_ok.1 h
  by_cases hmiss : hit = 0
  · exact hfits (hmiss ▸ hget)
  obtain ⟨e, he, rfl⟩ := dcacheFind_name hget hmiss
  have := hnames hit e he
  omega

/-- A path that has been looked up can be looked up again, and so can its last name. -/
theorem short_of_vfsLookup (h : vfsLookup v a path parent = .ok r) :
    (∀ v a, PathFits v a path) ∧ (basename path).length < 1024 := by
  obtain ⟨pre, hpre, hpath, hslash⟩ := basename_split path
  have hlen : path.length = pre.length + (basename path).length := by rw [← length_append, ← hpath]
  have hshort : path.length < 1024 → (∀ v a, PathFits v a path) ∧ (basename path).length < 1024 :=
    fun h => ⟨fun _ _ => pathFits_of_lt h, by omega⟩
  rcases path with _ | ⟨c, rest⟩
  · exact hshort (by decide)
  rw [vfsLookup] at h
  by_cases hc : c = slash
  · -- The slash at the beginning is not looked up, and it is not a part of a last name that is
    -- longer.
    rw [if_pos hc] at h
    have hrest := length_of_vfsLookupAt hnames h
    refine ⟨fun v a => ?_, ?_⟩
    · rw [PathFits, if_pos (by rw [hc]; rfl)]
      exact lookupFits_of_lt hrest
    rw [length_cons] at hlen
    rcases hpre with rfl | ⟨q, rfl⟩
    · rw [nil_append] at hpath
      rcases rest with _ | ⟨_, _⟩
      · exact (hshort (show 1 < 1024 by decide)).2
      rw [← hpath, hc] at hslash
      exact absurd mem_cons_self hslash
    · rw [length_append, length_singleton] at hlen
      omega
  · rw [if_neg hc] at h
    exact hshort (length_of_vfsLookupAt hnames h)

end Vfs

/-! ## The functions of the file system -/

section Files

variable {v : Vfs} {a b : Addr} {path : Str} {device : Except Errno Unit} {new : Fresh}

theorem fits_vnodeRef : Fits (vnodeRef v a) := fits_vnode.bind fun _ => avoids_ok

theorem fits_vfsOpenInternal : Fits (vfsOpenInternal v a b device) := by
  refine fits_vnode.bind fun n => ?_
  rcases fopsOpen n device with _ | _
  · exact avoids_ok
  refine fits_vnodeRef.bind fun v => ?_
  split
  · exact avoids_ok
  · exact avoids_ok

theorem fits_openEntry : Fits (openEntry v a device) := by
  refine fits_ventryRef.bind fun v => fits_ventry.bind fun e =>
    avoids_ite.2 ⟨fun _ => ?_, fun _ => ?_⟩
  · exact fits_ventryPut.bind fun _ => avoids_ok
  refine fits_vfsOpenInternal.bind fun (fd, v) => ?_
  cases fd with
  | ok fd => exact avoids_ok
  | error errno => exact fits_ventryPut.bind fun _ => avoids_ok

theorem fits_linkDirent : Fits (linkDirent v a path new) := by
  refine Avoids.bind (fits_vnode.bind fun _ => avoids_ok) fun v => ?_
  exact fits_ventry.bind fun _ => fits_ventry.bind fun _ => fits_dcacheInsert

theorem fits_newInode : Fits (newInode v a mode new) :=
  fits_ventry.bind fun _ => fits_vnode.bind fun _ => fits_vnode.bind fun _ => avoids_ok

theorem fits_genericFsCreate : Fits (genericFsCreate v a path mode new) :=
  fits_newInode.bind fun _ => fits_linkDirent

theorem fits_genericFsMkdir : Fits (genericFsMkdir v a path mode new) :=
  fits_newInode.bind fun _ => fits_vnode.bind fun _ => fits_ventry.bind fun _ =>
    fits_vnode.bind fun _ =>
    fits_linkDirent

theorem fits_vfsOpenat : Fits (vfsOpenat v a path device) ↔ LookupFits v a path := by
  refine avoids_bind.trans ((and_iff_left ?_).trans fits_vfsLookupAt)
  rintro ⟨query, v⟩ -
  cases query with
  | error errno => exact avoids_ok
  | ok query => exact fits_openEntry

/-- Making an entry looks its path up, and then its last name. -/
theorem fits_newEntry {op : InodeOps → Bool}
    {make : Vfs → Addr → Str → Except VfsFault (Except Errno Unit × Vfs)}
    (hpath : PathFits v a path) (hname : (basename path).length < 1024)
    (hmake : ∀ v a path, Fits (make v a path)) : Fits (vfsNewEntry op make v a path) := by
  refine (fits_vfsLookup.2 hpath).bind fun (parent, v) => ?_
  rcases parent with _ | parent
  · exact avoids_ok
  refine (fits_vfsLookupAt.2 (lookupFits_of_lt hname)).bind fun (result, v) => ?_
  cases result with
  | ok _ => exact avoids_ok
  | error _ =>
    refine fits_ventry.bind fun p => fits_vnode.bind fun pn =>
      avoids_ite.2 ⟨fun _ => ?_, fun _ => avoids_ok⟩
    exact hmake v parent (basename path)

variable (hnames : ∀ a e, v.ventries a = some e → e.name.length < 64)

include hnames

theorem fits_vfsMkdir : Fits (vfsMkdir v a path mode new) ↔ PathFits v a path := by
  refine ⟨fun h => fits_vfsLookup.1 (avoids_bind.1 h).1, fun hpath => ?_⟩
  rcases hlookup : vfsLookup v a path true with _ | _
  · exact avoids_bind.2 ⟨fits_vfsLookup.2 hpath, by rw [hlookup]; nofun⟩
  refine fits_newEntry hpath (short_of_vfsLookup hnames hlookup).2 fun _ _ _ => ?_
  exact fits_genericFsMkdir.bind fun _ => avoids_ok

theorem fits_vfsOpen {creat : Bool} :
    Fits (vfsOpen v a path creat new device) ↔ PathFits v a path := by
  refine avoids_bind.trans ((and_iff_left ?_).trans fits_vfsLookup)
  rintro ⟨query, v'⟩ hlookup
  obtain ⟨hpath, hname⟩ := short_of_vfsLookup hnames hlookup
  cases query with
  | ok query => exact fits_openEntry
  | error errno =>
    refine avoids_ite.2 ⟨fun _ => ?_, fun _ => avoids_ok⟩
    refine Avoids.bind (fits_newEntry (hpath ..) hname fun _ _ _ => ?_) fun (created, v) => ?_
    · exact fits_genericFsCreate.bind fun _ => avoids_ok
    rcases created with _ | _
    · exact avoids_ok
    refine (fits_vfsLookup.2 (hpath ..)).bind fun (query, v) => ?_
    cases query with
    | ok query => exact fits_openEntry
    | error errno => exact avoids_error.2 id

end Files

/-! ## Calls that take a path -/

/-- What `sys_open` comes to look up. -/
def OpenFits (c : Caller) (path : Addr) : Prop :=
  path ≠ 0 → vmValidatePtr path = true → c.freeEntry ≠ none → PathFits c.vfs c.cwd (c.str path)

/-- What `sys_openat` comes to look up. -/
def OpenatFits (c : Caller) (fd : Int) (path : Addr) : Prop :=
  path ≠ 0 → vmValidatePtr path = true → c.freeEntry ≠ none → ∀ dir, c.dir fd = some dir →
    LookupFits c.vfs dir (c.str path)

/-- What `vfs_mount` comes to look up: the target, and then the source where the target has been
found. -/
def VfsMountFits (c : Caller) (source : Option Str) (target fstype : Str) : Prop :=
  ∀ fs, filesystemLookup fstype = some fs → fs.nodev = source.isNone →
    PathFits c.vfs c.cwd target ∧ ∀ src query v, source = some src →
      vfsLookup c.vfs c.cwd target false = .ok (.ok query, v) → PathFits v c.cwd src

def MountFits (c : Caller) (source target fsname : Addr) : Prop :=
  (source = 0 ∨ vmValidatePtr source = true) → vmValidatePtr target = true →
    vmValidatePtr fsname = true →
    VfsMountFits c (if source = 0 then none else some (c.str source)) (c.str target) (c.str fsname)

section Paths

variable {c : Caller} {path : Addr} {v : Vfs} {a : Addr}

theorem fits_validate {p : Addr} {r : α} :
    Fits (if vmValidatePtr p = false then .ok r else x) ↔ (vmValidatePtr p = true → Fits x) := by
  rw [← Bool.not_eq_false]
  exact avoids_ite_ok

theorem fits_map {β : Type} {f : α → β} : Fits (x >>= fun a => .ok (f a)) ↔ Fits x :=
  avoids_bind.trans (and_iff_left fun _ _ => avoids_ok)

theorem fits_sysOpen {flags : BitVec 32} : Fits (sysOpen c path flags) ↔ OpenFits c path := by
  refine avoids_ite_ok.trans
    (imp_congr_right fun _ => fits_validate.trans (imp_congr_right fun _ => ?_))
  rcases c.freeEntry with _ | fd
  · exact iff_of_true avoids_ok fun h => absurd rfl h
  refine (fits_map.trans (fits_vfsOpen c.names)).trans ?_
  exact ⟨fun h _ => h, fun h => h (some_ne_none fd)⟩

theorem fits_sysOpenat {fd : Int} : Fits (sysOpenat c fd path) ↔ OpenatFits c fd path := by
  refine avoids_ite_ok.trans
    (imp_congr_right fun _ => fits_validate.trans (imp_congr_right fun _ => ?_))
  rcases c.freeEntry with _ | userFd
  · exact iff_of_true avoids_ok fun h => absurd rfl h
  refine Iff.trans ?_ ⟨fun h _ => h, fun h => h (some_ne_none userFd)⟩
  rcases c.dir fd with _ | _
  · exact iff_of_true avoids_ok nofun
  refine (fits_map.trans fits_vfsOpenat).trans ?_
  simp

/-- What follows the only lookup of a call does not panic. -/
theorem fits_lookup {path : Str} {f : Except Errno Addr × Vfs → Except VfsFault α}
    (herror : ∀ errno v, Fits (f (.error errno, v))) (hok : ∀ query v, Fits (f (.ok query, v))) :
    Fits (vfsLookup v a path false >>= f) ↔ PathFits v a path := by
  refine avoids_bind.trans ((and_iff_left ?_).trans fits_vfsLookup)
  rintro ⟨query, v⟩ -
  cases query with
  | error errno => exact herror errno v
  | ok query => exact hok query v

theorem fits_sysStat {buffer : Addr} : Fits (sysStat c path buffer) ↔
    (vmValidatePtr path = true → vmValidatePtr buffer = true →
    PathFits c.vfs c.cwd (c.str path)) := by
  refine fits_validate.trans
    (imp_congr_right fun _ => fits_validate.trans (imp_congr_right fun _ => ?_))
  exact fits_lookup (fun _ _ => avoids_ok) fun _ _ => fits_ventry.bind fun _ =>
    fits_vnode.bind fun _ => avoids_ok

theorem fits_sysMkdir : Fits (sysMkdir c path mode) ↔
    (vmValidatePtr path = true → PathFits c.vfs c.cwd (c.str path)) :=
  fits_validate.trans (imp_congr_right fun _ => fits_vfsMkdir c.names)

theorem fits_sysChdir :
    Fits (sysChdir c path) ↔ (vmValidatePtr path = true → PathFits c.vfs c.cwd (c.str path)) := by
  refine fits_validate.trans
    (imp_congr_right fun _ => fits_lookup (fun _ _ => avoids_ok) fun query v => ?_)
  refine fits_ventry.bind fun _ => fits_vnode.bind fun _ =>
    avoids_ite.2 ⟨fun _ => ?_, fun _ => avoids_ok⟩
  exact fits_ventryRef.bind fun _ => fits_ventryPut.bind fun _ => avoids_ok

theorem fits_mountSource {source : Str} :
    Fits (mountSource v a (some source)) ↔ PathFits v a source :=
  fits_lookup (fun _ _ => avoids_ok) fun _ _ => fits_ventry.bind fun _ => fits_vnode.bind fun _ =>
    avoids_ok

theorem fits_vfsMount {source : Option Str} {target fstype : Str} :
    Fits (vfsMount c.vfs c.cwd source target fstype) ↔ VfsMountFits c source target fstype := by
  rw [vfsMount, VfsMountFits]
  rcases filesystemLookup fstype with _ | fs
  · exact iff_of_true avoids_ok (by simp)
  have hguard : ¬(fs.nodev = true ∧ source.isSome = true) ∧ ¬(fs.nodev = false ∧ source = none) ↔
      fs.nodev = source.isNone := by
    cases fs.nodev <;> cases source <;> simp
  simp only [some.injEq, forall_eq']
  refine (avoids_ite_ok.trans (imp_congr_right fun _ => avoids_ite_ok)).trans
    (and_imp.symm.trans (imp_congr hguard (avoids_bind.trans (and_congr fits_vfsLookup ?_))))
  rcases source with _ | source
  · refine iff_of_true (fun r _ => ?_) (by simp)
    rcases r with ⟨_ | query, v⟩ <;> exact avoids_ok
  constructor
  · rintro h _ query v ⟨⟩ hlookup
    exact fits_mountSource.1 (fits_map.1 (h _ hlookup))
  rintro h ⟨query, v⟩ hlookup
  cases query with
  | error errno => exact avoids_ok
  | ok query => exact fits_map.2 (fits_mountSource.2 (h source query v rfl hlookup))

theorem fits_sysMount {source target fsname : Addr} :
    Fits (sysMount c source target fsname) ↔ MountFits c source target fsname := by
  refine avoids_ite_ok.trans (imp_congr ?_ (fits_validate.trans (imp_congr_right fun _ =>
    fits_validate.trans (imp_congr_right fun _ => fits_vfsMount))))
  rw [not_and_or, not_not, Bool.not_eq_false]

end Paths

/-! ## Arguments -/

/-- How many strings there are. -/
def argCount (ptrs : List Addr) : Nat := (ptrs.takeWhile vmValidatePtr).length

/-- The vectors have at most 128 strings each.  (An `int` counts them.) -/
def SpawnFits (c : Caller) (argv envp : Addr) : Prop :=
  vmValidatePtr argv = true → (envp = 0 ∨ vmValidatePtr envp = true) →
    vmValidatePtr ((c.ptrs argv).headD 0) = true →
      argCount (c.ptrs argv) % 2 ^ 32 ≤ 128 ∧ (envp ≠ 0 → argCount (c.ptrs envp) % 2 ^ 32 ≤ 128)

theorem countArgs_eq (ptrs : List Addr) (n : BitVec 32) :
    countArgs ptrs n = n + BitVec.ofNat 32 (argCount ptrs) := by
  induction ptrs generalizing n with
  | nil => exact (BitVec.add_zero n).symm
  | cons p ps ih =>
    rw [countArgs, argCount, takeWhile_cons]
    rcases vmValidatePtr p with _ | _
    · exact (BitVec.add_zero n).symm
    rw [if_pos rfl, if_pos rfl, ih, length_cons, BitVec.add_assoc, Nat.add_comm, BitVec.ofNat_add]
    rfl

theorem countArgs_toNat (ptrs : List Addr) : (countArgs ptrs 0).toNat = argCount ptrs % 2 ^ 32 := by
  rw [countArgs_eq]
  exact (congrArg _ (BitVec.zero_add _)).trans (BitVec.toNat_ofNat ..)

theorem vecSize_le {n : BitVec 32} : (vecSize n).toNat ≤ 1024 ↔ n.toNat ≤ 128 := by
  rw [vecSize, BitVec.toNat_mul, BitVec.toNat_signExtend, BitVec.msb_eq_decide]
  simp only [decide_eq_true_eq]
  split <;> simp <;> omega

theorem fits_taskCopyArgs {argc : BitVec 32} {envc : Option (BitVec 32)} :
    Fits (taskCopyArgs argc envc) ↔ argc.toNat ≤ 128 ∧ ∀ n, envc = some n → n.toNat ≤ 128 := by
  refine fits_allocate_bind.trans (and_congr vecSize_le ?_)
  rcases envc with _ | _
  · exact iff_of_true avoids_ok nofun
  refine (fits_allocate.trans vecSize_le).trans ?_
  simp

theorem fits_sysSpawn {argv envp : Addr} : Fits (sysSpawn c argv envp) ↔ SpawnFits c argv envp := by
  have henvp : ¬(envp ≠ 0 ∧ vmValidatePtr envp = false) ↔ envp = 0 ∨ vmValidatePtr envp = true := by
    rw [not_and_or, not_not, Bool.not_eq_false]
  refine fits_validate.trans (imp_congr_right fun _ => avoids_ite_ok.trans (imp_congr henvp
    (fits_validate.trans (imp_congr_right fun _ => fits_map.trans (fits_taskCopyArgs.trans ?_)))))
  rw [countArgs_toNat]
  refine and_congr_right fun _ => ?_
  split_ifs with h
  · exact iff_of_true nofun fun h' => absurd h h'
  · rw [← countArgs_toNat]
    simp only [some.injEq, forall_eq', ne_eq, h, not_false_eq_true, forall_const]

/-! ## Packets -/

/-- A packet of `len` bytes goes through the layer of IPv4, and to the device if there is an address
for it. -/
def Ipv4Fits (c : Caller) (netdev : Netdev) (route : BitVec 32) (readable : Bool)
    (len : BitVec 64) : Prop :=
  (20 + len).toNat ≤ 1024 ∧
    (readable = true → (route = netdev.ipBroadcast ∨ ∃ mac, c.arp route = .entry mac) →
    (14 + (20 + len)).toNat ≤ 1024)

/-- A datagram of a socket, by the layer that it begins at. -/
def PacketFits (c : Caller) (s : SendSocket) (buf : Addr) (len : BitVec 64) (netdev : Netdev)
    (route : BitVec 32) : Prop :=
  match s.kind with
  | .udp => (8 + len).toNat ≤ 1024 ∧
    (c.readable buf len = true → Ipv4Fits c netdev route true (len + 8))
  | .raw => Ipv4Fits c netdev route (c.readable buf len) len

/-- The port is known: a UDP socket has one, or finds one that is not 0. -/
def HasPort (c : Caller) (s : SendSocket) : Prop :=
  s.kind = .udp → ∃ port, udpPort c s = .ok port ∧ port ≠ 0

/-- The packets of a call are not too big, where it comes to send any. -/
def SendFits (c : Caller) (s : SendSocket) (buf : Addr) (len : BitVec 64) (destAddr : SockaddrIn)
    (addrlen : BitVec 64) : Prop :=
  len ≠ 0 → 16 ≤ addrlen → destAddr.family = 2 → HasPort c s →
    ∀ netdev route, sendRoute c s destAddr.addr = .ok (some (netdev, route)) →
      PacketFits c s buf len netdev route

def SendtoFits (c : Caller) (sockfd : Int) (buffer : Addr) (len : BitVec 64) (dstAddr : Addr)
    (addrlen : BitVec 64) : Prop :=
  vmValidatePtr buffer = true → vmValidatePtr dstAddr = true → ∀ slot n, c.slot sockfd = some slot →
    c.vfs.vnode (c.file slot).inode = .ok n → sIssock n.mode = true →
      SendFits c (c.socket n.data) buffer len (c.sockaddr dstAddr) addrlen

section Packets

variable {c : Caller} {s : SendSocket} {netdev : Netdev} {route addr : BitVec 32} {readable : Bool}
  {buf : Addr} {len addrlen : BitVec 64} {destAddr : SockaddrIn}

theorem fits_ipv4TxPacket :
    Fits (ipv4TxPacket c netdev route readable len) ↔ Ipv4Fits c netdev route readable len := by
  refine fits_allocate_bind.trans (and_congr_right fun _ => ?_)
  rcases readable with _ | _
  · exact iff_of_true (avoids_error.2 id) nofun
  refine Iff.trans ?_ ⟨fun h _ => h, fun h => h rfl⟩
  by_cases hroute : route = netdev.ipBroadcast
  · rw [if_pos hroute]
    refine (fits_map.trans fits_allocate).trans ?_
    exact ⟨fun h _ => h, fun h => h (.inl hroute)⟩
  rw [if_neg hroute]
  cases harp : c.arp route with
  | null => exact iff_of_true avoids_ok fun h => (h.elim hroute nofun).elim
  | interrupted => exact iff_of_true (avoids_error.2 id) fun h => (h.elim hroute nofun).elim
  | entry mac =>
    refine (fits_map.trans fits_allocate).trans ?_
    exact ⟨fun h _ => h, fun h => h (.inr ⟨mac, rfl⟩)⟩

theorem fits_sendRoute : Fits (sendRoute c s addr) := by
  rw [sendRoute]
  split
  · split
    · exact avoids_error.2 id
    · exact avoids_ok
  · exact avoids_ok

theorem fits_sendRoute_bind {f : Option (Netdev × BitVec 32) → Except VfsFault α}
    (hnone : Fits (f none)) : Fits (sendRoute c s addr >>= f) ↔
      ∀ netdev route, sendRoute c s addr = .ok (some (netdev, route)) →
      Fits (f (some (netdev, route))) := by
  refine avoids_bind.trans
    ((and_iff_right fits_sendRoute).trans ⟨fun h _ _ => h _, fun h r hr => ?_⟩)
  cases r with
  | none => exact hnone
  | some p => exact h p.1 p.2 hr

theorem fits_udpSend : Fits (udpSend c s buf len addr) ↔
    ∀ netdev route, sendRoute c s addr = .ok (some (netdev, route)) →
      (8 + len).toNat ≤ 1024 ∧
      (c.readable buf len = true → Ipv4Fits c netdev route true (len + 8)) := by
  refine (fits_sendRoute_bind (by exact avoids_ok)).trans (forall_congr' fun netdev =>
    forall_congr' fun route =>
    imp_congr_right fun _ => fits_allocate_bind.trans (and_congr_right fun _ => ?_))
  cases c.readable buf len with
  | false => exact iff_of_true (avoids_error.2 id) nofun
  | true => exact fits_ipv4TxPacket.trans ⟨fun h _ => h, fun h => h rfl⟩

theorem fits_udpGetEphemeralPort {taken : BitVec 16 → Bool} {next : BitVec 16} :
    Fits (udpGetEphemeralPort taken fuel next) := by
  induction fuel generalizing next with
  | zero => exact avoids_error.2 id
  | succ fuel ih => exact avoids_ite.2 ⟨fun _ => ih, fun _ => avoids_ok⟩

theorem fits_udpPort : Fits (udpPort c s) :=
  avoids_ite.2 ⟨fun _ => fits_udpGetEphemeralPort, fun _ => avoids_ok⟩

/-- The checks that `udp_sendto` and `ipv4_raw_sendto` begin with. -/
theorem fits_sendChecks {r r' r'' : α} :
    Fits (if len = 0 then .ok r else if addrlen < 16 then .ok r'
      else if destAddr.family ≠ 2 then .ok r'' else x) ↔
      (len ≠ 0 → 16 ≤ addrlen → destAddr.family = 2 → Fits x) := by
  refine avoids_ite_ok.trans (imp_congr_right fun _ => avoids_ite_ok.trans (imp_congr ?_
    (avoids_ite_ok.trans (imp_congr_left not_not))))
  exact BitVec.not_lt

theorem fits_udpSendto (hkind : s.kind = .udp) :
    Fits (udpSendto c s buf len destAddr addrlen) ↔ SendFits c s buf len destAddr addrlen := by
  refine fits_sendChecks.trans (imp_congr_right fun _ => imp_congr_right fun _ =>
    imp_congr_right fun _ => ?_)
  simp only [PacketFits, HasPort, hkind, forall_const]
  refine avoids_bind.trans ((and_iff_right fits_udpPort).trans ?_)
  rw [← fits_udpSend]
  constructor
  · rintro h ⟨port, hport, hne⟩
    have := h port hport
    rwa [if_neg hne] at this
  · intro h port hport
    refine avoids_ite_ok.2 fun hne => h ⟨port, hport, hne⟩

theorem fits_ipv4RawSendto (hkind : s.kind = .raw) :
    Fits (ipv4RawSendto c s buf len destAddr addrlen) ↔ SendFits c s buf len destAddr addrlen := by
  refine fits_sendChecks.trans (imp_congr_right fun _ => imp_congr_right fun _ =>
    imp_congr_right fun _ => ?_)
  simp only [PacketFits, HasPort, hkind, reduceCtorEq, false_imp_iff, forall_const]
  refine (fits_sendRoute_bind (by exact avoids_ok)).trans (forall_congr' fun netdev =>
    forall_congr' fun route => ?_)
  exact imp_congr_right fun _ => fits_ipv4TxPacket

theorem fits_socketSendto :
    Fits (socketSendto c s buf len destAddr addrlen) ↔ SendFits c s buf len destAddr addrlen := by
  rw [socketSendto]
  cases hkind : s.kind with
  | udp => exact fits_udpSendto hkind
  | raw => exact fits_ipv4RawSendto hkind

theorem fits_sysSendto {sockfd : Int} {buffer dstAddr : Addr} :
    Fits (sysSendto c sockfd buffer len dstAddr addrlen) ↔
    SendtoFits c sockfd buffer len dstAddr addrlen := by
  refine fits_validate.trans
    (imp_congr_right fun _ => fits_validate.trans (imp_congr_right fun _ => ?_))
  rcases c.slot sockfd with _ | slot
  · exact iff_of_true avoids_ok nofun
  refine avoids_bind.trans ((and_iff_right fits_vnode).trans ?_)
  constructor
  · rintro h _ n ⟨⟩ hn hsock
    have hfits := h n hn
    rw [if_pos hsock] at hfits
    exact fits_socketSendto.1 hfits
  · intro h n hn
    exact avoids_ite.2 ⟨fun hsock => fits_socketSendto.2 (h slot n rfl hn hsock),
      fun _ => avoids_ok⟩

end Packets

/-! ## Programs -/

/-- The table of headers is not too big, and neither is the name of an interpreter. -/
def ImageFits (image : Image) : Prop :=
  image.elfValidate = true → image.eType = 2 ∨ image.eType = 3 →
    image.ePhentsize * image.ePhnum ≤ 1024 ∧
      ∀ i < image.ePhnum, image.isInterp i = true → (image.pFilesz i).toNat ≤ 1024

/-- The headers from the `i`-th on that name an interpreter: the name that is left is the last
one. -/
def lastInterp (image : Image) : Nat → Nat → Option Str → Option Str
  | 0, _, interp => interp
  | n + 1, i, interp =>
    lastInterp image n (i + 1) (if image.isInterp i then some (image.interpreter i) else interp)

/-- The interpreter that is opened, where it comes to that. -/
def Image.interpPath (image : Image) : Option Str :=
  if image.elfValidate = true ∧ (image.eType = 2 ∨ image.eType = 3) ∧ image.mapped = true then
    lastInterp image image.ePhnum 0 none
  else none

def ProgramFits (x : Program) : Prop :=
  ImageFits x.image ∧ ∀ path, x.image.interpPath = some path →
    PathFits x.later.vfs x.later.cwd path ∧
      ((∃ r, vfsOpen x.later.vfs x.later.cwd path false x.later.new x.later.device = .ok r) →
      ImageFits x.interp)

/-- A new task's program: its path, and what is in its file where that is opened and looked at. -/
def ExecFits (c : Caller) (path : Str) (x : Program) : Prop :=
  PathFits c.vfs c.cwd path ∧
    ∀ fd v n, vfsOpen c.vfs c.cwd path false c.new c.device = .ok (.ok fd, v) →
      v.vnode (v.openFiles fd).inode = .ok n → sIsreg n.mode = true → x.signed = true →
      x.isElf = true →
        ProgramFits x

section Programs

variable {image : Image} {x : Program}

/-- An `int` is too small for some products, but then its size is too big in any case. -/
theorem phdrsSize_le : image.phdrsSize.toNat ≤ 1024 ↔ image.ePhentsize * image.ePhnum ≤ 1024 := by
  have hsize : image.ePhentsize < 2 ^ 16 := Bytes.load_lt ..
  have hnum : image.ePhnum < 2 ^ 16 := Bytes.load_lt ..
  have hprod : image.ePhentsize * image.ePhnum < 2 ^ 32 := by
    calc image.ePhentsize * image.ePhnum < 2 ^ 16 * 2 ^ 16 := Nat.mul_lt_mul'' hsize hnum
      _ = 2 ^ 32 := by norm_num
  rw [Image.phdrsSize, BitVec.toNat_signExtend, BitVec.toNat_setWidth, BitVec.msb_eq_decide,
    BitVec.toNat_ofNat]
  simp only [decide_eq_true_eq]
  split <;> omega

theorem fits_interpLoop (n i : Nat) (interp : Option Str) : Fits (interpLoop image n i interp) ↔
      ∀ k, i ≤ k → k < i + n → image.isInterp k = true → (image.pFilesz k).toNat ≤ 1024 := by
  induction n generalizing i interp with
  | zero => exact iff_of_true avoids_ok fun k _ _ => by omega
  | succ n ih =>
    rw [interpLoop]
    have hsplit : (∀ k, i ≤ k → k < i + (n + 1) → image.isInterp k = true →
        (image.pFilesz k).toNat ≤ 1024) ↔
        (image.isInterp i = true → (image.pFilesz i).toNat ≤ 1024) ∧
          ∀ k, i + 1 ≤ k → k < i + 1 + n → image.isInterp k = true →
          (image.pFilesz k).toNat ≤ 1024 := by
      refine ⟨fun h => ⟨h i (Nat.le_refl i) (by omega), fun k hk hk' => h k (by omega) (by omega)⟩,
        ?_⟩
      rintro ⟨hi, h⟩ k hk hk'
      rcases Nat.eq_or_lt_of_le hk with rfl | hlt
      · exact hi
      · exact h k hlt (by omega)
    rw [hsplit]
    cases image.isInterp i with
    | true =>
      refine fits_allocate_bind.trans (and_congr ?_ (ih (i + 1) _))
      exact ⟨fun h _ => h, fun h => h rfl⟩
    | false => exact (ih (i + 1) interp).trans (and_iff_right nofun).symm

theorem interpLoop_eq {n i : Nat} {interp : Option Str} (h : Fits (interpLoop image n i interp)) :
    interpLoop image n i interp = .ok (lastInterp image n i interp) := by
  induction n generalizing i interp with
  | zero => rfl
  | succ n ih =>
    rw [interpLoop] at h ⊢
    rw [lastInterp]
    cases hi : image.isInterp i with
    | true =>
      rw [hi] at h
      obtain ⟨hsize, hrest⟩ := fits_allocate_bind.1 h
      rw [allocate_eq_ok.2 hsize]
      exact ih hrest
    | false =>
      rw [hi] at h
      exact ih h

theorem fits_elfLoad : Fits (elfLoad image) ↔ ImageFits image := by
  have htype : ¬(image.eType ≠ 2 ∧ image.eType ≠ 3) ↔ image.eType = 2 ∨ image.eType = 3 := by
    rw [not_and_or, not_not, not_not]
  rw [ImageFits, ← Bool.not_eq_false]
  refine avoids_ite_ok.trans (imp_congr_right fun _ => avoids_ite_ok.trans (imp_congr htype
    (fits_allocate_bind.trans (and_congr phdrsSize_le ?_))))
  refine avoids_bind.trans ((and_iff_left fun _ _ => ?_).trans ((fits_interpLoop ..).trans ?_))
  · exact avoids_ite.2 ⟨fun _ => avoids_ok, fun _ => avoids_error.2 id⟩
  · simp

theorem elfLoad_eq_some (h : ImageFits image) :
    elfLoad image = .ok (.ok (some path)) ↔ image.interpPath = some path := by
  rw [elfLoad, Image.interpPath]
  by_cases hvalid : image.elfValidate = true
  swap
  · rw [if_pos (Bool.not_eq_true _ ▸ hvalid), if_neg fun h => hvalid h.1]
    exact iff_of_false nofun nofun
  by_cases htype : image.eType = 2 ∨ image.eType = 3
  swap
  · rw [if_neg (by rw [hvalid]; nofun), if_pos (not_or.1 htype), if_neg fun h => htype h.2.1]
    exact iff_of_false nofun nofun
  obtain ⟨hsize, hinterp⟩ := h hvalid htype
  have hloop : Fits (interpLoop image image.ePhnum 0 none) :=
    (fits_interpLoop ..).2 fun k _ hk => hinterp k (by omega)
  rw [if_neg (by rw [hvalid]; nofun), if_neg (by rw [not_and_or, not_not, not_not]; exact htype),
    allocate_eq_ok.2 (phdrsSize_le.2 hsize), interpLoop_eq hloop]
  rcases hmapped : image.mapped with _ | _
  · rw [if_neg fun h => Bool.false_ne_true h.2.2]
    exact iff_of_false nofun nofun
  rw [if_pos ⟨hvalid, htype, rfl⟩]
  show ok (ok (lastInterp image image.ePhnum 0 none)) = _ ↔ _
  rw [ok.injEq, ok.injEq]

theorem fits_elfExec : Fits (elfExec x) ↔ ProgramFits x := by
  refine avoids_bind.trans
    (fits_elfLoad.and (Iff.refl _) |>.trans (and_congr_right fun himage => ?_))
  have hopen : ∀ path, Fits (do
      let _ ← vfsOpen x.later.vfs x.later.cwd path false x.later.new x.later.device
      let _ ← elfLoad x.interp
      (.ok (.ok ()) : Except VfsFault (Except Errno Unit))) ↔
      PathFits x.later.vfs x.later.cwd path ∧
        ((∃ r, vfsOpen x.later.vfs x.later.cwd path false x.later.new x.later.device = .ok r) →
          ImageFits x.interp) := by
    intro path
    refine avoids_bind.trans (and_congr (fits_vfsOpen x.later.names) ?_)
    rw [← fits_elfLoad]
    exact ⟨fun h ⟨r, hr⟩ => fits_map.1 (h r hr), fun h r hr => fits_map.2 (h ⟨r, hr⟩)⟩
  constructor
  · intro h path hpath
    exact (hopen path).1 (h _ ((elfLoad_eq_some himage).2 hpath))
  intro h r hr
  match r with
  | .error errno => exact avoids_ok
  | .ok none => exact avoids_ok
  | .ok (some path) => exact (hopen path).2 (h path ((elfLoad_eq_some himage).1 hr))

theorem fits_binfmtExecTask : Fits (binfmtExecTask c path x) ↔ ExecFits c path x := by
  refine avoids_bind.trans (and_congr (fits_vfsOpen c.names) ?_)
  constructor
  · intro h fd v n hopen hn hreg hsigned helf
    have hfits := (avoids_bind.1 (h _ hopen)).2 n hn
    rw [if_neg (by rw [hreg]; nofun), if_neg (by rw [hsigned]; nofun), if_pos helf] at hfits
    exact fits_elfExec.1 hfits
  · rintro h ⟨fd, v⟩ hopen
    rcases fd with _ | fd
    · exact avoids_ok
    refine avoids_bind.2 ⟨fits_vnode, fun n hn => avoids_ite_ok.2 fun hreg =>
      avoids_ite_ok.2 fun hsigned => ?_⟩
    refine avoids_ite.2 ⟨fun helf => fits_elfExec.2 ?_, fun _ => avoids_ok⟩
    exact h fd v n hopen hn (Bool.not_eq_false _ ▸ hreg) (Bool.not_eq_false _ ▸ hsigned) helf

end Programs

/-! ## All of them -/

/-- What a call and the state have to be for it not to panic. -/
def SizeCall.Small (c : Caller) : SizeCall → Prop
  | .open path _ => OpenFits c path
  | .openat fd path => OpenatFits c fd path
  | .stat path buffer => vmValidatePtr path = true → vmValidatePtr buffer = true →
    PathFits c.vfs c.cwd (c.str path)
  | .mkdir path _ | .chdir path => vmValidatePtr path = true → PathFits c.vfs c.cwd (c.str path)
  | .mount source target fsname => MountFits c source target fsname
  | .spawn argv envp => SpawnFits c argv envp
  | .sendto sockfd buffer len dstAddr addrlen => SendtoFits c sockfd buffer len dstAddr addrlen
  | .exec argv0 program => ExecFits c argv0 program

/-- **Sizes that come from user programs.** A system call, or the start of a program, does not come
to the panic of `kmalloc` exactly where the strings, vectors, packets and tables it allocates memory
for are small. -/
theorem call_fits (c : Caller) (call : SizeCall) : call.NoPanic c ↔ call.Small c := by
  cases call with
  | «open» path flags => exact fits_sysOpen
  | openat fd path => exact fits_sysOpenat
  | stat path buffer => exact fits_sysStat
  | mkdir path mode => exact fits_sysMkdir
  | chdir path => exact fits_sysChdir
  | mount source target fsname => exact fits_sysMount
  | spawn argv envp => exact fits_sysSpawn
  | sendto sockfd buffer len dstAddr addrlen => exact fits_sysSendto
  | exec argv0 program => exact fits_binfmtExecTask

/-! ## A path that is too long -/

theorem names_vfsInit (new : Fresh) (chardevs blockdevs : BitVec 64 → Bool) (a : Addr) (e : Ventry)
    (he : (vfsInit new chardevs blockdevs).ventries a = some e) : e.name.length < 64 := by
  simp only [vfsInit] at he
  by_cases ha : a = new.dirent
  · rw [ha, Function.update_self] at he
    cases he
    exact show 1 < 64 by decide
  · rw [Function.update_of_ne ha] at he
    cases he

/-- A task after the start of the machine: there is a root, and the string at every address has 1024
times the letter a. -/
def longPath : Caller :=
  { vfs := vfsInit ⟨0x1000, 0x2000⟩ (fun _ => false) fun _ => false
    names := names_vfsInit _ _ _
    cwd := 0x2000
    files := ⟨fun _ => -1, 0, 0, fun _ => 0⟩
    behind := fun _ => ⟨0, 0, 0, 0, 0⟩
    new := ⟨0x3000, 0x4000⟩
    device := .ok ()
    str := fun _ => List.replicate 1024 0x61
    ptrs := fun _ => []
    sockaddr := fun _ => ⟨0, 0, 0⟩
    readable := fun _ _ => true
    socket := fun _ => ⟨⟨none, 0⟩, .udp⟩
    routes := []
    arp := fun _ => .null
    nextEphPort := 49152
    taken := fun _ => false }

/-- The machine panics in `sys_stat`. -/
theorem stat_longPath : sysStat longPath 0x400000 0x500000 = .error (.tooBig 1025) ∧
    ¬(SizeCall.stat 0x400000 0x500000).NoPanic longPath := by
  have hlookup : vfsLookup longPath.vfs longPath.cwd (longPath.str 0x400000) false =
      .error (.tooBig 1025) := by
    show vfsLookup _ _ (replicate (1023 + 1) 0x61) _ = _
    rw [replicate_succ, vfsLookup, if_neg (by decide), ← replicate_succ,
      vfsLookupAt_long rfl (by rw [length_replicate]), length_replicate]
  have hpanic : sysStat longPath 0x400000 0x500000 = .error (.tooBig 1025) := by
    rw [sysStat, vfsStat, hlookup]
    rfl
  exact ⟨hpanic, fun h => h _ hpanic trivial⟩

end Monolith.Sys
