import Monolith.Lib.Chain
import Monolith.Lib.Path
import Monolith.Lib.Run
import Monolith.Fs.Vfs
import Mathlib.Data.List.Nodup
import Mathlib.Data.List.Perm.Subperm

/-!
# Path resolution

What the entries of a file system say, and the parts of `vfs_lookup_at`: the bucket of the hash
table is searched in order (`dcacheFind_eq`), the search among the children leaves no trace
(`genericFsLookup_eq`), and in the buffer a component ends where the slash was (`takeWhile_zeroed`).
-/

namespace Monolith.Fs

open Fallible Path Transition List

/-! ## The tree -/

/-- The link of an entry in its bucket. -/
def nextOf (v : Vfs) (a : Addr) : Addr := ((v.ventries a).map Ventry.next).getD 0

def nameOf (v : Vfs) (a : Addr) : Str := ((v.ventries a).map Ventry.name).getD []

def parentOf (v : Vfs) (a : Addr) : Addr := ((v.ventries a).map Ventry.parent).getD 0

def childrenOf (v : Vfs) (a : Addr) : List Addr := ((v.ventries a).map Ventry.children).getD []

def modeOf (v : Vfs) (a : Addr) : BitVec 32 :=
  (((v.ventries a).bind fun e => v.vnodes e.node).map Vnode.mode).getD 0

/-- The directories of a file system. -/
def treeOf (v : Vfs) : Tree (BitVec 8) Addr where
  isDir a := sIsdir (modeOf v a)
  up a := if parentOf v a = 0 then v.rootNode else parentOf v a
  child a name := (childrenOf v a).find? fun c => nameOf v c = name

/-- `.` and `..` -/
def dots : Dots (BitVec 8) := ⟨[dot], [dot, dot]⟩

/-- What `vfs_lookup_at` returns for the result of a walk. -/
def lookupStatus : Except Failure Addr → Except Errno Addr
  | .ok a => .ok a
  | .error .missing => .error .enoent
  | .error .notDir => .error .enotdir

/-- What an entry can be called. -/
structure NameOk (name : Str) : Prop where
  ne_nil : name ≠ []
  slash : slash ∉ name
  dot : name ≠ dots.here
  dotdot : name ≠ dots.above
  short : name.length ≤ 63

/-! ## Following pointers -/

section Pointers

variable {v : Vfs} {a : Addr} {e : Ventry} {n : Vnode}

theorem ventry_eq_ok : v.ventry a = .ok e ↔ a ≠ 0 ∧ v.ventries a = some e := by
  rw [Vfs.ventry]
  by_cases ha : a = 0
  · simp [ha]
  · rw [if_neg ha, and_iff_right ha]
    cases v.ventries a <;> simp

theorem vnode_eq_ok : v.vnode a = .ok n ↔ a ≠ 0 ∧ v.vnodes a = some n := by
  rw [Vfs.vnode]
  by_cases ha : a = 0
  · simp [ha]
  · rw [if_neg ha, and_iff_right ha]
    cases v.vnodes a <;> simp

theorem ventry_eq (ha : a ≠ 0) (h : v.ventries a = some e) : v.ventry a = .ok e :=
  ventry_eq_ok.2 ⟨ha, h⟩

theorem vnode_eq (ha : a ≠ 0) (h : v.vnodes a = some n) : v.vnode a = .ok n := vnode_eq_ok.2 ⟨ha, h⟩

section

variable (h : v.ventries a = some e)

include h

theorem nextOf_eq : nextOf v a = e.next := by simp [nextOf, h]

theorem nameOf_eq : nameOf v a = e.name := by simp [nameOf, h]

theorem parentOf_eq : parentOf v a = e.parent := by simp [parentOf, h]

theorem childrenOf_eq : childrenOf v a = e.children := by simp [childrenOf, h]

theorem modeOf_eq (hn : v.vnodes e.node = some n) : modeOf v a = n.mode := by
  simp [modeOf, h, Option.bind_some, hn]

end

theorem ventryRef_eq (ha : a ≠ 0) (h : v.ventries a = some e) :
    ventryRef v a = .ok (v.setVentry a { e with count := e.count + 1 }) := by
  rw [ventryRef, ventry_eq ha h]
  rfl

/-- A reference that is given back at once has no effect on an entry that has a node. -/
theorem ventryPut_ref (ha : a ≠ 0) (h : v.ventries a = some e) (hnode : e.node ≠ 0) :
    ventryPut (v.setVentry a { e with count := e.count + 1 }) a = .ok v := by
  have hput : v.setVentry a { e with count := e.count + 1 - 1 } = v := by
    rw [BitVec.add_sub_cancel, Vfs.setVentry, ← h, Function.update_eq_self]
  rw [ventryPut, ventry_eq ha (v.ventries_set_self _)]
  show (if 1 < e.count + 1 then _ else if e.node ≠ 0 then _ else _) = _
  have hset : (v.setVentry a { e with count := e.count + 1 }).setVentry a
      { e with count := e.count + 1 - 1 } = v := by
    rwa [Vfs.setVentry, Vfs.setVentry, Function.update_idem]
  rw [if_pos hnode, ite_self]
  exact congrArg Except.ok hset

end Pointers

/-! ## The hash table finds the children -/

variable {v : Vfs} {xs : List Addr}

theorem dcacheFind_eq {parent : Addr} {name : Str} {cur : Addr} {fuel : Nat}
    (hchain : Chain (nextOf v) 0 cur xs) (hlive : ∀ x ∈ xs, ∃ e, v.ventries x = some e)
    (hfuel : xs.length < fuel) : dcacheFind v parent name fuel cur =
      .ok ((xs.find? fun x => parentOf v x = parent ∧ nameOf v x = name).getD 0) := by
  induction fuel generalizing xs cur with
  | zero => omega
  | succ fuel ih =>
    rcases xs with _ | ⟨_, _⟩
    · have hend : cur = 0 := hchain
      rw [dcacheFind, if_pos hend]
      rfl
    obtain ⟨rfl, hne, hrest⟩ := hchain
    obtain ⟨e, he⟩ := hlive cur mem_cons_self
    rw [nextOf_eq he] at hrest
    rw [dcacheFind, if_neg hne, ventry_eq hne he, find?_cons, parentOf_eq he, nameOf_eq he]
    show (if e.parent = parent ∧ e.name = name then _ else _) = _
    split_ifs with hit
    · simp [hit]
    · rw [decide_eq_false hit, ih hrest
        (fun y hy => hlive y (mem_cons_of_mem cur hy)) (Nat.lt_of_succ_lt_succ hfuel)]

theorem genericFsLookup_eq {path : Str} {cs : List Addr}
    (hcs : ∀ c ∈ cs, c ≠ 0 ∧ ∃ e, v.ventries c = some e ∧ e.node ≠ 0) : genericFsLookup path cs v =
      .ok ((cs.find? fun c => (nameOf v c).take 64 = path.take 64).getD 0, v) := by
  induction cs with
  | nil => rfl
  | cons c cs ih =>
    obtain ⟨hc, e, he, hnode⟩ := hcs c mem_cons_self
    rw [Fs.genericFsLookup, ventryRef_eq hc he, find?_cons, nameOf_eq he]
    show ((v.setVentry c _).ventry c >>= fun e' => _) = _
    rw [ventry_eq hc (v.ventries_set_self _)]
    rw [ventryPut_ref hc he hnode]
    show (if e.name.take 64 = path.take 64 then _ else _) = _
    split_ifs with hit
    · simp [hit]
    · rw [decide_eq_false hit, ih fun d hd => hcs d (mem_cons_of_mem c hd)]

theorem length_lt_of_nodup (hnodup : xs.Nodup) (hne : ∀ x ∈ xs, x ≠ 0) : xs.length < 2 ^ 64 := by
  have hsub : (xs.map BitVec.toNat).Subperm (range' 1 (2 ^ 64 - 1)) := by
    refine Nodup.subperm (Nodup.map (fun a b hab => BitVec.eq_of_toNat_eq hab) hnodup) fun x hx =>
      ?_
    obtain ⟨a, ha, rfl⟩ := mem_map.1 hx
    have hpos : a.toNat ≠ 0 := fun h0 => hne a ha (BitVec.eq_of_toNat_eq h0)
    rw [mem_range'_1]
    omega
  have hle := hsub.length_le
  rw [length_map, length_range'] at hle
  omega

/-! ## The buffer -/

/-- The path in the buffer of `vfs_lookup_at`. -/
def zeroed (path : Str) : Str := path.map fun c => if c = slash then 0 else c

section Buffer

variable {path : Str}

theorem takeWhile_zeroed (h : 0 ∉ path) :
    (zeroed path).takeWhile (· ≠ 0) = path.takeWhile (· ≠ slash) := by
  induction path with
  | nil => rfl
  | cons c path ih =>
    rw [mem_cons, not_or] at h
    rw [zeroed, map_cons, takeWhile_cons, takeWhile_cons]
    by_cases hc : c = slash
    · simp [hc]
    have h0 : c ≠ 0 := fun h0 => h.1 h0.symm
    simp only [if_neg hc, decide_eq_true h0, decide_eq_true hc]
    exact congrArg _ (ih h.2)

theorem drop_zeroed : (zeroed path).drop (path.takeWhile (· ≠ slash)).length =
    zeroed (path.dropWhile (· ≠ slash)) := by
  induction path with
  | nil => rfl
  | cons c path ih =>
    rw [takeWhile_cons, dropWhile_cons]
    by_cases hc : c = slash
    · simp [hc]
    · simp only [decide_eq_true hc, if_true]
      exact ih

theorem all_zeroed (h : 0 ∉ path) :
    (zeroed path).all (· = 0) = true ↔ components slash path = [] := by
  rw [components_eq_nil, all_eq_true, zeroed]
  simp only [mem_map, decide_eq_true_eq]
  constructor
  · intro hall x hx
    by_contra hne
    have hzero := hall _ ⟨x, hx, rfl⟩
    rw [if_neg hne] at hzero
    exact h (hzero ▸ hx)
  · rintro hall _ ⟨x, hx, rfl⟩
    rw [if_pos (hall x hx)]

theorem drop_one_dropWhile : components slash ((path.dropWhile (· ≠ slash)).drop 1) =
    components slash (path.dropWhile (· ≠ slash)) := by
  have hhead := head?_dropWhile_not (fun c => decide (c ≠ slash)) path
  generalize path.dropWhile (· ≠ slash) = rest at hhead ⊢
  rcases rest with _ | ⟨c, _⟩
  · rfl
  obtain rfl : c = slash := by simpa using hhead
  rfl

end Buffer

/-! ## The loop -/

theorem lookupLoop_zero (parent : Bool) (fuel : Nat) (v : Vfs) (rest : Str) :
    lookupLoop parent fuel v 0 rest = .ok (.error .enoent, v) := by
  induction fuel generalizing rest with
  | zero => rfl
  | succ fuel ih =>
    rcases rest with _ | ⟨_, cs⟩
    · rfl
    rw [lookupLoop]
    split
    · exact ih cs
    · rfl

end Monolith.Fs
