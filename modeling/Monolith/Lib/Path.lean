import Mathlib.Data.List.TakeWhile

/-!
# Paths in a tree of names

A path is a list of characters, and its components are the longest parts of it without a separator.
They are followed one after the other in a tree of directories: `Tree.walk` is what a path names.
-/

namespace Path

open List

variable {α ι : Type} [DecidableEq α] {sep : α}

/-! ## Components -/

/-- The components of a path: what is between its separators, as far as there is something. -/
def components (sep : α) (path : List α) : List (List α) := (path.splitOn sep).filter (· ≠ [])

@[simp] theorem components_nil (sep : α) : components sep [] = [] := rfl

@[simp] theorem components_sep (sep : α) (path : List α) :
    components sep (sep :: path) = components sep path := by
  simp [components, splitOn, splitOnP_cons_eq_if_modifyHead]

theorem components_of_ne {sep x : α} (hx : x ≠ sep) (path : List α) :
    components sep (x :: path) = (x :: path).takeWhile (· ≠ sep) ::
      components sep ((x :: path).dropWhile (· ≠ sep)) := by
  have hne : (x :: path).takeWhile (· ≠ sep) ≠ [] := by simp [hx]
  have hname : ∀ y ∈ (x :: path).takeWhile (· ≠ sep), (y == sep) = false := by
    intro y hy
    simpa using mem_takeWhile_imp hy
  have hsplit := takeWhile_append_dropWhile (p := fun y => decide (y ≠ sep)) (l := x :: path)
  have hhead := head?_dropWhile_not (fun y => decide (y ≠ sep)) (x :: path)
  generalize (x :: path).takeWhile (· ≠ sep) = name at hne hname hsplit ⊢
  generalize (x :: path).dropWhile (· ≠ sep) = rest at hsplit hhead ⊢
  rw [← hsplit]
  rcases rest with _ | ⟨y, _⟩
  · rw [append_nil, components, splitOn, splitOnP_eq_singleton hname,
      filter_cons_of_pos (by simpa using hne), filter_nil, components_nil]
  obtain rfl : y = sep := by simpa using hhead
  rw [components_sep, components, splitOn, splitOnP_append_cons_of_forall_mem hname y
    (beq_self_eq_true y), filter_cons_of_pos (by simpa using hne)]
  rfl

theorem components_eq_nil {path : List α} : components sep path = [] ↔ ∀ x ∈ path, x = sep := by
  induction path with
  | nil => simp
  | cons x path ih =>
    rcases eq_or_ne x sep with rfl | hx
    · simp [components_sep, ih]
    · rw [components_of_ne hx]
      simp [hx]

theorem components_append_sep (sep : α) (path rest : List α) :
    components sep (path ++ sep :: rest) = components sep path ++ components sep rest := by
  have hsplit := @List.splitOnP_append_cons _ (· == sep) path rest sep (beq_self_eq_true sep)
  simp [components, splitOn, hsplit, filter_append]

theorem components_name {name : List α} (hne : name ≠ []) (hsep : sep ∉ name) :
    components sep name = [name] := by
  rw [components, splitOn, splitOnP_eq_singleton fun x hx => ?_,
    filter_cons_of_pos (by simpa using hne), filter_nil]
  rw [beq_eq_false_iff_ne]
  exact fun h => hsep (h ▸ hx)

/-! ## Walking -/

/-- Directories and what is in them. -/
structure Tree (α ι : Type) where
  isDir : ι → Bool
  /-- The directory above; above the root there is the root. -/
  up : ι → ι
  child : ι → List α → Option ι

/-- Why a path names nothing. -/
inductive Failure where
  | missing
  | notDir
  deriving DecidableEq, Repr

/-- The names of the directory itself and of the one above. -/
structure Dots (α : Type) where
  here : List α
  above : List α

/-- One component. -/
def Tree.step (t : Tree α ι) (dots : Dots α) (cur : ι) (name : List α) : Option ι :=
  if name = dots.here then some cur
  else if name = dots.above then some (t.up cur) else t.child cur name

/-- What the components name, from `cur` on.  With `parent` the walk stops before the last one. -/
def Tree.walk (t : Tree α ι) (dots : Dots α) (parent : Bool) : ι → List (List α) → Except Failure ι
  | cur, [] => .ok cur
  | cur, name :: names =>
    if t.isDir cur = false then .error .notDir
    else if parent = true ∧ names = [] then .ok cur
    else
      match t.step dots cur name with
      | none => .error .missing
      | some next => t.walk dots parent next names

end Path
