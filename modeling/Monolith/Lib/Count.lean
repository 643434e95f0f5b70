import Mathlib.Algebra.BigOperators.Group.List.Basic
import Mathlib.Tactic.Ring

/-!
# Counting in tables

A table is a function on indices, and its entries are written one at a time.  `countP_update` and
`sum_map_set` say what writing one entry does to the number of entries with a property, and to a sum
over the entries.
-/

namespace Count

open Function List

variable {ι α : Type}

/-- 1 or 0. -/
def one (b : Bool) : Nat := if b then 1 else 0

@[simp] theorem one_true : one true = 1 := rfl

@[simp] theorem one_false : one false = 0 := rfl

theorem countP_update [DecidableEq ι] {p : α → Bool} {f : ι → α} {i : ι} {xs : List ι}
    (hnodup : xs.Nodup) (hi : i ∈ xs) (x : α) :
    (xs.countP fun j => p (update f i x j)) + one (p (f i)) =
      (xs.countP fun j => p (f j)) + one (p x) := by
  induction xs with
  | nil => cases hi
  | cons y ys ih =>
    obtain ⟨hy, hys⟩ := nodup_cons.1 hnodup
    rw [countP_cons, countP_cons]
    rcases eq_or_ne y i with rfl | hyi
    · have hrest : (ys.countP fun j => p (update f y x j)) = ys.countP fun j => p (f j) := by
        refine countP_congr fun j hj => ?_
        rw [update_of_ne (by rintro rfl; exact hy hj)]
      rw [update_self]
      simp only [one]
      omega
    · have := ih hys ((mem_cons.1 hi).resolve_left fun h => hyi h.symm)
      rw [update_of_ne hyi]
      omega

theorem sum_map_set {xs : List α} {i : Nat} {x : α} (hx : xs[i]? = some x) (f : α → Nat) (y : α) :
    ((xs.set i y).map f).sum + f x = (xs.map f).sum + f y := by
  induction xs generalizing i with
  | nil => cases hx
  | cons z zs ih =>
    rcases i with _ | i
    · obtain rfl : z = x := by simpa using hx
      simp only [set_cons_zero, map_cons, sum_cons]
      omega
    have := ih (i := i) (by simpa using hx)
    simp only [set_cons_succ, map_cons, sum_cons]
    omega

end Count
