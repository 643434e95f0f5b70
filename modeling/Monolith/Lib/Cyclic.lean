import Mathlib.Logic.Function.Basic

/-!
# Rings of slots

A ring of `n` slots that is filled at one end and emptied at the other.  Whoever fills and whoever
empties count modulo `n`; the proofs count on without wrapping around, and the slot of the counter
`c` is `c % n`.

* `window n m lo k` is what is in the `k` slots from the counter `lo` on.
* `gap n i j` is the number of slots from the index `i` up to the index `j`, as it is computed from
  the wrapped indices; `gap_eq` says that this is right as long as there are fewer than `n`.
* `window_succ` and `window_cons` are the two ends; `window_congr` says what a window depends on.
-/

namespace Cyclic

open List

variable {α : Type} {n lo k i : Nat} {m m' : Nat → α}

/-- What is in the `k` slots from the counter `lo` on. -/
def window (n : Nat) (m : Nat → α) (lo k : Nat) : List α :=
  (List.range k).map fun i => m ((lo + i) % n)

/-- The number of slots from the index `i` up to the index `j`. -/
def gap (n i j : Nat) : Nat := (j + n - i) % n

/-! ## Indices -/

theorem slot_ne (hik : i < k) (hk : k < n) : (lo + i) % n ≠ (lo + k) % n := by
  intro h
  have hdvd : n ∣ lo + k - (lo + i) := Nat.dvd_of_mod_eq_zero (Nat.sub_mod_eq_zero_of_mod_eq h.symm)
  have hzero : lo + k - (lo + i) = 0 := Nat.eq_zero_of_dvd_of_lt hdvd (by omega)
  omega

/-- The gap of two counters that are less than a round apart. -/
theorem gap_eq {a b : Nat} (hab : a ≤ b) (hlt : b - a < n) : gap n (a % n) (b % n) = b - a := by
  have hn : 0 < n := by omega
  have ha : a % n < n := Nat.mod_lt a hn
  have hb : b % n = (a % n + (b - a)) % n := by rw [Nat.mod_add_mod, Nat.add_sub_cancel' hab]
  rw [gap, hb]
  rcases Nat.lt_or_ge (a % n + (b - a)) n with h | h
  · rw [Nat.mod_eq_of_lt h, show a % n + (b - a) + n - a % n =
      b - a + n by omega, Nat.add_mod_right, Nat.mod_eq_of_lt hlt]
  · rw [Nat.mod_eq_sub_mod h, Nat.mod_eq_of_lt (by omega : a % n + (b - a) - n < n),
      show a % n + (b - a) - n + n - a % n = b - a by omega, Nat.mod_eq_of_lt hlt]

/-! ## Windows -/

@[simp] theorem window_zero : window n m lo 0 = [] := rfl

theorem window_mod : window n m (lo % n) k = window n m lo k := by
  refine map_congr_left fun i _ => ?_
  rw [Nat.mod_add_mod]

theorem window_succ : window n m lo (k + 1) = window n m lo k ++ [m ((lo + k) % n)] := by
  rw [window, range_succ, map_append, map_singleton, window]

theorem window_add {j : Nat} :
    window n m lo (j + k) = window n m lo j ++ window n m (lo + j) k := by
  simp [window, range_add, Function.comp_def, Nat.add_assoc]

theorem window_cons : window n m lo (k + 1) = m (lo % n) :: window n m (lo + 1) k := by
  rw [window, range_succ_eq_map, map_cons, map_map]
  refine congrArg _ (map_congr_left fun i _ => ?_)
  rw [Function.comp_apply, show lo + (i + 1) = lo + 1 + i by omega]

theorem window_congr (h : ∀ i < k, m' ((lo + i) % n) = m ((lo + i) % n)) :
    window n m' lo k = window n m lo k :=
  map_congr_left fun i hi => h i (mem_range.1 hi)

end Cyclic
