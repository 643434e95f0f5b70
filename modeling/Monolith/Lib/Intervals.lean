import Mathlib.Data.List.Perm.Basic
import Mathlib.Order.Nat

/-!
# Sorted lists of half-open intervals

Every element `a` of a list stands for the numbers from `lo a` up to, but not including, `hi a`.  A
list is `Apart` if its intervals follow one another without overlap.

* `place` puts a new interval where it belongs, if it meets none of those that are there
  (`place_isSome_iff`, `place_apart`).
* `firstFit` is the lowest number at which an interval of a given length fits (`firstFit_free`,
  `firstFit_least`), and `fit` puts it there (`fit_apart`).
-/

namespace Intervals

open List Option

variable {α : Type}

/-- Sorted, and without overlap. -/
def Apart (lo hi : α → Nat) (xs : List α) : Prop := xs.Pairwise fun a b => hi a ≤ lo b

/-- The numbers from `l` to `h` are in none of the intervals. -/
def Free (lo hi : α → Nat) (xs : List α) (l h : Nat) : Prop := ∀ a ∈ xs, h ≤ lo a ∨ hi a ≤ l

variable {lo hi : α → Nat} {x : α} {xs ys : List α} {p len : Nat} {l h : Nat}

theorem apart_cons : Apart lo hi (x :: xs) ↔ (∀ b ∈ xs, hi x ≤ lo b) ∧ Apart lo hi xs :=
  pairwise_cons

theorem free_cons : Free lo hi (x :: xs) l h ↔ (h ≤ lo x ∨ hi x ≤ l) ∧ Free lo hi xs l h :=
  forall_mem_cons

theorem free_of_le (hxs : ∀ b ∈ xs, h ≤ lo b) : Free lo hi xs l h := fun b hb => .inl (hxs b hb)

/-! ## At a given place -/

/-- Put `x` in front of the first interval that starts behind it, unless it meets one. -/
def place (lo hi : α → Nat) (x : α) : List α → Option (List α)
  | [] => some [x]
  | a :: as =>
    if lo a ≤ lo x then
      if lo x < hi a then none else (place lo hi x as).map (a :: ·)
    else if lo a < hi x then none else some (x :: a :: as)

theorem place_perm (h : place lo hi x xs = some ys) : ys.Perm (x :: xs) := by
  induction xs generalizing ys with
  | nil =>
    rw [place, some_inj] at h
    rw [← h]
  | cons a as ih =>
    rw [place] at h
    split at h
    · rw [ite_none_left_eq_some] at h
      obtain ⟨zs, hzs, rfl⟩ := map_eq_some_iff.1 h.2
      exact ((ih hzs).cons a).trans (Perm.swap x a as)
    · rw [ite_none_left_eq_some, some_inj] at h
      rw [← h.2]

/-- **It succeeds exactly where there is nothing.** -/
theorem place_isSome_iff (hx : lo x < hi x) (hne : ∀ a ∈ xs, lo a < hi a)
    (h : Apart lo hi xs) : (place lo hi x xs).isSome ↔ Free lo hi xs (lo x) (hi x) := by
  induction xs with
  | nil => exact iff_of_true rfl nofun
  | cons a as ih =>
    obtain ⟨hbehind, has⟩ := apart_cons.1 h
    have ha := hne a mem_cons_self
    have ih := ih (fun b hb => hne b (mem_cons_of_mem a hb)) has
    rw [place, free_cons]
    split
    · split
      · exact iff_of_false nofun fun hf => by omega
      · rw [isSome_map, ih]
        exact ⟨fun hf => ⟨by omega, hf⟩, fun hf => hf.2⟩
    · split
      · exact iff_of_false nofun fun hf => by omega
      refine iff_of_true rfl ⟨by omega, free_of_le fun b hb => ?_⟩
      have := hbehind b hb
      omega

/-- **The list stays sorted and without overlap.** -/
theorem place_apart (hne : ∀ a ∈ xs, lo a < hi a) (h : Apart lo hi xs)
    (hp : place lo hi x xs = some ys) : Apart lo hi ys := by
  induction xs generalizing ys with
  | nil =>
    rw [place, some_inj] at hp
    rw [← hp]
    exact pairwise_singleton _ x
  | cons a as ih =>
    obtain ⟨hbehind, has⟩ := apart_cons.1 h
    rw [place] at hp
    split at hp
    · rw [ite_none_left_eq_some] at hp
      obtain ⟨hlt, hp⟩ := hp
      obtain ⟨zs, hzs, rfl⟩ := map_eq_some_iff.1 hp
      refine apart_cons.2 ⟨fun b hb => ?_, ih (fun b hb => hne b (mem_cons_of_mem a hb)) has hzs⟩
      rcases mem_cons.1 ((place_perm hzs).mem_iff.1 hb) with rfl | hb
      · omega
      · exact hbehind b hb
    · rw [ite_none_left_eq_some, some_inj] at hp
      obtain ⟨hlt, rfl⟩ := hp
      refine apart_cons.2 ⟨fun b hb => ?_, h⟩
      rcases mem_cons.1 hb with rfl | hb
      · omega
      have ha := hne a mem_cons_self
      have := hbehind b hb
      omega

/-! ## At the lowest place -/

/-- The lowest number, from `p` on, at which an interval of the given length fits. -/
def firstFit (lo hi : α → Nat) (len : Nat) : Nat → List α → Nat
  | p, [] => p
  | p, a :: as => if p + len ≤ lo a then p else firstFit lo hi len (hi a) as

/-- Put `x` there. -/
def fit (lo hi : α → Nat) (len : Nat) (x : α) : Nat → List α → List α
  | _, [] => [x]
  | p, a :: as => if p + len ≤ lo a then x :: a :: as else a :: fit lo hi len x (hi a) as

theorem fit_perm : (fit lo hi len x p xs).Perm (x :: xs) := by
  induction xs generalizing p with
  | nil => rw [fit]
  | cons a as ih =>
    rw [fit]
    split
    · rfl
    · exact (ih.cons a).trans (Perm.swap x a as)

/-- It is where the search starts, or the end of an interval. -/
theorem firstFit_eq (len p : Nat) (xs : List α) :
    firstFit lo hi len p xs = p ∨ ∃ a ∈ xs, firstFit lo hi len p xs = hi a := by
  induction xs generalizing p with
  | nil => exact .inl rfl
  | cons a as ih =>
    rw [firstFit]
    split
    · exact .inl rfl
    rcases ih (hi a) with h | ⟨b, hb, h⟩
    · exact .inr ⟨a, mem_cons_self, h⟩
    · exact .inr ⟨b, mem_cons_of_mem a hb, h⟩

theorem le_firstFit (hne : ∀ a ∈ xs, lo a < hi a) (hp : ∀ a ∈ xs, p ≤ lo a)
    (h : Apart lo hi xs) : p ≤ firstFit lo hi len p xs := by
  induction xs generalizing p with
  | nil => exact le_rfl
  | cons a as ih =>
    obtain ⟨hbehind, has⟩ := apart_cons.1 h
    rw [firstFit]
    split
    · exact le_rfl
    have ha := hne a mem_cons_self
    have hpa := hp a mem_cons_self
    have := ih (fun b hb => hne b (mem_cons_of_mem a hb)) hbehind has
    omega

/-- **It fits there.** -/
theorem firstFit_free (hne : ∀ a ∈ xs, lo a < hi a) (hp : ∀ a ∈ xs, p ≤ lo a) (h : Apart lo hi xs) :
    Free lo hi xs (firstFit lo hi len p xs) (firstFit lo hi len p xs + len) := by
  induction xs generalizing p with
  | nil => exact nofun
  | cons a as ih =>
    obtain ⟨hbehind, has⟩ := apart_cons.1 h
    have hne' : ∀ b ∈ as, lo b < hi b := fun b hb => hne b (mem_cons_of_mem a hb)
    rw [firstFit]
    split
    · refine free_cons.2 ⟨.inl ‹_›, free_of_le fun b hb => ?_⟩
      have ha := hne a mem_cons_self
      have := hbehind b hb
      omega
    · exact free_cons.2 ⟨.inr (le_firstFit hne' hbehind has), ih hne' hbehind has⟩

/-- **And nowhere below.** -/
theorem firstFit_least {q : Nat} (hq : p ≤ q) (hfree : Free lo hi xs q (q + len)) :
    firstFit lo hi len p xs ≤ q := by
  induction xs generalizing p with
  | nil => exact hq
  | cons a as ih =>
    obtain ⟨ha, has⟩ := free_cons.1 hfree
    rw [firstFit]
    split
    · exact hq
    · exact ih (by omega) has

/-- **The list stays sorted and without overlap.** -/
theorem fit_apart (hne : ∀ a ∈ xs, lo a < hi a) (hp : ∀ a ∈ xs, p ≤ lo a) (h : Apart lo hi xs)
    (hlo : lo x = firstFit lo hi len p xs) (hhi : hi x = lo x + len) :
    Apart lo hi (fit lo hi len x p xs) := by
  induction xs generalizing p with
  | nil => exact pairwise_singleton _ x
  | cons a as ih =>
    obtain ⟨hbehind, has⟩ := apart_cons.1 h
    have hne' : ∀ b ∈ as, lo b < hi b := fun b hb => hne b (mem_cons_of_mem a hb)
    rw [firstFit] at hlo
    rw [fit]
    split at hlo
    · rw [if_pos ‹_›]
      refine apart_cons.2 ⟨fun b hb => ?_, h⟩
      rcases mem_cons.1 hb with rfl | hb
      · omega
      have ha := hne a mem_cons_self
      have := hbehind b hb
      omega
    · rw [if_neg ‹_›]
      refine apart_cons.2 ⟨fun b hb => ?_, ih hne' hbehind has hlo⟩
      rcases mem_cons.1 (fit_perm.mem_iff.1 hb) with rfl | hb
      · rw [hlo]
        exact le_firstFit hne' hbehind has
      · exact hbehind b hb

end Intervals
