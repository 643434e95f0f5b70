import Mathlib.Data.List.Basic

/-!
# Singly linked lists

A singly linked list is a start and a function `next` from every member to the one behind it; a
special value `stop` ends it.  `Chain next stop a xs` says that the members from `a` on are `xs`.

* `Chain.unique`: the start determines the members.
* `Chain.congr`: only the links of the members matter.
* `Chain.push` and `Chain.append`: a new member in front and at the end.
* `Chain.skip`: a member that is taken out.
* `Chain.range'`: numbers that are linked in order.
-/

variable {ι : Type}

/-- The members of the linked list from `a` on. -/
def Chain (next : ι → ι) (stop : ι) : ι → List ι → Prop
  | a, [] => a = stop
  | a, x :: xs => a = x ∧ x ≠ stop ∧ Chain next stop (next x) xs

namespace Chain

open List

variable {next next' : ι → ι} {stop a x : ι} {xs ys : List ι}

section

variable (h : Chain next stop a xs)

include h

theorem unique (h' : Chain next stop a ys) : xs = ys := by
  induction xs generalizing a ys with
  | nil =>
    cases ys with
    | nil => rfl
    | cons y ys => exact absurd (h'.1.symm.trans h) h'.2.1
  | cons x xs ih =>
    rcases ys with _ | ⟨y, _⟩
    · exact absurd (h.1.symm.trans h') h.2.1
    obtain rfl : x = y := h.1.symm.trans h'.1
    rw [ih h.2.2 h'.2.2]

theorem congr (hnext : ∀ x ∈ xs, next' x = next x) : Chain next' stop a xs := by
  induction xs generalizing a with
  | nil => exact h
  | cons x xs ih =>
    refine ⟨h.1, h.2.1, ?_⟩
    rw [hnext x mem_cons_self]
    exact ih h.2.2 fun y hy => hnext y (mem_cons_of_mem x hy)

theorem push (hx : x ≠ stop) (hnext : next x = a) : Chain next stop x (x :: xs) :=
  ⟨rfl, hx, hnext ▸ h⟩

end

theorem append {last y : ι} (h : Chain next stop a (xs ++ [last]))
    (hold : ∀ x ∈ xs, next' x = next x) (hlast : next' last = y) (hy : y ≠ stop)
    (hend : next' y = stop) : Chain next' stop a (xs ++ [last] ++ [y]) := by
  induction xs generalizing a with
  | nil => exact ⟨h.1, h.2.1, hlast, hy, hend⟩
  | cons x xs ih =>
    refine ⟨h.1, h.2.1, ?_⟩
    rw [hold x mem_cons_self]
    exact ih h.2.2 fun z hz => hold z (mem_cons_of_mem x hz)

theorem skip {p : ι} {zs : List ι} (h : Chain next stop a (ys ++ p :: x :: zs))
    (hold : ∀ y ∈ ys ++ zs, next' y = next y) (hp : next' p = next x) :
    Chain next' stop a (ys ++ p :: zs) := by
  induction ys generalizing a with
  | nil =>
    obtain ⟨hap, hps, -, -, hrest⟩ := h
    refine ⟨hap, hps, ?_⟩
    rw [hp]
    exact hrest.congr fun y hy => hold y hy
  | cons y ys ih =>
    refine ⟨h.1, h.2.1, ?_⟩
    rw [hold y mem_cons_self]
    exact ih h.2.2 fun z hz => hold z (mem_cons_of_mem y hz)

theorem range' {next : Nat → Nat} {a t : Nat} (h : ∀ k, a ≤ k → k < a + t → next k = k + 1) :
    Chain next (a + t) a (List.range' a t) := by
  induction t generalizing a with
  | zero => exact rfl
  | succ t ih =>
    refine ⟨rfl, by omega, ?_⟩
    rw [h a (Nat.le_refl a) (by omega), ← Nat.add_assoc, Nat.add_right_comm]
    exact ih fun k hk hk' => h k (by omega) (by omega)

end Chain
