import Mathlib.Data.Set.Function
import Monolith.Lib.Bytes

/-!
# Words and strings in memory

Words of eight bytes one behind the other, strings with a zero behind them, and what reads them: a
number of words, words up to a zero, pairs of words up to one whose first is zero, a string.

A memory can be seen through a translation of addresses; a store through a translation that keeps
addresses apart is a store into what is seen (`storeVia_apply`).
-/

namespace Bytes

open List Function

/-! ## Words -/

/-- The words from `a` on. -/
def Words (m : Nat → BitVec 8) : Nat → List Nat → Prop
  | _, [] => True
  | a, w :: ws => load m 8 a = w ∧ Words m (a + 8) ws

/-- The `n` words from `a` on. -/
def readWords (m : Nat → BitVec 8) : Nat → Nat → List Nat
  | 0, _ => []
  | n + 1, a => load m 8 a :: readWords m n (a + 8)

/-- The words from `a` on up to a zero, of which there is one among the first `fuel`. -/
def readUntilZero (m : Nat → BitVec 8) : Nat → Nat → Option (List Nat)
  | 0, _ => none
  | fuel + 1, a =>
    if load m 8 a = 0 then some [] else (readUntilZero m fuel (a + 8)).map (load m 8 a :: ·)

/-- The pairs of words from `a` on up to one that starts with a zero, which is among the first
`fuel`. -/
def readPairs (m : Nat → BitVec 8) : Nat → Nat → Option (List (Nat × Nat))
  | 0, _ => none
  | fuel + 1, a =>
    if load m 8 a = 0 then some [] else (readPairs m fuel (a + 16)).map
      ((load m 8 a, load m 8 (a + 8)) :: ·)

variable {fuel : Nat}

section Words

variable {m m' : Nat → BitVec 8} {a : Nat} {ws : List Nat}

theorem words_append {xs ys : List Nat} :
    Words m a (xs ++ ys) ↔ Words m a xs ∧ Words m (a + 8 * xs.length) ys := by
  induction xs generalizing a with
  | nil => exact (iff_of_eq (true_and _)).symm
  | cons x xs ih =>
    rw [length_cons, show a + 8 * (xs.length + 1) = a + 8 + 8 * xs.length by omega]
    exact (and_congr_right fun _ => ih).trans and_assoc.symm

theorem Words.readWords (h : Words m a ws) : readWords m ws.length a = ws := by
  induction ws generalizing a with
  | nil => rfl
  | cons w ws ih =>
    show load m 8 a :: Bytes.readWords m ws.length (a + 8) = _
    rw [h.1, ih h.2]

theorem Words.readUntilZero (h : Words m a (ws ++ [0])) (hne : ∀ w ∈ ws, w ≠ 0)
    (hfuel : ws.length < fuel) : readUntilZero m fuel a = some ws := by
  induction fuel generalizing a ws with
  | zero => omega
  | succ fuel ih =>
    rcases ws with _ | ⟨w, _⟩
    · exact if_pos h.1
    rw [Bytes.readUntilZero, h.1, if_neg (hne w mem_cons_self),
      ih h.2 (fun x hx => hne x (mem_cons_of_mem w hx)) (Nat.lt_of_succ_lt_succ hfuel)]
    rfl

/-- The words of a list of pairs. -/
def flatPairs (ps : List (Nat × Nat)) : List Nat := ps.flatMap fun p => [p.1, p.2]

theorem Words.readPairs {ps : List (Nat × Nat)} (h : Words m a (flatPairs ps ++ [0]))
    (hne : ∀ p ∈ ps, p.1 ≠ 0) (hfuel : ps.length < fuel) : readPairs m fuel a = some ps := by
  induction fuel generalizing a ps with
  | zero => omega
  | succ fuel ih =>
    rcases ps with _ | ⟨p, _⟩
    · exact if_pos h.1
    obtain ⟨hfst, hsnd, hrest⟩ := h
    rw [Bytes.readPairs, hfst, hsnd, if_neg (hne p mem_cons_self),
      ih hrest (fun q hq => hne q (mem_cons_of_mem p hq)) (Nat.lt_of_succ_lt_succ hfuel)]
    rfl

end Words

/-! ## Strings -/

/-- The string `s` at `a`, with a zero behind it. -/
def Text (m : Nat → BitVec 8) : Nat → List (BitVec 8) → Prop
  | a, [] => m a = 0
  | a, b :: s => m a = b ∧ Text m (a + 1) s

/-- The string at `a`, whose end is among the first `fuel` bytes. -/
def readText (m : Nat → BitVec 8) : Nat → Nat → Option (List (BitVec 8))
  | 0, _ => none
  | fuel + 1, a => if m a = 0 then some [] else (readText m fuel (a + 1)).map (m a :: ·)

section Text

variable {m m' : Nat → BitVec 8} {a : Nat} {s : List (BitVec 8)}

theorem Text.congr (h : Text m a s) (hs : Same m m' (s.length + 1) a) : Text m' a s := by
  induction s generalizing a with
  | nil => exact (hs a (Nat.le_refl a) (by omega)).trans h
  | cons b s ih =>
    rw [length_cons] at hs
    exact ⟨(hs a (Nat.le_refl a) (by omega)).trans h.1, ih h.2 (hs.mono (by omega) (by omega))⟩

theorem Text.of_getElem (h : ∀ i, (hi : i < s.length) → m (a + i) = s[i])
    (hend : m (a + s.length) = 0) : Text m a s := by
  induction s generalizing a with
  | nil => exact hend
  | cons b s ih =>
    refine ⟨h 0 (Nat.succ_pos _), ih (fun i hi => ?_) ?_⟩
    · rw [add_assoc, add_comm 1 i]
      exact h (i + 1) (Nat.succ_lt_succ hi)
    · rwa [add_assoc, add_comm 1 s.length]

theorem Text.readText (h : Text m a s) (hne : ∀ b ∈ s, b ≠ 0) (hfuel : s.length < fuel) :
    readText m fuel a = some s := by
  induction fuel generalizing a s with
  | zero => omega
  | succ fuel ih =>
    rcases s with _ | ⟨b, _⟩
    · exact if_pos h
    rw [Bytes.readText, h.1, if_neg (hne b mem_cons_self),
      ih h.2 (fun x hx => hne x (mem_cons_of_mem b hx)) (Nat.lt_of_succ_lt_succ hfuel)]
    rfl

end Text

/-! ## Translated addresses -/

/-- The memory after `v` is stored in the `k` bytes that `t` has for the addresses from `a` on. -/
def storeVia (t : Nat → Nat) (m : Nat → BitVec 8) : Nat → Nat → Nat → Nat → BitVec 8
  | 0, _, _ => m
  | k + 1, a, v => update (storeVia t m k (a + 1) (v / 256)) (t a) (BitVec.ofNat 8 v)

/-- A store through a translation that keeps the addresses of `S` apart. -/
theorem storeVia_apply {t : Nat → Nat} {m : Nat → BitVec 8} {S : Set Nat} (ht : Set.InjOn t S)
    {k a v x : Nat} (ha : ∀ i < k, a + i ∈ S) (hx : x ∈ S) :
    storeVia t m k a v (t x) = store (fun y => m (t y)) k a v x := by
  induction k generalizing a v with
  | zero => rfl
  | succ k ih =>
    have hin : a ∈ S := ha 0 (Nat.succ_pos k)
    rw [storeVia, store_succ]
    by_cases hxa : x = a
    · rw [if_pos hxa, hxa, update_self]
    have hne : t x ≠ t a := fun h => hxa (ht hx hin h)
    rw [if_neg hxa, update_of_ne hne]
    refine ih fun i hi => ?_
    rw [add_assoc, add_comm 1 i]
    exact ha (i + 1) (Nat.succ_lt_succ hi)

end Bytes
