import Mathlib.Tactic.Ring

/-!
# Fallible computations and counted loops

A computation that can fail is a value of `Except ε α`.  Two rules take such computations apart:
what a sequence of two that succeeded is made of (`bind_eq_ok`), and what a counted loop that
succeeded keeps (`forRange_ok`).  `Avoids P x` says that `x` does not fail in a way that is in `P`,
and `Meets P x Q` that moreover what it returns is in `Q`.
-/

namespace Fallible

open Except

variable {ε α β σ : Type}

theorem ok_bind (a : α) (f : α → Except ε β) : ok a >>= f = f a := rfl

variable {x : Except ε α} {e : ε} {a : α} {c : Prop} {i n : Nat} {s : σ} {b : β} {f : α → β}

theorem bind_eq_ok {f : α → Except ε β} : x >>= f = .ok b ↔ ∃ a, x = .ok a ∧ f a = .ok b := by
  rcases x with e | a
  · show error e = ok b ↔ _
    simp
  show f a = .ok b ↔ _
  simp

theorem bind_eq_error {f : α → Except ε β} : x >>= f = .error e ↔ x = .error e ∨ ∃ a, x = .ok a ∧
    f a = .error e := by
  rcases x with e' | a
  · show error e' = error e ↔ _
    simp
  show f a = .error e ↔ _
  simp

theorem pure_eq_ok {b : α} : (pure a : Except ε α) = .ok b ↔ a = b := by
  show ok a = ok b ↔ _
  simp

theorem bind_pure_eq_ok : (x >>= fun a => pure (f a)) = .ok b ↔ ∃ a, x = .ok a ∧ f a = b := by
  simp only [bind_eq_ok, pure_eq_ok]

theorem ok_pair {a' : α} {b b' : β} (h : (.ok (a, b) : Except ε (α × β)) = .ok (a', b')) :
    a = a' ∧ b = b' :=
  Prod.mk.inj (ok.inj h)

theorem map_eq_ok : x.map f = .ok b ↔ ∃ a, x = .ok a ∧ f a = b := by
  rcases x with e | a
  · show error e = ok b ↔ _
    simp
  show ok (f a) = ok b ↔ _
  simp

theorem toOption_eq_some : x.toOption = some a ↔ x = .ok a := by
  rcases x with _ | b
  · show none = some a ↔ _
    simp
  show some b = some a ↔ _
  simp

theorem map_toOption_eq_some : x.toOption.map f = some b ↔ ∃ a, x = .ok a ∧ f a = b := by
  simp [Option.map_eq_some_iff, toOption_eq_some]

theorem ite_map_toOption_eq_some [Decidable c] :
    (if c then x.toOption.map f else none) = some b ↔ c ∧ ∃ a, x = .ok a ∧ f a = b := by
  rw [Option.ite_none_right_eq_some, map_toOption_eq_some]

/-- The second part of what a computation returns can be tested. -/
instance decidableExistsOk [DecidableEq α] {p : β → Prop} [DecidablePred p] :
    (x : Except ε (α × β)) → Decidable (∃ b, x = .ok (a, b) ∧ p b)
  | .error _ => isFalse nofun
  | .ok (a', b) => decidable_of_iff (a' = a ∧ p b) (by simp [and_assoc])

/-- The computation does not fail with an error of `P`. -/
def Avoids (P : ε → Prop) (x : Except ε α) : Prop := ∀ e, x = .error e → ¬P e

section Avoids

variable {P : ε → Prop} {x y : Except ε α} {f : α → Except ε β}

theorem avoids_ok : Avoids P (.ok a : Except ε α) := nofun

theorem avoids_error : Avoids P (.error e : Except ε α) ↔ ¬P e := by simp [Avoids]

theorem avoids_bind : Avoids P (x >>= f) ↔ Avoids P x ∧ ∀ a, x = .ok a → Avoids P (f a) := by
  simp only [Avoids, bind_eq_error]
  constructor
  · intro h
    exact ⟨fun e he => h e (.inl he), fun a ha e he => h e (.inr ⟨a, ha, he⟩)⟩
  · rintro ⟨hx, hf⟩ e (he | ⟨a, ha, he⟩)
    · exact hx e he
    · exact hf a ha e he

theorem Avoids.bind (hx : Avoids P x) (hf : ∀ a, Avoids P (f a)) : Avoids P (x >>= f) :=
  avoids_bind.2 ⟨hx, fun a _ => hf a⟩

theorem avoids_ite [Decidable c] : Avoids P (if c then x else y) ↔ (c → Avoids P x) ∧
    (¬c → Avoids P y) := by
  by_cases hc : c <;> simp [hc]

theorem avoids_ite_ok [Decidable c] : Avoids P (if c then .ok a else x) ↔ (¬c → Avoids P x) :=
  avoids_ite.trans (and_iff_right fun _ => avoids_ok)

end Avoids

/-- The computation does not fail with an error of `P`, and what it returns has `Q`. -/
def Meets (P : ε → Prop) (x : Except ε α) (Q : α → Prop) : Prop := Avoids P x ∧ ∀ a, x = .ok a → Q a

section Meets

variable {P : ε → Prop} {Q Q' : α → Prop} {R : β → Prop} {x y : Except ε α} {f : α → Except ε β}

theorem meets_ok : Meets P (.ok a : Except ε α) Q ↔ Q a := by simp [Meets, avoids_ok]

theorem meets_error : Meets P (.error e : Except ε α) Q ↔ ¬P e := by simp [Meets, avoids_error]

section

variable (hx : Meets P x Q)

include hx

/-- **The rule of a sequence.** -/
theorem Meets.bind (hf : ∀ a, Q a → Meets P (f a) R) : Meets P (x >>= f) R := by
  refine ⟨avoids_bind.2 ⟨hx.1, fun a ha => (hf a (hx.2 a ha)).1⟩, fun b hb => ?_⟩
  obtain ⟨a, ha, hb⟩ := bind_eq_ok.1 hb
  exact (hf a (hx.2 a ha)).2 b hb

theorem Meets.eq : Meets P x fun a => x = .ok a ∧ Q a := ⟨hx.1, fun a ha => ⟨ha, hx.2 a ha⟩⟩

theorem Meets.mono (h : ∀ a, Q a → Q' a) : Meets P x Q' := ⟨hx.1, fun a ha => h a (hx.2 a ha)⟩

theorem Meets.map {g : α → β} (h : ∀ a, Q a → R (g a)) : Meets P (x.map g) R := by
  cases x with
  | error e => exact meets_error.2 (meets_error.1 hx)
  | ok a => exact meets_ok.2 (h a (meets_ok.1 hx))

end

theorem meets_ite [Decidable c] (hx : c → Meets P x Q) (hy : ¬c → Meets P y Q) :
    Meets P (if c then x else y) Q := by
  split_ifs with hc
  · exact hx hc
  · exact hy hc

end Meets

/-- Run `body` for the indices `i, i + 1, …, i + n - 1`. -/
def forRange (body : Nat → σ → Except ε σ) : Nat → Nat → σ → Except ε σ
  | _, 0, s => .ok s
  | i, n + 1, s => body i s >>= forRange body (i + 1) n

variable {body : Nat → σ → Except ε σ} {I : Nat → σ → Prop}

theorem forRange_succ (i n : Nat) (s : σ) :
    forRange body i (n + 1) s = body i s >>= forRange body (i + 1) n := rfl

/-- **The invariant rule of a loop.** -/
theorem forRange_ok {s' : σ}
    (hbody : ∀ k t t', i ≤ k → k < i + n → I k t → body k t = .ok t' → I (k + 1) t') (hs : I i s)
    (h : forRange body i n s = .ok s') : I (i + n) s' := by
  induction n generalizing i s with
  | zero =>
    rw [forRange, ok.injEq] at h
    rwa [← h]
  | succ n ih =>
    obtain ⟨t, hst, hts⟩ := bind_eq_ok.1 h
    have ht := hbody i s t (Nat.le_refl i) (by omega) hs hst
    rw [show i + (n + 1) = i + 1 + n by omega]
    exact ih (fun k u u' hik hkn => hbody k u u' (by omega) (by omega)) ht hts

/-- **A loop whose body cannot fail** does not fail. -/
theorem forRange_total
    (hbody : ∀ k t, i ≤ k → k < i + n → I k t → ∃ t', body k t = .ok t' ∧ I (k + 1) t')
    (hs : I i s) : ∃ s', forRange body i n s = .ok s' ∧ I (i + n) s' := by
  induction n generalizing i s with
  | zero => exact ⟨s, rfl, hs⟩
  | succ n ih =>
    obtain ⟨t, hst, ht⟩ := hbody i s (Nat.le_refl i) (by omega) hs
    obtain ⟨s', hts, hs'⟩ := ih (fun k u hik hkn => hbody k u (by omega) (by omega)) ht
    refine ⟨s', ?_, ?_⟩
    · rw [forRange_succ, bind_eq_ok]
      exact ⟨t, hst, hts⟩
    · rwa [show i + (n + 1) = i + 1 + n by omega]

theorem forRange_error (h : forRange body i n s = .error e) : ∃ k t, body k t = .error e := by
  induction n generalizing i s with
  | zero => cases h
  | succ n ih =>
    rw [forRange_succ, bind_eq_error] at h
    rcases h with h | ⟨t, -, h⟩
    · exact ⟨i, s, h⟩
    · exact ih h

end Fallible
