import Mathlib.Logic.Basic

/-!
# Computations that leave a trace

A computation of type `Traced ω ε α` does things one after the other, which are its events, and ends
with a value or stops.

* `Safe P x` says that everything it does is as `P` wants it, and that it does not stop.
* `mem_bind` says where something that is done comes from, and `Always P x` that everything that is
  done is as `P` wants it, whether the computation stops or not.
* `Yields g x a l` says that it ends with `a`, and that of what it does, `g` sees `l`.
-/

variable {ω ε α β γ : Type}

/-- What a computation does, and how it ends. -/
structure Traced (ω ε α : Type) where
  events : List ω
  result : Except ε α

namespace Traced

open List

/-- Nothing is done. -/
protected def pure (a : α) : Traced ω ε α := ⟨[], .ok a⟩

/-- The computation ends here. -/
def stop (e : ε) : Traced ω ε α := ⟨[], .error e⟩

/-- One after the other. -/
protected def bind (x : Traced ω ε α) (f : α → Traced ω ε β) : Traced ω ε β :=
  match x.result with
  | .ok a => ⟨x.events ++ (f a).events, (f a).result⟩
  | .error e => ⟨x.events, .error e⟩

instance : Monad (Traced ω ε) where
  pure := Traced.pure
  bind := Traced.bind

section Bind

variable {x : Traced ω ε α} {f : α → Traced ω ε β} {a : α} {e : ε}

theorem bind_ok (h : x.result = .ok a) : x >>= f = ⟨x.events ++ (f a).events, (f a).result⟩ := by
  show Traced.bind x f = _
  rw [Traced.bind, h]

theorem bind_error (h : x.result = .error e) : x >>= f = ⟨x.events, .error e⟩ := by
  show Traced.bind x f = _
  rw [Traced.bind, h]

end Bind

section Mem

variable {x : Traced ω ε α} {f : α → Traced ω ε β} {a : α} {e : ε} {w : ω}

@[simp] theorem not_mem_pure : w ∉ (pure a : Traced ω ε α).events := not_mem_nil

@[simp] theorem not_mem_stop : w ∉ (stop e : Traced ω ε α).events := not_mem_nil

/-- What is done in a sequence is done in the first part, or in the second one if it is reached. -/
theorem mem_bind : w ∈ (x >>= f).events ↔ w ∈ x.events ∨ ∃ a, x.result = .ok a ∧
    w ∈ (f a).events := by
  cases hx : x.result with
  | error e => simp [bind_error hx]
  | ok a => simp [bind_ok hx]

theorem result_eq_ok {b : β} :
    (x >>= f).result = .ok b ↔ ∃ a, x.result = .ok a ∧ (f a).result = .ok b := by
  cases hx : x.result with
  | error e => simp [bind_error hx]
  | ok a => simp [bind_ok hx]

theorem result_eq_error : (x >>= f).result = .error e ↔
    x.result = .error e ∨ ∃ a, x.result = .ok a ∧ (f a).result = .error e := by
  cases hx : x.result with
  | error e => simp [bind_error hx]
  | ok a => simp [bind_ok hx]

/-- Everything that is done is as `P` wants it. -/
def Always (P : ω → Prop) (x : Traced ω ε α) : Prop := ∀ w ∈ x.events, P w

variable {P : ω → Prop}

theorem always_pure : Always P (pure a : Traced ω ε α) := fun _ h => absurd h not_mem_pure

theorem always_stop : Always P (stop e : Traced ω ε α) := fun _ h => absurd h not_mem_stop

theorem always_mk (hw : P w) : Always P (⟨[w], .ok a⟩ : Traced ω ε α) :=
  fun _ h => mem_singleton.1 h ▸ hw

theorem Always.bind (hx : Always P x) (hf : ∀ a, Always P (f a)) : Always P (x >>= f) := by
  intro w hw
  rcases mem_bind.1 hw with hw | ⟨a, -, hw⟩
  · exact hx w hw
  · exact hf a w hw

theorem Always.mk_bind (hw : P w) (hf : Always P (f a)) :
    Always P ((⟨[w], .ok a⟩ : Traced ω ε α) >>= f) := by
  intro v hv
  rcases mem_cons.1 hv with rfl | hv
  · exact hw
  · exact hf v hv

end Mem

/-- The computation ends with `a`, and `l` is what `g` sees of what is done. -/
def Yields (g : ω → Option γ) (x : Traced ω ε α) (a : α) (l : List γ) : Prop :=
  x.result = .ok a ∧ x.events.filterMap g = l

section Yields

variable {g : ω → Option γ} {x : Traced ω ε α} {f : α → Traced ω ε β} {a : α} {b : β} {w : ω}
  {l l' : List γ}

theorem Yields.pure : Yields g (pure a : Traced ω ε α) a [] := ⟨rfl, rfl⟩

theorem Yields.unseen (hw : g w = none) : Yields g (⟨[w], .ok a⟩ : Traced ω ε α) a [] :=
  ⟨rfl, filterMap_cons_none hw⟩

theorem Yields.seen {c : γ} (hw : g w = some c) : Yields g (⟨[w], .ok a⟩ : Traced ω ε α) a [c] :=
  ⟨rfl, filterMap_cons_some hw⟩

theorem Yields.bind (hx : Yields g x a l) (hf : Yields g (f a) b l') :
    Yields g (x >>= f) b (l ++ l') := by
  rw [bind_ok hx.1]
  exact ⟨hf.1, by rw [filterMap_append, hx.2, hf.2]⟩

theorem Yields.after (hx : Yields g x a []) (hf : Yields g (f a) b l) : Yields g (x >>= f) b l :=
  hx.bind hf

end Yields

/-- Everything that is done is as `P` wants it, and the computation does not stop. -/
def Safe (P : ω → Prop) (x : Traced ω ε α) : Prop := (∀ w ∈ x.events, P w) ∧ ∃ a, x.result = .ok a

section Safe

variable {P : ω → Prop} {x : Traced ω ε α} {f : α → Traced ω ε β} {a : α} {e : ε} {w : ω} {c : Prop}
  {x : Traced ω ε α}

theorem safe_pure : Safe P (pure a : Traced ω ε α) := ⟨fun _ h => absurd h not_mem_nil, a, rfl⟩

theorem not_safe_stop : ¬Safe P (stop e : Traced ω ε α) := fun ⟨_, _, h⟩ => nomatch h

theorem safe_ite [Decidable c] {x y : Traced ω ε α} :
    Safe P (if c then x else y) ↔ (c → Safe P x) ∧ (¬c → Safe P y) := by
  by_cases hc : c <;> simp [hc]

theorem safe_ite_pure_left [Decidable c] :
    Safe P (if c then pure a else x) ↔ (¬c → Safe P x) :=
  safe_ite.trans (and_iff_right fun _ => safe_pure)

theorem safe_ite_pure_right [Decidable c] :
    Safe P (if c then x else pure a) ↔ (c → Safe P x) :=
  safe_ite.trans (and_iff_left fun _ => safe_pure)

theorem safe_mk : Safe P (⟨[w], .ok a⟩ : Traced ω ε α) ↔ P w := by simp [Safe]

theorem safe_bind : Safe P (x >>= f) ↔ Safe P x ∧ ∀ a, x.result = .ok a → Safe P (f a) := by
  rcases hx : x.result with _ | a
  · rw [bind_error hx]
    simp [Safe, hx]
  rw [bind_ok hx]
  simp only [Safe, hx, mem_append, Except.ok.injEq]
  constructor
  · rintro ⟨hevents, hok⟩
    refine ⟨⟨fun w hw => hevents w (.inl hw), a, rfl⟩, ?_⟩
    rintro _ rfl
    exact ⟨fun w hw => hevents w (.inr hw), hok⟩
  · rintro ⟨⟨hevents, -⟩, hf⟩
    obtain ⟨hevents', hok⟩ := hf a rfl
    exact ⟨fun w hw => hw.elim (hevents w) (hevents' w), hok⟩

theorem safe_mk_bind : Safe P ((⟨[w], .ok a⟩ : Traced ω ε α) >>= f) ↔ P w ∧ Safe P (f a) := by
  rw [safe_bind, safe_mk]
  simp

/-- The same where the second part does not depend on the value of the first. -/
theorem safe_bind_of_iff {q : Prop} (h : ∀ a, Safe P (f a) ↔ q) :
    Safe P (x >>= f) ↔ Safe P x ∧ q := by
  rw [safe_bind]
  constructor
  · rintro ⟨hx, hf⟩
    obtain ⟨a, ha⟩ := hx.2
    exact ⟨hx, (h a).1 (hf a ha)⟩
  · rintro ⟨hx, hq⟩
    exact ⟨hx, fun a _ => (h a).2 hq⟩

theorem safe_seq {x : Traced ω ε Unit} {f : Unit → Traced ω ε β} :
    Safe P (x >>= f) ↔ Safe P x ∧ Safe P (f ()) :=
  safe_bind_of_iff fun _ => Iff.rfl

end Safe

end Traced
