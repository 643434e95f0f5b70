import Mathlib.Data.List.Basic
import Mathlib.Tactic.Ring

/-!
# Runs of a transition system

A system is a `step` function that says, for a state and an action, what the next state is — or
that the action is not possible there.  A run is a list of actions.

* `run step s as` is the state a run ends in, if every one of its actions is possible.
* `Along step C s as` says that every action of the run is taken in a state in which `C` allows it.
  It is how a property that fails in general is confined to the runs in which it holds.
* `run_induction` is the rule everything is proved by: what holds at the start and is kept by every
  allowed step holds at the end of every allowed run.  Since an initial piece of a run is a run
  itself, that covers every state a run passes through.
-/

namespace Transition

open Option

variable {σ α : Type} {step : σ → α → Option σ} {C : σ → α → Prop}

/-- The state at the end of a run. -/
def run (step : σ → α → Option σ) : σ → List α → Option σ
  | s, [] => some s
  | s, a :: as => (step s a).bind fun t => run step t as

@[simp] theorem run_nil (s : σ) : run step s [] = some s := rfl

variable {s t : σ} {as : List α} {a : α} {I : σ → Prop}

theorem run_cons_eq_some {u : σ} :
    run step s (a :: as) = some u ↔ ∃ t, step s a = some t ∧ run step t as = some u := by
  rw [run, bind_eq_some_iff]

theorem run_append (s : σ) (as bs : List α) :
    run step s (as ++ bs) = (run step s as).bind fun t => run step t bs := by
  induction as generalizing s with
  | nil => rfl
  | cons a as ih =>
    rw [List.cons_append, run, run, bind_assoc]
    exact congrArg _ (funext fun t => ih t)

/-- Every action of the run is allowed in the state it is taken in. -/
def Along (step : σ → α → Option σ) (C : σ → α → Prop) : σ → List α → Prop
  | _, [] => True
  | s, a :: as => C s a ∧ ∀ t, step s a = some t → Along step C t as

theorem Along.cons {a : α} (hst : step s a = some t) (hC : C s a) (h : Along step C t as) :
    Along step C s (a :: as) := by
  refine ⟨hC, fun u hu => ?_⟩
  rw [hst, some_inj] at hu
  exact hu ▸ h

/-- A run that is allowed under one condition is allowed under a weaker one. -/
theorem Along.mono {C' : σ → α → Prop} (hle : ∀ s a, C s a → C' s a) (h : Along step C s as) :
    Along step C' s as := by
  induction as generalizing s with
  | nil => trivial
  | cons a as ih => exact ⟨hle s a h.1, fun t ht => ih (h.2 t ht)⟩

/-- **The invariant rule.**  What holds at the start of a run and is kept by every allowed step
holds at its end. -/
theorem run_induction (hstep : ∀ s a t, I s → C s a → step s a = some t → I t) (hs : I s)
    (hC : Along step C s as) (hrun : run step s as = some t) : I t := by
  induction as generalizing s with
  | nil =>
    rw [run_nil, some_inj] at hrun
    exact hrun ▸ hs
  | cons a as ih =>
    obtain ⟨u, hsu, hut⟩ := run_cons_eq_some.1 hrun
    exact ih (hstep s a u hs hC.1 hsu) (hC.2 u hsu) hut

/-- The same where every step is allowed. -/
theorem run_invariant (hstep : ∀ s a t, I s → step s a = some t → I t) (hs : I s)
    (hrun : run step s as = some t) : I t := by
  induction as generalizing s with
  | nil =>
    rw [run_nil, some_inj] at hrun
    exact hrun ▸ hs
  | cons a as ih =>
    obtain ⟨u, hsu, hut⟩ := run_cons_eq_some.1 hrun
    exact ih (hstep s a u hs hsu) hut

end Transition
