/-
# States reached step by step

A machine is a partial step function: `step s a` is the state after action `a`,
or `none` where `a` cannot happen in `s`.  `Reach step ok s₀` are the states it
reaches from `s₀` by steps that meet a condition `ok` on the action and the state
before it.  What holds at the start and is kept by every such step holds wherever
the machine gets to (`Reach.invariant`).
-/

import Mathlib.Data.Nat.Notation
import Mathlib.Data.Option.Basic
import Mathlib.Tactic.SplitIfs

namespace Keva

variable {σ α : Type*}

/-- The states reached from `s₀` by steps that meet `ok`.  `step` is a function that may refuse
an action; `ok` is what an assumption on the environment rules out. -/
inductive Reach (step : σ → α → Option σ) (ok : σ → α → Prop) (s₀ : σ) : σ → Prop
  | refl : Reach step ok s₀ s₀
  | tail {s s' : σ} (a : α) : Reach step ok s₀ s → ok s a → step s a = some s' →
      Reach step ok s₀ s'

variable {step : σ → α → Option σ} {ok : σ → α → Prop} {s₀ s : σ}

/-- **What every step keeps holds throughout,** if it holds at the start.  By induction on the
run, which its users need not make again. -/
theorem Reach.invariant {P : σ → Prop} (h₀ : P s₀)
    (hstep : ∀ s a s', P s → ok s a → step s a = some s' → P s') (h : Reach step ok s₀ s) : P s := by
  induction h with
  | refl => exact h₀
  | tail a _ hok hs ih => exact hstep _ a _ ih hok hs

/-- A run is one under any weaker condition. -/
theorem Reach.mono {ok' : σ → α → Prop} (hok : ∀ s a, ok s a → ok' s a)
    (h : Reach step ok s₀ s) : Reach step ok' s₀ s := by
  induction h with
  | refl => exact .refl
  | tail a _ ha hs ih => exact .tail a ih (hok _ a ha) hs

/-- A run from where another one ended. -/
theorem Reach.trans {s' : σ} (h : Reach step ok s₀ s) (h' : Reach step ok s s') :
    Reach step ok s₀ s' := by
  induction h' with
  | refl => exact h
  | tail a _ hok hs ih => exact .tail a ih hok hs

/-- An entry of a list changes, and what is read of it does not. -/
theorem map_set_eq {f : σ → α} {l : List σ} {i : ℕ} {x y : σ} (hi : l[i]? = some x)
    (hf : f y = f x) : (l.set i y).map f = l.map f := by
  obtain ⟨hlt, rfl⟩ := List.getElem?_eq_some_iff.1 hi
  rw [List.map_set, hf, ← List.map_set, List.set_getElem_self]

/-- The state after a list of actions, if each of them can happen and meets the
condition. -/
def runAll (step : σ → α → Option σ) (ok : σ → α → Prop) [∀ s a, Decidable (ok s a)] (s : σ) :
    List α → Option σ
  | [] => some s
  | a :: as => if ok s a then (step s a).bind fun s' => runAll step ok s' as else none

/-- What a list of actions leads to is reached. -/
theorem reach_of_runAll [∀ s a, Decidable (ok s a)] {as : List α}
    (h : runAll step ok s₀ as = some s) : Reach step ok s₀ s := by
  have hgen : ∀ (as : List α) (s₁ : σ), Reach step ok s₀ s₁ →
      runAll step ok s₁ as = some s → Reach step ok s₀ s := by
    intro as
    induction as with
    | nil =>
      intro s₁ h₁ hrun
      exact Option.some.inj hrun ▸ h₁
    | cons a as ih =>
      intro s₁ h₁ hrun
      rw [runAll] at hrun
      split_ifs at hrun with hok
      obtain ⟨s₂, hs, hrun⟩ := Option.bind_eq_some_iff.1 hrun
      exact ih s₂ (.tail a h₁ hok hs) hrun
  exact hgen as s₀ .refl h

end Keva
