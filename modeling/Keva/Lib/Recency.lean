/-
# The time of the last touch

`Touches` counts calls and keeps, for each key, the number of the call that touched it last.
`ByRecency` says of a list that it has the key touched last in front, and so on down.  Moving
the key of a touch to the front keeps a list in this order (`ByRecency.touch`), and so does
leaving keys out (`ByRecency.sublist`).
-/

import Mathlib.Data.List.Pairwise
import Mathlib.Logic.Function.Basic
import Mathlib.Tactic.SplitIfs

namespace Keva

variable {κ : Type*}

/-- The number of calls so far, and for each key the number of the last one that touched it;
`0` for a key that has not been touched. -/
structure Touches (κ : Type*) where
  calls : ℕ
  last : κ → ℕ
  last_le : ∀ key, last key ≤ calls

namespace Touches

/-- Before the first call. -/
def none : Touches κ := ⟨0, fun _ => 0, fun _ => Nat.le_refl 0⟩

/-- A call that touches nothing. -/
def skip (t : Touches κ) : Touches κ :=
  ⟨t.calls + 1, t.last, fun key => Nat.le_succ_of_le (t.last_le key)⟩

/-- A call that touches `key`. -/
def touch [DecidableEq κ] (t : Touches κ) (key : κ) : Touches κ where
  calls := t.calls + 1
  last := Function.update t.last key (t.calls + 1)
  last_le k := by
    rw [Function.update_apply]
    split_ifs
    · exact Nat.le_refl _
    · exact Nat.le_succ_of_le (t.last_le k)

/-- The keys are in the order of their last touches, the latest first. -/
def ByRecency (t : Touches κ) (keys : List κ) : Prop :=
  keys.Pairwise fun a b => t.last b < t.last a

variable {t : Touches κ} {keys keys' : List κ}

/-- Taking keys off a list leaves the others in their order. -/
theorem ByRecency.sublist (h : t.ByRecency keys) (hsub : keys'.Sublist keys) : t.ByRecency keys' :=
  List.Pairwise.sublist hsub h

/-- **A touch moves its key to the front:** its time is later than those of all others. -/
theorem ByRecency.touch [DecidableEq κ] (h : t.ByRecency keys) {key : κ} (hkey : key ∉ keys) :
    (t.touch key).ByRecency (key :: keys) := by
  have hlast : ∀ k ∈ keys, (t.touch key).last k = t.last k := by
    intro k hk
    have hne : k ≠ key := by
      rintro rfl
      exact hkey hk
    exact Function.update_of_ne hne _ _
  constructor
  · intro k hk
    have hle := t.last_le k
    have hself : (t.touch key).last key = t.calls + 1 := Function.update_self ..
    rw [hlast k hk, hself]
    omega
  · refine List.Pairwise.imp_of_mem (fun ha hb hlt => ?_) h
    rwa [hlast _ ha, hlast _ hb]

end Touches

end Keva
