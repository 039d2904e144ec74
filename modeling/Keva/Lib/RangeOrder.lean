/-
# Ranging over a finite map in no particular order

A loop over a hash map visits each key once, in an order the program may not
rely on.  `RangeOrder` is one such choice of order: for every map a list of its
keys without repetition.  Definitions take it as an argument and theorems
quantify over it, so they hold for whatever order a run happens to meet.

A loop that may drop the entry it stands on (`eraseIf`) removes exactly the
entries that meet the test, in whatever order it ranges (`lookup_range_eraseIf`).
-/

import Mathlib.Data.Finmap
import Mathlib.Data.Finset.Sort

namespace Keva

/-- A finite map from `κ` to `β`. -/
abbrev Dict (κ β : Type*) := Finmap fun _ : κ => β

/-- The order in which loops range over maps: the keys of each map, each once. -/
structure RangeOrder (κ β : Type*) where
  keys : Dict κ β → List κ
  nodup : ∀ m, (keys m).Nodup
  mem_keys : ∀ {m k}, k ∈ keys m ↔ k ∈ m

namespace RangeOrder

variable {κ β : Type*}

/-- Ranging in increasing order of the keys. -/
def sorted (r : κ → κ → Prop) [DecidableRel r] [IsTrans κ r] [Std.Antisymm r] [Std.Total r] :
    RangeOrder κ β where
  keys m := m.keys.sort r
  nodup m := m.keys.sort_nodup r
  mem_keys := by simp [Finmap.mem_keys]

/-- The same order, by an insertion sort, which evaluates by itself. -/
def insertionSorted (r : κ → κ → Prop) [DecidableRel r] [IsTrans κ r] [Std.Antisymm r]
    [Std.Total r] : RangeOrder κ β where
  keys m := Quot.liftOn m.keys.val (List.insertionSort r) fun l l' h =>
    ((List.perm_insertionSort r l).trans (h.trans (List.perm_insertionSort r l').symm)).eq_of_pairwise'
      (List.pairwise_insertionSort r l) (List.pairwise_insertionSort r l')
  nodup m := by
    obtain ⟨⟨l⟩, hl⟩ := m.keys
    exact (List.perm_insertionSort r l).nodup_iff.2 hl
  mem_keys {m k} := by
    rw [← Finmap.mem_keys]
    obtain ⟨⟨l⟩, hl⟩ := m.keys
    exact List.mem_insertionSort r

/-- There is nothing to iterate over in an empty map. -/
@[simp] theorem keys_empty (o : RangeOrder κ β) : o.keys ∅ = [] :=
  List.eq_nil_iff_forall_not_mem.2 fun _ h => Finmap.notMem_empty (o.mem_keys.1 h)

end RangeOrder

variable {κ β : Type*} [DecidableEq κ]

/-- The map without `k` if its entry meets `p`, and unchanged otherwise. -/
def eraseIf (p : β → Bool) (m : Dict κ β) (k : κ) : Dict κ β :=
  if (m.lookup k).any p then m.erase k else m

/-- Of one key at most the entry goes, and it goes if the condition holds of it. -/
theorem lookup_eraseIf (p : β → Bool) (m : Dict κ β) (k k' : κ) :
    (eraseIf p m k).lookup k' =
      if k' = k then (m.lookup k').filter (fun b => !p b) else m.lookup k' := by
  by_cases hk : k' = k
  · subst hk
    rw [if_pos rfl, eraseIf]
    cases h : m.lookup k' with
    | none => simp [h]
    | some b => by_cases hp : p b <;> simp [h, hp, Option.filter]
  · rw [if_neg hk, eraseIf]
    split_ifs
    · exact Finmap.lookup_erase_ne hk
    · rfl

/-- The same for a list of keys, in any order and with repetitions. -/
theorem lookup_foldl_eraseIf (p : β → Bool) (ks : List κ) (m : Dict κ β) (k : κ) :
    (ks.foldl (eraseIf p) m).lookup k =
      if k ∈ ks then (m.lookup k).filter (fun b => !p b) else m.lookup k := by
  induction ks generalizing m with
  | nil => simp
  | cons k' ks ih =>
    rw [List.foldl_cons, ih, lookup_eraseIf]
    by_cases hk : k = k'
    · subst hk
      simp [Option.filter_filter]
    · simp [hk]

/-- **A loop that drops what meets the test leaves the rest,** in whatever order
it ranges. -/
theorem lookup_range_eraseIf (p : β → Bool) (o : RangeOrder κ β) (m : Dict κ β) (k : κ) :
    ((o.keys m).foldl (eraseIf p) m).lookup k = (m.lookup k).filter fun b => !p b := by
  rw [lookup_foldl_eraseIf]
  split_ifs with hk
  · rfl
  · rw [o.mem_keys, ← Finmap.lookup_eq_none] at hk
    rw [hk]
    rfl

end Keva
