/-
# Maps whose entries expire

A content assigns to a key a value with a deadline, or nothing.  A reader at
time `t` sees an entry up to and including its deadline (`visible`); a loader at
time `t` keeps only an entry whose deadline is still ahead (`loaded`).  Both
forget more as time goes on, so two contents that show the same at `t` show the
same at every later time: `AgreeFrom t` is that relation, and it is what
survives when one side has already dropped an expired entry and the other has
not.

A write sets or deletes one key.  Writes on different keys commute
(`replay_append_cons`), which is why a list of outstanding writes may be
carried out in any order that keeps the order of each key.
-/

import Mathlib.Order.Lattice
import Mathlib.Logic.Function.Basic
import Mathlib.Data.Option.Basic
import Mathlib.Data.List.Induction

namespace Keva
namespace Expiry

variable {κ ν τ : Type*}

/-- What is stored under each key: a value and its deadline. -/
abbrev Content (κ ν τ : Type*) := κ → Option (ν × τ)

section Time

variable [LinearOrder τ] {t t' : τ} {o o' : Option (ν × τ)}

/-- What a reader at time `t` sees of an entry: nothing once `t` is after the
deadline. -/
def visible (t : τ) (o : Option (ν × τ)) : Option (ν × τ) := o.filter fun e => decide (t ≤ e.2)

/-- What a loader at time `t` keeps of an entry: nothing unless `t` is before
the deadline. -/
def loaded (t : τ) (o : Option (ν × τ)) : Option (ν × τ) := o.filter fun e => decide (t < e.2)

/-- Where there is no entry, none is visible. -/
@[simp] theorem visible_none (t : τ) : visible t (none : Option (ν × τ)) = none := rfl

/-- Where there is no entry, none is loaded. -/
@[simp] theorem loaded_none (t : τ) : loaded t (none : Option (ν × τ)) = none := rfl

/-- An entry is visible up to its expiry, the moment of the expiry included. -/
theorem visible_some (t : τ) (v : ν) (e : τ) :
    visible t (some (v, e)) = if t ≤ e then some (v, e) else none := by
  simp [visible, Option.filter]

/-- An entry is loaded before its expiry, the moment of the expiry excluded. -/
theorem loaded_some (t : τ) (v : ν) (e : τ) :
    loaded t (some (v, e)) = if t < e then some (v, e) else none := by
  simp [loaded, Option.filter]

/-- What is visible is what is there and has not expired. -/
theorem visible_eq_some_iff {v : ν} {e : τ} :
    visible t o = some (v, e) ↔ o = some (v, e) ∧ t ≤ e := by
  simp [visible, Option.filter_eq_some_iff]

/-- What is loaded is what is there and expires later. -/
theorem loaded_eq_some_iff {v : ν} {e : τ} :
    loaded t o = some (v, e) ↔ o = some (v, e) ∧ t < e := by
  simp [loaded, Option.filter_eq_some_iff]

/-- A later reader sees nothing that an earlier one did not. -/
theorem visible_visible (h : t ≤ t') (o : Option (ν × τ)) :
    visible t' (visible t o) = visible t' o := by
  rcases o with _ | ⟨v, e⟩
  · rfl
  · rw [visible_some t]
    split_ifs with he
    · rfl
    · rw [visible_some, if_neg fun h' => he (h.trans h'), visible_none]

/-- What was loaded at `t` shows every later reader what the entry itself
shows. -/
theorem visible_loaded (h : t < t') (o : Option (ν × τ)) :
    visible t' (loaded t o) = visible t' o := by
  rcases o with _ | ⟨v, e⟩
  · rfl
  · rw [loaded_some]
    split_ifs with he
    · rfl
    · rw [visible_some, if_neg fun h' => he (h.trans_le h'), visible_none]

/-- A later loader keeps nothing that an earlier one did not. -/
theorem loaded_loaded (h : t ≤ t') (o : Option (ν × τ)) :
    loaded t' (loaded t o) = loaded t' o := by
  rcases o with _ | ⟨v, e⟩
  · rfl
  · rw [loaded_some t]
    split_ifs with he
    · rfl
    · rw [loaded_some, if_neg fun h' => he (h.trans_lt h'), loaded_none]

/-- Two entries that no loader from time `t` on tells apart: the same one, or both
expired by then. -/
theorem forall_loaded_eq_iff {v : ν} {e : τ} :
    (∀ t' ≥ t, loaded t' (some (v, e)) = loaded t' o) ↔
      o = some (v, e) ∨ e ≤ t ∧ loaded t o = none := by
  constructor
  · intro h
    have ht := h t le_rfl
    rw [loaded_some] at ht
    split_ifs at ht with he
    · exact Or.inl (loaded_eq_some_iff.1 ht.symm).1
    · exact Or.inr ⟨not_lt.1 he, ht.symm⟩
  · rintro (rfl | ⟨he, ho⟩) t' ht
    · rfl
    · rw [loaded_some, if_neg (not_lt.2 (he.trans ht)), ← loaded_loaded ht, ho, loaded_none]

/-- Two contents that no reader from time `t` on can tell apart, whatever entries that have
expired either of them still holds. -/
def AgreeFrom (t : τ) (m m' : Content κ ν τ) : Prop := ∀ k, visible t (m k) = visible t (m' k)

variable {m m' m'' : Content κ ν τ}

/-- Contents agree with themselves. -/
theorem AgreeFrom.refl (t : τ) (m : Content κ ν τ) : AgreeFrom t m m := fun _ => rfl

/-- Agreement has no direction, unlike sweeping. -/
theorem AgreeFrom.symm (h : AgreeFrom t m m') : AgreeFrom t m' m := fun k => (h k).symm

/-- Contents that agree with a third from one moment on agree with each other from then on. -/
theorem AgreeFrom.trans (h : AgreeFrom t m m') (h' : AgreeFrom t m' m'') : AgreeFrom t m m'' :=
  fun k => (h k).trans (h' k)

/-- **Agreement outlives the moment it was established at:** what has expired stays expired. -/
theorem AgreeFrom.mono (h : AgreeFrom t m m') (ht : t ≤ t') : AgreeFrom t' m m' := fun k => by
  rw [← visible_visible ht (m k), ← visible_visible ht (m' k), h k]

/-- Contents of which everything has expired. -/
theorem agreeFrom_of_lt (h : ∀ k v e, m k = some (v, e) → e < t)
    (h' : ∀ k v e, m' k = some (v, e) → e < t) : AgreeFrom t m m' := by
  have hnone {o : Option (ν × τ)} (ho : ∀ v e, o = some (v, e) → e < t) : visible t o = none := by
    rcases o with _ | ⟨v, e⟩
    · rfl
    · rw [visible_some, if_neg (not_le.2 (ho v e rfl))]
  exact fun k => (hnone (h k)).trans (hnone (h' k)).symm

/-- What shows every reader after `t` the same is loaded the same at `t`. -/
theorem loaded_eq_of_visible_eq (h : ∀ t' > t, visible t' o = visible t' o') :
    loaded t o = loaded t o' := by
  refine Option.ext fun ⟨v, e⟩ => ?_
  rw [loaded_eq_some_iff, loaded_eq_some_iff]
  have hvis (ht : t < e) : visible e o = some (v, e) ↔ visible e o' = some (v, e) := by rw [h e ht]
  simp only [visible_eq_some_iff, le_rfl, and_true] at hvis
  exact ⟨fun ⟨ho, ht⟩ => ⟨(hvis ht).1 ho, ht⟩, fun ⟨ho, ht⟩ => ⟨(hvis ht).2 ho, ht⟩⟩

/-- What is loaded the same at `t` shows every reader after `t` the same. -/
theorem visible_eq_of_loaded_eq (h : loaded t o = loaded t o') (ht : t < t') :
    visible t' o = visible t' o' := by
  rw [← visible_loaded ht o, h, visible_loaded ht]

/-- Dropping what is no longer visible on some of the keys is not seen. -/
theorem agreeFrom_of_visible_or_eq (h : ∀ k, m' k = visible t (m k) ∨ m' k = m k) :
    AgreeFrom t m' m := fun k => by
  rcases h k with h | h
  · rw [h, visible_visible le_rfl]
  · rw [h]

/-- `m'` is `m` without some of the entries that are not visible at `t`. -/
def Swept (t : τ) (m m' : Content κ ν τ) : Prop :=
  ∀ k, m' k = m k ∨ m' k = none ∧ visible t (m k) = none

/-- A sweep may find nothing to remove. -/
theorem Swept.refl (t : τ) (m : Content κ ν τ) : Swept t m m := fun _ => Or.inl rfl

/-- What was no longer visible at one moment is not visible at a later one. -/
theorem Swept.mono (h : Swept t m m') (ht : t ≤ t') : Swept t' m m' := by
  intro k
  refine (h k).imp_right fun hk => ⟨hk.1, ?_⟩
  rw [← visible_visible ht, hk.2, visible_none]

/-- **A sweep does not show:** what is visible before and after it is the same. -/
theorem Swept.visible_eq (h : Swept t m m') (k : κ) : visible t (m' k) = visible t (m k) := by
  rcases h k with heq | ⟨hnone, hgone⟩
  · rw [heq]
  · rw [hnone, hgone, visible_none]

/-- More is dropped. -/
theorem Swept.sweep (h : Swept t m m') : Swept t m fun k => visible t (m' k) := by
  intro k
  dsimp only
  rw [h.visible_eq k]
  rcases hm : m k with _ | ⟨v, e⟩
  · exact Or.inl rfl
  · rw [visible_some]
    split_ifs
    · exact Or.inl rfl
    · exact Or.inr ⟨rfl, rfl⟩

/-- One more entry is dropped, which an earlier reader did not see. -/
theorem Swept.drop (h : Swept t' m m') (ht : t ≤ t') (k : κ) :
    visible t (m' k) = m k ∨ visible t (m' k) = none ∧ visible t' (m k) = none := by
  rcases h k with heq | ⟨hnone, hgone⟩
  · rw [heq]
    rcases hm : m k with _ | ⟨v, e⟩
    · exact Or.inl rfl
    · by_cases he : t ≤ e
      · exact Or.inl (by rw [visible_some, if_pos he])
      · exact Or.inr ⟨by rw [visible_some, if_neg he],
          by rw [visible_some, if_neg fun he' => he (ht.trans he')]⟩
  · rw [hnone]
    exact Or.inr ⟨rfl, hgone⟩

end Time

/-! ### Writes -/

/-- A write of one key: a value with its expiry, or none. -/
inductive Write (κ ν τ : Type*)
  | set (k : κ) (v : ν) (e : τ)
  | del (k : κ)
  deriving DecidableEq

namespace Write

/-- The key a write is about. -/
def key : Write κ ν τ → κ
  | set k _ _ => k
  | del k => k

/-- What a write leaves under its key. -/
def entry : Write κ ν τ → Option (ν × τ)
  | set _ v e => some (v, e)
  | del _ => none

variable [DecidableEq κ]

/-- The content after a write. -/
def apply (w : Write κ ν τ) (m : Content κ ν τ) : Content κ ν τ := Function.update m w.key w.entry

/-- A write decides what its key has, whatever it had before. -/
@[simp] theorem apply_key (w : Write κ ν τ) (m : Content κ ν τ) : w.apply m w.key = w.entry :=
  Function.update_self ..

/-- A write leaves every other key alone. -/
theorem apply_of_ne {w : Write κ ν τ} {k : κ} (h : k ≠ w.key) (m : Content κ ν τ) :
    w.apply m k = m k :=
  Function.update_of_ne h ..

/-- Writes of different keys commute. -/
theorem apply_comm {w w' : Write κ ν τ} (h : w.key ≠ w'.key) (m : Content κ ν τ) :
    w.apply (w'.apply m) = w'.apply (w.apply m) :=
  Function.update_comm h.symm ..

end Write

variable [DecidableEq κ]

/-- The content after a list of writes, the first one first. -/
def replay (ws : List (Write κ ν τ)) (m : Content κ ν τ) : Content κ ν τ :=
  ws.foldl (fun m w => w.apply m) m

/-- Nothing is replayed. -/
@[simp] theorem replay_nil (m : Content κ ν τ) : replay [] m = m := rfl

/-- Replaying goes from the first write to the last. -/
@[simp] theorem replay_cons (w : Write κ ν τ) (ws : List (Write κ ν τ)) (m : Content κ ν τ) :
    replay (w :: ws) m = replay ws (w.apply m) := rfl

/-- A replay can be split anywhere. -/
@[simp] theorem replay_append (ws ws' : List (Write κ ν τ)) (m : Content κ ν τ) :
    replay (ws ++ ws') m = replay ws' (replay ws m) :=
  List.foldl_append

/-- **A write may overtake writes of other keys.**  Writes of one key cannot be exchanged, as the
last one decides. -/
theorem replay_append_cons {ws : List (Write κ ν τ)} {w : Write κ ν τ}
    (h : ∀ w' ∈ ws, w'.key ≠ w.key) (ws' : List (Write κ ν τ)) (m : Content κ ν τ) :
    replay (ws ++ w :: ws') m = replay (ws ++ ws') (w.apply m) := by
  induction ws generalizing m with
  | nil => rfl
  | cons w' ws ih =>
    have hne : w'.key ≠ w.key := h w' List.mem_cons_self
    rw [List.cons_append, List.cons_append, replay_cons, replay_cons,
      ih fun x hx => h x (List.mem_cons_of_mem _ hx), Write.apply_comm hne.symm]

/-- A key no write is about keeps its entry. -/
theorem replay_of_forall_ne {ws : List (Write κ ν τ)} {k : κ} (h : ∀ w ∈ ws, w.key ≠ k)
    (m : Content κ ν τ) : replay ws m k = m k := by
  induction ws generalizing m with
  | nil => rfl
  | cons w ws ih =>
    rw [replay_cons, ih fun x hx => h x (List.mem_cons_of_mem _ hx),
      Write.apply_of_ne (h w List.mem_cons_self).symm]

/-- The last write about `k`. -/
def lastOn (k : κ) (ws : List (Write κ ν τ)) : Option (Write κ ν τ) :=
  (ws.filter fun w => w.key = k).getLast?

/-- The last write on a key is one of the writes, and on that key. -/
theorem mem_of_lastOn {k : κ} {ws : List (Write κ ν τ)} {w : Write κ ν τ}
    (h : lastOn k ws = some w) : w ∈ ws ∧ w.key = k := by
  have hmem := List.mem_of_getLast? h
  rwa [List.mem_filter, decide_eq_true_iff] at hmem

/-- **The last write about a key decides what is stored under it,** and what was there before, if
there is no such write. -/
theorem replay_apply (ws : List (Write κ ν τ)) (m : Content κ ν τ) (k : κ) :
    replay ws m k = ((lastOn k ws).map Write.entry).getD (m k) := by
  induction ws using List.reverseRecOn with
  | nil => rfl
  | append_singleton ws w ih =>
    rw [replay_append, replay_cons, replay_nil]
    by_cases hk : w.key = k
    · subst hk
      simp [lastOn]
    · rw [Write.apply_of_ne (Ne.symm hk), ih]
      simp [lastOn, hk]

/-- The same write on a content and on what is left of it. -/
theorem Swept.apply [LinearOrder τ] {t : τ} {m m' : Content κ ν τ} (h : Swept t m m')
    (w : Write κ ν τ) : Swept t (w.apply m) (w.apply m') := by
  intro k
  by_cases hk : k = w.key
  · rw [hk, Write.apply_key, Write.apply_key]
    exact Or.inl rfl
  · rw [Write.apply_of_ne hk, Write.apply_of_ne hk]
    exact h k

/-- What is stored where there was nothing was set by one of the writes. -/
theorem exists_mem_of_replay_eq_some {ws : List (Write κ ν τ)} {m : Content κ ν τ} {k : κ}
    (hm : m k = none) {x : ν × τ} (h : replay ws m k = some x) :
    ∃ w ∈ ws, w.key = k ∧ w.entry = some x := by
  rw [replay_apply, hm] at h
  cases hlast : lastOn k ws with
  | none => simp [hlast] at h
  | some w =>
    obtain ⟨hmem, hkey⟩ := mem_of_lastOn hlast
    exact ⟨w, hmem, hkey, by simpa [hlast] using h⟩

/-- There is no last write on a key exactly if no write is on it. -/
theorem lastOn_eq_none_iff {k : κ} {ws : List (Write κ ν τ)} :
    lastOn k ws = none ↔ ∀ w ∈ ws, w.key ≠ k := by
  simp [lastOn]

/-- **One set per entry of a content puts it over what was there,** in whatever
order and however often. -/
theorem replay_sets {ws : List (Write κ ν τ)} {m : Content κ ν τ}
    (h : ∀ w, w ∈ ws ↔ ∃ k v e, m k = some (v, e) ∧ w = .set k v e) (m₀ : Content κ ν τ) (k : κ) :
    replay ws m₀ k = (m k).or (m₀ k) := by
  rw [replay_apply]
  cases hlast : lastOn k ws with
  | some w =>
    obtain ⟨hmem, hkey⟩ := mem_of_lastOn hlast
    obtain ⟨k', v, e, hm, rfl⟩ := (h w).1 hmem
    obtain rfl : k' = k := hkey
    rw [hm]
    rfl
  | none =>
    cases hm : m k with
    | none => rfl
    | some x =>
      have hmem : Write.set k x.1 x.2 ∈ ws := (h _).2 ⟨k, x.1, x.2, hm, rfl⟩
      exact absurd rfl (lastOn_eq_none_iff.1 hlast _ hmem)

section Agree

variable [LinearOrder τ] {t : τ} {m m' : Content κ ν τ}

/-- **A write keeps agreement:** on its own key both contents get the same entry, and on every
other key they stay as they are. -/
theorem AgreeFrom.apply (h : AgreeFrom t m m') (w : Write κ ν τ) :
    AgreeFrom t (w.apply m) (w.apply m') := fun k => by
  by_cases hk : k = w.key
  · rw [hk, Write.apply_key, Write.apply_key]
  · rw [Write.apply_of_ne hk, Write.apply_of_ne hk, h k]

/-- The same writes on contents that agree give contents that agree. -/
theorem AgreeFrom.replay (h : AgreeFrom t m m') (ws : List (Write κ ν τ)) :
    AgreeFrom t (replay ws m) (replay ws m') := by
  induction ws generalizing m m' with
  | nil => exact h
  | cons w ws ih => exact ih (h.apply w)

/-- **Writes that are in force may be repeated:** where each of them shows what is
there anyway, they change nothing that can be seen. -/
theorem AgreeFrom.replay_of_inForce (h : AgreeFrom t m m') {ws : List (Write κ ν τ)}
    (hws : ∀ w ∈ ws, visible t w.entry = visible t (m' w.key)) :
    AgreeFrom t (Expiry.replay ws m) m' := by
  induction ws generalizing m with
  | nil => exact h
  | cons w ws ih =>
    have hone : AgreeFrom t (w.apply m) m' := fun k => by
      by_cases hk : k = w.key
      · rw [hk, Write.apply_key]
        exact hws w List.mem_cons_self
      · rw [Write.apply_of_ne hk, h k]
    exact ih hone fun x hx => hws x (List.mem_cons_of_mem _ hx)

end Agree

end Expiry
end Keva
