/-
# Majorities

Any two majorities of a list of members have a member in common
(`Majority.inter_nonempty`).  So where a member supports one choice at most, two
choices that have a majority each are the same (`Majority.choice_eq`).
-/

import Mathlib.Data.Finset.Card
import Mathlib.Data.Finset.Dedup

namespace Keva

variable {α β : Type*} [DecidableEq α] {members : List α} {Q Q' : Finset α}

/-- More than half of the members.  They are a list, of which half is taken rounded down. -/
structure Majority (members : List α) (Q : Finset α) : Prop where
  subset : Q ⊆ members.toFinset
  half_lt : members.length / 2 < Q.card

/-- **Two majorities of one set have a member in common:** together they have more members than
there are. -/
theorem Majority.inter_nonempty (h : Majority members Q) (h' : Majority members Q') :
    (Q ∩ Q').Nonempty := by
  refine Finset.inter_nonempty_of_card_lt_card_add_card h.subset h'.subset ?_
  have hcard := List.toFinset_card_le members
  have hhalf := h.half_lt
  have hhalf' := h'.half_lt
  omega

/-- **At most one choice has a majority,** where every member supports one choice at most: the
member that two majorities share supports both. -/
theorem Majority.choice_eq {supports : α → β → Prop}
    (hone : ∀ v c c', supports v c → supports v c' → c = c') (h : Majority members Q)
    (h' : Majority members Q') {c c' : β} (hc : ∀ v ∈ Q, supports v c)
    (hc' : ∀ v ∈ Q', supports v c') : c = c' := by
  obtain ⟨v, hv⟩ := h.inter_nonempty h'
  obtain ⟨hvQ, hvQ'⟩ := Finset.mem_inter.1 hv
  exact hone v c c' (hc v hvQ) (hc' v hvQ')

end Keva
