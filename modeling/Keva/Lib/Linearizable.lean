/-
# Operations that overlap

A history is what the callers of an object see: invocations and returns, each with the time
at which it happens.  It is linearizable if the operations can be put in one order, which
includes all that have returned, keeps the order of any two that do not overlap, and is one
the object could have gone through sequentially (`Linearizable`).  A result may depend on a
reading of the clock; the reading lies between invocation and return.

An implementation is linearizable if each operation can be given its place in the order at
some step between its invocation and its return.  The result need not be known there: an
operation that leaves the state alone may take its place and learn its result later.  `Slot` is
such a place, and `Tracks` with its rules `inv`, `place`, `fill` and `ret` is what each kind of
step keeps (`linearization_of_tracks`).
-/

import Mathlib.Data.List.Nodup
import Mathlib.Order.Defs.LinearOrder

namespace Keva
namespace Linearizable

variable {ι σ Op Ret τ : Type*}

/-! ### Histories -/

/-- An operation is invoked, or returns; `i` says which one, and `t` is what a clock shows. -/
inductive Event (ι Op Ret τ : Type*)
  | inv (i : ι) (op : Op) (t : τ)
  | ret (i : ι) (r : Ret) (t : τ)

/-- A sequential object: what an operation with its result does to the state, and which results it
may have at a reading of the clock. -/
structure Spec (σ Op Ret τ : Type*) where
  next : σ → Op → Ret → σ
  allows : σ → Op → Ret → τ → Prop

/-- An operation with its result and its reading of the clock: what it is at the moment it takes
effect. -/
structure Point (ι Op Ret τ : Type*) where
  id : ι
  op : Op
  out : Ret
  time : τ

/-- The object can go through these operations, one after the other. -/
def Spec.Legal (spec : Spec σ Op Ret τ) : σ → List (Point ι Op Ret τ) → Prop
  | _, [] => True
  | s, x :: xs => spec.allows s x.op x.out x.time ∧ spec.Legal (spec.next s x.op x.out) xs

section Order

variable [LE τ]

/-- One order for the operations of a history: every operation that has returned is in it, with
its result; each was invoked before, and read the clock in between; and an operation that
returned before another was invoked comes before it. -/
structure Linearization (legal : List (Point ι Op Ret τ) → Prop) (h : List (Event ι Op Ret τ))
    (order : List (Point ι Op Ret τ)) : Prop where
  legal : legal order
  nodup : (order.map Point.id).Nodup
  invoked : ∀ x ∈ order, ∃ t ≤ x.time, .inv x.id x.op t ∈ h
  returned : ∀ {i r t}, .ret i r t ∈ h → ∃ x ∈ order, x.id = i ∧ x.out = r ∧ x.time ≤ t
  ordered : ∀ x ∈ order, ∀ y ∈ order, ∀ r t op t',
    [.ret x.id r t, .inv y.id op t'].Sublist h → [x, y].Sublist order

/-- The object seems to carry out one operation at a time. -/
def IsLinearizable (spec : Spec σ Op Ret τ) (s : σ) (h : List (Event ι Op Ret τ)) :
    Prop :=
  ∃ order, Linearization (spec.Legal s) h order

end Order

/-! ### Places in the order -/

/-- The place of an operation, and its result and reading of the clock once it has them. -/
structure Slot (ι Op Ret τ : Type*) where
  id : ι
  op : Op
  out : Option (Ret × τ)

/-- The point of a call that has taken effect. -/
def Slot.point (x : Slot ι Op Ret τ) : Option (Point ι Op Ret τ) :=
  x.out.map fun o => ⟨x.id, x.op, o.1, o.2⟩

variable {spec : Spec σ Op Ret τ} {s : σ} {slots : List (Slot ι Op Ret τ)}

/-- A slot is a point once its outcome is known. -/
theorem Slot.point_eq_some_iff {x : Slot ι Op Ret τ} {p : Point ι Op Ret τ} :
    x.point = some p ↔ p.id = x.id ∧ p.op = x.op ∧ x.out = some (p.out, p.time) := by
  obtain ⟨id, op, out⟩ := x
  obtain ⟨id', op', r, t⟩ := p
  rw [point, Option.map_eq_some_iff]
  constructor
  · rintro ⟨o, ho, heq⟩
    cases heq
    exact ⟨rfl, rfl, ho⟩
  · rintro ⟨rfl, rfl, ho⟩
    exact ⟨(r, t), ho, rfl⟩

/-- The state after an operation, which stays where no result is known. -/
def Spec.nextSlot (spec : Spec σ Op Ret τ) (s : σ) (x : Slot ι Op Ret τ) : σ :=
  match x.out with
  | none => s
  | some o => spec.next s x.op o.1

/-- The state after these operations. -/
def Spec.after (spec : Spec σ Op Ret τ) (s : σ) (slots : List (Slot ι Op Ret τ)) : σ :=
  slots.foldl spec.nextSlot s

/-- The state after a list of slots can be computed in two parts. -/
theorem Spec.after_append (s : σ) (slots slots' : List (Slot ι Op Ret τ)) :
    spec.after s (slots ++ slots') = spec.after (spec.after s slots) slots' :=
  List.foldl_append

/-- Results that are known are allowed. -/
def Spec.Fits (spec : Spec σ Op Ret τ) : σ → List (Slot ι Op Ret τ) → Prop
  | _, [] => True
  | s, x :: xs => (∀ o ∈ x.out, spec.allows s x.op o.1 o.2) ∧ spec.Fits (spec.nextSlot s x) xs

/-- What holds at the place of operation `i`. -/
def Spec.At (spec : Spec σ Op Ret τ) (i : ι) (P : σ → Op → Prop) : σ → List (Slot ι Op Ret τ) → Prop
  | _, [] => True
  | s, x :: xs => (x.id = i → P s x.op) ∧ spec.At i P (spec.nextSlot s x) xs

/-- Outcomes fit a list of slots if they fit its two parts, the second from where the first ends. -/
theorem Spec.fits_append {slots' : List (Slot ι Op Ret τ)} :
    spec.Fits s (slots ++ slots') ↔ spec.Fits s slots ∧ spec.Fits (spec.after s slots) slots' := by
  induction slots generalizing s with
  | nil => exact ⟨fun h => ⟨trivial, h⟩, And.right⟩
  | cons x xs ih =>
    rw [List.cons_append, Fits, Fits, ih]
    exact and_assoc.symm

/-- What holds wherever a call stands holds so in each part. -/
theorem Spec.at_append {i : ι} {P : σ → Op → Prop} {slots' : List (Slot ι Op Ret τ)} :
    spec.At i P s (slots ++ slots') ↔
      spec.At i P s slots ∧ spec.At i P (spec.after s slots) slots' := by
  induction slots generalizing s with
  | nil => exact ⟨fun h => ⟨trivial, h⟩, And.right⟩
  | cons x xs ih =>
    rw [List.cons_append, At, At, ih]
    exact and_assoc.symm

/-- A weaker property holds where a stronger one does. -/
theorem Spec.At.mono {i : ι} {P Q : σ → Op → Prop} (hPQ : ∀ s op, P s op → Q s op)
    (h : spec.At i P s slots) : spec.At i Q s slots := by
  induction slots generalizing s with
  | nil => trivial
  | cons x xs ih => exact ⟨fun hx => hPQ _ _ (h.1 hx), ih h.2⟩

/-- Of a call that stands nowhere everything holds. -/
theorem Spec.at_of_forall_ne {i : ι} (P : σ → Op → Prop) (h : ∀ x ∈ slots, x.id ≠ i) (s : σ) :
    spec.At i P s slots := by
  induction slots generalizing s with
  | nil => trivial
  | cons x xs ih =>
    exact ⟨fun hx => absurd hx (h x List.mem_cons_self),
      ih (fun y hy => h y (List.mem_cons_of_mem _ hy)) _⟩

/-- Places without a result are left out, and what is left is a legal order: they leave the state
where it is. -/
theorem Spec.Fits.legal (h : spec.Fits s slots) : spec.Legal s (slots.filterMap Slot.point) := by
  induction slots generalizing s with
  | nil => trivial
  | cons x xs ih =>
    cases hout : x.out with
    | none =>
      have hpoint : x.point = none := by rw [Slot.point, hout, Option.map_none]
      have hrest := ih h.2
      rw [Spec.nextSlot, hout] at hrest
      rwa [List.filterMap_cons_none hpoint]
    | some o =>
      have hpoint : x.point = some ⟨x.id, x.op, o.1, o.2⟩ := by
        rw [Slot.point, hout, Option.map_some]
      have hrest := ih h.2
      rw [Spec.nextSlot, hout] at hrest
      rw [List.filterMap_cons_some hpoint]
      exact ⟨h.1 o hout, hrest⟩

/-- The state after operations with their results. -/
def Spec.result (spec : Spec σ Op Ret τ) (s : σ) (order : List (Point ι Op Ret τ)) : σ :=
  order.foldl (fun s x => spec.next s x.op x.out) s

/-- Places without a result have no point. -/
theorem ids_sublist (slots : List (Slot ι Op Ret τ)) :
    ((slots.filterMap Slot.point).map Point.id).Sublist (slots.map Slot.id) := by
  induction slots with
  | nil => exact .slnil
  | cons x xs ih =>
    cases hpoint : x.point with
    | none =>
      rw [List.filterMap_cons_none hpoint]
      exact ih.cons x.id
    | some p =>
      rw [List.filterMap_cons_some hpoint, List.map_cons, List.map_cons,
        (Slot.point_eq_some_iff.1 hpoint).1]
      exact ih.cons_cons x.id

/-- The operation has no result, and the one it gets leaves the state alone. -/
structure Spec.Quiet (spec : Spec σ Op Ret τ) (s : σ) (slots : List (Slot ι Op Ret τ)) (i : ι)
    (o : Ret × τ) : Prop where
  isOpen : ∀ x ∈ slots, x.id = i → x.out = none
  same : spec.At i (fun s op => spec.next s op o.1 = s) s slots

/-- Quiet over a list is quiet over the rest of it, from the state after its head. -/
theorem Spec.Quiet.tail {i : ι} {o : Ret × τ} {x : Slot ι Op Ret τ}
    (h : spec.Quiet s (x :: slots) i o) : spec.Quiet (spec.nextSlot s x) slots i o :=
  ⟨fun y hy => h.isOpen y (List.mem_cons_of_mem _ hy), h.same.2⟩

section Fill

variable [DecidableEq ι]

/-- Operation `i` gets its result. -/
def Slot.fill (i : ι) (o : Ret × τ) (x : Slot ι Op Ret τ) : Slot ι Op Ret τ :=
  if x.id = i then { x with out := some o } else x

/-- Filling in an outcome leaves the identity of the call. -/
@[simp] theorem Slot.id_fill (i : ι) (o : Ret × τ) (x : Slot ι Op Ret τ) : (x.fill i o).id = x.id := by
  unfold fill
  split_ifs <;> rfl

/-- Filling in an outcome leaves the operation of the call. -/
@[simp] theorem Slot.op_fill (i : ι) (o : Ret × τ) (x : Slot ι Op Ret τ) : (x.fill i o).op = x.op := by
  unfold fill
  split_ifs <;> rfl

/-- One slot that is filled in quietly leads to the same state. -/
theorem Spec.Quiet.nextSlot {i : ι} {o : Ret × τ} {x : Slot ι Op Ret τ}
    (h : spec.Quiet s (x :: slots) i o) : spec.nextSlot s (x.fill i o) = spec.nextSlot s x := by
  unfold Slot.fill
  split_ifs with hx
  · rw [Spec.nextSlot, Spec.nextSlot, h.isOpen x List.mem_cons_self hx]
    exact h.same.1 hx
  · rfl

/-- **A quiet outcome may be filled in late:** the state after the list is the one it was without
it. -/
theorem Spec.Quiet.after_fill {i : ι} {o : Ret × τ} (h : spec.Quiet s slots i o) :
    spec.after s (slots.map (Slot.fill i o)) = spec.after s slots := by
  induction slots generalizing s with
  | nil => rfl
  | cons x xs ih =>
    show spec.after (spec.nextSlot s (x.fill i o)) _ = spec.after (spec.nextSlot s x) xs
    rw [h.nextSlot, ih h.tail]

/-- And what holds where another call stands is the same with it and without it. -/
theorem Spec.Quiet.at_fill {i j : ι} {P : σ → Op → Prop} {o : Ret × τ}
    (h : spec.Quiet s slots i o) :
    spec.At j P s (slots.map (Slot.fill i o)) ↔ spec.At j P s slots := by
  induction slots generalizing s with
  | nil => exact Iff.rfl
  | cons x xs ih => rw [List.map_cons, At, At, Slot.id_fill, Slot.op_fill, h.nextSlot, ih h.tail]

/-- **A result is filled in** that is allowed at its place.  It changes no state, so that the
results after it are still allowed. -/
theorem Spec.Quiet.fits_fill {i : ι} {o : Ret × τ} (h : spec.Quiet s slots i o)
    (hfits : spec.Fits s slots) (hi : spec.At i (fun s op => spec.allows s op o.1 o.2) s slots) :
    spec.Fits s (slots.map (Slot.fill i o)) := by
  induction slots generalizing s with
  | nil => trivial
  | cons x xs ih =>
    rw [List.map_cons, Fits, Slot.op_fill, h.nextSlot]
    refine ⟨?_, ih h.tail hfits.2 hi.2⟩
    unfold Slot.fill
    split_ifs with hx
    · rintro o' ho'
      obtain rfl := Option.some.inj ho'
      exact hi.1 hx
    · exact hfits.1

end Fill

/-! ### The order and the history -/

/-- A pair of events in a history with one more event. -/
theorem pair_sublist_concat {h : List (Event ι Op Ret τ)} {e e₁ e₂ : Event ι Op Ret τ}
    (hs : [e₁, e₂].Sublist (h ++ [e])) : [e₁, e₂].Sublist h ∨ e₂ = e ∧ e₁ ∈ h := by
  rw [List.sublist_append_iff] at hs
  obtain ⟨l₁, l₂, heq, hl₁, hl₂⟩ := hs
  rcases List.sublist_singleton.1 hl₂ with rfl | rfl
  · rw [List.append_nil] at heq
    exact Or.inl (heq ▸ hl₁)
  · obtain ⟨hl, he⟩ := List.append_inj' (show [e₁] ++ [e₂] = l₁ ++ [e] from heq) rfl
    exact Or.inr ⟨(List.singleton_inj.1 he), List.singleton_sublist.1 (hl ▸ hl₁)⟩

section Order

variable [LE τ]

/-- The places go with the history: every place was invoked, every result that was returned is at
its place, and operations that did not overlap are in the order in which they were made. -/
structure Tracks (h : List (Event ι Op Ret τ)) (slots : List (Slot ι Op Ret τ)) : Prop where
  nodup : (slots.map Slot.id).Nodup
  invoked : ∀ x ∈ slots, ∃ t, .inv x.id x.op t ∈ h ∧ ∀ o ∈ x.out, t ≤ o.2
  returned : ∀ {i r t}, .ret i r t ∈ h → ∃ x ∈ slots, x.id = i ∧ ∃ t' ≤ t, x.out = some (r, t')
  ordered : ∀ x ∈ slots, ∀ y ∈ slots, ∀ r t op t',
    [.ret x.id r t, .inv y.id op t'].Sublist h → [x, y].Sublist slots

variable {h : List (Event ι Op Ret τ)} {i : ι} {op : Op} {t : τ}

/-- **An operation is invoked** that has no place yet.  The order of the places is not concerned. -/
theorem Tracks.inv (ht : Tracks h slots) (hnew : ∀ x ∈ slots, x.id ≠ i) (op : Op) (t : τ) :
    Tracks (h ++ [.inv i op t]) slots := by
  refine ⟨ht.nodup, fun x hx => ?_, fun {j r t'} hr => ?_, fun x hx y hy r t₁ op' t₂ hs => ?_⟩
  · obtain ⟨t', hinv, hle⟩ := ht.invoked x hx
    exact ⟨t', List.mem_append_left _ hinv, hle⟩
  · rcases List.mem_append.1 hr with hr | hr
    · exact ht.returned hr
    · cases List.mem_singleton.1 hr
  · rcases pair_sublist_concat hs with hs | ⟨heq, -⟩
    · exact ht.ordered x hx y hy r t₁ op' t₂ hs
    · cases heq
      exact absurd rfl (hnew y hy)

/-- **An operation that was invoked takes the last place,** with or without its result.  It has
not returned yet, so that nothing has to come after it. -/
theorem Tracks.place (ht : Tracks h slots) (hnew : ∀ x ∈ slots, x.id ≠ i)
    (hinv : .inv i op t ∈ h) (out : Option (Ret × τ)) (hout : ∀ o ∈ out, t ≤ o.2) :
    Tracks h (slots ++ [⟨i, op, out⟩]) := by
  have hsub : slots.Sublist (slots ++ [⟨i, op, out⟩]) := List.sublist_append_left _ _
  -- It has not returned, since what has returned has a place.
  have hopen : ∀ r t', .ret i r t' ∉ h := by
    intro r t' hr
    obtain ⟨x, hx, hid, -⟩ := ht.returned hr
    exact hnew x hx hid
  refine ⟨?_, fun x hx => ?_, fun {j r t'} hr => ?_, fun x hx y hy r t₁ op' t₂ hs => ?_⟩
  · rw [List.map_append, List.nodup_append]
    refine ⟨ht.nodup, List.nodup_singleton _, fun a ha b hb => ?_⟩
    obtain ⟨x, hx, rfl⟩ := List.mem_map.1 ha
    rw [List.mem_singleton.1 hb]
    exact hnew x hx
  · rcases List.mem_append.1 hx with hx | hx
    · exact ht.invoked x hx
    · rw [List.mem_singleton.1 hx]
      exact ⟨t, hinv, hout⟩
  · obtain ⟨x, hx, hout⟩ := ht.returned hr
    exact ⟨x, List.mem_append_left _ hx, hout⟩
  · rcases List.mem_append.1 hx with hx | hx
    · rcases List.mem_append.1 hy with hy | hy
      · exact (ht.ordered x hx y hy r t₁ op' t₂ hs).trans hsub
      · rw [List.mem_singleton.1 hy]
        exact (List.singleton_sublist.2 hx).append (.refl _)
    · rw [List.mem_singleton.1 hx] at hs
      exact absurd (hs.subset List.mem_cons_self) (hopen r t₁)

/-- **An operation gets its result,** at a time after it was invoked.  Nothing of the order
changes. -/
theorem Tracks.fill [DecidableEq ι] (ht : Tracks h slots) {o : Ret × τ}
    (hopen : ∀ x ∈ slots, x.id = i → x.out = none)
    (htime : ∀ x ∈ slots, x.id = i → ∃ t ≤ o.2, .inv i x.op t ∈ h) :
    Tracks h (slots.map (Slot.fill i o)) := by
  refine ⟨?_, fun y hy => ?_, fun {j r t} hr => ?_, fun y hy z hz r t₁ op t₂ hs => ?_⟩
  · have hids : (slots.map (Slot.fill i o)).map Slot.id = slots.map Slot.id := by
      rw [List.map_map]
      exact List.map_congr_left fun x _ => Slot.id_fill i o x
    rw [hids]
    exact ht.nodup
  · obtain ⟨x, hx, rfl⟩ := List.mem_map.1 hy
    rw [Slot.id_fill, Slot.op_fill]
    by_cases hi : x.id = i
    · obtain ⟨t, hle, hinv⟩ := htime x hx hi
      refine ⟨t, hi ▸ hinv, fun o' ho' => ?_⟩
      rw [Slot.fill, if_pos hi] at ho'
      obtain rfl := Option.some.inj ho'
      exact hle
    · rw [Slot.fill, if_neg hi]
      exact ht.invoked x hx
  · obtain ⟨x, hx, rfl, t', hle, hout⟩ := ht.returned hr
    refine ⟨x.fill i o, List.mem_map_of_mem hx, Slot.id_fill i o x, t', hle, ?_⟩
    have hi : x.id ≠ i := by
      intro hi
      rw [hopen x hx hi] at hout
      cases hout
    rw [Slot.fill, if_neg hi, hout]
  · obtain ⟨x, hx, rfl⟩ := List.mem_map.1 hy
    obtain ⟨x', hx', rfl⟩ := List.mem_map.1 hz
    rw [Slot.id_fill, Slot.id_fill] at hs
    exact (ht.ordered x hx x' hx' r t₁ op t₂ hs).map (Slot.fill i o)

/-- **An operation returns** the result that it has.  What was invoked so far is not after it. -/
theorem Tracks.ret (ht : Tracks h slots) {x : Slot ι Op Ret τ} (hx : x ∈ slots) {r : Ret} {t' : τ}
    (hout : x.out = some (r, t')) (hle : t' ≤ t) : Tracks (h ++ [.ret x.id r t]) slots := by
  refine ⟨ht.nodup, fun y hy => ?_, fun {j r₁ t₁} hr => ?_, fun y hy z hz r₁ t₁ op t₂ hs => ?_⟩
  · obtain ⟨t₀, hinv, hle⟩ := ht.invoked y hy
    exact ⟨t₀, List.mem_append_left _ hinv, hle⟩
  · rcases List.mem_append.1 hr with hr | hr
    · exact ht.returned hr
    · cases List.mem_singleton.1 hr
      exact ⟨x, hx, rfl, t', hle, hout⟩
  · rcases pair_sublist_concat hs with hs | ⟨heq, -⟩
    · exact ht.ordered y hy z hz r₁ t₁ op t₂ hs
    · cases heq

/-- **The places are a linearization,** those without a result left out: they have changed
nothing and returned nothing. -/
theorem linearization_of_tracks (ht : Tracks h slots) (hfits : spec.Fits s slots) :
    Linearization (spec.Legal s) h (slots.filterMap Slot.point) := by
  have hmem : ∀ {p}, p ∈ slots.filterMap Slot.point →
      ∃ x ∈ slots, p.id = x.id ∧ p.op = x.op ∧ x.out = some (p.out, p.time) := by
    intro p hp
    obtain ⟨x, hx, hpoint⟩ := List.mem_filterMap.1 hp
    exact ⟨x, hx, Slot.point_eq_some_iff.1 hpoint⟩
  refine ⟨hfits.legal, ?_, fun p hp => ?_, fun {i r t} hr => ?_, fun p hp q hq r t op t' hs => ?_⟩
  · exact ht.nodup.sublist (ids_sublist slots)
  · obtain ⟨x, hx, hid, hop, hout⟩ := hmem hp
    obtain ⟨t, hinv, hle⟩ := ht.invoked x hx
    exact ⟨t, hle _ hout, hid ▸ hop ▸ hinv⟩
  · obtain ⟨x, hx, rfl, t', hle, hout⟩ := ht.returned hr
    refine ⟨⟨x.id, x.op, r, t'⟩, List.mem_filterMap.2 ⟨x, hx, ?_⟩, rfl, rfl, hle⟩
    exact Slot.point_eq_some_iff.2 ⟨rfl, rfl, hout⟩
  · obtain ⟨x, hx, hid, hop, hout⟩ := hmem hp
    obtain ⟨y, hy, hid', hop', hout'⟩ := hmem hq
    rw [hid, hid'] at hs
    have hsub := (ht.ordered x hx y hy r t op t' hs).filterMap Slot.point
    rwa [List.filterMap_cons_some (Slot.point_eq_some_iff.2 ⟨hid, hop, hout⟩),
      List.filterMap_cons_some (Slot.point_eq_some_iff.2 ⟨hid', hop', hout'⟩)] at hsub

end Order

end Linearizable
end Keva
