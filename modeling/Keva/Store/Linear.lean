/-
# The store seems to carry out one call at a time

Any number of goroutines call `SetWithExpiry`, `Get` and `Delete` on one store
(`storage/store/kv_store.go`), and each call takes its steps one by one: a write appends to the
log and then enters its shard; `Get` looks the record up under the read lock, releases it, reads
the clock, and tells the policy.  The sweeper goes through the shards on the side.

Each call takes effect in one of these steps, a write when it enters its shard and a `Get` when
it looks the record up.  So a specification that these steps keep to, one by one (`Implements`), is
one that the calls keep to as a whole: they can be put in one order that every one of them agrees
with (`Clients.isLinearizable`).

A store without a budget is a map with deadlines (`calls_linearizable`).  The clock of a `Get` is
read later than its record: a `Get` may find a record, and miss it because it expires before the
clock is read.  The specification says so, a `Get` being judged by its own reading of the clock,
which is taken between its call and its return.  `Delete` reads no clock, and may or may not find
what has expired.
-/

import Keva.Lib.Linearizable
import Keva.Lib.Reach
import Keva.Store.Restart

namespace Keva
namespace Store

open Eviction (Range)
open Expiry (Content Write visible Swept)
open Linearizable (Event Spec Slot Tracks IsLinearizable linearization_of_tracks)

/-! ### Calls and what they return -/

/-- What a client may call: a call that changes the store, or `Get`. -/
inductive Request
  | write (c : Call)
  | get (key : Key)
  deriving DecidableEq

/-- What a call returns: the error of a write, or what a `Get` found. -/
inductive Answer
  | wrote (err : Option Err)
  | read (r : Except Err Bytes)
  deriving DecidableEq

/-! ### Calls on their way -/

/-- Where a call stands: before its first step; a write that is in the log; a `Get` with what it
has found, and with a value before `AfterRead`; with its result; and at its end. -/
inductive Progress
  | called (req : Request)
  | appended (c : Call)
  | found (key : Key) (entry : Option (Bytes × Time))
  | touching (key : Key) (value : Bytes)
  | done (a : Answer)
  | returned
  deriving DecidableEq

/-- A store, the calls so far in the order in which they were made, and what their callers have
seen of them. -/
structure Clients where
  kv : KVStore
  clock : Time
  calls : List Progress
  history : List (Event ℕ Request Answer Time)

namespace Clients

/-- One step; numbers pick a call, for `sweep` a shard.  A write takes two steps between call and
return, and a `Get` three, between which others may run. -/
inductive Action
  | tick (t : Time)
  | invoke (req : Request)
  | append (i : ℕ)
  | apply (i : ℕ) (ranges : ℕ → Range)
  | lookup (i : ℕ)
  | readClock (i : ℕ)
  | afterRead (i : ℕ)
  | ret (i : ℕ)
  | sweep (j : ℕ) (range : Range) (now : Time)

/-- The call moves on. -/
def move (s : Clients) (i : ℕ) (p : Progress) : Clients := { s with calls := s.calls.set i p }

/-- A call is made, gets through its sections one by one and returns, each at the time of the
clock, which does not go back.  The sweeper takes one shard at a time, with a reading that may be
an earlier one. -/
def step (s : Clients) : Action → Option Clients
  | .tick t => if s.clock ≤ t then some { s with clock := t } else none
  | .invoke req =>
    some { s with calls := s.calls ++ [.called req],
                  history := s.history ++ [.inv s.calls.length req s.clock] }
  | .append i =>
    match s.calls[i]? with
    | some (.called (.write c)) => do
      -- A key without a shard takes the process down right after the append.
      let _ ← s.kv.getShard c.key
      return { s.move i (.appended c) with kv := s.kv.append c.record }
    | _ => none
  | .apply i ranges =>
    match s.calls[i]? with
    | some (.appended c) => do
      let (kv, err) ← c.applyTo ranges s.kv s.clock
      return { s.move i (.done (.wrote err)) with kv := kv }
    | _ => none
  | .lookup i =>
    match s.calls[i]? with
    | some (.called (.get key)) => do
      let j ← s.kv.getShard key
      let shard ← s.kv.shards[j]?
      return s.move i (.found key (shard.content key))
    | _ => none
  | .readClock i =>
    match s.calls[i]? with
    | some (.found key entry) =>
      match entry with
      | none => some (s.move i (.done (.read (.error .keyNotFound))))
      | some (value, expiredAt) =>
        if expiredAt < s.clock then some (s.move i (.done (.read (.error .keyNotFound))))
        else some (s.move i (.touching key value))
    | _ => none
  | .afterRead i =>
    match s.calls[i]? with
    | some (.touching key value) => do
      let j ← s.kv.getShard key
      let shard ← s.kv.shards[j]?
      return { s.move i (.done (.read (.ok value))) with
        kv := s.kv.setShard j { shard with policy := shard.policy.afterRead key } }
    | _ => none
  | .ret i =>
    match s.calls[i]? with
    | some (.done a) =>
      some { s.move i .returned with history := s.history ++ [.ret i a s.clock] }
    | _ => none
  | .sweep j range now => do
    let shard ← s.kv.shards[j]?
    if now ≤ s.clock then return { s with kv := s.kv.setShard j (shard.sweep range now) } else none

/-- Nobody has called yet. -/
def start (kv : KVStore) (t : Time) : Clients := ⟨kv, t, [], []⟩

end Clients

/-! ### What a step does -/

/-- A step with what it takes for granted and what it leads to. -/
inductive ClientsStep (s : Clients) : Clients.Action → Clients → Prop
  | tick {t : Time} (ht : s.clock ≤ t) : ClientsStep s (.tick t) { s with clock := t }
  | invoke (req : Request) :
      ClientsStep s (.invoke req)
        { s with calls := s.calls ++ [.called req],
                 history := s.history ++ [.inv s.calls.length req s.clock] }
  | append {i j : ℕ} {c : Call} (hi : s.calls[i]? = some (.called (.write c)))
      (hkey : s.kv.getShard c.key = some j) :
      ClientsStep s (.append i) { s.move i (.appended c) with kv := s.kv.append c.record }
  | apply {i : ℕ} {c : Call} {ranges : ℕ → Range} {kv : KVStore} {err : Option Err}
      (hi : s.calls[i]? = some (.appended c))
      (hkv : c.applyTo ranges s.kv s.clock = some (kv, err)) :
      ClientsStep s (.apply i ranges) { s.move i (.done (.wrote err)) with kv := kv }
  | lookup {i : ℕ} {key : Key} (hi : s.calls[i]? = some (.called (.get key))) :
      ClientsStep s (.lookup i) (s.move i (.found key (s.kv.content key)))
  | miss {i : ℕ} {key : Key} {entry : Option (Bytes × Time)}
      (hi : s.calls[i]? = some (.found key entry)) (hgone : visible s.clock entry = none) :
      ClientsStep s (.readClock i) (s.move i (.done (.read (.error .keyNotFound))))
  | hit {i : ℕ} {key : Key} {value : Bytes} {expiredAt : Time}
      (hi : s.calls[i]? = some (.found key (some (value, expiredAt))))
      (hlive : visible s.clock (some (value, expiredAt)) = some (value, expiredAt)) :
      ClientsStep s (.readClock i) (s.move i (.touching key value))
  | afterRead {i j : ℕ} {key : Key} {value : Bytes} {shard : Shard}
      (hi : s.calls[i]? = some (.touching key value)) (hkey : s.kv.getShard key = some j)
      (hshard : s.kv.shards[j]? = some shard) :
      ClientsStep s (.afterRead i)
        { s.move i (.done (.read (.ok value))) with
          kv := s.kv.setShard j { shard with policy := shard.policy.afterRead key } }
  | ret {i : ℕ} {a : Answer} (hi : s.calls[i]? = some (.done a)) :
      ClientsStep s (.ret i)
        { s.move i .returned with history := s.history ++ [.ret i a s.clock] }
  | sweep {j : ℕ} {shard : Shard} {now : Time} (range : Range) (hshard : s.kv.shards[j]? = some shard)
      (hnow : now ≤ s.clock) :
      ClientsStep s (.sweep j range now) { s with kv := s.kv.setShard j (shard.sweep range now) }

namespace Clients

variable {s s' : Clients} {a : Action}

/-- **Every step is one of `ClientsStep`,** which says what becomes of the one call that it
moves. -/
theorem clientsStep_of_step (hs : s.step a = some s') : ClientsStep s a s' := by
  cases a with
  | tick t =>
    simp only [step] at hs
    split_ifs at hs with ht
    exact Option.some.inj hs ▸ .tick ht
  | invoke req => exact Option.some.inj hs ▸ .invoke req
  | append i =>
    simp only [step] at hs
    split at hs
    · rename_i c hi
      obtain ⟨j, hkey, hs⟩ := Option.bind_eq_some_iff.1 hs
      exact Option.some.inj hs ▸ .append hi hkey
    · cases hs
  | apply i ranges =>
    simp only [step] at hs
    split at hs
    · rename_i c hi
      obtain ⟨⟨kv, err⟩, hkv, hs⟩ := Option.bind_eq_some_iff.1 hs
      exact Option.some.inj hs ▸ .apply hi hkv
    · cases hs
  | lookup i =>
    simp only [step] at hs
    split at hs
    · rename_i key hi
      obtain ⟨j, hkey, hs⟩ := Option.bind_eq_some_iff.1 hs
      obtain ⟨shard, hshard, hs⟩ := Option.bind_eq_some_iff.1 hs
      rw [← Option.some.inj hs, ← KVStore.content_of_getShard hkey hshard]
      exact .lookup hi
    · cases hs
  | readClock i =>
    simp only [step] at hs
    split at hs
    · rename_i key entry hi
      split at hs
      · exact Option.some.inj hs ▸ .miss hi rfl
      · rename_i value expiredAt
        split_ifs at hs with hexpired
        · refine Option.some.inj hs ▸ .miss hi ?_
          rw [Expiry.visible_some, if_neg (not_le.2 hexpired)]
        · refine Option.some.inj hs ▸ .hit hi ?_
          rw [Expiry.visible_some, if_pos (not_lt.1 hexpired)]
    · cases hs
  | afterRead i =>
    simp only [step] at hs
    split at hs
    · rename_i key value hi
      obtain ⟨j, hkey, hs⟩ := Option.bind_eq_some_iff.1 hs
      obtain ⟨shard, hshard, hs⟩ := Option.bind_eq_some_iff.1 hs
      exact Option.some.inj hs ▸ .afterRead hi hkey hshard
    · cases hs
  | ret i =>
    simp only [step] at hs
    split at hs
    · rename_i a hi
      exact Option.some.inj hs ▸ .ret hi
    · cases hs
  | sweep j range now =>
    obtain ⟨shard, hshard, hs⟩ := Option.bind_eq_some_iff.1 hs
    split_ifs at hs with hnow
    exact Option.some.inj hs ▸ .sweep range hshard hnow

end Clients

/-! ### Specifications that the steps keep to -/

/-- A specification of the store. -/
abbrev StoreSpec := Spec (Content Key Bytes Time) Request Answer Time

/-- The answer of a `Get` that has found `entry` and reads the clock at `t`. -/
def getAnswer (t : Time) (entry : Option (Bytes × Time)) : Answer :=
  .read (KVStore.answer (visible t entry))

/-- The specification, in state `m`, lets a `Get` that has found `entry` answer at `t` what it does,
and stays as it is. -/
def Shows (spec : StoreSpec) (m : Content Key Bytes Time) (key : Key) (entry : Option (Bytes × Time))
    (t : Time) : Prop :=
  spec.allows m (.get key) (getAnswer t entry) t ∧ spec.next m (.get key) (getAnswer t entry) = m

/-- **The steps of the store keep to a specification:** `R t m kv` relates the store at time `t` to
the state of the specification, and each critical section keeps it. -/
structure Implements (spec : StoreSpec) (R : Time → Content Key Bytes Time → KVStore → Prop) :
    Prop where
  mono : ∀ {t t' m kv}, R t m kv → t ≤ t' → R t' m kv
  append : ∀ {t m kv} (r : Wal.Record), R t m kv → R t m (kv.append r)
  apply : ∀ {t m kv kv' err ranges} {c : Call}, R t m kv →
    c.applyTo ranges kv t = some (kv', err) →
      spec.allows m (.write c) (.wrote err) t ∧ R t (spec.next m (.write c) (.wrote err)) kv'
  get : ∀ {t t' m kv} (key : Key), R t m kv → t ≤ t' → Shows spec m key (kv.content key) t'
  afterRead : ∀ {t m kv j key} {shard : Shard}, R t m kv → kv.getShard key = some j →
    kv.shards[j]? = some shard →
      R t m (kv.setShard j { shard with policy := shard.policy.afterRead key })
  sweep : ∀ {t m kv j now} {shard : Shard} (range : Range), R t m kv →
    kv.shards[j]? = some shard → now ≤ t → R t m (kv.setShard j (shard.sweep range now))

namespace Clients

/-! ### Each call has its place -/

section Places

variable {s s' : Clients} {a : Action} {spec : StoreSpec}
  {R : Time → Content Key Bytes Time → KVStore → Prop}
  {m₀ : Content Key Bytes Time} {slots slots' : List (Slot ℕ Request Answer Time)}

/-- Call `i` was made, by now, and is in the history with the time at which it was. -/
def Invoked (s : Clients) (i : ℕ) (req : Request) : Prop := ∃ t ≤ s.clock, .inv i req t ∈ s.history

/-- What is known of a call where it stands.  A `Get` that has found an entry has its place, and
may answer from there at any later time what it has found. -/
def Holds (spec : StoreSpec) (m₀ : Content Key Bytes Time) (s : Clients)
    (slots : List (Slot ℕ Request Answer Time)) (i : ℕ) : Progress → Prop
  | .called req => s.Invoked i req ∧ ∀ x ∈ slots, x.id ≠ i
  | .appended c => s.Invoked i (.write c) ∧ ∀ x ∈ slots, x.id ≠ i
  | .found key entry => s.Invoked i (.get key) ∧ (∃ x ∈ slots, x.id = i) ∧
      (∀ x ∈ slots, x.id = i → x.op = .get key ∧ x.out = none) ∧
      spec.At i (fun m req => req = .get key ∧ ∀ t, s.clock ≤ t → Shows spec m key entry t) m₀ slots
  | .touching _ value => ∃ x ∈ slots, x.id = i ∧ ∃ t ≤ s.clock, x.out = some (.read (.ok value), t)
  | .done a => ∃ x ∈ slots, x.id = i ∧ ∃ t ≤ s.clock, x.out = some (a, t)
  | .returned => True

/-- The places of the calls, and the store after them: it refines the content that the calls lead
to in the order of their places. -/
structure Inv (spec : StoreSpec) (R : Time → Content Key Bytes Time → KVStore → Prop)
    (m₀ : Content Key Bytes Time) (s : Clients) (slots : List (Slot ℕ Request Answer Time)) :
    Prop where
  refines : R s.clock (spec.after m₀ slots) s.kv
  tracks : Tracks s.history slots
  fits : spec.Fits m₀ slots
  lt : ∀ x ∈ slots, x.id < s.calls.length
  holds : ∀ {i p}, s.calls[i]? = some p → Holds spec m₀ s slots i p

/-- The order is the same as far as call `i` is concerned: it has the place it had, and what was
known there still holds. -/
structure SameFor (spec : StoreSpec) (m₀ : Content Key Bytes Time) (i : ℕ)
    (slots slots' : List (Slot ℕ Request Answer Time)) : Prop where
  mem_iff : ∀ x, x.id = i → (x ∈ slots' ↔ x ∈ slots)
  keeps : ∀ {P}, spec.At i P m₀ slots → spec.At i P m₀ slots'

/-- Nothing has been placed. -/
theorem SameFor.refl (i : ℕ) : SameFor spec m₀ i slots slots := ⟨fun _ _ => Iff.rfl, fun h => h⟩

/-- Another call that is placed at the end is no concern of this one. -/
theorem SameFor.place {i : ℕ} {x : Slot ℕ Request Answer Time} (hx : x.id ≠ i) :
    SameFor spec m₀ i slots (slots ++ [x]) := by
  constructor
  · intro y hy
    rw [List.mem_append, List.mem_singleton]
    refine or_iff_left ?_
    rintro rfl
    exact hx hy
  · intro P hP
    exact Spec.at_append.2 ⟨hP, fun hid => absurd hid hx, trivial⟩

/-- Another call whose outcome is filled in quietly is no concern of this one either. -/
theorem SameFor.fill {i j : ℕ} (hij : i ≠ j) {o : Answer × Time} (hquiet : spec.Quiet m₀ slots j o) :
    SameFor spec m₀ i slots (slots.map (Slot.fill j o)) := by
  constructor
  · intro x hx
    rw [List.mem_map]
    constructor
    · rintro ⟨y, hy, rfl⟩
      rw [Slot.id_fill] at hx
      rwa [Slot.fill, if_neg (hx ▸ hij)]
    · exact fun hmem => ⟨x, hmem, by rw [Slot.fill, if_neg (hx ▸ hij)]⟩
  · exact fun hP => hquiet.at_fill.2 hP

/-- Time passes, and others move on.  What is known about call `i` depends on its own place only,
and on history and clock, which grow. -/
theorem Holds.mono {i : ℕ} {p : Progress} (h : Holds spec m₀ s slots i p)
    (hclock : s.clock ≤ s'.clock) (hhist : ∀ e ∈ s.history, e ∈ s'.history)
    (hsame : SameFor spec m₀ i slots slots') : Holds spec m₀ s' slots' i p := by
  have hinvoked : ∀ req, s.Invoked i req → s'.Invoked i req := by
    rintro req ⟨t, ht, hmem⟩
    exact ⟨t, ht.trans hclock, hhist _ hmem⟩
  have hnone : (∀ x ∈ slots, x.id ≠ i) → ∀ x ∈ slots', x.id ≠ i :=
    fun hne x hx hid => hne x ((hsame.mem_iff x hid).1 hx) hid
  have hout : ∀ {a}, (∃ x ∈ slots, x.id = i ∧ ∃ t ≤ s.clock, x.out = some (a, t)) →
      ∃ x ∈ slots', x.id = i ∧ ∃ t ≤ s'.clock, x.out = some (a, t) := by
    rintro a ⟨x, hx, hid, t, ht, ho⟩
    exact ⟨x, (hsame.mem_iff x hid).2 hx, hid, t, ht.trans hclock, ho⟩
  cases p with
  | called req => exact ⟨hinvoked req h.1, hnone h.2⟩
  | appended c => exact ⟨hinvoked _ h.1, hnone h.2⟩
  | found key entry =>
    obtain ⟨hinv, ⟨x, hx, hid⟩, hopen, hat⟩ := h
    refine ⟨hinvoked _ hinv, ⟨x, (hsame.mem_iff x hid).2 hx, hid⟩, fun y hy hid' => ?_, ?_⟩
    · exact hopen y ((hsame.mem_iff y hid').1 hy) hid'
    · exact (hsame.keeps hat).mono fun m req hm => ⟨hm.1, fun t ht => hm.2 t (hclock.trans ht)⟩
  | touching key value => exact hout h
  | done a => exact hout h
  | returned => trivial

/-- A call after one of them has moved on. -/
theorem calls_move {i j : ℕ} {p q : Progress} (hj : (s.move i p).calls[j]? = some q) :
    j = i ∧ q = p ∨ j ≠ i ∧ s.calls[j]? = some q := by
  change (s.calls.set i p)[j]? = some q at hj
  by_cases hji : j = i
  · subst hji
    have hlt : j < (s.calls.set j p).length := (List.getElem?_eq_some_iff.1 hj).1
    rw [List.length_set] at hlt
    rw [List.getElem?_set_self hlt] at hj
    exact Or.inl ⟨rfl, (Option.some.inj hj).symm⟩
  · rw [List.getElem?_set_ne (Ne.symm hji)] at hj
    exact Or.inr ⟨hji, hj⟩

/-- **A call moves on:** what holds of it now, and what changes for the others. -/
theorem Inv.move (h : Inv spec R m₀ s slots) {i : ℕ} {p : Progress} {kv : KVStore}
    {history : List (Event ℕ Request Answer Time)}
    (hrefines : R s.clock (spec.after m₀ slots') kv) (htracks : Tracks history slots')
    (hfits : spec.Fits m₀ slots') (hlt : ∀ x ∈ slots', x.id < s.calls.length)
    (hhist : ∀ e ∈ s.history, e ∈ history) (hsame : ∀ j, j ≠ i → SameFor spec m₀ j slots slots')
    (hp : Holds spec m₀ { s.move i p with kv := kv, history := history } slots' i p) :
    Inv spec R m₀ { s.move i p with kv := kv, history := history } slots' := by
  refine ⟨hrefines, htracks, hfits, fun x hx => ?_, fun {j q} hj => ?_⟩
  · show x.id < (s.calls.set i p).length
    rw [List.length_set]
    exact hlt x hx
  · rcases calls_move (p := p) hj with ⟨rfl, rfl⟩ | ⟨hne, hj⟩
    · exact hp
    · exact (h.holds hj).mono le_rfl hhist (hsame j hne)

/-! ### Every step keeps it -/

/-- A call is made.  Its number is new, and it has no place in the order until it takes effect. -/
theorem Inv.invoke (h : Inv spec R m₀ s slots) (req : Request) :
    Inv spec R m₀ { s with calls := s.calls ++ [.called req],
                           history := s.history ++ [.inv s.calls.length req s.clock] } slots := by
  have hnew : ∀ x ∈ slots, x.id ≠ s.calls.length := fun x hx => (h.lt x hx).ne
  refine ⟨h.refines, h.tracks.inv hnew req s.clock, h.fits, fun x hx => ?_, fun {i p} hi => ?_⟩
  · show x.id < (s.calls ++ _).length
    rw [List.length_append]
    exact (h.lt x hx).trans_le (Nat.le_add_right _ _)
  · change (s.calls ++ [.called req])[i]? = some p at hi
    by_cases hlt : i < s.calls.length
    · rw [List.getElem?_append_left hlt] at hi
      exact (h.holds hi).mono le_rfl (fun e he => List.mem_append_left _ he) (.refl i)
    · rw [List.getElem?_append_right (not_lt.1 hlt), List.getElem?_singleton] at hi
      split_ifs at hi with hlast
      obtain rfl : i = s.calls.length := by omega
      obtain rfl := Option.some.inj hi
      exact ⟨⟨s.clock, le_rfl, List.mem_append_right _ List.mem_cons_self⟩, hnew⟩

/-- The last place is that of a call that was made. -/
theorem Inv.lt_concat (h : Inv spec R m₀ s slots) {i : ℕ} {p : Progress}
    (hi : s.calls[i]? = some p) {op : Request} {out : Option (Answer × Time)} :
    ∀ x ∈ slots ++ [⟨i, op, out⟩], x.id < s.calls.length := by
  intro x hx
  rcases List.mem_append.1 hx with hx | hx
  · exact h.lt x hx
  · rw [List.mem_singleton.1 hx]
    exact (List.getElem?_eq_some_iff.1 hi).1

/-- **A write enters its shard,** and takes the last place: from now on every reader sees it. -/
theorem Inv.apply (himp : Implements spec R) (h : Inv spec R m₀ s slots) {i : ℕ} {c : Call}
    {ranges : ℕ → Range} {kv : KVStore} {err : Option Err} (hi : s.calls[i]? = some (.appended c))
    (hkv : c.applyTo ranges s.kv s.clock = some (kv, err)) :
    Inv spec R m₀ { s.move i (.done (.wrote err)) with kv := kv }
      (slots ++ [⟨i, .write c, some (.wrote err, s.clock)⟩]) := by
  obtain ⟨⟨t, ht, hinv⟩, hnew⟩ := h.holds hi
  obtain ⟨hallows, hrefines⟩ := himp.apply h.refines hkv
  refine h.move ?_ (h.tracks.place hnew hinv _ ?_) ?_ (h.lt_concat hi) (fun e he => he)
    (fun j hj => .place hj.symm) ?_
  · rw [Spec.after_append]
    exact hrefines
  · rintro o ho
    obtain rfl := Option.some.inj ho
    exact ht
  · refine Spec.fits_append.2 ⟨h.fits, fun o ho => ?_, trivial⟩
    obtain rfl := Option.some.inj ho
    exact hallows
  · exact ⟨_, List.mem_append_right _ List.mem_cons_self, rfl, s.clock, le_rfl, rfl⟩

/-- **A `Get` looks its record up,** and takes the last place; its result is not known before it
has read the clock. -/
theorem Inv.lookup (himp : Implements spec R) (h : Inv spec R m₀ s slots) {i : ℕ} {key : Key}
    (hi : s.calls[i]? = some (.called (.get key))) :
    Inv spec R m₀ (s.move i (.found key (s.kv.content key))) (slots ++ [⟨i, .get key, none⟩]) := by
  obtain ⟨⟨t, ht, hinv⟩, hnew⟩ := h.holds hi
  refine h.move ?_ (h.tracks.place hnew hinv none nofun) ?_ (h.lt_concat hi) (fun e he => he)
    (fun j hj => .place hj.symm) ?_
  · rw [Spec.after_append]
    exact h.refines
  · exact Spec.fits_append.2 ⟨h.fits, nofun, trivial⟩
  · refine ⟨⟨t, ht, hinv⟩, ⟨_, List.mem_append_right _ List.mem_cons_self, rfl⟩, fun x hx hid => ?_, ?_⟩
    · rcases List.mem_append.1 hx with hx | hx
      · exact absurd hid (hnew x hx)
      · rw [List.mem_singleton.1 hx]
        exact ⟨rfl, rfl⟩
    · exact Spec.at_append.2 ⟨Spec.at_of_forall_ne _ hnew _,
        fun _ => ⟨rfl, fun t ht => himp.get key h.refines ht⟩, trivial⟩

/-- **A `Get` reads the clock,** and gets its result at the place it has, which it took when it
looked its record up.  Reads change nothing, so that later places are not concerned. -/
theorem Inv.answer (h : Inv spec R m₀ s slots) {i : ℕ} {key : Key} {entry : Option (Bytes × Time)}
    (hi : s.calls[i]? = some (.found key entry)) {p : Progress}
    (hp : ∀ slots, (∃ x ∈ slots, x.id = i ∧ ∃ t ≤ s.clock,
      x.out = some (getAnswer s.clock entry, t)) → Holds spec m₀ (s.move i p) slots i p) :
    Inv spec R m₀ (s.move i p) (slots.map (Slot.fill i (getAnswer s.clock entry, s.clock))) := by
  obtain ⟨⟨t, ht, hinv⟩, ⟨x, hx, hid⟩, hopen, hat⟩ := h.holds hi
  have hquiet : spec.Quiet m₀ slots i (getAnswer s.clock entry, s.clock) := by
    refine ⟨fun y hy hy' => (hopen y hy hy').2, hat.mono fun m req hm => ?_⟩
    obtain ⟨rfl, hshows⟩ := hm
    exact (hshows s.clock le_rfl).2
  refine h.move ?_ (h.tracks.fill hquiet.isOpen fun y hy hy' => ?_)
    (hquiet.fits_fill h.fits (hat.mono fun m req hm => ?_)) ?_ (fun e he => he)
    (fun j hj => .fill hj hquiet) (hp _ ?_)
  · rw [hquiet.after_fill]
    exact h.refines
  · exact ⟨t, ht, (hopen y hy hy').1 ▸ hinv⟩
  · obtain ⟨rfl, hshows⟩ := hm
    exact (hshows s.clock le_rfl).1
  · intro y hy
    obtain ⟨z, hz, rfl⟩ := List.mem_map.1 hy
    rw [Slot.id_fill]
    exact h.lt z hz
  · refine ⟨_, List.mem_map_of_mem hx, (Slot.id_fill ..).trans hid, s.clock, le_rfl, ?_⟩
    rw [Slot.fill, if_pos hid]

/-- **Every step keeps the order.**  Only the two steps above give a place, and the others leave
the places or fill in a result. -/
theorem Inv.step (himp : Implements spec R) (h : Inv spec R m₀ s slots) (hs : s.step a = some s') :
    ∃ slots', Inv spec R m₀ s' slots' := by
  cases clientsStep_of_step hs with
  | tick ht =>
    exact ⟨slots, himp.mono h.refines ht, h.tracks, h.fits, h.lt,
      fun hi => (h.holds hi).mono ht (fun e he => he) (.refl _)⟩
  | invoke req => exact ⟨slots, h.invoke req⟩
  | append hi _ =>
    exact ⟨slots, h.move (himp.append _ h.refines) h.tracks h.fits h.lt (fun e he => he)
      (fun j _ => .refl j) (h.holds hi)⟩
  | apply hi hkv => exact ⟨_, h.apply himp hi hkv⟩
  | lookup hi => exact ⟨_, h.lookup himp hi⟩
  | miss hi hgone =>
    refine ⟨_, h.answer hi fun slots hslot => ?_⟩
    rwa [getAnswer, hgone] at hslot
  | hit hi hlive =>
    refine ⟨_, h.answer hi fun slots hslot => ?_⟩
    rwa [getAnswer, hlive] at hslot
  | afterRead hi hkey hshard =>
    exact ⟨slots, h.move (himp.afterRead h.refines hkey hshard) h.tracks h.fits h.lt
      (fun e he => he) (fun j _ => .refl j) (h.holds hi)⟩
  | ret hi =>
    obtain ⟨x, hx, rfl, t, ht, hout⟩ := h.holds hi
    exact ⟨slots, h.move h.refines (h.tracks.ret hx hout ht) h.fits h.lt
      (fun e he => List.mem_append_left _ he) (fun j _ => .refl j) trivial⟩
  | sweep range hshard hnow =>
    exact ⟨slots, himp.sweep range h.refines hshard hnow, h.tracks, h.fits, h.lt, h.holds⟩

/-- Nothing has been called. -/
theorem inv_start {kv : KVStore} {t : Time} (h : R t m₀ kv) : Inv spec R m₀ (start kv t) [] := by
  refine ⟨h, ⟨List.nodup_nil, ?_, ?_, ?_⟩, trivial, ?_, nofun⟩
  · exact fun x hx => absurd hx List.not_mem_nil
  · exact fun hr => absurd hr List.not_mem_nil
  · exact fun x hx => absurd hx List.not_mem_nil
  · exact fun x hx => absurd hx List.not_mem_nil

/-- **Every reachable state has a line-up** that explains it, for any specification that the
sections of the store implement. -/
theorem inv_of_reach (himp : Implements spec R) {kv : KVStore} {t : Time} (h : R t m₀ kv)
    (hs : Reach step (fun _ _ => True) (start kv t) s) : ∃ slots, Inv spec R m₀ s slots :=
  hs.invariant (P := fun s => ∃ slots, Inv spec R m₀ s slots) ⟨[], inv_start h⟩
    fun _ _ _ ⟨_, h⟩ _ hstep => h.step himp hstep

/-- **What each step keeps to, the calls keep to as a whole,** however they overlap. -/
theorem isLinearizable (himp : Implements spec R) {kv : KVStore} {t : Time} (h : R t m₀ kv)
    (hs : Reach step (fun _ _ => True) (start kv t) s) : IsLinearizable spec m₀ s.history := by
  obtain ⟨slots, hinv⟩ := inv_of_reach himp h hs
  exact ⟨_, linearization_of_tracks hinv.tracks hinv.fits⟩

end Places

/-! ### Calls are told apart -/

section Once

variable {s s' : Clients} {a : Action}

/-- No call is made twice: a number stands for one call in the history, made at one time. -/
structure CalledOnce (s : Clients) : Prop where
  lt : ∀ {i : ℕ} {req : Request} {t : Time}, .inv i req t ∈ s.history → i < s.calls.length
  unique : ∀ {i : ℕ} {req req' : Request} {t t' : Time}, .inv i req t ∈ s.history →
    .inv i req' t' ∈ s.history → req' = req ∧ t' = t

/-- No new call is made. -/
theorem CalledOnce.mono (h : CalledOnce s) (hlen : s.calls.length ≤ s'.calls.length)
    (hold : ∀ i req t, .inv i req t ∈ s'.history → .inv i req t ∈ s.history) : CalledOnce s' :=
  ⟨fun hi => (h.lt (hold _ _ _ hi)).trans_le hlen,
    fun hi hi' => h.unique (hold _ _ _ hi) (hold _ _ _ hi')⟩

/-- A new call gets a number that no other has, namely how many calls were made before it. -/
theorem CalledOnce.invoke (h : CalledOnce s) (req : Request) :
    CalledOnce { s with calls := s.calls ++ [.called req],
                        history := s.history ++ [.inv s.calls.length req s.clock] } := by
  have hcases : ∀ {i req' t}, .inv i req' t ∈ s.history ++ [.inv s.calls.length req s.clock] →
      .inv i req' t ∈ s.history ∨ i = s.calls.length ∧ req' = req ∧ t = s.clock := by
    intro i req' t hi
    rcases List.mem_append.1 hi with hi | hi
    · exact Or.inl hi
    · cases List.mem_singleton.1 hi
      exact Or.inr ⟨rfl, rfl, rfl⟩
  constructor
  · intro i req' t hi
    rw [List.length_append, List.length_singleton]
    rcases hcases hi with hi | ⟨rfl, -, -⟩
    · exact (h.lt hi).trans (Nat.lt_add_one _)
    · exact Nat.lt_add_one _
  · intro i req₁ req₂ t₁ t₂ h₁ h₂
    rcases hcases h₁ with h₁ | ⟨rfl, rfl, rfl⟩
    · rcases hcases h₂ with h₂ | ⟨rfl, -, -⟩
      · exact h.unique h₁ h₂
      · exact absurd (h.lt h₁) (lt_irrefl _)
    · rcases hcases h₂ with h₂ | ⟨-, rfl, rfl⟩
      · exact absurd (h.lt h₂) (lt_irrefl _)
      · exact ⟨rfl, rfl⟩

/-- **Every step keeps calls apart:** a new call has a number that has not been used. -/
theorem CalledOnce.step (h : CalledOnce s) (hs : s.step a = some s') : CalledOnce s' := by
  cases clientsStep_of_step hs with
  | invoke req => exact h.invoke req
  | ret hi =>
    refine h.mono (by simp [Clients.move]) fun i req t hmem => ?_
    rcases List.mem_append.1 hmem with hmem | hmem
    · exact hmem
    · cases List.mem_singleton.1 hmem
  | _ => exact h.mono (by simp [Clients.move]) fun i req t hmem => hmem

/-- So no call is made twice in any run, and a history says which call a response belongs to. -/
theorem calledOnce_of_reach {kv : KVStore} {t : Time}
    (hs : Reach step (fun _ _ => True) (start kv t) s) : CalledOnce s := by
  have hstart : CalledOnce (start kv t) :=
    ⟨fun hi => absurd hi List.not_mem_nil, fun hi => absurd hi List.not_mem_nil⟩
  exact hs.invariant hstart fun _ _ _ h _ hstep => h.step hstep

end Once

end Clients

/-! ### A store without a budget -/

/-- **A map with deadlines.**  A set succeeds.  A delete that succeeds found an entry, and one that
does not found none that was visible.  `Get` answers what is visible. -/
def ttlMap : Spec (Content Key Bytes Time) Request Answer Time where
  next m req _ :=
    match req with
    | .write c => c.write.apply m
    | .get _ => m
  allows m req a t :=
    match req, a with
    | .write (.setWithExpiry ..), .wrote err => err = none
    | .write (.delete key), .wrote err =>
      err = none ∧ m key ≠ none ∨ err = some .keyNotFound ∧ visible t (m key) = none
    | .get key, .read r => r = KVStore.answer (visible t (m key))
    | _, _ => False

/-- The store has what the map has, but for entries that have expired. -/
def Exactly (t : Time) (m : Content Key Bytes Time) (kv : KVStore) : Prop :=
  kv.Regular 0 ∧ Swept t m kv.content

/-- **The steps of a store without a budget** keep to a map with deadlines. -/
theorem implements_ttlMap : Implements ttlMap Exactly where
  mono h ht := ⟨h.1, h.2.mono ht⟩
  append r h := ⟨h.1.withWal _, h.2⟩
  apply {t m kv kv' err ranges c} h hkv := by
    obtain ⟨hregular, hswept⟩ := h
    obtain ⟨herr, hregular', -, hcontent⟩ := Call.applyTo_eq_some hregular hkv
    refine ⟨?_, hregular', ?_⟩
    · cases c with
      | setWithExpiry key value expiredAt => exact herr
      | delete key =>
        -- What the delete found or did not find, the map shows as well.
        show err = none ∧ _ ∨ err = some .keyNotFound ∧ _
        rw [herr, Call.err]
        split_ifs with hnone
        · refine Or.inr ⟨rfl, ?_⟩
          rw [← hswept.visible_eq key, hnone, Expiry.visible_none]
        · refine Or.inl ⟨rfl, ?_⟩
          rcases hswept key with heq | ⟨hgone, -⟩
          · exact heq ▸ hnone
          · exact absurd hgone hnone
    · rw [hcontent]
      exact hswept.apply c.write
  get {t t' m kv} key h ht := by
    refine ⟨?_, rfl⟩
    show KVStore.answer (visible t' (kv.content key)) = KVStore.answer (visible t' (m key))
    rw [(h.2.mono ht).visible_eq key]
  afterRead {t m kv j key shard} h hkey hshard := by
    have hsame : ({ shard with policy := shard.policy.afterRead key } : Shard).content =
        Function.update shard.content key (shard.content key) := (Function.update_eq_self ..).symm
    have hbudget := h.1.budget_eq shard (List.mem_of_getElem? hshard)
    refine ⟨h.1.setShard hkey hshard hsame hbudget, ?_⟩
    rw [KVStore.content_setShard hkey hshard hsame, ← KVStore.content_of_getShard hkey hshard,
      Function.update_eq_self]
    exact h.2
  sweep {t m kv j now shard} range h hshard hnow := by
    refine ⟨h.1.sweepShard hshard range now, fun k => ?_⟩
    rcases KVStore.content_sweepShard hshard range now k with hk | hk
    · rw [hk]
      exact h.2.drop hnow k
    · rw [hk]
      exact h.2 k

/-- A store just opened without a budget. -/
theorem exactly_of_newKVStore {ranges : ℕ → Range} {file : Option Bytes} {walOpts : Wal.Options}
    {opts : Options} {t₀ : Time} {kv : KVStore} (hmax : opts.maxMemoryBytes ≤ 0)
    (hkv : newKVStore ranges file walOpts opts t₀ = some (.ok kv)) (t : Time) :
    Exactly t kv.content kv :=
  ⟨(regular_fits_of_newKVStore hmax hkv).1, .refl _ _⟩

namespace Clients

variable {s : Clients}

/-- **The store is linearizable.**  On a store without a budget, whatever its policy and number of
shards, calls and sweeps overlap in any way.  The calls can be put in one order, in which each
answers what a map with deadlines answers: all that have returned are in it, each reads the clock
between its call and its return, and a call that returned before another was made comes before
it. -/
theorem calls_linearizable {ranges : ℕ → Range} {file : Option Bytes} {walOpts : Wal.Options}
    {opts : Options} {t₀ t : Time} {kv : KVStore} (hmax : opts.maxMemoryBytes ≤ 0)
    (hkv : newKVStore ranges file walOpts opts t₀ = some (.ok kv))
    (hs : Reach step (fun _ _ => True) (start kv t) s) :
    IsLinearizable ttlMap kv.content s.history :=
  isLinearizable implements_ttlMap (exactly_of_newKVStore hmax hkv t) hs

/-- A `Get` finds a record, which is overwritten, and reads the clock when the record it found has
expired. -/
def lateMiss : List Action :=
  [.invoke (.write (.setWithExpiry [1] [7] 10)), .append 0, .apply 0 fun _ => Eviction.byKey, .ret 0,
    .invoke (.get [1]), .lookup 1, .invoke (.write (.setWithExpiry [1] [8] 90)), .append 2,
    .apply 2 fun _ => Eviction.byKey, .ret 2, .tick 20, .readClock 1, .ret 1]

/-- The get misses what it found, since that has expired by its reading of the clock, while a set
has long put something else there; its miss is placed before that set. -/
theorem calls_linearizable_lateMiss :
    ∃ s ∈ runAll step (fun _ _ => True) (start oneShard 0) lateMiss,
      s.calls = [.returned, .returned, .returned] ∧
        IsLinearizable ttlMap oneShard.content s.history := by
  obtain ⟨s, hs, hcalls⟩ : ∃ s ∈ runAll step (fun _ _ => True) (start oneShard 0) lateMiss,
      s.calls = [.returned, .returned, .returned] := by
    decide +kernel
  exact ⟨s, hs, hcalls, calls_linearizable le_rfl (newKVStore_oneShard fun _ => Eviction.byKey)
    (reach_of_runAll hs)⟩

end Clients

end Store
end Keva
