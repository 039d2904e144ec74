/-
# What clients see of the sweeper

The sweeper of `storage/store/kv_store_util.go` removes keys that have expired, about once a
minute, and `Get` hides them before that.  `Delete` (`storage/store/kv_store.go`) does not look at
the expiry: it removes a key that has expired and is still there, and returns `ErrKeyNotFound` for
one that has been swept.

So the rounds of the sweeper may be moved about without a call returning anything else, exactly
if every `Delete` finds its key gone or not yet expired (`sweeps_invisible_iff`).

On a store without a budget a call returns what its content says.  The content of a run with
sweeps is that of the run without them, less some entries that have expired (`Expiry.Swept`), and
that is what a `Delete` can tell.
-/

import Keva.Store.Run

namespace Keva
namespace Store

open Eviction (Range)
open Expiry (Content Write visible Swept)

/-! ### Calls with sweeps in between -/

/-- A call of a client.  The expiry of a set is computed before, and the time is that of the
call. -/
inductive ClientCall
  | setWithExpiry (ranges : ℕ → Range) (key : Key) (value : Bytes) (expiredAt : Time)
  | get (key : Key)
  | delete (key : Key)

/-- The call at a reading of the clock; `Delete` does not look at it. -/
def ClientCall.op (now : Time) : ClientCall → Op
  | setWithExpiry ranges key value expiredAt => .setWithExpiry ranges key value expiredAt now
  | get key => .get key now
  | delete key => .delete key

/-- A call or a round of the sweeper, and the reading of the clock. -/
inductive Event
  | call (c : ClientCall) (now : Time)
  | sweep (ranges : ℕ → Range) (now : Time)

namespace Event

/-- The reading of the clock at which an event takes place. -/
def now : Event → Time
  | call _ now => now
  | sweep _ now => now

/-- The event, if it is a call. -/
def call? : Event → Option (ClientCall × Time)
  | call c now => some (c, now)
  | sweep .. => none

end Event

/-- The calls of a run, each with its reading of the clock, the sweeps between them left out. -/
def callsOf (events : List Event) : List (ClientCall × Time) := events.filterMap Event.call?

/-- The readings of the clock do not decrease, from `t` on, be they of calls or of sweeps. -/
def InOrder (t : Time) (events : List Event) : Prop :=
  (t :: events.map Event.now).Pairwise (· ≤ ·)

/-- A run, and what the calls in it return. -/
def KVStore.runCalls (kv : KVStore) : List Event → Option (KVStore × List Reply)
  | [] => some (kv, [])
  | .call c now :: events => do
    let (kv, r) ← kv.step (c.op now)
    let (kv, rs) ← kv.runCalls events
    return (kv, r :: rs)
  | .sweep ranges now :: events => (kv.sweep ranges now).runCalls events

/-- Wherever sweeps are put between the calls, the calls return the same: two runs with these
calls cannot be told apart by their replies. -/
def SweepsInvisible (kv : KVStore) (t : Time) (calls : List (ClientCall × Time)) : Prop :=
  ∀ (events events' : List Event) (kv₁ kv₂ : KVStore) (rs rs' : List Reply),
    callsOf events = calls → callsOf events' = calls → InOrder t events → InOrder t events' →
      kv.runCalls events = some (kv₁, rs) → kv.runCalls events' = some (kv₂, rs') → rs = rs'

/-- Every `Delete` finds its key gone or not yet expired, going by the calls before it. -/
def Timely : Content Key Bytes Time → List (ClientCall × Time) → Prop
  | _, [] => True
  | m, (c, now) :: calls =>
    (∀ key, c = .delete key → ∀ v e, m key = some (v, e) → now ≤ e) ∧
      Timely ((c.op now).effect m) calls

/-! ### What the content says -/

/-- What the calls return, on a store without a budget. -/
def evalCalls : Content Key Bytes Time → List Event → List Reply
  | _, [] => []
  | m, .call c now :: events => (c.op now).reply m :: evalCalls ((c.op now).effect m) events
  | m, .sweep _ now :: events => evalCalls (fun k => visible now (m k)) events

variable {m m' : Content Key Bytes Time} {t now : Time} {c : ClientCall} {events : List Event}

/-- Events are in order if the first is not too early and the rest are in order from there. -/
theorem inOrder_cons_iff {event : Event} :
    InOrder t (event :: events) ↔ t ≤ event.now ∧ InOrder event.now events := by
  rw [InOrder, List.map_cons, List.pairwise_cons]
  constructor
  · rintro ⟨hle, horder⟩
    exact ⟨hle _ List.mem_cons_self, horder⟩
  · rintro ⟨hle, horder⟩
    refine ⟨fun x hx => ?_, horder⟩
    rcases List.mem_cons.1 hx with rfl | hx
    · exact hle
    · exact hle.trans ((List.pairwise_cons.1 horder).1 x hx)

/-- A call does the same to a content and to what is left of it. -/
theorem swept_effect (h : Swept now m m') (c : ClientCall) :
    Swept now ((c.op now).effect m) ((c.op now).effect m') := by
  cases c with
  | setWithExpiry ranges key value expiredAt => exact h.apply (.set key value expiredAt)
  | get key => exact h
  | delete key => exact h.apply (.del key)

/-- **A call returns the same,** unless it deletes a key that has expired: a `Delete` does not
look at the expiry, and a sweep may have been there first. -/
theorem reply_of_swept (h : Swept now m m')
    (hdelete : ∀ key, c = .delete key → ∀ v e, m key = some (v, e) → now ≤ e) :
    (c.op now).reply m' = (c.op now).reply m := by
  cases c with
  | setWithExpiry ranges key value expiredAt => rfl
  | get key =>
    show Reply.read (KVStore.answer (visible now (m' key))) = _
    rw [h.visible_eq]
    rfl
  | delete key =>
    have hkey : m' key = m key := by
      rcases h key with heq | ⟨hnone, hgone⟩
      · exact heq
      · cases hm : m key with
        | none => exact hnone
        | some x =>
          obtain ⟨v, e⟩ := x
          have hle := hdelete key rfl v e hm
          rw [hm, Expiry.visible_some, if_pos hle] at hgone
          cases hgone
    show Reply.wrote (if m' key = none then _ else _) = _
    rw [hkey]
    rfl

/-- **Sweeps make no difference** where every `Delete` is timely: what has been swept is what no
`Get` would find. -/
theorem evalCalls_of_swept (h : Swept t m m') (horder : InOrder t events)
    (htimely : Timely m (callsOf events)) :
    evalCalls m' events =
      evalCalls m ((callsOf events).map fun x => .call x.1 x.2) := by
  induction events generalizing t m m' with
  | nil => rfl
  | cons event events ih =>
    obtain ⟨hle, horder⟩ := inOrder_cons_iff.1 horder
    cases event with
    | call c now =>
      obtain ⟨hdelete, htimely⟩ := htimely
      have hnow : Swept now m m' := h.mono hle
      show (c.op now).reply m' :: evalCalls ((c.op now).effect m') events = _ :: _
      rw [reply_of_swept hnow hdelete, ih (swept_effect hnow c) horder htimely]
      rfl
    | sweep ranges now => exact ih (h.mono hle).sweep horder htimely

/-! ### Runs of the store -/

variable {kv kv' : KVStore} {rs : List Reply}

/-- Without a budget the responses of a run depend on the contents alone.  By induction on its
events, calls and sweeps. -/
theorem runCalls_eq_some (h : kv.Regular 0) (hr : kv.runCalls events = some (kv', rs)) :
    rs = evalCalls kv.content events := by
  induction events generalizing kv rs with
  | nil =>
    obtain ⟨-, rfl⟩ := Prod.mk.inj (Option.some.inj hr)
    rfl
  | cons event events ih =>
    cases event with
    | call c now =>
      simp only [KVStore.runCalls, bind, Option.bind_eq_some_iff, Prod.exists] at hr
      obtain ⟨kv₁, r, hstep, kv₂, rs₁, hrun, heq⟩ := hr
      obtain ⟨rfl, rfl⟩ := Prod.mk.inj (Option.some.inj heq)
      obtain ⟨hreg, heffect, rfl, -⟩ := KVStore.step_eq_some h hstep
      rw [ih hreg hrun, heffect]
      rfl
    | sweep ranges now =>
      have hsweep : (kv.sweep ranges now).content = fun k => visible now (kv.content k) :=
        funext (KVStore.content_sweep ranges now kv)
      rw [ih (h.sweep ranges now) hr, hsweep]
      rfl

/-- And the run does not get stuck. -/
theorem exists_runCalls (h : kv.Regular 0) (hc : kv.shardCount ≠ 0) (events : List Event) :
    ∃ kv' rs, kv.runCalls events = some (kv', rs) := by
  induction events generalizing kv with
  | nil => exact ⟨kv, [], rfl⟩
  | cons event events ih =>
    cases event with
    | call c now =>
      obtain ⟨kv₁, r, hstep⟩ := KVStore.exists_step h hc (c.op now)
      obtain ⟨hreg, -⟩ := KVStore.step_eq_some h hstep
      obtain ⟨kv', rs, hrun⟩ := ih hreg (KVStore.step_shardCount hstep ▸ hc)
      exact ⟨kv', r :: rs, by simp [KVStore.runCalls, hstep, hrun]⟩
    | sweep ranges now => exact ih (h.sweep ranges now) hc

/-- Where no key has a shard, no call returns, so that a run that comes to its end has sweeps
only. -/
theorem replies_eq_nil (h0 : kv.shardCount = 0) (hr : kv.runCalls events = some (kv', rs)) :
    rs = [] := by
  induction events generalizing kv rs with
  | nil => exact (Prod.mk.inj (Option.some.inj hr)).2.symm
  | cons event events ih =>
    cases event with
    | call c now =>
      have hnone : ∀ (kv₁ : KVStore) (key : Key), kv₁.shardCount = kv.shardCount →
          kv₁.getShard key = none :=
        fun kv₁ key heq => KVStore.getShard_of_shardCount_eq_zero (heq.trans h0) key
      have hstep : kv.step (c.op now) = none := by
        cases c with
        | setWithExpiry ranges key value expiredAt =>
          simp [ClientCall.op, KVStore.step, KVStore.setWithExpiry_eq_applySet, KVStore.applySet,
            hnone (kv.append _) key rfl]
        | get key => simp [ClientCall.op, KVStore.step, KVStore.get, hnone kv key rfl]
        | delete key =>
          simp [ClientCall.op, KVStore.step, KVStore.delete_eq_applyDelete,
            KVStore.applyDelete, hnone (kv.append _) key rfl]
      simp [KVStore.runCalls, hstep] at hr
    | sweep ranges now =>
      have hswept : (kv.sweep ranges now).shardCount = 0 := h0
      exact ih hswept hr

/-- The calls alone, in the order of the clock. -/
def unswept (calls : List (ClientCall × Time)) : List Event := calls.map fun x => .call x.1 x.2

/-- The calls of a run without sweeps are all of it. -/
theorem callsOf_unswept (calls : List (ClientCall × Time)) : callsOf (unswept calls) = calls := by
  induction calls with
  | nil => rfl
  | cons x calls ih => exact congrArg (x :: ·) ih

variable {calls : List (ClientCall × Time)}

/-- A `Delete` that comes first finds its key gone or not yet expired: otherwise a round of the
sweeper right before it would show. -/
theorem SweepsInvisible.delete_timely (h : kv.Regular 0) (hc : kv.shardCount ≠ 0) {key : Key}
    (horder : InOrder t (unswept ((.delete key, now) :: calls)))
    (hinvisible : SweepsInvisible kv t ((.delete key, now) :: calls)) {v : Bytes} {e : Time}
    (hkey : kv.content key = some (v, e)) : now ≤ e := by
  obtain ⟨hle, horder'⟩ := inOrder_cons_iff.1 horder
  by_contra hlt
  -- The same calls, without a sweep and with one at the start.
  obtain ⟨kv₁, rs, hrun⟩ := exists_runCalls h hc (unswept ((.delete key, now) :: calls))
  obtain ⟨kv₂, rs', hrun'⟩ := exists_runCalls h hc
    (.sweep (fun _ => Eviction.byKey) now :: unswept ((.delete key, now) :: calls))
  have horder'' : InOrder t
      (.sweep (fun _ => Eviction.byKey) now :: unswept ((.delete key, now) :: calls)) :=
    inOrder_cons_iff.2 ⟨hle, inOrder_cons_iff.2 ⟨le_rfl, horder'⟩⟩
  have hcalls : callsOf
      (.sweep (fun _ => Eviction.byKey) now :: unswept ((.delete key, now) :: calls)) =
        (.delete key, now) :: calls := callsOf_unswept _
  have hsame := hinvisible _ _ _ _ _ _ (callsOf_unswept _) hcalls horder horder'' hrun hrun'
  rw [runCalls_eq_some h hrun, runCalls_eq_some h hrun'] at hsame
  have hhead := (List.cons.inj hsame).1
  change Reply.wrote (if kv.content key = none then _ else _) =
    Reply.wrote (if visible now (kv.content key) = none then _ else _) at hhead
  rw [hkey, Expiry.visible_some, if_neg hlt, if_neg (Option.some_ne_none _), if_pos rfl] at hhead
  cases hhead

/-- Sweeps that are invisible are so after the first call: whatever runs differ later, they
differ with this call in front of them. -/
theorem SweepsInvisible.tail (hinvisible : SweepsInvisible kv t ((c, now) :: calls)) (hle : t ≤ now)
    {r : Reply} (hstep : kv.step (c.op now) = some (kv', r)) : SweepsInvisible kv' now calls := by
  intro events events' kv₂ kv₃ rs rs' hcalls hcalls' horder₁ horder₂ hrun hrun'
  have hfirst : ∀ {es kv₄ rs₁}, kv'.runCalls es = some (kv₄, rs₁) →
      kv.runCalls (.call c now :: es) = some (kv₄, r :: rs₁) := by
    intro es kv₄ rs₁ hes
    simp [KVStore.runCalls, hstep, hes]
  have hbefore : ∀ {es}, InOrder now es → InOrder t (.call c now :: es) :=
    fun hes => inOrder_cons_iff.2 ⟨hle, hes⟩
  have hcons : ∀ {es}, callsOf es = calls → callsOf (.call c now :: es) = (c, now) :: calls :=
    fun hes => congrArg ((c, now) :: ·) hes
  have hsame := hinvisible _ _ _ _ _ _ (hcons hcalls) (hcons hcalls') (hbefore horder₁)
    (hbefore horder₂) (hfirst hrun) (hfirst hrun')
  exact (List.cons.inj hsame).2

/-- **Sweeps that are invisible leave every `Delete` timely.**  Otherwise a sweep right before
the first one that is late changes what it returns. -/
theorem timely_of_sweepsInvisible (h : kv.Regular 0) (hc : kv.shardCount ≠ 0)
    (horder : InOrder t (unswept calls)) (hinvisible : SweepsInvisible kv t calls) :
    Timely kv.content calls := by
  induction calls generalizing kv t with
  | nil => trivial
  | cons x calls ih =>
    obtain ⟨c, now⟩ := x
    obtain ⟨hle, horder'⟩ := inOrder_cons_iff.1 horder
    constructor
    · rintro key rfl v e hkey
      exact SweepsInvisible.delete_timely h hc horder hinvisible hkey
    · obtain ⟨kv₁, r, hstep⟩ := KVStore.exists_step h hc (c.op now)
      obtain ⟨hreg, heffect, -⟩ := KVStore.step_eq_some h hstep
      rw [← heffect]
      exact ih hreg (KVStore.step_shardCount hstep ▸ hc) horder' (hinvisible.tail hle hstep)

/-- **When the sweeper is invisible.**  A store without a budget is opened at `t₀`, and some calls
are made, at readings of the clock that do not decrease.  Wherever rounds of the sweeper are put
between the calls, they return the same, exactly if every `Delete` comes when its key is gone or
not yet expired, going by the calls before it; or if no key has a shard, and no call returns. -/
theorem sweeps_invisible_iff {ranges : ℕ → Range} {file : Option Bytes} {walOpts : Wal.Options}
    {opts : Options} {t₀ : Time} {kv₀ : KVStore} (hb : shardBudget opts = some 0)
    (hnew : newKVStore ranges file walOpts opts t₀ = some (.ok kv₀))
    (horder : InOrder t₀ (unswept calls)) :
    SweepsInvisible kv₀ t₀ calls ↔
      Timely kv₀.content calls ∨ opts.shardCount % 2 ^ 32 = 0 := by
  obtain ⟨-, hcount, -, ⟨b, hb', hreg⟩, -⟩ := newKVStore_eq_ok hnew
  obtain rfl : b = 0 := Option.some.inj (hb'.symm.trans hb)
  rw [← ofNat_shardCount_eq_zero_iff, ← hcount]
  constructor
  · intro hinvisible
    by_cases h0 : kv₀.shardCount = 0
    · exact Or.inr h0
    · exact Or.inl (timely_of_sweepsInvisible hreg h0 horder hinvisible)
  · rintro (htimely | h0) events events' kv₁ kv₂ rs rs' hcalls hcalls' horder₁ horder₂ hrun hrun'
    · rw [runCalls_eq_some hreg hrun, runCalls_eq_some hreg hrun',
        evalCalls_of_swept (Swept.refl t₀ _) horder₁ (hcalls ▸ htimely),
        evalCalls_of_swept (Swept.refl t₀ _) horder₂ (hcalls' ▸ htimely), hcalls, hcalls']
    · rw [replies_eq_nil h0 hrun, replies_eq_nil h0 hrun']

/-- A key that is deleted in time. -/
theorem sweeps_invisible_iff_inTime :
    SweepsInvisible oneShard 0
      [(.setWithExpiry (fun _ => Eviction.byKey) [1] [9] 100, 0), (.delete [1], 50)] := by
  refine (sweeps_invisible_iff (by simp [shardBudget])
    (newKVStore_oneShard fun _ => Eviction.byKey) (by simp [InOrder, unswept, Event.now])).2
    (Or.inl ⟨fun key hkey => ?_, fun key hkey v e hm => ?_, trivial⟩)
  · cases hkey
  · obtain rfl : [1] = key := ClientCall.delete.inj hkey
    rw [ClientCall.op, Op.effect] at hm
    obtain ⟨-, rfl⟩ := Prod.mk.inj (Option.some.inj
      ((Write.apply_key (Write.set [1] [9] 100) oneShard.content).symm.trans hm))
    decide

/-- **A `Delete` tells whether a key has been swept.**  A key expires at 5 and is deleted at 10:
without error if the sweeper has not come by, and with one if it has. -/
theorem sweep_shows :
    newKVStore (fun _ => Eviction.byKey) none ⟨.always, 0, 0⟩ ⟨1, 0, 0, none⟩ 0 =
        some (.ok oneShard) ∧
      (∃ kv, oneShard.runCalls
        [.call (.setWithExpiry (fun _ => Eviction.byKey) [1] [9] 5) 0, .call (.delete [1]) 10] =
          some (kv, [.wrote none, .wrote none])) ∧
      ∃ kv, oneShard.runCalls
        [.call (.setWithExpiry (fun _ => Eviction.byKey) [1] [9] 5) 0,
          .sweep (fun _ => Eviction.byKey) 10, .call (.delete [1]) 10] =
          some (kv, [.wrote none, .wrote (some .keyNotFound)]) := by
  have hreg : oneShard.Regular 0 := regular_emptyStore ..
  have hc : oneShard.shardCount ≠ 0 := by decide
  refine ⟨newKVStore_oneShard _, ?_, ?_⟩
  · obtain ⟨kv, rs, hrun⟩ := exists_runCalls hreg hc
      [.call (.setWithExpiry (fun _ => Eviction.byKey) [1] [9] 5) 0, .call (.delete [1]) 10]
    have hrs := runCalls_eq_some hreg hrun
    simp [evalCalls, ClientCall.op, Op.reply, Op.effect, Write.apply, Write.key, Write.entry] at hrs
    exact ⟨kv, hrs ▸ hrun⟩
  · obtain ⟨kv, rs, hrun⟩ := exists_runCalls hreg hc
      [.call (.setWithExpiry (fun _ => Eviction.byKey) [1] [9] 5) 0,
        .sweep (fun _ => Eviction.byKey) 10, .call (.delete [1]) 10]
    have hrs := runCalls_eq_some hreg hrun
    simp [evalCalls, ClientCall.op, Op.reply, Op.effect, Write.apply, Write.key, Write.entry,
      Expiry.visible_some] at hrs
    exact ⟨kv, hrs ▸ hrun⟩

end Store
end Keva
