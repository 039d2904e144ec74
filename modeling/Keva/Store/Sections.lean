/-
# Inside a critical section

A shard is guarded by a lock, and the list of `LRUEvict` by a mutex of its own.
`SetWithExpiry`, `Delete` and the sweeper (`storage/store/kv_store.go`,
`storage/store/kv_store_util.go`) hold the lock of the shard throughout, and the policy's mutex
only while one of its hooks runs (`storage/eviction/lru_evict_policy.go`).  `Get` holds neither
when it calls `AfterRead`: by then its key may have been evicted, deleted or written again, and
a critical section may be half way through.

`Locked` is a shard, the critical section that is in progress on it, and the `Get`s that have
found their key and not yet told the policy.  A step is one hook, one change to the map, or the
lookup of a `Get`.  A critical section that is not interrupted is the call that
`Keva.Store.Shard` describes (`reach_setWithExpiry`, `reach_delete`, `reach_sweep`,
`reach_get`), and one that has begun can always go on (`Locked.Strict.advance`).

Whatever the interleaving, list and map of the policy go with the keys of the shard whenever no
critical section is in progress (`list_tracks_keys`).
-/

import Keva.Store.Accounts
import Keva.Lib.Reach

namespace Keva
namespace Store

open Eviction (Range Policy PolicyName Element)
open Eviction.Shard (data_evict)

/-- How far a critical section has come: what the next step will do. -/
inductive Stage
  /-- The lock is free. -/
  | idle
  /-- A set has taken the old entry out, and calls `BeforeWrite`. -/
  | makingRoom (key : Key) (value : Bytes) (expiredAt : Time) (old : Option Record)
  /-- There is room, and the entry is stored. -/
  | storing (key : Key) (value : Bytes) (expiredAt : Time)
  /-- `AfterWrite` is called. -/
  | stored (key : Key)
  /-- The write was refused, and the old entry is put back. -/
  | refused (key : Key) (old : Option Record)
  /-- A delete has removed the entry, and calls `AfterDelete`. -/
  | deleted (key : Key)
  /-- The sweeper goes on to the next of these keys. -/
  | sweeping (now : Time) (keys : List Key)
  /-- The sweeper has removed the entry, and calls `AfterDelete`. -/
  | swept (now : Time) (key : Key) (keys : List Key)
  deriving DecidableEq

/-- A shard, the critical section in progress, and the keys for which an `AfterRead` is due. -/
structure Locked where
  shard : Shard
  stage : Stage
  reads : List Key

namespace Locked

/-- A critical section begins or goes on, or a `Get` looks its key up or calls `AfterRead`; the
number picks one of those that are due. -/
inductive Action
  | set (key : Key) (value : Bytes) (expiredAt : Time)
  | delete (key : Key)
  | sweep (range : Range) (now : Time)
  | advance (ranges : ℕ → Range) (now : Time)
  | lookup (key : Key) (now : Time)
  | afterRead (j : ℕ)

/-- The entry of `key` is removed from the map. -/
def take (l : Locked) (key : Key) (stage : Stage) : Locked :=
  { l with shard := { l.shard with toShard := l.shard.toShard.evict key }, stage := stage }

/-- An entry is put into the map. -/
def put (l : Locked) (key : Key) (rec : Record) (stage : Stage) : Locked :=
  { l with shard := { l.shard with data := l.shard.data.insert key rec,
                                   bytes := l.shard.bytes + (key.length + rec.value.length) },
           stage := stage }

/-- A hook has changed the policy. -/
def hook (l : Locked) (policy : Policy) (stage : Stage) : Locked :=
  { l with shard := { l.shard with policy := policy }, stage := stage }

/-- The next step of the critical section in progress. -/
def advance (ranges : ℕ → Range) (now : Time) (l : Locked) : Option Locked :=
  match l.stage with
  | .idle => none
  | .makingRoom key value expiredAt old =>
    (l.shard.policy.beforeWrite ranges l.shard.toShard key (key.length + value.length)).map
      fun (accepted, policy, view) =>
        { l with shard := ⟨view, policy⟩,
                 stage := if accepted then .storing key value expiredAt else .refused key old }
  | .storing key value expiredAt => some (l.put key ⟨value, now, expiredAt⟩ (.stored key))
  | .stored key => some (l.hook (l.shard.policy.afterWrite key) .idle)
  | .refused key (some rec) => some (l.put key rec .idle)
  | .refused _ none => some { l with stage := .idle }
  | .deleted key => some (l.hook (l.shard.policy.afterDelete key) .idle)
  | .sweeping _ [] => some { l with stage := .idle }
  | .sweeping t (key :: keys) =>
    match l.shard.data.lookup key with
    | none => some { l with stage := .sweeping t keys }
    | some rec =>
      if rec.expiredAt < t then some (l.take key (.swept t key keys))
      else some { l with stage := .sweeping t keys }
  | .swept t key keys => some (l.hook (l.shard.policy.afterDelete key) (.sweeping t keys))

/-- The calls on one shard, hook by hook, while the mutex is held; a read calls `AfterRead` after
it has let go of the mutex of the shard, and other calls may come in between. -/
def step (l : Locked) : Action → Option Locked
  | .set key value expiredAt =>
    if l.stage = .idle then
      some (l.take key (.makingRoom key value expiredAt (l.shard.data.lookup key)))
    else none
  | .delete key =>
    if l.stage = .idle then
      match l.shard.data.lookup key with
      | none => some l
      | some _ => some (l.take key (.deleted key))
    else none
  | .sweep range now =>
    if l.stage = .idle then some { l with stage := .sweeping now (range.keys l.shard.data) }
    else none
  | .advance ranges now => l.advance ranges now
  | .lookup key now =>
    -- The read lock keeps critical sections out, and is released before the clock is read.
    if l.stage = .idle then
      match l.shard.data.lookup key with
      | none => some l
      | some rec => if rec.expiredAt < now then some l else some { l with reads := key :: l.reads }
    else none
  | .afterRead j =>
    match l.reads[j]? with
    | none => none
    | some key =>
      some { l.hook (l.shard.policy.afterRead key) l.stage with reads := l.reads.eraseIdx j }

/-- Any interleaving. -/
abbrev Run : Locked → Locked → Prop := Reach step fun _ _ => True

/-! ### A section that is not interrupted -/

variable {s s' : Shard} {reads : List Key}

/-- The critical section goes on. -/
theorem Run.advance {l l' l'' : Locked} (h : Run l l') (ranges : ℕ → Range) (now : Time)
    (hstep : l'.advance ranges now = some l'') : Run l l'' :=
  .tail (.advance ranges now) h trivial hstep

/-- **A set** is taking the old entry out, making room, storing the new one and telling the
policy; or putting the old one back. -/
theorem reach_setWithExpiry {ranges : ℕ → Range} {key : Key} {value : Bytes} {expiredAt now : Time}
    {err : Option Err} (h : s.setWithExpiry ranges key value expiredAt now = some (s', err)) :
    Run ⟨s, .idle, reads⟩ ⟨s', .idle, reads⟩ := by
  obtain ⟨⟨accepted, policy, view⟩, hbefore, heq⟩ := Option.map_eq_some_iff.1 h
  have hbegin : Run ⟨s, .idle, reads⟩ (take ⟨s, .idle, reads⟩ key
      (.makingRoom key value expiredAt (s.data.lookup key))) :=
    .tail (.set key value expiredAt) .refl trivial (by rw [step, if_pos rfl])
  have hroom : Run ⟨s, .idle, reads⟩ ⟨⟨view, policy⟩,
      if accepted then .storing key value expiredAt else .refused key (s.data.lookup key), reads⟩ :=
    hbegin.advance ranges now (congrArg (Option.map _) hbefore)
  cases accepted with
  | true =>
    obtain rfl := congrArg Prod.fst heq
    have hstored := hroom.advance ranges now rfl
    exact hstored.advance ranges now rfl
  | false =>
    cases hold : s.data.lookup key with
    | none | some rec =>
      rw [hold] at heq hroom
      obtain rfl := congrArg Prod.fst heq
      exact hroom.advance ranges now rfl

/-- **A delete** removes the entry and tells the policy, in two steps between which a reader may
touch the list. -/
theorem reach_delete (s : Shard) (key : Key) (reads : List Key) :
    Run ⟨s, .idle, reads⟩ ⟨(s.delete key).1, .idle, reads⟩ := by
  unfold Shard.delete
  cases hrec : s.data.lookup key with
  | none => exact .refl
  | some rec =>
    have hbegin : Run ⟨s, .idle, reads⟩ (take ⟨s, .idle, reads⟩ key (.deleted key)) :=
      .tail (.delete key) .refl trivial (by rw [step, if_pos rfl, hrec])
    exact hbegin.advance (fun _ => Eviction.byKey) 0 rfl

/-- The sweeper goes through the keys that are left, one round at a time, and comes to what the
loop of `sweep` comes to.  By induction on these keys. -/
theorem reach_sweeping {l : Locked} {now : Time} {keys : List Key}
    (h : Run l ⟨s, .sweeping now keys, reads⟩) :
    Run l ⟨keys.foldl (Shard.sweepKey now) s, .idle, reads⟩ := by
  induction keys generalizing s with
  | nil => exact h.advance (fun _ => Eviction.byKey) 0 rfl
  | cons key keys ih =>
    rw [List.foldl_cons]
    refine ih ?_
    unfold Shard.sweepKey
    cases hrec : s.data.lookup key with
    | none => exact h.advance (fun _ => Eviction.byKey) 0 (by simp [Locked.advance, hrec])
    | some rec =>
      by_cases hexpired : rec.expiredAt < now
      · have hswept : Run l
            (take ⟨s, .sweeping now (key :: keys), reads⟩ key (.swept now key keys)) :=
          h.advance (fun _ => Eviction.byKey) 0 (by simp [Locked.advance, hrec, hexpired])
        dsimp only
        rw [if_pos hexpired]
        exact hswept.advance (fun _ => Eviction.byKey) 0 rfl
      · dsimp only
        rw [if_neg hexpired]
        exact h.advance (fun _ => Eviction.byKey) 0 (by simp [Locked.advance, hrec, hexpired])

/-- **A sweep** does the same for one expired key after the other, all under one lock. -/
theorem reach_sweep (s : Shard) (range : Range) (now : Time) (reads : List Key) :
    Run ⟨s, .idle, reads⟩ ⟨s.sweep range now, .idle, reads⟩ :=
  reach_sweeping (.tail (.sweep range now) .refl trivial (by rw [step, if_pos rfl]))

/-- **A get** that finds its key tells the policy, after the lock of the shard has been released. -/
theorem reach_get {rec : Record} {key : Key} {now : Time} (hrec : s.data.lookup key = some rec)
    (hnow : now ≤ rec.expiredAt) :
    Run ⟨s, .idle, reads⟩ ⟨{ s with policy := s.policy.afterRead key }, .idle, reads⟩ := by
  have hfound : Run ⟨s, .idle, reads⟩ ⟨s, .idle, key :: reads⟩ :=
    .tail (.lookup key now) .refl trivial (by simp [step, hrec, not_lt.2 hnow])
  exact .tail (.afterRead 0) hfound trivial rfl

end Locked

/-! ### What holds at each stage -/

/-- The policy goes with the entries there were before those changes of the section that it has
not been told of yet. -/
def Stage.Holds (stage : Stage) (p : Policy) (data : Dict Key Record) : Prop :=
  match stage with
  | .idle | .sweeping _ _ => p.Tracks data
  | .storing key _ _ => p.Tracks data ∧ key ∉ data
  | .stored key => ∃ data₀ rec, p.Tracks data₀ ∧ key ∉ data₀ ∧ data = data₀.insert key rec
  | .makingRoom key _ _ _ | .deleted key | .swept _ key _ =>
    ∃ data₀, p.Tracks data₀ ∧ data = data₀.erase key
  | .refused _ _ => False

/-- **`AfterRead` may come at any stage:** it only reorders the list, and a key that is not in it
is left alone. -/
theorem Stage.Holds.afterRead {stage : Stage} {p : Policy} {data : Dict Key Record}
    (h : stage.Holds p data) (key : Key) : stage.Holds (p.afterRead key) data := by
  cases stage with
  | idle | sweeping => exact (Policy.Tracks.afterRead h key).1
  | storing =>
    obtain ⟨htracks, hnew⟩ := h
    exact ⟨(htracks.afterRead key).1, hnew⟩
  | stored =>
    obtain ⟨data₀, rec, htracks, hnew, heq⟩ := h
    exact ⟨data₀, rec, (htracks.afterRead key).1, hnew, heq⟩
  | makingRoom | deleted | swept =>
    obtain ⟨data₀, htracks, heq⟩ := h
    exact ⟨data₀, (htracks.afterRead key).1, heq⟩
  | refused => exact h

namespace Locked

/-- What is kept: the policy is the strict one, and holds what the stage says. -/
structure Strict (l : Locked) : Prop where
  name_eq : l.shard.policy.name = .strict
  holds : l.stage.Holds l.shard.policy l.shard.data

variable {l l' : Locked} {ranges : ℕ → Range} {now : Time}

/-- **`BeforeWrite`** returns and finds room, wherever reads have moved keys before. -/
theorem Strict.makingRoom {key : Key} {value : Bytes} {expiredAt : Time} {old : Option Record}
    (h : l.Strict) (hstage : l.stage = .makingRoom key value expiredAt old) (ranges : ℕ → Range)
    (now : Time) : ∃ l', l.advance ranges now = some l' ∧ l'.Strict := by
  obtain ⟨hname, hholds⟩ := h
  rw [hstage] at hholds
  obtain ⟨data₀, htracks, hdata⟩ := hholds
  obtain ⟨accepted, policy, view, hbefore, hroom⟩ :=
    Policy.beforeWrite_spec ranges htracks hdata (key.length + value.length)
  have haccepted : accepted = true := hroom.accepts (Or.inr (by rw [hname]; decide))
  have hnew : key ∉ view.data := by
    have hgone : l.shard.data.lookup key = none := by rw [hdata, Finmap.lookup_erase]
    rw [← Finmap.lookup_eq_none]
    rcases hroom.evicts.lookup_eq_or key with heq | heq
    · rw [heq, hgone]
    · exact heq
  refine ⟨⟨⟨view, policy⟩, .storing key value expiredAt, l.reads⟩, ?_, ?_⟩
  · rw [advance, hstage]
    dsimp only
    rw [hbefore, haccepted]
    rfl
  · exact ⟨hroom.name_eq.trans hname, hroom.tracks, hnew⟩

/-- **A critical section that has begun can go on,** and keeps what holds.  One case for each
stage; the strict policy never refuses a write. -/
theorem Strict.advance (h : l.Strict) (hstage : l.stage ≠ .idle) (ranges : ℕ → Range) (now : Time) :
    ∃ l', l.advance ranges now = some l' ∧ l'.Strict := by
  obtain ⟨s, stage, reads⟩ := l
  obtain ⟨hname, hholds⟩ := id h
  cases stage with
  | idle => exact absurd rfl hstage
  | makingRoom => exact h.makingRoom rfl ranges now
  | storing key value expiredAt =>
    obtain ⟨htracks, hnew⟩ := hholds
    exact ⟨_, rfl, hname, _, _, htracks, hnew, rfl⟩
  | stored key =>
    obtain ⟨data₀, rec, htracks, hnew, heq⟩ := hholds
    obtain ⟨htracks', hname'⟩ := htracks.afterWrite hnew rec
    exact ⟨_, rfl, hname'.trans hname, heq ▸ htracks'⟩
  | refused => exact hholds.elim
  | deleted key | swept t key keys =>
    obtain ⟨data₀, htracks, heq⟩ := hholds
    obtain ⟨htracks', hname'⟩ := htracks.afterDelete key
    exact ⟨_, rfl, hname'.trans hname, heq ▸ htracks'⟩
  | sweeping t keys =>
    cases keys with
    | nil => exact ⟨_, rfl, hname, hholds⟩
    | cons key keys =>
      rw [Locked.advance]
      dsimp only
      cases s.data.lookup key with
      | none => exact ⟨_, rfl, hname, hholds⟩
      | some rec =>
        dsimp only
        split_ifs
        · exact ⟨_, rfl, hname, _, hholds, data_evict ..⟩
        · exact ⟨_, rfl, hname, hholds⟩

/-- **Every step keeps what holds:** at each stage the list has the keys that the stage says it
has. -/
theorem Strict.step (h : l.Strict) {a : Action} (hs : l.step a = some l') : l'.Strict := by
  obtain ⟨hname, hholds⟩ := id h
  cases a with
  | set key value expiredAt =>
    simp only [Locked.step] at hs
    split_ifs at hs with hidle
    rw [hidle] at hholds
    obtain rfl := Option.some.inj hs
    exact ⟨hname, _, hholds, data_evict ..⟩
  | delete key =>
    simp only [Locked.step] at hs
    split_ifs at hs with hidle
    split at hs
    · exact Option.some.inj hs ▸ h
    · rw [hidle] at hholds
      obtain rfl := Option.some.inj hs
      exact ⟨hname, _, hholds, data_evict ..⟩
  | sweep range now =>
    simp only [Locked.step] at hs
    split_ifs at hs with hidle
    rw [hidle] at hholds
    obtain rfl := Option.some.inj hs
    exact ⟨hname, hholds⟩
  | advance ranges now =>
    have hstage : l.stage ≠ .idle := by
      intro hidle
      rw [Locked.step, Locked.advance, hidle] at hs
      cases hs
    obtain ⟨l₁, hl₁, hstrict⟩ := h.advance hstage ranges now
    exact Option.some.inj (hl₁.symm.trans hs) ▸ hstrict
  | lookup key now =>
    simp only [Locked.step] at hs
    split_ifs at hs
    split at hs
    · exact Option.some.inj hs ▸ h
    · split_ifs at hs
      · exact Option.some.inj hs ▸ h
      · exact Option.some.inj hs ▸ ⟨hname, hholds⟩
  | afterRead j =>
    simp only [Locked.step] at hs
    split at hs
    · cases hs
    · rename_i key _
      obtain rfl := Option.some.inj hs
      have hname' : (l.shard.policy.afterRead key).name = l.shard.policy.name := by
        cases l.shard.policy <;> rfl
      exact ⟨hname'.trans hname, hholds.afterRead key⟩

/-- **And so does every run,** by `Reach.invariant`. -/
theorem Strict.run (h : l.Strict) (hrun : Run l l') : l'.Strict :=
  hrun.invariant h fun _ _ _ hstrict _ hs => hstrict.step hs

end Locked

section Open

variable {ranges : ℕ → Range} {file : Option Bytes} {walOpts : Wal.Options} {opts : Options}
  {t₀ : Time} {kv₀ : KVStore} {s₀ : Shard} {l : Locked}

/-- After recovery. -/
theorem strict_newKVStore (hnew : newKVStore ranges file walOpts opts t₀ = some (.ok kv₀))
    (hpolicy : opts.newEviction = some .strict) (hs₀ : s₀ ∈ kv₀.shards) :
    Locked.Strict ⟨s₀, .idle, []⟩ := by
  obtain ⟨-, -, -, ⟨b, hb, -⟩, -⟩ := newKVStore_eq_ok hnew
  obtain ⟨-, hsound⟩ := sound_newKVStore hb hnew
  refine ⟨?_, (hsound.sound s₀ hs₀).tracks⟩
  rw [hsound.name_eq s₀ hs₀, hpolicy]
  rfl

/-- **The list tracks the keys of the shard.**  Take a shard of a store that has just been
opened with the strict policy, and any interleaving of critical sections and reads.  Whenever no
critical section is in progress no key is in the list twice, the map takes a key to the element
that holds it and no other key to anything, each element having an identity of its own, and the
keys in the list are those of the shard. -/
theorem list_tracks_keys (hnew : newKVStore ranges file walOpts opts t₀ = some (.ok kv₀))
    (hpolicy : opts.newEviction = some .strict) (hs₀ : s₀ ∈ kv₀.shards)
    (hrun : Locked.Run ⟨s₀, .idle, []⟩ l) (hidle : l.stage = .idle) :
    ∃ p, l.shard.policy = .lruEvict p ∧ p.keys.Nodup ∧ (p.order.map Element.id).Nodup ∧
      (∀ key id, p.elems.lookup key = some id ↔ ⟨id, key⟩ ∈ p.order) ∧
      ∀ key, key ∈ p.keys ↔ key ∈ l.shard.data := by
  obtain ⟨hname, hholds⟩ := (strict_newKVStore hnew hpolicy hs₀).run hrun
  obtain ⟨p, hp⟩ := Policy.exists_lruEvict hname
  rw [hidle, hp] at hholds
  obtain ⟨hlinked, hkeys⟩ := hholds
  exact ⟨p, hp, hlinked.keys_nodup, hlinked.ids_nodup, hlinked.elems, hkeys⟩

/-- A get finds a key, and tells the policy in the middle of the set that has evicted it. -/
def readsTooLate : List Locked.Action :=
  [.set [1] [9] 5, .advance (fun _ => Eviction.byKey) 0, .advance (fun _ => Eviction.byKey) 0,
    .advance (fun _ => Eviction.byKey) 0, .lookup [1] 1, .set [2] [9, 9, 9] 6,
    .advance (fun _ => Eviction.byKey) 2, .afterRead 0, .advance (fun _ => Eviction.byKey) 3,
    .advance (fun _ => Eviction.byKey) 3]

/-- `AfterRead` of a key that has been evicted in the meantime does nothing, and the list still
has the keys of the shard. -/
theorem list_tracks_keys_readsTooLate :
    ∃ l ∈ runAll Locked.step (fun _ _ => True) ⟨fourBytesShard, .idle, []⟩ readsTooLate,
      l.shard.data.lookup [1] = none ∧ l.shard.data.lookup [2] = some ⟨[9, 9, 9], 3, 6⟩ ∧
        ∃ p, l.shard.policy = .lruEvict p ∧ p.keys.Nodup ∧ (p.order.map Element.id).Nodup ∧
          (∀ key id, p.elems.lookup key = some id ↔ ⟨id, key⟩ ∈ p.order) ∧
          ∀ key, key ∈ p.keys ↔ key ∈ l.shard.data := by
  obtain ⟨l, hrun, hidle, hgone, hkept⟩ :
      ∃ l ∈ runAll Locked.step (fun _ _ => True) ⟨fourBytesShard, .idle, []⟩ readsTooLate,
        l.stage = .idle ∧ l.shard.data.lookup [1] = none ∧
          l.shard.data.lookup [2] = some ⟨[9, 9, 9], 3, 6⟩ := by
    decide +kernel
  have hmem : fourBytesShard ∈ fourBytes.shards := List.mem_cons_self
  exact ⟨l, hrun, hgone, hkept, list_tracks_keys (newKVStore_fourBytes fun _ => Eviction.byKey) rfl
    hmem (reach_of_runAll hrun) hidle⟩

end Open

end Store
end Keva
