/-
# What the store holds

The content of a store is that of the shard each key hashes to.  In a store
whose entries all lie in their own shard (`Regular`) every call that returns does
one thing to the content: a set, where there is no budget, and a delete are writes
of their key, a sweep leaves what is visible, and the rest changes nothing.  Each
keeps the store regular.  A call fails to return only where no key has a shard
(`shardCount = 0`), which depends on the options alone.

`Call` is a call that writes, and `Call.applyTo_eq_some` what its shard update does.
-/

import Keva.Store.KVStore

namespace Keva
namespace Store

open Eviction (Range)
open Expiry (Content Write visible)

namespace KVStore

/-- The value and the expiry stored under each key. -/
def content (kv : KVStore) : Content Key Bytes Time := fun k =>
  ((kv.getShard k).bind fun i => kv.shards[i]?).bind fun s => s.content k

/-- The same budget in every shard, zero being none, and every entry in the shard
its key hashes to. -/
structure Regular (budget : ℤ) (kv : KVStore) : Prop where
  budget_eq : ∀ s ∈ kv.shards, s.budget = budget
  placed : ∀ {i s k}, kv.shards[i]? = some s → s.content k ≠ none → kv.getShard k = some i

variable {kv kv' : KVStore} {b : ℤ} {i : ℕ} {s s' : Shard} {k key : Key}

/-- What a store has for a key is what its shard has for it. -/
theorem content_of_getShard (hk : kv.getShard k = some i) (hs : kv.shards[i]? = some s) :
    kv.content k = s.content k := by
  simp [content, hk, hs]

/-- A key has a shard unless the number of shards is zero modulo `2 ^ 32`. -/
theorem exists_shard (h : kv.shardCount ≠ 0) (k : Key) :
    ∃ i s, kv.getShard k = some i ∧ kv.shards[i]? = some s := by
  have hpos : 0 < kv.shardCount.toNat := Nat.pos_of_ne_zero fun h0 => h (UInt32.toNat_inj.1 h0)
  have hlt : (fnv32a k % kv.shardCount).toNat < kv.shards.length := by
    rw [UInt32.toNat_mod]
    exact (Nat.mod_lt _ hpos).trans_le kv.inBounds
  exact ⟨_, _, if_neg h, List.getElem?_eq_getElem hlt⟩

/-- With a shard count of zero the modulo in `getShard` does not return. -/
theorem getShard_of_shardCount_eq_zero (h : kv.shardCount = 0) (k : Key) :
    kv.getShard k = none :=
  if_pos h

/-- So no key is anywhere in such a store. -/
theorem content_of_shardCount_eq_zero (h : kv.shardCount = 0) (k : Key) : kv.content k = none := by
  simp [content, getShard_of_shardCount_eq_zero h]

/-- The shard of a key depends on the number of shards alone. -/
theorem getShard_congr (h : kv'.shardCount = kv.shardCount) (k : Key) :
    kv'.getShard k = kv.getShard k := by
  unfold getShard
  rw [h]

/-- Where no key has a shard, the shards are empty. -/
theorem Regular.content_eq_none (h : kv.Regular b) (h0 : kv.shardCount = 0)
    (hs : kv.shards[i]? = some s) (k : Key) : s.content k = none := by
  by_contra hne
  have hk := h.placed hs hne
  rw [getShard_of_shardCount_eq_zero h0] at hk
  cases hk

/-- Where no key has a shard, a compaction finds nothing. -/
theorem Regular.snapshot_eq_nil (h : kv.Regular b) (h0 : kv.shardCount = 0)
    (hs : kv.shards[i]? = some s) (range : Range) (now : Time) : s.snapshot range now = [] := by
  refine List.eq_nil_iff_forall_not_mem.2 fun r hr => ?_
  obtain ⟨k, v, e, hv, -⟩ := (Shard.mem_snapshot_iff ..).1 hr
  rw [h.content_eq_none h0 hs] at hv
  cases hv

/-- **Changing a shard** changes the keys that hash to it, and no others: a key is looked up in
one shard only. -/
theorem content_setShard_eq (hs : kv.shards[i]? = some s) (s' : Shard) (k : Key) :
    (kv.setShard i s').content k = if kv.getShard k = some i then s'.content k else kv.content k := by
  have hlt : i < kv.shards.length := (List.getElem?_eq_some_iff.1 hs).1
  split_ifs with hk
  · have hget : (kv.setShard i s').getShard k = some i := hk
    exact content_of_getShard hget (List.getElem?_set_self hlt)
  · unfold content
    change ((kv.getShard k).bind fun j => (kv.shards.set i s')[j]?).bind _ = _
    cases hj : kv.getShard k with
    | none => rfl
    | some j =>
      have hne : i ≠ j := fun hij => hk (hj.trans (hij ▸ rfl))
      simp [List.getElem?_set_ne hne]

/-- **Changing one key of its shard** changes one key of the store.  This is how every call on
one key is lifted from its shard to the store. -/
theorem content_setShard (hk : kv.getShard key = some i) (hs : kv.shards[i]? = some s)
    {o : Option (Bytes × Time)} (h : s'.content = Function.update s.content key o) :
    (kv.setShard i s').content = Function.update kv.content key o := by
  funext k
  rw [content_setShard_eq hs, h]
  by_cases hkk : k = key
  · rw [if_pos (hkk ▸ hk), hkk, Function.update_self, Function.update_self]
  · rw [Function.update_of_ne hkk, Function.update_of_ne hkk]
    split_ifs with hki
    · exact (content_of_getShard hki hs).symm
    · rfl

/-- A shard is replaced by another one, all of whose entries belong there.  This is where an
eviction or a sweep does no harm. -/
theorem Regular.setShard_of_placed (h : kv.Regular b) (hs : kv.shards[i]? = some s)
    (hb : s'.budget = b) (hplaced : ∀ k, s'.content k ≠ none → kv.getShard k = some i) :
    (kv.setShard i s').Regular b := by
  have hlt : i < kv.shards.length := (List.getElem?_eq_some_iff.1 hs).1
  constructor
  · intro x hx
    rcases List.mem_or_eq_of_mem_set hx with hx | rfl
    · exact h.budget_eq x hx
    · exact hb
  · intro j x k hx hne
    change kv.getShard k = some j
    by_cases hij : i = j
    · subst hij
      obtain rfl := Option.some.inj ((List.getElem?_set_self hlt).symm.trans hx)
      exact hplaced k hne
    · exact h.placed ((List.getElem?_set_ne hij).symm.trans hx) hne

/-- A shard that differs from the old one on a key of its own keeps the store regular. -/
theorem Regular.setShard (h : kv.Regular b) (hk : kv.getShard key = some i)
    (hs : kv.shards[i]? = some s) {o : Option (Bytes × Time)}
    (hc : s'.content = Function.update s.content key o) (hb : s'.budget = b) :
    (kv.setShard i s').Regular b := by
  refine h.setShard_of_placed hs hb fun k hne => ?_
  by_cases hkk : k = key
  · rw [hkk, hk]
  · rw [hc, Function.update_of_ne hkk] at hne
    exact h.placed hs hne

/-- What is in the log does not matter. -/
theorem Regular.withWal (h : kv.Regular b) (w : Wal.WAL) : ({ kv with wal := w } : KVStore).Regular b :=
  ⟨h.budget_eq, h.placed⟩

/-! ### One call at a time -/

/-- **The critical section of a set** on a store without a budget: nothing is refused and nothing
evicted, and the log is not touched. -/
theorem applySet_eq_some (h : kv.Regular 0) {ranges : ℕ → Range} {value : Bytes} {expiredAt now : Time}
    {err : Option Err} (hr : kv.applySet ranges key value expiredAt now = some (kv', err)) :
    err = none ∧ kv'.Regular 0 ∧ kv'.wal = kv.wal ∧
      kv'.content = (Write.set key value expiredAt).apply kv.content := by
  simp only [applySet, bind, Option.bind_eq_some_iff, pure, Option.some.injEq, Prod.exists] at hr
  obtain ⟨i, hk, s, hs, s₁, e, hset, hr⟩ := hr
  have hb : s.budget = 0 := h.budget_eq s (List.mem_of_getElem? hs)
  obtain ⟨s', hset', hb', hc⟩ := Shard.content_setWithExpiry hb ranges key value expiredAt now
  obtain ⟨rfl, rfl⟩ := Prod.mk.inj (Option.some.inj (hset'.symm.trans hset))
  obtain ⟨rfl, rfl⟩ := Prod.mk.inj hr
  exact ⟨rfl, h.setShard hk hs hc hb', rfl, content_setShard hk hs hc⟩

/-- Without a budget a set is carried out: there is a shard for its key, and no policy refuses
it. -/
theorem applySet_isSome (h : kv.Regular 0) (hc : kv.shardCount ≠ 0) (ranges : ℕ → Range) (key : Key)
    (value : Bytes) (expiredAt now : Time) :
    ∃ kv', kv.applySet ranges key value expiredAt now = some (kv', none) := by
  obtain ⟨i, s, hk, hs⟩ := exists_shard hc key
  have hb : s.budget = 0 := h.budget_eq s (List.mem_of_getElem? hs)
  obtain ⟨s', hset, -, -⟩ := Shard.content_setWithExpiry hb ranges key value expiredAt now
  exact ⟨kv.setShard i s', by simp [applySet, hk, hs, hset]⟩

/-- **The critical section of a delete:** it fails exactly when there is nothing
to delete. -/
theorem applyDelete_eq_some (h : kv.Regular b) {err : Option Err}
    (hr : kv.applyDelete key = some (kv', err)) :
    (err = if kv.content key = none then some .keyNotFound else none) ∧ kv'.Regular b ∧
      kv'.wal = kv.wal ∧ kv'.content = (Write.del key).apply kv.content := by
  simp only [applyDelete, bind, Option.bind_eq_some_iff, pure, Option.some.injEq] at hr
  obtain ⟨i, hk, s, hs, hr⟩ := hr
  obtain ⟨rfl, rfl⟩ := Prod.mk.inj hr
  obtain ⟨hb, hc, herr⟩ := Shard.content_delete s key
  have hb' : (s.delete key).1.budget = b := hb.trans (h.budget_eq s (List.mem_of_getElem? hs))
  rw [content_of_getShard hk hs]
  exact ⟨herr, h.setShard hk hs hc hb', rfl, content_setShard hk hs hc⟩

/-- A delete is carried out, and its error, if any, is that there was no such key. -/
theorem applyDelete_isSome (kv : KVStore) (hc : kv.shardCount ≠ 0) (key : Key) :
    ∃ kv' err, kv.applyDelete key = some (kv', err) := by
  obtain ⟨i, s, hk, hs⟩ := exists_shard hc key
  exact ⟨kv.setShard i (s.delete key).1, (s.delete key).2, by simp [applyDelete, hk, hs]⟩

/-- What `Get` answers, from the content alone. -/
def answer (o : Option (Bytes × Time)) : Except Err Bytes :=
  match o with
  | some (v, _) => .ok v
  | none => .error .keyNotFound

/-- **`Get` shows what is visible,** and changes nothing a later call can see. -/
theorem get_eq_some (h : kv.Regular b) {now : Time} {r : Except Err Bytes}
    (hr : kv.get key now = some (kv', r)) :
    r = answer (visible now (kv.content key)) ∧ kv'.Regular b ∧
      kv'.wal = kv.wal ∧ kv'.content = kv.content := by
  simp only [get, bind, Option.bind_eq_some_iff] at hr
  obtain ⟨i, hk, s, hs, hr⟩ := hr
  rw [content_of_getShard hk hs]
  unfold Shard.content
  cases hrec : s.data.lookup key with
  | none =>
    simp only [hrec, pure, Option.some.injEq] at hr
    obtain ⟨rfl, rfl⟩ := Prod.mk.inj hr
    exact ⟨rfl, h, rfl, rfl⟩
  | some rec =>
    simp only [hrec, pure] at hr
    split_ifs at hr with he
    · obtain ⟨rfl, rfl⟩ := Prod.mk.inj (Option.some.inj hr)
      refine ⟨?_, h, rfl, rfl⟩
      rw [Option.map_some, Expiry.visible_some, if_neg (not_le.2 he)]
      rfl
    · obtain ⟨rfl, rfl⟩ := Prod.mk.inj (Option.some.inj hr)
      have hc : ({ s with policy := s.policy.afterRead key } : Shard).content =
          Function.update s.content key (s.content key) := (Function.update_eq_self ..).symm
      refine ⟨?_, h.setShard hk hs hc (h.budget_eq s (List.mem_of_getElem? hs)), rfl, ?_⟩
      · rw [Option.map_some, Expiry.visible_some, if_pos (not_lt.1 he)]
        rfl
      · rw [content_setShard hk hs hc, ← content_of_getShard hk hs, Function.update_eq_self]

/-- A get returns. -/
theorem get_isSome (hc : kv.shardCount ≠ 0) (key : Key) (now : Time) :
    ∃ kv' r, kv.get key now = some (kv', r) := by
  obtain ⟨i, s, hk, hs⟩ := exists_shard hc key
  cases hrec : s.data.lookup key with
  | none => exact ⟨kv, .error .keyNotFound, by simp [get, hk, hs, hrec]⟩
  | some rec =>
    by_cases he : rec.expiredAt < now
    · exact ⟨kv, .error .keyNotFound, by simp [get, hk, hs, hrec, he]⟩
    · exact ⟨kv.setShard i { s with policy := s.policy.afterRead key }, .ok rec.value,
        by simp [get, hk, hs, hrec, he]⟩

/-- Changing every shard in place, key by key. -/
theorem content_mapIdx {f : ℕ → Shard → Shard} {g : Option (Bytes × Time) → Option (Bytes × Time)}
    (hg : g none = none) (hf : ∀ i s k, (f i s).content k = g (s.content k))
    (hlen : kv.shardCount.toNat ≤ (kv.shards.mapIdx f).length) (k : Key) :
    ({ kv with shards := kv.shards.mapIdx f, inBounds := hlen } : KVStore).content k =
      g (kv.content k) := by
  unfold content
  change ((kv.getShard k).bind fun i => (kv.shards.mapIdx f)[i]?).bind _ = _
  cases kv.getShard k with
  | none => simp [hg]
  | some i =>
    cases hs : kv.shards[i]? with
    | none => simp [hs, hg]
    | some s => simp [hs, hf]

/-- All shards may change at once, if none of them gets a key that it did not have. -/
theorem Regular.mapIdx (h : kv.Regular b) {f : ℕ → Shard → Shard}
    (hb : ∀ i s, (f i s).budget = s.budget)
    (hf : ∀ i s k, (f i s).content k ≠ none → s.content k ≠ none)
    (hlen : kv.shardCount.toNat ≤ (kv.shards.mapIdx f).length) :
    ({ kv with shards := kv.shards.mapIdx f, inBounds := hlen } : KVStore).Regular b := by
  constructor
  · intro x hx
    obtain ⟨i, hi, rfl⟩ := List.mem_mapIdx.1 hx
    rw [hb]
    exact h.budget_eq _ (List.getElem_mem hi)
  · intro j x k hx hne
    rw [List.getElem?_mapIdx, Option.map_eq_some_iff] at hx
    obtain ⟨s, hs, rfl⟩ := hx
    exact h.placed hs (hf _ _ _ hne)

/-- **A round of the sweeper leaves what is visible,** in every shard, and drops the rest. -/
theorem content_sweep (ranges : ℕ → Range) (now : Time) (kv : KVStore) (k : Key) :
    (kv.sweep ranges now).content k = visible now (kv.content k) :=
  content_mapIdx (g := visible now) rfl (fun i s => (Shard.content_sweep (ranges i) now s).2) _ k

/-- A sweep of all shards, each with its own order of iteration. -/
theorem Regular.sweep (h : kv.Regular b) (ranges : ℕ → Range) (now : Time) :
    (kv.sweep ranges now).Regular b := by
  refine h.mapIdx (fun i s => (Shard.content_sweep (ranges i) now s).1) (fun i s k hne hnone => ?_) _
  rw [(Shard.content_sweep (ranges i) now s).2, hnone] at hne
  exact hne rfl

/-- **The sweeper in one shard** drops what is no longer visible there, and leaves the keys of
the other shards. -/
theorem content_sweepShard (hs : kv.shards[i]? = some s) (range : Range) (now : Time) (k : Key) :
    (kv.setShard i (s.sweep range now)).content k = visible now (kv.content k) ∨
      (kv.setShard i (s.sweep range now)).content k = kv.content k := by
  rw [content_setShard_eq hs]
  split_ifs with hk
  · rw [content_of_getShard hk hs]
    exact Or.inl ((Shard.content_sweep range now s).2 k)
  · exact Or.inr rfl

/-- No reader sees a sweep that is not ahead of the clock. -/
theorem agreeFrom_sweepShard (hs : kv.shards[i]? = some s) (range : Range) {now t : Time}
    (hnow : now ≤ t) :
    Expiry.AgreeFrom t (kv.setShard i (s.sweep range now)).content kv.content :=
  (Expiry.agreeFrom_of_visible_or_eq (content_sweepShard hs range now)).mono hnow

/-- A sweep of one shard. -/
theorem Regular.sweepShard (h : kv.Regular b) (hs : kv.shards[i]? = some s) (range : Range)
    (now : Time) : (kv.setShard i (s.sweep range now)).Regular b := by
  obtain ⟨hbudget, hcontent⟩ := Shard.content_sweep range now s
  refine h.setShard_of_placed hs (hbudget.trans (h.budget_eq s (List.mem_of_getElem? hs))) ?_
  intro k hne
  refine h.placed hs fun hnone => hne ?_
  rw [hcontent, hnone, Expiry.visible_none]

/-- **A compaction writes one set per visible entry** of the store, and nothing else: no deletes,
and no entries that have expired. -/
theorem mem_snapshot_iff (h : kv.Regular b) (ranges : ℕ → Range) (now : Time) (r : Wal.Record) :
    r ∈ kv.snapshot ranges now ↔
      ∃ k v e, visible now (kv.content k) = some (v, e) ∧ r = .ofSet k v e := by
  unfold snapshot
  simp only [List.mem_flatten, List.mem_mapIdx]
  constructor
  · rintro ⟨_, ⟨i, hi, rfl⟩, hr⟩
    obtain ⟨k, v, e, hv, rfl⟩ := (Shard.mem_snapshot_iff ..).1 hr
    have hs : kv.shards[i]? = some kv.shards[i] := List.getElem?_eq_getElem hi
    have hne : kv.shards[i].content k ≠ none := by
      intro hnone
      rw [hnone] at hv
      cases hv
    rw [← content_of_getShard (h.placed hs hne) hs] at hv
    exact ⟨k, v, e, hv, rfl⟩
  · rintro ⟨k, v, e, hv, rfl⟩
    cases hk : kv.getShard k with
    | none => simp [content, hk] at hv
    | some i =>
      cases hs : kv.shards[i]? with
      | none => simp [content, hk, hs] at hv
      | some s =>
        obtain ⟨hi, rfl⟩ := List.getElem?_eq_some_iff.1 hs
        rw [content_of_getShard hk hs] at hv
        exact ⟨_, ⟨i, hi, rfl⟩, (Shard.mem_snapshot_iff ..).2 ⟨k, v, e, hv, rfl⟩⟩

end KVStore

/-! ### Write calls -/

/-- A call that writes: `SetWithExpiry` or `Delete`.  Both are logged first and then carried out
in their shard. -/
inductive Call
  | setWithExpiry (key : Key) (value : Bytes) (expiredAt : Time)
  | delete (key : Key)
  deriving DecidableEq

namespace Call

/-- The key that a call is about. -/
def key : Call → Key
  | setWithExpiry key _ _ => key
  | delete key => key

/-- The record the call appends. -/
def record : Call → Wal.Record
  | setWithExpiry key value expiredAt => .ofSet key value expiredAt
  | delete key => .ofDelete key

/-- The write the call stands for. -/
def write : Call → Write Key Bytes Time
  | setWithExpiry key value expiredAt => .set key value expiredAt
  | delete key => .del key

/-- The write of a call is on its key. -/
@[simp] theorem key_write (c : Call) : c.write.key = c.key := by cases c <;> rfl

/-- The record that a call appends to the log stands for the write that it makes in memory. -/
@[simp] theorem writeOf_record (c : Call) : writeOf c.record = some c.write := by cases c <;> rfl

/-- The call after its append. -/
def applyTo (c : Call) (ranges : ℕ → Range) (kv : KVStore) (now : Time) :
    Option (KVStore × Option Err) :=
  match c with
  | setWithExpiry key value expiredAt => kv.applySet ranges key value expiredAt now
  | delete key => kv.applyDelete key

/-- The whole call. -/
def exec (c : Call) (ranges : ℕ → Range) (kv : KVStore) (now : Time) :
    Option (KVStore × Option Err) :=
  match c with
  | setWithExpiry key value expiredAt => kv.setWithExpiry ranges key value expiredAt now
  | delete key => kv.delete key

/-- A call first appends its record and then goes to the shard. -/
theorem exec_eq (c : Call) (ranges : ℕ → Range) (kv : KVStore) (now : Time) :
    c.exec ranges kv now = c.applyTo ranges (kv.append c.record) now := by
  cases c <;> rfl

/-- The error the call returns where there is no budget. -/
def err : Call → Content Key Bytes Time → Option Err
  | setWithExpiry .., _ => none
  | delete key, m => if m key = none then some .keyNotFound else none

variable {c : Call} {ranges : ℕ → Range} {kv kv' : KVStore} {now : Time} {e : Option Err}

/-- **The shard update of a call is its write,** and its error is that of the call on the
contents. -/
theorem applyTo_eq_some (h : kv.Regular 0) (hr : c.applyTo ranges kv now = some (kv', e)) :
    e = c.err kv.content ∧ kv'.Regular 0 ∧ kv'.wal = kv.wal ∧
      kv'.content = c.write.apply kv.content := by
  cases c with
  | setWithExpiry key value expiredAt => exact KVStore.applySet_eq_some h hr
  | delete key => exact KVStore.applyDelete_eq_some h hr

/-- No call changes how many shards there are, and so no key ever changes its shard. -/
theorem applyTo_shape (hr : c.applyTo ranges kv now = some (kv', e)) :
    kv'.shardCount = kv.shardCount ∧ kv'.shards.length = kv.shards.length := by
  cases c with
  | setWithExpiry key value expiredAt =>
    simp only [applyTo, KVStore.applySet, bind, Option.bind_eq_some_iff, pure, Option.some.injEq,
      Prod.exists] at hr
    obtain ⟨i, -, s, -, s', e', -, hset⟩ := hr
    obtain ⟨rfl, -⟩ := Prod.mk.inj hset
    exact ⟨rfl, List.length_set⟩
  | delete key =>
    simp only [applyTo, KVStore.applyDelete, bind, Option.bind_eq_some_iff, pure,
      Option.some.injEq] at hr
    obtain ⟨i, -, s, -, hdel⟩ := hr
    obtain ⟨rfl, -⟩ := Prod.mk.inj hdel
    exact ⟨rfl, List.length_set⟩

/-- **A whole call is its write:** the log grows before, and the memory changes as if there were
none. -/
theorem exec_eq_some (h : kv.Regular 0) (hr : c.exec ranges kv now = some (kv', e)) :
    e = c.err kv.content ∧ kv'.Regular 0 ∧ kv'.shardCount = kv.shardCount ∧
      kv'.content = c.write.apply kv.content := by
  rw [exec_eq] at hr
  obtain ⟨herr, hreg, -, hc⟩ := applyTo_eq_some (h.withWal _) hr
  exact ⟨herr, hreg, (applyTo_shape hr).1, hc⟩

end Call

end Store
end Keva
