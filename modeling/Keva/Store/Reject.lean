/-
# A write that is refused

With the policy `NoEvict` a write that does not fit beside the other entries is
answered with `ErrMemoryFull`.  `SetWithExpiry` puts the old entry back, so the
memory is as it was.  The record went into the log before the policy was asked,
and stays there: recovery replays it, and the store that is rebuilt holds what
the caller was told could not be stored (`refused_set_is_recovered`).

`refused_set_iff` says when the call leaves no trace.  The log has to hold that
very entry for the key already, or both the entry and what the log holds for the
key have to be expired by the time from which on the store may be rebuilt.  The
entry is the one the log reads back: a record has eight bytes for the expiry, so an
instant beyond the range of a signed 64-bit number of nanoseconds, as a long TTL
gives, comes back as another one (`Wal.Record.wrapExpiry`).  Of keys and values only
the lengths matter, which have to fit the fields of a record.
-/

import Keva.Store.Restart

namespace Keva
namespace Store

open Bytes
open Eviction (Range)
open Eviction.Shard (data_evict budget_evict)
open Expiry (Content Write visible loaded)

namespace Shard

/-- **A write under `NoEvict`** sets the entry, or is refused and leaves the shard
as it was. -/
theorem setWithExpiry_noEvict {s s' : Shard} (hp : s.policy = .noEvict) {ranges : ℕ → Range}
    {key : Key} {value : Bytes} {expiredAt now : Time} {err : Option Err}
    (h : s.setWithExpiry ranges key value expiredAt now = some (s', err)) :
    s'.budget = s.budget ∧ s'.policy = .noEvict ∧
      (err = none ∧ s'.content = (Write.set key value expiredAt).apply s.content ∨
        err = some .memoryFull ∧ s' = s) := by
  have hbefore : ∃ accepted, s.policy.beforeWrite ranges (s.toShard.evict key) key
      (key.length + value.length) = some (accepted, .noEvict, s.toShard.evict key) := by
    rw [hp, Eviction.Policy.beforeWrite]
    split_ifs
    · exact ⟨_, rfl⟩
    · exact ⟨_, rfl⟩
  obtain ⟨accepted, hbefore⟩ := hbefore
  rw [setWithExpiry, hbefore, Option.map_some] at h
  cases accepted with
  | true =>
    obtain ⟨rfl, rfl⟩ := Prod.mk.inj (Option.some.inj h)
    refine ⟨budget_evict .., rfl, Or.inl ⟨rfl, ?_⟩⟩
    refine content_of_data_insert (r := ⟨value, now, expiredAt⟩) (fun k hk => ?_) ?_
    · change ((s.toShard.evict key).data.insert key _).lookup k = _
      rw [Finmap.lookup_insert_of_ne _ hk, data_evict, Finmap.lookup_erase_ne hk]
    · exact Finmap.lookup_insert _
  | false =>
    obtain ⟨⟨data, bytes, budget⟩, policy⟩ := s
    subst hp
    cases hold : data.lookup key with
    | none =>
      simp only [hold] at h
      obtain ⟨rfl, rfl⟩ := Prod.mk.inj (Option.some.inj h)
      have hview : Eviction.Shard.evict ⟨data, bytes, budget⟩ key = ⟨data, bytes, budget⟩ := by
        simp [Eviction.Shard.evict, hold]
      rw [hview]
      exact ⟨rfl, rfl, Or.inr ⟨rfl, rfl⟩⟩
    | some rec =>
      simp only [hold] at h
      obtain ⟨rfl, rfl⟩ := Prod.mk.inj (Option.some.inj h)
      have hview : Eviction.Shard.evict ⟨data, bytes, budget⟩ key =
          ⟨data.erase key, bytes - (key.length + rec.value.length), budget⟩ := by
        simp [Eviction.Shard.evict, hold]
      have hback : (data.erase key).insert key rec = data := by
        refine Finmap.ext_lookup fun k => ?_
        by_cases hk : k = key
        · rw [hk, Finmap.lookup_insert, hold]
        · rw [Finmap.lookup_insert_of_ne _ hk, Finmap.lookup_erase_ne hk]
      simp [hview, hback]

/-- A delete does not exchange the policy of its shard. -/
theorem policy_delete {s : Shard} (hp : s.policy = .noEvict) (key : Key) :
    (s.delete key).1.policy = .noEvict := by
  unfold delete
  split
  · exact hp
  · simp [hp, Eviction.Policy.afterDelete]

/-- Neither does a sweep change the policy: it tells `NoEvict` of every key that it drops, which
keeps nothing. -/
theorem policy_sweep {s : Shard} (hp : s.policy = .noEvict) (range : Range) (now : Time) :
    (s.sweep range now).policy = .noEvict := by
  unfold sweep
  generalize range.keys s.data = ks
  induction ks generalizing s with
  | nil => exact hp
  | cons k ks ih =>
    refine ih ?_
    unfold sweepKey
    split
    · exact hp
    · split_ifs
      · simp [hp, Eviction.Policy.afterDelete]
      · exact hp

/-- Nor a record that is loaded. -/
theorem policy_load (now : Time) (s : Shard) (r : Wal.Record) : (s.load now r).policy = s.policy := by
  unfold load
  split_ifs <;> rfl

/-- Nor the end of recovery. -/
theorem policy_settle {s : Shard} (hp : s.policy = .noEvict) (range : Range) :
    (s.settle range).policy = .noEvict := by
  unfold settle
  generalize range.keys s.data = ks
  induction ks generalizing s with
  | nil => exact hp
  | cons k ks ih =>
    refine ih ?_
    dsimp only
    split
    · exact hp
    · simp [hp, Eviction.Policy.afterWrite]

end Shard

/-- The lengths of the record of the call, if it appends one, fit the format of the log;
its expiry may be any. -/
def Op.LengthsFit (op : Op) : Prop := ∀ r, op.record = some r → r.LengthsFit

variable {kv kv' : KVStore} {b : ℤ} {op : Op} {ops : List Op} {r : Reply} {rs : List Reply}
  {key : Key} {value : Bytes} {expiredAt now : Time} {ranges : ℕ → Range}

/-- Every shard has the policy `NoEvict`, which refuses a set where there is no room for it. -/
def KVStore.NoEvict (kv : KVStore) : Prop := ∀ s ∈ kv.shards, s.policy = .noEvict

/-- Every entry has a key and a value whose lengths fit the format of the log. -/
def KVStore.LengthsFit (kv : KVStore) : Prop :=
  ∀ k v e, kv.content k = some (v, e) → k.length ≤ 65535 ∧ v.length < 2 ^ 32

/-- A store under `NoEvict` with a log that can be read.  The lengths are what a compaction
needs to write such a log again. -/
structure Guarded (b : ℤ) (kv : KVStore) : Prop where
  regular : kv.Regular b
  noEvict : kv.NoEvict
  lengths : kv.LengthsFit
  readable : kv.wal.Readable

namespace KVStore

/-- The log is none of the policies' business. -/
theorem NoEvict.withWal (h : kv.NoEvict) (w : Wal.WAL) : ({ kv with wal := w } : KVStore).NoEvict :=
  h

/-- A shard may be exchanged for one with the same policy. -/
theorem NoEvict.setShard (h : kv.NoEvict) (i : ℕ) {s : Shard} (hs : s.policy = .noEvict) :
    (kv.setShard i s).NoEvict := by
  intro x hx
  rcases List.mem_or_eq_of_mem_set hx with hx | rfl
  · exact h x hx
  · exact hs

/-- A get leaves the policy: `NoEvict` does nothing after a read. -/
theorem NoEvict.get (h : kv.NoEvict) {a : Except Err Bytes}
    (hr : kv.get key now = some (kv', a)) : kv'.NoEvict := by
  simp only [KVStore.get, bind, Option.bind_eq_some_iff, pure] at hr
  obtain ⟨i, -, s, hs, hr⟩ := hr
  have hkeep : s.policy.afterRead key = .noEvict := by rw [h s (List.mem_of_getElem? hs)]; rfl
  split at hr
  · obtain ⟨rfl, -⟩ := Prod.mk.inj (Option.some.inj hr)
    exact h
  · split_ifs at hr
    · obtain ⟨rfl, -⟩ := Prod.mk.inj (Option.some.inj hr)
      exact h
    · obtain ⟨rfl, -⟩ := Prod.mk.inj (Option.some.inj hr)
      exact h.setShard i hkeep

/-- A delete leaves the policy too. -/
theorem NoEvict.applyDelete (h : kv.NoEvict) {err : Option Err}
    (hr : kv.applyDelete key = some (kv', err)) : kv'.NoEvict := by
  simp only [KVStore.applyDelete, bind, Option.bind_eq_some_iff, pure, Option.some.injEq] at hr
  obtain ⟨i, -, s, hs, hr⟩ := hr
  obtain ⟨rfl, -⟩ := Prod.mk.inj hr
  exact h.setShard i (Shard.policy_delete (h s (List.mem_of_getElem? hs)) key)

/-- A write keeps the lengths within the format if its own are. -/
theorem LengthsFit.apply (h : kv.LengthsFit) {w : Write Key Bytes Time}
    (hw : ∀ v e, w.entry = some (v, e) → w.key.length ≤ 65535 ∧ v.length < 2 ^ 32)
    (hc : kv'.content = w.apply kv.content) : kv'.LengthsFit := by
  intro k v e hk
  rw [hc] at hk
  by_cases hkey : k = w.key
  · rw [hkey, Write.apply_key] at hk
    exact hkey ▸ hw v e hk
  · rw [Write.apply_of_ne hkey] at hk
    exact h k v e hk

/-- What a compaction writes has lengths that fit. -/
theorem LengthsFit.snapshot (h : kv.LengthsFit) (hreg : kv.Regular b) (ranges : ℕ → Range)
    (now : Time) : ∀ r ∈ kv.snapshot ranges now, r.LengthsFit := by
  intro r hr
  obtain ⟨k, v, e, hv, rfl⟩ := (mem_snapshot_iff hreg ranges now r).1 hr
  obtain ⟨hkey, hvalue⟩ := h k v e (Expiry.visible_eq_some_iff.1 hv).1
  exact Wal.Record.lengthsFit_ofSet hkey hvalue e

/-- **The critical section of a set under `NoEvict`.**  It stores the entry, or reports that
memory is full and changes nothing. -/
theorem NoEvict.applySet (hpol : kv.NoEvict) (hreg : kv.Regular b) {err : Option Err}
    (h : kv.applySet ranges key value expiredAt now = some (kv', err)) :
    kv'.Regular b ∧ kv'.NoEvict ∧ kv'.wal = kv.wal ∧
      (err = none ∧ kv'.content = (Write.set key value expiredAt).apply kv.content ∨
        err = some .memoryFull ∧ kv'.shards = kv.shards ∧ kv'.content = kv.content) := by
  simp only [KVStore.applySet, bind, Option.bind_eq_some_iff, pure, Option.some.injEq, Prod.exists] at h
  obtain ⟨i, hk, s, hs, s', e, hset, h⟩ := h
  obtain ⟨rfl, rfl⟩ := Prod.mk.inj h
  have hmem := List.mem_of_getElem? hs
  obtain ⟨hbud, hpol', hcase⟩ := Shard.setWithExpiry_noEvict (hpol s hmem) hset
  have hpolicies := hpol.setShard i hpol'
  have hb : s'.budget = b := hbud.trans (hreg.budget_eq s hmem)
  rcases hcase with ⟨rfl, hc⟩ | ⟨rfl, rfl⟩
  · exact ⟨hreg.setShard hk hs hc hb, hpolicies, rfl, Or.inl ⟨rfl, content_setShard hk hs hc⟩⟩
  · have hc : s'.content = Function.update s'.content key (s'.content key) :=
      (Function.update_eq_self ..).symm
    refine ⟨hreg.setShard hk hs hc hb, hpolicies, rfl, Or.inr ⟨rfl, ?_, ?_⟩⟩
    · obtain ⟨hi, heq⟩ := List.getElem?_eq_some_iff.1 hs
      subst heq
      exact List.set_getElem_self hi
    · rw [content_setShard hk hs hc, ← content_of_getShard hk hs, Function.update_eq_self]

end KVStore

/-- **Every call keeps the store guarded.**  A set that is refused has been logged all the same,
so that the log is extended by one record in either case. -/
theorem Guarded.step (h : Guarded b kv) (hop : op.LengthsFit) (hs : kv.step op = some (kv', r)) :
    Guarded b kv' := by
  cases op with
  | setWithExpiry ranges key value expiredAt now =>
    obtain ⟨⟨kv₁, err⟩, hr, heq⟩ := Option.map_eq_some_iff.1 hs
    obtain ⟨rfl, rfl⟩ := Prod.mk.inj heq
    have hfit := hop _ rfl
    obtain ⟨hreg, hpol, hwal, hcase⟩ :=
      (h.noEvict.withWal _).applySet (h.regular.withWal _) hr
    refine ⟨hreg, hpol, ?_, hwal ▸ h.readable.append_of_lengthsFit hfit⟩
    rcases hcase with ⟨-, hc⟩ | ⟨-, -, hc⟩
    · refine h.lengths.apply (fun v e he => ?_) hc
      obtain ⟨rfl, -⟩ := Prod.mk.inj (Option.some.inj he)
      exact ⟨hfit.key_le, hfit.value_lt⟩
    · exact fun k v e hk => h.lengths k v e (hc ▸ hk)
  | get key now =>
    obtain ⟨⟨kv₁, a⟩, hr, heq⟩ := Option.map_eq_some_iff.1 hs
    obtain ⟨rfl, rfl⟩ := Prod.mk.inj heq
    obtain ⟨-, hreg, hwal, hc⟩ := KVStore.get_eq_some h.regular hr
    exact ⟨hreg, h.noEvict.get hr, fun k v e hk => h.lengths k v e (hc ▸ hk), hwal ▸ h.readable⟩
  | delete key =>
    obtain ⟨⟨kv₁, err⟩, hr, heq⟩ := Option.map_eq_some_iff.1 hs
    obtain ⟨rfl, rfl⟩ := Prod.mk.inj heq
    have hfit := hop _ rfl
    obtain ⟨-, hreg, hwal, hc⟩ := KVStore.applyDelete_eq_some (h.regular.withWal _) hr
    refine ⟨hreg, (h.noEvict.withWal _).applyDelete hr, ?_,
      hwal ▸ h.readable.append_of_lengthsFit hfit⟩
    exact h.lengths.apply (fun v e he => by cases he) hc
  | sweep ranges now =>
    obtain ⟨rfl, rfl⟩ := Prod.mk.inj (Option.some.inj hs)
    refine ⟨h.regular.sweep ranges now, ?_, fun k v e hk => ?_, h.readable⟩
    · intro x hx
      obtain ⟨i, hi, rfl⟩ := List.mem_mapIdx.1 hx
      exact Shard.policy_sweep (h.noEvict _ (List.getElem_mem hi)) _ _
    · rw [KVStore.content_sweep] at hk
      exact h.lengths k v e (Expiry.visible_eq_some_iff.1 hk).1
  | compact ranges now =>
    obtain ⟨rfl, rfl⟩ := Prod.mk.inj (Option.some.inj hs)
    exact ⟨h.regular.withWal _, h.noEvict, h.lengths,
      h.readable.compact_of_lengthsFit (h.lengths.snapshot h.regular ranges now)⟩
  | flush n =>
    obtain ⟨rfl, rfl⟩ := Prod.mk.inj (Option.some.inj hs)
    exact ⟨h.regular.withWal _, h.noEvict, h.lengths, h.readable.flush n⟩

/-- **So does every run,** by induction on its calls. -/
theorem Guarded.run (h : Guarded b kv) (hops : ∀ op ∈ ops, op.LengthsFit)
    (hr : kv.run ops = some (kv', rs)) : Guarded b kv' := by
  induction ops generalizing kv rs with
  | nil =>
    obtain ⟨rfl, rfl⟩ := Prod.mk.inj (Option.some.inj hr)
    exact h
  | cons op ops ih =>
    obtain ⟨kv₁, r, rs₁, hstep, hrun⟩ := KVStore.run_cons_eq_some hr
    exact ih (h.step (hops op List.mem_cons_self) hstep)
      (fun x hx => hops x (List.mem_cons_of_mem _ hx)) hrun

/-- A store opened under `NoEvict`. -/
theorem KVStore.noEvict_of_newKVStore {file : Option Bytes} {walOpts : Wal.Options}
    {opts : Options} (hpolicy : opts.newEviction.getD .noevict = .noevict)
    (h : newKVStore ranges file walOpts opts now = some (.ok kv)) : kv.NoEvict := by
  refine (forall_shards_newKVStore (P := fun s => s.policy = .noEvict) (fun b _ => ?_)
    (fun s r hs => ?_) (fun range s hs => Shard.policy_settle hs range) h).2
  · rw [hpolicy]
    rfl
  · rw [Shard.policy_load]
    exact hs

/-- The content `NewKVStore` would rebuild at time `t` from a log holding `log`. -/
def rebuilt (ranges : ℕ → Range) (walOpts : Wal.Options) (opts : Options) (t : Time) (log : Bytes) :
    Option (Except ReadError (Content Key Bytes Time)) :=
  (newKVStore ranges (some log) walOpts opts t).map fun r => r.map KVStore.content

/-- **What is rebuilt from a log is what the log says,** less what has expired by then. -/
theorem rebuilt_eq {opts : Options} (hb : shardBudget opts = some b)
    (hc : UInt32.ofNat opts.shardCount ≠ 0) {log : Bytes} (hlog : (Wal.replay log).2 = none)
    (ranges : ℕ → Range) (walOpts : Wal.Options) (t : Time) :
    rebuilt ranges walOpts opts t log = some (.ok fun k => loaded t (logContent log k)) := by
  obtain ⟨kv, hkv⟩ := exists_newKVStore (some log) hb hlog (Or.inl hc) ranges walOpts t
  have hcontent := funext (newKVStore_eq_ok hkv).2.2.2.2
  rw [rebuilt, hkv, Option.map_some, Except.map, hcontent]
  rfl

/-- **When a refused write leaves no trace.**  After any run of calls on a store opened
under `NoEvict`, and for any write that is refused, where the lengths of keys and values
fit the fields of a record and the expiries are any: the memory is as it was, and so is
everything that may be rebuilt from time `T` on, exactly when the log holds that very
entry for the key already or both have expired by `T`.  The expiry is the one the log
reads back, the 64-bit two's complement of the one that was asked for. -/
theorem refused_set_iff {ranges₀ : ℕ → Range} {file₀ : Option Bytes} {walOpts : Wal.Options}
    {opts : Options} {t₀ : Time} {kv₀ : KVStore}
    (hpolicy : opts.newEviction.getD .noevict = .noevict)
    (hnew : newKVStore ranges₀ file₀ walOpts opts t₀ = some (.ok kv₀))
    (hlengths : ∀ op ∈ ops, op.LengthsFit) (hrun : kv₀.run ops = some (kv, rs))
    (hkey : key.length ≤ 65535) (hvalue : value.length < 2 ^ 32)
    (hset : kv.setWithExpiry ranges key value expiredAt now = some (kv', some .memoryFull))
    (T : Time) :
    (kv'.shards = kv.shards ∧ ∀ t ≥ T, ∀ ranges' walOpts',
        rebuilt ranges' walOpts' opts t kv'.wal.contents =
          rebuilt ranges' walOpts' opts t kv.wal.contents) ↔
      logContent kv.wal.contents key = some (value, int64 (uint64 expiredAt)) ∨
        int64 (uint64 expiredAt) ≤ T ∧ loaded T (logContent kv.wal.contents key) = none := by
  obtain ⟨hread, hcount, hwal, ⟨b, hb, hreg⟩, hcontent⟩ := newKVStore_eq_ok hnew
  have hguard₀ : Guarded b kv₀ := by
    refine ⟨hreg, KVStore.noEvict_of_newKVStore hpolicy hnew, fun k v e hk => ?_,
      hwal ▸ Wal.WAL.readable_openLog hread walOpts⟩
    rw [hcontent] at hk
    obtain ⟨hk', hv', -⟩ := bounds_of_logContent (Expiry.loaded_eq_some_iff.1 hk).1
    exact ⟨hk', hv'⟩
  have hguard := hguard₀.run hlengths hrun
  have hstep : kv.step (.setWithExpiry ranges key value expiredAt now) =
      some (kv', .wrote (some .memoryFull)) := by rw [KVStore.step, hset]; rfl
  have hcount' : UInt32.ofNat opts.shardCount ≠ 0 := by
    rw [← hcount, ← KVStore.run_shardCount hrun]
    exact KVStore.shardCount_ne_zero_of_step hstep rfl
  obtain ⟨-, -, hwal', hcase⟩ :=
    (hguard.noEvict.withWal _).applySet (hguard.regular.withWal _) hset
  obtain ⟨-, hshards, -⟩ := hcase.resolve_left fun h => by cases h.1
  have hlog : kv'.wal.contents =
      kv.wal.contents ++ (Wal.Record.ofSet key value expiredAt).encode := by
    rw [hwal']
    exact hguard.readable.contents_append _
  obtain ⟨hread', hlogContent⟩ :=
    logContent_append_set hguard.readable.contents hkey hvalue expiredAt
  generalize int64 (uint64 expiredAt) = e at hlogContent ⊢
  rw [← Expiry.forall_loaded_eq_iff, hlog]
  simp only [rebuilt_eq hb hcount' hguard.readable.contents, rebuilt_eq hb hcount' hread',
    hlogContent, Option.some.injEq, Except.ok.injEq]
  constructor
  · rintro ⟨-, h⟩ t ht
    have heq := congrFun (h t ht ranges₀ walOpts) key
    rwa [show (Write.set key value e).apply (logContent kv.wal.contents) key =
      some (value, e) from Write.apply_key (Write.set key value e) _] at heq
  · refine fun h => ⟨hshards, fun t ht _ _ => funext fun k => ?_⟩
    by_cases hk : k = key
    · subst hk
      rw [← h t ht]
      exact congrArg _ (Write.apply_key (Write.set k value e) _)
    · rw [Write.apply_of_ne (w := .set key value e) hk]

/-- One shard with room for one byte, on an empty log. -/
def tinyStore : KVStore := emptyStore 1 ⟨.always, 0, 0⟩ none ⟨1, 0, 1, none⟩

/-- It is what `NewKVStore` makes of no log with a budget of one byte. -/
theorem newKVStore_tinyStore (ranges : ℕ → Range) :
    newKVStore ranges none ⟨.always, 0, 0⟩ ⟨1, 0, 1, none⟩ 0 = some (.ok tinyStore) :=
  newKVStore_empty (by simp [shardBudget]) ranges _ 0

/-- Two bytes do not fit. -/
theorem setWithExpiry_tinyStore (ranges : ℕ → Range) (expiredAt : Time) :
    tinyStore.setWithExpiry ranges [1] [2] expiredAt 0 =
      some (tinyStore.append (.ofSet [1] [2] expiredAt), some .memoryFull) := by
  have hshard : (tinyStore.append (.ofSet [1] [2] expiredAt)).getShard [1] = some 0 := by
    rw [KVStore.getShard, if_neg (by change (1 : UInt32) ≠ 0; decide)]
    exact congrArg some (Nat.mod_one _)
  have hset : Shard.setWithExpiry ranges ⟨⟨∅, 0, 1⟩, .noEvict⟩ [1] [2] expiredAt 0 =
      some (⟨⟨∅, 0, 1⟩, .noEvict⟩, some .memoryFull) := rfl
  have hget : (tinyStore.append (.ofSet [1] [2] expiredAt)).shards[0]? =
      some ⟨⟨∅, 0, 1⟩, .noEvict⟩ := rfl
  simp only [KVStore.setWithExpiry_eq_applySet, KVStore.applySet, bind, hshard, Option.bind_some, hget, hset]
  rfl

/-- One shard with room for two bytes, on an empty log. -/
def twoByteStore : KVStore := emptyStore 2 ⟨.always, 0, 0⟩ none ⟨1, 0, 2, none⟩

/-- It is what `NewKVStore` makes of no log with a budget of two bytes. -/
theorem newKVStore_twoByteStore (ranges : ℕ → Range) :
    newKVStore ranges none ⟨.always, 0, 0⟩ ⟨1, 0, 2, none⟩ 0 = some (.ok twoByteStore) :=
  newKVStore_empty (by simp [shardBudget]) ranges _ 0

/-- A key is stored, and fills the shard.  The write of another key is refused; its expiry
of `2 ^ 63` nanoseconds, one more than the log can express, is read back as the earliest
one there is, so that the record has expired whenever the store may be rebuilt. -/
theorem refused_set_iff_expired :
    let ranges : ℕ → Range := fun _ => Eviction.byKey
    ∃ x ∈ twoByteStore.run [.setWithExpiry ranges [1] [7] 100 1],
      x.1.content [1] = some ([7], 100) ∧
      ∃ y ∈ x.1.setWithExpiry ranges [3] [4] (2 ^ 63) 2, y.2 = some .memoryFull ∧
        y.1.shards = x.1.shards ∧ ∀ t ≥ 5, ∀ ranges' walOpts',
          rebuilt ranges' walOpts' ⟨1, 0, 2, none⟩ t y.1.wal.contents =
            rebuilt ranges' walOpts' ⟨1, 0, 2, none⟩ t x.1.wal.contents := by
  intro ranges
  obtain ⟨x, hx, hcontent, y, hy, herr, hexpired, hnone⟩ :
      ∃ x ∈ twoByteStore.run [.setWithExpiry ranges [1] [7] 100 1],
        x.1.content [1] = some ([7], 100) ∧
        ∃ y ∈ x.1.setWithExpiry ranges [3] [4] (2 ^ 63) 2, y.2 = some .memoryFull ∧
          int64 (uint64 (2 ^ 63)) ≤ 5 ∧ loaded 5 (logContent x.1.wal.contents [3]) = none := by
    decide +kernel
  have hlengths : ∀ op ∈ [Op.setWithExpiry ranges [1] [7] 100 1], op.LengthsFit := by
    refine List.forall_mem_singleton.2 fun r hr => ?_
    obtain rfl := Option.some.inj hr
    exact Wal.Record.lengthsFit_ofSet (by decide) (by decide) 100
  have hset : x.1.setWithExpiry ranges [3] [4] (2 ^ 63) 2 = some (y.1, some .memoryFull) := by
    rw [← herr]
    exact hy
  obtain ⟨hshards, hrebuilt⟩ := (refused_set_iff (by decide) (newKVStore_twoByteStore ranges)
    hlengths hx (by decide) (by decide) hset 5).2 (Or.inr ⟨hexpired, hnone⟩)
  exact ⟨x, hx, hcontent, y, hy, herr, hshards, hrebuilt⟩

/-- **A refused write comes back.**  `SetWithExpiry` answers `ErrMemoryFull`, and a
restart serves the value; without the call it would serve nothing. -/
theorem refused_set_is_recovered :
    let ranges : ℕ → Range := fun _ => Eviction.byKey
    let walOpts : Wal.Options := ⟨.always, 0, 0⟩
    let opts : Options := ⟨1, 0, 1, none⟩
    let kv' := tinyStore.append (.ofSet [1] [2] 100)
    newKVStore ranges none walOpts opts 0 = some (.ok tinyStore) ∧
      tinyStore.setWithExpiry ranges [1] [2] 100 0 = some (kv', some .memoryFull) ∧
      rebuilt ranges walOpts opts 5 tinyStore.wal.contents = some (.ok fun _ => none) ∧
      ∃ m, rebuilt ranges walOpts opts 5 kv'.wal.contents = some (.ok m) ∧
        m [1] = some ([2], 100) := by
  intro ranges walOpts opts kv'
  have hb : shardBudget opts = some 1 := by simp [shardBudget, opts]
  have hc : UInt32.ofNat opts.shardCount ≠ 0 := by decide
  refine ⟨newKVStore_tinyStore ranges, setWithExpiry_tinyStore ranges 100,
    rebuilt_eq hb hc (by decide) ranges walOpts 5, ?_⟩
  exact ⟨_, rebuilt_eq hb hc (by decide) ranges walOpts 5, by decide⟩

end Store
end Keva
