/-
# One shard of the store

`storage/store/shard.go`, and the parts of `storage/store/kv_store.go` and
`storage/store/kv_store_util.go` that run under a shard's lock: the write in
`SetWithExpiry`, the removal in `Delete`, the body of the sweeper's loop, the
scan of a compaction, and what recovery does with one record.

What a shard means is its content: for each key the value and the expiry.  With
no budget a write sets the content of its key (`content_setWithExpiry`), a sweep
leaves of each entry what is visible at the time of the sweep (`content_sweep`),
and a scan writes one set per entry that is visible (`mem_snapshot_iff`).
-/

import Keva.Eviction.Policy
import Keva.Lib.Expiry

namespace Keva
namespace Store

open Eviction (Range Policy)
open Eviction.Shard (data_evict budget_evict)
open Expiry (Content Write visible loaded)

/-- The write a record of the log stands for; an op that is neither a set nor a
delete stands for none. -/
def writeOf (r : Wal.Record) : Option (Write Key Bytes Time) :=
  if r.op = Wal.opSet then some (.set r.key r.value r.expiresAt)
  else if r.op = Wal.opDelete then some (.del r.key)
  else none

/-- The record of a set stands for a set. -/
@[simp] theorem writeOf_ofSet (key : Key) (value : Bytes) (expiresAt : Time) :
    writeOf (.ofSet key value expiresAt) = some (.set key value expiresAt) := rfl

/-- The record of a delete stands for a delete. -/
@[simp] theorem writeOf_ofDelete (key : Key) : writeOf (.ofDelete key) = some (.del key) := rfl

/-- A record means the same after a trip through the file. -/
@[simp] theorem writeOf_readBack (r : Wal.Record) : writeOf r.readBack = writeOf r := by
  unfold writeOf Wal.Record.readBack
  split_ifs <;> rfl

/-- `ErrKeyNotFound` and `ErrMemoryFull`, the two errors that the store returns. -/
inductive Err
  | keyNotFound
  | memoryFull
  deriving DecidableEq, Repr

/-- The map, its byte counter and its budget, and this shard's own policy. -/
structure Shard extends Eviction.Shard where
  policy : Policy

namespace Shard

/-- The critical section of `SetWithExpiry`: take the old entry out, let the
policy make room, and put the new entry in, or the old one back.  `none` stands
for a policy that never returns. -/
def setWithExpiry (ranges : ℕ → Range) (s : Shard) (key : Key) (value : Bytes) (expiredAt : Time)
    (now : Time) : Option (Shard × Option Err) :=
  let newSize : ℤ := key.length + value.length
  let old := s.data.lookup key
  (s.policy.beforeWrite ranges (s.toShard.evict key) key newSize).map fun (accepted, policy, view) =>
    if accepted then
      (⟨{ view with data := view.data.insert key ⟨value, now, expiredAt⟩,
                    bytes := view.bytes + newSize }, policy.afterWrite key⟩, none)
    else
      match old with
      | some rec =>
        (⟨{ view with data := view.data.insert key rec,
                      bytes := view.bytes + (key.length + rec.value.length) }, policy⟩,
          some .memoryFull)
      | none => (⟨view, policy⟩, some .memoryFull)

/-- The critical section of `Delete`. -/
def delete (s : Shard) (key : Key) : Shard × Option Err :=
  match s.data.lookup key with
  | none => (s, some .keyNotFound)
  | some _ => (⟨s.toShard.evict key, s.policy.afterDelete key⟩, none)

/-- The sweeper at one key. -/
def sweepKey (now : Time) (s : Shard) (key : Key) : Shard :=
  match s.data.lookup key with
  | none => s
  | some rec =>
    if rec.expiredAt < now then ⟨s.toShard.evict key, s.policy.afterDelete key⟩ else s

/-- The sweeper on one shard. -/
def sweep (range : Range) (now : Time) (s : Shard) : Shard :=
  (range.keys s.data).foldl (sweepKey now) s

/-- The records a compaction that started at `now` writes for one shard. -/
def snapshot (range : Range) (now : Time) (s : Shard) : List Wal.Record :=
  (range.keys s.data).filterMap fun key =>
    match s.data.lookup key with
    | none => none
    | some rec => if rec.expiredAt < now then none else some (.ofSet key rec.value rec.expiredAt)

/-- What recovery at time `now` does with a record of this shard.  A value that
has expired is not loaded, and it still replaces what was there before it. -/
def load (now : Time) (s : Shard) (r : Wal.Record) : Shard :=
  if r.op = Wal.opSet then
    if now < r.expiresAt then
      { s with data := s.data.insert r.key ⟨r.value, now, r.expiresAt⟩ }
    else { s with data := s.data.erase r.key }
  else if r.op = Wal.opDelete then { s with data := s.data.erase r.key }
  else s

/-- The end of recovery: byte counter and policy catch up with what was loaded. -/
def settle (range : Range) (s : Shard) : Shard :=
  (range.keys s.data).foldl (fun s key =>
    match s.data.lookup key with
    | none => s
    | some rec =>
      { s with bytes := s.bytes + (key.length + rec.value.length),
               policy := s.policy.afterWrite key }) s

/-! ### What a shard holds -/

/-- The value and the expiry stored under each key. -/
def content (s : Shard) : Content Key Bytes Time := fun k =>
  (s.data.lookup k).map fun rec => (rec.value, rec.expiredAt)

/-- What a shard has for a key is the value and the expiry of its entry. -/
theorem content_eq_some_iff {s : Shard} {k : Key} {v : Bytes} {e : Time} :
    s.content k = some (v, e) ↔
      ∃ rec, s.data.lookup k = some rec ∧ rec.value = v ∧ rec.expiredAt = e := by
  simp [content]

/-- A shard has nothing for exactly the keys without an entry. -/
theorem content_eq_none_iff {s : Shard} {k : Key} : s.content k = none ↔ k ∉ s.data := by
  simp [content, Finmap.lookup_eq_none]

/-- An entry that is erased is a delete, as far as contents are concerned. -/
theorem content_of_data_erase {s s' : Shard} {key : Key} (h : s'.data = s.data.erase key) :
    s'.content = (Write.del key).apply s.content := by
  funext k
  unfold content
  rw [h]
  by_cases hk : k = key
  · rw [hk, Finmap.lookup_erase]
    exact (Write.apply_key (Write.del key) _).symm
  · rw [Finmap.lookup_erase_ne hk, Write.apply_of_ne (w := .del key) hk]

/-- An entry that is put in is a set, as far as contents are concerned. -/
theorem content_of_data_insert {s s' : Shard} {key : Key} {r : Record}
    (h : ∀ k, k ≠ key → s'.data.lookup k = s.data.lookup k) (hk : s'.data.lookup key = some r) :
    s'.content = (Write.set key r.value r.expiredAt).apply s.content := by
  funext k
  unfold content
  by_cases hkey : k = key
  · rw [hkey, hk]
    exact (Write.apply_key (Write.set key r.value r.expiredAt) _).symm
  · rw [h k hkey, Write.apply_of_ne (w := .set key r.value r.expiredAt) hkey]

/-- **A write without a budget** is accepted and sets the content of its key. -/
theorem content_setWithExpiry {s : Shard} (hb : s.budget = 0) (ranges : ℕ → Range) (key : Key)
    (value : Bytes) (expiredAt now : Time) :
    ∃ s', s.setWithExpiry ranges key value expiredAt now = some (s', none) ∧ s'.budget = 0 ∧
      s'.content = (Write.set key value expiredAt).apply s.content := by
  obtain ⟨p, hp⟩ := Policy.beforeWrite_unlimited ranges s.policy
    (s := s.toShard.evict key) (by rw [budget_evict, hb]) key (key.length + value.length)
  refine ⟨_, by rw [setWithExpiry, hp]; rfl, by simpa using hb, ?_⟩
  refine content_of_data_insert (r := ⟨value, now, expiredAt⟩) (fun k hk => ?_) ?_
  · change ((s.toShard.evict key).data.insert key _).lookup k = _
    rw [Finmap.lookup_insert_of_ne _ hk, data_evict, Finmap.lookup_erase_ne hk]
  · exact Finmap.lookup_insert _

/-- **A delete** removes the content of its key, and says so when there was
none. -/
theorem content_delete (s : Shard) (key : Key) :
    (s.delete key).1.budget = s.budget ∧
      (s.delete key).1.content = (Write.del key).apply s.content ∧
      ((s.delete key).2 = if s.content key = none then some .keyNotFound else none) := by
  unfold delete
  cases h : s.data.lookup key with
  | none =>
    have hnone : s.content key = none := by simp [content, h]
    refine ⟨rfl, ?_, by simp [hnone]⟩
    rw [← Function.update_eq_self key s.content, hnone]
    simp [Write.apply, Write.key, Write.entry]
  | some rec =>
    refine ⟨budget_evict .., content_of_data_erase (data_evict ..), ?_⟩
    simp [content, h]

/-- The sweeper erases an entry exactly if its expiry lies before the reading. -/
theorem sweepKey_data (now : Time) (s : Shard) (key : Key) :
    (s.sweepKey now key).data = eraseIf (fun rec => decide (rec.expiredAt < now)) s.data key := by
  unfold sweepKey eraseIf
  cases h : s.data.lookup key with
  | none => simp
  | some rec =>
    by_cases he : rec.expiredAt < now
    · simp [he, data_evict]
    · simp [he]

/-- The sweeper leaves the budget. -/
theorem sweepKey_budget (now : Time) (s : Shard) (key : Key) :
    (s.sweepKey now key).budget = s.budget := by
  unfold sweepKey
  split
  · rfl
  · split_ifs
    · exact budget_evict ..
    · rfl

/-- **A sweep leaves what is visible,** whatever order it goes through the map in: each key is
dropped or left by its own entry alone. -/
theorem content_sweep (range : Range) (now : Time) (s : Shard) :
    (s.sweep range now).budget = s.budget ∧
      ∀ k, (s.sweep range now).content k = visible now (s.content k) := by
  have hfold : ∀ (ks : List Key) (s : Shard), (ks.foldl (sweepKey now) s).budget = s.budget ∧
      (ks.foldl (sweepKey now) s).data =
        ks.foldl (eraseIf fun rec => decide (rec.expiredAt < now)) s.data := by
    intro ks
    induction ks with
    | nil => exact fun s => ⟨rfl, rfl⟩
    | cons k ks ih =>
      intro s
      rw [List.foldl_cons, (ih _).1, (ih _).2, sweepKey_budget, sweepKey_data]
      exact ⟨rfl, rfl⟩
  refine ⟨(hfold _ s).1, fun k => ?_⟩
  unfold content sweep
  rw [(hfold _ s).2, lookup_range_eraseIf]
  cases h : s.data.lookup k with
  | none => rfl
  | some rec => by_cases he : rec.expiredAt < now <;> simp [visible, Option.filter, he]

/-- **A scan writes one set per visible entry** of the shard, whatever the order of the
iteration. -/
theorem mem_snapshot_iff (range : Range) (now : Time) (s : Shard) (r : Wal.Record) :
    r ∈ s.snapshot range now ↔
      ∃ k v e, visible now (s.content k) = some (v, e) ∧ r = .ofSet k v e := by
  unfold snapshot
  rw [List.mem_filterMap]
  constructor
  · rintro ⟨k, -, h⟩
    cases hk : s.data.lookup k with
    | none => simp [hk] at h
    | some rec =>
      rw [hk] at h
      dsimp only at h
      split_ifs at h with he
      exact ⟨k, rec.value, rec.expiredAt,
        Expiry.visible_eq_some_iff.2 ⟨content_eq_some_iff.2 ⟨rec, hk, rfl, rfl⟩, not_lt.1 he⟩,
        (Option.some.inj h).symm⟩
  · rintro ⟨k, v, e, hv, rfl⟩
    obtain ⟨hc, he⟩ := Expiry.visible_eq_some_iff.1 hv
    obtain ⟨rec, hk, rfl, rfl⟩ := content_eq_some_iff.1 hc
    refine ⟨k, range.mem_keys.2 (Finmap.mem_of_lookup_eq_some hk), ?_⟩
    simp [hk, not_lt.2 he]

/-- **Recovery loads of a record what has not expired:** nothing but the key of
the record changes. -/
theorem content_load (now : Time) (s : Shard) (r : Wal.Record) :
    (s.load now r).budget = s.budget ∧ (s.load now r).content =
      match writeOf r with
      | none => s.content
      | some w => Function.update s.content w.key (loaded now w.entry) := by
  unfold load writeOf
  split_ifs with hset he hdel
  · refine ⟨rfl, ?_⟩
    rw [content_of_data_insert (s := s) (r := ⟨r.value, now, r.expiresAt⟩)
      (fun k hk => Finmap.lookup_insert_of_ne _ hk) (Finmap.lookup_insert _)]
    simp [Write.apply, Write.key, Write.entry, Expiry.loaded_some, he]
  · refine ⟨rfl, ?_⟩
    rw [content_of_data_erase (s := s) rfl]
    simp [Write.apply, Write.key, Write.entry, Expiry.loaded_some, he]
  · exact ⟨rfl, content_of_data_erase (s := s) rfl⟩
  · exact ⟨rfl, rfl⟩

/-- Settling the books leaves the map alone. -/
theorem data_settle (range : Range) (s : Shard) :
    (s.settle range).data = s.data ∧ (s.settle range).budget = s.budget := by
  unfold settle
  generalize range.keys s.data = ks
  induction ks generalizing s with
  | nil => exact ⟨rfl, rfl⟩
  | cons k ks ih =>
    rw [List.foldl_cons, (ih _).1, (ih _).2]
    split <;> exact ⟨rfl, rfl⟩

end Shard

end Store
end Keva
