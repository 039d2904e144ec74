/-
# The store

`storage/store/kv_store.go` and `storage/store/kv_store_util.go`: `NewKVStore`,
`getShard`, `Set`, `SetWithExpiry`, `Get`, `Delete`, `recover`, the TTL sweeper
and `Compact`, each call on its own.

`none` stands for a call that does not return.  There are two reasons: a policy
that loops forever, and the `h.Sum32() % kv.shardCount` of `getShard`, which
panics when `uint32(opts.ShardCount)` is zero.  Clock readings and the orders in
which maps are ranged over are arguments.

A call that writes does so in two steps, the append to the log (`append`) and the
critical section on the shard (`applySet`, `applyDelete`), and is the one after
the other.
-/

import Keva.Store.Shard
import Keva.Wal.Writer

namespace Keva
namespace Store

open Bytes
open Eviction (Range Policy PolicyName)

/-- `hash/fnv`: the 32-bit FNV-1a hash. -/
def fnv32a (key : Key) : UInt32 :=
  key.foldl (fun h b => (h ^^^ b.toUInt32) * 16777619) 2166136261

/-- `store.Options`.  `ShardCount` must be positive; a missing policy is `NoEvict`; a budget that
is not positive is none. -/
structure Options where
  shardCount : ℕ
  defaultTTL : ℤ
  maxMemoryBytes : ℤ
  newEviction : Option PolicyName

/-- There are at least as many shards as `shardCount` says, so that an index
below it is a shard. -/
structure KVStore where
  shards : List Shard
  wal : Wal.WAL
  shardCount : UInt32
  defaultTTL : ℤ
  inBounds : shardCount.toNat ≤ shards.length

namespace KVStore

/-- The shard of a key, by its place among the shards; `none` where the division
panics. -/
def getShard (kv : KVStore) (key : Key) : Option ℕ :=
  if kv.shardCount = 0 then none else some (fnv32a key % kv.shardCount).toNat

/-- The store with another shard in place of the `i`-th. -/
def setShard (kv : KVStore) (i : ℕ) (s : Shard) : KVStore :=
  { kv with shards := kv.shards.set i s, inBounds := by simpa using kv.inBounds }

/-- A record is appended to the log. -/
def append (kv : KVStore) (r : Wal.Record) : KVStore := { kv with wal := kv.wal.append r }

/-! ### Writes, reads and deletes -/

/-- `SetWithExpiry` after its append. -/
def applySet (ranges : ℕ → Range) (kv : KVStore) (key : Key) (value : Bytes) (expiredAt now : Time) :
    Option (KVStore × Option Err) := do
  let i ← kv.getShard key
  let s ← kv.shards[i]?
  let (s, err) ← s.setWithExpiry ranges key value expiredAt now
  return (kv.setShard i s, err)

/-- `SetWithExpiry`: the log first, then the shard. -/
def setWithExpiry (ranges : ℕ → Range) (kv : KVStore) (key : Key) (value : Bytes)
    (expiredAt now : Time) : Option (KVStore × Option Err) :=
  let kv := { kv with wal := kv.wal.appendSet key value expiredAt }
  kv.applySet ranges key value expiredAt now

/-- A write is one record appended to the log, and then its critical section. -/
theorem setWithExpiry_eq_applySet (ranges : ℕ → Range) (kv : KVStore) (key : Key) (value : Bytes)
    (expiredAt now : Time) :
    kv.setWithExpiry ranges key value expiredAt now =
      (kv.append (.ofSet key value expiredAt)).applySet ranges key value expiredAt now := rfl

/-- `Set`: the server's default TTL. -/
def set (ranges : ℕ → Range) (kv : KVStore) (key : Key) (value : Bytes) (now : Time) :
    Option (KVStore × Option Err) :=
  kv.setWithExpiry ranges key value (now + kv.defaultTTL) now

/-- `Get`: an expired key is not found, and stays for the sweeper. -/
def get (kv : KVStore) (key : Key) (now : Time) : Option (KVStore × Except Err Bytes) := do
  let i ← kv.getShard key
  let s ← kv.shards[i]?
  match s.data.lookup key with
  | none => return (kv, .error .keyNotFound)
  | some rec =>
    if rec.expiredAt < now then return (kv, .error .keyNotFound)
    else return (kv.setShard i { s with policy := s.policy.afterRead key }, .ok rec.value)

/-- `Delete` after its append. -/
def applyDelete (kv : KVStore) (key : Key) : Option (KVStore × Option Err) := do
  let i ← kv.getShard key
  let s ← kv.shards[i]?
  let (s, err) := s.delete key
  return (kv.setShard i s, err)

/-- `Delete`: logged either way. -/
def delete (kv : KVStore) (key : Key) : Option (KVStore × Option Err) :=
  let kv := { kv with wal := kv.wal.appendDelete key }
  kv.applyDelete key

/-- A delete likewise. -/
theorem delete_eq_applyDelete (kv : KVStore) (key : Key) :
    kv.delete key = (kv.append (.ofDelete key)).applyDelete key := rfl

/-! ### Maintenance -/

/-- One round of the TTL sweeper. -/
def sweep (ranges : ℕ → Range) (now : Time) (kv : KVStore) : KVStore :=
  { kv with shards := kv.shards.mapIdx fun i s => s.sweep (ranges i) now,
            inBounds := by simpa using kv.inBounds }

/-- The records a compaction writes, shard by shard. -/
def snapshot (ranges : ℕ → Range) (now : Time) (kv : KVStore) : List Wal.Record :=
  (kv.shards.mapIdx fun i s => s.snapshot (ranges i) now).flatten

/-- `Compact`: the log is replaced by a snapshot of what has not expired. -/
def compact (ranges : ℕ → Range) (now : Time) (kv : KVStore) : KVStore :=
  { kv with wal := kv.wal.compact (kv.snapshot ranges now) }

/-- The flusher writes the first `n` records that wait for it. -/
def flush (n : ℕ) (kv : KVStore) : KVStore := { kv with wal := kv.wal.flush n }

/-- What recovery does with one record of the log. -/
def load (now : Time) (kv : KVStore) (r : Wal.Record) : Option KVStore := do
  let i ← kv.getShard r.key
  let s ← kv.shards[i]?
  return kv.setShard i (s.load now r)

/-- The end of recovery, on every shard. -/
def settle (ranges : ℕ → Range) (kv : KVStore) : KVStore :=
  { kv with shards := kv.shards.mapIdx fun i s => s.settle (ranges i),
            inBounds := by simpa using kv.inBounds }

/-- `recover`: the records of the log in order, then the books.  A record that
cannot be read ends it with an error. -/
def recover (ranges : ℕ → Range) (now : Time) (kv : KVStore) (file : Option Bytes) :
    Option (Except ReadError KVStore) := do
  let (records, err) := Wal.replayFile file
  let kv ← records.foldlM (load now) kv
  match err with
  | some e => return .error e
  | none => return .ok (kv.settle ranges)

end KVStore

/-- The budget of one shard, `none` where the division by the number of shards
panics. -/
def shardBudget (opts : Options) : Option ℤ :=
  if opts.maxMemoryBytes > 0 then
    if opts.shardCount = 0 then none else some (opts.maxMemoryBytes / opts.shardCount)
  else some 0

/-- The store before anything is loaded. -/
def emptyStore (budget : ℤ) (walOpts : Wal.Options) (file : Option Bytes) (opts : Options) :
    KVStore where
  shards := List.replicate opts.shardCount
    ⟨⟨∅, 0, budget⟩, Eviction.byName (opts.newEviction.getD .noevict)⟩
  wal := Wal.openLog file walOpts
  shardCount := UInt32.ofNat opts.shardCount
  defaultTTL := opts.defaultTTL
  inBounds := by
    rw [List.length_replicate, UInt32.toNat_ofNat']
    exact Nat.mod_le _ _

/-- `NewKVStore` at time `now`, on the file at `walPath` if there is one. -/
def newKVStore (ranges : ℕ → Range) (file : Option Bytes) (walOpts : Wal.Options) (opts : Options)
    (now : Time) : Option (Except ReadError KVStore) := do
  let budget ← shardBudget opts
  (emptyStore budget walOpts file opts).recover ranges now file

end Store
end Keva
