/-
# One expiry in three places

A `Set` request carries a TTL.  `handleSet` (`engine/set.go`) takes it for a `Duration`,
`Node.Set` (`cluster/node.go`) adds it to the clock, and the leader's store keeps the sum as it
is.  Its log and the frame for the followers have 64 bits for it, counted from 1970: the sum is
written modulo `2 ^ 64`, and `Replay` and `applySync` read it back as a signed number.

So memory, log and follower agree exactly if the sum is below `2 ^ 63`
(`expiries_agree_iff`).  A TTL of `2 ^ 63 - 1`, the largest `Duration` there is, is too much
from the first nanosecond of 1970 on: the leader serves the key, the follower and a restart take
it for expired (`expiries_differ`).
-/

import Keva.Cluster.Replication
import Keva.Protocol.RoundTrip

namespace Keva

open Bytes

namespace Store

/-- A set that is accepted is stored, with the expiry it was given, and one record with this
expiry has been appended to the log. -/
theorem KVStore.content_of_accepted {kv kv' : KVStore} {ranges : ℕ → Eviction.Range} {key : Key}
    {value : Bytes} {expiredAt now : Time}
    (h : kv.setWithExpiry ranges key value expiredAt now = some (kv', none)) :
    kv'.content key = some (value, expiredAt) ∧
      kv'.wal = kv.wal.append (.ofSet key value expiredAt) := by
  simp only [KVStore.setWithExpiry_eq_applySet, KVStore.applySet, bind, Option.bind_eq_some_iff,
    pure, Option.some.injEq, Prod.exists] at h
  obtain ⟨i, hk, s, hs, s', err, hset, h⟩ := h
  obtain ⟨rfl, rfl⟩ := Prod.mk.inj h
  have hdata : s'.data.lookup key = some ⟨value, now, expiredAt⟩ := by
    rw [Shard.setWithExpiry, Option.map_eq_some_iff] at hset
    obtain ⟨⟨accepted, policy, view⟩, -, hset⟩ := hset
    cases accepted with
    | true =>
      obtain ⟨rfl, -⟩ := Prod.mk.inj hset
      exact Finmap.lookup_insert _
    | false =>
      cases hold : s.data.lookup key <;> simp [hold] at hset
  refine ⟨?_, rfl⟩
  have hlt : i < kv.shards.length := (List.getElem?_eq_some_iff.1 hs).1
  have hs' : ((kv.append (.ofSet key value expiredAt)).setShard i s').shards[i]? = some s' :=
    List.getElem?_set_self hlt
  have hk' : ((kv.append (.ofSet key value expiredAt)).setShard i s').getShard key = some i := hk
  rw [KVStore.content_of_getShard hk' hs', Shard.content, hdata]
  rfl

end Store

namespace Cluster

open Eviction (Range)
open Store (KVStore Err)
open Protocol (SetRequest SetResponse ReplicationSync)

/-- The bytes of a text. -/
def text (s : String) : Bytes := s.toUTF8.data.toList

/-- `err.Error()`. -/
def errorText : Err → Bytes
  | .keyNotFound => text "key not found"
  | .memoryFull => text "memory limit reached: write rejected (noevict policy)"

/-- `Node.Set`, on a node with this default TTL and, if it leads, with this log index: the
store, the error and what is broadcast. -/
def nodeSet (ranges : ℕ → Range) (db : KVStore) (defaultTTL : ℤ) (leader : Option UInt64) (key : Key)
    (value : Bytes) (ttl : ℤ) (now : Time) :
    Option (KVStore × Option Err × Option ReplicationSync) := do
  let expiredAt := setExpiry defaultTTL now ttl
  let (db, err) ← db.setWithExpiry ranges key value expiredAt now
  match err with
  | some e => return (db, some e, none)
  | none =>
    return (db, none, leader.map fun logIndex => broadcastSet (logIndex + 1) key value expiredAt)

/-- What `handleSet` answers, by the error of `Set`. -/
def setReply : Option Err → SetResponse
  | some e => ⟨false, errorText e⟩
  | none => ⟨true, text "OK"⟩

/-- `handleSet`: the response, too. -/
def handleSet (ranges : ℕ → Range) (db : KVStore) (defaultTTL : ℤ) (leader : Option UInt64)
    (req : SetRequest) (now : Time) : Option (KVStore × SetResponse × Option ReplicationSync) := do
  let ttl := int64 req.ttl.toNat
  let (db, err, sync) ← nodeSet ranges db defaultTTL leader req.key req.value ttl now
  return (db, setReply err, sync)

/-- The TTL a request asks for: none, or one that is no `Duration`, is the default. -/
def lifetime (req : SetRequest) (defaultTTL : ℤ) : ℤ :=
  if 0 < req.ttl.toNat ∧ req.ttl.toNat < 2 ^ 63 then req.ttl.toNat else defaultTTL

/-- The expiry of a request is its lifetime from now on. -/
theorem setExpiry_eq (req : SetRequest) (defaultTTL : ℤ) (now : Time) :
    setExpiry defaultTTL now (int64 req.ttl.toNat) = now + lifetime req defaultTTL := by
  have hlt := req.ttl.toNat_lt
  have hlifetime : (if int64 req.ttl.toNat ≤ 0 then defaultTTL else int64 req.ttl.toNat) =
      lifetime req defaultTTL := by
    unfold lifetime int64
    split_ifs <;> omega
  exact congrArg (now + ·) hlifetime

/-- **A `Set` request that is carried out on a leader:** what is stored and what is broadcast. -/
theorem handleSet_eq_some {ranges : ℕ → Range} {db db' : KVStore} {defaultTTL : ℤ}
    {leader : Option UInt64} {req : SetRequest} {now : Time} {resp : SetResponse}
    {sync : ReplicationSync}
    (h : handleSet ranges db defaultTTL leader req now = some (db', resp, some sync)) :
    db.setWithExpiry ranges req.key req.value (now + lifetime req defaultTTL) now =
        some (db', none) ∧
      ∃ logIndex, sync = broadcastSet logIndex req.key req.value (now + lifetime req defaultTTL) := by
  unfold handleSet nodeSet at h
  simp only [setExpiry_eq] at h
  obtain ⟨⟨db₁, err, sync₁⟩, hnode, h⟩ := Option.bind_eq_some_iff.1 h
  obtain ⟨⟨db₂, err₂⟩, hset, hnode⟩ := Option.bind_eq_some_iff.1 hnode
  cases err₂ with
  | some e =>
    -- Nothing is broadcast for a set that failed.
    obtain ⟨rfl, hrest⟩ := Prod.mk.inj (Option.some.inj hnode)
    obtain ⟨rfl, rfl⟩ := Prod.mk.inj hrest
    cases (Prod.mk.inj (Prod.mk.inj (Option.some.inj h)).2).2
  | none =>
    obtain ⟨rfl, hrest⟩ := Prod.mk.inj (Option.some.inj hnode)
    obtain ⟨rfl, rfl⟩ := Prod.mk.inj hrest
    obtain ⟨rfl, hresp⟩ := Prod.mk.inj (Option.some.inj h)
    obtain ⟨logIndex, -, hsync⟩ := Option.map_eq_some_iff.1 (Prod.mk.inj hresp).2
    exact ⟨hset, logIndex + 1, hsync.symm⟩

/-- Key and value of a request from the wire fit the length fields of log and frame. -/
theorem bounds_of_decode {payload : Bytes} {req : SetRequest}
    (h : SetRequest.decode payload = .ok req) :
    req.key.length ≤ 65535 ∧ req.value.length < 2 ^ 32 := by
  rw [SetRequest.decode_eq] at h
  split_ifs at h
  obtain rfl := Outcome.ok.inj h
  have hkey := beAt_two_lt payload 0
  have hvalue := beAt_four_lt payload 2
  constructor
  · rw [List.length_take]
    omega
  · rw [List.length_take]
    omega

/-- **Memory, log and follower agree on an expiry exactly if it is below `2 ^ 63`.**  A request
comes off the wire and is carried out on a leader, and the follower's store takes what was
broadcast.  There is one instant at which the entry of the leader expires, one that `Replay` reads
back from the leader's log, and one at which the entry of the follower expires.  They are the same
exactly if clock and TTL, or clock and default TTL where the request has none, add up to less
than `2 ^ 63` nanoseconds. -/
theorem expiries_agree_iff {payload : Bytes} {req : SetRequest}
    (hreq : SetRequest.decode payload = .ok req) {defaultTTL : ℤ} (hdefault : 0 < defaultTTL)
    {now : Time} (hnow : FitsInt64 now) {ranges : ℕ → Range} {db db' : KVStore}
    (hwal : db.wal.Readable) {leader : Option UInt64} {resp : SetResponse} {sync : ReplicationSync}
    (hset : handleSet ranges db defaultTTL leader req now = some (db', resp, some sync))
    {ranges' : ℕ → Range} {follower follower' : KVStore} {now' : Time}
    (haccepts : follower.setWithExpiry ranges' sync.key sync.value (int64 sync.expiresAt.toNat) now' =
      some (follower', none)) :
    ReplicationSync.decode sync.encode = .ok sync ∧
      applySync ranges' follower sync now' = some follower' ∧
      ∃ stored logged replicated : Time,
        db'.content req.key = some (req.value, stored) ∧
          Wal.replay db'.wal.contents = ((Wal.replay db.wal.contents).1 ++
            [.ofSet req.key req.value logged], none) ∧
          follower'.content req.key = some (req.value, replicated) ∧
          (stored = logged ∧ stored = replicated ↔
            now + (if 0 < req.ttl.toNat ∧ req.ttl.toNat < 2 ^ 63 then (req.ttl.toNat : ℤ)
              else defaultTTL) < 2 ^ 63) := by
  obtain ⟨hkey, hvalue⟩ := bounds_of_decode hreq
  obtain ⟨hstore, logIndex, rfl⟩ := handleSet_eq_some hset
  set expiry := now + lifetime req defaultTTL with hexpiry
  obtain ⟨hcontent, hlog⟩ := KVStore.content_of_accepted hstore
  obtain ⟨hcontent', -⟩ := KVStore.content_of_accepted haccepts
  have hsync : (broadcastSet logIndex req.key req.value expiry).expiresAt.toNat = uint64 expiry :=
    UInt64.toNat_ofNat_of_lt' (uint64_lt expiry)
  rw [hsync] at hcontent'
  have hfits : (Wal.Record.ofSet req.key req.value expiry).wrapExpiry.Fits :=
    (Wal.Record.lengthsFit_ofSet hkey hvalue expiry).fits_wrapExpiry
  refine ⟨?_, ?_, expiry, int64 (uint64 expiry), int64 (uint64 expiry), hcontent, ?_, hcontent', ?_⟩
  · have htake := ReplicationSync.decode_take
      (broadcastSet logIndex req.key req.value expiry).encode.length
      (r := broadcastSet logIndex req.key req.value expiry) hkey hvalue
    rwa [List.take_length, if_neg (lt_irrefl _)] at htake
  · have hop : (broadcastSet logIndex req.key req.value expiry).op = Wal.opSet := rfl
    rw [applySync, if_pos hop, haccepts]
    rfl
  · rw [hlog, hwal.contents_append, ← Wal.Record.encode_wrapExpiry,
      Wal.replay_append_encode hwal.contents hfits]
    rfl
  · rw [and_self, eq_comm, int64_uint64_iff, FitsInt64, hexpiry, lifetime]
    obtain ⟨hlow, -⟩ := hnow
    constructor
    · rintro ⟨-, hlt⟩
      exact hlt
    · intro hlt
      refine ⟨?_, hlt⟩
      split_ifs <;> omega

/-- A TTL of fifty nanoseconds, at time 5: leader and follower store the same expiry, although
the follower applies the write one nanosecond later. -/
theorem expiries_agree_iff_fifty :
    ∃ x ∈ handleSet (fun _ => Eviction.byKey) Store.oneShard 900 (some 0) ⟨[1], [2], 50⟩ 5,
      ∃ sync ∈ x.2.2, ∃ y ∈ Store.oneShard.setWithExpiry (fun _ => Eviction.byKey) sync.key sync.value
          (int64 sync.expiresAt.toNat) 6,
        x.1.content [1] = y.1.content [1] := by
  obtain ⟨⟨db', resp, sync'⟩, hset, sync, hsync, ⟨follower', err⟩, haccepts, herr⟩ :
      ∃ x ∈ handleSet (fun _ => Eviction.byKey) Store.oneShard 900 (some 0) ⟨[1], [2], 50⟩ 5,
        ∃ sync ∈ x.2.2, ∃ y ∈ Store.oneShard.setWithExpiry (fun _ => Eviction.byKey) sync.key
            sync.value (int64 sync.expiresAt.toNat) 6, y.2 = none := by
    decide +kernel
  obtain rfl : sync' = some sync := hsync
  obtain rfl : err = none := herr
  have hreq : SetRequest.decode (SetRequest.encode ⟨[1], [2], 50⟩) = .ok ⟨[1], [2], 50⟩ := by
    decide +kernel
  obtain ⟨-, -, stored, logged, replicated, hstored, -, hreplicated, hiff⟩ :=
    expiries_agree_iff hreq (by decide) (by decide) (Wal.WAL.readable_openLog rfl _) hset haccepts
  obtain ⟨-, hsame⟩ := hiff.2 (by decide)
  exact ⟨_, hset, sync, rfl, _, haccepts, by rw [hstored, hreplicated, hsame]⟩

/-- **An expiry wraps around.**  A request with the largest TTL there is reaches the leader at
time 1: its entry expires at `2 ^ 63`, that of the log and that of the follower at `-2 ^ 63`. -/
theorem expiries_differ :
    SetRequest.decode (SetRequest.encode ⟨[1], [2], 9223372036854775807⟩) =
        .ok ⟨[1], [2], 9223372036854775807⟩ ∧
      ∃ x ∈ handleSet (fun _ => Eviction.byKey) Store.oneShard 900 (some 0)
          ⟨[1], [2], 9223372036854775807⟩ 1,
        ∃ sync ∈ x.2.2, ∃ y ∈ applySync (fun _ => Eviction.byKey) Store.oneShard sync 1,
          (x.1.content [1]).map Prod.snd = some (2 ^ 63) ∧
            (Wal.replay x.1.wal.contents).1.map Wal.Record.expiresAt = [-2 ^ 63] ∧
            (y.content [1]).map Prod.snd = some (-2 ^ 63) := by
  constructor
  · decide +kernel
  · decide +kernel

end Cluster
end Keva
