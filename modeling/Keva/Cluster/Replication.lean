/-
# A leader and a follower

`cluster/node.go`, `cluster/leader.go` and `cluster/follower.go`, for a node that
stays leader and one follower that has joined, on a connection that never drops.

A `Set` or `Delete` request on the leader computes its expiry, is carried out on the
leader's store, takes the next log index, and is broadcast: a frame is written to
the connection.  These are separate critical sections, and other requests may come
in between each two of them.  The follower takes frames off the connection and
carries them out on its own store; the sweepers of the two stores run on the side.
`step` is one of these steps.  A call on a store is one step: its append to the log,
which no one reads here, commutes with everything.

`sent` and `synced` are read by no step.  They keep the leader's store as it was
when the follower joined and right after each broadcast, and the number of frames
the follower has carried out.
-/

import Keva.Cluster.Sync

namespace Keva
namespace Cluster

open Eviction (Range)
open Store (KVStore Call)
open Protocol (encodeFrame)
open Expiry (visible)

/-- The two stores, the requests that have not yet reached the leader's store, those
that have and are not broadcast, in that order and with their index if they have
one, and the bytes on the connection. -/
structure Replication where
  leader : KVStore
  follower : KVStore
  defaultTTL : ℤ
  logIndex : UInt64
  started : List Call
  sending : List (Call × Option UInt64)
  stream : Bytes
  clock : Time
  sent : List KVStore
  synced : ℕ

/-- One step; numbers pick one of the requests that are in progress.  Handling a request takes
three: the leader's store, the index, and the write to the follower. -/
inductive Action
  | tick (t : Time)
  | set (key : Key) (value : Bytes) (ttl : ℤ)
  | delete (key : Key)
  | apply (j : ℕ) (ranges : ℕ → Range)
  | index (j : ℕ)
  | send (j : ℕ)
  | receive (ranges : ℕ → Range)
  | sweepLeader (i : ℕ) (range : Range) (now : Time)
  | sweepFollower (i : ℕ) (range : Range) (now : Time)

namespace Replication

/-- Calls reach the leader's store in any order, each then takes its index and writes its frame;
the follower applies frames in the order in which they were written; both sweepers and the clock
go on. -/
def step (s : Replication) : Action → Option Replication
  | .tick t => if s.clock ≤ t then some { s with clock := t } else none
  | .set key value ttl =>
    some { s with started := s.started ++ [setCall s.defaultTTL s.clock key value ttl] }
  | .delete key => some { s with started := s.started ++ [.delete key] }
  | .apply j ranges => do
    let c ← s.started[j]?
    let (kv, err) ← c.exec ranges s.leader s.clock
    match err with
    -- The node returns the error, and nothing is broadcast.
    | some _ => return { s with leader := kv, started := s.started.eraseIdx j }
    | none => return { s with leader := kv, started := s.started.eraseIdx j,
                              sending := s.sending ++ [(c, none)] }
  | .index j => do
    let (c, index) ← s.sending[j]?
    if index = none then
      return { s with logIndex := s.logIndex + 1,
                      sending := s.sending.set j (c, some (s.logIndex + 1)) }
    else none
  | .send j => do
    let (c, index) ← s.sending[j]?
    let index ← index
    return { s with sending := s.sending.eraseIdx j,
                    stream := s.stream ++ encodeFrame (.replicationSync (syncOf c index)),
                    sent := s.sent ++ [s.leader] }
  | .receive ranges => do
    let (sync, rest) ← readSync s.stream
    match sync with
    | some sync =>
      let kv ← applySync ranges s.follower sync s.clock
      return { s with follower := kv, stream := rest, synced := s.synced + 1 }
    | none => return { s with stream := rest }
  | .sweepLeader i range now => do
    let shard ← s.leader.shards[i]?
    if now ≤ s.clock then return { s with leader := s.leader.setShard i (shard.sweep range now) }
    else none
  | .sweepFollower i range now => do
    let shard ← s.follower.shards[i]?
    if now ≤ s.clock then return { s with follower := s.follower.setShard i (shard.sweep range now) }
    else none

/-- The follower has just joined. -/
def start (leader follower : KVStore) (defaultTTL : ℤ) (t : Time) : Replication :=
  ⟨leader, follower, defaultTTL, 0, [], [], [], t, [leader], 0⟩

/-- No request is in progress and no frame in flight, so that nothing is left that could change
either store but the passing of time. -/
def Quiet (s : Replication) : Prop := s.started = [] ∧ s.sending = [] ∧ s.stream = []

instance (s : Replication) : Decidable s.Quiet := inferInstanceAs (Decidable (_ ∧ _))

/-- From now on a reader cannot tell the follower from the leader, for as long as nothing is
written; entries that have expired may still be in one of them. -/
def Converged (s : Replication) : Prop := ∀ t, s.clock ≤ t → ∀ k,
  visible t (s.follower.content k) = visible t (s.leader.content k)

end Replication

end Cluster
end Keva
