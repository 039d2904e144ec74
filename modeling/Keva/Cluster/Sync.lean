/-
# What a leader sends and a follower takes

The part of `cluster/node.go`, `cluster/leader.go` and `cluster/follower.go` that every model
of replication shares, each function once:

* the call that `Node.Set` makes on the store (`setCall`), with the rule for the TTL
  (`setExpiry`);
* what `BroadcastSet` and `BroadcastDelete` send for a call (`syncOf`), and what `applySync`
  does with it;
* the loop of `syncWithLeader` (`Loop`, `syncWithLeader`): it reads a frame, carries it out and
  acknowledges it.

The models differ in what runs beside these: one follower that never leaves
(`Keva.Cluster.Replication`), one that comes and goes (`Keva.Cluster.Acks`,
`Keva.Cluster.Rejoin`), many (`Keva.Cluster.Fleet`), and nodes that hold elections at the same
time (`Keva.Cluster.Network`).
-/

import Keva.Cluster.Leader
import Keva.Protocol.Frame
import Keva.Store.Recover

namespace Keva
namespace Cluster

open Bytes
open Eviction (Range)
open Store (KVStore Call)
open Protocol (ReplicationSync encodeFrame readFrame readFrame_of_lt
  readFrame_encodeFrame_replicationSync)

/-! ### Requests -/

/-- The expiry that `Node.Set` computes at time `now`: a TTL that is not positive is the
node's default. -/
def setExpiry (defaultTTL : ℤ) (now : Time) (ttl : ℤ) : Time :=
  now + if ttl ≤ 0 then defaultTTL else ttl

/-- The call that `Node.Set` makes on the store. -/
def setCall (defaultTTL : ℤ) (now : Time) (key : Key) (value : Bytes) (ttl : ℤ) : Call :=
  .setWithExpiry key value (setExpiry defaultTTL now ttl)

/-! ### Frames -/

/-- `BroadcastSet`. -/
def broadcastSet (logIndex : UInt64) (key : Key) (value : Bytes) (expiredAt : Time) :
    ReplicationSync :=
  ⟨logIndex, Wal.opSet, key, value, .ofNat (uint64 expiredAt)⟩

/-- `BroadcastDelete`. -/
def broadcastDelete (logIndex : UInt64) (key : Key) : ReplicationSync :=
  ⟨logIndex, Wal.opDelete, key, [], 0⟩

/-- What is broadcast for a call. -/
def syncOf (c : Call) (logIndex : UInt64) : ReplicationSync :=
  match c with
  | .setWithExpiry key value expiredAt => broadcastSet logIndex key value expiredAt
  | .delete key => broadcastDelete logIndex key

/-- `applySync`: errors are printed and forgotten. -/
def applySync (ranges : ℕ → Range) (db : KVStore) (sync : ReplicationSync) (now : Time) :
    Option KVStore :=
  if sync.op = Wal.opSet then
    (db.setWithExpiry ranges sync.key sync.value (int64 sync.expiresAt.toNat) now).map Prod.fst
  else if sync.op = Wal.opDelete then (db.delete sync.key).map Prod.fst
  else some db

/-! ### The loop of a follower -/

/-- `ReadFrame` in the loop of `syncWithLeader`, on the bytes that have arrived: the frame to
apply, or `none` for a body that cannot be decoded and for any other message, which the loop
passes over; and what is left on the connection.  It does not return while the frame is not
there to its end. -/
def readSync (down : Bytes) : Option (Option ReplicationSync × Bytes) :=
  match readFrame 0 down with
  | (.ok (.replicationSync sync), rest) => some (some sync, rest)
  | (.ok _, rest) => some (none, rest)
  | (.error (.malformedMessage _), rest) => some (none, rest)
  | (.error _, _) => none
  | (.panic, _) => none

/-- On an empty connection the read waits. -/
theorem readSync_nil : readSync [] = none := rfl

/-- A frame that is there is the next one, whatever follows it. -/
theorem readSync_encodeFrame {sync : ReplicationSync} (h : sync.Fits) (rest : Bytes) :
    readSync (encodeFrame (.replicationSync sync) ++ rest) = some (some sync, rest) := by
  rw [readSync, readFrame_encodeFrame_replicationSync h]

/-- While a part of the frame is missing, the read does not return. -/
theorem readSync_take {sync : ReplicationSync} (h : sync.Fits) {k : ℕ}
    (hk : k < (encodeFrame (.replicationSync sync)).length) :
    readSync ((encodeFrame (.replicationSync sync)).take k) = none := by
  obtain ⟨e, hread⟩ := readFrame_of_lt h.length_lt hk
  rw [readSync, hread]

/-- Where the goroutine of `RunFollower` stands: at the top of its loop; before it reads the
leader's address; in `syncWithLeader` before it dials, waiting for a frame, before it applies
one, and before it acknowledges it. -/
inductive Loop
  | top
  | follow
  | dial (leaderAddr : Addr)
  | reading (c : ℕ)
  | apply (c : ℕ) (sync : ReplicationSync)
  | ack (c : ℕ) (lastAppliedIndex : UInt64)
  deriving DecidableEq

/-- The connection the follower is on. -/
def Loop.conn : Loop → Option ℕ
  | .reading c | .apply c _ | .ack c _ => some c
  | _ => none

/-- The frame in the hands of the follower. -/
def Loop.sync : Loop → Option ReplicationSync
  | .apply _ sync => some sync
  | _ => none

/-- One step of the loop in `syncWithLeader` with its connection, but for the call of
`applySync`: it reads a frame, or acknowledges the one it has applied. -/
def syncWithLeader (loop : Loop) (conn : Conn) : Option (Loop × Conn) :=
  match loop with
  | .reading c => do
    let (sync, rest) ← readSync conn.down
    let conn := { conn with down := rest }
    match sync with
    | some sync => return (.apply c sync, conn)
    | none => return (.reading c, conn)
  | .ack c lastAppliedIndex =>
    let ack := encodeFrame (.replicationAck ⟨lastAppliedIndex⟩)
    some (.reading c, { conn with up := conn.up ++ ack })
  | _ => none

/-- What a step of the loop does to its connection: a frame is taken off it, be it a sync or
another one, or an acknowledgement is written. -/
inductive SyncStep (conn : Conn) : Loop → Loop → Conn → Prop
  | read {c : ℕ} {sync : ReplicationSync} {rest : Bytes}
      (hread : readSync conn.down = some (some sync, rest)) :
      SyncStep conn (.reading c) (.apply c sync) { conn with down := rest }
  | skip {c : ℕ} {rest : Bytes} (hread : readSync conn.down = some (none, rest)) :
      SyncStep conn (.reading c) (.reading c) { conn with down := rest }
  | ack {c : ℕ} {lastAppliedIndex : UInt64} (bytes : Bytes) :
      SyncStep conn (.ack c lastAppliedIndex) (.reading c) { conn with up := conn.up ++ bytes }

/-- **Every step of the loop** is one of these.  The machines that a follower is part of take
what they need of it from here. -/
theorem syncStep_of_syncWithLeader {loop loop' : Loop} {conn conn' : Conn}
    (h : syncWithLeader loop conn = some (loop', conn')) : SyncStep conn loop loop' conn' := by
  cases loop with
  | reading c =>
    obtain ⟨⟨sync, rest⟩, hread, h⟩ := Option.bind_eq_some_iff.1 h
    cases sync with
    | some sync =>
      obtain ⟨rfl, rfl⟩ := Prod.mk.inj (Option.some.inj h)
      exact .read hread
    | none =>
      obtain ⟨rfl, rfl⟩ := Prod.mk.inj (Option.some.inj h)
      exact .skip hread
  | ack c lastAppliedIndex =>
    obtain ⟨rfl, rfl⟩ := Prod.mk.inj (Option.some.inj h)
    exact .ack _
  | top => cases h
  | follow => cases h
  | dial addr => cases h
  | apply c sync => cases h

end Cluster
end Keva
