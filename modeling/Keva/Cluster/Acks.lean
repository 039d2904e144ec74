/-
# What an acknowledgement stands for

The two ends of replication: a `Leader` with its peers (`Keva.Cluster.Peers`) and, at the
other end of one connection, a follower in `syncWithLeader` (`cluster/follower.go`), which
reads a frame, carries it out on its store and acknowledges its index.  `ReplicationAck`
"tells the leader how far it's caught up"
(`protocol/cluster/replication_sync_protocol_response.go`).

A broadcast draws its index from an atomic counter and takes the mutex under which it writes
to the followers afterwards.  Two broadcasts may do the one in one order and the other in the
other order, and a follower then acknowledges an index while it has never seen a smaller one
(`ack_overtakes`).  Where every broadcast writes before those with larger indices do, the
follower receives `1, 2, 3, …`, and an acknowledgement stands for everything up to its index
(`acked_of_inTurn`).

`received` and `processed` are read by no step.  They keep the indices of the frames the
follower has read, and of those it has carried out.
-/

import Keva.Cluster.Converge
import Keva.Cluster.Network
import Keva.Cluster.Peers

namespace Keva
namespace Cluster

open Bytes
open Eviction (Range)
open Store (KVStore Call oneShard)
open Protocol (ReplicationSync encodeFrame)

/-- A `Leader` with its peers, and a follower.  The follower never leads, and its loop is at
the top or in `syncWithLeader`; the frame with which it joins, which is read before
`AddFollower`, is left out. -/
structure Link where
  peers : Peers
  nodeAddr : Addr
  leaderAddr : Addr
  loop : Loop
  db : KVStore
  clock : Time
  received : List UInt64
  processed : List UInt64

namespace Link

/-- One step: at the leader; of the clock; of the follower, which dials, reads a frame or
acknowledges one, carries one out, or loses its connection; of the sweeper of its store. -/
inductive Action
  | peers (action : Peers.Action)
  | tick (t : Time)
  | dial
  | follow
  | apply (ranges : ℕ → Range)
  | hangUp
  | sweep (i : ℕ) (range : Range) (now : Time)

/-- `syncWithLeader`, but for the call of `applySync`. -/
def follow (s : Link) : Option Link := do
  let c ← s.loop.conn
  let conn ← s.peers.conns[c]?
  let (loop, conn) ← syncWithLeader s.loop conn
  return { s with peers := s.peers.setConn c conn, loop := loop,
                  received := s.received ++ (loop.sync.map ReplicationSync.logIndex).toList }

/-- The steps of the `Leader` are those of `Peers`.  The follower dials, reads, applies and
acknowledges on the connection it has dialed, and leaves it at any time; its sweeper and the clock
go on. -/
def step (s : Link) : Action → Option Link
  | .peers action => do
    let peers ← s.peers.step action
    return { s with peers := peers }
  | .tick t => if s.clock ≤ t then some { s with clock := t } else none
  | .dial =>
    match s.loop with
    | .top => do
      let peers ← s.peers.step (.dial s.nodeAddr s.leaderAddr)
      return { s with peers := peers, loop := .reading s.peers.conns.length }
    | _ => none
  | .follow => s.follow
  | .apply ranges =>
    match s.loop with
    | .apply c sync => do
      let db ← applySync ranges s.db sync s.clock
      return { s with db := db, loop := .ack c sync.logIndex,
                      processed := s.processed ++ [sync.logIndex] }
    | _ => none
  | .hangUp =>
    match s.loop with
    | .reading _ => some { s with loop := .top }
    | _ => none
  | .sweep i range now => do
    let shard ← s.db.shards[i]?
    if now ≤ s.clock then return { s with db := s.db.setShard i (shard.sweep range now) } else none

/-- The follower on connection `c`. -/
def start (peers : Peers) (nodeAddr leaderAddr : Addr) (c : ℕ) (db : KVStore) (t : Time) : Link :=
  ⟨peers, nodeAddr, leaderAddr, .reading c, db, t, [], []⟩

end Link

/-- A step with what it takes for granted and what it leads to. -/
inductive LinkStep (s : Link) : Link.Action → Link → Prop
  | peers {action : Peers.Action} {peers : Peers} (hpeers : s.peers.step action = some peers) :
      LinkStep s (.peers action) { s with peers := peers }
  | tick {t : Time} (ht : s.clock ≤ t) : LinkStep s (.tick t) { s with clock := t }
  | dial {peers : Peers} (hloop : s.loop = .top)
      (hpeers : s.peers.step (.dial s.nodeAddr s.leaderAddr) = some peers) :
      LinkStep s .dial { s with peers := peers, loop := .reading s.peers.conns.length }
  | read {c : ℕ} {conn : Conn} {sync : ReplicationSync} {rest : Bytes} (hloop : s.loop = .reading c)
      (hconn : s.peers.conns[c]? = some conn)
      (hread : readSync conn.down = some (some sync, rest)) :
      LinkStep s .follow
        { s with peers := s.peers.setConn c { conn with down := rest },
                 loop := .apply c sync, received := s.received ++ [sync.logIndex] }
  | skip {c : ℕ} {conn : Conn} {rest : Bytes} (hloop : s.loop = .reading c)
      (hconn : s.peers.conns[c]? = some conn) (hread : readSync conn.down = some (none, rest)) :
      LinkStep s .follow
        { s with peers := s.peers.setConn c { conn with down := rest }, loop := .reading c }
  | ack {c : ℕ} {conn : Conn} {lastAppliedIndex : UInt64} (bytes : Bytes)
      (hloop : s.loop = .ack c lastAppliedIndex) (hconn : s.peers.conns[c]? = some conn) :
      LinkStep s .follow
        { s with peers := s.peers.setConn c { conn with up := conn.up ++ bytes }, loop := .reading c }
  | apply {c : ℕ} {sync : ReplicationSync} {ranges : ℕ → Range} {db : KVStore}
      (hloop : s.loop = .apply c sync) (hdb : applySync ranges s.db sync s.clock = some db) :
      LinkStep s (.apply ranges)
        { s with db := db, loop := .ack c sync.logIndex,
                 processed := s.processed ++ [sync.logIndex] }
  | hangUp {c : ℕ} (hloop : s.loop = .reading c) : LinkStep s .hangUp { s with loop := .top }
  | sweep {i : ℕ} {shard : Store.Shard} {now : Time} (range : Range)
      (hshard : s.db.shards[i]? = some shard) (hnow : now ≤ s.clock) :
      LinkStep s (.sweep i range now) { s with db := s.db.setShard i (shard.sweep range now) }

namespace Link

/-- A step of the read loop: a frame, a frame that is skipped, or an acknowledgement. -/
theorem linkStep_of_follow {s s' : Link} (hs : s.follow = some s') : LinkStep s .follow s' := by
  obtain ⟨c, hc, hs⟩ := Option.bind_eq_some_iff.1 hs
  obtain ⟨conn, hconn, hs⟩ := Option.bind_eq_some_iff.1 hs
  obtain ⟨⟨loop', conn'⟩, hsync, hs⟩ := Option.bind_eq_some_iff.1 hs
  obtain rfl := Option.some.inj hs
  have hstep := syncStep_of_syncWithLeader hsync
  generalize hloop : s.loop = loop at hc hstep
  cases hstep with
  | read hread =>
    obtain rfl := Option.some.inj hc
    exact .read hloop hconn hread
  | skip hread =>
    obtain rfl := Option.some.inj hc
    simpa [Loop.sync] using LinkStep.skip hloop hconn hread
  | ack bytes =>
    obtain rfl := Option.some.inj hc
    simpa [Loop.sync] using LinkStep.ack bytes hloop hconn

/-- **Every step is one of `LinkStep`,** with what it takes for granted.  The invariants below
are proved by cases on it. -/
theorem linkStep_of_step {s s' : Link} {a : Action} (hs : s.step a = some s') :
    LinkStep s a s' := by
  cases a with
  | peers action =>
    obtain ⟨peers, hpeers, hs⟩ := Option.bind_eq_some_iff.1 hs
    exact Option.some.inj hs ▸ .peers hpeers
  | tick t =>
    simp only [step] at hs
    split_ifs at hs with ht
    exact Option.some.inj hs ▸ .tick ht
  | dial =>
    simp only [step] at hs
    split at hs
    · rename_i hloop
      obtain ⟨peers, hpeers, hs⟩ := Option.bind_eq_some_iff.1 hs
      exact Option.some.inj hs ▸ .dial hloop hpeers
    · cases hs
  | follow => exact linkStep_of_follow hs
  | apply ranges =>
    simp only [step] at hs
    split at hs
    · rename_i c sync hloop
      obtain ⟨db, hdb, hs⟩ := Option.bind_eq_some_iff.1 hs
      exact Option.some.inj hs ▸ .apply hloop hdb
    · cases hs
  | hangUp =>
    simp only [step] at hs
    split at hs
    · rename_i c hloop
      exact Option.some.inj hs ▸ .hangUp hloop
    · cases hs
  | sweep i range now =>
    obtain ⟨shard, hshard, hs⟩ := Option.bind_eq_some_iff.1 hs
    split_ifs at hs with hnow
    exact Option.some.inj hs ▸ .sweep range hshard hnow

/-! ### Conditions on a step -/

/-- Broadcasts fit the frames that are sent for them. -/
def Fitting (_ : Link) : Action → Prop
  | .peers (.call call) => (syncOf call 0).Fits
  | _ => True

/-- The counter does not wrap around, and a broadcast writes before every other that has a
larger index. -/
def InTurn (s : Link) : Action → Prop
  | .peers (.index _) => s.peers.leader.logIndex + 1 ≠ 0
  | .peers (.broadcast j _ _) =>
    ∀ x ∈ s.peers.calls[j]?, ∀ i ∈ x.2, ∀ y ∈ s.peers.calls, ∀ k ∈ y.2, i ≤ k
  | _ => True

/-- The follower stays on its connection. -/
def Stays (_ : Link) : Action → Prop
  | .hangUp => False
  | _ => True

instance (s : Link) (a : Action) : Decidable (s.Fitting a) := by
  unfold Fitting
  split <;> infer_instance

instance (s : Link) (a : Action) : Decidable (s.InTurn a) := by
  unfold InTurn
  -- the index in an option is looked up there, not searched for among all `2 ^ 64`
  have (p : UInt64 → Prop) [DecidablePred p] : (o : Option UInt64) → Decidable (∀ i ∈ o, p i) :=
    Option.decidableForallMem
  split <;> infer_instance

instance (s : Link) (a : Action) : Decidable (s.Stays a) := by
  unfold Stays
  split <;> infer_instance

/-! ### Indices in a row -/

/-- The indices after `n` up to `m`. -/
def indices (n m : ℕ) : List UInt64 := (List.range' (n + 1) (m - n)).map UInt64.ofNat

variable {n m : ℕ}

/-- No index lies between a number and itself. -/
theorem indices_self (n : ℕ) : indices n n = [] := by
  rw [indices, Nat.sub_self]
  rfl

/-- The next index is the first of those still to come. -/
theorem indices_eq_cons (h : n < m) : indices n m = UInt64.ofNat (n + 1) :: indices (n + 1) m := by
  have hlen : m - n = (m - (n + 1)) + 1 := by omega
  rw [indices, hlen, List.range'_succ]
  rfl

/-- The index that is drawn is the last of those drawn so far. -/
theorem indices_eq_concat (h : n ≤ m) : indices n (m + 1) = indices n m ++ [UInt64.ofNat (m + 1)] := by
  have hlen : m + 1 - n = (m - n) + 1 := by omega
  have hlast : n + 1 + 1 * (m - n) = m + 1 := by omega
  rw [indices, hlen, List.range'_concat, hlast, List.map_append]
  rfl

/-- As long as the counter has not wrapped, the indices between two numbers are what they seem. -/
theorem mem_indices (hm : m < 2 ^ 64) {i : UInt64} :
    i ∈ indices n m ↔ n < i.toNat ∧ i.toNat ≤ m := by
  rw [indices, List.mem_map]
  constructor
  · rintro ⟨k, hk, rfl⟩
    rw [List.mem_range'_1] at hk
    rw [UInt64.toNat_ofNat_of_lt' (by change k < 2 ^ 64; omega)]
    omega
  · rintro ⟨hlt, hle⟩
    refine ⟨i.toNat, List.mem_range'_1.2 (by omega), UInt64.ofNat_toNat⟩

/-- And they grow. -/
theorem pairwise_indices (hm : m < 2 ^ 64) : (indices n m).Pairwise (· < ·) := by
  have hrange : (List.range' (n + 1) (m - n)).Pairwise (· < ·) := List.pairwise_lt_range' 1
  rw [indices, List.pairwise_map]
  refine hrange.imp_of_mem fun {i k} hi hk hlt => ?_
  rw [List.mem_range'_1] at hi hk
  rw [UInt64.lt_iff_toNat_lt, UInt64.toNat_ofNat_of_lt' (by change i < 2 ^ 64; omega),
    UInt64.toNat_ofNat_of_lt' (by change k < 2 ^ 64; omega)]
  exact hlt

/-- What comes first of indices in a row is indices in a row. -/
theorem eq_indices_of_append {xs ys : List UInt64} (h : xs ++ ys = indices 0 m) :
    xs.length ≤ m ∧ xs = indices 0 xs.length := by
  have hlen := congrArg List.length h
  rw [List.length_append, indices, List.length_map, List.length_range'] at hlen
  refine ⟨by omega, ?_⟩
  have hsplit : indices 0 m = indices 0 xs.length ++ indices xs.length m := by
    have hm : m - 0 = (xs.length - 0) + (m - xs.length) := by omega
    have hstart : 0 + 1 + 1 * (xs.length - 0) = xs.length + 1 := by omega
    rw [indices, indices, indices, ← List.map_append, hm, ← List.range'_append, hstart]
  rw [hsplit] at h
  exact List.append_inj_left h (by simp [indices])

/-! ### What every step keeps -/

variable {s s' : Link} {a : Action} {c : ℕ} {flying : List (Call × UInt64)} {tail : Bytes}

/-- The follower is in `syncWithLeader` on connection `c`, and has carried out what it has
received, but for the frame in its hands. -/
def Follows (c : ℕ) (s : Link) : Prop :=
  match s.loop with
  | .reading d => d = c ∧ s.processed = s.received
  | .apply d sync => d = c ∧ s.processed ++ [sync.logIndex] = s.received
  | .ack d index => d = c ∧ s.processed = s.received ∧ s.received.getLast? = some index
  | _ => False

/-- The broadcasts up to index `n` have been written, those up to `m` to connection `c`.  Of
these the frames of `flying` are still on it, and then the beginning of one that was cut. -/
structure Numbered (c : ℕ) (flying : List (Call × UInt64)) (tail : Bytes) (n m : ℕ) (s : Link) :
    Prop where
  wired : s.peers.Wired
  added : s.peers.drains c ≠ .accepted
  le : n ≤ s.peers.leader.logIndex.toNat
  held : (s.peers.calls.filterMap Prod.snd).Perm (indices n s.peers.leader.logIndex.toNat)
  waits : ∀ x ∈ s.peers.calls, (syncOf x.1 0).Fits
  flies : ∀ x ∈ flying, (syncOf x.1 0).Fits
  down : s.peers.down c = some (frames flying ++ tail)
  cut : ∃ sync : ReplicationSync, sync.Fits ∧
    ∃ k < (encodeFrame (.replicationSync sync)).length,
      tail = (encodeFrame (.replicationSync sync)).take k
  registered : ∀ x, s.peers.leader.followers.lookup x = some c → tail = [] ∧ m = n
  numbers : s.received ++ flying.map Prod.snd = indices 0 m
  m_le : m ≤ n
  follows : Follows c s

/-- Whether a frame fits does not depend on its index. -/
theorem fits_syncOf_index {call : Call} (h : (syncOf call 0).Fits) (index : UInt64) :
    (syncOf call index).Fits := by
  cases call with
  | setWithExpiry key value expiredAt => exact ⟨h.key_le, h.frame_lt⟩
  | delete key => exact ⟨h.key_le, h.frame_lt⟩

/-- Nothing is cut. -/
theorem cut_nil : ∃ sync : ReplicationSync, sync.Fits ∧
    ∃ k < (encodeFrame (.replicationSync sync)).length,
      ([] : Bytes) = (encodeFrame (.replicationSync sync)).take k :=
  ⟨⟨0, 0, [], [], 0⟩, by decide, 0, by decide, rfl⟩

/-- A step at the leader that is not of a broadcast: nothing is written, no index is drawn, and a
connection that was added is not added again. -/
theorem Numbered.quiet (h : Numbered c flying tail n m s) {action : Peers.Action} {p : Peers}
    (ha : action.broadcasts = false) (hs : s.peers.step action = some p) :
    Numbered c flying tail n m { s with peers := p } := by
  obtain ⟨hadded, hkept⟩ := Peers.added_step h.added h.wired hs
  obtain ⟨hcalls, hindex⟩ := Peers.calls_step ha hs
  have hdown : p.down c = some (frames flying ++ tail) := by
    refine Peers.down_step h.down (fun j range cuts heq => ?_) hs
    rw [heq] at ha
    cases ha
  refine ⟨h.wired.step hs, hadded, ?_, ?_, ?_, h.flies, hdown, h.cut,
    fun x hx => h.registered x (hkept x hx), h.numbers, h.m_le, h.follows⟩
  · rw [hindex]
    exact h.le
  · rw [hcalls, hindex]
    exact h.held
  · rw [hcalls]
    exact h.waits

/-- A broadcast is called. -/
theorem Numbered.call (h : Numbered c flying tail n m s) {call : Call} (hfit : (syncOf call 0).Fits) :
    Numbered c flying tail n m
      { s with peers := { s.peers with calls := s.peers.calls ++ [(call, none)] } } := by
  refine ⟨h.wired.congr rfl rfl rfl rfl rfl, h.added, h.le, ?_, ?_, h.flies, h.down, h.cut,
    h.registered, h.numbers, h.m_le, h.follows⟩
  · show ((s.peers.calls ++ [(call, none)]).filterMap Prod.snd).Perm _
    rw [List.filterMap_append]
    exact (List.append_nil _).symm ▸ h.held
  · exact List.forall_mem_append.2 ⟨h.waits, List.forall_mem_singleton.2 hfit⟩

/-- The call of a broadcast takes the next index, which joins those that are held.  The counter
must not wrap, as a second frame with the same number would be sent. -/
theorem Numbered.index (h : Numbered c flying tail n m s) {j : ℕ} {call : Call}
    (hj : s.peers.calls[j]? = some (call, none)) (hwrap : s.peers.leader.logIndex + 1 ≠ 0) :
    Numbered c flying tail n m
      { s with peers :=
        { s.peers with leader := { s.peers.leader with logIndex := s.peers.leader.logIndex + 1 },
                       calls := s.peers.calls.set j (call, some (s.peers.leader.logIndex + 1)) } } := by
  obtain ⟨hlt, hget⟩ := List.getElem?_eq_some_iff.1 hj
  have hnext : (s.peers.leader.logIndex + 1).toNat = s.peers.leader.logIndex.toNat + 1 := by
    have hmod : (s.peers.leader.logIndex + 1).toNat = (s.peers.leader.logIndex.toNat + 1) % 2 ^ 64 :=
      UInt64.toNat_add _ _
    have hbound := s.peers.leader.logIndex.toNat_lt
    have hne : (s.peers.leader.logIndex + 1).toNat ≠ 0 := fun h0 => hwrap (UInt64.toNat_inj.1 h0)
    omega
  have hone : UInt64.ofNat (s.peers.leader.logIndex.toNat + 1) = s.peers.leader.logIndex + 1 := by
    rw [← hnext, UInt64.ofNat_toNat]
  refine ⟨h.wired.congr rfl rfl rfl rfl rfl, h.added, ?_, ?_, ?_, h.flies, h.down, h.cut,
    h.registered, h.numbers, h.m_le, h.follows⟩
  · show n ≤ (s.peers.leader.logIndex + 1).toNat
    rw [hnext]
    exact h.le.trans (Nat.le_succ _)
  · -- One more index is held, the last one.
    have hset := (List.set_perm_cons_eraseIdx hlt (call, some (s.peers.leader.logIndex + 1))).filterMap
      Prod.snd
    have hall := (List.getElem_cons_eraseIdx_perm hlt).filterMap Prod.snd
    rw [hget] at hall
    show ((s.peers.calls.set j _).filterMap Prod.snd).Perm
      (indices n (s.peers.leader.logIndex + 1).toNat)
    rw [hnext, indices_eq_concat h.le, hone]
    refine hset.trans ?_
    exact ((hall.trans h.held).cons _).trans (List.perm_append_singleton _ _).symm
  · intro x hx
    rcases List.mem_or_eq_of_mem_set hx with hx | rfl
    · exact h.waits x hx
    · exact h.waits (call, none) (List.mem_of_getElem? hj)

/-- The broadcast whose turn it is has the next index to be written: that index is held by some
call, and no call holds a smaller one. -/
theorem Numbered.next (h : Numbered c flying tail n m s) {j : ℕ} {call : Call} {index : UInt64}
    (hj : s.peers.calls[j]? = some (call, some index))
    (hturn : ∀ y ∈ s.peers.calls, ∀ k ∈ y.2, index ≤ k) :
    n < s.peers.leader.logIndex.toNat ∧ index = UInt64.ofNat (n + 1) ∧
      ((s.peers.calls.eraseIdx j).filterMap Prod.snd).Perm
        (indices (n + 1) s.peers.leader.logIndex.toNat) := by
  have hbound := s.peers.leader.logIndex.toNat_lt
  obtain ⟨hlt, hget⟩ := List.getElem?_eq_some_iff.1 hj
  have hindex : index ∈ indices n s.peers.leader.logIndex.toNat :=
    h.held.subset (List.mem_filterMap.2 ⟨_, List.mem_of_getElem? hj, rfl⟩)
  obtain ⟨hgt, hle⟩ := (mem_indices hbound).1 hindex
  have hcons := indices_eq_cons (hgt.trans_le hle)
  -- The first index not yet written is held by somebody, and is not smaller.
  have hfirst : index.toNat ≤ n + 1 := by
    have hmem : UInt64.ofNat (n + 1) ∈ s.peers.calls.filterMap Prod.snd :=
      h.held.symm.subset (hcons ▸ List.mem_cons_self)
    obtain ⟨y, hy, hk⟩ := List.mem_filterMap.1 hmem
    have hturn := UInt64.le_iff_toNat_le.1 (hturn y hy _ hk)
    rwa [UInt64.toNat_ofNat_of_lt' (by change n + 1 < 2 ^ 64; omega)] at hturn
  have heq : index = UInt64.ofNat (n + 1) := by
    rw [← UInt64.toNat_inj, UInt64.toNat_ofNat_of_lt' (by change n + 1 < 2 ^ 64; omega)]
    omega
  refine ⟨hgt.trans_le hle, heq, ?_⟩
  have hall := (List.getElem_cons_eraseIdx_perm hlt).filterMap Prod.snd
  rw [hget] at hall
  have hperm := hall.trans h.held
  rw [hcons, ← heq] at hperm
  exact hperm.cons_inv

/-- **A broadcast writes,** to the follower or not, and to the end or not.  A frame that is cut
ends what the follower will ever get on this connection, since the broadcast also removes it. -/
theorem Numbered.broadcast (h : Numbered c flying tail n m s) {j : ℕ} {call : Call}
    {index : UInt64} {frame : Bytes} (range : RangeOrder Addr ℕ) (cuts : ℕ → Option ℕ)
    (hj : s.peers.calls[j]? = some (call, some index))
    (hframe : frame = encodeFrame (.replicationSync (syncOf call index)))
    (hturn : ∀ y ∈ s.peers.calls, ∀ k ∈ y.2, index ≤ k) {p : Peers}
    (hleader : p.leader = (s.peers.leader.broadcast range frame cuts s.peers.conns).1)
    (hconns : p.conns = (s.peers.leader.broadcast range frame cuts s.peers.conns).2)
    (hcalls : p.calls = s.peers.calls.eraseIdx j)
    (hs : s.peers.step (.broadcast j range cuts) = some p) :
    ∃ flying' tail' m', Numbered c flying' tail' (n + 1) m' { s with peers := p } := by
  obtain ⟨hlt, hindex, hheld⟩ := h.next hj hturn
  obtain ⟨hadded, hkept⟩ := Peers.added_step h.added h.wired hs
  have hspec := Leader.broadcast_spec h.wired.sound range frame cuts
  have hfits : (syncOf call 0).Fits := h.waits _ (List.mem_of_getElem? hj)
  have hwaits : ∀ x ∈ p.calls, (syncOf x.1 0).Fits := by
    rw [hcalls]
    exact fun x hx => h.waits x (List.mem_of_mem_eraseIdx hx)
  have hlog : p.leader.logIndex = s.peers.leader.logIndex := by rw [hleader, hspec.logIndex]
  have hle : n + 1 ≤ p.leader.logIndex.toNat := by rw [hlog]; omega
  have hheld' : (p.calls.filterMap Prod.snd).Perm (indices (n + 1) p.leader.logIndex.toNat) := by
    rw [hcalls, hlog]
    exact hheld
  by_cases hreg : ∃ x, s.peers.leader.followers.lookup x = some c
  · obtain ⟨x, hx⟩ := hreg
    obtain ⟨rfl, rfl⟩ := h.registered x hx
    have hdown : p.down c = some (frames flying ++ [] ++ (cuts c).elim frame frame.take) := by
      rw [Peers.down, hconns]
      exact Peers.down_broadcast h.wired h.down hx range frame cuts
    -- The frame is on the connection to its end.
    have hwhole : p.down c = some (frames flying ++ [] ++ frame) →
        ∃ flying' tail' m', Numbered c flying' tail' (m + 1) m' { s with peers := p } := by
      intro hdown
      refine ⟨flying ++ [(call, index)], [], m + 1, h.wired.step hs, hadded, hle, hheld', hwaits,
        List.forall_mem_append.2 ⟨h.flies, List.forall_mem_singleton.2 hfits⟩, ?_, cut_nil,
        fun _ _ => ⟨rfl, rfl⟩, ?_, le_rfl, h.follows⟩
      · rw [hdown, frames_append, List.append_nil, List.append_nil, hframe]
        simp [frames]
      · rw [List.map_append, ← List.append_assoc, h.numbers, indices_eq_concat (Nat.zero_le m),
          hindex]
        rfl
    cases hcut : cuts c with
    | none =>
      rw [hcut] at hdown
      exact hwhole hdown
    | some k =>
      rw [hcut] at hdown
      by_cases hk : k < frame.length
      · refine ⟨flying, frame.take k, m, h.wired.step hs, hadded, hle, hheld', hwaits, h.flies, ?_,
          ⟨syncOf call index, fits_syncOf_index hfits index, k, hframe ▸ hk, hframe ▸ rfl⟩,
          fun y hy => ?_, h.numbers, Nat.le_succ m, h.follows⟩
        · rw [hdown, List.append_nil]
          rfl
        · -- A follower on which a write fails is dropped.
          change p.leader.followers.lookup y = some c at hy
          rw [hleader, hspec.followers, Option.filter_eq_some_iff, hcut] at hy
          cases hy.2
      · refine hwhole (hdown.trans ?_)
        rw [Option.elim_some, List.take_of_length_le (not_lt.1 hk)]
  · have hnone : ∀ x, s.peers.leader.followers.lookup x ≠ some c := fun x hx => hreg ⟨x, hx⟩
    refine ⟨flying, tail, m, h.wired.step hs, hadded, hle, hheld', hwaits, h.flies, ?_, h.cut,
      fun x hx => absurd (hkept x hx) (hnone x), h.numbers, h.m_le.trans (Nat.le_succ n), h.follows⟩
    show p.down c = _
    rw [Peers.down, hconns, Peers.down_broadcast_other h.wired hnone]
    exact h.down

/-- **A step at the leader.**  Indices are drawn one after the other, and a broadcast writes when
those before it have written; whatever else is done there leaves the bytes on the connection. -/
theorem Numbered.peers (h : Numbered c flying tail n m s) {action : Peers.Action} {p : Peers}
    (hfit : s.Fitting (.peers action)) (hturn : s.InTurn (.peers action))
    (hs : s.peers.step action = some p) :
    ∃ flying' tail' n' m', Numbered c flying' tail' n' m' { s with peers := p } := by
  by_cases ha : action.broadcasts = false
  · exact ⟨flying, tail, n, m, h.quiet ha hs⟩
  · cases Peers.peersStep_of_step hs with
    | call call => exact ⟨flying, tail, n, m, h.call hfit⟩
    | index hj => exact ⟨flying, tail, n, m, h.index hj hturn⟩
    | broadcast range cuts hj hframe =>
      have hfirst := hturn _ hj _ rfl
      obtain ⟨flying', tail', m', h'⟩ := h.broadcast range cuts hj hframe hfirst rfl rfl rfl hs
      exact ⟨flying', tail', n + 1, m', h'⟩
    | _ => exact absurd rfl ha

/-- What the follower reads is the next frame, if there is one to the end. -/
theorem Numbered.read (h : Numbered c flying tail n m s) {conn : Conn}
    (hconn : s.peers.conns[c]? = some conn) {next : Option ReplicationSync} {rest : Bytes}
    (hread : readSync conn.down = some (next, rest)) :
    ∃ x flying', flying = x :: flying' ∧ next = some (syncOf x.1 x.2) ∧
      rest = frames flying' ++ tail := by
  have hdown := h.down
  rw [Peers.down, hconn] at hdown
  rw [show conn.down = frames flying ++ tail from Option.some.inj hdown] at hread
  obtain ⟨sync, hfits, k, hk, rfl⟩ := h.cut
  exact readSync_frames (fun x hx => fits_syncOf_index (h.flies x hx) x.2) (readSync_take hfits hk)
    hread

/-- **The follower takes the next frame off its connection,** and its index joins those received;
what has been received and what is on its way are together what they were. -/
theorem Numbered.take {x : Call × UInt64} (h : Numbered c (x :: flying) tail n m s) {conn : Conn}
    (hconn : s.peers.conns[c]? = some conn) (hloop : s.loop = .reading c) :
    Numbered c flying tail n m
      { s with peers := s.peers.setConn c { conn with down := frames flying ++ tail },
               loop := .apply c (syncOf x.1 x.2),
               received := s.received ++ [(syncOf x.1 x.2).logIndex] } := by
  have hindex : (syncOf x.1 x.2).logIndex = x.2 := by cases x.1 <;> rfl
  have hfollows := h.follows
  unfold Follows at hfollows
  rw [hloop] at hfollows
  refine ⟨h.wired.congr rfl (Peers.closed_setConn hconn rfl) rfl rfl rfl, h.added, h.le,
    h.held, h.waits, fun y hy => h.flies y (List.mem_cons_of_mem _ hy), ?_, h.cut, h.registered,
    ?_, h.m_le, ?_⟩
  · show ((s.peers.conns.set c _)[c]?).map Conn.down = _
    rw [List.getElem?_set_self (List.getElem?_eq_some_iff.1 hconn).1]
    rfl
  · show s.received ++ [(syncOf x.1 x.2).logIndex] ++ flying.map Prod.snd = _
    rw [hindex, List.append_assoc]
    exact h.numbers
  · show c = c ∧ s.processed ++ [_] = s.received ++ [_]
    rw [hfollows.2]
    exact ⟨rfl, rfl⟩

/-- **Every step keeps the frames numbered,** where broadcasts write in the order of their
indices and the follower stays on its connection. -/
theorem Numbered.step (h : Numbered c flying tail n m s) (hfit : s.Fitting a) (hturn : s.InTurn a)
    (hstays : s.Stays a) (hs : s.step a = some s') :
    ∃ flying' tail' n' m', Numbered c flying' tail' n' m' s' := by
  have hfollows := h.follows
  unfold Follows at hfollows
  cases linkStep_of_step hs with
  | peers hpeers => exact h.peers hfit hturn hpeers
  | tick ht => exact ⟨flying, tail, n, m, { h with }⟩
  | dial hloop hpeers =>
    rw [hloop] at hfollows
    exact hfollows.elim
  | read hloop hconn hread =>
    rw [hloop] at hfollows
    obtain ⟨rfl, -⟩ := hfollows
    obtain ⟨x, flying, rfl, hsync, rfl⟩ := h.read hconn hread
    obtain rfl := Option.some.inj hsync
    exact ⟨flying, tail, n, m, h.take hconn hloop⟩
  | skip hloop hconn hread =>
    -- There is nothing else on the connection.
    rw [hloop] at hfollows
    obtain ⟨rfl, -⟩ := hfollows
    obtain ⟨x, flying, -, hnone, -⟩ := h.read hconn hread
    cases hnone
  | ack bytes hloop hconn =>
    rw [hloop] at hfollows
    obtain ⟨rfl, hprocessed, -⟩ := hfollows
    exact ⟨flying, tail, n, m, h.wired.congr rfl (Peers.closed_setConn hconn rfl) rfl rfl rfl,
      h.added, h.le, h.held, h.waits, h.flies, Peers.down_setConn h.down hconn rfl, h.cut,
      h.registered, h.numbers, h.m_le, rfl, hprocessed⟩
  | @apply d sync ranges db hloop hdb =>
    rw [hloop] at hfollows
    obtain ⟨rfl, hprocessed⟩ := hfollows
    refine ⟨flying, tail, n, m, { h with follows := ⟨rfl, hprocessed, ?_⟩ }⟩
    show s.received.getLast? = some sync.logIndex
    rw [← hprocessed, List.getLast?_concat]
  | hangUp hloop => exact hstays.elim
  | sweep range hshard hnow => exact ⟨flying, tail, n, m, { h with }⟩

/-- Before the first broadcast nothing has been written to anybody, whoever has dialed and joined
so far. -/
theorem before_first_broadcast {p : Peers}
    (hp : Reach Peers.step (fun _ a => a.broadcasts = false) .start p) :
    p.Wired ∧ p.calls = [] ∧ p.leader.logIndex = 0 ∧
      ∀ d bytes, p.down d = some bytes → bytes = [] := by
  refine hp.invariant (P := fun p : Peers => p.Wired ∧ p.calls = [] ∧ p.leader.logIndex = 0 ∧
      ∀ d bytes, p.down d = some bytes → bytes = [])
    ⟨Peers.wired_start, rfl, rfl, fun d bytes hd => nomatch hd⟩ fun p a p' h ha hs => ?_
  obtain ⟨hwired, hcalls, hindex, hdown⟩ := h
  obtain ⟨hcalls', hindex'⟩ := Peers.calls_step ha hs
  refine ⟨hwired.step hs, hcalls'.trans hcalls, hindex'.trans hindex, fun d bytes hd => ?_⟩
  cases hold : p.down d with
  | none =>
    rcases Peers.down_of_none hold (Peers.ne_broadcast ha) hs with hnone | hempty
    · rw [hnone] at hd
      cases hd
    · exact Option.some.inj (hd.symm.trans hempty)
  | some old =>
    have hsame := Peers.down_step hold (Peers.ne_broadcast ha) hs
    exact (Option.some.inj (hd.symm.trans hsame)).trans (hdown d old hold)

/-- A follower that has just been added has been sent nothing, and nothing has been numbered yet. -/
theorem numbered_start {p : Peers} (hp : Reach Peers.step (fun _ a => a.broadcasts = false) .start p)
    {x : Addr} (hx : p.leader.followers.lookup x = some c) (nodeAddr leaderAddr : Addr)
    (db : KVStore) (t : Time) : Numbered c [] [] 0 0 (start p nodeAddr leaderAddr c db t) := by
  obtain ⟨hwired, hcalls, hindex, hdown⟩ := before_first_broadcast hp
  obtain ⟨conn, hconn, -⟩ := Peers.closed_eq_some_iff.1 (hwired.isOpen hx)
  have hempty : p.down c = some [] := by
    have hc : p.down c = some conn.down := by rw [Peers.down, hconn, Option.map_some]
    rw [hc, hdown c _ hc]
  have hzero : p.leader.logIndex.toNat = 0 := by rw [hindex]; rfl
  refine ⟨hwired, fun haccepted => hwired.lookup_ne haccepted x hx, Nat.zero_le _, ?_, ?_,
    fun y hy => absurd hy List.not_mem_nil, hempty, cut_nil, fun _ _ => ⟨rfl, rfl⟩,
    (indices_self 0).symm, le_rfl, rfl, rfl⟩
  · show (p.calls.filterMap Prod.snd).Perm (indices 0 p.leader.logIndex.toNat)
    rw [hcalls, hzero, indices_self]
    exact .nil
  · show ∀ y ∈ p.calls, _
    rw [hcalls]
    exact fun y hy => absurd hy List.not_mem_nil

/-- What the follower has received is `1, 2, 3, …`, and it acknowledges the last of it. -/
theorem Numbered.acked (h : Numbered c flying tail n m s) :
    s.received.Pairwise (· < ·) ∧ ∀ d index, s.loop = .ack d index →
      ∀ i, 1 ≤ i → i ≤ index → i ∈ s.processed := by
  have hbound : s.received.length < 2 ^ 64 := by
    have hle := (eq_indices_of_append h.numbers).1
    have := h.m_le
    have := h.le
    have := s.peers.leader.logIndex.toNat_lt
    omega
  obtain ⟨-, hreceived⟩ := eq_indices_of_append h.numbers
  refine ⟨hreceived ▸ pairwise_indices hbound, fun d index hloop i hone hle => ?_⟩
  have hfollows := h.follows
  unfold Follows at hfollows
  rw [hloop] at hfollows
  obtain ⟨-, hprocessed, hlast⟩ := hfollows
  have hmem : index ∈ indices 0 s.received.length := hreceived ▸ List.mem_of_getLast? hlast
  have hindex := (mem_indices hbound).1 hmem
  rw [hprocessed, hreceived, mem_indices hbound]
  exact ⟨UInt64.le_iff_toNat_le.1 hone, (UInt64.le_iff_toNat_le.1 hle).trans hindex.2⟩

/-- **An acknowledgement stands for everything up to its index,** for a follower that joined
before the first broadcast and stays, where every broadcast writes before those with larger
indices do. -/
theorem acked_of_inTurn {p : Peers}
    (hp : Reach Peers.step (fun _ a => a.broadcasts = false) .start p) {x : Addr}
    (hx : p.leader.followers.lookup x = some c) (nodeAddr leaderAddr : Addr) (db : KVStore)
    (t : Time)
    (hs : Reach step (fun s a => s.Stays a ∧ s.Fitting a ∧ s.InTurn a)
      (start p nodeAddr leaderAddr c db t) s) :
    s.received.Pairwise (· < ·) ∧ ∀ d index, s.loop = .ack d index →
      ∀ i, 1 ≤ i → i ≤ index → i ∈ s.processed := by
  obtain ⟨flying, tail, n, m, h⟩ := hs.invariant
    (P := fun s => ∃ flying tail n m, Numbered c flying tail n m s)
    ⟨[], [], 0, 0, numbered_start hp hx nodeAddr leaderAddr db t⟩
    fun s a s' ⟨flying, tail, n, m, h⟩ ⟨hstays, hfit, hturn⟩ hstep => h.step hfit hturn hstays hstep
  exact h.acked

/-- A leader with one follower, at the other end of connection `0`. -/
def onePeer : List Peers.Action := [.dial [2] [1], .addFollower [2] 0]

/-- Two broadcasts, each taking its index and then writing; the follower carries out both. -/
def inTurn : List Action :=
  [.peers (.call (.setWithExpiry [7] [1] 0)), .peers (.call (.delete [7])), .peers (.index 1),
    .peers (.index 0), .peers (.broadcast 1 Network.byAddr fun _ => none),
    .peers (.broadcast 0 Network.byAddr fun _ => none), .follow, .apply fun _ => Eviction.byKey,
    .follow, .follow, .apply fun _ => Eviction.byKey]

/-- The second of two writes is about to be acknowledged, and both have been applied. -/
theorem acked_of_inTurn_two :
    ∃ p ∈ runAll Peers.step (fun _ a => a.broadcasts = false) .start onePeer,
      ∃ s ∈ runAll step (fun s a => s.Stays a ∧ s.Fitting a ∧ s.InTurn a)
          (start p [2] [1] 0 oneShard 0) inTurn,
        s.loop = .ack 0 2 ∧ ∀ i, 1 ≤ i → i ≤ 2 → i ∈ s.processed := by
  obtain ⟨p, hp, hx, s, hs, hloop⟩ :
      ∃ p ∈ runAll Peers.step (fun _ a => a.broadcasts = false) .start onePeer,
        p.leader.followers.lookup [2] = some 0 ∧
          ∃ s ∈ runAll step (fun s a => s.Stays a ∧ s.Fitting a ∧ s.InTurn a)
              (start p [2] [1] 0 oneShard 0) inTurn, s.loop = .ack 0 2 := by
    decide +kernel
  exact ⟨p, hp, s, hs, hloop, (acked_of_inTurn (reach_of_runAll hp) hx [2] [1] oneShard 0
    (reach_of_runAll hs)).2 0 2 hloop⟩

/-- Two broadcasts take their indices, and the second is the first to write. -/
def overtaken : List Action :=
  [.peers (.call (.setWithExpiry [7] [1] 0)), .peers (.call (.delete [7])), .peers (.index 0),
    .peers (.index 1), .peers (.broadcast 1 Network.byAddr fun _ => none),
    .follow, .apply fun _ => Eviction.byKey]

/-- **The follower acknowledges `2`, and has not seen `1`,** which is then the next it
receives. -/
theorem ack_overtakes :
    ∃ p ∈ runAll Peers.step (fun _ a => a.broadcasts = false) .start onePeer,
      p.leader.followers.lookup [2] = some 0 ∧
        (∃ s ∈ runAll step (fun s a => s.Stays a ∧ s.Fitting a) (start p [2] [1] 0 oneShard 0)
            overtaken, s.loop = .ack 0 2 ∧ 1 ∉ s.processed) ∧
        ∃ s ∈ runAll step (fun s a => s.Stays a ∧ s.Fitting a) (start p [2] [1] 0 oneShard 0)
            (overtaken ++ [.follow, .peers (.broadcast 0 Network.byAddr fun _ => none), .follow]),
          s.received = [2, 1] := by
  decide +kernel

end Link

end Cluster
end Keva
