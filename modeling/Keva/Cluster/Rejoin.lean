/-
# A follower that leaves and comes back

`Node.Set` and `Node.Delete` on a node that stays leader, one at a time, and a follower that
dials, joins, loses its connection and dials again, in any order (`cluster/node.go`,
`cluster/leader.go`, `cluster/follower.go`, `handleReplicationPeer` in `server/tcp.go`).

`AddFollower` puts the connection under the address of the peer and reads acknowledgements:
nothing is sent for what was written before.  What is broadcast while the follower is away,
or is on its way to it when it leaves, it never gets, and it goes on showing what it had
(`missed_while_away`), against "When the follower restarts, it reconnects to the current leader
and catches up automatically" (`Readme.md`).  Where every broadcast finds it joined, and it
leaves with nothing on its way, it shows what the leader shows whenever it is joined and no
frame is in flight (`caught_up_of_attended`).
-/

import Keva.Cluster.Acks

namespace Keva
namespace Cluster

open Bytes
open Eviction (Range)
open Store (KVStore Call Err Options newKVStore oneShard newKVStore_oneShard)
open Protocol (ReplicationSync encodeFrame)
open Expiry (AgreeFrom visible)
open Replication (Answers answers_visible regular_of_newKVStore)

/-- A leader with its store, the request that has not yet reached it, and a follower. -/
structure Rejoin where
  link : Link
  leader : KVStore
  defaultTTL : ℤ
  started : Option Call

namespace Rejoin

/-- One step: of the `Leader`, its peers or the follower; a request, and the call it makes on
the leader's store; of the sweeper of that store. -/
inductive Action
  | link (action : Link.Action)
  | set (key : Key) (value : Bytes) (ttl : ℤ)
  | delete (key : Key)
  | apply (ranges : ℕ → Range)
  | sweepLeader (i : ℕ) (range : Range) (now : Time)

/-- No request is in progress: neither at the leader's store nor in a broadcast. -/
def Idle (s : Rejoin) : Prop := s.started = none ∧ s.link.peers.calls = []

instance (s : Rejoin) : Decidable s.Idle := inferInstanceAs (Decidable (_ ∧ _))

/-- What goes on around the requests: nobody but a request calls a broadcast. -/
def stepLink (s : Rejoin) : Link.Action → Option Rejoin
  | .peers (.call _) => none
  | action => do
    let link ← s.link.step action
    return { s with link := link }

/-- A request comes in where none is in progress, reaches the leader's store, and if that returns
no error, a broadcast is called; everything around it goes on as it likes. -/
def step (s : Rejoin) : Action → Option Rejoin
  | .link action => s.stepLink action
  | .set key value ttl =>
    if s.Idle then some { s with started := setCall s.defaultTTL s.link.clock key value ttl }
    else none
  | .delete key => if s.Idle then some { s with started := some (.delete key) } else none
  | .apply ranges => do
    let c ← s.started
    let (kv, err) ← c.exec ranges s.leader s.link.clock
    match err with
    | some _ => return { s with leader := kv, started := none }
    | none =>
      let link ← s.link.step (.peers (.call c))
      return { s with link := link, leader := kv, started := none }
  | .sweepLeader i range now => do
    let shard ← s.leader.shards[i]?
    if now ≤ s.link.clock then
      return { s with leader := s.leader.setShard i (shard.sweep range now) }
    else none

/-- A new `Leader`, and a follower that has not dialed yet. -/
def start (nodeAddr leaderAddr : Addr) (leader follower : KVStore) (defaultTTL : ℤ) (t : Time) :
    Rejoin :=
  ⟨⟨.start, nodeAddr, leaderAddr, .top, follower, t, [], []⟩, leader, defaultTTL, none⟩

/-- The follower is in the loop of `syncWithLeader` on connection `c`, under which the leader
knows it. -/
def Joined (s : Rejoin) (c : ℕ) : Prop :=
  s.link.loop.conn = some c ∧ s.link.peers.leader.followers.lookup s.link.nodeAddr = some c

instance (s : Rejoin) (c : ℕ) : Decidable (s.Joined c) := inferInstanceAs (Decidable (_ ∧ _))

/-- No frame is in flight: none stands on connection `c`, and none has been read and not yet
applied.  The acknowledgement of the last one may still be to come. -/
def Landed (s : Rejoin) (c : ℕ) : Prop :=
  s.link.loop.sync = none ∧ s.link.peers.down c = some []

instance (s : Rejoin) (c : ℕ) : Decidable (s.Landed c) := inferInstanceAs (Decidable (_ ∧ _))

/-! ### Conditions on a step -/

/-- Requests fit the frames that are sent for them. -/
def Fitting (s : Rejoin) : Action → Prop
  | .set key value ttl => Sendable (setCall s.defaultTTL s.link.clock key value ttl)
  | .delete key => Sendable (.delete key)
  | _ => True

/-- A broadcast finds the follower joined, and writes its frame to the end; the follower leaves
a connection on which nothing is left. -/
def Attended (s : Rejoin) : Action → Prop
  | .link (.peers (.broadcast _ _ cuts)) => ∃ c ∈ s.link.loop.conn,
    s.link.peers.leader.followers.lookup s.link.nodeAddr = some c ∧ cuts c = none
  | .link .hangUp => ∀ c ∈ s.link.loop.conn, s.link.peers.down c = some []
  | _ => True

instance (s : Rejoin) (a : Action) : Decidable (s.Fitting a) := by
  unfold Fitting
  split <;> infer_instance

instance (s : Rejoin) (a : Action) : Decidable (s.Attended a) := by
  unfold Attended
  split <;> infer_instance

/-! ### What is on its way -/

/-- The calls on their way to the follower: the one it has in its hands, and then those on its
connection. -/
def OnWay (flying : List (Call × UInt64)) (loop : Loop) (down : ℕ → Option Bytes) : Prop :=
  match loop with
  | .top => flying = []
  | .reading c | .ack c _ => down c = some (frames flying)
  | .apply c sync =>
    ∃ x rest, flying = x :: rest ∧ sync = syncOf x.1 x.2 ∧ down c = some (frames rest)
  | _ => False

section OnWay

variable {flying : List (Call × UInt64)} {loop : Loop} {down down' : ℕ → Option Bytes}

/-- What happens on other connections is of no concern, and neither is what changes nothing on
this one. -/
theorem OnWay.mono (h : OnWay flying loop down)
    (hdown : ∀ c bytes, down c = some bytes → down' c = some bytes) : OnWay flying loop down' := by
  cases loop with
  | top => exact h
  | reading c => exact hdown c _ h
  | ack c index => exact hdown c _ h
  | apply c sync =>
    obtain ⟨x, rest, hflying, hsync, hc⟩ := h
    exact ⟨x, rest, hflying, hsync, hdown c _ hc⟩
  | follow => exact h.elim
  | dial addr => exact h.elim

/-- One more frame is written to the follower, be it waiting for a frame, about to apply one or
about to acknowledge one. -/
theorem OnWay.send (h : OnWay flying loop down) {c : ℕ} (hc : loop.conn = some c)
    (x : Call × UInt64)
    (hdown : ∀ bytes, down c = some bytes → down' c = some (bytes ++ frames [x])) :
    OnWay (flying ++ [x]) loop down' := by
  cases loop with
  | reading d =>
    obtain rfl := Option.some.inj hc
    exact (hdown _ h).trans (congrArg some (frames_append flying [x]).symm)
  | ack d index =>
    obtain rfl := Option.some.inj hc
    exact (hdown _ h).trans (congrArg some (frames_append flying [x]).symm)
  | apply d sync =>
    obtain rfl := Option.some.inj hc
    obtain ⟨y, rest, rfl, hsync, hd⟩ := h
    exact ⟨y, rest ++ [x], rfl, hsync,
      (hdown _ hd).trans (congrArg some (frames_append rest [x]).symm)⟩
  | top => cases hc
  | follow => cases hc
  | dial addr => cases hc

/-- A follower with nothing on its connection and nothing in its hands has nothing to come. -/
theorem OnWay.eq_nil (h : OnWay flying loop down) {c : ℕ} (hc : loop.conn = some c)
    (hsync : loop.sync = none) (hdown : down c = some []) : flying = [] := by
  cases loop with
  | reading d =>
    obtain rfl := Option.some.inj hc
    exact frames_eq_nil_iff.1 (Option.some.inj (h.symm.trans hdown))
  | ack d index =>
    obtain rfl := Option.some.inj hc
    exact frames_eq_nil_iff.1 (Option.some.inj (h.symm.trans hdown))
  | apply d sync => cases hsync
  | top => cases hc
  | follow => cases hc
  | dial addr => cases hc

end OnWay

/-! ### What every step keeps -/

variable {s s' : Rejoin} {a : Action} {flying : List (Call × UInt64)}

/-- The writes that are on their way to the follower, first the next one. -/
def pending (s : Rejoin) (flying : List (Call × UInt64)) : List (Expiry.Write Key Bytes Time) :=
  flying.map (fun x => x.1.write) ++ s.link.peers.calls.map fun x => x.1.write

/-- With what is on its way the follower comes to what the leader has. -/
structure Tied (flying : List (Call × UInt64)) (s : Rejoin) : Prop where
  wired : s.link.peers.Wired
  leader : s.leader.Regular 0
  follower : s.link.db.Regular 0
  started : ∀ c ∈ s.started, Sendable c
  calls : ∀ x ∈ s.link.peers.calls, Sendable x.1
  serial : s.started.toList.length + s.link.peers.calls.length ≤ 1
  flies : ∀ x ∈ flying, Sendable x.1
  onWay : OnWay flying s.link.loop s.link.peers.down
  agree : AgreeFrom s.link.clock (Expiry.replay (s.pending flying) s.link.db.content)
    s.leader.content

/-- A request comes in. -/
theorem Tied.accept (h : Tied flying s) (hidle : s.Idle) {c : Call} (hc : Sendable c) :
    Tied flying { s with started := some c } := by
  refine { h with started := fun c' hc' => Option.some.inj hc' ▸ hc, serial := ?_ }
  show 1 + s.link.peers.calls.length ≤ 1
  rw [hidle.2]
  rfl

/-- The request reaches the leader's store, and a broadcast is called.  No other one is in
progress, so that the call is the last of those pending. -/
theorem Tied.apply (h : Tied flying s) {c : Call} {ranges : ℕ → Range} {kv : KVStore}
    (hc : s.started = some c) (hr : c.exec ranges s.leader s.link.clock = some (kv, none)) :
    Tied flying
      { s with link := { s.link with peers :=
                 { s.link.peers with calls := s.link.peers.calls ++ [(c, none)] } },
               leader := kv, started := none } := by
  obtain ⟨-, hreg, -, hcontent⟩ := Call.exec_eq_some h.leader hr
  have hserial := h.serial
  rw [hc] at hserial
  refine ⟨h.wired.congr rfl rfl rfl rfl rfl, hreg, h.follower, (fun c' hc' => nomatch hc'), ?_, ?_,
    h.flies, h.onWay, ?_⟩
  · have hsendable : Sendable c := h.started c hc
    exact List.forall_mem_append.2 ⟨h.calls, List.forall_mem_singleton.2 hsendable⟩
  · show 0 + (s.link.peers.calls ++ [(c, none)]).length ≤ 1
    rw [List.length_append, List.length_singleton]
    change 1 + s.link.peers.calls.length ≤ 1 at hserial
    omega
  · show AgreeFrom s.link.clock
      (Expiry.replay (_ ++ (s.link.peers.calls ++ [(c, none)]).map _) _) kv.content
    rw [List.map_append, ← List.append_assoc, Expiry.replay_append, hcontent]
    exact h.agree.apply c.write

/-- It reaches the store, and fails. -/
theorem Tied.applyErr (h : Tied flying s) {c : Call} {ranges : ℕ → Range} {kv : KVStore} {err : Err}
    (hr : c.exec ranges s.leader s.link.clock = some (kv, some err)) :
    Tied flying { s with leader := kv, started := none } := by
  obtain ⟨-, hreg, -, -⟩ := Call.exec_eq_some h.leader hr
  have hserial := h.serial
  refine { h with leader := hreg, started := (fun c' hc' => nomatch hc'), serial := ?_, agree := ?_ }
  · show 0 + s.link.peers.calls.length ≤ 1
    omega
  · show AgreeFrom s.link.clock _ kv.content
    rw [content_of_err h.leader hr]
    exact h.agree

/-- A step at the leader that is not of a broadcast leaves what is pending and what is on its way
to the follower. -/
theorem Tied.quiet (h : Tied flying s) {action : Peers.Action} {p : Peers}
    (ha : action.broadcasts = false) (hs : s.link.peers.step action = some p) :
    Tied flying { s with link := { s.link with peers := p } } := by
  obtain ⟨hcalls, -⟩ := Peers.calls_step ha hs
  refine ⟨h.wired.step hs, h.leader, h.follower, h.started, ?_, ?_, h.flies,
    h.onWay.mono fun c bytes hc => Peers.down_step hc (Peers.ne_broadcast ha) hs, ?_⟩
  · show ∀ x ∈ p.calls, _
    rw [hcalls]
    exact h.calls
  · show _ + p.calls.length ≤ 1
    rw [hcalls]
    exact h.serial
  · show AgreeFrom _ (Expiry.replay (_ ++ p.calls.map _) _) _
    rw [hcalls]
    exact h.agree

/-- The broadcast takes its index.  Which call it is about stays the same, and so does what is
pending. -/
theorem Tied.index (h : Tied flying s) {j : ℕ} {call : Call}
    (hj : s.link.peers.calls[j]? = some (call, none)) (n : UInt64) :
    Tied flying
      { s with link := { s.link with peers :=
        { s.link.peers with leader := { s.link.peers.leader with logIndex := n },
                            calls := s.link.peers.calls.set j (call, some n) } } } := by
  have hmap : (s.link.peers.calls.set j (call, some n)).map (fun x => x.1.write) =
      s.link.peers.calls.map fun x => x.1.write :=
    map_set_eq hj rfl
  refine ⟨h.wired.congr rfl rfl rfl rfl rfl, h.leader, h.follower, h.started, ?_, ?_, h.flies,
    h.onWay, ?_⟩
  · intro x hx
    rcases List.mem_or_eq_of_mem_set hx with hx | rfl
    · exact h.calls x hx
    · exact h.calls (call, none) (List.mem_of_getElem? hj)
  · show _ + (s.link.peers.calls.set j _).length ≤ 1
    rw [List.length_set]
    exact h.serial
  · show AgreeFrom _ (Expiry.replay (_ ++ (s.link.peers.calls.set j _).map _) _) _
    rw [hmap]
    exact h.agree

/-- **The broadcast writes, and the follower is there:** the frame goes to the end of what is on
its connection, and is no longer pending at the leader. -/
theorem Tied.broadcast (h : Tied flying s) {j : ℕ} {call : Call} {index : UInt64} {frame : Bytes}
    {range : RangeOrder Addr ℕ} {cuts : ℕ → Option ℕ}
    (hj : s.link.peers.calls[j]? = some (call, some index))
    (hframe : frame = encodeFrame (.replicationSync (syncOf call index))) {c : ℕ}
    (hc : s.link.loop.conn = some c)
    (hlookup : s.link.peers.leader.followers.lookup s.link.nodeAddr = some c)
    (hcut : cuts c = none) {p : Peers}
    (hconns : p.conns = (s.link.peers.leader.broadcast range frame cuts s.link.peers.conns).2)
    (hcalls : p.calls = s.link.peers.calls.eraseIdx j)
    (hs : s.link.peers.step (.broadcast j range cuts) = some p) :
    Tied (flying ++ [(call, index)]) { s with link := { s.link with peers := p } } := by
  have hserial := h.serial
  obtain ⟨hlt, hget⟩ := List.getElem?_eq_some_iff.1 hj
  -- There is no other broadcast.
  have hone : s.link.peers.calls = [(call, some index)] := by
    obtain ⟨x, hx⟩ : ∃ x, s.link.peers.calls = [x] := List.length_eq_one_iff.1 (by omega)
    obtain rfl : j = 0 := by omega
    rw [hx] at hj
    rw [hx, Option.some.inj hj]
  have hempty : p.calls = [] := by
    rw [hcalls, ← List.length_eq_zero_iff, List.length_eraseIdx_of_lt hlt]
    omega
  have hsendable : Sendable call := h.calls _ (List.mem_of_getElem? hj)
  refine ⟨h.wired.step hs, h.leader, h.follower, h.started, ?_, ?_,
    List.forall_mem_append.2 ⟨h.flies, List.forall_mem_singleton.2 hsendable⟩,
    h.onWay.send hc (call, index) fun bytes hbytes => ?_, ?_⟩
  · show ∀ x ∈ p.calls, _
    rw [hempty]
    exact fun x hx => absurd hx List.not_mem_nil
  · show _ + p.calls.length ≤ 1
    rw [hempty]
    exact Nat.le_trans (Nat.add_le_add_left (Nat.zero_le _) _) hserial
  · show p.down c = _
    have hdown := Peers.down_broadcast h.wired hbytes hlookup range frame cuts
    rw [Peers.down, hconns, hdown, hcut, hframe]
    simp [frames]
  · have hagree := h.agree
    unfold pending at hagree ⊢
    show AgreeFrom _ (Expiry.replay (_ ++ p.calls.map _) _) _
    rw [hone] at hagree
    rw [hempty, List.map_append, List.map_nil, List.append_nil]
    exact hagree

/-- **A step at the leader,** other than the call of a broadcast.  Whatever is on the follower's
connection stays on it, and an attended broadcast adds its frame. -/
theorem Tied.peers (h : Tied flying s) {action : Peers.Action} {p : Peers}
    (hatt : s.Attended (.link (.peers action))) (hcall : ∀ call, action ≠ .call call)
    (hs : s.link.peers.step action = some p) :
    ∃ flying', Tied flying' { s with link := { s.link with peers := p } } := by
  by_cases ha : action.broadcasts = false
  · exact ⟨flying, h.quiet ha hs⟩
  · cases Peers.peersStep_of_step hs with
    | call call => exact absurd rfl (hcall call)
    | index hj => exact ⟨flying, h.index hj _⟩
    | broadcast range cuts hj hframe =>
      obtain ⟨c, hc, hlookup, hcut⟩ := hatt
      exact ⟨_, h.broadcast hj hframe hc hlookup hcut rfl rfl hs⟩
    | _ => exact absurd rfl ha

/-- What the follower reads is the next call, if there is one. -/
theorem Tied.read (h : Tied flying s) {c : ℕ} (hloop : s.link.loop = .reading c) {conn : Conn}
    (hconn : s.link.peers.conns[c]? = some conn) {next : Option ReplicationSync} {rest : Bytes}
    (hread : readSync conn.down = some (next, rest)) :
    ∃ x flying', flying = x :: flying' ∧ next = some (syncOf x.1 x.2) ∧ rest = frames flying' := by
  have hway := h.onWay
  rw [hloop] at hway
  change s.link.peers.down c = _ at hway
  rw [Peers.down, hconn] at hway
  rw [show conn.down = frames flying from Option.some.inj hway, ← List.append_nil (frames _)]
    at hread
  obtain ⟨x, flying', hflying, hnext, hrest⟩ :=
    readSync_frames (fun x hx => fits_syncOf (h.flies x hx) x.2) readSync_nil hread
  exact ⟨x, flying', hflying, hnext, hrest.trans (List.append_nil _)⟩

/-- The connection of the follower after it has been read or written to. -/
theorem down_setConn_self {p : Peers} {c : ℕ} {conn : Conn} (hconn : p.conns[c]? = some conn)
    (conn' : Conn) : (p.setConn c conn').down c = some conn'.down := by
  show ((p.conns.set c conn')[c]?).map Conn.down = _
  rw [List.getElem?_set_self (List.getElem?_eq_some_iff.1 hconn).1]
  rfl

/-- The follower carries out the call it has in its hands, which is the first of those on their
way, as the leader has done before. -/
theorem Tied.follow {x : Call × UInt64} (h : Tied (x :: flying) s) {ranges : ℕ → Range} {c : ℕ}
    {db : KVStore} (hdown : s.link.peers.down c = some (frames flying))
    (hdb : applySync ranges s.link.db (syncOf x.1 x.2) s.link.clock = some db)
    (processed : List UInt64) :
    Tied flying
      { s with link := { s.link with db := db, loop := .ack c (syncOf x.1 x.2).logIndex,
                                     processed := processed } } := by
  rw [applySync_syncOf (h.flies x List.mem_cons_self), Option.map_eq_some_iff] at hdb
  obtain ⟨⟨db, e⟩, hexec, rfl⟩ := hdb
  obtain ⟨-, hreg, -, hcontent⟩ := Call.exec_eq_some h.follower hexec
  refine ⟨h.wired, h.leader, hreg, h.started, h.calls, h.serial,
    fun y hy => h.flies y (List.mem_cons_of_mem _ hy), hdown, ?_⟩
  show AgreeFrom s.link.clock (Expiry.replay _ db.content) _
  rw [hcontent]
  exact h.agree

/-- **A step of the `Leader`, its peers or the follower.**  A follower that has read a frame has
it in its hands, and applying it takes it from what is on its way into its store. -/
theorem Tied.link (h : Tied flying s) {action : Link.Action} {link : Link}
    (hatt : s.Attended (.link action)) (hcall : ∀ call, action ≠ .peers (.call call))
    (hs : s.link.step action = some link) : ∃ flying', Tied flying' { s with link := link } := by
  have hway := h.onWay
  cases Link.linkStep_of_step hs with
  | peers hpeers => exact h.peers hatt (fun call heq => hcall call (heq ▸ rfl)) hpeers
  | tick ht => exact ⟨flying, { h with agree := h.agree.mono ht }⟩
  | @dial p hloop hpeers =>
    have hdial := h.quiet rfl hpeers
    rw [hloop] at hway
    change flying = [] at hway
    subst hway
    obtain rfl := Option.some.inj hpeers
    refine ⟨[], { hdial with onWay := ?_ }⟩
    show ((s.link.peers.conns ++ [_])[s.link.peers.conns.length]?).map Conn.down = some []
    rw [List.getElem?_concat_length]
    rfl
  | @read c conn sync rest hloop hconn hread =>
    obtain ⟨x, flying, rfl, hsync, rfl⟩ := h.read hloop hconn hread
    obtain rfl := Option.some.inj hsync
    refine ⟨x :: flying, { h with wired := ?_, onWay := ?_ }⟩
    · exact h.wired.congr rfl (Peers.closed_setConn hconn rfl) rfl rfl rfl
    · exact ⟨x, flying, rfl, rfl, down_setConn_self hconn _⟩
  | skip hloop hconn hread =>
    obtain ⟨x, flying, -, hnone, -⟩ := h.read hloop hconn hread
    cases hnone
  | ack bytes hloop hconn =>
    rw [hloop] at hway
    refine ⟨flying, { h with wired := ?_, onWay := Peers.down_setConn hway hconn rfl }⟩
    exact h.wired.congr rfl (Peers.closed_setConn hconn rfl) rfl rfl rfl
  | apply hloop hdb =>
    rw [hloop] at hway
    obtain ⟨x, rest, rfl, rfl, hdown⟩ := hway
    exact ⟨rest, h.follow hdown hdb _⟩
  | @hangUp c hloop =>
    rw [hloop] at hway
    have hnone : s.link.peers.down c = some [] := hatt c (by rw [hloop]; rfl)
    have hflying : frames flying = [] := Option.some.inj (hway.symm.trans hnone)
    exact ⟨flying, { h with onWay := frames_eq_nil_iff.1 hflying }⟩
  | sweep range hshard hnow =>
    have hsame := KVStore.agreeFrom_sweepShard hshard range hnow
    exact ⟨flying, { h with follower := h.follower.sweepShard hshard range _,
                            agree := (hsame.replay _).trans h.agree }⟩

/-- **Every step keeps the two stores tied,** where the follower attends every broadcast: no
write can then pass it by. -/
theorem Tied.step (h : Tied flying s) (hfit : s.Fitting a) (hatt : s.Attended a)
    (hs : s.step a = some s') : ∃ flying', Tied flying' s' := by
  cases a with
  | link action =>
    simp only [Rejoin.step, stepLink] at hs
    split at hs
    · cases hs
    · rename_i hcall
      obtain ⟨link, hlink, hs⟩ := Option.bind_eq_some_iff.1 hs
      exact Option.some.inj hs ▸ h.link hatt hcall hlink
  | set key value ttl =>
    simp only [Rejoin.step] at hs
    split_ifs at hs with hidle
    exact ⟨flying, Option.some.inj hs ▸ h.accept hidle hfit⟩
  | delete key =>
    simp only [Rejoin.step] at hs
    split_ifs at hs with hidle
    exact ⟨flying, Option.some.inj hs ▸ h.accept hidle hfit⟩
  | apply ranges =>
    obtain ⟨c, hc, hs⟩ := Option.bind_eq_some_iff.1 hs
    obtain ⟨⟨kv, e⟩, hr, hs⟩ := Option.bind_eq_some_iff.1 hs
    cases e with
    | none => exact ⟨flying, Option.some.inj hs ▸ h.apply hc hr⟩
    | some err => exact ⟨flying, Option.some.inj hs ▸ h.applyErr hr⟩
  | sweepLeader i range now =>
    obtain ⟨shard, hshard, hs⟩ := Option.bind_eq_some_iff.1 hs
    split_ifs at hs with hnow
    obtain rfl := Option.some.inj hs
    have hsame := KVStore.agreeFrom_sweepShard hshard range hnow
    exact ⟨flying, { h with leader := h.leader.sweepShard hshard range now,
                            agree := h.agree.trans hsame.symm }⟩

section Open

variable {ranges ranges' : ℕ → Range} {file file' : Option Bytes} {walOpts walOpts' : Wal.Options}
  {opts opts' : Options} {t₀ t₀' t : Time} {leader follower : KVStore}

/-- Two stores with the same contents, and a follower that has not dialed, so that nothing is on
its way to it. -/
theorem tied_start (hmax : opts.maxMemoryBytes ≤ 0) (hmax' : opts'.maxMemoryBytes ≤ 0)
    (hleader : newKVStore ranges file walOpts opts t₀ = some (.ok leader))
    (hfollower : newKVStore ranges' file' walOpts' opts' t₀' = some (.ok follower))
    (hsame : follower.content = leader.content) (nodeAddr leaderAddr : Addr) (defaultTTL : ℤ)
    (t : Time) : Tied [] (start nodeAddr leaderAddr leader follower defaultTTL t) where
  wired := Peers.wired_start
  leader := regular_of_newKVStore hmax hleader
  follower := regular_of_newKVStore hmax' hfollower
  started c hc := nomatch hc
  calls x hx := absurd hx List.not_mem_nil
  serial := Nat.zero_le 1
  flies x hx := absurd hx List.not_mem_nil
  onWay := rfl
  agree := by
    show AgreeFrom t follower.content leader.content
    rw [hsame]
    exact AgreeFrom.refl _ _

/-- **A follower that attends every broadcast has caught up** whenever it is joined and no
frame is in flight, however often it leaves and comes back: `Get` answers the same on both
stores from now on. -/
theorem caught_up_of_attended (hmax : opts.maxMemoryBytes ≤ 0) (hmax' : opts'.maxMemoryBytes ≤ 0)
    (hleader : newKVStore ranges file walOpts opts t₀ = some (.ok leader))
    (hfollower : newKVStore ranges' file' walOpts' opts' t₀' = some (.ok follower))
    (hsame : follower.content = leader.content) {nodeAddr leaderAddr : Addr} {defaultTTL : ℤ}
    (hs : Reach step (fun s a => s.Fitting a ∧ s.Attended a)
      (start nodeAddr leaderAddr leader follower defaultTTL t) s)
    (hidle : s.Idle) {c : ℕ} (hjoined : s.Joined c) (hlanded : s.Landed c) (key : Key) {t' : Time}
    (ht : s.link.clock ≤ t') :
    ∃ r, Answers s.link.db key t' r ∧ Answers s.leader key t' r := by
  obtain ⟨flying, h⟩ : ∃ flying, Tied flying s :=
    hs.invariant (P := fun s => ∃ flying, Tied flying s)
      ⟨[], tied_start hmax hmax' hleader hfollower hsame nodeAddr leaderAddr defaultTTL t⟩
      fun s a s' ⟨flying, h⟩ ha hstep => h.step ha.1 ha.2 hstep
  have hflying : flying = [] := h.onWay.eq_nil hjoined.1 hlanded.1 hlanded.2
  have hagree := h.agree
  unfold pending at hagree
  rw [hflying, hidle.2] at hagree
  have hshows := hagree.mono ht key
  refine ⟨_, answers_visible h.follower key t', ?_⟩
  rw [show visible t' (s.link.db.content key) = visible t' (s.leader.content key) from hshows]
  exact answers_visible h.leader key t'

/-- The follower joins, is sent a set, leaves, joins again, and is sent another, which it has not
yet acknowledged. -/
def comesBack : List Action :=
  [.link .dial, .link (.peers (.addFollower [2] 0)), .set [7] [1] 50,
    .apply fun _ => Eviction.byKey, .link (.peers (.index 0)),
    .link (.peers (.broadcast 0 Network.byAddr fun _ => none)), .link .follow,
    .link (.apply fun _ => Eviction.byKey), .link .follow, .link .hangUp,
    .link (.peers (.fail 0)), .link (.peers (.removeFollower 0)), .link .dial,
    .link (.peers (.addFollower [2] 1)), .set [8] [2] 50, .apply fun _ => Eviction.byKey,
    .link (.peers (.index 0)), .link (.peers (.broadcast 0 Network.byAddr fun _ => none)),
    .link .follow, .link (.apply fun _ => Eviction.byKey)]

/-- The follower has been away, has missed nothing, and has applied the second set: the two stores
answer the same for every key. -/
theorem caught_up_of_attended_comesBack :
    ∃ s ∈ runAll step (fun s a => s.Fitting a ∧ s.Attended a)
        (start [2] [1] oneShard oneShard 60 0) comesBack,
      s.link.loop = .ack 1 2 ∧ s.leader.content [7] = some ([1], 50) ∧
        s.leader.content [8] = some ([2], 50) ∧
          ∀ key, ∃ r, Answers s.link.db key 9 r ∧ Answers s.leader key 9 r := by
  obtain ⟨s, hs, hclock, hidle, hjoined, hlanded, hloop, h7, h8⟩ :
      ∃ s ∈ runAll step (fun s a => s.Fitting a ∧ s.Attended a)
          (start [2] [1] oneShard oneShard 60 0) comesBack,
        s.link.clock = 0 ∧ s.Idle ∧ s.Joined 1 ∧ s.Landed 1 ∧ s.link.loop = .ack 1 2 ∧
          s.leader.content [7] = some ([1], 50) ∧ s.leader.content [8] = some ([2], 50) := by
    decide +kernel
  have hnew := newKVStore_oneShard fun _ => Eviction.byKey
  refine ⟨s, hs, hloop, h7, h8, fun key => ?_⟩
  exact caught_up_of_attended le_rfl le_rfl hnew hnew rfl (reach_of_runAll hs) hidle hjoined
    hlanded key (by rw [hclock]; decide)

/-- The follower leaves, and the key it was sent is deleted before it joins again. -/
def missesDelete : List Action :=
  [.link .dial, .link (.peers (.addFollower [2] 0)), .set [7] [1] 50,
    .apply fun _ => Eviction.byKey, .link (.peers (.index 0)),
    .link (.peers (.broadcast 0 Network.byAddr fun _ => none)), .link .follow,
    .link (.apply fun _ => Eviction.byKey), .link .follow, .link .hangUp,
    .link (.peers (.fail 0)), .link (.peers (.removeFollower 0)), .delete [7],
    .apply fun _ => Eviction.byKey, .link (.peers (.index 0)),
    .link (.peers (.broadcast 0 Network.byAddr fun _ => none)), .link .dial,
    .link (.peers (.addFollower [2] 1))]

/-- **What was deleted while the follower was away it goes on serving,** joined again and with
no frame in flight. -/
theorem missed_while_away :
    newKVStore (fun _ => Eviction.byKey) none ⟨.always, 0, 0⟩ ⟨1, 0, 0, none⟩ 0 =
        some (.ok oneShard) ∧
      ∃ s ∈ runAll step (fun s a => s.Fitting a) (start [2] [1] oneShard oneShard 60 0) missesDelete,
        s.link.clock = 0 ∧ s.Idle ∧ s.Joined 1 ∧ s.Landed 1 ∧
          (s.leader.get [7] 0).map Prod.snd = some (.error .keyNotFound) ∧
          (s.link.db.get [7] 0).map Prod.snd = some (.ok [1]) := by
  refine ⟨newKVStore_oneShard _, ?_⟩
  decide +kernel

end Open

end Rejoin

end Cluster
end Keva
