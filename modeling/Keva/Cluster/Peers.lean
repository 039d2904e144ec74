/-
# Who a leader writes to

`cluster/leader.go`, for one `Leader` and everything that goes on around it: connections are
dialed and, in `AddFollower`, added under the address the peer gives; a goroutine for each of
them reads acknowledgements in `drainAcks` until a read fails, and then removes the follower
at that address; and any number of `BroadcastSet` and `BroadcastDelete` calls take an index
and then write to all followers.  A step is one critical section or one communication, and
any goroutine may take the next one.

The followers are known by address, and failures belong to connections.  A peer that has
joined again under its address is the follower there, and the goroutine of the connection it
had before, when its read fails at last, removes and closes the new one
(`replaced_connection_takes_over`).  Where that does not happen, the connection most recently
added for an address stays registered as long as nothing on it fails (`registered_of_ownsPlace`).

`latest` and `failed` are read by no step.  They keep the connection most recently added for
each address, and the connections on which a read or a write of the leader has failed.
-/

import Keva.Cluster.Leader
import Keva.Cluster.Replication

namespace Keva
namespace Cluster

open Store (Call)
open Protocol (encodeFrame readFrame)

/-- Where the goroutine that serves a connection stands: before `AddFollower`; in `drainAcks`,
reading; there with a read that has failed, before `removeFollower`; at its end. -/
inductive Drain
  | accepted
  | reading (nodeAddr : Addr)
  | leaving (nodeAddr : Addr)
  | left (nodeAddr : Addr)
  deriving DecidableEq

/-- The address under which the connection was added. -/
def Drain.nodeAddr : Drain → Option Addr
  | accepted => none
  | reading nodeAddr | leaving nodeAddr | left nodeAddr => some nodeAddr

/-- A `Leader`, the connections to it with the goroutine of each, and the broadcasts that have
been called and not written, with their index if they have one. -/
structure Peers where
  leader : Leader
  conns : List Conn
  drains : ℕ → Drain
  calls : List (Call × Option UInt64)
  latest : Addr → Option ℕ
  failed : ℕ → Bool

namespace Peers

/-- One step: a connection is dialed; bytes arrive on it; `AddFollower`; `drainAcks` reads a
frame, or fails to; `removeFollower` at its end; a broadcast is called, takes its index, and
writes. -/
inductive Action
  | dial (dialer server : Addr)
  | arrive (c : ℕ) (bytes : Bytes)
  | addFollower (nodeAddr : Addr) (c : ℕ)
  | read (c : ℕ)
  | fail (c : ℕ)
  | removeFollower (c : ℕ)
  | call (call : Call)
  | index (j : ℕ)
  | broadcast (j : ℕ) (range : RangeOrder Addr ℕ) (cuts : ℕ → Option ℕ)

/-- The action is of a broadcast. -/
def Action.broadcasts : Action → Bool
  | .call _ | .index _ | .broadcast _ _ _ => true
  | _ => false

/-- The same peers with another state of connection `c`. -/
def setConn (s : Peers) (c : ℕ) (conn : Conn) : Peers := { s with conns := s.conns.set c conn }

/-- The same peers with the goroutine of connection `c` at another point. -/
def setDrain (s : Peers) (c : ℕ) (drain : Drain) : Peers :=
  { s with drains := Function.update s.drains c drain }

/-- `drainAcks` leaves its loop. -/
def leave (s : Peers) (c : ℕ) (nodeAddr : Addr) : Peers :=
  { s.setDrain c (.leaving nodeAddr) with failed := Function.update s.failed c true }

/-- A broadcast writes to connection `c`, and fails. -/
def writeFails (s : Peers) (range : RangeOrder Addr ℕ) (frame : Bytes) (cuts : ℕ → Option ℕ)
    (c : ℕ) : Bool :=
  (range.keys s.leader.followers).any fun addr =>
    s.leader.followers.lookup addr = some c &&
      (s.conns[c]?).any fun conn => !(conn.write frame (cuts c)).2

/-- A step that cannot be taken in a state is `none`.  A goroutine of `drainAcks` comes to
`removeFollower` after a read has failed, or has brought what cannot be decoded, and a broadcast
writes after it has drawn its index. -/
def step (s : Peers) : Action → Option Peers
  | .dial dialer server => some { s with conns := s.conns ++ [⟨dialer, server, [], [], false⟩] }
  | .arrive c bytes => do
    let conn ← s.conns[c]?
    return s.setConn c { conn with up := conn.up ++ bytes }
  | .addFollower nodeAddr c => do
    let _ ← s.conns[c]?
    if s.drains c = .accepted then
      return { s.setDrain c (.reading nodeAddr) with
        leader := s.leader.addFollower nodeAddr c
        latest := Function.update s.latest nodeAddr (some c) }
    else none
  | .read c => do
    let conn ← s.conns[c]?
    match s.drains c with
    | .reading nodeAddr =>
      if conn.closed then none
      else
        match readFrame 0 conn.up with
        | (.ok _, rest) => return s.setConn c { conn with up := rest }
        | (.error (.malformedMessage _), rest) =>
          return (s.setConn c { conn with up := rest }).leave c nodeAddr
        -- The frame is not complete yet.
        | (.error _, _) => none
        | (.panic, _) => none
    | _ => none
  | .fail c =>
    match s.drains c with
    | .reading nodeAddr => some (s.leave c nodeAddr)
    | _ => none
  | .removeFollower c =>
    match s.drains c with
    | .leaving nodeAddr =>
      let (leader, conns) := s.leader.removeFollower s.conns nodeAddr
      some { s.setDrain c (.left nodeAddr) with leader := leader, conns := conns }
    | _ => none
  | .call call => some { s with calls := s.calls ++ [(call, none)] }
  | .index j => do
    let (call, index) ← s.calls[j]?
    if index = none then
      let logIndex := s.leader.logIndex + 1
      return { s with leader := { s.leader with logIndex := logIndex },
                      calls := s.calls.set j (call, some logIndex) }
    else none
  | .broadcast j range cuts => do
    let (call, index) ← s.calls[j]?
    let index ← index
    let frame := encodeFrame (.replicationSync (syncOf call index))
    let (leader, conns) := s.leader.broadcast range frame cuts s.conns
    return { s with leader := leader, conns := conns, calls := s.calls.eraseIdx j,
                    failed := fun c => s.failed c || s.writeFails range frame cuts c }

/-- A new `Leader`. -/
def start : Peers := ⟨newLeader, [], fun _ => .accepted, [], fun _ => none, fun _ => false⟩

end Peers

/-! ### What a step does -/

/-- A step with what it takes for granted and what it leads to. -/
inductive PeersStep (s : Peers) : Peers.Action → Peers → Prop
  | dial (dialer server : Addr) :
      PeersStep s (.dial dialer server)
        { s with conns := s.conns ++ [⟨dialer, server, [], [], false⟩] }
  | arrive {c : ℕ} {conn : Conn} (bytes : Bytes) (hconn : s.conns[c]? = some conn) :
      PeersStep s (.arrive c bytes) (s.setConn c { conn with up := conn.up ++ bytes })
  | addFollower {c : ℕ} {conn : Conn} (nodeAddr : Addr) (hconn : s.conns[c]? = some conn)
      (hdrain : s.drains c = .accepted) :
      PeersStep s (.addFollower nodeAddr c)
        { s.setDrain c (.reading nodeAddr) with
          leader := s.leader.addFollower nodeAddr c
          latest := Function.update s.latest nodeAddr (some c) }
  | read {c : ℕ} {conn : Conn} {nodeAddr : Addr} (rest : Bytes) (hconn : s.conns[c]? = some conn)
      (hdrain : s.drains c = .reading nodeAddr) :
      PeersStep s (.read c) (s.setConn c { conn with up := rest })
  | malformed {c : ℕ} {conn : Conn} {nodeAddr : Addr} (rest : Bytes)
      (hconn : s.conns[c]? = some conn) (hdrain : s.drains c = .reading nodeAddr) :
      PeersStep s (.read c) ((s.setConn c { conn with up := rest }).leave c nodeAddr)
  | fail {c : ℕ} {nodeAddr : Addr} (hdrain : s.drains c = .reading nodeAddr) :
      PeersStep s (.fail c) (s.leave c nodeAddr)
  | removeFollower {c : ℕ} {nodeAddr : Addr} (hdrain : s.drains c = .leaving nodeAddr) :
      PeersStep s (.removeFollower c)
        { s.setDrain c (.left nodeAddr) with
          leader := (s.leader.removeFollower s.conns nodeAddr).1
          conns := (s.leader.removeFollower s.conns nodeAddr).2 }
  | call (call : Call) : PeersStep s (.call call) { s with calls := s.calls ++ [(call, none)] }
  | index {j : ℕ} {call : Call} (hj : s.calls[j]? = some (call, none)) :
      PeersStep s (.index j)
        { s with leader := { s.leader with logIndex := s.leader.logIndex + 1 },
                 calls := s.calls.set j (call, some (s.leader.logIndex + 1)) }
  | broadcast {j : ℕ} {call : Call} {index : UInt64} {frame : Bytes} (range : RangeOrder Addr ℕ)
      (cuts : ℕ → Option ℕ) (hj : s.calls[j]? = some (call, some index))
      (hframe : frame = encodeFrame (.replicationSync (syncOf call index))) :
      PeersStep s (.broadcast j range cuts)
        { s with leader := (s.leader.broadcast range frame cuts s.conns).1,
                 conns := (s.leader.broadcast range frame cuts s.conns).2,
                 calls := s.calls.eraseIdx j,
                 failed := fun c => s.failed c || s.writeFails range frame cuts c }

namespace Peers

variable {s s' : Peers} {a : Action}

/-- **Every step is one of `PeersStep`,** with the guard it was taken under. -/
theorem peersStep_of_step (hs : s.step a = some s') : PeersStep s a s' := by
  cases a with
  | dial dialer server => exact Option.some.inj hs ▸ .dial dialer server
  | arrive c bytes =>
    obtain ⟨conn, hconn, hs⟩ := Option.bind_eq_some_iff.1 hs
    exact Option.some.inj hs ▸ .arrive bytes hconn
  | addFollower nodeAddr c =>
    obtain ⟨conn, hconn, hs⟩ := Option.bind_eq_some_iff.1 hs
    split_ifs at hs with hdrain
    exact Option.some.inj hs ▸ .addFollower nodeAddr hconn hdrain
  | read c =>
    obtain ⟨conn, hconn, hs⟩ := Option.bind_eq_some_iff.1 hs
    cases hdrain : s.drains c with
    | reading nodeAddr =>
      simp only [hdrain] at hs
      split_ifs at hs
      split at hs
      · exact Option.some.inj hs ▸ .read _ hconn hdrain
      · exact Option.some.inj hs ▸ .malformed _ hconn hdrain
      · cases hs
      · cases hs
    | accepted | leaving nodeAddr | left nodeAddr =>
      simp only [hdrain] at hs
      cases hs
  | fail c =>
    cases hdrain : s.drains c with
    | reading nodeAddr =>
      simp only [step, hdrain] at hs
      exact Option.some.inj hs ▸ .fail hdrain
    | accepted | leaving nodeAddr | left nodeAddr =>
      simp only [step, hdrain] at hs
      cases hs
  | removeFollower c =>
    cases hdrain : s.drains c with
    | leaving nodeAddr =>
      simp only [step, hdrain] at hs
      exact Option.some.inj hs ▸ .removeFollower hdrain
    | accepted | reading nodeAddr | left nodeAddr =>
      simp only [step, hdrain] at hs
      cases hs
  | call call => exact Option.some.inj hs ▸ .call call
  | index j =>
    obtain ⟨⟨call, index⟩, hj, hs⟩ := Option.bind_eq_some_iff.1 hs
    dsimp only at hs
    split_ifs at hs with hindex
    subst hindex
    exact Option.some.inj hs ▸ .index hj
  | broadcast j range cuts =>
    obtain ⟨⟨call, index⟩, hj, hs⟩ := Option.bind_eq_some_iff.1 hs
    obtain ⟨index, rfl, hs⟩ := Option.bind_eq_some_iff.1 hs
    exact Option.some.inj hs ▸ .broadcast range cuts hj rfl

/-! ### Addresses, goroutines and connections -/

/-- Which connections the leader has closed. -/
def closed (s : Peers) : List Bool := s.conns.map Conn.closed

/-- Reading from a connection or writing to it does not close it. -/
theorem closed_setConn {c : ℕ} {conn conn' : Conn} (hconn : s.conns[c]? = some conn)
    (hclosed : conn'.closed = conn.closed) : (s.setConn c conn').closed = s.closed :=
  map_set_eq hconn hclosed

/-- Whether a connection is closed is a field of it. -/
theorem closed_eq_some_iff {c : ℕ} {b : Bool} :
    s.closed[c]? = some b ↔ ∃ conn, s.conns[c]? = some conn ∧ conn.closed = b := by
  rw [closed, List.getElem?_map, Option.map_eq_some_iff]

/-- How addresses, goroutines and connections hang together, whatever happens: an address is
registered with its latest connection, which is open, and a goroutine leaves only after its
connection has failed. -/
structure Wired (s : Peers) : Prop where
  isOpen : ∀ {a c}, s.leader.followers.lookup a = some c → s.closed[c]? = some false
  latest : ∀ {a c}, s.leader.followers.lookup a = some c → s.latest a = some c
  joined : ∀ {a c}, s.latest a = some c → (s.drains c).nodeAddr = some a
  fresh : ∀ {c}, s.drains c = .accepted → s.closed[c]? ≠ some true
  leaving : ∀ {a c}, s.drains c = .leaving a → s.failed c = true

/-- No connection is registered under two addresses, since its goroutine has one. -/
theorem Wired.injective (h : s.Wired) {a b : Addr} {c : ℕ}
    (ha : s.leader.followers.lookup a = some c) (hb : s.leader.followers.lookup b = some c) :
    a = b :=
  Option.some.inj ((h.joined (h.latest ha)).symm.trans (h.joined (h.latest hb)))

/-- What is registered is open, and each connection stands under one address: this is what the
lemmas about `broadcast` and `removeFollower` ask for. -/
theorem Wired.sound (h : s.Wired) : s.leader.Sound s.conns :=
  ⟨h.injective, fun hc => closed_eq_some_iff.1 (h.isOpen hc)⟩

/-- A connection that is not yet added is nobody's. -/
theorem Wired.lookup_ne (h : s.Wired) {c : ℕ} (hdrain : s.drains c = .accepted) (a : Addr) :
    s.leader.followers.lookup a ≠ some c := by
  intro hc
  have hjoined := h.joined (h.latest hc)
  rw [hdrain] at hjoined
  cases hjoined

/-- A new `Leader` has no followers. -/
theorem wired_start : start.Wired where
  isOpen hc := nomatch hc
  latest hc := nomatch hc
  joined hc := nomatch hc
  fresh _ hc := nomatch hc
  leaving hc := nomatch hc

/-- A step that changes nothing of all this: followers, goroutines and which connections are
closed are as they were. -/
theorem Wired.congr (h : s.Wired) (hfollowers : s'.leader.followers = s.leader.followers)
    (hclosed : s'.closed = s.closed) (hdrains : s'.drains = s.drains)
    (hlatest : s'.latest = s.latest) (hfailed : s'.failed = s.failed) : s'.Wired := by
  refine ⟨?_, ?_, ?_, ?_, ?_⟩
  · rw [hfollowers, hclosed]
    exact h.isOpen
  · rw [hfollowers, hlatest]
    exact h.latest
  · rw [hlatest, hdrains]
    exact h.joined
  · rw [hdrains, hclosed]
    exact h.fresh
  · rw [hdrains, hfailed]
    exact h.leaving

/-- A goroutine that stands where the one that moved does not. -/
theorem drains_of_setDrain {c d : ℕ} {drain drain' : Drain}
    (hd : (s.setDrain c drain).drains d = drain') (hne : drain ≠ drain') :
    s.drains d = drain' := by
  change Function.update s.drains c drain d = drain' at hd
  by_cases hdc : d = c
  · rw [hdc, Function.update_self] at hd
    exact absurd hd hne
  · rwa [Function.update_of_ne hdc] at hd

/-- `drainAcks` moves on, under the address it has. -/
theorem nodeAddr_update {drains : ℕ → Drain} {c : ℕ} {drain : Drain}
    (haddr : drain.nodeAddr = (drains c).nodeAddr) (d : ℕ) :
    (Function.update drains c drain d).nodeAddr = (drains d).nodeAddr := by
  by_cases hd : d = c
  · subst hd
    rw [Function.update_self, haddr]
  · rw [Function.update_of_ne hd]

/-- A read on a connection fails, and its goroutine is about to remove the follower. -/
theorem Wired.leave (h : s.Wired) {c : ℕ} {nodeAddr : Addr}
    (hdrain : s.drains c = .reading nodeAddr) : (s.leave c nodeAddr).Wired := by
  refine ⟨h.isOpen, h.latest, fun {a d} hd => ?_, fun {d} hd => ?_, fun {a d} hd => ?_⟩
  · show (Function.update s.drains c (.leaving nodeAddr) d).nodeAddr = some a
    rw [nodeAddr_update (by rw [hdrain]; rfl)]
    exact h.joined hd
  · exact h.fresh (drains_of_setDrain hd (fun heq => nomatch heq))
  · change Function.update s.drains c (.leaving nodeAddr) d = .leaving a at hd
    show Function.update s.failed c true d = true
    by_cases hdc : d = c
    · rw [hdc, Function.update_self]
    · rw [Function.update_of_ne hdc] at hd ⊢
      exact h.leaving hd

/-- A new connection is nobody's yet, and it is open; the others keep their numbers. -/
theorem Wired.dial (h : s.Wired) (dialer server : Addr) :
    ({ s with conns := s.conns ++ [⟨dialer, server, [], [], false⟩] } : Peers).Wired := by
  have hclosed : ({ s with conns := s.conns ++ [⟨dialer, server, [], [], false⟩] } : Peers).closed =
      s.closed ++ [false] := List.map_append
  refine ⟨fun {a c} hc => ?_, h.latest, h.joined, fun {c} hc htrue => ?_, h.leaving⟩
  · have hopen := h.isOpen hc
    rw [hclosed, List.getElem?_append_left (List.getElem?_eq_some_iff.1 hopen).1, hopen]
  · rw [hclosed] at htrue
    by_cases hlt : c < s.closed.length
    · rw [List.getElem?_append_left hlt] at htrue
      exact h.fresh hc htrue
    · rw [List.getElem?_append_right (not_lt.1 hlt), List.getElem?_singleton] at htrue
      split_ifs at htrue
      cases htrue

/-- `AddFollower` puts a connection under an address, in the place of whatever stood there, and
starts its goroutine. -/
theorem Wired.addFollower (h : s.Wired) {c : ℕ} {conn : Conn} (nodeAddr : Addr)
    (hconn : s.conns[c]? = some conn) (hdrain : s.drains c = .accepted) :
    ({ s.setDrain c (.reading nodeAddr) with
        leader := s.leader.addFollower nodeAddr c
        latest := Function.update s.latest nodeAddr (some c) } : Peers).Wired := by
  have hopen : s.closed[c]? = some false := by
    rw [closed_eq_some_iff]
    refine ⟨conn, hconn, Bool.eq_false_of_not_eq_true fun htrue => h.fresh hdrain ?_⟩
    exact closed_eq_some_iff.2 ⟨conn, hconn, htrue⟩
  refine ⟨fun {a d} hd => ?_, fun {a d} hd => ?_, fun {a d} hd => ?_, fun {d} hd => ?_,
    fun {a d} hd => ?_⟩
  · change (s.leader.followers.insert nodeAddr c).lookup a = some d at hd
    by_cases ha : a = nodeAddr
    · rw [ha, Finmap.lookup_insert] at hd
      exact Option.some.inj hd ▸ hopen
    · rw [Finmap.lookup_insert_of_ne _ ha] at hd
      exact h.isOpen hd
  · change (s.leader.followers.insert nodeAddr c).lookup a = some d at hd
    show Function.update s.latest nodeAddr (some c) a = some d
    by_cases ha : a = nodeAddr
    · rw [ha, Finmap.lookup_insert] at hd
      rw [ha, Function.update_self, hd]
    · rw [Finmap.lookup_insert_of_ne _ ha] at hd
      rw [Function.update_of_ne ha]
      exact h.latest hd
  · change Function.update s.latest nodeAddr (some c) a = some d at hd
    show (Function.update s.drains c (.reading nodeAddr) d).nodeAddr = some a
    by_cases ha : a = nodeAddr
    · rw [ha, Function.update_self] at hd
      rw [← Option.some.inj hd, Function.update_self, ha]
      rfl
    · rw [Function.update_of_ne ha] at hd
      have hne : d ≠ c := by
        rintro rfl
        have hjoined := h.joined hd
        rw [hdrain] at hjoined
        cases hjoined
      rw [Function.update_of_ne hne]
      exact h.joined hd
  · exact h.fresh (drains_of_setDrain hd (fun heq => nomatch heq))
  · exact h.leaving (drains_of_setDrain hd (fun heq => nomatch heq))

/-- `removeFollower` takes whatever stands under the address, and closes it.  Addresses have
different connections, so that no other address is left with a closed one. -/
theorem Wired.removeFollower (h : s.Wired) {c : ℕ} {nodeAddr : Addr}
    (hdrain : s.drains c = .leaving nodeAddr) :
    ({ s.setDrain c (.left nodeAddr) with
        leader := (s.leader.removeFollower s.conns nodeAddr).1
        conns := (s.leader.removeFollower s.conns nodeAddr).2 } : Peers).Wired := by
  obtain ⟨hlookup, -, hconns⟩ := Leader.removeFollower_spec s.leader s.conns nodeAddr
  -- A connection that was not the one at this address is as it was.
  have hkept : ∀ {d : ℕ}, s.leader.followers.lookup nodeAddr ≠ some d →
      ((s.leader.removeFollower s.conns nodeAddr).2.map Conn.closed)[d]? = s.closed[d]? := by
    intro d hd
    rw [List.getElem?_map, hconns, if_neg hd, closed, List.getElem?_map]
  refine ⟨fun {a d} hd => ?_, fun {a d} hd => ?_, fun {a d} hd => ?_, fun {d} hd => ?_,
    fun {a d} hd => ?_⟩
  · have ha := hlookup a
    rw [hd] at ha
    split_ifs at ha with hne
    refine (hkept fun hd' => hne ?_).trans (h.isOpen ha.symm)
    exact h.injective ha.symm hd'
  · have ha := hlookup a
    rw [hd] at ha
    split_ifs at ha with hne
    exact h.latest ha.symm
  · show (Function.update s.drains c (.left nodeAddr) d).nodeAddr = some a
    rw [nodeAddr_update (by rw [hdrain]; rfl)]
    exact h.joined hd
  · have hold : s.drains d = .accepted :=
      drains_of_setDrain hd (fun heq => nomatch heq)
    intro htrue
    exact h.fresh hold ((hkept (h.lookup_ne hold nodeAddr)).symm.trans htrue)
  · exact h.leaving (drains_of_setDrain hd (fun heq => nomatch heq))

/-- A broadcast closes and removes the connections on which its writes fail, and leaves the others
in their places. -/
theorem Wired.broadcast (h : s.Wired) (range : RangeOrder Addr ℕ) (frame : Bytes)
    (cuts : ℕ → Option ℕ) (calls : List (Call × Option UInt64)) :
    ({ s with leader := (s.leader.broadcast range frame cuts s.conns).1,
              conns := (s.leader.broadcast range frame cuts s.conns).2,
              calls := calls,
              failed := fun c => s.failed c || s.writeFails range frame cuts c } : Peers).Wired := by
  have hspec := Leader.broadcast_spec h.sound range frame cuts
  have hlookup : ∀ {a c}, (s.leader.broadcast range frame cuts s.conns).1.followers.lookup a = some c →
      s.leader.followers.lookup a = some c ∧ cuts c = none := by
    intro a c hc
    rw [hspec.followers, Option.filter_eq_some_iff] at hc
    exact ⟨hc.1, Option.isNone_iff_eq_none.1 hc.2⟩
  refine ⟨fun {a c} hc => ?_, fun {a c} hc => h.latest (hlookup hc).1, h.joined, fun {c} hc htrue => ?_,
    fun {a c} hc => ?_⟩
  · obtain ⟨hold, hcut⟩ := hlookup hc
    obtain ⟨conn, hconn, -⟩ := closed_eq_some_iff.1 (h.isOpen hold)
    refine closed_eq_some_iff.2 ⟨_, hspec.written hold hconn, ?_⟩
    rw [Conn.sent, hcut]
    rfl
  · obtain ⟨conn, hconn, hclosed⟩ := closed_eq_some_iff.1 htrue
    rw [show ({ s with leader := _, conns := _, calls := calls, failed := _ } : Peers).conns[c]? =
      s.conns[c]? from hspec.others (h.lookup_ne hc)] at hconn
    exact h.fresh hc (closed_eq_some_iff.2 ⟨conn, hconn, hclosed⟩)
  · show (s.failed c || _) = true
    rw [h.leaving hc]
    rfl

/-- **Every step keeps them together.**  No assumption on the order of steps is made here; who
may be removed by whom is what `OwnsPlace` is about. -/
theorem Wired.step (h : s.Wired) (hs : s.step a = some s') : s'.Wired := by
  cases peersStep_of_step hs with
  | dial dialer server => exact h.dial dialer server
  | arrive bytes hconn => exact h.congr rfl (closed_setConn hconn rfl) rfl rfl rfl
  | addFollower nodeAddr hconn hdrain => exact h.addFollower nodeAddr hconn hdrain
  | read rest hconn hdrain => exact h.congr rfl (closed_setConn hconn rfl) rfl rfl rfl
  | @malformed c conn nodeAddr rest hconn hdrain =>
    have hread : (s.setConn c { conn with up := rest }).Wired :=
      h.congr rfl (closed_setConn hconn rfl) rfl rfl rfl
    exact hread.leave hdrain
  | fail hdrain => exact h.leave hdrain
  | removeFollower hdrain => exact h.removeFollower hdrain
  | call call => exact h.congr rfl rfl rfl rfl rfl
  | index hj => exact h.congr rfl rfl rfl rfl rfl
  | broadcast range cuts hj hframe => exact h.broadcast range _ cuts _

/-! ### One connection -/

/-- Other steps leave the broadcasts and their indices alone. -/
theorem calls_step (ha : a.broadcasts = false) (hs : s.step a = some s') :
    s'.calls = s.calls ∧ s'.leader.logIndex = s.leader.logIndex := by
  cases peersStep_of_step hs with
  | @removeFollower c nodeAddr hdrain =>
    exact ⟨rfl, (Leader.removeFollower_spec s.leader s.conns nodeAddr).2.1⟩
  | call call => cases ha
  | index hj => cases ha
  | broadcast range cuts hj hframe => cases ha
  | _ => exact ⟨rfl, rfl⟩

/-- A step that is none of a broadcast writes no frame. -/
theorem ne_broadcast (ha : a.broadcasts = false) (j : ℕ) (range : RangeOrder Addr ℕ)
    (cuts : ℕ → Option ℕ) : a ≠ .broadcast j range cuts := by
  rintro rfl
  cases ha

/-- The bytes on their way to the peer on connection `c`. -/
def down (s : Peers) (c : ℕ) : Option Bytes := s.conns[c]?.map Conn.down

/-- A connection that has been added stays so, and is never added again. -/
theorem added_step {c : ℕ} (hc : s.drains c ≠ .accepted) (hwired : s.Wired)
    (hs : s.step a = some s') :
    s'.drains c ≠ .accepted ∧
      ∀ x, s'.leader.followers.lookup x = some c → s.leader.followers.lookup x = some c := by
  have hdrain : ∀ {d : ℕ} {drain : Drain}, drain ≠ .accepted →
      (s.setDrain d drain).drains c ≠ .accepted :=
    fun hne hd => hc (drains_of_setDrain hd hne)
  cases peersStep_of_step hs with
  | dial dialer server => exact ⟨hc, fun x hx => hx⟩
  | arrive bytes hconn => exact ⟨hc, fun x hx => hx⟩
  | @addFollower d conn nodeAddr hconn haccepted =>
    refine ⟨hdrain (fun heq => nomatch heq), fun x hx => ?_⟩
    change (s.leader.followers.insert nodeAddr d).lookup x = some c at hx
    by_cases hxa : x = nodeAddr
    · rw [hxa, Finmap.lookup_insert] at hx
      exact absurd (Option.some.inj hx ▸ haccepted) hc
    · rwa [Finmap.lookup_insert_of_ne _ hxa] at hx
  | read rest hconn hreading => exact ⟨hc, fun x hx => hx⟩
  | malformed rest hconn hreading => exact ⟨hdrain (fun heq => nomatch heq), fun x hx => hx⟩
  | fail hreading => exact ⟨hdrain (fun heq => nomatch heq), fun x hx => hx⟩
  | @removeFollower d nodeAddr hleaving =>
    refine ⟨hdrain (fun heq => nomatch heq), fun x hx => ?_⟩
    have hlookup := (Leader.removeFollower_spec s.leader s.conns nodeAddr).1 x
    rw [hx] at hlookup
    split_ifs at hlookup
    exact hlookup.symm
  | call call => exact ⟨hc, fun x hx => hx⟩
  | index hj => exact ⟨hc, fun x hx => hx⟩
  | broadcast range cuts hj hframe =>
    refine ⟨hc, fun x hx => ?_⟩
    change (s.leader.broadcast _ _ _ _).1.followers.lookup x = some c at hx
    rw [(Leader.broadcast_spec hwired.sound _ _ _).followers, Option.filter_eq_some_iff] at hx
    exact hx.1

/-- Another connection may change, and of this one everything but the bytes on their way down. -/
theorem down_setConn {c d : ℕ} {bytes : Bytes} (hc : s.down c = some bytes) {conn conn' : Conn}
    (hconn : s.conns[d]? = some conn) (hdown : conn'.down = conn.down) :
    (s.setConn d conn').down c = some bytes := by
  rw [down, ← List.getElem?_map] at hc ⊢
  exact (congrArg (·[c]?) (map_set_eq hconn hdown)).trans hc

/-- **Only a broadcast writes to a peer.**  Every other step leaves the bytes on a connection,
even one that closes it. -/
theorem down_step {c : ℕ} {bytes : Bytes} (hc : s.down c = some bytes)
    (ha : ∀ j range cuts, a ≠ .broadcast j range cuts) (hs : s.step a = some s') :
    s'.down c = some bytes := by
  cases peersStep_of_step hs with
  | dial dialer server =>
    obtain ⟨conn, hconn, hdown⟩ := Option.map_eq_some_iff.1 hc
    refine Option.map_eq_some_iff.2 ⟨conn, ?_, hdown⟩
    exact (List.getElem?_append_left (List.getElem?_eq_some_iff.1 hconn).1).trans hconn
  | arrive _ hconn => exact down_setConn hc hconn rfl
  | addFollower nodeAddr hconn hdrain => exact hc
  | read rest hconn hdrain => exact down_setConn hc hconn rfl
  | malformed rest hconn hdrain => exact down_setConn hc hconn rfl
  | fail hdrain => exact hc
  | @removeFollower d nodeAddr hdrain =>
    refine Eq.trans ?_ hc
    have hconns := (Leader.removeFollower_spec s.leader s.conns nodeAddr).2.2 c
    show ((s.leader.removeFollower s.conns nodeAddr).2[c]?).map Conn.down = s.down c
    rw [hconns]
    split_ifs
    · rw [Option.map_map]
      rfl
    · rfl
  | call call => exact hc
  | index hj => exact hc
  | @broadcast j call index frame range cuts hj hframe => exact absurd rfl (ha j range cuts)

/-- Nothing is on its way on a new connection: whatever step makes it, other than a broadcast, no
byte has been written to it. -/
theorem down_of_none {c : ℕ} (hc : s.down c = none)
    (ha : ∀ j range cuts, a ≠ .broadcast j range cuts) (hs : s.step a = some s') :
    s'.down c = none ∨ s'.down c = some [] := by
  have hset : ∀ (d : ℕ) (conn : Conn), (s.setConn d conn).down c = none := by
    intro d conn
    rw [down, Option.map_eq_none_iff, List.getElem?_eq_none_iff] at hc ⊢
    exact (List.length_set ..).trans_le hc
  cases peersStep_of_step hs with
  | dial dialer server =>
    have hlen := List.getElem?_eq_none_iff.1 (Option.map_eq_none_iff.1 hc)
    show ((s.conns ++ [_])[c]?).map Conn.down = none ∨ ((s.conns ++ [_])[c]?).map Conn.down = some []
    rw [List.getElem?_append_right hlen, List.getElem?_singleton]
    split_ifs
    · exact Or.inr rfl
    · exact Or.inl rfl
  | arrive _ hconn => exact Or.inl (hset _ _)
  | addFollower nodeAddr hconn hdrain => exact Or.inl hc
  | read rest hconn hdrain => exact Or.inl (hset _ _)
  | malformed rest hconn hdrain => exact Or.inl (hset _ _)
  | fail hdrain => exact Or.inl hc
  | @removeFollower d nodeAddr hdrain =>
    have hconns := (Leader.removeFollower_spec s.leader s.conns nodeAddr).2.2 c
    refine Or.inl ?_
    show ((s.leader.removeFollower s.conns nodeAddr).2[c]?).map Conn.down = none
    rw [hconns, Option.map_eq_none_iff.1 hc]
    split_ifs <;> rfl
  | call call => exact Or.inl hc
  | index hj => exact Or.inl hc
  | @broadcast j call index frame range cuts hj hframe => exact absurd rfl (ha j range cuts)

/-- What a broadcast writes to a follower. -/
theorem down_broadcast (hwired : s.Wired) {c : ℕ} {bytes : Bytes} (hc : s.down c = some bytes)
    {x : Addr} (hx : s.leader.followers.lookup x = some c) (range : RangeOrder Addr ℕ)
    (frame : Bytes) (cuts : ℕ → Option ℕ) :
    ((s.leader.broadcast range frame cuts s.conns).2[c]?).map Conn.down =
      some (bytes ++ (cuts c).elim frame frame.take) := by
  obtain ⟨conn, hconn, rfl⟩ := Option.map_eq_some_iff.1 hc
  rw [(Leader.broadcast_spec hwired.sound range frame cuts).written hx hconn]
  rfl

/-- To anybody else it writes nothing. -/
theorem down_broadcast_other (hwired : s.Wired) {c : ℕ}
    (hx : ∀ x, s.leader.followers.lookup x ≠ some c) (range : RangeOrder Addr ℕ)
    (frame : Bytes) (cuts : ℕ → Option ℕ) :
    ((s.leader.broadcast range frame cuts s.conns).2[c]?).map Conn.down = s.down c := by
  rw [(Leader.broadcast_spec hwired.sound range frame cuts).others hx]
  rfl

/-! ### A connection that works stays registered -/

/-- The connection most recently added for an address, as long as no read and no write on it
has failed, is the follower at that address, and the leader has not closed it. -/
def Registered (s : Peers) : Prop :=
  ∀ a c, s.latest a = some c → s.failed c = false →
    s.leader.followers.lookup a = some c ∧ s.closed[c]? = some false

/-- A goroutine that has left its loop finds its own connection at its address, or one on
which something has failed too, or none. -/
def OwnsPlace (s : Peers) : Action → Prop
  | .removeFollower c =>
    ∀ a ∈ (s.drains c).nodeAddr, ∀ d ∈ s.leader.followers.lookup a, d = c ∨ s.failed d = true
  | _ => True

instance (s : Peers) (a : Action) : Decidable (s.OwnsPlace a) := by
  unfold OwnsPlace
  cases a <;> infer_instance

/-- A write that is cut short on a registered connection fails. -/
theorem writeFails_of_cut (h : s.Wired) {a : Addr} {c : ℕ}
    (hc : s.leader.followers.lookup a = some c) (range : RangeOrder Addr ℕ) (frame : Bytes)
    {cuts : ℕ → Option ℕ} (hcut : cuts c ≠ none) : s.writeFails range frame cuts c = true := by
  obtain ⟨conn, hconn, hopen⟩ := closed_eq_some_iff.1 (h.isOpen hc)
  obtain ⟨n, hn⟩ := Option.ne_none_iff_exists'.1 hcut
  rw [writeFails, List.any_eq_true]
  refine ⟨a, range.mem_keys.2 (Finmap.mem_of_lookup_eq_some hc), ?_⟩
  simp [hc, hconn, Conn.write, hopen, hn]

/-- **Every step in which a goroutine that leaves owns its place keeps them registered.**  The
step at issue is `removeFollower`, which goes by address and would take the connection of a later
join. -/
theorem Registered.step (h : s.Registered) (hwired : s.Wired) (hok : s.OwnsPlace a)
    (hs : s.step a = some s') : s'.Registered := by
  have hwired' := hwired.step hs
  -- What is at an address is open, so only the place is at issue.
  suffices hplace : ∀ a c, s'.latest a = some c → s'.failed c = false →
      s'.leader.followers.lookup a = some c from
    fun a c hlatest hfailed =>
      have hc := hplace a c hlatest hfailed
      ⟨hc, hwired'.isOpen hc⟩
  have hold := fun a c hlatest hfailed => (h a c hlatest hfailed).1
  have hleave : ∀ d : ℕ, ∀ a c, s.latest a = some c → Function.update s.failed d true c = false →
      s.leader.followers.lookup a = some c := by
    intro d a c hlatest hfailed
    by_cases hcd : c = d
    · rw [hcd, Function.update_self] at hfailed
      cases hfailed
    · rw [Function.update_of_ne hcd] at hfailed
      exact hold a c hlatest hfailed
  cases peersStep_of_step hs with
  | dial dialer server => exact hold
  | arrive bytes hconn => exact hold
  | addFollower nodeAddr hconn hdrain =>
    intro a c hlatest hfailed
    change Function.update s.latest nodeAddr _ a = some c at hlatest
    show (s.leader.followers.insert nodeAddr _).lookup a = some c
    by_cases ha : a = nodeAddr
    · rw [ha, Function.update_self] at hlatest
      rw [ha, Finmap.lookup_insert, hlatest]
    · rw [Function.update_of_ne ha] at hlatest
      rw [Finmap.lookup_insert_of_ne _ ha]
      exact hold a c hlatest hfailed
  | read rest hconn hdrain => exact hold
  | malformed rest hconn hdrain => exact hleave _
  | fail hdrain => exact hleave _
  | @removeFollower d nodeAddr hdrain =>
    intro a c hlatest hfailed
    have hc := hold a c hlatest hfailed
    refine ((Leader.removeFollower_spec s.leader s.conns nodeAddr).1 a).trans ?_
    split_ifs with ha
    · -- What it finds at its address has failed, also if it is its own.
      subst ha
      have hown : c = d ∨ s.failed c = true := hok a (by rw [hdrain]; rfl) c hc
      have hfailed' : s.failed c = true := hown.elim (fun hcd => hcd ▸ hwired.leaving hdrain) id
      exact absurd hfailed' (Bool.eq_false_iff.1 hfailed)
    · exact hc
  | call call => exact hold
  | index hj => exact hold
  | @broadcast j call index frame range cuts hj hframe =>
    intro a c hlatest hfailed
    obtain ⟨hfailed, hwrite⟩ := Bool.or_eq_false_iff.1 hfailed
    have hc := hold a c hlatest hfailed
    refine ((Leader.broadcast_spec hwired.sound range frame cuts).followers a).trans ?_
    have hcut : cuts c = none := by
      by_contra hne
      rw [writeFails_of_cut hwired hc range frame hne] at hwrite
      cases hwrite
    rw [hc, Option.filter_some, hcut]
    rfl

/-- **In no other step do they stay registered:** a goroutine that removes a connection on which
nothing has failed removes one that was the most recent at its address. -/
theorem ownsPlace_of_registered (hwired : s.Wired) (hs : s.step a = some s')
    (hregistered : s'.Registered) : s.OwnsPlace a := by
  cases peersStep_of_step hs with
  | @removeFollower c nodeAddr hdrain =>
    intro a ha d hd
    rw [hdrain] at ha
    obtain rfl := Option.some.inj ha
    by_contra hne
    obtain ⟨-, hfailed⟩ := not_or.1 hne
    have hplace := (hregistered nodeAddr d (hwired.latest hd) (Bool.eq_false_iff.2 hfailed)).1
    have hnone := (Leader.removeFollower_spec s.leader s.conns nodeAddr).1 nodeAddr
    rw [if_pos rfl] at hnone
    exact nomatch hnone.symm.trans hplace
  | _ => trivial

/-- **A connection that works stays registered,** as long as the goroutine of a connection
that was replaced does not come to remove a successor that works; and the first step in which one
does is the first after which it no longer is. -/
theorem registered_of_ownsPlace (hs : Reach step OwnsPlace start s) :
    s.Registered ∧ ∀ a s', s.step a = some s' → (s'.Registered ↔ s.OwnsPlace a) := by
  have hboth : s.Wired ∧ s.Registered :=
    hs.invariant (P := fun s => s.Wired ∧ s.Registered)
      ⟨wired_start, fun a c hlatest => nomatch hlatest⟩
      fun s a s' h hok hstep => ⟨h.1.step hstep, h.2.step h.1 hok hstep⟩
  refine ⟨hboth.2, fun a s' hstep => ⟨ownsPlace_of_registered hboth.1 hstep, fun hok => ?_⟩⟩
  exact hboth.2.step hboth.1 hok hstep

/-- A peer joins twice, both connections are lost, and the goroutine of the first removes the
second; it joins again under the same address, and a broadcast reaches it. -/
def joinAgain : List Action :=
  [.dial [2] [1], .addFollower [2] 0, .dial [2] [1], .addFollower [2] 1, .fail 1, .fail 0,
    .removeFollower 0, .removeFollower 1, .dial [2] [1], .addFollower [2] 2, .call (.delete [7]),
    .index 0, .broadcast 0 Network.byAddr fun _ => none]

/-- A node joins twice, and the goroutine of its first connection takes the second out of the map,
on which a read has failed; it joins a third time, and the third connection stands. -/
theorem registered_of_ownsPlace_joinAgain :
    ∃ s ∈ runAll step OwnsPlace start joinAgain,
      s.latest [2] = some 2 ∧ s.failed 2 = false ∧ s.Registered := by
  obtain ⟨s, hs, hlatest, hfailed⟩ :
      ∃ s ∈ runAll step OwnsPlace start joinAgain, s.latest [2] = some 2 ∧ s.failed 2 = false := by
    decide +kernel
  exact ⟨s, hs, hlatest, hfailed, (registered_of_ownsPlace (reach_of_runAll hs)).1⟩

/-- The peer joins again before the leader notices that the first connection is lost. -/
def joinEarly : List Action :=
  [.dial [2] [1], .addFollower [2] 0, .dial [2] [1], .addFollower [2] 1, .fail 0,
    .removeFollower 0]

/-- **The goroutine of the replaced connection removes the new one.**  Nothing has failed on
the connection that is closed here. -/
theorem replaced_connection_takes_over :
    ∃ s ∈ runAll step (fun _ _ => True) start joinEarly,
      s.latest [2] = some 1 ∧ s.failed 1 = false ∧
        s.leader.followers.lookup [2] = none ∧ s.closed[1]? = some true ∧ ¬ s.Registered := by
  obtain ⟨s, hs, hlatest, hfailed, hnone, hclosed⟩ :
      ∃ s ∈ runAll step (fun _ _ => True) start joinEarly,
        s.latest [2] = some 1 ∧ s.failed 1 = false ∧
          s.leader.followers.lookup [2] = none ∧ s.closed[1]? = some true := by
    decide +kernel
  refine ⟨s, hs, hlatest, hfailed, hnone, hclosed, fun h => ?_⟩
  have hregistered := (h [2] 1 hlatest hfailed).1
  rw [hnone] at hregistered
  cases hregistered

end Peers

end Cluster
end Keva
