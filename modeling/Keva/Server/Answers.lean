/-
# What the server answers

What the server of `server/tcp.go` reads of a connection is the sequence of frames its bytes make
up, however they arrive, and what it writes is one response for each of them, in order; which
response, is `Answered`, and a frame that cannot be used or the message of another node is the last
one that is answered (`session_follows`).

The calls on the store behind the responses are all different.  They can be put in one order, which
is one a map with deadlines could go through and keeps the order of the requests of each
connection, and in which each response is what its handler makes of the result of its call
(`responses_linearizable`).
-/

import Keva.Server.Session

namespace Keva
namespace Server

open Bytes
open Cluster (RaftState Addr text)
open Linearizable (Event Linearization Point linearization_of_tracks)
open Protocol
open Store (Request Answer Clients ttlMap)

/-! ### What a connection has seen -/

/-- A message of another node, which the first frame of a connection may be. -/
def isPeer : Message → Bool
  | .replicationJoin _ | .heartbeat _ | .voteRequest _ => true
  | _ => false

/-- The response to the `k`-th frame of a connection, if this is it, is the last one. -/
def isLast (k : ℕ) : Outcome Error Message → Bool
  | .ok msg => k = 0 && isPeer msg
  | _ => true

/-- The frame a goroutine is busy with. -/
def Pc.pending : Pc → List (Outcome Error Message)
  | dispatching msg | calling msg _ _ | peer msg | handler msg _ _ => [.ok msg]
  | join nodeAddr | checked nodeAddr | follower nodeAddr => [.ok (.replicationJoin ⟨nodeAddr⟩)]
  | accepted | waiting | closed => []

namespace Session

/-- The frames that were read. -/
def seen (x : Session) : List (Outcome Error Message) :=
  x.exchanges.map Exchange.asked ++ x.pc.pending

/-- The calls on the store that were made. -/
def calls (x : Session) : List ℕ := x.exchanges.filterMap Exchange.call ++ x.pc.call.toList

/-- The responses as they are to be on the wire, in the order in which they were made. -/
def frames (x : Session) : Bytes := x.exchanges.flatMap fun e => encodeFrame e.reply

/-- The responses have been written, up to a point where a write failed. -/
structure Written (x : Session) : Prop where
  le : x.down <+: x.frames
  eq : x.broken = false → x.down = x.frames

end Session

/-- **The response to the `k`-th frame of a connection:** an error for a frame that cannot be
used; the topology in some Raft state of the node; an error for a message without a handler;
what the handler makes of what its call on the store returned; and to the first frame, if it
comes from another node, what `Node` and `handleReplicationPeer` answer in some Raft state. -/
inductive Answered (s : TCPServer) (k : ℕ) : Exchange → Prop
  | refused {e : Error} {reply : Message} (hreply : refusal e = some reply) :
      Answered s k ⟨.error e, none, reply⟩
  | topology {m : TopologyRequest} {r : RaftState} (hr : r ∈ s.rafts) :
      Answered s k ⟨.ok (.topologyRequest m), none, .topologyResponse (getTopology r)⟩
  | unhandled {msg : Message} {t : Time} {e : String} (hpeer : k = 0 → isPeer msg = false)
      (hmsg : msg.opCode ≠ opTopologyRequest) (he : dispatch s.defaultTTL t msg = .error e) :
      Answered s k ⟨.ok msg, none, .errorMessage ⟨errCodeInternal, text e⟩⟩
  | called {msg reply : Message} {h : Handling} {i : ℕ} {a : Answer} {t t' : Time}
      (hh : dispatch s.defaultTTL t msg = .ok h) (hinv : .inv i h.request t ∈ s.store.history)
      (hret : .ret i a t' ∈ s.store.history) (hreply : h.response a = some reply) :
      Answered s k ⟨.ok msg, some i, reply⟩
  | notLeader {nodeAddr : Addr} {r : RaftState} (hk : k = 0) (hr : r ∈ s.rafts)
      (hrole : r.role ≠ .leader) :
      Answered s k ⟨.ok (.replicationJoin ⟨nodeAddr⟩), none,
        .errorMessage ⟨errCodeNotLeader, text "not the leader"⟩⟩
  | ack {hb : Heartbeat} {r : RaftState} (hk : k = 0) (hr : r ∈ s.rafts) :
      Answered s k ⟨.ok (.heartbeat hb), none, .heartbeatAck ⟨r.currentTerm, 0⟩⟩
  | vote {req : VoteRequest} {r : RaftState} (hk : k = 0) (hr : r ∈ s.rafts) :
      Answered s k ⟨.ok (.voteRequest req), none, .voteResponse (r.handleVoteRequest req).2.1⟩

/-- One call returned before the other was made, by the history of the store. -/
def Before (h : List (Event ℕ Request Answer Time)) (i j : ℕ) : Prop :=
  ∃ r t op t', [.ret i r t, .inv j op t'].Sublist h

/-- What is known where a goroutine stands. -/
def Pc.Holds (s : TCPServer) (exchanges : List Exchange) : Pc → Prop
  | waiting => exchanges ≠ []
  | dispatching msg => exchanges = [] → isPeer msg = false
  | calling msg h i =>
    ∃ t, dispatch s.defaultTTL t msg = .ok h ∧ .inv i h.request t ∈ s.store.history
  | handler msg resp _ => exchanges = [] ∧
    match resp with
    | none => ∃ hb, msg = .heartbeat hb
    | some resp =>
      ∃ req, msg = .voteRequest req ∧ ∃ r ∈ s.rafts, resp = (r.handleVoteRequest req).2.1
  | accepted | peer _ | join _ | checked _ | follower _ => exchanges = []
  | closed => True

/-- **A connection:** what was read of it, what was written, and the calls that were made for it.
`owner` says which connection a call was made for. -/
structure Session.Holds (s : TCPServer) (owner : ℕ → ℕ) (c : ℕ) (x : Session) : Prop where
  reads : takeFrames s.maxPayloadBytes x.seen.length x.sent = (x.seen, x.up)
  complete : ∀ o ∈ x.seen, Complete o
  written : x.Written
  answered : ∀ {k e}, x.exchanges[k]? = some e → Answered s k e
  ends : ∀ {k e}, x.exchanges[k]? = some e → isLast k e.asked = true →
    x.exchanges.length = k + 1 ∧ x.pc = .closed
  stage : x.pc.Holds s x.exchanges
  owned : ∀ i ∈ x.calls, i < s.store.calls.length ∧ owner i = c
  nodup : x.calls.Nodup
  ordered : x.calls.Pairwise (Before s.store.history)

/-! ### The server goes on -/

/-- What is there stays there: the settings are the same, and the Raft states a node has been in,
the calls and the history of the store only become more. -/
structure Grows (s s' : TCPServer) : Prop where
  maxPayloadBytes_eq : s'.maxPayloadBytes = s.maxPayloadBytes
  defaultTTL_eq : s'.defaultTTL = s.defaultTTL
  rafts : ∀ r ∈ s.rafts, r ∈ s'.rafts
  history : s.store.history <+: s'.store.history
  calls : s.store.calls.length ≤ s'.store.calls.length

variable {s s' : TCPServer} {owner owner' : ℕ → ℕ} {c k : ℕ} {x : Session} {e : Exchange}

/-- A step of the store adds to the calls and to the history, and to nothing else here. -/
theorem grows_store {a : Clients.Action} {store : Clients} (h : s.store.step a = some store)
    (sessions : List Session) : Grows s { s with sessions := sessions, store := store } := by
  have hgrows : s.store.history <+: store.history ∧ s.store.calls.length ≤ store.calls.length := by
    cases Clients.clientsStep_of_step h with
    | invoke req => exact ⟨List.prefix_append .., by simp⟩
    | ret hi => exact ⟨List.prefix_append .., by simp [Clients.move]⟩
    | _ => exact ⟨List.prefix_rfl, by simp [Clients.move]⟩
  exact ⟨rfl, rfl, fun r hr => hr, hgrows.1, hgrows.2⟩

/-- A change of the Raft state touches no call. -/
theorem grows_setRaft (s : TCPServer) (r : RaftState) (leader : Bool) (sessions : List Session) :
    Grows s { s.setRaft r leader with sessions := sessions } :=
  ⟨rfl, rfl, fun _ hr => List.mem_append_left _ hr, List.prefix_rfl, le_rfl⟩

/-- A change of the sessions touches no call. -/
theorem grows_sessions (s : TCPServer) (sessions : List Session) (alive : Bool) :
    Grows s { s with sessions := sessions, alive := alive } :=
  ⟨rfl, rfl, fun _ hr => hr, List.prefix_rfl, le_rfl⟩

/-- What has been answered stays answered. -/
theorem Answered.mono (h : Answered s k e) (hg : Grows s s') : Answered s' k e := by
  have hmem : ∀ v, v ∈ s.store.history → v ∈ s'.store.history := fun _ hv => hg.history.subset hv
  cases h with
  | refused hreply => exact .refused hreply
  | topology hr => exact .topology (hg.rafts _ hr)
  | unhandled hpeer hmsg he => exact .unhandled hpeer hmsg (hg.defaultTTL_eq ▸ he)
  | called hh hinv hret hreply =>
    exact .called (hg.defaultTTL_eq ▸ hh) (hmem _ hinv) (hmem _ hret) hreply
  | notLeader hk hr hrole => exact .notLeader hk (hg.rafts _ hr) hrole
  | ack hk hr => exact .ack hk (hg.rafts _ hr)
  | vote hk hr => exact .vote hk (hg.rafts _ hr)

/-- What has come before a call came before it for good: the history is only added to. -/
theorem Before.mono {i j : ℕ} (h : Before s.store.history i j) (hg : Grows s s') :
    Before s'.store.history i j := by
  obtain ⟨r, t, op, t', hsub⟩ := h
  exact ⟨r, t, op, t', hsub.trans hg.history.sublist⟩

/-- What a goroutine knows about its call stays true while others go on, as Raft states and
history only become more. -/
theorem Pc.Holds.mono {pc : Pc} {exchanges : List Exchange} (h : pc.Holds s exchanges)
    (hg : Grows s s') : pc.Holds s' exchanges := by
  cases pc with
  | calling msg hd i =>
    obtain ⟨t, hh, hinv⟩ := h
    exact ⟨t, hg.defaultTTL_eq ▸ hh, hg.history.subset hinv⟩
  | handler msg resp post =>
    refine ⟨h.1, ?_⟩
    cases resp with
    | none => exact h.2
    | some resp =>
      obtain ⟨req, hreq, r, hr, hresp⟩ := h.2
      exact ⟨req, hreq, r, hg.rafts r hr, hresp⟩
  | _ => exact h

/-- The same for a whole session, under any assignment of calls to sessions that agrees on the
calls there were. -/
theorem Session.Holds.mono (h : x.Holds s owner c) (hg : Grows s s')
    (howner : ∀ i < s.store.calls.length, owner' i = owner i) : x.Holds s' owner' c where
  reads := hg.maxPayloadBytes_eq ▸ h.reads
  complete := h.complete
  written := h.written
  answered hk := (h.answered hk).mono hg
  ends := h.ends
  stage := h.stage.mono hg
  owned i hi := ⟨(h.owned i hi).1.trans_le hg.calls, (howner i (h.owned i hi).1).trans (h.owned i hi).2⟩
  nodup := h.nodup
  ordered := h.ordered.imp fun hb => hb.mono hg

namespace Session

/-- One more response is written behind the others, to the end or up to where the write fails. -/
theorem Written.reply (h : x.Written) (cut : Option ℕ) (e : Exchange) (pc : Pc) :
    (x.reply cut e pc).Written := by
  have hframes : (x.reply cut e pc).frames = x.frames ++ encodeFrame e.reply := by
    simp [frames, Session.reply]
  constructor
  · rw [hframes]
    unfold Session.reply
    dsimp only
    split_ifs with hbroken
    · rw [List.append_nil]
      exact h.le.trans (List.prefix_append ..)
    · rw [h.eq (Bool.eq_false_iff.2 hbroken), List.prefix_append_right_inj]
      cases cut with
      | none => exact List.prefix_rfl
      | some n => exact List.take_prefix ..
  · intro hok
    obtain ⟨hbroken, hcut⟩ := Bool.or_eq_false_iff.1 hok
    rw [hframes, ← h.eq hbroken]
    cases cut with
    | none => simp [Session.reply, hbroken]
    | some n => cases hcut

/-- **A response.**  It answers the frame that was read last, and nothing more is read after one
that is the last of its connection. -/
theorem Holds.reply (h : x.Holds s owner c) (hg : Grows s s') {up : Bytes} {pc : Pc}
    (cut : Option ℕ) (hopen : x.pc ≠ .closed)
    (hreads : takeFrames s.maxPayloadBytes (x.exchanges.length + 1) x.sent =
      (x.exchanges.map Exchange.asked ++ [e.asked], up)) (hcomplete : Complete e.asked)
    (hanswered : Answered s' x.exchanges.length e) (hcall : e.call = x.pc.call)
    (hpc : pc = .waiting ∧ isLast x.exchanges.length e.asked = false ∨ pc = .closed) :
    ({ x with up := up }.reply cut e pc).Holds s' owner c := by
  have hpending : pc.pending = [] ∧ pc.call = none := by
    rcases hpc with ⟨rfl, -⟩ | rfl <;> exact ⟨rfl, rfl⟩
  have hseen : ({ x with up := up }.reply cut e pc).seen =
      x.exchanges.map Exchange.asked ++ [e.asked] := by
    simp [seen, Session.reply, hpending.1]
  have hcalls : ({ x with up := up }.reply cut e pc).calls = x.calls := by
    simp [calls, Session.reply, hpending.2, List.filterMap_cons, hcall]
    cases x.pc.call <;> rfl
  -- The exchanges are those before and the new one, which is the last.
  have hcases : ∀ {k e'}, (x.exchanges ++ [e])[k]? = some e' →
      x.exchanges[k]? = some e' ∨ k = x.exchanges.length ∧ e' = e := by
    intro k e' hk
    by_cases hlt : k < x.exchanges.length
    · rw [List.getElem?_append_left hlt] at hk
      exact Or.inl hk
    · rw [List.getElem?_append_right (not_lt.1 hlt), List.getElem?_singleton] at hk
      split_ifs at hk with h0
      exact Or.inr ⟨by omega, (Option.some.inj hk).symm⟩
  have hwritten : { x with up := up }.Written := ⟨h.written.le, h.written.eq⟩
  refine ⟨?_, ?_, hwritten.reply cut e pc, ?_, ?_, ?_, ?_, ?_, ?_⟩
  · rw [hseen, hg.maxPayloadBytes_eq, List.length_append, List.length_map, List.length_singleton]
    exact hreads
  · rw [hseen]
    intro o ho
    rcases List.mem_append.1 ho with ho | ho
    · exact h.complete o (List.mem_append_left _ ho)
    · exact List.mem_singleton.1 ho ▸ hcomplete
  · intro k e' hk
    rcases hcases hk with hk | ⟨rfl, rfl⟩
    · exact (h.answered hk).mono hg
    · exact hanswered
  · intro k e' hk hlast
    rcases hcases hk with hk | ⟨rfl, rfl⟩
    · exact absurd (h.ends hk hlast).2 hopen
    · refine ⟨List.length_append, ?_⟩
      rcases hpc with ⟨-, hnot⟩ | rfl
      · exact absurd hlast (Bool.eq_false_iff.1 hnot)
      · rfl
  · rcases hpc with ⟨rfl, -⟩ | rfl
    · exact List.append_ne_nil_of_right_ne_nil _ (List.cons_ne_nil e [])
    · trivial
  · rw [hcalls]
    exact fun i hi => ⟨(h.owned i hi).1.trans_le hg.calls, (h.owned i hi).2⟩
  · rw [hcalls]
    exact h.nodup
  · rw [hcalls]
    exact h.ordered.imp fun hb => hb.mono hg

/-- The goroutine goes on with the frame it is busy with, and neither reads, nor writes, nor
calls the store in this step. -/
theorem Holds.move (h : x.Holds s owner c) (hg : Grows s s') {pc : Pc} (hopen : x.pc ≠ .closed)
    (hpending : pc.pending = x.pc.pending) (hcall : pc.call = x.pc.call)
    (hstage : pc.Holds s' x.exchanges) : { x with pc := pc }.Holds s' owner c := by
  have hseen : { x with pc := pc }.seen = x.seen := by rw [seen, seen, hpending]
  have hcalls : { x with pc := pc }.calls = x.calls := by rw [calls, calls, hcall]
  refine ⟨?_, ?_, ⟨h.written.le, h.written.eq⟩, fun hk => (h.answered hk).mono hg, ?_, hstage, ?_,
    ?_, ?_⟩
  · rw [hseen, hg.maxPayloadBytes_eq]
    exact h.reads
  · rw [hseen]
    exact h.complete
  · exact fun hk hlast => absurd (h.ends hk hlast).2 hopen
  · rw [hcalls]
    exact fun i hi => ⟨(h.owned i hi).1.trans_le hg.calls, (h.owned i hi).2⟩
  · rw [hcalls]
    exact h.nodup
  · rw [hcalls]
    exact h.ordered.imp fun hb => hb.mono hg

/-- A goroutine that waits for a frame is busy with none, and where a frame leads to it is busy
with that one and has made no call for it. -/
theorem next_spec {pc : Pc} {next : Message → Pc} {exchanges : List Exchange}
    (hnext : pc.next = some next) (hstage : pc.Holds s exchanges) :
    (pc.pending = [] ∧ pc.call = none ∧ pc ≠ .closed) ∧
      ∀ msg, (next msg).pending = [.ok msg] ∧ (next msg).call = none ∧
        (next msg).Holds s exchanges := by
  cases pc with
  | accepted =>
    obtain rfl := Option.some.inj hnext
    refine ⟨⟨rfl, rfl, nofun⟩, fun msg => ?_⟩
    cases msg with
    | replicationJoin join => exact ⟨rfl, rfl, hstage⟩
    | heartbeat hb => exact ⟨rfl, rfl, hstage⟩
    | voteRequest req => exact ⟨rfl, rfl, hstage⟩
    | _ => exact ⟨rfl, rfl, fun _ => rfl⟩
  | waiting =>
    obtain rfl := Option.some.inj hnext
    exact ⟨⟨rfl, rfl, nofun⟩, fun msg => ⟨rfl, rfl, fun h => absurd h hstage⟩⟩
  | _ => cases hnext

/-- Bytes arrive. -/
theorem Holds.send (h : x.Holds s owner c) (bytes : Bytes) :
    { x with sent := x.sent ++ bytes, up := x.up ++ bytes }.Holds s owner c :=
  ⟨takeFrames_append_right h.reads h.complete bytes, h.complete, ⟨h.written.le, h.written.eq⟩,
    h.answered, h.ends, h.stage, h.owned, h.nodup, h.ordered⟩

/-- **A frame is read,** and not answered yet: it is the next one of what the other side has
sent. -/
theorem Holds.frame (h : x.Holds s owner c) {next : Message → Pc} {msg : Message} {rest : Bytes}
    (hnext : x.pc.next = some next)
    (hread : readFrame s.maxPayloadBytes x.up = (.ok msg, rest)) :
    { x with up := rest, pc := next msg }.Holds s owner c := by
  obtain ⟨⟨hpending, hcall, hopen⟩, hmsg⟩ := next_spec hnext h.stage
  obtain ⟨hpending', hcall', hstage⟩ := hmsg msg
  have hseen : { x with up := rest, pc := next msg }.seen = x.seen ++ [.ok msg] := by
    rw [seen, seen, hpending, hpending', List.append_nil]
  have hcalls : { x with up := rest, pc := next msg }.calls = x.calls := by
    rw [calls, calls, hcall, hcall']
  refine ⟨?_, ?_, ⟨h.written.le, h.written.eq⟩, h.answered, ?_, hstage, ?_, ?_, ?_⟩
  · rw [hseen, List.length_append]
    exact takeFrames_succ h.reads hread
  · rw [hseen]
    intro o ho
    rcases List.mem_append.1 ho with ho | ho
    · exact h.complete o ho
    · rw [List.mem_singleton.1 ho]
      exact nofun
  · exact fun hk hlast => absurd (h.ends hk hlast).2 hopen
  · rw [hcalls]
    exact h.owned
  · rw [hcalls]
    exact h.nodup
  · rw [hcalls]
    exact h.ordered

/-- A frame that cannot be used is answered at once with an error, and the connection is closed
after it. -/
theorem Holds.refuse (h : x.Holds s owner c) (hg : Grows s s') {next : Message → Pc}
    {err : Error} {rest : Bytes} {reply : Message} (cut : Option ℕ) (hnext : x.pc.next = some next)
    (hread : readFrame s.maxPayloadBytes x.up = (.error err, rest))
    (hreply : refusal err = some reply) :
    ({ x with up := rest }.reply cut ⟨.error err, none, reply⟩ .closed).Holds s' owner c := by
  obtain ⟨⟨hpending, hcall, hopen⟩, -⟩ := next_spec hnext h.stage
  have hseen : x.seen = x.exchanges.map Exchange.asked := by
    rw [seen, hpending, List.append_nil]
  have hreads := h.reads
  rw [hseen, List.length_map] at hreads
  refine h.reply hg cut hopen (takeFrames_succ hreads hread) ?_ (.refused hreply) hcall.symm
    (Or.inr rfl)
  rintro e heq
  obtain rfl := Outcome.error.inj heq
  cases hreply

/-- A frame the goroutine was busy with is answered, and the goroutine waits for the next one or
closes the connection. -/
theorem Holds.answer (h : x.Holds s owner c) (hg : Grows s s') {pc : Pc} (cut : Option ℕ)
    (hpending : x.pc.pending = [e.asked]) (hanswered : Answered s' x.exchanges.length e)
    (hcall : e.call = x.pc.call)
    (hpc : pc = .waiting ∧ isLast x.exchanges.length e.asked = false ∨ pc = .closed) :
    (x.reply cut e pc).Holds s' owner c := by
  have hseen : x.seen = x.exchanges.map Exchange.asked ++ [e.asked] := by rw [seen, hpending]
  have hreads := h.reads
  rw [hseen, List.length_append, List.length_map, List.length_singleton] at hreads
  refine h.reply hg cut ?_ hreads (h.complete _ ?_) hanswered hcall hpc
  · intro hclosed
    rw [hclosed] at hpending
    cases hpending
  · rw [hseen]
    exact List.mem_append_right _ List.mem_cons_self

/-- **A handler calls the store.**  The calls of this connection have all returned, so that the
new one comes after them in the history. -/
theorem Holds.invoke (h : x.Holds s owner c) {msg : Message} {hd : Handling} {store : Clients}
    {sessions : List Session} (hpc : x.pc = .dispatching msg)
    (hh : dispatch s.defaultTTL s.store.clock msg = .ok hd)
    (hstore : s.store.step (.invoke hd.request) = some store) :
    { x with pc := .calling msg hd s.store.calls.length }.Holds
      { s with sessions := sessions, store := store }
      (Function.update owner s.store.calls.length c) c := by
  have hg := grows_store hstore sessions
  obtain rfl : { s.store with
      calls := s.store.calls ++ [.called hd.request],
      history := s.store.history ++ [.inv s.store.calls.length hd.request s.store.clock] } = store :=
    Option.some.inj hstore
  have hseen : { x with pc := .calling msg hd s.store.calls.length }.seen = x.seen := by
    rw [seen, seen, hpc]
    rfl
  have hcalls : { x with pc := .calling msg hd s.store.calls.length }.calls =
      x.calls ++ [s.store.calls.length] := by
    rw [calls, calls, hpc]
    simp [Pc.call]
  have hnew : ∀ i ∈ x.calls, i ≠ s.store.calls.length := fun i hi => (h.owned i hi).1.ne
  refine ⟨?_, ?_, ⟨h.written.le, h.written.eq⟩, fun hk => (h.answered hk).mono hg, ?_, ?_, ?_, ?_,
    ?_⟩
  · rw [hseen]
    exact h.reads
  · rw [hseen]
    exact h.complete
  · intro k e hk hlast
    have hclosed := (h.ends hk hlast).2
    rw [hpc] at hclosed
    cases hclosed
  · exact ⟨s.store.clock, hh, List.mem_append_right _ List.mem_cons_self⟩
  · rw [hcalls]
    intro i hi
    show i < (s.store.calls ++ _).length ∧ _
    rw [List.length_append]
    rcases List.mem_append.1 hi with hi | hi
    · rw [Function.update_of_ne (hnew i hi)]
      exact ⟨(h.owned i hi).1.trans_le (Nat.le_add_right _ _), (h.owned i hi).2⟩
    · rw [List.mem_singleton.1 hi, Function.update_self]
      exact ⟨Nat.lt_add_one _, rfl⟩
  · rw [hcalls]
    exact h.nodup.append (List.nodup_singleton _)
      fun i hi hi' => hnew i hi (List.mem_singleton.1 hi')
  · rw [hcalls, List.pairwise_append]
    refine ⟨h.ordered.imp fun hb => hb.mono hg, List.pairwise_singleton _ _, fun i hi j hj => ?_⟩
    rw [List.mem_singleton.1 hj]
    -- The goroutine was not waiting for a call, so call `i` belongs to a response.
    rw [calls, hpc] at hi
    obtain ⟨e, he, hcall⟩ := List.mem_filterMap.1 ((List.append_nil _).symm ▸ hi)
    obtain ⟨k, hk⟩ := List.getElem?_of_mem he
    have hanswered := h.answered hk
    cases hanswered with
    | called _ _ hret _ =>
      obtain rfl := Option.some.inj hcall
      exact ⟨_, _, _, _, (List.singleton_sublist.2 hret).append_right [_]⟩
    | _ => cases hcall

end Session

/-! ### Every step keeps it -/

/-- Every connection is as `Session.Holds` says, and the Raft state is one of those the node has
been in. -/
structure Inv (owner : ℕ → ℕ) (s : TCPServer) : Prop where
  sessions : ∀ {c : ℕ} {x : Session}, s.sessions[c]? = some x → x.Holds s owner c
  raft : s.raft ∈ s.rafts

/-- One connection changes. -/
theorem Inv.set (h : Inv owner s) {x' : Session} (hg : Grows s s')
    (howner : ∀ i < s.store.calls.length, owner' i = owner i)
    (hsessions : s'.sessions = s.sessions.set c x') (hraft : s'.raft ∈ s'.rafts)
    (hx : x'.Holds s' owner' c) : Inv owner' s' := by
  refine ⟨fun {c' y} hc' => ?_, hraft⟩
  rw [hsessions] at hc'
  by_cases hcc : c' = c
  · subst hcc
    have hlt := (List.getElem?_eq_some_iff.1 hc').1
    rw [List.length_set] at hlt
    rw [List.getElem?_set_self hlt] at hc'
    exact Option.some.inj hc' ▸ hx
  · rw [List.getElem?_set_ne (Ne.symm hcc)] at hc'
    exact (h.sessions hc').mono hg howner

/-- None changes. -/
theorem Inv.grows (h : Inv owner s) (hg : Grows s s') (hsessions : s'.sessions = s.sessions)
    (hraft : s'.raft ∈ s'.rafts) : Inv owner s' :=
  ⟨fun hc => (h.sessions (hsessions ▸ hc)).mono hg fun _ _ => rfl, hraft⟩

/-- No handler is registered for the messages of the replication peers, which are dealt with
before. -/
theorem isPeer_of_dispatch {defaultTTL : ℤ} {t : Time} {msg : Message} {h : Handling}
    (hh : dispatch defaultTTL t msg = .ok h) : isPeer msg = false := by
  rw [dispatch_spec] at hh
  cases msg <;> first | rfl | cases hh

/-- **Every step of the server keeps the invariant,** where a session that makes a call becomes
its owner. -/
theorem Inv.step {a : TCPServer.Action} (h : Inv owner s) (hs : s.step a = some s') :
    ∃ owner', Inv owner' s' := by
  obtain ⟨-, hs⟩ := TCPServer.serverStep_of_step hs
  have hraft : ∀ r leader sessions,
      ({ s.setRaft r leader with sessions := sessions } : TCPServer).raft ∈
        ({ s.setRaft r leader with sessions := sessions } : TCPServer).rafts :=
    fun _ _ _ => List.mem_append_right _ List.mem_cons_self
  cases hs with
  | accept =>
    refine ⟨owner, fun {c x} hc => ?_, h.raft⟩
    change (s.sessions ++ [newSession])[c]? = some x at hc
    by_cases hlt : c < s.sessions.length
    · rw [List.getElem?_append_left hlt] at hc
      exact (h.sessions hc).mono (grows_sessions ..) fun _ _ => rfl
    · rw [List.getElem?_append_right (not_lt.1 hlt), List.getElem?_singleton] at hc
      split_ifs at hc with h0
      obtain rfl := Option.some.inj hc
      exact ⟨rfl, nofun, ⟨List.prefix_rfl, fun _ => rfl⟩, nofun, nofun, rfl, nofun, List.nodup_nil,
        List.Pairwise.nil⟩
  | send hc bytes =>
    exact ⟨owner, h.set (grows_sessions ..) (fun _ _ => rfl) rfl h.raft
      (((h.sessions hc).send bytes).mono (grows_sessions ..) fun _ _ => rfl)⟩
  | frame hc cut hnext hread =>
    exact ⟨owner, h.set (grows_sessions ..) (fun _ _ => rfl) rfl h.raft
      (((h.sessions hc).frame hnext hread).mono (grows_sessions ..) fun _ _ => rfl)⟩
  | refuse hc cut hnext hread hreply =>
    exact ⟨owner, h.set (grows_sessions ..) (fun _ _ => rfl) rfl h.raft
      ((h.sessions hc).refuse (grows_sessions ..) cut hnext hread hreply)⟩
  | poisoned hc cut hnext hread => exact ⟨owner, h.grows (grows_sessions ..) rfl h.raft⟩
  | lose hc hnext =>
    obtain ⟨⟨hpending, hcall, hopen⟩, -⟩ := Session.next_spec hnext (h.sessions hc).stage
    exact ⟨owner, h.set (grows_sessions ..) (fun _ _ => rfl) rfl h.raft
      ((h.sessions hc).move (grows_sessions ..) hopen hpending.symm hcall.symm trivial)⟩
  | topology hc cut hpc =>
    refine ⟨owner, h.set (grows_sessions ..) (fun _ _ => rfl) rfl h.raft
      ((h.sessions hc).answer (grows_sessions ..) cut (by rw [hpc]; rfl) (.topology h.raft)
        (by rw [hpc]; rfl) (Or.inl ⟨rfl, Bool.and_false _⟩))⟩
  | @unhandled c x msg e hc cut hpc hmsg he =>
    have hx := h.sessions hc
    have hpeer : x.exchanges.length = 0 → isPeer msg = false := by
      have hstage := hx.stage
      rw [hpc] at hstage
      exact fun hk => hstage (List.length_eq_zero_iff.1 hk)
    refine ⟨owner, h.set (grows_sessions ..) (fun _ _ => rfl) rfl h.raft
      (hx.answer (grows_sessions ..) cut (by rw [hpc]; rfl) (.unhandled hpeer hmsg he)
        (by rw [hpc]; rfl) (Or.inl ⟨rfl, ?_⟩))⟩
    simp only [isLast, Bool.and_eq_false_iff, decide_eq_false_iff_not]
    exact or_iff_not_imp_left.2 fun hk => hpeer (not_not.1 hk)
  | @invoke c x msg hd store hc cut hpc hh hstore =>
    exact ⟨_, h.set (grows_store hstore _) (fun i hi => Function.update_of_ne hi.ne ..) rfl h.raft
      ((h.sessions hc).invoke hpc hh hstore)⟩
  | @returned c i x msg hd a reply store hc cut hpc hi hstore hreply =>
    have hx := h.sessions hc
    have hg := grows_store hstore (s.sessions.set c (x.reply cut ⟨.ok msg, some i, reply⟩ .waiting))
    obtain ⟨t, hh, hinv⟩ : ∃ t, dispatch s.defaultTTL t msg = .ok hd ∧
        .inv i hd.request t ∈ s.store.history := by
      have hstage := hx.stage
      rwa [hpc] at hstage
    have hret : ∃ t', .ret i a t' ∈ store.history := by
      cases Clients.clientsStep_of_step hstore with
      | ret hi' =>
        rw [hi] at hi'
        cases hi'
        exact ⟨_, List.mem_append_right _ List.mem_cons_self⟩
    obtain ⟨t', hret⟩ := hret
    refine ⟨owner, h.set hg (fun _ _ => rfl) rfl h.raft
      (hx.answer hg cut (by rw [hpc]; rfl) (.called hh (hg.history.subset hinv) hret hreply)
        (by rw [hpc]; rfl) (Or.inl ⟨rfl, ?_⟩))⟩
    rw [isLast, isPeer_of_dispatch hh, Bool.and_false]
  | heartbeat hc cut hpc =>
    have hstage := (h.sessions hc).stage
    rw [hpc] at hstage
    exact ⟨owner, h.set (grows_setRaft ..) (fun _ _ => rfl) rfl (hraft ..)
      ((h.sessions hc).move (grows_setRaft ..) (by rw [hpc]; nofun) (by rw [hpc]; rfl)
        (by rw [hpc]; rfl) ⟨hstage, _, rfl⟩)⟩
  | vote hc cut hpc =>
    have hstage := (h.sessions hc).stage
    rw [hpc] at hstage
    exact ⟨owner, h.set (grows_setRaft ..) (fun _ _ => rfl) rfl (hraft ..)
      ((h.sessions hc).move (grows_setRaft ..) (by rw [hpc]; nofun) (by rw [hpc]; rfl)
        (by rw [hpc]; rfl) ⟨hstage, _, rfl, s.raft, List.mem_append_left _ h.raft, rfl⟩)⟩
  | @post c x msg resp post post' r leader hc cut hpc =>
    have hstage : (Pc.handler msg resp post').Holds s x.exchanges := by
      have hstage := (h.sessions hc).stage
      rwa [hpc] at hstage
    exact ⟨owner, h.set (grows_setRaft ..) (fun _ _ => rfl) rfl (hraft ..)
      ((h.sessions hc).move (grows_setRaft ..) (by rw [hpc]; nofun) (by rw [hpc]; rfl)
        (by rw [hpc]; rfl) (hstage.mono (grows_setRaft ..)))⟩
  | @ack c x msg hc cut hpc =>
    obtain ⟨hnil, hb, rfl⟩ : x.exchanges = [] ∧ ∃ hb, msg = .heartbeat hb := by
      have hstage := (h.sessions hc).stage
      rwa [hpc] at hstage
    exact ⟨owner, h.set (grows_sessions ..) (fun _ _ => rfl) rfl h.raft
      ((h.sessions hc).answer (grows_sessions ..) cut (by rw [hpc]; rfl)
        (.ack (List.length_eq_zero_iff.2 hnil) h.raft) (by rw [hpc]; rfl) (Or.inr rfl))⟩
  | @voted c x msg resp hc cut hpc =>
    obtain ⟨hnil, req, rfl, r, hr, rfl⟩ : x.exchanges = [] ∧ ∃ req, msg = .voteRequest req ∧
        ∃ r ∈ s.rafts, resp = (r.handleVoteRequest req).2.1 := by
      have hstage := (h.sessions hc).stage
      rwa [hpc] at hstage
    exact ⟨owner, h.set (grows_sessions ..) (fun _ _ => rfl) rfl h.raft
      ((h.sessions hc).answer (grows_sessions ..) cut (by rw [hpc]; rfl)
        (.vote (List.length_eq_zero_iff.2 hnil) hr) (by rw [hpc]; rfl) (Or.inr rfl))⟩
  | check hc cut hpc hrole =>
    have hstage := (h.sessions hc).stage
    rw [hpc] at hstage
    exact ⟨owner, h.set (grows_sessions ..) (fun _ _ => rfl) rfl h.raft
      ((h.sessions hc).move (grows_sessions ..) (by rw [hpc]; nofun) (by rw [hpc]; rfl)
        (by rw [hpc]; rfl) hstage)⟩
  | notLeader hc cut hpc hrole =>
    have hstage := (h.sessions hc).stage
    rw [hpc] at hstage
    exact ⟨owner, h.set (grows_sessions ..) (fun _ _ => rfl) rfl h.raft
      ((h.sessions hc).answer (grows_sessions ..) cut (by rw [hpc]; rfl)
        (.notLeader (List.length_eq_zero_iff.2 hstage) h.raft hrole) (by rw [hpc]; rfl)
        (Or.inr rfl))⟩
  | handOver hc cut hpc hleader =>
    have hstage := (h.sessions hc).stage
    rw [hpc] at hstage
    exact ⟨owner, h.set (grows_sessions ..) (fun _ _ => rfl) rfl h.raft
      ((h.sessions hc).move (grows_sessions ..) (by rw [hpc]; nofun) (by rw [hpc]; rfl)
        (by rw [hpc]; rfl) hstage)⟩
  | noLeader hc cut hpc hleader => exact ⟨owner, h.grows (grows_sessions ..) rfl h.raft⟩
  | store hstore => exact ⟨owner, h.grows (grows_store hstore _) rfl h.raft⟩
  | elections r leader => exact ⟨owner, h.grows (grows_setRaft ..) rfl (hraft ..)⟩

/-! ### Whole runs -/

section Runs

variable {kv : Store.KVStore} {t : Time} {defaultTTL : ℤ} {r : RaftState} {leader : Bool}
  {maxPayloadBytes : ℕ}

/-- The invariant holds in every state the server can be in. -/
theorem inv_of_reach
    (hs : Reach TCPServer.step (fun _ _ => True)
      (.start kv t defaultTTL r leader maxPayloadBytes) s) : ∃ owner, Inv owner s := by
  refine hs.invariant (P := fun s => ∃ owner, Inv owner s) ⟨fun _ => 0, fun hc => ?_,
    List.mem_cons_self⟩ ?_
  · cases List.getElem?_nil.symm.trans hc
  · rintro s a s' ⟨owner, h⟩ - hstep
    exact h.step hstep

/-- A set arrives in two pieces, while another connection asks twice for its key and a third one
brings a heartbeat; the first `Get` looks the key up before the set enters its shard. -/
def threeConnections : List TCPServer.Action :=
  let set := encodeFrame (.setRequest ⟨[1], [7], 0⟩)
  let get := encodeFrame (.getRequest ⟨[1]⟩)
  [.accept, .accept, .accept, .send 0 (set.take 7), .send 1 get, .send 0 (set.drop 7),
    .read 0 none, .go 0 none, .read 1 none, .go 1 none, .store (.append 0), .store (.lookup 1),
    .store (.apply 0 fun _ => Eviction.byKey), .go 0 none, .store (.readClock 1), .go 1 none,
    .send 2 (encodeFrame (.heartbeat ⟨4, [9]⟩)), .send 1 get, .read 2 none, .go 2 none,
    .read 1 none, .go 1 none, .store (.lookup 2), .go 2 none, .store (.readClock 2),
    .store (.afterRead 2), .go 1 none, .go 2 none]

/-- The node of the address `[1]` in a cluster of two, which does not lead, over an empty store of
one shard. -/
def threeStart : TCPServer :=
  .start Store.oneShard 0 900 (Cluster.newRaftState [1] [[1], [9]]) false 100

/-- Every step of the server is one of the store, or none. -/
theorem reach_store
    (hs : Reach TCPServer.step (fun _ _ => True)
      (.start kv t defaultTTL r leader maxPayloadBytes) s) :
    Reach Clients.step (fun _ _ => True) (.start kv t) s.store := by
  refine hs.invariant (P := fun s => Reach Clients.step (fun _ _ => True) (.start kv t) s.store)
    .refl fun s a s' h _ hstep => ?_
  obtain ⟨-, hstep⟩ := TCPServer.serverStep_of_step hstep
  cases hstep with
  | invoke hc cut hpc hh hstore => exact h.tail _ trivial hstore
  | returned hc cut hpc hi hstore hreply => exact h.tail _ trivial hstore
  | store hstore => exact h.tail _ trivial hstore
  | _ => exact h

end Runs

/-- **An order of the calls explains the responses:** each response is what the handler of its
request makes of the result of its call; the requests of a connection come in the order in which
it sent them; and no two responses go back to one call. -/
structure Explains (s : TCPServer) (order : List (Point ℕ Request Answer Time)) : Prop where
  response : ∀ x ∈ s.sessions, ∀ e ∈ x.exchanges, ∀ i, e.call = some i →
    ∃ msg h t, ∃ p ∈ order, e.asked = .ok msg ∧ dispatch s.defaultTTL t msg = .ok h ∧
      t ≤ p.time ∧ p.id = i ∧ p.op = h.request ∧ h.response p.out = some e.reply
  ordered : ∀ x ∈ s.sessions, ∀ i j, [i, j].Sublist (x.exchanges.filterMap Exchange.call) →
    [i, j].Sublist (order.map Point.id)
  distinct : (s.sessions.flatMap fun x => x.exchanges.filterMap Exchange.call).Nodup

/-- No call of the store is made on behalf of two requests. -/
theorem Inv.distinct (h : Inv owner s) :
    (s.sessions.flatMap fun x => x.exchanges.filterMap Exchange.call).Nodup := by
  have hmem : ∀ {x : Session} {i : ℕ}, i ∈ x.exchanges.filterMap Exchange.call → i ∈ x.calls :=
    fun hi => List.mem_append_left _ hi
  rw [List.nodup_flatMap]
  refine ⟨fun x hx => ?_, List.pairwise_iff_getElem.2 fun c c' hc hc' hlt i hi hi' => ?_⟩
  · obtain ⟨c, hc⟩ := List.getElem?_of_mem hx
    exact (h.sessions hc).nodup.sublist (List.sublist_append_left ..)
  · have howner := ((h.sessions (List.getElem?_eq_getElem hc)).owned i (hmem hi)).2
    have howner' := ((h.sessions (List.getElem?_eq_getElem hc')).owned i (hmem hi')).2
    omega

/-- A linearization of the calls explains the responses: each is what its handler makes of the
result that its call has in this order, and the calls of one connection keep theirs. -/
theorem Inv.explains (h : Inv owner s) {legal : List (Point ℕ Request Answer Time) → Prop}
    {order : List (Point ℕ Request Answer Time)} (honce : Clients.CalledOnce s.store)
    (horder : Linearization legal s.store.history order) : Explains s order := by
  refine ⟨fun x hx e he i hi => ?_, fun x hx i j hij => ?_, h.distinct⟩
  · obtain ⟨c, hc⟩ := List.getElem?_of_mem hx
    obtain ⟨k, hk⟩ := List.getElem?_of_mem he
    cases (h.sessions hc).answered hk with
    | @called msg reply hd i' a t t' hh hinv hret hreply =>
      obtain rfl := Option.some.inj hi
      obtain ⟨p, hp, hid, rfl, -⟩ := horder.returned hret
      obtain ⟨t₁, ht₁, hinv₁⟩ := horder.invoked p hp
      obtain ⟨hop, rfl⟩ := honce.unique hinv (hid ▸ hinv₁)
      exact ⟨msg, hd, t₁, p, hp, rfl, hh, ht₁, hid, hop, hreply⟩
    | _ => cases hi
  · obtain ⟨c, hc⟩ := List.getElem?_of_mem hx
    have hholds := h.sessions hc
    have hret : ∀ i ∈ x.exchanges.filterMap Exchange.call, ∃ p ∈ order, p.id = i := by
      intro i hi
      obtain ⟨e, he, hcall⟩ := List.mem_filterMap.1 hi
      obtain ⟨k, hk⟩ := List.getElem?_of_mem he
      cases hholds.answered hk with
      | called _ _ hret _ =>
        obtain rfl := Option.some.inj hcall
        obtain ⟨p, hp, hid, -⟩ := horder.returned hret
        exact ⟨p, hp, hid⟩
      | _ => cases hcall
    obtain ⟨p, hp, rfl⟩ := hret i (hij.subset List.mem_cons_self)
    obtain ⟨q, hq, rfl⟩ := hret j (hij.subset (List.mem_cons_of_mem _ List.mem_cons_self))
    have hpair := hholds.ordered.sublist (hij.trans (List.sublist_append_left ..))
    obtain ⟨a, t, op, t', hsub⟩ := List.rel_of_pairwise_cons hpair List.mem_cons_self
    exact (horder.ordered p hp q hq a t op t' hsub).map Point.id

/-- **What clients see is linearizable.**  On a store without a budget, and whatever happens on
the connections and in the elections, the calls of all connections and of anyone else can be put
in one order that a map with deadlines could go through, and which explains every response that
was given. -/
theorem responses_linearizable {ranges : ℕ → Eviction.Range} {file : Option Bytes}
    {walOpts : Wal.Options} {opts : Store.Options} {t₀ t : Time} {kv : Store.KVStore}
    {defaultTTL : ℤ} {r : RaftState} {leader : Bool} {maxPayloadBytes : ℕ}
    (hmax : opts.maxMemoryBytes ≤ 0)
    (hkv : Store.newKVStore ranges file walOpts opts t₀ = some (.ok kv))
    (hs : Reach TCPServer.step (fun _ _ => True)
      (.start kv t defaultTTL r leader maxPayloadBytes) s) :
    ∃ order, Linearization (ttlMap.Legal kv.content) s.store.history order ∧ Explains s order := by
  obtain ⟨slots, hinv⟩ := Clients.inv_of_reach Store.implements_ttlMap
    (Store.exactly_of_newKVStore hmax hkv t) (reach_store hs)
  obtain ⟨owner, h⟩ := inv_of_reach hs
  have horder := linearization_of_tracks hinv.tracks hinv.fits
  exact ⟨_, horder, h.explains (Clients.calledOnce_of_reach (reach_store hs)) horder⟩

/-- Of the three connections the first makes one call and the second two, and there is one order
of the three that explains all responses. -/
theorem responses_linearizable_threeConnections :
    ∃ s ∈ runAll TCPServer.step (fun _ _ => True) threeStart threeConnections,
      s.sessions.map (fun x => x.exchanges.filterMap Exchange.call) = [[0], [1, 2], []] ∧
        ∃ order, Linearization (ttlMap.Legal Store.oneShard.content) s.store.history order ∧
          Explains s order := by
  obtain ⟨s, hs, hcalls⟩ : ∃ s ∈ runAll TCPServer.step (fun _ _ => True) threeStart
      threeConnections,
      s.sessions.map (fun x => x.exchanges.filterMap Exchange.call) = [[0], [1, 2], []] := by
    decide +kernel
  exact ⟨s, hs, hcalls, responses_linearizable le_rfl
    (Store.newKVStore_oneShard fun _ => Eviction.byKey) (reach_of_runAll hs)⟩

end Server
end Keva
