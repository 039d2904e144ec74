/-
# Elections and replication together

The nodes of a cluster with everything that runs in them: the elections of
`cluster/raft.go`, the loop of `RunFollower` (`cluster/follower.go`) that follows whoever
leads, the goroutines that serve replication connections (`handleReplicationPeer` in
`server/tcp.go`, `drainAcks` in `cluster/leader.go`), and the `Set` and `Delete` requests of
`cluster/node.go`, which store, look for the `Leader` object, take an index and broadcast.
A step is one critical section or one communication, and any goroutine may take the next
one.

`becomeLeader` makes a new `Leader` each time, and whoever has got hold of an older one goes
on with it: the objects of a node are numbered, and the current one, if `Node.leader` is set,
is the last.  Any node takes client requests.  Connections may fail at any time.

`NetStep` is what a step does to the elections, to the loops of the followers and to the
goroutines that serve them.
-/

import Keva.Cluster.Election
import Keva.Cluster.Leader
import Keva.Cluster.Replication

namespace Keva
namespace Cluster

open Eviction (Range)
open Store (KVStore Call)
open Protocol (ReplicationSync encodeFrame readFrame errCodeNotLeader errCodeBadRequest)

/-- Where the goroutine that serves a connection stands: waiting for the first frame; in
`handleReplicationPeer` before `IsLeader`, before `Leader` and before `AddFollower`; in
`drainAcks`; at its end. -/
inductive Serving
  | accepted
  | join (nodeAddr : Addr)
  | checked (nodeAddr : Addr)
  | adding (nodeAddr : Addr) (leader : Option ℕ)
  | draining (nodeAddr : Addr) (leader : ℕ)
  | closed
  deriving DecidableEq

/-- Where a `Set` or `Delete` request stands: before its call on the store, before it looks
for the leader, before it takes an index and before it is broadcast. -/
inductive Request
  | started (call : Call)
  | stored (call : Call)
  | found (call : Call) (leader : ℕ)
  | indexed (call : Call) (leader : ℕ) (logIndex : UInt64)

/-- A node besides its elections: its store, its loop as a follower, every `Leader` that it has
created, and the requests it works on. -/
structure Process where
  db : KVStore
  loop : Loop
  leaders : List Leader
  requests : List Request

/-- The nodes, the connections between them and where the goroutine that serves each of them
stands. -/
structure Network where
  world : World
  processes : Addr → Process
  conns : List Conn
  serving : ℕ → Serving
  clock : Time
  defaultTTL : ℤ
  maxPayloadBytes : ℕ

namespace Network

/-- One step: of an election; of the loop of node `a`, of its `applySync`, or the end of its
connection; of the goroutine that serves connection `c`, or the end of its `drainAcks`; of the
clock; of the `j`-th request of node `a`; of the sweeper of its store. -/
inductive Action
  | event (event : Event)
  | follow (a : Addr)
  | apply (a : Addr) (ranges : ℕ → Range)
  | hangUp (a : Addr)
  | serve (c : ℕ)
  | leave (c : ℕ)
  | tick (t : Time)
  | set (a : Addr) (key : Key) (value : Bytes) (ttl : ℤ)
  | delete (a : Addr) (key : Key)
  | call (a : Addr) (j : ℕ) (ranges : ℕ → Range)
  | advance (a : Addr) (j : ℕ)
  | broadcast (a : Addr) (j : ℕ) (range : RangeOrder Addr ℕ) (cuts : ℕ → Option ℕ)
  | sweep (a : Addr) (i : ℕ) (range : Range) (now : Time)

/-- The step is one of an election. -/
def Action.elects : Action → Bool
  | .event _ => true
  | _ => false

/-- The same network with another process at address `a`. -/
def setProcess (s : Network) (a : Addr) (p : Process) : Network :=
  { s with processes := Function.update s.processes a p }

/-- The same network with the loop of the node at `a` somewhere else. -/
def setLoop (s : Network) (a : Addr) (loop : Loop) : Network :=
  s.setProcess a { s.processes a with loop := loop }

/-- The same network with another state of connection `c`. -/
def setConn (s : Network) (c : ℕ) (conn : Conn) : Network := { s with conns := s.conns.set c conn }

/-- The same network with the goroutine that serves connection `c` somewhere else. -/
def setServing (s : Network) (c : ℕ) (serving : Serving) : Network :=
  { s with serving := Function.update s.serving c serving }

/-- The server answers with an error and closes the connection. -/
def refuse (s : Network) (c : ℕ) (conn : Conn) (code : UInt16) (message : String) : Network :=
  let frame := encodeFrame (.errorMessage ⟨code, message.toUTF8.toList⟩)
  (s.setConn c { conn with down := conn.down ++ frame, closed := true }).setServing c .closed

/-- The callback `becomeLeader`, if the step of the election is the one that calls it. -/
def becomeLeader (s : Network) : Event → Network
  | .main a =>
    match s.world.nodes a with
    | some n =>
      if n.pc = .won then
        s.setProcess a { s.processes a with leaders := (s.processes a).leaders ++ [newLeader] }
      else s
    | none => s
  | _ => s

/-- `Node.Leader`. -/
def leader (s : Network) (a : Addr) (n : Node) : Option ℕ :=
  if n.leader then some ((s.processes a).leaders.length - 1) else none

/-- `RunFollower` of node `a`, but for the call of `applySync`. -/
def follow (s : Network) (a : Addr) (n : Node) : Option Network :=
  match (s.processes a).loop with
  | .top => some (if n.raft.role = .leader then s else s.setLoop a .follow)
  | .follow =>
    let leaderAddr := n.raft.leaderAddr
    some (s.setLoop a
      (if leaderAddr = [] ∨ leaderAddr = n.raft.nodeAddr then .top else .dial leaderAddr))
  | .dial leaderAddr =>
    let join := encodeFrame (.replicationJoin ⟨n.raft.nodeAddr⟩)
    some { s.setLoop a (.reading s.conns.length) with
      conns := s.conns ++ [⟨a, leaderAddr, join, [], false⟩] }
  | loop => do
    let c ← loop.conn
    let conn ← s.conns[c]?
    let (loop, conn) ← syncWithLeader loop conn
    return (s.setConn c conn).setLoop a loop

/-- `handleConnection` and `handleReplicationPeer` on connection `c`, and the loop of
`drainAcks`. -/
def serve (s : Network) (c : ℕ) (conn : Conn) (n : Node) : Option Network :=
  match s.serving c with
  | .accepted =>
    match readFrame s.maxPayloadBytes conn.up with
    | (.ok (.replicationJoin join), rest) =>
      some ((s.setConn c { conn with up := rest }).setServing c (.join join.nodeAddr))
    | (.error .frameTooLarge, _) => some (s.refuse c conn errCodeBadRequest "payload too large")
    | (.error (.malformedMessage e), _) =>
      some (s.refuse c conn errCodeBadRequest (Protocol.Error.malformedMessage e).text)
    | _ => none
  | .join nodeAddr =>
    if n.raft.role = .leader then some (s.setServing c (.checked nodeAddr))
    else some (s.refuse c conn errCodeNotLeader "not the leader")
  | .checked nodeAddr => some (s.setServing c (.adding nodeAddr (s.leader conn.server n)))
  | .adding nodeAddr (some l) => do
    let p := s.processes conn.server
    let leader ← p.leaders[l]?
    let p := { p with leaders := p.leaders.set l (leader.addFollower nodeAddr c) }
    return (s.setProcess conn.server p).setServing c (.draining nodeAddr l)
  -- `AddFollower` on a nil `Leader` panics.
  | .adding _ none => none
  | .draining _ _ =>
    match readFrame 0 conn.up with
    | (.ok _, rest) => some (s.setConn c { conn with up := rest })
    | _ => none
  | .closed => none

/-- One step of the whole: an event of the elections, where the callbacks of a won election make a
new `Leader`; a step of a loop of `RunFollower`; one of a goroutine that serves a connection; one
of a request; or a connection that breaks.  A step that cannot be taken is `none`. -/
def step (s : Network) : Action → Option Network
  | .event event => do
    let world ← s.world.step event
    return { s.becomeLeader event with world := world }
  | .follow a => do
    let n ← s.world.nodes a
    s.follow a n
  | .apply a ranges => do
    let p := s.processes a
    match p.loop with
    | .apply c sync =>
      let db ← applySync ranges p.db sync s.clock
      return s.setProcess a { p with db := db, loop := .ack c sync.logIndex }
    | _ => none
  | .hangUp a =>
    match (s.processes a).loop with
    | .dial _ => some (s.setLoop a .top)
    | .reading _ => some (s.setLoop a .top)
    | _ => none
  | .serve c => do
    let conn ← s.conns[c]?
    let n ← s.world.nodes conn.server
    s.serve c conn n
  | .leave c => do
    let conn ← s.conns[c]?
    match s.serving c with
    | .draining nodeAddr l =>
      let p := s.processes conn.server
      let leader ← p.leaders[l]?
      let (leader, conns) := leader.removeFollower s.conns nodeAddr
      let s := s.setProcess conn.server { p with leaders := p.leaders.set l leader }
      return { s.setServing c .closed with conns := conns }
    | _ => none
  | .tick t => if s.clock ≤ t then some { s with clock := t } else none
  | .set a key value ttl => do
    let _ ← s.world.nodes a
    let p := s.processes a
    let request := .started (setCall s.defaultTTL s.clock key value ttl)
    return s.setProcess a { p with requests := p.requests ++ [request] }
  | .delete a key => do
    let _ ← s.world.nodes a
    let p := s.processes a
    return s.setProcess a { p with requests := p.requests ++ [.started (.delete key)] }
  | .call a j ranges => do
    let p := s.processes a
    match ← p.requests[j]? with
    | .started call =>
      let (db, err) ← call.exec ranges p.db s.clock
      match err with
      -- The node returns the error, and nothing is broadcast.
      | some _ => return s.setProcess a { p with db := db, requests := p.requests.eraseIdx j }
      | none => return s.setProcess a { p with db := db, requests := p.requests.set j (.stored call) }
    | _ => none
  | .advance a j => do
    let n ← s.world.nodes a
    let p := s.processes a
    match ← p.requests[j]? with
    | .stored call =>
      match s.leader a n with
      | none => return s.setProcess a { p with requests := p.requests.eraseIdx j }
      | some l => return s.setProcess a { p with requests := p.requests.set j (.found call l) }
    | .found call l =>
      let leader ← p.leaders[l]?
      let index := leader.logIndex + 1
      return s.setProcess a { p with leaders := p.leaders.set l { leader with logIndex := index }
                                     requests := p.requests.set j (.indexed call l index) }
    | _ => none
  | .broadcast a j range cuts => do
    let p := s.processes a
    match ← p.requests[j]? with
    | .indexed call l index =>
      let leader ← p.leaders[l]?
      let frame := encodeFrame (.replicationSync (syncOf call index))
      let (leader, conns) := leader.broadcast range frame cuts s.conns
      let p := { p with leaders := p.leaders.set l leader, requests := p.requests.eraseIdx j }
      return { s.setProcess a p with conns := conns }
    | _ => none
  | .sweep a i range now => do
    let p := s.processes a
    let shard ← p.db.shards[i]?
    if now ≤ s.clock then
      return s.setProcess a { p with db := p.db.setShard i (shard.sweep range now) }
    else none

/-- `NewNode` and `Start` on every address of `nodes`, with their stores. -/
def start (peers nodes : List Addr) (dbs : Addr → KVStore) (defaultTTL : ℤ)
    (maxPayloadBytes : ℕ) (t : Time) : Network :=
  ⟨World.start peers nodes, fun a => ⟨dbs a, .top, [], []⟩, [], fun _ => .accepted, t, defaultTTL,
    maxPayloadBytes⟩

/-! ### What a step does -/

/-- Where `RunFollower` of the node at `a` stands. -/
def loop (s : Network) (a : Addr) : Loop := (s.processes a).loop

/-- The node at the server's end of each connection. -/
def servers (s : Network) : List Addr := s.conns.map Conn.server

/-- The write that the loop of node `a` finds next on its connection, if it waits for one. -/
def reads (s : Network) (a : Addr) : Option ReplicationSync :=
  match s.loop a with
  | .reading c => do
    let conn ← s.conns[c]?
    let (sync, _) ← readSync conn.down
    sync
  | _ => none

end Network

/-- A step of the loop of a node that neither dials nor reads a write: it goes on or back to the
top. -/
inductive LoopStep (n : Node) : Loop → Loop → Prop
  | back (loop : Loop) : LoopStep n loop .top
  | top (role_ne : n.raft.role ≠ .leader) : LoopStep n .top .follow
  | follow (other : n.raft.leaderAddr ≠ n.raft.nodeAddr) :
      LoopStep n .follow (.dial n.raft.leaderAddr)
  | skip (c : ℕ) : LoopStep n (.reading c) (.reading c)
  | apply (c : ℕ) (sync : ReplicationSync) : LoopStep n (.apply c sync) (.ack c sync.logIndex)
  | ack (c : ℕ) (index : UInt64) : LoopStep n (.ack c index) (.reading c)

/-- No such step ends with a write to apply. -/
theorem LoopStep.sync_eq {n : Node} {loop loop' : Loop} (h : LoopStep n loop loop') :
    loop'.sync = none := by
  cases h <;> rfl

/-- A step of a goroutine that serves a connection.  The check of the role and the reading of
`Node.leader` are two steps, between which anything may happen. -/
inductive ServeStep (n : Node) : Serving → Serving → Prop
  | close (serving : Serving) : ServeStep n serving .closed
  | read (nodeAddr : Addr) : ServeStep n .accepted (.join nodeAddr)
  | check (nodeAddr : Addr) (role_eq : n.raft.role = .leader) :
      ServeStep n (.join nodeAddr) (.checked nodeAddr)
  | lookup (nodeAddr : Addr) {l : Option ℕ} (isSome : l.isSome = n.leader) :
      ServeStep n (.checked nodeAddr) (.adding nodeAddr l)
  | add (nodeAddr : Addr) (l : ℕ) :
      ServeStep n (.adding nodeAddr (some l)) (.draining nodeAddr l)
  | drain (nodeAddr : Addr) (l : ℕ) : ServeStep n (.draining nodeAddr l) (.draining nodeAddr l)

/-- A step: of an election; of one loop; a dial; a write that is read; of a goroutine that serves
a connection; or one that touches none of these. -/
inductive NetStep (s s' : Network) : Network.Action → Prop
  | event {event : Event} (world : s.world.step event = some s'.world)
      (loop : ∀ a, s'.loop a = s.loop a) (servers : s'.servers = s.servers)
      (serving : s'.serving = s.serving) : NetStep s s' (.event event)
  | loop {action : Network.Action} {a : Addr} (elects : action.elects = false)
      (world : s'.world = s.world)
      (loop : ∀ n, s.world.nodes a = some n → LoopStep n (s.loop a) (s'.loop a))
      (sync : (s'.loop a).sync = none) (others : ∀ b, b ≠ a → s'.loop b = s.loop b)
      (servers : s'.servers = s.servers) (serving : s'.serving = s.serving) : NetStep s s' action
  | dial {a addr : Addr} (world : s'.world = s.world) (dial : s.loop a = .dial addr)
      (loop : s'.loop a = .reading s.servers.length) (others : ∀ b, b ≠ a → s'.loop b = s.loop b)
      (servers : s'.servers = s.servers ++ [addr]) (serving : s'.serving = s.serving) :
      NetStep s s' (.follow a)
  | read {a : Addr} {c : ℕ} {sync : ReplicationSync} (world : s'.world = s.world)
      (reading : s.loop a = .reading c) (reads : s.reads a = some sync)
      (loop : s'.loop a = .apply c sync) (others : ∀ b, b ≠ a → s'.loop b = s.loop b)
      (servers : s'.servers = s.servers) (serving : s'.serving = s.serving) :
      NetStep s s' (.follow a)
  | serve {c : ℕ} {a : Addr} {n : Node} (world : s'.world = s.world)
      (server : s.servers[c]? = some a) (node : s.world.nodes a = some n)
      (loop : ∀ b, s'.loop b = s.loop b) (servers : s'.servers = s.servers)
      (serve : ServeStep n (s.serving c) (s'.serving c))
      (others : ∀ d, d ≠ c → s'.serving d = s.serving d) : NetStep s s' (.serve c)
  | leave {c : ℕ} (world : s'.world = s.world) (loop : ∀ b, s'.loop b = s.loop b)
      (servers : s'.servers = s.servers) (closed : s'.serving c = .closed)
      (others : ∀ d, d ≠ c → s'.serving d = s.serving d) : NetStep s s' (.leave c)
  | quiet {action : Network.Action} (elects : action.elects = false) (world : s'.world = s.world)
      (loop : ∀ a, s'.loop a = s.loop a) (servers : s'.servers = s.servers)
      (serving : s'.serving = s.serving) : NetStep s s' action

namespace Network

variable {s s' : Network} {a : Addr} {c : ℕ} {conn conn' : Conn} {n : Node}

/-- No connection changes the node it leads to. -/
theorem servers_setConn (hc : s.conns[c]? = some conn) (hserver : conn'.server = conn.server) :
    (s.setConn c conn').servers = s.servers :=
  map_set_eq hc hserver

/-- The loop of a process that has been exchanged is the new one's. -/
theorem loop_setProcess_self (s : Network) (a : Addr) (p : Process) :
    (s.setProcess a p).loop a = p.loop := by
  show (Function.update s.processes a p a).loop = p.loop
  rw [Function.update_self]

/-- The loops of the others stay where they are. -/
theorem loop_setProcess_of_ne (s : Network) (p : Process) {b : Addr} (hb : b ≠ a) :
    (s.setProcess a p).loop b = s.loop b := by
  show (Function.update s.processes a p b).loop = s.loop b
  rw [Function.update_of_ne hb]
  rfl

/-- A change of a node that leaves its loop alone. -/
theorem loop_setProcess {p : Process} (hp : p.loop = s.loop a) (b : Addr) :
    (s.setProcess a p).loop b = s.loop b := by
  by_cases hb : b = a
  · subst hb
    exact (s.loop_setProcess_self b p).trans hp
  · exact s.loop_setProcess_of_ne p hb

/-- A step that changes one node, and not its loop. -/
theorem netStep_setProcess {p : Process} {action : Action} (hs : s.setProcess a p = s')
    (hp : p.loop = s.loop a) (helects : action.elects = false) : NetStep s s' action :=
  hs ▸ .quiet helects rfl (loop_setProcess hp) rfl rfl

/-- A step of the loop, which may have read from a connection or written to it. -/
theorem netStep_setLoop {t : Network} {loop loop' : Loop} {action : Action}
    (hs : t.setLoop a loop' = s') (helects : action.elects = false)
    (hn : s.world.nodes a = some n) (hold : s.loop a = loop)
    (hstep : LoopStep n loop loop') (hworld : t.world = s.world) (hloop : t.loop = s.loop)
    (hservers : t.servers = s.servers) (hserving : t.serving = s.serving) :
    NetStep s s' action := by
  subst hs
  refine .loop (a := a) helects hworld (fun m hm => ?_) ?_ (fun b hb => ?_) hservers hserving
  · obtain rfl := Option.some.inj (hn.symm.trans hm)
    rw [setLoop, loop_setProcess_self, hold]
    exact hstep
  · rw [setLoop, loop_setProcess_self]
    exact hstep.sync_eq
  · rw [setLoop, loop_setProcess_of_ne _ _ hb, hloop]

/-- A step inside `syncWithLeader`: a write is read, another frame is skipped, or an
acknowledgement is written.  What is on a connection changes, but not where it leads. -/
theorem netStep_sync {loop : Loop} (hn : s.world.nodes a = some n)
    (hloop : (s.processes a).loop = loop)
    (hs : (do
      let c ← loop.conn
      let conn ← s.conns[c]?
      let (loop, conn) ← syncWithLeader loop conn
      return (s.setConn c conn).setLoop a loop) = some s') : NetStep s s' (.follow a) := by
  obtain ⟨c, hconn, hs⟩ := Option.bind_eq_some_iff.1 hs
  obtain ⟨conn, hc, hs⟩ := Option.bind_eq_some_iff.1 hs
  obtain ⟨⟨loop', conn'⟩, hsync, hs⟩ := Option.bind_eq_some_iff.1 hs
  obtain rfl := Option.some.inj hs
  cases syncStep_of_syncWithLeader hsync with
  | @read d sync rest hread =>
    obtain rfl := Option.some.inj hconn
    have hreads : s.reads a = some sync := by
      simp only [reads, Network.loop, hloop, hc, hread, bind, Option.bind_some]
    exact .read rfl hloop hreads (loop_setProcess_self _ a _)
      (fun b hb => loop_setProcess_of_ne _ _ hb) (servers_setConn hc rfl) rfl
  | skip =>
    exact netStep_setLoop rfl rfl hn hloop (.skip _) rfl rfl (servers_setConn hc rfl) rfl
  | ack =>
    exact netStep_setLoop rfl rfl hn hloop (.ack _ _) rfl rfl (servers_setConn hc rfl) rfl

/-- **`RunFollower`.**  The loop looks up the leader, dials it and asks to join, or goes on in
`syncWithLeader`; all of it is about the node's own loop and one connection. -/
theorem netStep_follow (hn : s.world.nodes a = some n) (hs : s.follow a n = some s') :
    NetStep s s' (.follow a) := by
  cases hloop : (s.processes a).loop with
  | top =>
    simp only [follow, hloop, Option.some.injEq] at hs
    split_ifs at hs with hrole
    · exact hs ▸ .quiet rfl rfl (fun _ => rfl) rfl rfl
    · exact netStep_setLoop hs rfl hn hloop (.top hrole) rfl rfl rfl rfl
  | follow =>
    simp only [follow, hloop, Option.some.injEq] at hs
    split_ifs at hs with hself
    · exact netStep_setLoop hs rfl hn hloop (.back _) rfl rfl rfl rfl
    · exact netStep_setLoop hs rfl hn hloop (.follow fun heq => hself (Or.inr heq)) rfl rfl rfl rfl
  | dial addr =>
    simp only [follow, hloop, Option.some.injEq] at hs
    subst hs
    refine .dial rfl hloop ?_ (fun b hb => s.loop_setProcess_of_ne _ hb) ?_ rfl
    · rw [servers, List.length_map]
      exact s.loop_setProcess_self a _
    · exact List.map_append
  | reading c =>
    simp only [follow, hloop] at hs
    exact netStep_sync hn hloop hs
  | ack c index =>
    simp only [follow, hloop] at hs
    exact netStep_sync hn hloop hs
  | apply c sync =>
    simp only [follow, hloop] at hs
    exact netStep_sync hn hloop hs

/-- A step of a goroutine that serves a connection. -/
theorem netStep_setServing {t : Network} {serving serving' : Serving} (hc : s.conns[c]? = some conn)
    (hn : s.world.nodes conn.server = some n) (hold : s.serving c = serving)
    (hstep : ServeStep n serving serving') (hworld : t.world = s.world)
    (hloop : ∀ b, t.loop b = s.loop b) (hservers : t.servers = s.servers)
    (hserving : t.serving = s.serving) : NetStep s (t.setServing c serving') (.serve c) := by
  refine .serve (a := conn.server) hworld ?_ hn hloop hservers ?_ fun d hd => ?_
  · rw [servers, List.getElem?_map, hc]
    rfl
  · show ServeStep n (s.serving c) (Function.update t.serving c serving' c)
    rw [Function.update_self, hold]
    exact hstep
  · show Function.update t.serving c serving' d = s.serving d
    rw [Function.update_of_ne hd, hserving]

/-- **`handleReplicationPeer` and `drainAcks`,** which serve one connection; a join that gets
through adds its follower to one `Leader` of the node. -/
theorem netStep_serve (hc : s.conns[c]? = some conn) (hn : s.world.nodes conn.server = some n)
    (hs : s.serve c conn n = some s') : NetStep s s' (.serve c) := by
  have hrefuse : ∀ code message, NetStep s (s.refuse c conn code message) (.serve c) :=
    fun code message => netStep_setServing hc hn rfl (.close _) rfl (fun _ => rfl)
      (servers_setConn hc rfl) rfl
  cases hserving : s.serving c with
  | accepted =>
    simp only [serve, hserving] at hs
    split at hs
    · obtain rfl := Option.some.inj hs
      exact netStep_setServing hc hn hserving (.read _) rfl (fun _ => rfl)
        (servers_setConn hc rfl) rfl
    · exact Option.some.inj hs ▸ hrefuse _ _
    · exact Option.some.inj hs ▸ hrefuse _ _
    · cases hs
  | join nodeAddr =>
    simp only [serve, hserving] at hs
    split_ifs at hs with hrole
    · obtain rfl := Option.some.inj hs
      exact netStep_setServing hc hn hserving (.check nodeAddr hrole) rfl (fun _ => rfl) rfl rfl
    · exact Option.some.inj hs ▸ hrefuse _ _
  | checked nodeAddr =>
    simp only [serve, hserving] at hs
    obtain rfl := Option.some.inj hs
    refine netStep_setServing hc hn hserving (.lookup nodeAddr ?_) rfl (fun _ => rfl) rfl rfl
    unfold leader
    split_ifs with hlead
    · exact hlead.symm
    · exact (Bool.eq_false_of_not_eq_true hlead).symm
  | adding nodeAddr l =>
    cases l with
    | none =>
      simp only [serve, hserving] at hs
      cases hs
    | some l =>
      simp only [serve, hserving] at hs
      obtain ⟨leader, -, hs⟩ := Option.bind_eq_some_iff.1 hs
      obtain rfl := Option.some.inj hs
      exact netStep_setServing hc hn hserving (.add nodeAddr l) rfl (loop_setProcess rfl) rfl rfl
  | draining nodeAddr l =>
    simp only [serve, hserving] at hs
    split at hs
    · obtain rfl := Option.some.inj hs
      exact .quiet rfl rfl (fun _ => rfl) (servers_setConn hc rfl) rfl
    · cases hs
  | closed =>
    simp only [serve, hserving] at hs
    cases hs

/-- **These are all the steps of the network.**  What is proved about them is proved by cases on
`NetStep`, once for each kind of goroutine. -/
theorem netStep_of_step {action : Action} (hs : s.step action = some s') : NetStep s s' action := by
  cases action with
  | event event =>
    obtain ⟨w, hw, hs⟩ := Option.bind_eq_some_iff.1 hs
    obtain rfl := Option.some.inj hs
    have hloop : ∀ b, (s.becomeLeader event).loop b = s.loop b := by
      unfold becomeLeader
      split
      · split
        · split_ifs
          · exact loop_setProcess rfl
          · exact fun _ => rfl
        · exact fun _ => rfl
      · exact fun _ => rfl
    have hconns : (s.becomeLeader event).conns = s.conns ∧
        (s.becomeLeader event).serving = s.serving := by
      unfold becomeLeader
      split
      · split
        · split_ifs <;> exact ⟨rfl, rfl⟩
        · exact ⟨rfl, rfl⟩
      · exact ⟨rfl, rfl⟩
    exact .event hw hloop (congrArg (List.map Conn.server) hconns.1) hconns.2
  | follow a =>
    obtain ⟨n, hn, hs⟩ := Option.bind_eq_some_iff.1 hs
    exact netStep_follow hn hs
  | apply a ranges =>
    simp only [step] at hs
    split at hs
    · rename_i c sync hloop
      obtain ⟨db, -, hs⟩ := Option.bind_eq_some_iff.1 hs
      obtain rfl := Option.some.inj hs
      refine .loop (a := a) rfl rfl (fun n hn => ?_) ?_ (fun b hb => s.loop_setProcess_of_ne _ hb)
        rfl rfl
      · rw [loop_setProcess_self, loop, hloop]
        exact .apply c sync
      · rw [loop_setProcess_self]
        rfl
    · cases hs
  | hangUp a =>
    have hback : NetStep s (s.setLoop a .top) (.hangUp a) := by
      refine .loop (a := a) rfl rfl (fun n hn => ?_) ?_ (fun b hb => s.loop_setProcess_of_ne _ hb)
        rfl rfl
      · rw [setLoop, loop_setProcess_self]
        exact .back _
      · rw [setLoop, loop_setProcess_self]
        rfl
    simp only [step] at hs
    split at hs
    · exact Option.some.inj hs ▸ hback
    · exact Option.some.inj hs ▸ hback
    · cases hs
  | serve c =>
    obtain ⟨conn, hc, hs⟩ := Option.bind_eq_some_iff.1 hs
    obtain ⟨n, hn, hs⟩ := Option.bind_eq_some_iff.1 hs
    exact netStep_serve hc hn hs
  | leave c =>
    obtain ⟨conn, hc, hs⟩ := Option.bind_eq_some_iff.1 hs
    split at hs
    · rename_i nodeAddr l _
      obtain ⟨leader, -, hs⟩ := Option.bind_eq_some_iff.1 hs
      obtain rfl := Option.some.inj hs
      exact .leave rfl (loop_setProcess rfl) (Leader.servers_removeFollower leader s.conns nodeAddr)
        (Function.update_self c _ s.serving) fun d hd => Function.update_of_ne hd _ s.serving
    · cases hs
  | tick t =>
    simp only [step] at hs
    split_ifs at hs
    exact Option.some.inj hs ▸ .quiet rfl rfl (fun _ => rfl) rfl rfl
  | set a key value ttl =>
    obtain ⟨n, -, hs⟩ := Option.bind_eq_some_iff.1 hs
    exact netStep_setProcess (Option.some.inj hs) rfl rfl
  | delete a key =>
    obtain ⟨n, -, hs⟩ := Option.bind_eq_some_iff.1 hs
    exact netStep_setProcess (Option.some.inj hs) rfl rfl
  | call a j ranges =>
    obtain ⟨request, -, hs⟩ := Option.bind_eq_some_iff.1 hs
    cases request with
    | started call =>
      obtain ⟨⟨db, err⟩, -, hs⟩ := Option.bind_eq_some_iff.1 hs
      cases err <;> exact netStep_setProcess (Option.some.inj hs) rfl rfl
    | _ => cases hs
  | advance a j =>
    obtain ⟨n, -, hs⟩ := Option.bind_eq_some_iff.1 hs
    obtain ⟨request, -, hs⟩ := Option.bind_eq_some_iff.1 hs
    cases request with
    | stored call =>
      dsimp only at hs
      split at hs <;> exact netStep_setProcess (Option.some.inj hs) rfl rfl
    | found call l =>
      obtain ⟨leader, -, hs⟩ := Option.bind_eq_some_iff.1 hs
      exact netStep_setProcess (Option.some.inj hs) rfl rfl
    | _ => cases hs
  | broadcast a j range cuts =>
    obtain ⟨request, -, hs⟩ := Option.bind_eq_some_iff.1 hs
    cases request with
    | indexed call l index =>
      obtain ⟨leader, -, hs⟩ := Option.bind_eq_some_iff.1 hs
      obtain rfl := Option.some.inj hs
      exact .quiet rfl rfl (loop_setProcess rfl) (leader.servers_broadcast range _ cuts s.conns) rfl
    | _ => cases hs
  | sweep a i range now =>
    obtain ⟨shard, -, hs⟩ := Option.bind_eq_some_iff.1 hs
    split_ifs at hs
    exact netStep_setProcess (Option.some.inj hs) rfl rfl

end Network

end Cluster
end Keva
