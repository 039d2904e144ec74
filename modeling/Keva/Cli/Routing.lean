/-
# Where the client's commands go

The client (`cli/cli.go`) beside a cluster that goes on electing (`cluster/raft.go`): it asks the
nodes for a topology (`GetTopology`, `cluster/node.go`), each of which answers what it believes at
that moment, and any call may fail.

A node believes in a leader only if it has heard from it or is that leader itself, so the address
it names has won a term (`World.named_of_reach`).  Hence no write is ever sent to a node that has
won no election, however old the topology is by which the client goes, and every command goes to a
peer (`writes_to_winners`).  And no command keeps the client for ever: it sends its message eight
times at most, and asks for a bounded number of topologies (`command_ends`).
-/

import Keva.Cli.Client
import Keva.Cluster.Following
import Keva.Cluster.Reign

namespace Keva
namespace Cluster

open Protocol (Heartbeat)

/-! ### Whom a node takes for the leader -/

variable {n n' : Node}

/-- A heartbeat is refused, or its sender is taken for the leader. -/
theorem leaderAddr_handleHeartbeat (r : RaftState) (hb : Heartbeat) :
    (r.handleHeartbeat hb).1.leaderAddr = r.leaderAddr ∨
      (r.handleHeartbeat hb).1.leaderAddr = hb.leaderID := by
  unfold RaftState.handleHeartbeat
  split_ifs
  · exact Or.inl rfl
  · exact Or.inr rfl
  · exact Or.inr rfl

/-- **A node comes to believe in a leader** by a heartbeat, or by winning itself. -/
theorem leaderAddr_step {event : Node.Event} (hs : n.step event = some n') :
    n'.raft.leaderAddr = n.raft.leaderAddr ∨
      (∃ hb, event = .heartbeat hb ∧ n'.raft.leaderAddr = hb.leaderID) ∨
      n'.raft.leaderAddr = n.raft.nodeAddr ∧ n'.won ≠ [] := by
  cases nodeStep_of_step hs with
  | main hm =>
    cases hm with
    | win _ _ hfin =>
      obtain ⟨-, -, rfl⟩ := finishElection_won hfin
      exact Or.inr (Or.inr ⟨rfl, List.cons_ne_nil _ _⟩)
    | lose _ _ hfin hlost => exact Or.inl (leaderAddr_finishElection hfin hlost)
    | move | turn | elect | onLeader => exact Or.inl rfl
  | heartbeat hb =>
    exact (leaderAddr_handleHeartbeat n.raft hb).imp_right fun h => Or.inl ⟨hb, rfl, h⟩
  | voteRequest req => exact Or.inl (leaderAddr_handleVoteRequest n.raft req)
  | reply => exact Or.inl (leaderAddr_stepDown n.raft _)
  | heard | poll | onFollower | signal => exact Or.inl rfl

/-- No step changes the address of a node.  `RaftState.nodeAddr` is set by `NewRaftState` and
only read after that. -/
theorem nodeAddr_step {event : Node.Event} (hs : n.step event = some n') :
    n'.raft.nodeAddr = n.raft.nodeAddr := by
  cases nodeStep_of_step hs with
  | main hm =>
    cases hm with
    | win _ _ hfin =>
      obtain ⟨-, -, rfl⟩ := finishElection_won hfin
      rfl
    | lose _ _ hfin hlost => exact (evolves_finishElection hfin hlost).nodeAddr_eq
    | move | turn | elect | onLeader => rfl
  | heartbeat hb => exact (evolves_handleHeartbeat n.raft hb).nodeAddr_eq
  | voteRequest req => exact (evolves_handleVoteRequest n.raft req).1.nodeAddr_eq
  | reply => exact (evolves_stepDown n.raft _).nodeAddr_eq
  | heard | poll | onFollower | signal => rfl

namespace World

variable {s s' : World} {event : Event} {peers nodes : List Addr}

/-- Every node that names a leader names one that has won a term. -/
def Named (s : World) : Prop :=
  ∀ a n, s.nodes a = some n → n.raft.leaderAddr = [] ∨ ∃ t, Won s.nodes t n.raft.leaderAddr

/-- **A step of the cluster keeps belief in winners:** a heartbeat that names a leader was sent by
one that had won, and a node that names itself has just won. -/
theorem named_step {b : Broadcasts} (h : Broadcasts.Inv peers b) (hnamed : b.world.Named)
    (hs : b.world.step event = some s') : s'.Named := by
  intro a n' hn'
  obtain ⟨n, hn, hruns⟩ := before_of_becomes (hn' ▸ becomes_nodes hs a)
  have hwon := (steers_step h.steers hs).2
  -- Within one step of the cluster a node may take two of its own.
  have hinv : n'.raft.nodeAddr = a ∧ Steers n' ∧ (n'.raft.leaderAddr = [] ∨
      (∃ t, Won b.world.nodes t n'.raft.leaderAddr) ∨ n'.raft.leaderAddr = a ∧ n'.won ≠ []) := by
    refine hruns.invariant (P := fun m => m.raft.nodeAddr = a ∧ Steers m ∧ (m.raft.leaderAddr = [] ∨
      (∃ t, Won b.world.nodes t m.raft.leaderAddr) ∨ m.raft.leaderAddr = a ∧ m.won ≠ []))
      ⟨(h.cluster.node a n hn).nodeAddr_eq, h.steers a n hn, (hnamed a n hn).imp_right Or.inl⟩ ?_
    rintro m ev m' ⟨haddr, hsteers, hm⟩ hcause hstep
    obtain ⟨hsteers', hkeeps⟩ := hsteers.step hstep
    refine ⟨(nodeAddr_step hstep).trans haddr, hsteers', ?_⟩
    rcases leaderAddr_step hstep with heq | ⟨hb, rfl, heq⟩ | ⟨heq, hne⟩
    · rw [heq]
      refine hm.imp_right (Or.imp_right fun ⟨hself, hne⟩ => ⟨hself, ?_⟩)
      obtain ⟨t, ht⟩ := List.exists_mem_of_ne_nil _ hne
      exact List.ne_nil_of_mem (hkeeps t ht)
    · cases hcause with
      | heartbeat hi =>
        have hsent := (h.beats _ (List.mem_of_getElem? hi)).1
        exact Or.inr (Or.inl ⟨hb.term, heq ▸ h.sent hb hsent⟩)
    · exact Or.inr (Or.inr ⟨heq.trans haddr, hne⟩)
  obtain ⟨-, -, hnone | ⟨t, ht⟩ | ⟨hself, hne⟩⟩ := hinv
  · exact Or.inl hnone
  · exact Or.inr ⟨t, hwon t _ ht⟩
  · obtain ⟨t, ht⟩ := List.exists_mem_of_ne_nil _ hne
    exact Or.inr ⟨t, n', by rw [hself, hn'], ht⟩

/-- **The leader a node names has won a term.**  By induction over the run of the cluster, with
the ledgers of the heartbeats: what a node names it was sent in a heartbeat, or it is the node
itself, which has won. -/
theorem named_of_reach (hnd : peers.Nodup) (hnodes : ∀ a ∈ nodes, a ∈ peers ∧ a ≠ [])
    (hs : Reach step NoOverflow (start peers nodes) s) : s.Named := by
  induction hs with
  | refl =>
    intro a n hn
    obtain ⟨-, rfl⟩ := node_of_start hn
    exact Or.inl rfl
  | tail event hs hover hstep ih =>
    obtain ⟨b, hb, rfl⟩ := exists_broadcasts hs
    have hinv : Broadcasts.Inv peers b := hb.invariant (P := Broadcasts.Inv peers)
      (Broadcasts.inv_start hnodes) fun _ _ _ h hover hstep => h.step hnd hover hstep
    exact named_step hinv ih hstep

end World

end Cluster

namespace Cli

open Cluster (Addr RaftState World Won)
open Protocol (Message NodeInfo TopologyResponse)

/-! ### A topology through the wire -/

/-- The nodes of a topology take at most 515 bytes each. -/
theorem length_nodes_le {nodes : List NodeInfo}
    (h : ∀ i ∈ nodes, i.address.length ≤ 255 ∧ i.nodeID.length ≤ 255) :
    (nodes.flatMap NodeInfo.encode).length ≤ 515 * nodes.length := by
  induction nodes with
  | nil => exact le_rfl
  | cons i nodes ih =>
    obtain ⟨haddr, hid⟩ := h i List.mem_cons_self
    have hrest := ih fun j hj => h j (List.mem_cons_of_mem _ hj)
    rw [List.flatMap_cons, List.length_append, NodeInfo.length_encode, Protocol.length_encodeString,
      Protocol.length_encodeString, List.length_cons]
    omega

/-- **What a node answers is what the client reads,** where addresses and their number are of a
sensible size. -/
theorem fetchTopology_eq {r : RaftState} (hcount : r.peers.length ≤ 65535)
    (hpeers : ∀ a ∈ r.peers, a.length ≤ 255) (hleader : r.leaderAddr.length ≤ 255) :
    fetchTopology r = some (Server.getTopology r) := by
  have hnodes : ∀ i ∈ (Server.getTopology r).nodes, i.address.length ≤ 255 ∧ i.nodeID.length ≤ 255 := by
    intro i hi
    obtain ⟨a, ha, rfl⟩ := List.mem_map.1 hi
    exact ⟨hpeers a ha, hpeers a ha⟩
  have hlength : (Server.getTopology r).nodes.length = r.peers.length := List.length_map _
  have hfits : (Message.topologyResponse (Server.getTopology r)).Fits := by
    refine ⟨hleader.trans (by decide), by rw [hlength]; exact hcount, fun i hi => ?_⟩
    exact ⟨(hnodes i hi).1.trans (by decide), (hnodes i hi).2.trans (by decide)⟩
  have hshort : (Protocol.encodeMessage (.topologyResponse (Server.getTopology r))).length < 2 ^ 32 := by
    have hle := length_nodes_le hnodes
    change (_ :: (Protocol.encodeString r.leaderAddr ++ Bytes.be 2 _ ++
      (Server.getTopology r).nodes.flatMap NodeInfo.encode)).length < 2 ^ 32
    rw [List.length_cons, List.length_append, List.length_append, Protocol.length_encodeString,
      Bytes.length_be]
    omega
  have hread := Protocol.readFrame_encodeFrame hfits trivial hshort []
  rw [List.append_nil] at hread
  rw [fetchTopology, hread]

/-! ### Client and cluster -/

/-- The client and the cluster, with two ledgers that no step reads: the messages that
`sendToNode` was called with, and how much the current command has cost. -/
structure Routing where
  world : World
  client : Client
  pc : Pc
  sent : List (Addr × Message)
  sends : ℕ
  steps : ℕ

namespace Routing

/-- A step of the cluster, or one of the client.  They take turns in any order, and the cluster
does not know of the client. -/
inductive Action
  | cluster (event : Cluster.Event)
  | client (a : Cli.Action)

/-- A topology that is fetched is the answer of the node that is asked. -/
def Offers (s : Routing) : Cli.Action → Prop
  | .fetch (some topo) =>
    match s.pc with
    | .connecting _ _ (addr :: _) =>
      (s.world.nodes addr).bind (fun n => fetchTopology n.raft) = some topo
    | _ => False
  | _ => True

instance (s : Routing) : (a : Cli.Action) → Decidable (s.Offers a)
  | .fetch (some topo) =>
    match h : s.pc with
    | .connecting _ _ (addr :: _) =>
      decidable_of_iff ((s.world.nodes addr).bind (fun n => fetchTopology n.raft) = some topo)
        (by rw [Offers, h])
    | .connecting _ _ [] | .prompt _ | .picking _ _ | .sending _ _ _ | .exited =>
      .isFalse (by rw [Offers, h]; exact id)
  | .fetch none | .command _ | .pick _ | .wake | .send _ => .isTrue trivial

/-- The message that a step hands to `sendToNode`. -/
def message : Pc → Cli.Action → List (Addr × Message)
  | .sending msg _ target, .send _ => [(target, msg)]
  | _, _ => []

/-- The cluster goes on as it likes, and the client takes a step if what it waits for can happen:
the topology that it is sent is what the node it asked believes at that moment. -/
def step (s : Routing) : Action → Option Routing
  | .cluster event => do
    let world ← s.world.step event
    return { s with world := world }
  | .client a =>
    if s.Offers a then do
      let (client, pc) ← Cli.step s.client s.pc a
      return { s with client := client, pc := pc, sent := s.sent ++ message s.pc a,
                      sends := a.sends s.sends, steps := a.steps s.steps }
    else none

/-- `main` waits for a leader. -/
def start (peers nodes : List Addr) (seed : Addr) : Routing :=
  ⟨World.start peers nodes, newClient seed, .connecting .main 0 [seed], [], 0, 0⟩

/-- As in the cluster. -/
def NoOverflow (s : Routing) : Action → Prop
  | .cluster event => s.world.NoOverflow event
  | .client _ => True

instance (s : Routing) : (a : Action) → Decidable (s.NoOverflow a)
  | .cluster event => inferInstanceAs (Decidable (s.world.NoOverflow event))
  | .client _ => .isTrue trivial

/-- Node `a` has won a term, at any time so far; it need not lead any more. -/
def HasWon (s : Routing) (a : Addr) : Prop := ∃ t, Won s.world.nodes t a

variable {peers nodes : List Addr} {seed : Addr} {s s' : Routing} {a : Action}

/-- The cluster is one that may come about, and the client knows what is so. -/
structure Inv (peers nodes : List Addr) (seed : Addr) (s : Routing) : Prop where
  world : Reach World.step World.NoOverflow (World.start peers nodes) s.world
  knows : s.client.Knows seed peers s.HasWon
  routed : s.pc.Routed peers s.HasWon
  sent : ∀ x ∈ s.sent, x.1 ∈ peers ∧ (isWrite x.2 → s.HasWon x.1)
  within : s.pc.Within (peers.length + 1) s.sends s.steps

/-- Peers with distinct addresses, and the nodes that run are among them.  The bounds are those
of the length fields of a topology, so that it comes through the codec as it was sent. -/
structure Sensible (peers nodes : List Addr) : Prop where
  nodup : peers.Nodup
  count : peers.length ≤ 65535
  addr : ∀ a ∈ peers, a ≠ [] ∧ a.length ≤ 255
  listed : ∀ a ∈ nodes, a ∈ peers

/-- The nodes that run are peers with an address. -/
theorem Sensible.running (h : Sensible peers nodes) : ∀ a ∈ nodes, a ∈ peers ∧ a ≠ [] :=
  fun a ha => ⟨h.listed a ha, (h.addr a (h.listed a ha)).1⟩

/-- What holds in a cluster that started so. -/
theorem Inv.cluster (h : Inv peers nodes seed s) (hp : Sensible peers nodes) :
    Cluster.Inv peers s.world.nodes :=
  h.world.invariant (P := fun w => Cluster.Inv peers w.nodes) (World.inv_start hp.running)
    fun _ _ _ hw hover hstep => World.inv_step hw hp.nodup hover hstep

/-- Whoever has won is a peer. -/
theorem Inv.mem_peers (h : Inv peers nodes seed s) (hp : Sensible peers nodes) {b : Addr}
    (hb : s.HasWon b) : b ∈ peers := by
  obtain ⟨t, n, hn, -⟩ := hb
  exact ((h.cluster hp).listed b n hn).1

/-- **The topologies a client is sent are genuine:** their nodes are the peers, and the leader
they name, if any, has won a term. -/
theorem Inv.genuine (h : Inv peers nodes seed s) (hp : Sensible peers nodes) {topo : TopologyResponse}
    (hoffers : s.Offers (.fetch (some topo))) : Genuine peers s.HasWon topo := by
  unfold Offers at hoffers
  dsimp only at hoffers
  split at hoffers
  · obtain ⟨n, hn, htopo⟩ := Option.bind_eq_some_iff.1 hoffers
    have hpeers := ((h.cluster hp).node _ n hn).peers_eq
    have hnamed : n.raft.leaderAddr = [] ∨ s.HasWon n.raft.leaderAddr :=
      World.named_of_reach hp.nodup hp.running h.world _ n hn
    have hleader : n.raft.leaderAddr.length ≤ 255 := by
      rcases hnamed with hnone | hwon
      · rw [hnone]
        exact Nat.zero_le _
      · exact (hp.addr _ (h.mem_peers hp hwon)).2
    rw [fetchTopology_eq (by rw [hpeers]; exact hp.count)
      (by rw [hpeers]; exact fun a ha => (hp.addr a ha).2) hleader] at htopo
    obtain rfl := Option.some.inj htopo
    refine ⟨hnamed, fun i hi => ?_⟩
    obtain ⟨a, ha, rfl⟩ := List.mem_map.1 hi
    exact hpeers ▸ ha
  · exact hoffers.elim

/-- What the client sends next goes to a peer, and if it is a write, to one that has won. -/
theorem mem_message {pc : Pc} {c : Cli.Action} {won : Addr → Prop} (hpc : pc.Routed peers won)
    {x : Addr × Message} (hx : x ∈ message pc c) : x.1 ∈ peers ∧ (isWrite x.2 → won x.1) := by
  unfold message at hx
  split at hx
  · obtain rfl := List.mem_singleton.1 hx
    exact hpc
  · exact absurd hx List.not_mem_nil

/-- **Every step of client or cluster keeps the invariant.**  A step of the cluster only adds
winners, and one of the client is among those of `Step`. -/
theorem Inv.step (h : Inv peers nodes seed s) (hp : Sensible peers nodes) (hover : s.NoOverflow a)
    (hs : s.step a = some s') : Inv peers nodes seed s' := by
  cases a with
  | cluster event =>
    obtain ⟨w, hw, hs⟩ := Option.bind_eq_some_iff.1 hs
    obtain rfl := Option.some.inj hs
    -- Terms that were won stay won, so what the client knows stays so.
    obtain ⟨b, hb, hworld⟩ := World.exists_broadcasts h.world
    have hinv : Cluster.Broadcasts.Inv peers b := hb.invariant (P := Cluster.Broadcasts.Inv peers)
      (Cluster.Broadcasts.inv_start hp.running) fun _ _ _ h hover hstep => h.step hp.nodup hover hstep
    have hwon : ∀ c, s.HasWon c → ∃ t, Won w.nodes t c := by
      rintro c ⟨t, ht⟩
      exact ⟨t, (World.steers_step (hworld ▸ hinv.steers) hw).2 t c ht⟩
    exact ⟨.tail event h.world hover hw, h.knows.mono hwon, h.routed.mono hwon,
      fun x hx => ⟨(h.sent x hx).1, fun hwrite => hwon _ ((h.sent x hx).2 hwrite)⟩, h.within⟩
  | client c =>
    unfold Routing.step at hs
    dsimp only at hs
    split_ifs at hs with hoffers
    obtain ⟨⟨client, pc⟩, hc, hs⟩ := Option.bind_eq_some_iff.1 hs
    obtain rfl := Option.some.inj hs
    have hstep := step_of_step hc
    obtain ⟨hknows, hrouted⟩ := hstep.knows h.knows h.routed (fun b hb => h.mem_peers hp hb)
      (fun b hb => (hp.addr b hb).1) fun topo htopo => h.genuine hp (htopo ▸ hoffers)
    refine ⟨h.world, hknows, hrouted, fun x hx => ?_, hstep.within h.within h.knows.length_le⟩
    rcases List.mem_append.1 hx with hx | hx
    · exact h.sent x hx
    · exact mem_message h.routed hx

/-- At the start nobody has won and the client knows the seed only. -/
theorem inv_start (peers nodes : List Addr) (seed : Addr) :
    Inv peers nodes seed (start peers nodes seed) := by
  refine ⟨.refl, knows_newClient _ _ _, trivial, fun _ hx => absurd hx List.not_mem_nil, ?_⟩
  exact within_connecting (c := newClient seed) (by decide) le_rfl (Nat.zero_le _) (by simp [newClient])

/-- The invariant holds however the elections and the client's calls fall together. -/
theorem inv_of_reach (hp : Sensible peers nodes)
    (hs : Reach step NoOverflow (start peers nodes seed) s) : Inv peers nodes seed s :=
  hs.invariant (P := Inv peers nodes seed) (inv_start peers nodes seed)
    fun _ _ _ h hover hstep => h.step hp hover hstep

/-- **Writes go to winners.**  A client starts with any address, beside a cluster whose nodes start,
stand, vote and lead in any order; its calls may fail and what it was told may be out of date.  Every
write it sends goes to a node that has won an election, and every read to a peer.  It never takes
the leader for a follower, and knows no address but the seed and those of the peers, none of them
twice. -/
theorem writes_to_winners (hp : Sensible peers nodes)
    (hs : Reach step NoOverflow (start peers nodes seed) s) :
    (∀ x ∈ s.sent, x.1 ∈ peers ∧ (isWrite x.2 → ∃ t, Won s.world.nodes t x.1)) ∧
      s.client.leaderAddr ∉ s.client.followers ∧ s.client.knownAddrs.Nodup ∧
      ∀ b ∈ s.client.knownAddrs, b = seed ∨ b ∈ peers := by
  have h := inv_of_reach hp hs
  exact ⟨h.sent, fun hmem => (h.knows.followers _ hmem).2 rfl, h.knows.nodup, h.knows.known⟩

/-- What a node of three answers before there is a leader, and what the first one answers after it
has won. -/
def threeNodes (leaderAddr : Addr) : TopologyResponse :=
  ⟨leaderAddr, [⟨[1], if [1] = leaderAddr then 1 else 0, [1]⟩,
    ⟨[2], if [2] = leaderAddr then 1 else 0, [2]⟩, ⟨[3], if [3] = leaderAddr then 1 else 0, [3]⟩]⟩

/-- Three peers that all run. -/
theorem sensible_three : Sensible [[1], [2], [3]] [[1], [2], [3]] :=
  ⟨by decide, by decide, by decide, by decide⟩

/-- The client asks the second node, which knows of no leader yet, and then the first one, which has
won.  The write it sends there fails the first time. -/
def askedTooEarly : List Action :=
  [.client (.fetch (some (threeNodes []))), .client .wake] ++
    World.firstElection.map .cluster ++
    [.client (.fetch none), .client (.fetch (some (threeNodes [1]))),
      .client (.command (.setRequest ⟨[7], [8], 0⟩)), .client (.pick 0), .client (.send none),
      .client (.fetch (some (threeNodes []))), .client (.fetch (some (threeNodes [1]))),
      .client (.pick 0), .client (.send (some (.setResponse ⟨true, []⟩)))]

/-- The client asks before there is a leader, asks again, and sends its write; the connection
breaks and the write is sent once more.  Both times it goes to the node that has won. -/
theorem writes_to_winners_askedTooEarly :
    ∃ s ∈ runAll step NoOverflow (start [[1], [2], [3]] [[1], [2], [3]] [2]) askedTooEarly,
      s.sent = [([1], .setRequest ⟨[7], [8], 0⟩), ([1], .setRequest ⟨[7], [8], 0⟩)] ∧
        s.client.knownAddrs = [[2], [1], [3]] ∧ ∃ t, Won s.world.nodes t [1] := by
  obtain ⟨s, hs, hsent, hknown⟩ :
      ∃ s ∈ runAll step NoOverflow (start [[1], [2], [3]] [[1], [2], [3]] [2]) askedTooEarly,
        s.sent = [([1], .setRequest ⟨[7], [8], 0⟩), ([1], .setRequest ⟨[7], [8], 0⟩)] ∧
          s.client.knownAddrs = [[2], [1], [3]] := by
    decide +kernel
  have hwon := (writes_to_winners sensible_three (reach_of_runAll hs)).1
  exact ⟨s, hs, hsent, hknown,
    (hwon _ (by rw [hsent]; exact List.mem_cons_self)).2 rfl⟩

/-- A step that waits for nobody can be taken, and is counted. -/
theorem offers_of_unaided (s : Routing) {c : Cli.Action} (h : c.Unaided) :
    s.Offers c ∧ c.steps s.steps = s.steps + 1 := by
  cases c with
  | command => exact h.elim
  | fetch topo =>
    cases topo with
    | none => exact ⟨trivial, rfl⟩
    | some topo => exact h.elim
  | pick | wake | send => exact ⟨trivial, rfl⟩

/-- **Every command comes to an end.**  Whatever the cluster does and whichever calls fail, a command
is sent eight times at most, and after a bounded number of its own steps the client is back at the
prompt: until then it can always make another one. -/
theorem command_ends (hp : Sensible peers nodes)
    (hs : Reach step NoOverflow (start peers nodes seed) s) :
    s.sends ≤ 8 ∧ s.steps ≤ 8 * (2 + 15 * (peers.length + 2)) + 1 ∧
      ((∃ result, s.pc = .prompt result) ∨ s.pc = .exited ∨
        ∃ a s', s.step (.client a) = some s' ∧ s'.steps = s.steps + 1) := by
  obtain ⟨hsends, hsteps⟩ := (inv_of_reach hp hs).within.bounds
  refine ⟨hsends, hsteps, ?_⟩
  rcases exists_step s.client s.pc with hprompt | hexited | ⟨a, ⟨client, pc⟩, hstep, hunaided⟩
  · exact Or.inl hprompt
  · exact Or.inr (Or.inl hexited)
  · obtain ⟨hoffers, hcount⟩ := offers_of_unaided s hunaided
    refine Or.inr (Or.inr ⟨a, _, by rw [step, if_pos hoffers, hstep]; rfl, hcount⟩)

/-- In the same run two messages are sent, in six steps, where the bound for three peers is 617. -/
theorem command_ends_askedTooEarly :
    ∃ s ∈ runAll step NoOverflow (start [[1], [2], [3]] [[1], [2], [3]] [2]) askedTooEarly,
      s.sends = 2 ∧ s.steps = 6 ∧ s.steps ≤ 8 * (2 + 15 * (3 + 2)) + 1 := by
  obtain ⟨s, hs, hsends, hsteps⟩ :
      ∃ s ∈ runAll step NoOverflow (start [[1], [2], [3]] [[1], [2], [3]] [2]) askedTooEarly,
        s.sends = 2 ∧ s.steps = 6 := by
    decide +kernel
  exact ⟨s, hs, hsends, hsteps, (command_ends sensible_three (reach_of_runAll hs)).2.1⟩

end Routing

end Cli

end Keva
