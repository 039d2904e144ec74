/-
# Votes and restarts

Nothing of a `RaftState` is on disk: a node that restarts goes through `NewRaftState`
(`cluster/raft.go`), in term 0 and with its vote to give again.  Here any node of a cluster
may crash at any moment and restart.  Its connections are gone, but what it has written to
them may still be read: the heartbeats on their way stay there, and the vote requests
become `strays`.

A node keeps to one vote per term from one restart to the next
(`one_vote_between_restarts`), and not across them (`restart_votes_twice`).

`past` is read by no step: the votes a node has given in its earlier lives, the last one
first.
-/

import Keva.Cluster.ElectionSafety

namespace Keva
namespace Cluster

open Protocol (VoteRequest VoteResponse Heartbeat)

variable {peers : List Addr} {a : Addr} {n n' : Node}

/-! ### One node -/

/-- No term overflows, and a vote request names its candidate. -/
def Node.Regular (n : Node) : Node.Event → Prop
  | .main => n.pc = .candidate → n.raft.currentTerm ≠ -1
  | .voteRequest req => req.candidateID ≠ []
  | _ => True

/-- **Every step of a node,** whatever it is sent, and whoever sent it: requests of nodes that
have crashed since are among what it is sent. -/
theorem NodeInv.step (h : NodeInv peers a n) (ha : a ≠ []) {event : Node.Event}
    (hok : n.Regular event) (hs : n.step event = some n') : NodeInv peers a n' := by
  cases nodeStep_of_step hs with
  | main hm => exact h.main ha hok hm
  | heard _ _ _ hleads => exact h.evolve (.of_eq rfl rfl rfl rfl id) rfl rfl rfl fun _ => hleads
  | heartbeat hb =>
    exact h.evolve (evolves_handleHeartbeat n.raft hb) rfl rfl rfl fun _ hleads => hleads
  | voteRequest req => exact (h.handleVoteRequest req hok).1
  | poll _ hpoll => exact h.setPoll hpoll _
  | @reply e j el p resp hpoll =>
    have hdown : NodeInv peers a { n with raft := n.raft.stepDown resp.term } :=
      h.evolve (evolves_stepDown n.raft resp.term) rfl rfl rfl fun _ hleads => hleads
    exact hdown.setPoll hpoll _
  | onFollower | signal =>
    exact h.evolve (.of_eq rfl rfl rfl rfl id) rfl rfl rfl fun _ hleads => hleads

/-- The vote requests a node has written and that may not have been read. -/
def Node.requests (n : Node) : List (Addr × VoteRequest) :=
  n.elections.flatMap fun el => (el.polls.filter fun x => x.2 = .sent ∨ x.2 = .abandoned).map
    fun x => (x.1, ⟨el.term, n.raft.nodeAddr, 0⟩)

/-! ### All nodes -/

/-- A cluster whose nodes restart: the vote requests of nodes that have crashed since, and for
each node the votes it gave before each of its crashes. -/
structure Restarts where
  world : World
  strays : List (Addr × VoteRequest)
  past : Addr → List (List (UInt64 × Addr))

namespace Restarts

/-- A step of the cluster; node `a` crashes and restarts; a peer handles a vote request of a
node that has crashed since. -/
inductive Action
  | event (event : Event)
  | restart (a : Addr)
  | stray (i : ℕ)

/-- A node that restarts has the state of a new one: nothing of `RaftState` is on disk.  The votes
it has given so far are put down in `past`, and the requests that it has sent are still on their
way. -/
def step (s : Restarts) : Action → Option Restarts
  | .event event => do
    let world ← s.world.step event
    return { s with world := world }
  | .restart a => do
    let n ← s.world.nodes a
    return { world := s.world.set a (Node.start a n.raft.peers)
             strays := s.strays ++ n.requests
             past := Function.update s.past a (n.ballots :: s.past a) }
  | .stray i => do
    let (p, req) ← s.strays[i]?
    let n ← s.world.nodes p
    return { s with world := s.world.set p (n.handleVoteRequest req).1
                    strays := s.strays.eraseIdx i }

/-- No node has restarted. -/
def start (peers nodes : List Addr) : Restarts := ⟨World.start peers nodes, [], fun _ => []⟩

/-- As in a cluster without restarts. -/
def NoOverflow (s : Restarts) : Action → Prop
  | .event event => s.world.NoOverflow event
  | _ => True

instance (s : Restarts) (action : Action) : Decidable (s.NoOverflow action) := by
  unfold NoOverflow
  cases action <;> infer_instance

/-- At most one vote per term, over whatever time `ballots` covers. -/
def OneVote (ballots : List (UInt64 × Addr)) : Prop :=
  ∀ b ∈ ballots, ∀ b' ∈ ballots, b.1 = b'.1 → b.2 = b'.2

/-- Between two restarts a node is an ordinary node, and what went before had one vote per term. -/
structure Inv (peers : List Addr) (s : Restarts) : Prop where
  node : ∀ a n, s.world.nodes a = some n → NodeInv peers a n ∧ a ≠ []
  strays : ∀ x ∈ s.strays, x.2.candidateID ≠ []
  past : ∀ a, ∀ ballots ∈ s.past a, OneVote ballots

variable {s s' : Restarts}

/-- A change of one node. -/
theorem Inv.update (h : Inv peers s) (ha : a ≠ []) (hn : NodeInv peers a n) (b : Addr) (m : Node)
    (hm : Function.update s.world.nodes a (some n) b = some m) : NodeInv peers b m ∧ b ≠ [] := by
  rcases World.node_of_update hm with ⟨rfl, rfl⟩ | hm
  · exact ⟨hn, ha⟩
  · exact h.node b m hm

/-- **Every step,** restarts included: a node that restarts has given no vote yet, and what it
gave before is put away. -/
theorem Inv.step (h : Inv peers s) {action : Action} (hover : s.NoOverflow action)
    (hs : s.step action = some s') : Inv peers s' := by
  cases action with
  | event event =>
    obtain ⟨w, hw, hs⟩ := Option.bind_eq_some_iff.1 hs
    obtain rfl := Option.some.inj hs
    refine ⟨fun a n' hn' => ?_, h.strays, h.past⟩
    obtain ⟨n, hn, hruns⟩ := World.before_of_becomes (hn' ▸ World.becomes_nodes hw a)
    obtain ⟨hnode, ha⟩ := h.node a n hn
    refine ⟨hruns.invariant (P := NodeInv peers a) hnode fun m _ _ hm hcause hstep => ?_, ha⟩
    refine hm.step ha ?_ hstep
    cases hcause with
    | main hm => exact hover m hm
    | voteRequest hb =>
      obtain ⟨hb, hne⟩ := h.node _ _ hb
      exact hb.nodeAddr_eq ▸ hne
    | _ => trivial
  | restart a =>
    obtain ⟨n, hn, hs⟩ := Option.bind_eq_some_iff.1 hs
    obtain rfl := Option.some.inj hs
    obtain ⟨hnode, ha⟩ := h.node a n hn
    refine ⟨h.update ha (hnode.peers_eq ▸ nodeInv_start a _), fun x hx => ?_, fun b => ?_⟩
    · rcases List.mem_append.1 hx with hx | hx
      · exact h.strays x hx
      · obtain ⟨el, -, hx⟩ := List.mem_flatMap.1 hx
        obtain ⟨y, -, rfl⟩ := List.mem_map.1 hx
        exact hnode.nodeAddr_eq ▸ ha
    · show ∀ ballots ∈ Function.update s.past a (n.ballots :: s.past a) b, OneVote ballots
      by_cases hba : b = a
      · subst hba
        rw [Function.update_self]
        exact List.forall_mem_cons.2 ⟨hnode.ballots.unique, h.past b⟩
      · rw [Function.update_of_ne hba]
        exact h.past b
  | stray i =>
    obtain ⟨⟨p, req⟩, hi, hs⟩ := Option.bind_eq_some_iff.1 hs
    obtain ⟨n, hn, hs⟩ := Option.bind_eq_some_iff.1 hs
    obtain rfl := Option.some.inj hs
    obtain ⟨hnode, hp⟩ := h.node p n hn
    have hreq : req.candidateID ≠ [] := h.strays _ (List.mem_of_getElem? hi)
    exact ⟨h.update hp (hnode.handleVoteRequest req hreq).1,
      fun x hx => h.strays x (List.mem_of_mem_eraseIdx hx), h.past⟩

/-- New nodes have given no vote. -/
theorem inv_start {nodes : List Addr} (hnodes : [] ∉ nodes) : Inv peers (start peers nodes) := by
  refine ⟨fun a n hn => ?_, nofun, nofun⟩
  obtain ⟨ha, rfl⟩ := World.node_of_start hn
  refine ⟨nodeInv_start a peers, ?_⟩
  rintro rfl
  exact hnodes ha

/-- **One vote per term between restarts.**  Nodes with non-empty addresses start, and any of
them may crash and restart at any moment.  Whatever they do while no term overflows, none of
them gives its votes of one term to two candidates in one of its lives: neither since it
started last nor in any life before. -/
theorem one_vote_between_restarts {nodes : List Addr} (hnodes : [] ∉ nodes)
    (hs : Reach step NoOverflow (start peers nodes) s) (hn : s.world.nodes a = some n) :
    ∀ ballots ∈ n.ballots :: s.past a, OneVote ballots := by
  have hinv : Inv peers s := hs.invariant (P := Inv peers) (inv_start hnodes)
    fun s action s' h hover hstep => h.step hover hstep
  exact List.forall_mem_cons.2 ⟨(hinv.node a n hn).1.ballots.unique, hinv.past a⟩

/-- The first of three nodes stands for election and has the vote of the third, which then
restarts; the second stands too, and asks the third. -/
def askedTwice : List Action :=
  [.event (.main [1]), .event (.main [1]), .event (.main [1]), .event (.main [1]),
    .event (.main [1]), .event (.send [1] 0 1), .event (.vote [1] 0 1), .restart [3],
    .event (.main [2]), .event (.main [2]), .event (.main [2]), .event (.main [2]),
    .event (.main [2]), .event (.send [2] 0 1), .event (.vote [2] 0 1)]

/-- The third node has voted for the second in term 1, and before its restart, in the same term,
for the first. -/
theorem run_askedTwice :
    ∃ s ∈ runAll step NoOverflow (start [[1], [2], [3]] [[1], [2], [3]]) askedTwice,
      ∃ n, s.world.nodes [3] = some n ∧ n.ballots = [(1, [2])] ∧ s.past [3] = [[(1, [1])]] := by
  obtain ⟨s, hs, hnode, hpast⟩ :
      ∃ s ∈ runAll step NoOverflow (start [[1], [2], [3]] [[1], [2], [3]]) askedTwice,
        (s.world.nodes [3]).map Node.ballots = some [(1, [2])] ∧ s.past [3] = [[(1, [1])]] := by
    decide +kernel
  obtain ⟨n, hn, hballots⟩ := Option.map_eq_some_iff.1 hnode
  exact ⟨s, hs, n, hn, hballots, hpast⟩

/-- In each of its two lives it has given one vote in that term. -/
theorem one_vote_between_restarts_askedTwice :
    ∃ s ∈ runAll step NoOverflow (start [[1], [2], [3]] [[1], [2], [3]]) askedTwice,
      ∃ n, s.world.nodes [3] = some n ∧ n.ballots = [(1, [2])] ∧ s.past [3] = [[(1, [1])]] ∧
        ∀ ballots ∈ n.ballots :: s.past [3], OneVote ballots := by
  obtain ⟨s, hs, n, hn, hballots, hpast⟩ := run_askedTwice
  exact ⟨s, hs, n, hn, hballots, hpast,
    one_vote_between_restarts (by decide) (reach_of_runAll hs) hn⟩

/-- **Across a restart a node votes twice:** in term 1 the third of three nodes votes for the
first and, after it has restarted, for the second. -/
theorem restart_votes_twice :
    ∃ s ∈ runAll step NoOverflow (start [[1], [2], [3]] [[1], [2], [3]]) askedTwice,
      ∃ n, s.world.nodes [3] = some n ∧ ¬ OneVote (n.ballots ++ (s.past [3]).flatten) := by
  obtain ⟨s, hs, n, hn, hballots, hpast⟩ := run_askedTwice
  refine ⟨s, hs, n, hn, fun hone => ?_⟩
  rw [hballots, hpast] at hone
  exact absurd (hone (1, [2]) (by decide) (1, [1]) (by decide) rfl) (by decide)

end Restarts

end Cluster
end Keva
