/-
# Whose writes a follower applies

`RunFollower` (`cluster/follower.go`) reads the role and the leader's address once, and then
`syncWithLeader` applies what comes over one connection until it breaks.  Elections change
role and address behind its back, and nothing closes the connection when they do.

A node strays when, in `syncWithLeader`, it wins an election or accepts the heartbeat of another
leader.  A node that applies a write does not lead and has it from the node it takes for the
leader (`current_leader_of_steady`), as long as a node that has strayed reads no further write on
that connection, and none strays between the read of a write and its application.  Otherwise it
goes on with the old leader, which may not yet know that it was deposed
(`deposed_leader_is_followed`).  `strayed` is read by no step.

That a leader takes itself for the leader (`Heads`) is what makes `RunFollower` safe between
its two reads: a node that wins after the first finds its own address in the second.
-/

import Keva.Cluster.ElectionSafety
import Keva.Cluster.Network

namespace Keva
namespace Cluster

open Protocol (VoteRequest Heartbeat)
open Store (KVStore)

variable {n n' : Node}

/-! ### One node -/

/-- A vote is given without a change of mind about who leads. -/
theorem leaderAddr_handleVoteRequest (r : RaftState) (req : VoteRequest) :
    (r.handleVoteRequest req).1.leaderAddr = r.leaderAddr := by
  unfold RaftState.handleVoteRequest
  dsimp only
  split_ifs <;> rfl

/-- A node that steps down for a newer term still records the leader of the old one. -/
theorem leaderAddr_stepDown (r : RaftState) (term : UInt64) :
    (r.stepDown term).leaderAddr = r.leaderAddr := by
  unfold RaftState.stepDown
  split_ifs <;> rfl

/-- An election that is not won leaves the record as it is. -/
theorem leaderAddr_finishElection {r r' : RaftState} {term : UInt64} {got : ℤ} {b : Option Bool}
    (h : r.finishElection term got = (r', b)) (hb : b ≠ some true) :
    r'.leaderAddr = r.leaderAddr := by
  unfold RaftState.finishElection at h
  dsimp only at h
  split_ifs at h <;> obtain ⟨rfl, rfl⟩ := Prod.mk.inj h
  · rfl
  · exact absurd rfl hb
  · rfl

namespace Node

/-- The next step of `run` wins an election. -/
def wins (n : Node) : Bool :=
  match n.pc with
  | .counting e => n.elections[e]?.any fun el =>
      (n.raft.finishElection el.term el.votes).2 = some true
  | _ => false

/-- The node takes no other node for the leader, and does not start to lead. -/
def Calm (n : Node) : Event → Prop
  | .main => n.wins = false
  | .heartbeat hb => hb.term < n.raft.currentTerm ∨ hb.leaderID = n.raft.leaderAddr
  | _ => True

/-- A node that leads takes itself for the leader: `runCandidate` sets both in one critical
section. -/
def Heads (n : Node) : Prop := n.raft.role = .leader → n.raft.leaderAddr = n.raft.nodeAddr

/-- The leader is the same, and the node does not start to lead. -/
structure Keeps (n n' : Node) : Prop where
  nodeAddr_eq : n'.raft.nodeAddr = n.raft.nodeAddr
  leaderAddr_eq : n'.raft.leaderAddr = n.raft.leaderAddr
  role : n'.raft.role = .leader → n.raft.role = .leader

/-- What a handler does to the state is of no concern here if it leaves the recorded leader. -/
theorem Keeps.of_evolves (he : Evolves n.raft n'.raft)
    (haddr : n'.raft.leaderAddr = n.raft.leaderAddr) : Keeps n n' := by
  refine ⟨he.nodeAddr_eq, haddr, ?_⟩
  rcases he.moves with ⟨-, hnot⟩ | ⟨-, -, hlead⟩
  · exact fun hlead => absurd hlead hnot
  · exact hlead

/-- A node that does not start to lead has no new reason to name itself. -/
theorem Keeps.heads (h : Keeps n n') (hheads : n.Heads) : n'.Heads := by
  intro hlead
  rw [h.leaderAddr_eq, h.nodeAddr_eq]
  exact hheads (h.role hlead)

/-- **A step of `run`** leaves leader and lead as they are, or is the one that wins an election,
which is not calm, and after which the node names itself. -/
theorem keeps_or_heads_of_main {out : List (Addr × Heartbeat)} (hm : MainStep n n' out) :
    Keeps n n' ∨ ¬ n.Calm .main ∧ n'.Heads := by
  cases hm with
  | move | elect | onLeader => exact Or.inl ⟨rfl, rfl, id⟩
  | turn _ hrole => exact Or.inl ⟨rfl, rfl, fun hlead => absurd hlead hrole⟩
  | lose _ _ hfin hlost =>
    exact Or.inl (.of_evolves (evolves_finishElection hfin hlost)
      (leaderAddr_finishElection hfin hlost))
  | win hpc hel hfin =>
    have hwins : n.wins = true := by simp [wins, hpc, hel, hfin]
    obtain ⟨-, -, rfl⟩ := finishElection_won hfin
    exact Or.inr ⟨fun hcalm => Bool.false_ne_true (hcalm.symm.trans hwins), fun _ => rfl⟩

/-- **A heartbeat** of an older term, or of the node that is recorded already, leaves the leader
as it is; any other one is not calm, and the node does not lead after it. -/
theorem keeps_or_heads_of_heartbeat (n : Node) (hb : Heartbeat) :
    Keeps n (n.handleHeartbeat hb) ∨ ¬ n.Calm (.heartbeat hb) ∧ (n.handleHeartbeat hb).Heads := by
  have he := evolves_handleHeartbeat n.raft hb
  by_cases hold : hb.term < n.raft.currentTerm
  · refine Or.inl (.of_evolves he ?_)
    simp only [handleHeartbeat, RaftState.handleHeartbeat, if_pos hold]
  have hleader : (n.handleHeartbeat hb).raft.leaderAddr = hb.leaderID := by
    simp only [handleHeartbeat, RaftState.handleHeartbeat, if_neg hold]
  have hrole : (n.handleHeartbeat hb).raft.role = .follower := by
    simp only [handleHeartbeat, RaftState.handleHeartbeat, if_neg hold]
  by_cases hsame : hb.leaderID = n.raft.leaderAddr
  · exact Or.inl (.of_evolves he (hleader.trans hsame))
  · refine Or.inr ⟨fun hcalm => hcalm.elim hold hsame, fun hlead => ?_⟩
    rw [hrole] at hlead
    cases hlead

/-- **Every step of a node:** whoever it took for the leader it still does, or it has won, or
accepted the heartbeat of another node. -/
theorem keeps_or_heads {event : Event} (hs : n.step event = some n') :
    Keeps n n' ∨ ¬ n.Calm event ∧ n'.Heads := by
  cases nodeStep_of_step hs with
  | main hm => exact keeps_or_heads_of_main hm
  | heartbeat hb => exact keeps_or_heads_of_heartbeat n hb
  | voteRequest req =>
    exact Or.inl (.of_evolves (evolves_handleVoteRequest n.raft req).1
      (leaderAddr_handleVoteRequest n.raft req))
  | reply =>
    exact Or.inl (.of_evolves (evolves_stepDown n.raft _) (leaderAddr_stepDown n.raft _))
  | heard | poll | onFollower | signal => exact Or.inl ⟨rfl, rfl, id⟩

end Node

/-! ### All nodes -/

/-- The loop is in `syncWithLeader`. -/
def Loop.syncing : Loop → Bool
  | .top | .follow => false
  | .dial _ | .reading _ | .apply .. | .ack .. => true

/-- A node in `syncWithLeader` does not lead, and syncs with the node it takes for the
leader. -/
def Follows (n : Node) (servers : List Addr) : Loop → Prop
  | .top | .follow => True
  | .dial leaderAddr => n.raft.role ≠ .leader ∧ leaderAddr = n.raft.leaderAddr
  | .reading c | .apply c _ | .ack c _ =>
    n.raft.role ≠ .leader ∧ servers[c]? = some n.raft.leaderAddr

/-- A node outside `syncWithLeader` follows nobody, and there is nothing to ask of it. -/
theorem follows_of_not_syncing {servers : List Addr} {loop : Loop} (h : loop.syncing = false) :
    Follows n servers loop := by
  cases loop with
  | top | follow => trivial
  | _ => cases h

/-- The leader of the node stays the same, and there may be more connections. -/
theorem Follows.keep {servers : List Addr} {loop : Loop} (h : Follows n servers loop)
    (hkeeps : n.Keeps n') (new : List Addr) : Follows n' (servers ++ new) loop := by
  have hc : ∀ c : ℕ, servers[c]? = some n.raft.leaderAddr →
      (servers ++ new)[c]? = some n'.raft.leaderAddr := by
    intro c hc
    rw [hkeeps.leaderAddr_eq, List.getElem?_append_left (List.getElem?_eq_some_iff.1 hc).1]
    exact hc
  have hrole : n.raft.role ≠ .leader → n'.raft.role ≠ .leader := mt hkeeps.role
  cases loop with
  | top | follow => trivial
  | dial leaderAddr => exact ⟨hrole h.1, h.2.trans hkeeps.leaderAddr_eq.symm⟩
  | reading c | apply c | ack c => exact ⟨hrole h.1, hc c h.2⟩

/-- A step of the loop. -/
theorem Follows.step {servers : List Addr} {loop loop' : Loop} (h : Follows n servers loop)
    (hheads : n.Heads) (hstep : LoopStep n loop loop') : Follows n servers loop' := by
  cases hstep with
  | back | top => trivial
  | follow hother => exact ⟨fun hlead => hother (hheads hlead), rfl⟩
  | skip | apply | ack => exact h

namespace Network

/-- The step makes node `a` win an election, or accept the heartbeat of a node it does not take
for the leader. -/
def strays (s : Network) (a : Addr) : Action → Bool
  | .event (.main b) => b = a && (s.world.nodes a).any Node.wins
  | .event (.hear i) => (s.world.beats[i]?).any fun x => x.1 = a &&
      (s.world.nodes a).any fun n =>
        !decide (x.2.term < n.raft.currentTerm ∨ x.2.leaderID = n.raft.leaderAddr)
  | _ => false

/-- What a node that does not stray was calm about. -/
theorem calm_of_strays {s : Network} {a : Addr} {event : Event} {n : Node} {ev : Node.Event}
    (hstrays : s.strays a (.event event) = false) (hcause : World.Causes s.world a event n ev) :
    n.Calm ev := by
  cases hcause with
  | main hnode =>
    change n.wins = false
    simpa [strays, hnode] using hstrays
  | heartbeat hbeat hnode =>
    simp only [strays, hbeat, hnode, Option.any_some, decide_true, Bool.true_and,
      Bool.not_eq_false', decide_eq_true_eq] at hstrays
    exact hstrays
  | _ => trivial

/-- Only the elections make a node stray. -/
theorem strays_eq_false {s : Network} {action : Action} (h : action.elects = false) (a : Addr) :
    s.strays a action = false := by
  cases action with
  | event event => cases h
  | _ => rfl

end Network

/-- A network, and next to it, read by no step, the nodes that have strayed since they went into
`syncWithLeader`. -/
structure Watched where
  net : Network
  strayed : Addr → Bool

namespace Watched

/-- A step of the network.  A node is marked if the step is one by which it strays, and the mark
is taken off when its loop leaves `syncWithLeader`. -/
def step (s : Watched) (action : Network.Action) : Option Watched := do
  let net ← s.net.step action
  return ⟨net, fun a => (net.loop a).syncing && (s.strayed a || s.net.strays a action)⟩

/-- No node has strayed. -/
def start (net : Network) : Watched := ⟨net, fun _ => false⟩

variable {s s' : Watched} {action : Network.Action}

/-- A node that has strayed reads no further write on its connection, and none strays with a
write in its hands. -/
def Steady (s : Watched) : Network.Action → Prop
  | .event (.main a) =>
    (s.net.loop a).sync ≠ none → s.net.strays a (.event (.main a)) = false
  | .event (.hear i) => ∀ x ∈ s.net.world.beats[i]?,
    (s.net.loop x.1).sync ≠ none → s.net.strays x.1 (.event (.hear i)) = false
  | .follow a => s.strayed a = true → s.net.reads a = none
  | _ => True

instance (s : Watched) (action : Network.Action) : Decidable (s.Steady action) := by
  unfold Steady
  split <;> infer_instance

/-- No node strays with a write in its hands. -/
theorem Steady.strays_eq (hok : s.Steady action) {a : Addr} (hsync : (s.net.loop a).sync ≠ none) :
    s.net.strays a action = false := by
  unfold Network.strays
  split
  · rename_i b
    by_cases hba : b = a
    · subst hba
      exact hok hsync
    · simp [hba]
  · rename_i i
    cases hbeat : s.net.world.beats[i]? with
    | none => rfl
    | some x =>
      by_cases hxa : x.1 = a
      · subst hxa
        have hnot := hok x hbeat hsync
        rw [Network.strays, hbeat] at hnot
        exact hnot
      · simp [hxa]
  · rfl

/-- Leaders take themselves for the leader; a node that has not strayed follows the node it takes
for the leader; and one with a write in its hands has not strayed. -/
structure FollowInv (s : Watched) : Prop where
  heads : ∀ a n, s.net.world.nodes a = some n → n.Heads
  follows : ∀ a n, s.net.world.nodes a = some n → s.strayed a = false →
    Follows n s.net.servers (s.net.loop a)
  holds : ∀ a, (s.net.loop a).sync ≠ none → s.strayed a = false

/-- A step that leaves the elections alone, and of the loops all but one. -/
theorem FollowInv.move (h : FollowInv s) {net : Network} (hworld : net.world = s.net.world)
    {new : List Addr} (hservers : net.servers = s.net.servers ++ new) {a : Addr}
    (hloop : ∀ n, s.net.world.nodes a = some n → s.strayed a = false →
      Follows n net.servers (net.loop a))
    (hothers : ∀ b, b ≠ a → net.loop b = s.net.loop b)
    (hholds : (net.loop a).sync ≠ none → s.strayed a = false)
    {strayed : Addr → Bool} (hstrayed : ∀ b, strayed b = ((net.loop b).syncing && s.strayed b)) :
    FollowInv ⟨net, strayed⟩ := by
  refine ⟨hworld ▸ h.heads, fun b n hn hcalm => ?_, fun b hsync => ?_⟩
  · change strayed b = false at hcalm
    rw [hstrayed, Bool.and_eq_false_iff] at hcalm
    rcases hcalm with hout | hcalm
    · exact follows_of_not_syncing hout
    · rw [hworld] at hn
      by_cases hba : b = a
      · subst hba
        exact hloop n hn hcalm
      · change Follows n net.servers (net.loop b)
        rw [hothers b hba, hservers]
        exact (h.follows b n hn hcalm).keep ⟨rfl, rfl, id⟩ new
  · change strayed b = false
    have hcalm : s.strayed b = false := by
      by_cases hba : b = a
      · subst hba
        exact hholds hsync
      · refine h.holds b ?_
        rw [← hothers b hba]
        exact hsync
    rw [hstrayed, hcalm, Bool.and_false]

/-- A step that leaves elections and loops alone. -/
theorem FollowInv.aside (h : FollowInv s) {net : Network} (hworld : net.world = s.net.world)
    (hservers : net.servers = s.net.servers) (hloop : ∀ b, net.loop b = s.net.loop b)
    {strayed : Addr → Bool} (hstrayed : ∀ b, strayed b = ((net.loop b).syncing && s.strayed b)) :
    FollowInv ⟨net, strayed⟩ := by
  refine h.move hworld (hservers.trans (List.append_nil _).symm) (a := [])
    (fun n hn hcalm => ?_) (fun b _ => hloop b) (fun hsync => h.holds [] (hloop [] ▸ hsync)) hstrayed
  rw [hservers, hloop]
  exact h.follows [] n hn hcalm

/-- **A step of the elections.**  A node that stays calm still follows whom it followed, and one
that does not is marked, and has no write in its hands. -/
theorem FollowInv.event (h : FollowInv s) {event : Event} (hok : s.Steady (.event event))
    {net : Network} (hworld : s.net.world.step event = some net.world)
    (hloop : ∀ a, net.loop a = s.net.loop a) (hservers : net.servers = s.net.servers)
    {strayed : Addr → Bool}
    (hstrayed : ∀ b, strayed b =
      ((net.loop b).syncing && (s.strayed b || s.net.strays b (.event event)))) :
    FollowInv ⟨net, strayed⟩ := by
  have hboth : ∀ a n', net.world.nodes a = some n' →
      n'.Heads ∧ (strayed a = false → Follows n' s.net.servers (s.net.loop a)) := by
    intro a n' hn'
    obtain ⟨n, hn, hruns⟩ := World.before_of_becomes (hn' ▸ World.becomes_nodes hworld a)
    have hcases : strayed a = false → (s.net.loop a).syncing = false ∨
        s.strayed a = false ∧ s.net.strays a (.event event) = false := by
      intro hcalm
      rw [hstrayed, hloop, Bool.and_eq_false_iff, Bool.or_eq_false_iff] at hcalm
      exact hcalm
    have hstart : strayed a = false → Follows n s.net.servers (s.net.loop a) := fun hcalm =>
      (hcases hcalm).elim follows_of_not_syncing fun hnot => h.follows a n hn hnot.1
    refine hruns.invariant
      (P := fun m => m.Heads ∧ (strayed a = false → Follows m s.net.servers (s.net.loop a)))
      ⟨h.heads a n hn, hstart⟩ fun m ev m' hm hcause hstep => ?_
    rcases Node.keeps_or_heads hstep with hkeeps | ⟨hcalm, hheads⟩
    · exact ⟨hkeeps.heads hm.1, fun hnot => List.append_nil s.net.servers ▸ (hm.2 hnot).keep hkeeps []⟩
    · refine ⟨hheads, fun hnot => ?_⟩
      -- The node strays, and so it is not in `syncWithLeader`.
      rcases hcases hnot with hout | ⟨-, hnone⟩
      · exact follows_of_not_syncing hout
      · exact absurd (Network.calm_of_strays hnone hcause) hcalm
  refine ⟨fun a n' hn' => (hboth a n' hn').1, fun a n' hn' hcalm => ?_, fun a hsync => ?_⟩
  · change Follows n' net.servers (net.loop a)
    rw [hservers, hloop]
    exact (hboth a n' hn').2 hcalm
  · change (net.loop a).sync ≠ none at hsync
    change strayed a = false
    rw [hloop] at hsync
    rw [hstrayed, h.holds a hsync, hok.strays_eq hsync, Bool.or_false, Bool.and_false]

/-- **Every steady step keeps it:** a node in `syncWithLeader` that has not strayed is connected
to the node that it records, and one that has strayed has nothing to apply. -/
theorem FollowInv.step (h : FollowInv s) (hok : s.Steady action) (hs : s.step action = some s') :
    FollowInv s' := by
  obtain ⟨net, hnet, hs⟩ := Option.bind_eq_some_iff.1 hs
  obtain rfl := Option.some.inj hs
  have hquiet : action.elects = false → ∀ b,
      ((net.loop b).syncing && (s.strayed b || s.net.strays b action)) =
        ((net.loop b).syncing && s.strayed b) := by
    intro helects b
    rw [Network.strays_eq_false helects, Bool.or_false]
  cases Network.netStep_of_step hnet with
  | event hworld hloop hservers _ => exact h.event hok hworld hloop hservers fun _ => rfl
  | @loop _ a helects hworld hstep hnone hothers hservers _ =>
    refine h.move hworld (hservers.trans (List.append_nil _).symm) (fun n hn hcalm => ?_) hothers
      (fun hsync => ?_) (hquiet helects)
    · rw [hservers]
      exact (h.follows a n hn hcalm).step (h.heads a n hn) (hstep n hn)
    · exact absurd hnone hsync
  | @dial a addr hworld hdial hloop hothers hservers _ =>
    refine h.move hworld hservers (fun n hn hcalm => ?_) hothers (fun hsync => ?_) (hquiet rfl)
    · have hfollows := h.follows a n hn hcalm
      rw [hdial] at hfollows
      rw [hloop, hservers]
      refine ⟨hfollows.1, ?_⟩
      rw [List.getElem?_append_right le_rfl, Nat.sub_self, List.getElem?_cons_zero, hfollows.2]
    · rw [hloop] at hsync
      exact absurd rfl hsync
  | @read a c sync hworld hreading hreads hloop hothers hservers _ =>
    have hcalm : s.strayed a = false := by
      refine Bool.eq_false_of_not_eq_true fun hstrayed => ?_
      exact nomatch (hok hstrayed).symm.trans hreads
    refine h.move hworld (hservers.trans (List.append_nil _).symm) (fun n hn _ => ?_) hothers
      (fun _ => hcalm) (hquiet rfl)
    have hfollows := h.follows a n hn hcalm
    rw [hreading] at hfollows
    rw [hloop, hservers]
    exact hfollows
  | serve hworld _ _ hloop hservers => exact h.aside hworld hservers hloop (hquiet rfl)
  | leave hworld hloop hservers => exact h.aside hworld hservers hloop (hquiet rfl)
  | quiet helects hworld hloop hservers => exact h.aside hworld hservers hloop (hquiet helects)

variable {peers nodes : List Addr} {dbs : Addr → KVStore} {defaultTTL : ℤ} {maxPayloadBytes : ℕ}
  {t : Time}

/-- At the start every loop is at its top. -/
theorem followInv_start :
    FollowInv (start (.start peers nodes dbs defaultTTL maxPayloadBytes t)) := by
  refine ⟨fun a n hn => ?_, fun a n hn _ => trivial, fun a _ => rfl⟩
  obtain ⟨-, rfl⟩ := World.node_of_start hn
  exact Role.noConfusion

/-- **Only the current leader's writes are applied,** as long as no node reads a further write on
a connection once it has strayed, and none strays with a write in its hands: whatever else the
nodes of a cluster do, a node that is about to apply a write does not lead, and the node at the
other end of the connection is the one it takes for the leader. -/
theorem current_leader_of_steady
    (hs : Reach step Steady (start (.start peers nodes dbs defaultTTL maxPayloadBytes t)) s)
    {a : Addr} {n : Node} (hn : s.net.world.nodes a = some n) {c : ℕ}
    {sync : Protocol.ReplicationSync} (hloop : s.net.loop a = .apply c sync) :
    n.raft.role ≠ .leader ∧
      ∃ conn, s.net.conns[c]? = some conn ∧ conn.server = n.raft.leaderAddr := by
  have hinv : FollowInv s := hs.invariant (P := FollowInv) followInv_start
    fun s action s' h hok hstep => h.step hok hstep
  have hcalm : s.strayed a = false := hinv.holds a (by rw [hloop]; exact Option.some_ne_none sync)
  have hfollows := hinv.follows a n hn hcalm
  rw [hloop] at hfollows
  obtain ⟨hrole, hserver⟩ := hfollows
  rw [Network.servers, List.getElem?_map] at hserver
  exact ⟨hrole, Option.map_eq_some_iff.1 hserver⟩

end Watched

namespace Network

/-- The first of three nodes is elected, and the second joins it. -/
def joinFirst : List Action :=
  List.map Action.event
      (World.firstElection ++ [.main [1], .main [1], .main [1], .main [1], .hear 0]) ++
    [.follow [2], .follow [2], .follow [2], .serve 0, .serve 0, .serve 0, .serve 0]

/-- A node sets a key, and the second reads the frame. -/
def setOn (a : Addr) : List Action :=
  [.set a [7] [8] 50, .call a 0 fun _ => Eviction.byKey, .advance a 0, .advance a 0,
    .broadcast a 0 byAddr fun _ => none, .follow [2]]

/-- The third node fails in term 1, is elected by the second in term 2, and sends its
heartbeats; the second has its own. -/
def electThird : List Action :=
  List.map Action.event
    (List.replicate 12 (.main [3]) ++ [.send [3] 1 1, .vote [3] 1 1, .reply [3] 1 1, .count [3] 1 1] ++
      List.replicate 6 (.main [3]) ++ [.hear 2])

/-- The second node loses its connection, and joins the third. -/
def joinThird : List Action :=
  [.hangUp [2], .follow [2], .follow [2], .follow [2], .serve 1, .serve 1, .serve 1, .serve 1]

/-- The write that the second node reads in these runs. -/
def firstWrite : Protocol.ReplicationSync := ⟨1, Wal.opSet, [7], [8], 50⟩

end Network

namespace Watched

open Network (joinFirst electThird joinThird setOn firstWrite)

/-- The second node has joined the first when it accepts the heartbeat of the third.  It loses its
connection before anything is sent to it, joins the third, and applies what that sends. -/
theorem current_leader_of_steady_changesLeader :
    ∃ s ∈ runAll step Steady
        (start (.start [[1], [2], [3]] [[1], [2], [3]] (fun _ => Store.oneShard) 60 0 0))
        (joinFirst ++ electThird ++ joinThird ++ setOn [3]),
      ∃ n, s.net.world.nodes [2] = some n ∧ s.net.loop [2] = .apply 1 firstWrite ∧
        n.raft.leaderAddr = [3] ∧ n.raft.role ≠ .leader ∧
        ∃ conn, s.net.conns[1]? = some conn ∧ conn.server = n.raft.leaderAddr := by
  obtain ⟨s, hs, n, hn, hloop, haddr⟩ :
      ∃ s ∈ runAll step Steady
          (start (.start [[1], [2], [3]] [[1], [2], [3]] (fun _ => Store.oneShard) 60 0 0))
          (joinFirst ++ electThird ++ joinThird ++ setOn [3]),
        ∃ n ∈ s.net.world.nodes [2], s.net.loop [2] = .apply 1 firstWrite ∧
          n.raft.leaderAddr = [3] := by
    decide +kernel
  exact ⟨s, hs, n, hn, hloop, haddr, current_leader_of_steady (reach_of_runAll hs) hn hloop⟩

end Watched

namespace Network

/-- **A deposed leader is followed.**  The second node has joined the first, votes for the
third and has its heartbeat.  The first, which knows nothing of it, takes a write, and the
second applies it. -/
theorem deposed_leader_is_followed :
    ∃ s ∈ runAll step (fun _ _ => True)
        (start [[1], [2], [3]] [[1], [2], [3]] (fun _ => Store.oneShard) 60 0 0)
        (joinFirst ++ electThird ++ setOn [1]),
      (∃ n ∈ s.world.nodes [2], s.loop [2] = .apply 0 firstWrite ∧ n.raft.leaderAddr = [3] ∧
        ∃ conn ∈ s.conns[0]?, conn.server = [1]) ∧
      ∃ s' ∈ s.step (.apply [2] fun _ => Eviction.byKey),
        (s'.processes [2]).db.content [7] = some ([8], 50) := by
  decide +kernel

end Network

end Cluster
end Keva
