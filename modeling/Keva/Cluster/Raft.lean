/-
# The state of a Raft node

`cluster/raft.go`: `RaftState` and the critical sections on it, each as one function.
`HandleHeartbeat` and `HandleVoteRequest` go on after they have released the mutex;
what they still have to do is part of what they return.

A node has one vote per term.  `Evolves` is what every critical section of a handler
does to the state: the term goes up and the node does not lead, or the term stays,
a vote that is given stays given, and the node does not start to lead.  With it goes
the record of the votes a node has given (`Ballots`): at most one per term, the
one of the current term being `votedFor`.
-/

import Keva.Protocol.Message
import Mathlib.Data.List.Basic

namespace Keva
namespace Cluster

open Protocol (VoteRequest VoteResponse Heartbeat)

/-- The address of a node, which is also its name; the empty one stands for none. -/
abbrev Addr := Bytes

/-- `cluster.Role`: a node is a follower when it starts, a candidate when it has waited too long
for a heartbeat, and a leader when it has won. -/
inductive Role
  | follower
  | candidate
  | leader
  deriving DecidableEq, Repr

/-- `cluster.RaftState`, what the elections of a node are about.  `heartbeatCh` has room for one
signal, so that it either holds one or does not. -/
structure RaftState where
  nodeAddr : Addr
  peers : List Addr
  currentTerm : UInt64
  votedFor : Addr
  role : Role
  leaderAddr : Addr
  heartbeatCh : Bool

/-- `NewRaftState`: a follower in term 0 that has voted for nobody and knows of no leader. -/
def newRaftState (nodeAddr : Addr) (peers : List Addr) : RaftState :=
  ⟨nodeAddr, peers, 0, [], .follower, [], false⟩

/-- What a handler has still to do when it releases the mutex: call `onFollower` and
then signal, or signal. -/
inductive Post
  | onFollower
  | signal
  deriving DecidableEq, Repr

/-- A handler that went through. -/
def postOf (wasLeader : Bool) : Post := if wasLeader then .onFollower else .signal

namespace RaftState

/-! ### Handlers -/

/-- `HandleHeartbeat`, and what is still to be done after the mutex is released.  A heartbeat of
an older term is ignored; any other makes the node a follower of its sender. -/
def handleHeartbeat (r : RaftState) (hb : Heartbeat) : RaftState × Option Post :=
  if hb.term < r.currentTerm then (r, none)
  else
    let wasLeader := decide (r.role = .leader)
    let r := if r.currentTerm < hb.term then { r with currentTerm := hb.term, votedFor := [] } else r
    ({ r with leaderAddr := hb.leaderID, role := .follower }, some (postOf wasLeader))

/-- `HandleVoteRequest`, with the response and what is still to be done after the mutex is
released.  A request of an older term is refused, and so is one that reaches the leader of the
same term; a newer term is taken over; and the vote is given if it has not been given to someone
else. -/
def handleVoteRequest (r : RaftState) (req : VoteRequest) : RaftState × VoteResponse × Option Post :=
  if req.term < r.currentTerm then (r, ⟨r.currentTerm, false⟩, none)
  -- A leader in the same term doesn't yield its vote.
  else if r.role = .leader ∧ req.term = r.currentTerm then (r, ⟨r.currentTerm, false⟩, none)
  else
    let wasLeader := decide (r.role = .leader)
    let r :=
      if r.currentTerm < req.term then
        { r with currentTerm := req.term, votedFor := [], role := .follower }
      else r
    if r.votedFor = [] ∨ r.votedFor = req.candidateID then
      let r := { r with votedFor := req.candidateID }
      (r, ⟨r.currentTerm, true⟩, some (postOf wasLeader))
    else (r, ⟨r.currentTerm, false⟩, none)

/-- The critical section of `requestVoteRPC`: a higher term ends the candidacy. -/
def stepDown (r : RaftState) (term : UInt64) : RaftState :=
  if r.currentTerm < term then { r with currentTerm := term, role := .follower, votedFor := [] }
  else r

/-! ### The state machine -/

/-- The peers that a candidate asks and a leader sends heartbeats to. -/
def otherPeers (r : RaftState) : List Addr := r.peers.filter fun p => p ≠ r.nodeAddr

/-- `runCandidate`: the next term, and a vote for oneself. -/
def startElection (r : RaftState) : RaftState :=
  { r with currentTerm := r.currentTerm + 1, votedFor := r.nodeAddr }

/-- The end of `runCandidate`: whether the election was won, `none` if it no longer
matters. -/
def finishElection (r : RaftState) (term : UInt64) (got : ℤ) : RaftState × Option Bool :=
  if r.role ≠ .candidate ∨ r.currentTerm ≠ term then (r, none)
  else
    let quorum := r.peers.length / 2 + 1
    if quorum ≤ got then ({ r with role := .leader, leaderAddr := r.nodeAddr }, some true)
    else ({ r with role := .follower }, some false)

end RaftState

/-! ### One vote per term -/

/-- What a handler does to the state: it moves to a newer term without a lead, or stays in its
term, keeps a vote that was given and begins no lead. -/
structure Evolves (r r' : RaftState) : Prop where
  nodeAddr_eq : r'.nodeAddr = r.nodeAddr
  peers_eq : r'.peers = r.peers
  moves : r.currentTerm < r'.currentTerm ∧ r'.role ≠ .leader ∨
    r'.currentTerm = r.currentTerm ∧ (r.votedFor ≠ [] → r'.votedFor = r.votedFor) ∧
      (r'.role = .leader → r.role = .leader)

variable {r r' : RaftState}

/-- A change of anything but term, vote and role. -/
theorem Evolves.of_eq (haddr : r'.nodeAddr = r.nodeAddr) (hpeers : r'.peers = r.peers)
    (hterm : r'.currentTerm = r.currentTerm) (hvote : r'.votedFor = r.votedFor)
    (hrole : r'.role = .leader → r.role = .leader) : Evolves r r' :=
  ⟨haddr, hpeers, Or.inr ⟨hterm, fun _ => hvote, hrole⟩⟩

/-- A heartbeat raises the term or leaves the vote. -/
theorem evolves_handleHeartbeat (r : RaftState) (hb : Heartbeat) :
    Evolves r (r.handleHeartbeat hb).1 := by
  unfold RaftState.handleHeartbeat
  split_ifs with hold hnew
  · exact .of_eq rfl rfl rfl rfl id
  · exact ⟨rfl, rfl, Or.inl ⟨hnew, Role.noConfusion⟩⟩
  · exact .of_eq rfl rfl rfl rfl Role.noConfusion

/-- **A vote request:** a vote that is granted is one of the term that was asked for,
and is the vote of the node. -/
theorem evolves_handleVoteRequest (r : RaftState) (req : VoteRequest) :
    Evolves r (r.handleVoteRequest req).1 ∧
      ((r.handleVoteRequest req).2.1.granted = true →
        (r.handleVoteRequest req).1.currentTerm = req.term ∧
          (r.handleVoteRequest req).1.votedFor = req.candidateID) := by
  unfold RaftState.handleVoteRequest
  by_cases hold : req.term < r.currentTerm
  · rw [if_pos hold]
    exact ⟨.of_eq rfl rfl rfl rfl id, Bool.noConfusion⟩
  rw [if_neg hold]
  by_cases hlead : r.role = .leader ∧ req.term = r.currentTerm
  · rw [if_pos hlead]
    exact ⟨.of_eq rfl rfl rfl rfl id, Bool.noConfusion⟩
  rw [if_neg hlead]
  by_cases hnew : r.currentTerm < req.term
  · rw [if_pos hnew]
    dsimp only
    rw [if_pos (Or.inl rfl)]
    exact ⟨⟨rfl, rfl, Or.inl ⟨hnew, Role.noConfusion⟩⟩, fun _ => ⟨rfl, rfl⟩⟩
  have hterm : r.currentTerm = req.term :=
    UInt64.le_antisymm (UInt64.not_lt.1 hold) (UInt64.not_lt.1 hnew)
  rw [if_neg hnew]
  dsimp only
  split_ifs with hvote
  · refine ⟨⟨rfl, rfl, Or.inr ⟨rfl, fun hne => ?_, id⟩⟩, fun _ => ⟨hterm, rfl⟩⟩
    exact (hvote.resolve_left hne).symm
  · exact ⟨.of_eq rfl rfl rfl rfl id, False.elim⟩

/-- A step-down raises the term or does nothing. -/
theorem evolves_stepDown (r : RaftState) (term : UInt64) : Evolves r (r.stepDown term) := by
  unfold RaftState.stepDown
  split_ifs with hnew
  · exact ⟨rfl, rfl, Or.inl ⟨hnew, Role.noConfusion⟩⟩
  · exact .of_eq rfl rfl rfl rfl id

/-- A new term, of a node that does not lead. -/
theorem evolves_startElection (hterm : r.currentTerm ≠ -1) (hrole : r.role ≠ .leader) :
    Evolves r r.startElection :=
  ⟨rfl, rfl, Or.inl ⟨UInt64.lt_add_one hterm, hrole⟩⟩

/-- **An election that is won:** the term is still that of the election, and the votes
are a quorum. -/
theorem finishElection_won {term : UInt64} {got : ℤ}
    (h : r.finishElection term got = (r', some true)) :
    r.currentTerm = term ∧ (r.peers.length / 2 + 1 : ℕ) ≤ got ∧
      r' = { r with role := .leader, leaderAddr := r.nodeAddr } := by
  unfold RaftState.finishElection at h
  dsimp only at h
  split_ifs at h with hstale hquorum
  · cases (Prod.mk.inj h).2
  · obtain ⟨rfl, -⟩ := Prod.mk.inj h
    exact ⟨not_not.1 fun hne => hstale (Or.inr hne), hquorum, rfl⟩
  · cases (Prod.mk.inj h).2

/-- An election that is not won leaves term and vote. -/
theorem evolves_finishElection {term : UInt64} {got : ℤ} {b : Option Bool}
    (h : r.finishElection term got = (r', b)) (hb : b ≠ some true) : Evolves r r' := by
  unfold RaftState.finishElection at h
  dsimp only at h
  split_ifs at h with hstale hquorum
  · obtain ⟨rfl, -⟩ := Prod.mk.inj h
    exact .of_eq rfl rfl rfl rfl id
  · exact absurd (Prod.mk.inj h).2.symm hb
  · obtain ⟨rfl, -⟩ := Prod.mk.inj h
    exact .of_eq rfl rfl rfl rfl Role.noConfusion

/-- The votes a node has given, term and candidate: at most one per term. -/
structure Ballots (r : RaftState) (ballots : List (UInt64 × Addr)) : Prop where
  le : ∀ b ∈ ballots, b.1 ≤ r.currentTerm
  voted : ∀ b ∈ ballots, b.1 = r.currentTerm → r.votedFor = b.2
  unique : ∀ b ∈ ballots, ∀ b' ∈ ballots, b.1 = b'.1 → b.2 = b'.2
  named : ∀ b ∈ ballots, b.2 ≠ []

variable {ballots : List (UInt64 × Addr)}

/-- The record of the votes goes with whatever a handler does to the state. -/
theorem Ballots.evolve (h : Ballots r ballots) (he : Evolves r r') : Ballots r' ballots := by
  refine ⟨fun b hb => ?_, fun b hb hterm => ?_, h.unique, h.named⟩
  · rcases he.moves with ⟨hlt, -⟩ | ⟨heq, -, -⟩
    · exact UInt64.le_trans (h.le b hb) (UInt64.le_of_lt hlt)
    · exact heq ▸ h.le b hb
  · rcases he.moves with ⟨hlt, -⟩ | ⟨heq, hvote, -⟩
    · have hlt' := UInt64.lt_of_le_of_lt (h.le b hb) hlt
      exact absurd hterm (UInt64.ne_of_lt hlt')
    · have hold : r.votedFor = b.2 := h.voted b hb (hterm.trans heq)
      exact (hvote (hold ▸ h.named b hb)).trans hold

/-- **Giving the vote of the current term,** once more perhaps: a candidate that asks again is
granted the same vote. -/
theorem Ballots.cast (h : Ballots r ballots) (hne : r.votedFor ≠ []) :
    Ballots r ((r.currentTerm, r.votedFor) :: ballots) := by
  refine ⟨?_, ?_, ?_, ?_⟩
  · exact List.forall_mem_cons.2 ⟨UInt64.le_refl _, h.le⟩
  · exact List.forall_mem_cons.2 ⟨fun _ => rfl, h.voted⟩
  · intro b hb b' hb' heq
    rcases List.mem_cons.1 hb with rfl | hb <;> rcases List.mem_cons.1 hb' with rfl | hb'
    · rfl
    · exact h.voted b' hb' heq.symm
    · exact (h.voted b hb heq).symm
    · exact h.unique b hb b' hb' heq
  · exact List.forall_mem_cons.2 ⟨hne, h.named⟩

end Cluster
end Keva
