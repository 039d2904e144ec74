/-
# Terms and votes of one node

`cluster/raft.go`: the term of a `RaftState` is raised by `HandleHeartbeat`, by
`HandleVoteRequest`, by the step-down of `requestVoteRPC` and by `runCandidate`.  The first
three compare before they write, and take any `uint64` from the network; the last one adds 1.

So the term only grows, and within a term the vote changes at most once, from none to a
candidate (`Grows`), on every run in which no candidacy begins in term `2 ^ 64 - 1`
(`term_grows_and_vote_stays`).  A candidacy that does begin there puts the node back to term 0
(`term_wraps`), and one message is enough to bring a node that far.
-/

import Keva.Cluster.Restarts

namespace Keva
namespace Cluster

open Protocol (VoteRequest VoteResponse Heartbeat)

/-- From `r` to `r'` the term has grown; or it is the same, and the vote is the same or has
been given in between. -/
def Grows (r r' : RaftState) : Prop :=
  r.currentTerm < r'.currentTerm ∨
    r'.currentTerm = r.currentTerm ∧
      (r'.votedFor = r.votedFor ∨ r.votedFor = [] ∧ r'.votedFor ≠ [])

variable {r r' r'' : RaftState} {n n' : Node}

/-- Nothing has happened to term and vote. -/
theorem Grows.of_eq (hterm : r'.currentTerm = r.currentTerm) (hvote : r'.votedFor = r.votedFor) :
    Grows r r' :=
  Or.inr ⟨hterm, Or.inl hvote⟩

/-- **Growth composes:** a vote that has been given in a term cannot be given again there, so two
changes of the vote without a change of the term are one at most. -/
theorem Grows.trans (h : Grows r r') (h' : Grows r' r'') : Grows r r'' := by
  rcases h with hlt | ⟨heq, hvote⟩
  · rcases h' with hlt' | ⟨heq', -⟩
    · exact Or.inl (UInt64.lt_trans hlt hlt')
    · exact Or.inl (heq' ▸ hlt)
  · rcases h' with hlt' | ⟨heq', hvote'⟩
    · exact Or.inl (heq ▸ hlt')
    · refine Or.inr ⟨heq'.trans heq, ?_⟩
      rcases hvote with hsame | ⟨hnone, hgiven⟩
      · rwa [hsame] at hvote'
      · -- The vote has been given, and stays.
        have hstays : r''.votedFor = r'.votedFor :=
          hvote'.resolve_right fun hagain => hgiven hagain.1
        exact Or.inr ⟨hnone, hstays ▸ hgiven⟩

/-! ### Handlers -/

/-- A newer heartbeat takes the vote back, but together with the term. -/
theorem grows_handleHeartbeat (r : RaftState) (hb : Heartbeat) :
    Grows r (r.handleHeartbeat hb).1 := by
  unfold RaftState.handleHeartbeat
  split_ifs with hold hnew
  · exact .of_eq rfl rfl
  · exact Or.inl hnew
  · exact .of_eq rfl rfl

/-- A vote request that names a candidate.  The term may grow, and within the term a vote that
was given stays; one that has not been given may go to this candidate. -/
theorem grows_handleVoteRequest (r : RaftState) {req : VoteRequest} (hreq : req.candidateID ≠ []) :
    Grows r (r.handleVoteRequest req).1 := by
  unfold RaftState.handleVoteRequest
  by_cases hold : req.term < r.currentTerm
  · rw [if_pos hold]
    exact .of_eq rfl rfl
  rw [if_neg hold]
  by_cases hlead : r.role = .leader ∧ req.term = r.currentTerm
  · rw [if_pos hlead]
    exact .of_eq rfl rfl
  rw [if_neg hlead]
  by_cases hnew : r.currentTerm < req.term
  · rw [if_pos hnew]
    dsimp only
    rw [if_pos (Or.inl rfl)]
    exact Or.inl hnew
  rw [if_neg hnew]
  dsimp only
  split_ifs with hvote
  · rcases hvote with hnone | hagain
    · exact Or.inr ⟨rfl, Or.inr ⟨hnone, hreq⟩⟩
    · exact .of_eq rfl hagain.symm
  · exact .of_eq rfl rfl

/-- So does a response with a newer term. -/
theorem grows_stepDown (r : RaftState) (term : UInt64) : Grows r (r.stepDown term) := by
  unfold RaftState.stepDown
  split_ifs with hnew
  · exact Or.inl hnew
  · exact .of_eq rfl rfl

/-- The count of the votes touches neither. -/
theorem grows_finishElection {term : UInt64} {got : ℤ} {b : Option Bool}
    (h : r.finishElection term got = (r', b)) : Grows r r' := by
  unfold RaftState.finishElection at h
  dsimp only at h
  split_ifs at h <;>
  · obtain ⟨rfl, -⟩ := Prod.mk.inj h
    exact .of_eq rfl rfl

/-! ### Steps and runs -/

/-- **A step of `run`:** only a candidacy touches the term, which it raises by one; the
hypothesis is that it does not wrap. -/
theorem MainStep.grows {out : List (Addr × Heartbeat)} (h : MainStep n n' out)
    (hterm : n.pc = .candidate → n.raft.currentTerm ≠ -1) : Grows n.raft n'.raft := by
  cases h with
  | move | turn | onLeader => exact .of_eq rfl rfl
  | elect hpc => exact Or.inl (UInt64.lt_add_one (hterm hpc))
  | win _ _ hfin => exact grows_finishElection hfin
  | lose _ _ hfin => exact grows_finishElection hfin

/-- **Every step of a node lets its state grow,** where candidacies stay below the last term and
vote requests name a candidate. -/
theorem grows_step {event : Node.Event} (hok : n.Regular event) (hs : n.step event = some n') :
    Grows n.raft n'.raft := by
  cases nodeStep_of_step hs with
  | main hm => exact hm.grows hok
  | heartbeat hb => exact grows_handleHeartbeat n.raft hb
  | voteRequest req => exact grows_handleVoteRequest n.raft hok
  | @reply e j el p resp hpoll => exact grows_stepDown n.raft resp.term
  | heard | poll | onFollower | signal => exact .of_eq rfl rfl

/-- So does every run, from any state. -/
theorem grows_of_reach (h : Reach Node.step Node.Regular n n') : Grows n.raft n'.raft :=
  h.invariant (P := fun m => Grows n.raft m.raft) (.of_eq rfl rfl)
    fun _ _ _ ih hok hs => ih.trans (grows_step hok hs)

/-- **Terms grow and votes stay.**  A node in any state hears heartbeats, vote requests that
name a candidate, and responses to its own requests, with any terms, and times out and stands
for election as it likes, but not in term `2 ^ 64 - 1`.  Between any two moments of such a run
the term has not become smaller; and if it is the same, then so is the vote, or it has been
given to a candidate where none was before. -/
theorem term_grows_and_vote_stays (h : Reach Node.step Node.Regular n n') :
    n.raft.currentTerm ≤ n'.raft.currentTerm ∧
      (n'.raft.currentTerm = n.raft.currentTerm →
        n'.raft.votedFor = n.raft.votedFor ∨ n.raft.votedFor = [] ∧ n'.raft.votedFor ≠ []) := by
  rcases grows_of_reach h with hlt | ⟨heq, hvote⟩
  · exact ⟨UInt64.le_of_lt hlt, fun heq => absurd hlt (heq ▸ UInt64.lt_irrefl _)⟩
  · exact ⟨heq ▸ UInt64.le_refl _, fun _ => hvote⟩

instance Node.Regular.decidable (n : Node) : (event : Node.Event) → Decidable (n.Regular event)
  | .main => inferInstanceAs (Decidable (n.pc = .candidate → n.raft.currentTerm ≠ -1))
  | .voteRequest req => inferInstanceAs (Decidable (req.candidateID ≠ []))
  | .heard | .heartbeat _ | .send .. | .lose .. | .arrive .. | .reply .. | .count .. | .post _ =>
    .isTrue trivial

/-- A node of three votes in term 4 and hears of term 7 from a leader. -/
def votesOnce : List Node.Event := [.voteRequest ⟨4, [2], 0⟩, .heartbeat ⟨7, [2]⟩]

/-- It is asked for its vote in term 7, by a second candidate there and in the term before, and
times out. -/
def askedAgain : List Node.Event :=
  [.voteRequest ⟨7, [3], 0⟩, .voteRequest ⟨7, [2], 0⟩, .voteRequest ⟨6, [2], 0⟩, .main, .main]

/-- From the moment at which the node has heard of term 7 and not voted there, the term stays what
it is, and its vote goes to the third node and stays there. -/
theorem term_grows_and_vote_stays_votesTwice :
    ∃ n ∈ runAll Node.step Node.Regular (Node.start [1] [[1], [2], [3]]) votesOnce,
      ∃ n' ∈ runAll Node.step Node.Regular n askedAgain,
        n.raft.currentTerm = 7 ∧ n.raft.votedFor = [] ∧
          n'.raft.currentTerm = 7 ∧ n'.raft.votedFor = [3] ∧
            n.raft.currentTerm ≤ n'.raft.currentTerm ∧
              (n'.raft.votedFor = n.raft.votedFor ∨
                n.raft.votedFor = [] ∧ n'.raft.votedFor ≠ []) := by
  obtain ⟨n, hn, n', hn', hterm, hnone, hterm', hvote⟩ :
      ∃ n ∈ runAll Node.step Node.Regular (Node.start [1] [[1], [2], [3]]) votesOnce,
        ∃ n' ∈ runAll Node.step Node.Regular n askedAgain,
          n.raft.currentTerm = 7 ∧ n.raft.votedFor = [] ∧
            n'.raft.currentTerm = 7 ∧ n'.raft.votedFor = [3] := by
    decide +kernel
  obtain ⟨hgrows, hstays⟩ := term_grows_and_vote_stays (reach_of_runAll hn')
  exact ⟨n, hn, n', hn', hterm, hnone, hterm', hvote, hgrows, hstays (hterm'.trans hterm.symm)⟩

/-- **A term wraps around.**  One heartbeat takes a node that has just started to term
`2 ^ 64 - 1`; its next candidacy is one in term 0. -/
theorem term_wraps :
    ∃ n ∈ runAll Node.step (fun _ _ => True) (Node.start [1] [[1], [2], [3]])
        [.heartbeat ⟨18446744073709551615, [2]⟩],
      ∃ n' ∈ runAll Node.step (fun _ _ => True) n [.main, .main, .main, .main, .main],
        n.raft.currentTerm = 18446744073709551615 ∧ n'.raft.currentTerm = 0 ∧
          ¬ n.raft.currentTerm ≤ n'.raft.currentTerm := by
  decide +kernel

end Cluster
end Keva
