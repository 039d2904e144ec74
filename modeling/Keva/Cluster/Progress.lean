/-
# An election can always be won

`run`, `runFollower`, `runCandidate`, `runLeader` and `requestVoteRPC`
(`cluster/raft.go`).  Safety says that no term has two winners; it would also hold of
nodes that never elect anyone.  Here is what the goroutines can still do from wherever an
interleaving has left them: whatever was lost, whoever has voted for whom and however far
the terms have drifted apart, a node that does not lead can come to lead if and only if
a majority of the peers is running (`World.can_lead_iff`).

The node stands twice.  In its first election it may be far behind the others; the
responses carry it to the highest term among them (`World.canvass`).  In the second its
term is new to all, so that every peer that runs grants its vote.
-/

import Keva.Cluster.ElectionSafety

namespace Keva
namespace Cluster

open Protocol (VoteRequest VoteResponse Heartbeat)

variable {peers : List Addr} {a p : Addr} {n n' : Node} {el : Election} {e j : ℕ}

/-! ### What the terms do -/

namespace RaftState

variable {r : RaftState}

/-- A step-down takes over a higher term and no lower one. -/
theorem stepDown_currentTerm (r : RaftState) (term : UInt64) :
    (r.stepDown term).currentTerm.toNat = max r.currentTerm.toNat term.toNat := by
  unfold stepDown
  split_ifs with hnew
  · have := UInt64.lt_iff_toNat_lt.1 hnew
    exact (max_eq_right this.le).symm
  · have := UInt64.le_iff_toNat_le.1 (UInt64.not_lt.1 hnew)
    exact (max_eq_left this).symm

/-- A step-down makes nobody leader. -/
theorem stepDown_role (r : RaftState) (term : UInt64) (h : r.role ≠ .leader) :
    (r.stepDown term).role ≠ .leader := by
  unfold stepDown
  split_ifs
  · exact Role.noConfusion
  · exact h

/-- The response bears the voter's term, the larger of its own and that of the request. -/
theorem handleVoteRequest_term (r : RaftState) (req : VoteRequest) :
    (r.handleVoteRequest req).2.1.term = (r.handleVoteRequest req).1.currentTerm ∧
      (r.handleVoteRequest req).1.currentTerm.toNat
        = max r.currentTerm.toNat req.term.toNat := by
  unfold handleVoteRequest
  by_cases hold : req.term < r.currentTerm
  · rw [if_pos hold]
    exact ⟨rfl, (max_eq_left (UInt64.lt_iff_toNat_lt.1 hold).le).symm⟩
  have hle := UInt64.le_iff_toNat_le.1 (UInt64.not_lt.1 hold)
  rw [if_neg hold, max_eq_right hle]
  by_cases hlead : r.role = .leader ∧ req.term = r.currentTerm
  · rw [if_pos hlead]
    exact ⟨rfl, congrArg UInt64.toNat hlead.2.symm⟩
  rw [if_neg hlead]
  by_cases hnew : r.currentTerm < req.term
  · rw [if_pos hnew]
    dsimp only
    rw [if_pos (Or.inl rfl)]
    exact ⟨rfl, rfl⟩
  have hterm : r.currentTerm = req.term := UInt64.le_antisymm (UInt64.not_lt.1 hold)
    (UInt64.not_lt.1 hnew)
  rw [if_neg hnew]
  dsimp only
  split_ifs
  · exact ⟨rfl, congrArg UInt64.toNat hterm⟩
  · exact ⟨rfl, congrArg UInt64.toNat hterm⟩

/-- **A request of a newer term is granted,** by whoever is asked: the vote of a new term has not
been given. -/
theorem handleVoteRequest_granted {req : VoteRequest} (h : r.currentTerm < req.term) :
    (r.handleVoteRequest req).2.1 = ⟨req.term, true⟩ := by
  have hle : ¬req.term < r.currentTerm := UInt64.not_lt.2 (UInt64.le_of_lt h)
  have hne : ¬(r.role = .leader ∧ req.term = r.currentTerm) := fun hlead =>
    UInt64.ne_of_lt h hlead.2.symm
  unfold handleVoteRequest
  rw [if_neg hle, if_neg hne, if_pos h]
  dsimp only
  rw [if_pos (Or.inl rfl)]

/-- A response of the same term sets nothing. -/
theorem stepDown_self (r : RaftState) : r.stepDown r.currentTerm = r :=
  if_neg (UInt64.lt_irrefl _)

/-- There is a next term. -/
theorem currentTerm_ne (h : r.currentTerm.toNat + 1 < 2 ^ 64) : r.currentTerm ≠ -1 := by
  intro heq
  have hmax : (-1 : UInt64).toNat = 2 ^ 64 - 1 := rfl
  rw [heq, hmax] at h
  omega

/-- A candidacy raises the term by one, short of the last one. -/
theorem startElection_currentTerm (h : r.currentTerm.toNat + 1 < 2 ^ 64) :
    r.startElection.currentTerm.toNat = r.currentTerm.toNat + 1 := by
  change (r.currentTerm + 1).toNat = _
  rw [UInt64.toNat_add]
  exact Nat.mod_eq_of_lt h

/-- The count of the votes does not touch the term, and makes a leader only of a node that wins. -/
theorem finishElection_spec (r : RaftState) (term : UInt64) (got : ℤ) :
    (r.finishElection term got).1.currentTerm = r.currentTerm ∧
      ((r.finishElection term got).2 ≠ some true → r.role ≠ .leader →
        (r.finishElection term got).1.role ≠ .leader) := by
  unfold finishElection
  dsimp only
  split_ifs
  · exact ⟨rfl, fun _ h => h⟩
  · exact ⟨rfl, fun h => absurd rfl h⟩
  · exact ⟨rfl, fun _ _ => Role.noConfusion⟩

end RaftState

/-! ### Steps of `run` alone -/

/-- The election that `run` waits for or counts is one of the node's. -/
def Underway (n : Node) : Prop :=
  ∀ e, n.pc = .waiting e ∨ n.pc = .counting e → e < n.elections.length

/-- `run` goes on to wait for the election that it has just begun, which is the last one. -/
theorem Underway.main (h : Underway n) {out : List (Addr × Heartbeat)}
    (hm : n.main = some (n', out)) : Underway n' := by
  intro e he
  cases hpc : n.pc with
  | candidate =>
    simp only [Node.main, hpc] at hm
    obtain ⟨rfl, -⟩ := Prod.mk.inj (Option.some.inj hm)
    rcases he with he | he
    · obtain rfl := Pc.waiting.inj he
      simp
    · cases he
  | waiting e' =>
    simp only [Node.main, hpc] at hm
    obtain ⟨rfl, -⟩ := Prod.mk.inj (Option.some.inj hm)
    rcases he with he | he
    · cases he
    · exact h e (Or.inl (hpc.trans (congrArg Pc.waiting (Pc.counting.inj he))))
  | run =>
    cases hrole : n.raft.role <;> simp only [Node.main, hpc, hrole] at hm <;>
      obtain ⟨rfl, -⟩ := Prod.mk.inj (Option.some.inj hm) <;> simp at he
  | leader | recheck =>
    simp only [Node.main, hpc] at hm
    split_ifs at hm <;> obtain ⟨rfl, -⟩ := Prod.mk.inj (Option.some.inj hm) <;> simp at he
  | counting e' =>
    simp only [Node.main, hpc] at hm
    obtain ⟨el, -, hm⟩ := Option.bind_eq_some_iff.1 hm
    split at hm <;> obtain ⟨rfl, -⟩ := Prod.mk.inj (Option.some.inj hm) <;> simp at he
  | _ =>
    simp only [Node.main, hpc] at hm
    obtain ⟨rfl, -⟩ := Prod.mk.inj (Option.some.inj hm)
    simp at he

/-- Neither where `run` stands nor how many elections there are. -/
theorem Underway.aside (h : Underway n) (hpc : n'.pc = n.pc)
    (hlen : n'.elections.length = n.elections.length) : Underway n' := by
  unfold Underway
  rw [hpc, hlen]
  exact h

/-- **Every step of a node keeps its election underway:** polls change, but no election is
dropped. -/
theorem Underway.step (h : Underway n) {event : Node.Event} (hs : n.step event = some n') :
    Underway n' := by
  cases event with
  | main =>
    obtain ⟨⟨m, out⟩, hm, rfl⟩ := Option.map_eq_some_iff.1 hs
    exact h.main hm
  | heard =>
    change n.heard = some n' at hs
    unfold Node.heard at hs
    split_ifs at hs
    cases hpc : n.pc <;> simp only [hpc] at hs <;> cases hs <;> intro e he <;> simp at he
  | _ =>
    cases nodeStep_of_step hs <;> first
      | exact h.aside rfl rfl
      | exact h.aside rfl (List.length_set ..)

namespace Node

/-- `run` goes on by itself: timers fire, and no signal is taken. -/
abbrev Runs (n n' : Node) : Prop :=
  Reach (fun n (_ : Unit) => n.main.map Prod.fst)
    (fun n _ => n.pc = .candidate → n.raft.currentTerm ≠ -1) n n'

/-- The node leads, and its `Leader` is there to take followers: `onLeader` has been called. -/
def Leads (n : Node) : Prop := n.raft.role = .leader ∧ n.leader = true

/-- One more step of `run` in front. -/
theorem Runs.next {n₁ : Node} {out : List (Addr × Heartbeat)}
    (hpc : n.pc = .candidate → n.raft.currentTerm ≠ -1) (hm : n.main = some (n₁, out))
    (h : Runs n₁ n') : Runs n n' :=
  Reach.trans (.tail () .refl hpc (by rw [hm]; rfl)) h

/-- From the top of its loop a node that does not lead becomes a candidate. -/
theorem runs_candidate (hpc : n.pc = .run) (hrole : n.raft.role ≠ .leader) :
    Runs n { n with raft := { n.raft with role := .candidate }, pc := .candidate } := by
  obtain ⟨⟨nodeAddr, peers, term, votedFor, role, leaderAddr, ch⟩, pc, elections, posts, leader,
    ballots, won⟩ := n
  obtain rfl : pc = .run := hpc
  cases role with
  | leader => exact absurd rfl hrole
  | candidate => exact .next nofun rfl .refl
  | follower => exact .next nofun rfl (.next nofun rfl (.next nofun rfl (.next nofun rfl .refl)))

/-- The votes are counted, and the election is won or not.  In either case `run` goes on with the
next step and does not wait. -/
theorem main_of_counting (hpc : n.pc = .counting e) (hel : n.elections[e]? = some el) :
    (∃ raft, n.raft.finishElection el.term el.votes = (raft, some true) ∧
        n.main = some ({ n with raft := raft, pc := .won, won := el.term :: n.won }, [])) ∨
      ∃ raft won, n.raft.finishElection el.term el.votes = (raft, won) ∧ won ≠ some true ∧
        n.main = some ({ n with raft := raft, pc := .run }, []) := by
  rcases hfin : n.raft.finishElection el.term el.votes with ⟨raft, won⟩
  by_cases hwon : won = some true
  · subst hwon
    refine Or.inl ⟨raft, rfl, ?_⟩
    simp only [main, hpc, hel, Option.bind_eq_bind, Option.bind_some, hfin]
    rfl
  · refine Or.inr ⟨raft, won, rfl, hwon, ?_⟩
    simp only [main, hpc, hel, Option.bind_eq_bind, Option.bind_some, hfin]
    rfl

/-- An election comes to its end: it is won, or the node is at the top of its loop. -/
theorem runs_of_counting (hpc : n.pc = .counting e) (he : e < n.elections.length)
    (hrole : n.raft.role ≠ .leader) :
    ∃ n', Runs n n' ∧ (n'.Leads ∨ n'.pc = .run ∧ n'.raft.role ≠ .leader ∧
      n'.raft.currentTerm = n.raft.currentTerm) := by
  have hstart : n.pc = .candidate → n.raft.currentTerm ≠ -1 := by simp [hpc]
  rcases main_of_counting hpc (List.getElem?_eq_getElem he) with
    ⟨raft, hfin, hm⟩ | ⟨raft, won, hfin, hwon, hm⟩
  · refine ⟨_, .next hstart hm (.next nofun rfl .refl), Or.inl ⟨?_, rfl⟩⟩
    rw [(finishElection_won hfin).2.2]
  · obtain ⟨hterm, hlost⟩ := n.raft.finishElection_spec n.elections[e].term n.elections[e].votes
    rw [hfin] at hterm hlost
    exact ⟨_, .next hstart hm .refl, Or.inr ⟨rfl, hlost hwon hrole, hterm⟩⟩

/-- **Enough votes win.**  `run` counts them, takes the lead and calls `onLeader`, with steps of
its own only. -/
theorem runs_leads (hpc : n.pc = .waiting e) (hel : n.elections[e]? = some el)
    (hrole : n.raft.role = .candidate) (hterm : n.raft.currentTerm = el.term)
    (hvotes : (n.raft.peers.length / 2 + 1 : ℕ) ≤ el.votes) : ∃ n', Runs n n' ∧ n'.Leads := by
  have hm : n.main = some ({ n with pc := .counting e }, []) := by simp only [main, hpc]
  have hcurrent : ¬(n.raft.role ≠ .candidate ∨ n.raft.currentTerm ≠ el.term) := by
    simp [hrole, hterm]
  have hfin : n.raft.finishElection el.term el.votes
      = ({ n.raft with role := .leader, leaderAddr := n.raft.nodeAddr }, some true) := by
    unfold RaftState.finishElection
    rw [if_neg hcurrent]
    exact if_pos hvotes
  have hcount := main_of_counting (n := { n with pc := .counting e }) rfl hel
  dsimp only at hcount
  rw [hfin] at hcount
  rcases hcount with ⟨raft, hraft, hm'⟩ | ⟨raft, won, hlost, hne, -⟩
  · obtain ⟨rfl, -⟩ := Prod.mk.inj hraft
    exact ⟨_, .next (by simp [hpc]) hm (.next (by simp) hm' (.next (by simp) rfl .refl)), rfl, rfl⟩
  · exact absurd (Prod.mk.inj hlost).2.symm hne

/-- **`run` is never stuck.**  A node that does not lead gets to the top of its loop, unless
it wins the election it is in. -/
theorem runs_run (h : Underway n) (hrole : n.raft.role ≠ .leader)
    (hterm : n.raft.currentTerm.toNat + 1 < 2 ^ 64) :
    ∃ n', Runs n n' ∧ (n'.Leads ∨ n'.pc = .run ∧ n'.raft.role ≠ .leader ∧
      n.raft.currentTerm.toNat ≤ n'.raft.currentTerm.toNat ∧
      n'.raft.currentTerm.toNat ≤ n.raft.currentTerm.toNat + 1) := by
  obtain ⟨raft, pc, elections, posts, leader, ballots, won⟩ := n
  dsimp only at hrole hterm
  cases pc with
  | run => exact ⟨_, .refl, Or.inr ⟨rfl, hrole, le_rfl, Nat.le_succ _⟩⟩
  | follower =>
    exact ⟨_, .next nofun rfl (.next nofun rfl .refl),
      Or.inr ⟨rfl, Role.noConfusion, le_rfl, Nat.le_succ _⟩⟩
  | timedOut | stepBack =>
    exact ⟨_, .next nofun rfl .refl, Or.inr ⟨rfl, Role.noConfusion, le_rfl, Nat.le_succ _⟩⟩
  | won => exact ⟨_, .next nofun rfl .refl, Or.inr ⟨rfl, hrole, le_rfl, Nat.le_succ _⟩⟩
  | leader | recheck =>
    exact ⟨_, .next nofun (if_neg hrole) .refl, Or.inr ⟨rfl, hrole, le_rfl, Nat.le_succ _⟩⟩
  | leading term =>
    exact ⟨_, .next nofun rfl (.next nofun (if_neg hrole) .refl),
      Or.inr ⟨rfl, hrole, le_rfl, Nat.le_succ _⟩⟩
  | counting e =>
    obtain ⟨n', hruns, hn'⟩ := runs_of_counting rfl (h e (Or.inr rfl)) hrole
    exact ⟨n', hruns, hn'.imp_right fun ⟨hpc, hrole', heq⟩ =>
      ⟨hpc, hrole', heq ▸ le_rfl, heq ▸ Nat.le_succ _⟩⟩
  | waiting e =>
    obtain ⟨n', hruns, hn'⟩ := runs_of_counting (n := ⟨raft, .counting e, elections, posts, leader,
      ballots, won⟩) rfl (h e (Or.inl rfl)) hrole
    exact ⟨n', .next nofun rfl hruns, hn'.imp_right fun ⟨hpc, hrole', heq⟩ =>
      ⟨hpc, hrole', heq ▸ le_rfl, heq ▸ Nat.le_succ _⟩⟩
  | candidate =>
    have hgrow := RaftState.startElection_currentTerm hterm
    obtain ⟨n', hruns, hn'⟩ := runs_of_counting (n := ⟨raft.startElection,
      .counting elections.length, elections ++ [⟨raft.startElection.currentTerm,
        raft.startElection.otherPeers.map fun p => (p, .dialing)⟩], posts, leader,
      (raft.startElection.currentTerm, raft.startElection.votedFor) :: ballots, won⟩)
      rfl (by simp) hrole
    refine ⟨n', .next (fun _ => raft.currentTerm_ne hterm) rfl (.next nofun rfl hruns),
      hn'.imp_right fun ⟨hpc, hrole', heq⟩ => ⟨hpc, hrole', ?_, ?_⟩⟩
    all_goals
      rw [heq]
      dsimp only
      omega

end Node

/-! ### One vote -/

namespace World

variable {s s' : World}

/-- What `run` does by itself, the node does in its cluster: heartbeats may be sent on the way,
and no other node is touched. -/
theorem reach_of_runs (h : n.Runs n') (hn : s.nodes a = some n) :
    ∃ s', Reach step NoOverflow s s' ∧ s'.nodes = Function.update s.nodes a (some n') := by
  induction h with
  | refl => exact ⟨s, .refl, (Function.update_eq_self_iff.2 hn.symm).symm⟩
  | @tail n₁ n₂ _ _ hok hm ih =>
    obtain ⟨s₁, hs₁, hnodes⟩ := ih
    obtain ⟨⟨m, out⟩, hmain, rfl⟩ := Option.map_eq_some_iff.1 hm
    have hn₁ : s₁.nodes a = some n₁ := by rw [hnodes, Function.update_self]
    refine ⟨{ s₁.set a m with beats := s₁.beats ++ out }, .tail (.main a) hs₁ ?_ ?_, ?_⟩
    · intro n₁' hn₁'
      obtain rfl := Option.some.inj (hn₁.symm.trans hn₁')
      exact hok
    · simp [step, hn₁, hmain]
    · change Function.update s₁.nodes a (some m) = _
      rw [hnodes, Function.update_idem]

/-- The goroutine at place `j` of an election has moved on. -/
theorem poll_setPoll {stage stage' : Stage} (h : n.poll e j = some (el, p, stage)) :
    (n.setPoll e el j p stage').poll e j
      = some ({ el with polls := el.polls.set j (p, stage') }, p, stage') := by
  obtain ⟨hel, hj⟩ := getElem?_of_poll h
  have hlt : e < n.elections.length := (List.getElem?_eq_some_iff.1 hel).1
  have hlt' : j < el.polls.length := (List.getElem?_eq_some_iff.1 hj).1
  simp [Node.poll, Node.setPoll, List.getElem?_set_self hlt, List.getElem?_set_self hlt']

/-- Of two changes to a poll the second counts. -/
theorem setPoll_setPoll (n : Node) (el : Election) (stage stage' : Stage) :
    (n.setPoll e el j p stage).setPoll e { el with polls := el.polls.set j (p, stage) } j p stage'
      = n.setPoll e el j p stage' := by
  simp [Node.setPoll]

/-- The node that was put there. -/
@[simp]
theorem set_nodes_self (s : World) (a : Addr) (n : Node) : (s.set a n).nodes a = some n :=
  Function.update_self ..

/-- Every other node is as it was. -/
theorem set_nodes_of_ne {b : Addr} (h : b ≠ a) (s : World) (n : Node) :
    (s.set a n).nodes b = s.nodes b :=
  Function.update_of_ne h ..

/-- Of two changes to a node the second counts. -/
@[simp]
theorem set_set (s : World) (a : Addr) (n n' : Node) : (s.set a n).set a n' = s.set a n' := by
  simp [set]

/-- A change to another node in between makes no difference. -/
theorem set_set_set (h : p ≠ a) (s : World) (n n' m : Node) :
    ((s.set a n).set p m).set a n' = (s.set p m).set a n' := by
  simp only [set]
  rw [Function.update_comm h.symm, Function.update_idem]

/-- **A peer that runs is asked and answers:** the request is sent and handled, the response
comes back and is looked at, and the vote is reported. -/
theorem reach_of_asked {voter : Node} (hn : s.nodes a = some n)
    (hpoll : n.poll e j = some (el, p, .dialing)) (hp : s.nodes p = some voter) (hne : p ≠ a)
    {voter' : Node} {resp : VoteResponse}
    (hvote : voter.handleVoteRequest ⟨el.term, n.raft.nodeAddr, 0⟩ = (voter', resp)) :
    Reach step NoOverflow s ((s.set p voter').set a
      (({ n with raft := n.raft.stepDown resp.term } : Node).setPoll e el j p
        (.done resp.granted))) := by
  have hsend : s.step (.send a e j) = some (s.set a (n.setPoll e el j p .sent)) := by
    simp [step, hn, hpoll]
  have hasked : (s.set a (n.setPoll e el j p .sent)).step (.vote a e j)
      = some ((s.set p voter').set a (n.setPoll e el j p (.replied resp))) := by
    have hvote' : voter.handleVoteRequest ⟨el.term, (n.setPoll e el j p .sent).raft.nodeAddr, 0⟩
        = (voter', resp) := hvote
    simp only [step, set_nodes_self, set_nodes_of_ne hne, set_nodes_of_ne hne.symm,
      poll_setPoll hpoll, hp, hvote', Option.bind_eq_bind, Option.bind_some, setPoll_setPoll,
      set_set_set hne]
    rfl
  have hreply : ((s.set p voter').set a (n.setPoll e el j p (.replied resp))).step (.reply a e j)
      = some ((s.set p voter').set a (({ n with raft := n.raft.stepDown resp.term } :
          Node).setPoll e el j p (.answered resp.granted))) := by
    simp only [step, set_nodes_self, poll_setPoll hpoll, Option.bind_eq_bind, Option.bind_some,
      set_set]
    exact congrArg (fun m => some ((s.set p voter').set a m))
      (setPoll_setPoll { n with raft := n.raft.stepDown resp.term } el _ _)
  have hcount : ((s.set p voter').set a (({ n with raft := n.raft.stepDown resp.term } :
          Node).setPoll e el j p (.answered resp.granted))).step (.count a e j)
      = some ((s.set p voter').set a (({ n with raft := n.raft.stepDown resp.term } :
          Node).setPoll e el j p (.done resp.granted))) := by
    have hpoll' : ({ n with raft := n.raft.stepDown resp.term } : Node).poll e j
      = some (el, p, .dialing) := hpoll
    simp only [step, set_nodes_self, poll_setPoll hpoll', Option.bind_eq_bind, Option.bind_some,
      set_set, setPoll_setPoll]
    rfl
  exact .tail (.count a e j) (.tail (.reply a e j) (.tail (.vote a e j)
    (.tail (.send a e j) .refl trivial hsend) trivial hasked) trivial hreply) trivial hcount

/-- A peer that does not run cannot be dialled. -/
theorem reach_of_lost (hn : s.nodes a = some n) (hpoll : n.poll e j = some (el, p, .dialing)) :
    Reach step NoOverflow s (s.set a (n.setPoll e el j p (.done false))) :=
  .tail (.lose a e j) .refl trivial (by simp [step, hn, hpoll])

/-! ### All votes -/

/-- No node has passed term `t`.  An election in a later term is new to all of them. -/
def Below (s : World) (t : ℕ) : Prop :=
  ∀ b m, s.nodes b = some m → m.raft.currentTerm.toNat ≤ t

/-- What comes of asking `peers` for their votes for node `a` in a term: their `answers`
are counted, the candidate's term is at least that of all it has heard from, and if the
term is new to all of them it is still a candidate and has the votes of those that run. -/
structure Canvassed (a : Addr) (term : UInt64) (peers : List Addr) (answers : List (Addr × Stage))
    (s s' : World) (n n' : Node) : Prop where
  node : s'.nodes a = some n'
  pc_eq : n'.pc = n.pc
  others : ∀ b, b ≠ a → b ∉ peers → s'.nodes b = s.nodes b
  follows : n.raft.role ≠ .leader → n'.raft.role ≠ .leader
  grows : n.raft.currentTerm.toNat ≤ n'.raft.currentTerm.toNat
  heard : ∀ b ∈ peers, ∀ m, s'.nodes b = some m →
    m.raft.currentTerm.toNat ≤ n'.raft.currentTerm.toNat
  below : ∀ t, s.Below t → term.toNat ≤ t → s'.Below t
  granted : (∀ b ∈ peers, ∀ m, s.nodes b = some m → m.raft.currentTerm < term) →
    n.raft.currentTerm = term →
      n'.raft = n.raft ∧ answers = peers.map fun b => (b, .done (s.nodes b).isSome)

/-- The next peer, and those after it. -/
theorem Canvassed.trans {term : UInt64} {rest : List Addr} {x : Addr × Stage}
    {answers : List (Addr × Stage)} {s₁ : World} {n₁ : Node}
    (h : Canvassed a term [p] [x] s s₁ n n₁) (h' : Canvassed a term rest answers s₁ s' n₁ n')
    (hp : p ∉ rest) (hpa : p ≠ a) (ha : a ∉ rest) :
    Canvassed a term (p :: rest) (x :: answers) s s' n n' := by
  have hsame : ∀ b ∈ rest, s₁.nodes b = s.nodes b := fun b hb =>
    h.others b (ne_of_mem_of_not_mem hb ha)
      (List.mem_singleton.not.2 (ne_of_mem_of_not_mem hb hp))
  refine ⟨h'.node, h'.pc_eq.trans h.pc_eq, fun b hba hb => ?_, fun hf => h'.follows (h.follows hf),
    h.grows.trans h'.grows, fun b hb m hm => ?_, fun t ht hle => h'.below t (h.below t ht hle) hle,
    fun hnew hterm => ?_⟩
  · obtain ⟨hbp, hb⟩ := not_or.1 (List.mem_cons.not.1 hb)
    rw [h'.others b hba hb, h.others b hba (List.mem_singleton.not.2 hbp)]
  · rcases List.mem_cons.1 hb with rfl | hb
    · rw [h'.others b hpa hp] at hm
      exact (h.heard b List.mem_cons_self m hm).trans h'.grows
    · exact h'.heard b hb m hm
  · obtain ⟨hraft, hx⟩ := h.granted (fun b hb => hnew b (List.mem_cons.2 (Or.inl
      (List.mem_singleton.1 hb)))) hterm
    obtain ⟨hraft', hanswers⟩ := h'.granted (fun b hb m hm =>
      hnew b (List.mem_cons_of_mem _ hb) m (hsame b hb ▸ hm)) (hraft ▸ hterm)
    refine ⟨hraft'.trans hraft, ?_⟩
    rw [hanswers, List.map_cons, List.map_congr_left fun b hb => by rw [hsame b hb],
      ← List.singleton_append, hx]
    rfl

/-- What the answer of a peer that runs tells. -/
theorem handleVoteRequest_spec {voter voter' : Node} {req : VoteRequest} {resp : VoteResponse}
    (h : voter.handleVoteRequest req = (voter', resp)) :
    resp.term = voter'.raft.currentTerm ∧
      voter'.raft.currentTerm.toNat = max voter.raft.currentTerm.toNat req.term.toNat ∧
      (voter.raft.currentTerm < req.term → resp = ⟨req.term, true⟩) := by
  obtain ⟨rfl, rfl⟩ := Prod.mk.inj h
  obtain ⟨hresp, hterm⟩ := voter.raft.handleVoteRequest_term req
  exact ⟨hresp, hterm, RaftState.handleVoteRequest_granted⟩

/-- **One peer is asked,** and answers if it runs; a peer that does not run cannot be dialed, and
counts as a vote that was refused. -/
theorem canvass_one {term : UInt64} {asked later : List (Addr × Stage)} (hn : s.nodes a = some n)
    (hel : n.elections[e]? = some ⟨term, asked ++ (p, .dialing) :: later⟩) (hpa : p ≠ a) :
    ∃ s' n' stage, Reach step NoOverflow s s' ∧
      n'.elections[e]? = some ⟨term, asked ++ (p, stage) :: later⟩ ∧
      Canvassed a term [p] [(p, stage)] s s' n n' := by
  have hpoll : n.poll e asked.length
      = some (⟨term, asked ++ (p, .dialing) :: later⟩, p, .dialing) := by
    simp [Node.poll, hel]
  have hlt : e < n.elections.length := (List.getElem?_eq_some_iff.1 hel).1
  cases hp : s.nodes p with
  | none =>
    refine ⟨_, _, .done false, reach_of_lost hn hpoll, ?_, ⟨set_nodes_self .., rfl,
      fun b hba _ => set_nodes_of_ne hba .., id, le_rfl, fun b hb m hm => ?_, fun t ht _ b m hm => ?_,
      fun _ _ => ⟨rfl, by simp [hp]⟩⟩⟩
    · simp [Node.setPoll, List.getElem?_set_self hlt]
    · obtain rfl := List.mem_singleton.1 hb
      rw [set_nodes_of_ne hpa, hp] at hm
      cases hm
    · rcases node_of_update hm with ⟨-, rfl⟩ | hm
      · exact ht a n hn
      · exact ht b m hm
  | some voter =>
    rcases hvote : voter.handleVoteRequest ⟨term, n.raft.nodeAddr, 0⟩ with ⟨voter', resp⟩
    obtain ⟨hresp, hterm, hgrant⟩ := handleVoteRequest_spec hvote
    have hstep := n.raft.stepDown_currentTerm resp.term
    refine ⟨_, _, .done resp.granted, reach_of_asked hn hpoll hp hpa hvote, ?_,
      ⟨set_nodes_self .., rfl, fun b hba hb => ?_, n.raft.stepDown_role _, ?_, fun b hb m hm => ?_,
        fun t ht hle b m hm => ?_, fun hnew hcur => ?_⟩⟩
    · simp [Node.setPoll, List.getElem?_set_self hlt]
    · rw [set_nodes_of_ne hba, set_nodes_of_ne (List.mem_singleton.not.1 hb)]
    · exact hstep ▸ le_max_left _ _
    · obtain rfl := List.mem_singleton.1 hb
      rw [set_nodes_of_ne hpa, set_nodes_self] at hm
      obtain rfl := Option.some.inj hm
      exact hstep ▸ hresp ▸ le_max_right _ _
    · have hvoter : voter'.raft.currentTerm.toNat ≤ t := hterm ▸ max_le (ht p voter hp) hle
      rcases node_of_update hm with ⟨-, rfl⟩ | hm
      · exact hstep ▸ max_le (ht a n hn) (hresp ▸ hvoter)
      · rcases node_of_update hm with ⟨-, rfl⟩ | hm
        · exact hvoter
        · exact ht b m hm
    · obtain rfl := hgrant (hnew p List.mem_cons_self voter hp)
      refine ⟨?_, by simp [hp]⟩
      change n.raft.stepDown term = n.raft
      rw [← hcur, n.raft.stepDown_self]

/-- **All peers are asked,** one after the other.  By induction on those that are left, and what
comes of each is put together by `Canvassed`. -/
theorem canvass {term : UInt64} {rest : List Addr} (hnd : rest.Nodup) (ha : a ∉ rest) :
    ∀ {s : World} {n : Node} {asked : List (Addr × Stage)}, s.nodes a = some n →
      n.elections[e]? = some ⟨term, asked ++ rest.map fun b => (b, .dialing)⟩ →
      ∃ s' n' answers, Reach step NoOverflow s s' ∧
        n'.elections[e]? = some ⟨term, asked ++ answers⟩ ∧
        Canvassed a term rest answers s s' n n' := by
  induction rest with
  | nil =>
    intro s n asked hn hel
    exact ⟨s, n, [], .refl, hel, hn, rfl, fun _ _ _ => rfl, id, le_rfl, nofun, fun _ h _ => h,
      fun _ _ => ⟨rfl, rfl⟩⟩
  | cons p rest ih =>
    intro s n asked hn hel
    obtain ⟨hp, hnd⟩ := List.nodup_cons.1 hnd
    obtain ⟨hap, ha⟩ := not_or.1 (List.mem_cons.not.1 ha)
    obtain ⟨s₁, n₁, stage, hreach₁, hel₁, hasked⟩ := canvass_one hn hel (Ne.symm hap)
    rw [List.append_cons] at hel₁
    obtain ⟨s₂, n₂, answers, hreach₂, hel₂, hrest⟩ := ih hnd ha hasked.node hel₁
    rw [← List.append_cons] at hel₂
    exact ⟨s₂, n₂, _, hreach₁.trans hreach₂, hel₂, hasked.trans hrest hp (Ne.symm hap) ha⟩

/-! ### Standing for election -/

/-- Node `a` leads in this state of the cluster. -/
def LeadsAt (s : World) (a : Addr) : Prop := ∃ n, s.nodes a = some n ∧ n.Leads

/-- **Every node that does not lead can stand,** unless it wins before: from each place where
`run` may be it has steps of its own to the candidacy, in which its term does not become smaller. -/
theorem stand {t : ℕ} (hn : s.nodes a = some n) (hcur : Underway n) (hrole : n.raft.role ≠ .leader)
    (hbelow : s.Below t) (ht : t + 1 < 2 ^ 64) :
    ∃ s', Reach step NoOverflow s s' ∧ (s'.LeadsAt a ∨ s'.Below (t + 1) ∧
      (∀ b, b ≠ a → s'.nodes b = s.nodes b) ∧ ∃ n', s'.nodes a = some n' ∧ n'.pc = .candidate ∧
        n'.raft.role = .candidate ∧ n.raft.currentTerm.toNat ≤ n'.raft.currentTerm.toNat) := by
  have hle := hbelow a n hn
  obtain ⟨n₁, hruns, hn₁⟩ := Node.runs_run hcur hrole (by omega)
  rcases hn₁ with hleads | ⟨hpc, hrole₁, hge, hterm⟩
  · obtain ⟨s', hs', hnodes⟩ := reach_of_runs hruns hn
    exact ⟨s', hs', Or.inl ⟨n₁, by rw [hnodes, Function.update_self], hleads⟩⟩
  · obtain ⟨s', hs', hnodes⟩ := reach_of_runs (hruns.trans (Node.runs_candidate hpc hrole₁)) hn
    refine ⟨s', hs', Or.inr ⟨fun b m hm => ?_, fun b hb => ?_,
      { n₁ with raft := { n₁.raft with role := .candidate }, pc := .candidate }, ?_, rfl, rfl, hge⟩⟩
    · rw [hnodes] at hm
      rcases node_of_update hm with ⟨-, rfl⟩ | hm
      · exact hterm.trans (Nat.succ_le_succ hle)
      · exact (hbelow b m hm).trans (Nat.le_succ t)
    · rw [hnodes, Function.update_of_ne hb]
    · rw [hnodes, Function.update_self]

/-- **An election begins and all peers are asked.**  The term is the one after the candidate's,
and no node passes the term after the largest there was. -/
theorem campaign {t : ℕ} (hn : s.nodes a = some n) (hnd : n.raft.otherPeers.Nodup)
    (ha : a ∉ n.raft.otherPeers) (hpc : n.pc = .candidate) (hbelow : s.Below t)
    (ht : t + 1 < 2 ^ 64) :
    ∃ s₁ n₁ s' n' answers, Reach step NoOverflow s s' ∧ s'.Below (t + 1) ∧
      (∀ b, b ≠ a → s₁.nodes b = s.nodes b) ∧ n₁.raft = n.raft.startElection ∧
      n₁.pc = .waiting n.elections.length ∧
      n'.elections[n.elections.length]? = some ⟨n.raft.startElection.currentTerm, answers⟩ ∧
      Canvassed a n.raft.startElection.currentTerm n.raft.otherPeers answers s₁ s' n₁ n' := by
  have hle := hbelow a n hn
  have hlt : n.raft.currentTerm.toNat + 1 < 2 ^ 64 := by omega
  have hgrow := RaftState.startElection_currentTerm hlt
  have hm : n.main = some ({ n with
      raft := n.raft.startElection
      elections := n.elections ++ [⟨n.raft.startElection.currentTerm,
        [] ++ n.raft.otherPeers.map fun p => (p, .dialing)⟩]
      pc := .waiting n.elections.length
      ballots := (n.raft.startElection.currentTerm, n.raft.startElection.votedFor) :: n.ballots },
      []) := by
    simp only [Node.main, hpc]
    rfl
  obtain ⟨s₁, hs₁, hnodes⟩ :=
    reach_of_runs (.next (fun _ => n.raft.currentTerm_ne hlt) hm .refl) hn
  have hn₁ := congrFun hnodes a
  rw [Function.update_self] at hn₁
  have hbelow₁ : s₁.Below (t + 1) := by
    intro b m hm
    rw [hnodes] at hm
    rcases node_of_update hm with ⟨-, rfl⟩ | hm
    · exact hgrow.trans_le (Nat.succ_le_succ hle)
    · exact (hbelow b m hm).trans (Nat.le_succ t)
  obtain ⟨s', n', answers, hs', hel, hcan⟩ := canvass hnd ha hn₁ List.getElem?_concat_length
  exact ⟨s₁, _, s', n', answers, hs₁.trans hs',
    hcan.below _ hbelow₁ (hgrow.trans_le (Nat.succ_le_succ hle)),
    fun b hb => by rw [hnodes, Function.update_of_ne hb], rfl, rfl, hel, hcan⟩

/-! ### Who can lead -/

variable {nodes : List Addr}

/-- What election safety rests on holds in every reachable state. -/
theorem inv_of_reach (hnd : peers.Nodup) (hnodes : ∀ a ∈ nodes, a ∈ peers ∧ a ≠ [])
    (hs : Reach step NoOverflow (start peers nodes) s) : Inv peers s.nodes :=
  hs.invariant (P := fun s => Inv peers s.nodes) (inv_start hnodes)
    fun _ _ _ h hover hstep => inv_step h hnd hover hstep

/-- In every reachable state the election that a node waits for is one of its own. -/
theorem underway_of_reach (hs : Reach step NoOverflow (start peers nodes) s)
    (hn : s.nodes a = some n) : Underway n :=
  (reach_node hs hn).invariant (P := Underway) (fun e he => by simp [Node.start] at he)
    fun _ _ _ h _ hstep => h.step hstep

/-- The nodes that were started run on. -/
theorem isSome_nodes (hs : Reach step NoOverflow (start peers nodes) s) (b : Addr) :
    (s.nodes b).isSome = decide (b ∈ nodes) := by
  induction hs with
  | refl =>
    change (if b ∈ nodes then some _ else none : Option Node).isSome = _
    split_ifs with hb <;> simp [hb]
  | tail event _ _ hstep ih =>
    rw [← ih]
    have hsame : ∀ {ok : Node → Node.Event → Prop} {o o' : Option Node},
        Option.Rel (Reach Node.step ok) o o' → o'.isSome = o.isSome := by
      rintro _ _ _ (_ | _) <;> rfl
    exact hsame (becomes_nodes hstep b)

/-- The counter after all peers have answered. -/
theorem votes_of_answers {others : List Addr} (hsmall : others.length + 1 < 2 ^ 31) (term : UInt64)
    (granted : Addr → Bool) :
    Election.votes ⟨term, others.map fun b => (b, .done (granted b))⟩
      = 1 + (others.filter granted).length := by
  have hle := List.length_filter_le granted others
  have hcount : (others.map fun b => (b, Stage.done (granted b))).countP
      (fun x => x.2 = .done true) = (others.filter granted).length := by
    rw [List.countP_map, ← List.countP_eq_length_filter]
    exact List.countP_congr fun b _ => by simp
  unfold Election.votes
  rw [hcount, Int.bmod_def]
  split_ifs <;> omega

/-- A candidate and the peers that grant their votes are as many as the nodes that run. -/
theorem length_le_voters (hnodup : nodes.Nodup) (hsub : nodes ⊆ peers) (ha : a ∈ nodes) :
    nodes.length ≤ 1 + ((peers.filter fun p => p ≠ a).filter fun b => b ∈ nodes).length := by
  have hsubset : nodes.erase a ⊆ (peers.filter fun p => p ≠ a).filter fun b => b ∈ nodes := by
    intro b hb
    obtain ⟨hba, hb⟩ := hnodup.mem_erase_iff.1 hb
    simp [hsub hb, hba, hb]
  have hle := (List.subperm_of_subset (hnodup.erase a) hsubset).length_le
  rw [List.length_erase_of_mem ha] at hle
  omega

/-- **The first election brings a node up to the others:** whoever answers tells its term, and
after all answers no node is in a newer term than the candidate. -/
theorem catch_up {t : ℕ} (hnd : peers.Nodup) (hnodes : ∀ a ∈ nodes, a ∈ peers ∧ a ≠ [])
    (hs : Reach step NoOverflow (start peers nodes) s) (hn : s.nodes a = some n)
    (hrole : n.raft.role ≠ .leader) (hbelow : s.Below t) (ht : t + 2 < 2 ^ 64) :
    ∃ s', Reach step NoOverflow s s' ∧ (s'.LeadsAt a ∨ ∃ n', s'.nodes a = some n' ∧
      n'.raft.role ≠ .leader ∧ s'.Below n'.raft.currentTerm.toNat ∧
      n'.raft.currentTerm.toNat ≤ t + 2) := by
  obtain ⟨s₁, hs₁, hleads | ⟨hbelow₁, -, n₁, hn₁, hpc, hcand, -⟩⟩ :=
    stand hn (underway_of_reach hs hn) hrole hbelow (by omega)
  · exact ⟨s₁, hs₁, Or.inl hleads⟩
  have hinv₁ := inv_of_reach hnd hnodes (hs.trans hs₁)
  have hothers : n₁.raft.otherPeers = peers.filter fun p => p ≠ a := by
    rw [RaftState.otherPeers, (hinv₁.node a n₁ hn₁).peers_eq, (hinv₁.node a n₁ hn₁).nodeAddr_eq]
  obtain ⟨s₂, n₂, s', n', answers, hs', hbelow', -, hraft, -, -, hcan⟩ :=
    campaign hn₁ (hothers ▸ hnd.filter _) (by simp [hothers]) hpc hbelow₁ (by omega)
  have hinv' := inv_of_reach hnd hnodes ((hs.trans hs₁).trans hs')
  refine ⟨s', hs₁.trans hs', Or.inr ⟨n', hcan.node, hcan.follows ?_, fun b m hm => ?_,
    hbelow' a n' hcan.node⟩⟩
  · rw [hraft]
    exact fun h => Role.noConfusion (hcand.symm.trans h)
  · by_cases hba : b = a
    · subst hba
      rw [Option.some.inj (hm.symm.trans hcan.node)]
    · exact hcan.heard b (by simp [hothers, hba, (hinv'.listed b m hm).1]) m hm

/-- **The second election is won:** its term is new to every peer, each of those that run votes
for it, and they are a quorum. -/
theorem win (hnd : peers.Nodup) (hnodup : nodes.Nodup)
    (hnodes : ∀ a ∈ nodes, a ∈ peers ∧ a ≠ []) (hquorum : peers.length / 2 + 1 ≤ nodes.length)
    (hsmall : peers.length < 2 ^ 31) (hs : Reach step NoOverflow (start peers nodes) s)
    (hn : s.nodes a = some n) (hrole : n.raft.role ≠ .leader)
    (hbelow : s.Below n.raft.currentTerm.toNat) (hterm : n.raft.currentTerm.toNat + 2 < 2 ^ 64) :
    ∃ s', Reach step NoOverflow s s' ∧ s'.LeadsAt a := by
  obtain ⟨s₁, hs₁, hleads | ⟨hbelow₁, hsame, n₁, hn₁, hpc, hcand, hge⟩⟩ :=
    stand hn (underway_of_reach hs hn) hrole hbelow (by omega)
  · exact ⟨s₁, hs₁, hleads⟩
  have hreach₁ := hs.trans hs₁
  have hinv₁ := inv_of_reach hnd hnodes hreach₁
  have hpeers : n₁.raft.peers = peers := (hinv₁.node a n₁ hn₁).peers_eq
  have hothers : n₁.raft.otherPeers = peers.filter fun p => p ≠ a := by
    rw [RaftState.otherPeers, hpeers, (hinv₁.node a n₁ hn₁).nodeAddr_eq]
  have hgrow := RaftState.startElection_currentTerm (r := n₁.raft)
    (Nat.lt_of_le_of_lt (Nat.succ_le_succ (hbelow₁ a n₁ hn₁)) hterm)
  obtain ⟨s₂, n₂, s₃, n₃, answers, hs₃, -, hsame₂, hraft, hpc₂, hel, hcan⟩ :=
    campaign hn₁ (hothers ▸ hnd.filter _) (by simp [hothers]) hpc hbelow₁ hterm
  have hnew : ∀ b ∈ n₁.raft.otherPeers, ∀ m, s₂.nodes b = some m →
      m.raft.currentTerm < n₁.raft.startElection.currentTerm := by
    intro b hb m hm
    have hba : b ≠ a := by
      rw [hothers] at hb
      simpa using (List.mem_filter.1 hb).2
    rw [hsame₂ b hba, hsame b hba] at hm
    have hle := hbelow b m hm
    exact UInt64.lt_iff_toNat_lt.2 (by omega)
  obtain ⟨hraft₃, hanswers⟩ := hcan.granted hnew (by rw [hraft])
  have hraft' : n₃.raft = n₁.raft.startElection := hraft₃.trans hraft
  have hgranted : answers = (peers.filter fun p => p ≠ a).map
      fun b => (b, .done (decide (b ∈ nodes))) := by
    rw [hanswers, hothers]
    refine List.map_congr_left fun b hb => ?_
    have hba : b ≠ a := by simpa using (List.mem_filter.1 hb).2
    rw [hsame₂ b hba, hsame b hba, isSome_nodes hs b]
  have ha : a ∈ nodes := by simpa [hn] using isSome_nodes hs a
  have hvoters := length_le_voters hnodup (fun b hb => (hnodes b hb).1) ha
  have hlt : (peers.filter fun p => p ≠ a).length < peers.length :=
    List.length_filter_lt_length_iff_exists.2 ⟨a, (hnodes a ha).1, by simp⟩
  have hvotes := votes_of_answers
    (by omega : (peers.filter fun p => p ≠ a).length + 1 < 2 ^ 31)
    n₁.raft.startElection.currentTerm fun b => decide (b ∈ nodes)
  obtain ⟨n', hruns, hleads⟩ := Node.runs_leads (hcan.pc_eq.trans hpc₂) hel
    (by rw [hraft']; exact hcand) (by rw [hraft'])
    (by
      have hpeers' : n₃.raft.peers = peers := by rw [hraft']; exact hpeers
      rw [hgranted, hvotes, hpeers']
      omega)
  obtain ⟨s', hs', hnodes'⟩ := reach_of_runs hruns hcan.node
  exact ⟨s', (hs₁.trans hs₃).trans hs', n', by rw [hnodes', Function.update_self], hleads⟩

/-- No node leads without the votes of a majority, and only nodes that run vote. -/
theorem majority_of_leadsAt (hnd : peers.Nodup) (hnodes : ∀ a ∈ nodes, a ∈ peers ∧ a ≠ [])
    (hs : Reach step NoOverflow (start peers nodes) s) (h : s.LeadsAt a) :
    peers.length / 2 + 1 ≤ nodes.length := by
  obtain ⟨n, hn, hrole, -⟩ := h
  have hinv := inv_of_reach hnd hnodes hs
  have hwon := ((hinv.node a n hn).leads hrole).2
  obtain ⟨Q, hQ, hbacked⟩ := hinv.backed a n hn _ (List.mem_of_mem_head? hwon)
  have hsub : Q ⊆ nodes.toFinset := by
    intro v hv
    obtain ⟨m, hm, -⟩ := hbacked v hv
    have hmem := isSome_nodes hs v
    rw [hm] at hmem
    exact List.mem_toFinset.2 (of_decide_eq_true hmem.symm)
  have hcard := (Finset.card_le_card hsub).trans nodes.toFinset_card_le
  have hmaj := hQ.2
  omega

/-- **An election can be won exactly if a majority runs.**  Nodes with distinct non-empty
addresses and the same duplicate-free list of peers start and never restart.  Take any
state they reach by any interleaving, with whatever votes given, requests on their way and
responses lost, and any node that does not lead there.  Some continuation makes it the
leader, with its `Leader` in place, if and only if a majority of the peers is running. -/
theorem can_lead_iff (hnd : peers.Nodup) (hsmall : peers.length < 2 ^ 31) (hnodup : nodes.Nodup)
    (hnodes : ∀ a ∈ nodes, a ∈ peers ∧ a ≠ [])
    (hs : Reach step NoOverflow (start peers nodes) s)
    (hterms : ∀ b m, s.nodes b = some m → m.raft.currentTerm.toNat + 4 < 2 ^ 64)
    (hn : s.nodes a = some n) (hrole : n.raft.role ≠ .leader) :
    (∃ s', Reach step NoOverflow s s' ∧ ∃ n', s'.nodes a = some n' ∧ n'.raft.role = .leader ∧
        n'.leader = true) ↔ peers.length / 2 + 1 ≤ nodes.length := by
  constructor
  · rintro ⟨s', hs', hleads⟩
    exact majority_of_leadsAt hnd hnodes (hs.trans hs') hleads
  · intro hquorum
    have hbelow : s.Below (2 ^ 64 - 5) := fun b m hm => by
      have := hterms b m hm
      omega
    obtain ⟨s₁, hs₁, hleads | ⟨n₁, hn₁, hrole₁, hbelow₁, hle⟩⟩ :=
      catch_up hnd hnodes hs hn hrole hbelow (by omega)
    · exact ⟨s₁, hs₁, hleads⟩
    · obtain ⟨s₂, hs₂, hleads⟩ := win hnd hnodup hnodes hquorum hsmall (hs.trans hs₁) hn₁ hrole₁
        hbelow₁ (by omega)
      exact ⟨s₂, hs₁.trans hs₂, hleads⟩

/-- Of three nodes the last is down.  The other two stand in term 1, and each refuses the
other its vote. -/
def splitVote : List Event :=
  [.main [1], .main [1], .main [1], .main [1], .main [1],
    .main [2], .main [2], .main [2], .main [2], .main [2],
    .send [1] 0 0, .vote [1] 0 0, .send [2] 0 0, .vote [2] 0 0,
    .reply [1] 0 0, .lose [2] 0 0, .lose [1] 0 1, .main [1], .main [1]]

/-- After the split vote, and with the third node down for good, the first can still come to
lead. -/
theorem can_lead_iff_splitVote :
    ∃ s ∈ runAll step NoOverflow (start [[1], [2], [3]] [[1], [2]]) splitVote,
      ∃ s', Reach step NoOverflow s s' ∧ ∃ n', s'.nodes [1] = some n' ∧
        n'.raft.role = .leader ∧ n'.leader = true := by
  obtain ⟨s, hs, h₁, h₂⟩ :
      ∃ s ∈ runAll step NoOverflow (start [[1], [2], [3]] [[1], [2]]) splitVote,
        (s.nodes [1]).map (fun n => (n.raft.currentTerm, n.raft.role)) = some (1, .follower) ∧
          (s.nodes [2]).map (fun n => n.raft.currentTerm) = some 1 := by
    decide +kernel
  obtain ⟨n, hn, hn'⟩ := Option.map_eq_some_iff.1 h₁
  obtain ⟨m, hm, hm'⟩ := Option.map_eq_some_iff.1 h₂
  obtain ⟨hterm, hrole⟩ := Prod.mk.inj hn'
  have hreach := reach_of_runAll hs
  refine ⟨s, hs, (can_lead_iff (by decide) (by decide) (by decide) (by decide) hreach ?_ hn
    (by rw [hrole]; exact Role.noConfusion)).2 (by decide)⟩
  intro b m' hb
  have hmem := isSome_nodes hreach b
  rw [hb] at hmem
  rcases List.mem_cons.1 (of_decide_eq_true hmem.symm) with rfl | hmem
  · rw [Option.some.inj (hb.symm.trans hn), hterm]
    decide
  · obtain rfl := List.mem_singleton.1 hmem
    rw [Option.some.inj (hb.symm.trans hm), hm']
    decide

end World

end Cluster
end Keva
