/-
# `Node.leader` follows the role

`cluster/node.go` keeps a `Leader` object while the node leads, and `cluster/raft.go` has
two callbacks for it: `onLeader` after a won election, `onFollower` after a heartbeat or a
vote request has made a leader a follower.  Both run after the mutex of `RaftState` has been
released, on different goroutines.

`due` are the callbacks that changes of role have called for and that have not run yet,
oldest first.  As long as they run in that order, what is left of them tells what
`Node.leader` will be when all have run, and that is whether the node leads
(`leader_iff_of_inTurn`).  Two things break it.  A response with a newer term that arrives
after its election was won makes the leader a follower and calls for no callback
(`late_reply_keeps_leader`), and callbacks may overtake each other.
-/

import Keva.Cluster.ElectionSafety

namespace Keva
namespace Cluster

open Protocol (VoteRequest VoteResponse Heartbeat)

/-- The two callbacks that `NewNode` hands to its Raft state, `becomeLeader` and
`becomeFollower`.  The first sets `Node.leader`, the second takes it away. -/
inductive Callback
  | onLeader
  | onFollower
  deriving DecidableEq, Repr

/-- Whether `Node.leader` is set after the callback. -/
def Callback.sets : Callback → Bool
  | .onLeader => true
  | .onFollower => false

/-- The callback a handler has still to make. -/
def Post.callback : Post → Option Callback
  | .onFollower => some .onFollower
  | .signal => none

/-- A handler goes on to `onFollower` exactly where it ends a lead: if it does, the node does not
lead any more, and if it does not, the node still leads if it did. -/
def Yields (r r' : RaftState) (post : Option Post) : Prop :=
  post = some .onFollower ∧ r'.role ≠ .leader ∨
    post ≠ some .onFollower ∧ (r.role = .leader → r'.role = .leader)

/-- The node was made a follower, and its handler goes on accordingly. -/
theorem yields_postOf {r r' : RaftState} (h : r'.role ≠ .leader) :
    Yields r r' (some (postOf (decide (r.role = .leader)))) := by
  by_cases hlead : r.role = .leader
  · rw [decide_eq_true hlead]
    exact Or.inl ⟨rfl, h⟩
  · rw [decide_eq_false hlead]
    exact Or.inr ⟨nofun, fun hlead' => absurd hlead' hlead⟩

/-- A heartbeat that is accepted ends a lead and calls `onFollower`; one that is ignored does
neither. -/
theorem yields_handleHeartbeat (r : RaftState) (hb : Heartbeat) :
    Yields r (r.handleHeartbeat hb).1 (r.handleHeartbeat hb).2 := by
  unfold RaftState.handleHeartbeat
  split_ifs
  · exact Or.inr ⟨nofun, id⟩
  · exact yields_postOf Role.noConfusion
  · exact yields_postOf Role.noConfusion

/-- So does a vote request with a newer term; one of the same term does not end a lead. -/
theorem yields_handleVoteRequest (r : RaftState) (req : VoteRequest) :
    Yields r (r.handleVoteRequest req).1 (r.handleVoteRequest req).2.2 := by
  unfold RaftState.handleVoteRequest
  by_cases hold : req.term < r.currentTerm
  · rw [if_pos hold]
    exact Or.inr ⟨nofun, id⟩
  rw [if_neg hold]
  by_cases hlead : r.role = .leader ∧ req.term = r.currentTerm
  · rw [if_pos hlead]
    exact Or.inr ⟨nofun, id⟩
  rw [if_neg hlead]
  by_cases hnew : r.currentTerm < req.term
  · -- The vote of the new term is free, and so it is given and `onFollower` called.
    rw [if_pos hnew]
    dsimp only
    rw [if_pos (Or.inl rfl)]
    exact yields_postOf Role.noConfusion
  have hrole : r.role ≠ .leader := fun hrole =>
    hlead ⟨hrole, UInt64.le_antisymm (UInt64.not_lt.1 hnew) (UInt64.not_lt.1 hold)⟩
  rw [if_neg hnew]
  dsimp only
  split_ifs
  · exact yields_postOf hrole
  · exact Or.inr ⟨nofun, id⟩

namespace Node

/-- How often a node has still to make a callback. -/
def owed (n : Node) : Callback → ℕ
  | .onLeader => if n.pc = .won then 1 else 0
  | .onFollower => n.posts.count .onFollower

/-- The callback an event makes. -/
def calls (n : Node) : Event → Option Callback
  | .main => if n.pc = .won then some .onLeader else none
  | .post i => n.posts[i]?.bind Post.callback
  | _ => none

/-- The callback that the change of role in an event calls for. -/
def callsFor (n : Node) : Event → Option Callback
  | .main =>
    match n.pc with
    | .counting e => n.elections[e]?.bind fun el =>
      if (n.raft.finishElection el.term el.votes).2 = some true then some .onLeader else none
    | _ => none
  | .heartbeat hb => (n.raft.handleHeartbeat hb).2.bind Post.callback
  | .voteRequest req => (n.raft.handleVoteRequest req).2.2.bind Post.callback
  | _ => none

/-- A leader sees no newer term in a response. -/
def Timely (n : Node) : Event → Prop
  | .reply e j =>
    match n.poll e j with
    | some (_, _, .replied resp) => n.raft.role = .leader → resp.term ≤ n.raft.currentTerm
    | _ => True
  | _ => True

instance (n : Node) (event : Event) : Decidable (n.Timely event) := by
  unfold Timely
  split
  · split <;> infer_instance
  · infer_instance

/-- What a step does to role, callbacks and `Node.leader`: the role is that of the callback the
step calls for, `Node.leader` is what the callback it runs sets, and no callback is lost or made
up. -/
structure RoleStep (n n' : Node) (calls callsFor : Option Callback) : Prop where
  placed : n'.raft.role = .leader → n'.pc.Leads
  role : decide (n'.raft.role = .leader) =
    (callsFor.map Callback.sets).getD (decide (n.raft.role = .leader))
  leader : n'.leader = (calls.map Callback.sets).getD n.leader
  owed : ∀ c, n'.owed c + calls.toList.count c = n.owed c + callsFor.toList.count c

variable {n n' : Node} {event : Event}

/-- Nothing of it. -/
theorem RoleStep.quiet (hplaced : n'.raft.role = .leader → n'.pc.Leads)
    (hrole : n'.raft.role = .leader ↔ n.raft.role = .leader) (hleader : n'.leader = n.leader)
    (hwon : n'.pc = .won ↔ n.pc = .won)
    (hposts : n'.posts.count .onFollower = n.posts.count .onFollower) :
    RoleStep n n' none none := by
  refine ⟨hplaced, decide_eq_decide.2 hrole, hleader, fun c => ?_⟩
  cases c with
  | onLeader => simp only [Node.owed, hwon]
  | onFollower => simp only [Node.owed, hposts]

/-- **A step of `run`.**  It calls for `onLeader` where an election is won, and runs it in the
step after; no other step of `run` ends or begins a lead. -/
theorem roleStep_main (hplaced : n.raft.role = .leader → n.pc.Leads)
    {out : List (Addr × Heartbeat)} (h : MainStep n n' out) :
    RoleStep n n' (n.calls .main) (n.callsFor .main) := by
  have hnot (hpc : ¬ n.pc.Leads) : n.raft.role ≠ .leader := fun hlead => hpc (hplaced hlead)
  have hquiet (hwon : n.pc ≠ .won) (hcount : ∀ e, n.pc ≠ .counting e) :
      n.calls .main = none ∧ n.callsFor .main = none := by
    refine ⟨if_neg hwon, ?_⟩
    cases hpc : n.pc with
    | counting e => exact absurd hpc (hcount e)
    | _ => simp only [callsFor, hpc]
  cases h with
  | move hne hwon' hleads =>
    obtain ⟨hcalls, hfor⟩ := hquiet hne.1 hne.2
    rw [hcalls, hfor]
    exact .quiet (fun hlead => hleads hlead (hplaced hlead)) Iff.rfl rfl (iff_of_false hwon' hne.1) rfl
  | turn hpc hrole =>
    have hpc' : n.pc ≠ .won ∧ (∀ e, n.pc ≠ .counting e) ∧ ¬ n.pc.Leads := by
      rcases hpc with hpc | hpc <;> rw [hpc] <;> exact ⟨nofun, nofun, id⟩
    obtain ⟨hcalls, hfor⟩ := hquiet hpc'.1 hpc'.2.1
    rw [hcalls, hfor]
    exact .quiet (fun _ => trivial) (iff_of_false hrole (hnot hpc'.2.2)) rfl
      (iff_of_false nofun hpc'.1) rfl
  | elect hpc =>
    have hpc' : n.pc ≠ .won ∧ (∀ e, n.pc ≠ .counting e) ∧ ¬ n.pc.Leads := by
      rw [hpc]
      exact ⟨nofun, nofun, id⟩
    obtain ⟨hcalls, hfor⟩ := hquiet hpc'.1 hpc'.2.1
    rw [hcalls, hfor]
    exact .quiet (fun hlead => absurd hlead (hnot hpc'.2.2)) Iff.rfl rfl
      (iff_of_false nofun hpc'.1) rfl
  | win hpc hel hfin =>
    have hcalls : n.calls .main = none := by simp [calls, hpc]
    have hfor : n.callsFor .main = some .onLeader := by simp [callsFor, hpc, hel, hfin]
    obtain ⟨-, -, rfl⟩ := finishElection_won hfin
    rw [hcalls, hfor]
    refine ⟨fun _ => trivial, rfl, rfl, fun c => ?_⟩
    cases c with
    | onLeader => simp [Node.owed, hpc]
    | onFollower => simp [Node.owed]
  | @lose e el raft won hpc hel hfin hlost =>
    have hcalls : n.calls .main = none := by simp [calls, hpc]
    have hfor : n.callsFor .main = none := by simp [callsFor, hpc, hel, hfin, hlost]
    have hrole := hnot (by rw [hpc]; exact id)
    have hrole' : raft.role ≠ .leader := by
      rcases (evolves_finishElection hfin hlost).moves with ⟨-, hne⟩ | ⟨-, -, hlead⟩
      · exact hne
      · exact fun hlead' => hrole (hlead hlead')
    rw [hcalls, hfor]
    exact .quiet (fun _ => trivial) (iff_of_false hrole' hrole) rfl (by simp [hpc]) rfl
  | onLeader hpc =>
    have hcalls : n.calls .main = some .onLeader := if_pos hpc
    have hfor : n.callsFor .main = none := by simp [callsFor, hpc]
    rw [hcalls, hfor]
    refine ⟨fun _ => trivial, rfl, rfl, fun c => ?_⟩
    cases c with
    | onLeader => simp [Node.owed, hpc]
    | onFollower => simp [Node.owed]

/-- What the critical section of a handler makes of the role, and what is still to do. -/
theorem roleStep_handler {raft : RaftState} {post : Option Post}
    (hplaced : n.raft.role = .leader → n.pc.Leads) (he : Evolves n.raft raft)
    (hyields : Yields n.raft raft post) (ballots : List (UInt64 × Addr)) :
    RoleStep n { n with raft := raft, posts := n.posts ++ post.toList, ballots := ballots } none
      (post.bind Post.callback) := by
  have hrole : raft.role = .leader → n.raft.role = .leader := by
    rcases he.moves with ⟨-, hnot⟩ | ⟨-, -, hlead⟩
    · exact fun hlead => absurd hlead hnot
    · exact hlead
  rcases hyields with ⟨rfl, hnot⟩ | ⟨hne, hkeep⟩
  · refine ⟨fun hlead => absurd hlead hnot, decide_eq_false hnot, rfl, fun c => ?_⟩
    cases c with
    | onLeader => simp [Node.owed, Post.callback]
    | onFollower => simp [Node.owed, Post.callback]
  · have hnone : post.bind Post.callback = none := by
      rcases post with _ | ⟨_ | _⟩
      · rfl
      · exact absurd rfl hne
      · rfl
    rw [hnone]
    refine .quiet (fun hlead => hplaced (hrole hlead)) ⟨hrole, hkeep⟩ rfl Iff.rfl ?_
    rcases post with _ | ⟨_ | _⟩
    · simp
    · exact absurd rfl hne
    · simp

/-- A handler calls `onFollower`, in a critical section of its own and some time after the one in
which the lead was ended.  One call less is due after it. -/
theorem roleStep_onFollower (hplaced : n.raft.role = .leader → n.pc.Leads) {i : ℕ}
    (hi : n.posts[i]? = some .onFollower) :
    RoleStep n { n with leader := false, posts := n.posts.set i .signal } (some .onFollower)
      none := by
  refine ⟨hplaced, rfl, rfl, fun c => ?_⟩
  cases c with
  | onLeader => simp [Node.owed]
  | onFollower =>
    obtain ⟨hlt, hget⟩ := List.getElem?_eq_some_iff.1 hi
    have hpos : 0 < n.posts.count .onFollower := List.count_pos_iff.2 (List.mem_of_getElem? hi)
    have hset : (n.posts.set i .signal).count .onFollower = n.posts.count .onFollower - 1 := by
      rw [List.count_set hlt, hget]
      rfl
    change (n.posts.set i .signal).count .onFollower + 1 = n.posts.count .onFollower + 0
    rw [hset]
    omega

/-- A handler signals. -/
theorem roleStep_signal (hplaced : n.raft.role = .leader → n.pc.Leads) {i : ℕ}
    (hi : n.posts[i]? = some .signal) :
    RoleStep n { n with raft := { n.raft with heartbeatCh := true }, posts := n.posts.eraseIdx i }
      none none := by
  refine .quiet hplaced Iff.rfl rfl Iff.rfl ?_
  obtain ⟨hlt, hget⟩ := List.getElem?_eq_some_iff.1 hi
  have hperm := (List.getElem_cons_eraseIdx_perm hlt).count_eq .onFollower
  rw [hget, List.count_cons_of_ne Post.noConfusion] at hperm
  exact hperm

/-- A response is looked at, and a newer term in it does not find a leader. -/
theorem roleStep_reply (hplaced : n.raft.role = .leader → n.pc.Leads) {term : UInt64}
    (hterm : n.raft.role = .leader → term ≤ n.raft.currentTerm) (e j : ℕ) (el : Election) (p : Addr)
    (stage : Stage) :
    RoleStep n (({ n with raft := n.raft.stepDown term } : Node).setPoll e el j p stage)
      none none := by
  have hrole : (n.raft.stepDown term).role = .leader ↔ n.raft.role = .leader := by
    unfold RaftState.stepDown
    split_ifs with hnew
    · exact iff_of_false id fun hlead => UInt64.not_lt.2 (hterm hlead) hnew
    · exact Iff.rfl
  exact .quiet (fun hlead => hplaced (hrole.1 hlead)) hrole rfl Iff.rfl rfl

/-- **Every step of a node,** but for a response with a newer term that reaches a leader: the
step-down in `requestVoteRPC` ends a lead and calls for nothing. -/
theorem roleStep_of_step (hplaced : n.raft.role = .leader → n.pc.Leads) (htimely : n.Timely event)
    (h : n.step event = some n') : RoleStep n n' (n.calls event) (n.callsFor event) := by
  cases nodeStep_of_step h with
  | main hm => exact roleStep_main hplaced hm
  | heard hwon hwon' _ hleads =>
    exact .quiet (fun hlead => hleads (hplaced hlead)) Iff.rfl rfl (iff_of_false hwon' hwon) rfl
  | heartbeat hb =>
    exact roleStep_handler hplaced (evolves_handleHeartbeat n.raft hb)
      (yields_handleHeartbeat n.raft hb) n.ballots
  | voteRequest req =>
    exact roleStep_handler hplaced (evolves_handleVoteRequest n.raft req).1
      (yields_handleVoteRequest n.raft req) _
  | poll hpolls =>
    have hcalls : n.calls event = none ∧ n.callsFor event = none := by
      cases event with
      | send | lose | arrive | count => exact ⟨rfl, rfl⟩
      | _ => cases hpolls
    rw [hcalls.1, hcalls.2]
    exact .quiet hplaced Iff.rfl rfl Iff.rfl rfl
  | reply hpoll =>
    simp only [Timely, hpoll] at htimely
    exact roleStep_reply hplaced htimely _ _ _ _ _
  | @onFollower i hi =>
    have hcalls : n.calls (.post i) = some .onFollower := by
      rw [calls, hi]
      rfl
    rw [hcalls]
    exact roleStep_onFollower hplaced hi
  | @signal i hi =>
    have hcalls : n.calls (.post i) = none := by
      rw [calls, hi]
      rfl
    rw [hcalls]
    exact roleStep_signal hplaced hi

/-- No callback is on its way: neither `onLeader` after an election that was won, nor
`onFollower` in the goroutine of a handler. -/
def Settled (n : Node) : Prop := n.pc ≠ .won ∧ .onFollower ∉ n.posts

instance (n : Node) : Decidable n.Settled := inferInstanceAs (Decidable (_ ∧ _))

end Node

/-- A node, and next to it, read by no step, the callbacks that are due, oldest first. -/
structure Duties where
  node : Node
  due : List Callback

namespace Duties

/-- A callback that is called is no longer due, and one that the step calls for is due from then
on. -/
def step (s : Duties) (event : Node.Event) : Option Duties := do
  let node ← s.node.step event
  let due := (s.node.calls event).elim s.due s.due.erase
  return ⟨node, due ++ (s.node.callsFor event).toList⟩

/-- Nothing is due. -/
def start (nodeAddr : Addr) (peers : List Addr) : Duties := ⟨Node.start nodeAddr peers, []⟩

/-- Callbacks run in the order of the changes of role that called for them, and no
response with a newer term is looked at by a leader. -/
def InTurn (s : Duties) (event : Node.Event) : Prop :=
  (∀ c ∈ s.node.calls event, s.due.head? = some c) ∧ s.node.Timely event

instance (s : Duties) (event : Node.Event) : Decidable (s.InTurn event) :=
  inferInstanceAs (Decidable (_ ∧ _))

/-- Whether `Node.leader` will be set once all that is due has run. -/
def willLead (due : List Callback) (leader : Bool) : Bool :=
  due.foldl (fun _ c => c.sets) leader

/-- What is due are the callbacks the node has still to make, and after them
`Node.leader` is set exactly if the node leads. -/
structure Inv (s : Duties) : Prop where
  placed : s.node.raft.role = .leader → s.node.pc.Leads
  owed : ∀ c, s.due.count c = s.node.owed c
  lead : willLead s.due s.node.leader = decide (s.node.raft.role = .leader)

variable {s s' : Duties} {event : Node.Event}

/-- **Every step in turn keeps it:** what the callbacks that are due will make of `Node.leader`,
one after the other, is whether the node leads. -/
theorem Inv.step (h : Inv s) (hturn : s.InTurn event) (hs : s.step event = some s') : Inv s' := by
  obtain ⟨n', hn, hs⟩ := Option.bind_eq_some_iff.1 hs
  obtain rfl := Option.some.inj hs
  have hstep := Node.roleStep_of_step h.placed hturn.2 hn
  -- What runs is what was due first.
  obtain ⟨rest, hrest, hcount, hlead⟩ : ∃ rest,
      (s.node.calls event).elim s.due s.due.erase = rest ∧
      (∀ c, rest.count c + (s.node.calls event).toList.count c = s.due.count c) ∧
      willLead rest n'.leader = willLead s.due s.node.leader := by
    cases hcalls : s.node.calls event with
    | none =>
      refine ⟨s.due, rfl, fun c => rfl, ?_⟩
      rw [hstep.leader, hcalls]
      rfl
    | some c =>
      obtain ⟨rest, hdue⟩ := List.head?_eq_some_iff.1 (hturn.1 c hcalls)
      refine ⟨rest, ?_, fun c' => ?_, ?_⟩
      · rw [Option.elim_some, hdue, List.erase_cons_head]
      · rw [hdue, List.count_cons, Option.toList_some, List.count_singleton]
      · rw [hstep.leader, hcalls, hdue]
        rfl
  rw [hrest]
  refine ⟨hstep.placed, fun c => ?_, ?_⟩
  · have h₁ := hstep.owed c
    have h₂ := hcount c
    have h₃ := h.owed c
    change (rest ++ _).count c = n'.owed c
    rw [List.count_append]
    omega
  · rw [hstep.role]
    cases hfor : s.node.callsFor event with
    | none =>
      rw [Option.toList_none, List.append_nil, hlead, h.lead]
      rfl
    | some c =>
      unfold willLead
      rw [Option.toList_some, List.foldl_append]
      rfl

/-- **`Node.leader` is set exactly while the node leads,** whenever no callback is on its
way: for a node that was started in a cluster and whatever it is sent, if callbacks run in
the order of the changes of role and no late response makes a leader step down. -/
theorem leader_iff_of_inTurn {nodeAddr : Addr} {peers : List Addr}
    (hs : Reach step (fun s event => s.InTurn event) (start nodeAddr peers) s)
    (hsettled : s.node.Settled) : s.node.leader = true ↔ s.node.raft.role = .leader := by
  have hinv : Inv s := hs.invariant (P := Inv)
    ⟨Role.noConfusion, fun c => by cases c <;> rfl, rfl⟩ fun _ _ _ h hturn hstep => h.step hturn hstep
  have hnone : s.due = [] := by
    refine List.eq_nil_iff_forall_not_mem.2 fun c hc => ?_
    have hpos := List.count_pos_iff.2 hc
    rw [hinv.owed c] at hpos
    cases c with
    | onLeader =>
      rw [Node.owed, if_neg hsettled.1] at hpos
      exact Nat.lt_irrefl 0 hpos
    | onFollower => exact hsettled.2 (List.count_pos_iff.1 hpos)
  have hlead := hinv.lead
  rw [hnone] at hlead
  rw [← decide_eq_true_iff (p := s.node.raft.role = .leader), ← hlead]
  rfl

/-- Of three nodes one is elected, deposed by a heartbeat, and elected again. -/
def electedTwice : List Node.Event :=
  [.main, .main, .main, .main, .main, .send 0 0, .arrive 0 0 ⟨1, true⟩, .reply 0 0, .count 0 0, .main,
    .main, .main, .heartbeat ⟨2, [2]⟩, .post 0, .post 0, .main, .main, .main, .main, .main,
    .send 1 1, .arrive 1 1 ⟨3, true⟩, .reply 1 1, .count 1 1, .main, .main, .main]

/-- The node leads for the second time, and `Node.leader` is set. -/
theorem leader_iff_of_inTurn_electedTwice :
    ∃ s ∈ runAll step (fun s event => s.InTurn event) (start [1] [[1], [2], [3]]) electedTwice,
      s.node.raft.currentTerm = 3 ∧ s.node.leader = true ∧
        (s.node.leader = true ↔ s.node.raft.role = .leader) := by
  obtain ⟨s, hs, hterm, hlead, hsettled⟩ :
      ∃ s ∈ runAll step (fun s event => s.InTurn event) (start [1] [[1], [2], [3]]) electedTwice,
        s.node.raft.currentTerm = 3 ∧ s.node.leader = true ∧ s.node.Settled := by
    decide +kernel
  exact ⟨s, hs, hterm, hlead, leader_iff_of_inTurn (reach_of_runAll hs) hsettled⟩

end Duties

namespace World

/-- The third node fails in term 1 and stands again in term 2.  Then it answers the request
the first node made in term 1, and the first node, elected by the second, looks at the
answer after it has called `onLeader`. -/
def lateReply : List Event :=
  [.main [3], .main [3], .main [3], .main [3], .main [3], .main [3], .main [3], .main [3], .main [3],
    .main [3], .main [3], .main [3], .main [1], .main [1], .main [1], .main [1], .main [1],
    .send [1] 0 0, .vote [1] 0 0, .reply [1] 0 0, .count [1] 0 0, .send [1] 0 1, .vote [1] 0 1,
    .main [1], .main [1], .main [1], .reply [1] 0 1]

/-- **A late response leaves a `Leader` behind.**  The first node is a follower in term 2, no
callback is on its way, and `Node.leader` is set. -/
theorem late_reply_keeps_leader :
    ∃ s ∈ runAll step NoOverflow (start [[1], [2], [3]] [[1], [2], [3]]) lateReply,
      ∃ n, s.nodes [1] = some n ∧ Becomes (Node.start [1] [[1], [2], [3]]) n ∧ n.Settled ∧
        n.leader = true ∧ n.raft.role = .follower := by
  obtain ⟨s, hs, n, hn, hsettled, hlead, hrole⟩ :
      ∃ s ∈ runAll step NoOverflow (start [[1], [2], [3]] [[1], [2], [3]]) lateReply,
        ∃ n ∈ s.nodes [1], n.Settled ∧ n.leader = true ∧ n.raft.role = .follower := by
    decide +kernel
  exact ⟨s, hs, n, hn, reach_node (reach_of_runAll hs) hn, hsettled, hlead, hrole⟩

end World

end Cluster
end Keva
