/-
# One node and whatever comes from outside

A node of a cluster as a machine of its own: the goroutine of `run`, those that ask for
votes and the handlers are as in `cluster/raft.go`, and the rest of the world is free to
send it any request, heartbeat or response at any time.

What a node goes through in a cluster is a run of this machine
(`World.reach_node`), so that what holds of every run of it holds of every node of every
cluster, whatever the others do.
-/

import Keva.Cluster.Election

namespace Keva
namespace Cluster

open Protocol (VoteRequest VoteResponse Heartbeat)

namespace Node

/-- A step of `run` or of a `select` on the signal; a heartbeat or a vote request that is
handled; a step of the goroutine that asks for the `j`-th vote in the `e`-th election, or
the arrival of its response; and what a handler does after its critical section. -/
inductive Event
  | main
  | heard
  | heartbeat (hb : Heartbeat)
  | voteRequest (req : VoteRequest)
  | send (e j : ℕ)
  | lose (e j : ℕ)
  | arrive (e j : ℕ) (resp : VoteResponse)
  | reply (e j : ℕ)
  | count (e j : ℕ)
  | post (i : ℕ)

/-- What can happen to one node, whoever else there is: a step of `run`, a message that comes in,
a step of one of its goroutines that ask for votes, or of one that has still to call back or
signal. -/
def step (n : Node) : Event → Option Node
  | .main => n.main.map Prod.fst
  | .heard => n.heard
  | .heartbeat hb => some (n.handleHeartbeat hb)
  | .voteRequest req => some (n.handleVoteRequest req).1
  | .send e j => do
    let (el, p, stage) ← n.poll e j
    match stage with
    | .dialing => return n.setPoll e el j p .sent
    | _ => none
  | .lose e j => do
    let (el, p, stage) ← n.poll e j
    match stage with
    | .dialing => return n.setPoll e el j p (.done false)
    | .sent => return n.setPoll e el j p .abandoned
    | .replied _ => return n.setPoll e el j p (.done false)
    | _ => none
  | .arrive e j resp => do
    let (el, p, stage) ← n.poll e j
    match stage with
    | .sent => return n.setPoll e el j p (.replied resp)
    | .abandoned => return n.setPoll e el j p (.done false)
    | _ => none
  | .reply e j => do
    let (el, p, stage) ← n.poll e j
    match stage with
    | .replied resp =>
      let n := { n with raft := n.raft.stepDown resp.term }
      return n.setPoll e el j p (.answered resp.granted)
    | _ => none
  | .count e j => do
    let (el, p, stage) ← n.poll e j
    match stage with
    | .answered granted => return n.setPoll e el j p (.done granted)
    | _ => none
  | .post i => n.post i

/-- `NewRaftState` and `Start`. -/
def start (nodeAddr : Addr) (peers : List Addr) : Node :=
  ⟨newRaftState nodeAddr peers, .run, [], [], false, [], []⟩

end Node

/-! ### What the goroutine of `run` does -/

/-- Where `run` may stand while the node leads. -/
def Pc.Leads : Pc → Prop
  | .run | .won | .leader | .leading _ | .recheck => True
  | _ => False

/-- A step of `run` and the heartbeats it sends: it moves on, and reads the term only
while the node leads; it gives up a candidacy or begins one; it begins an election; it
wins or loses one; or it calls `onLeader`. -/
inductive MainStep (n : Node) : Node → List (Addr × Heartbeat) → Prop
  | move {pc : Pc} {out : List (Addr × Heartbeat)} (pc_ne : n.pc ≠ .won ∧ ∀ e, n.pc ≠ .counting e)
      (won_ne : pc ≠ .won) (leads : n.raft.role = .leader → n.pc.Leads → pc.Leads)
      (reads : ∀ t, pc = .leading t → n.raft.role = .leader ∧ t = n.raft.currentTerm)
      (sends : ∀ x ∈ out, ∃ t, n.pc = .leading t ∧ x.2 = ⟨t, n.raft.nodeAddr⟩ ∧
        x.1 ∈ n.raft.otherPeers) : MainStep n { n with pc := pc } out
  | turn {role : Role} (pc_eq : n.pc = .timedOut ∨ n.pc = .stepBack) (role_ne : role ≠ .leader) :
      MainStep n { n with raft := { n.raft with role := role }, pc := .run } []
  | elect (pc_eq : n.pc = .candidate) :
      MainStep n { n with
        raft := n.raft.startElection
        elections := n.elections ++ [⟨n.raft.startElection.currentTerm,
          n.raft.startElection.otherPeers.map fun p => (p, .dialing)⟩]
        pc := .waiting n.elections.length
        ballots := (n.raft.startElection.currentTerm, n.raft.startElection.votedFor) :: n.ballots } []
  | win {e : ℕ} {el : Election} {raft : RaftState} (pc_eq : n.pc = .counting e)
      (el_eq : n.elections[e]? = some el)
      (fin_eq : n.raft.finishElection el.term el.votes = (raft, some true)) :
      MainStep n { n with raft := raft, pc := .won, won := el.term :: n.won } []
  | lose {e : ℕ} {el : Election} {raft : RaftState} {won : Option Bool}
      (pc_eq : n.pc = .counting e) (el_eq : n.elections[e]? = some el)
      (fin_eq : n.raft.finishElection el.term el.votes = (raft, won)) (won_ne : won ≠ some true) :
      MainStep n { n with raft := raft, pc := .run } []
  | onLeader (pc_eq : n.pc = .won) : MainStep n { n with leader := true, pc := .run } []

variable {n n' : Node}

/-- A step that only moves on to a place where no term is read. -/
theorem MainStep.goto {pc : Pc} (hne : n.pc ≠ .won ∧ ∀ e, n.pc ≠ .counting e) (hwon : pc ≠ .won)
    (hleads : n.raft.role = .leader → n.pc.Leads → pc.Leads) (hreads : ∀ t, pc ≠ .leading t) :
    MainStep n { n with pc := pc } [] :=
  .move hne hwon hleads (fun t ht => absurd ht (hreads t)) fun _ hx => absurd hx List.not_mem_nil

/-- **These are all the steps of `run`,** from each place where it may stand, with the heartbeats
that it sends. -/
theorem mainStep_of_main {out : List (Addr × Heartbeat)} (h : n.main = some (n', out)) :
    MainStep n n' out := by
  cases hpc : n.pc with
  | run =>
    simp only [Node.main, hpc] at h
    cases hrole : n.raft.role <;> simp only [hrole] at h <;>
      obtain ⟨rfl, rfl⟩ := Prod.mk.inj (Option.some.inj h) <;>
      refine .goto (by simp [hpc]) nofun (fun hlead _ => ?_) nofun
    · exact absurd (hrole.symm.trans hlead) Role.noConfusion
    · exact absurd (hrole.symm.trans hlead) Role.noConfusion
    · trivial
  | follower =>
    simp only [Node.main, hpc] at h
    obtain ⟨rfl, rfl⟩ := Prod.mk.inj (Option.some.inj h)
    exact .goto (by simp [hpc]) nofun (fun _ hleads => by rwa [hpc] at hleads) nofun
  | timedOut =>
    simp only [Node.main, hpc] at h
    obtain ⟨rfl, rfl⟩ := Prod.mk.inj (Option.some.inj h)
    exact .turn (Or.inl hpc) Role.noConfusion
  | candidate =>
    simp only [Node.main, hpc] at h
    obtain ⟨rfl, rfl⟩ := Prod.mk.inj (Option.some.inj h)
    exact .elect hpc
  | waiting e =>
    simp only [Node.main, hpc] at h
    obtain ⟨rfl, rfl⟩ := Prod.mk.inj (Option.some.inj h)
    exact .goto (by simp [hpc]) nofun (fun _ hleads => by rwa [hpc] at hleads) nofun
  | stepBack =>
    simp only [Node.main, hpc] at h
    obtain ⟨rfl, rfl⟩ := Prod.mk.inj (Option.some.inj h)
    exact .turn (Or.inr hpc) Role.noConfusion
  | counting e =>
    simp only [Node.main, hpc, bind, Option.bind_eq_some_iff] at h
    obtain ⟨el, hel, h⟩ := h
    split at h
    · rename_i raft hfin
      obtain ⟨rfl, rfl⟩ := Prod.mk.inj (Option.some.inj h)
      exact .win hpc hel hfin
    · rename_i raft won hne hfin
      obtain ⟨rfl, rfl⟩ := Prod.mk.inj (Option.some.inj h)
      exact .lose hpc hel hfin fun hwon => hne (hwon ▸ rfl)
  | won =>
    simp only [Node.main, hpc] at h
    obtain ⟨rfl, rfl⟩ := Prod.mk.inj (Option.some.inj h)
    exact .onLeader hpc
  | leader =>
    simp only [Node.main, hpc] at h
    split_ifs at h with hlead <;> obtain ⟨rfl, rfl⟩ := Prod.mk.inj (Option.some.inj h)
    · refine .move (by simp [hpc]) nofun (fun _ _ => trivial) (fun t ht => ?_)
        fun x hx => absurd hx List.not_mem_nil
      exact ⟨hlead, (Pc.leading.inj ht).symm⟩
    · exact .goto (by simp [hpc]) nofun (fun _ _ => trivial) nofun
  | leading term =>
    simp only [Node.main, hpc] at h
    obtain ⟨rfl, rfl⟩ := Prod.mk.inj (Option.some.inj h)
    refine .move (by simp [hpc]) nofun (fun _ _ => trivial) nofun fun x hx => ?_
    obtain ⟨p, hp, rfl⟩ := List.mem_map.1 hx
    exact ⟨term, hpc, rfl, hp⟩
  | recheck =>
    simp only [Node.main, hpc] at h
    split_ifs at h <;> obtain ⟨rfl, rfl⟩ := Prod.mk.inj (Option.some.inj h) <;>
      exact .goto (by simp [hpc]) nofun (fun _ _ => trivial) nofun

/-- **A `select` takes the signal of `heartbeatCh`,** and `run` moves on.  Neither an election
nor a lead begins here. -/
theorem eq_of_heard (h : n.heard = some n') :
    ∃ pc, n' = { n with raft := { n.raft with heartbeatCh := false }, pc := pc } ∧
      n.pc ≠ .won ∧ pc ≠ .won ∧ (∀ t, pc ≠ .leading t) ∧ (n.pc.Leads → pc.Leads) := by
  unfold Node.heard at h
  split_ifs at h
  cases hpc : n.pc with
  | follower =>
    simp only [hpc] at h
    obtain rfl := Option.some.inj h
    exact ⟨.run, rfl, nofun, nofun, nofun, fun _ => trivial⟩
  | waiting e =>
    simp only [hpc] at h
    obtain rfl := Option.some.inj h
    exact ⟨.stepBack, rfl, nofun, nofun, nofun, id⟩
  | leading term =>
    simp only [hpc] at h
    obtain rfl := Option.some.inj h
    exact ⟨.recheck, rfl, nofun, nofun, nofun, fun _ => trivial⟩
  | _ =>
    simp only [hpc] at h
    cases h

/-! ### What a node does -/

/-- A vote was granted. -/
def Stage.Granted : Stage → Prop
  | .replied resp => resp.granted = true
  | .answered granted | .done granted => granted = true
  | _ => False

/-- The event takes no message of another node. -/
def Node.Event.Alone : Node.Event → Prop
  | .heard | .send .. | .lose .. | .reply .. | .count .. | .post .. => True
  | _ => False

/-- The event moves a goroutine that asks for a vote, and nothing else. -/
def Node.Event.Polls : Node.Event → Prop
  | .send .. | .lose .. | .arrive .. | .count .. => True
  | _ => False

/-- What an event makes of a node: a step of `run`, a message that is handled, a step of a poll,
or a callback that runs. -/
inductive NodeStep (n : Node) : Node.Event → Node → Prop
  | main {n' : Node} {out : List (Addr × Heartbeat)} (step : MainStep n n' out) :
      NodeStep n .main n'
  | heard {pc : Pc} (won_ne : n.pc ≠ .won) (won_ne' : pc ≠ .won) (reads : ∀ t, pc ≠ .leading t)
      (leads : n.pc.Leads → pc.Leads) :
      NodeStep n .heard { n with raft := { n.raft with heartbeatCh := false }, pc := pc }
  | heartbeat (hb : Heartbeat) : NodeStep n (.heartbeat hb) (n.handleHeartbeat hb)
  | voteRequest (req : VoteRequest) : NodeStep n (.voteRequest req) (n.handleVoteRequest req).1
  | poll {event : Node.Event} (polls : event.Polls) {e j : ℕ} {el : Election} {p : Addr}
      {stage stage' : Stage} (poll_eq : n.poll e j = some (el, p, stage))
      (granted : event.Alone → stage'.Granted → stage.Granted) :
      NodeStep n event (n.setPoll e el j p stage')
  | reply {e j : ℕ} {el : Election} {p : Addr} {resp : VoteResponse}
      (poll_eq : n.poll e j = some (el, p, .replied resp)) :
      NodeStep n (.reply e j)
        (({ n with raft := n.raft.stepDown resp.term } : Node).setPoll e el j p
          (.answered resp.granted))
  | onFollower {i : ℕ} (post_eq : n.posts[i]? = some .onFollower) :
      NodeStep n (.post i) { n with leader := false, posts := n.posts.set i .signal }
  | signal {i : ℕ} (post_eq : n.posts[i]? = some .signal) :
      NodeStep n (.post i)
        { n with raft := { n.raft with heartbeatCh := true }, posts := n.posts.eraseIdx i }

/-- **These are all the steps of a node.**  Invariants of a node are proved by cases on
`NodeStep`. -/
theorem nodeStep_of_step {event : Node.Event} (h : n.step event = some n') :
    NodeStep n event n' := by
  cases event with
  | main =>
    obtain ⟨⟨m, out⟩, hm, rfl⟩ := Option.map_eq_some_iff.1 h
    exact .main (mainStep_of_main hm)
  | heard =>
    obtain ⟨pc, rfl, hwon, hwon', hreads, hleads⟩ := eq_of_heard h
    exact .heard hwon hwon' hreads hleads
  | heartbeat hb => exact Option.some.inj h ▸ .heartbeat hb
  | voteRequest req => exact Option.some.inj h ▸ .voteRequest req
  | reply e j =>
    obtain ⟨⟨el, p, stage⟩, hpoll, h⟩ := Option.bind_eq_some_iff.1 h
    cases stage with
    | replied resp => exact Option.some.inj h ▸ .reply hpoll
    | _ => cases h
  | post i =>
    obtain ⟨post, hi, h⟩ := Option.bind_eq_some_iff.1 h
    cases post with
    | onFollower => exact Option.some.inj h ▸ .onFollower hi
    | signal => exact Option.some.inj h ▸ .signal hi
  | send | lose =>
    obtain ⟨⟨el, p, stage⟩, hpoll, h⟩ := Option.bind_eq_some_iff.1 h
    cases stage <;> cases h <;> exact .poll (by trivial) hpoll fun _ => nofun
  | arrive =>
    obtain ⟨⟨el, p, stage⟩, hpoll, h⟩ := Option.bind_eq_some_iff.1 h
    cases stage <;> cases h <;> exact .poll (by trivial) hpoll False.elim
  | count =>
    obtain ⟨⟨el, p, stage⟩, hpoll, h⟩ := Option.bind_eq_some_iff.1 h
    cases stage with
    | answered granted =>
      obtain rfl := Option.some.inj h
      exact .poll (by trivial) hpoll fun _ hg => hg
    | _ => cases h

/-! ### A node in its cluster -/

namespace World

variable {s s' : World} {a : Addr} {event : Event}

/-- A node of a cluster that has just started. -/
theorem node_of_start {peers nodes : List Addr} (h : (start peers nodes).nodes a = some n) :
    a ∈ nodes ∧ n = Node.start a peers := by
  change (if a ∈ nodes then some _ else none) = some n at h
  split_ifs at h with ha
  exact ⟨ha, (Option.some.inj h).symm⟩

/-- A node after one node has changed. -/
theorem node_of_update {nodes : Addr → Option Node} {b : Addr} {m : Node}
    (h : Function.update nodes a (some n) b = some m) : b = a ∧ m = n ∨ nodes b = some m := by
  by_cases hba : b = a
  · subst hba
    rw [Function.update_self] at h
    exact Or.inl ⟨rfl, (Option.some.inj h).symm⟩
  · rw [Function.update_of_ne hba] at h
    exact Or.inr h

/-- What some steps of its own make of a node. -/
abbrev Becomes (n n' : Node) : Prop := Reach Node.step (fun _ _ => True) n n'

variable {ok : Node → Node.Event → Prop}

/-- A node that takes no step. -/
theorem becomes_refl (o : Option Node) : Option.Rel (Reach Node.step ok) o o := by
  cases o with
  | none => exact .none
  | some n => exact .some .refl

/-- What a node does in two stretches it does in one. -/
theorem becomes_trans {o o' o'' : Option Node} (h : Option.Rel (Reach Node.step ok) o o')
    (h' : Option.Rel (Reach Node.step ok) o' o'') : Option.Rel (Reach Node.step ok) o o'' := by
  cases h with
  | none => exact h'
  | some hn =>
    cases h' with
    | some hn' => exact .some (hn.trans hn')

/-- A node that is there now was there before. -/
theorem before_of_becomes {o : Option Node} (h : Option.Rel (Reach Node.step ok) o (some n')) :
    ∃ n, o = some n ∧ Reach Node.step ok n n' := by
  cases h with
  | some hn => exact ⟨_, rfl, hn⟩

/-- A node that was there is still there. -/
theorem after_of_becomes {o : Option Node} (h : Option.Rel (Reach Node.step ok) (some n) o) :
    ∃ n', o = some n' ∧ Reach Node.step ok n n' := by
  cases h with
  | some hn => exact ⟨_, rfl, hn⟩

/-- A step of one node. -/
theorem becomes_update {nodes : Addr → Option Node} {b : Addr} {m m' : Node}
    {event : Node.Event} (hb : nodes b = some m) (hm : m.step event = some m')
    (a : Addr) (hok : a = b → ok m event) :
    Option.Rel (Reach Node.step ok) (nodes a) (Function.update nodes b (some m') a) := by
  by_cases hab : a = b
  · subst hab
    rw [Function.update_self, hb]
    exact .some (.tail event .refl (hok rfl) hm)
  · rw [Function.update_of_ne hab]
    exact becomes_refl _

/-- What a step of the cluster asks of node `a`, and in which state. -/
inductive Causes (s : World) (a : Addr) : Event → Node → Node.Event → Prop
  | main {n : Node} (node : s.nodes a = some n) : Causes s a (.main a) n .main
  | heard {n : Node} : Causes s a (.heard a) n .heard
  | heartbeat {i : ℕ} {hb : Heartbeat} {n : Node} (beat : s.beats[i]? = some (a, hb))
      (node : s.nodes a = some n) : Causes s a (.hear i) n (.heartbeat hb)
  | voteRequest {b : Addr} {m n : Node} {e j : ℕ} {term : UInt64} (node : s.nodes b = some m) :
      Causes s a (.vote b e j) n (.voteRequest ⟨term, m.raft.nodeAddr, 0⟩)
  | send {n : Node} {e j : ℕ} : Causes s a (.send a e j) n (.send e j)
  | lose {n : Node} {e j : ℕ} : Causes s a (.lose a e j) n (.lose e j)
  | arrive {n : Node} {e j : ℕ} {resp : VoteResponse} :
      Causes s a (.vote a e j) n (.arrive e j resp)
  | reply {n : Node} {e j : ℕ} : Causes s a (.reply a e j) n (.reply e j)
  | count {n : Node} {e j : ℕ} : Causes s a (.count a e j) n (.count e j)
  | post {n : Node} {i : ℕ} (node : s.nodes a = some n) : Causes s a (.post a i) n (.post i)

/-- A node that asks for a vote still does after its peer has handled the request, also
where it is its own peer. -/
theorem poll_of_voted {nodes : Addr → Option Node} {p : Addr} {voter n₁ : Node} {e j : ℕ}
    {x : Election × Addr × Stage} (hn : nodes a = some n) (hpoll : n.poll e j = some x)
    (hv : nodes p = some voter) {req : VoteRequest}
    (hn₁ : Function.update nodes p (some (voter.handleVoteRequest req).1) a = some n₁) :
    n₁.poll e j = some x := by
  have hel : n₁.elections = n.elections := by
    by_cases hpa : a = p
    · subst hpa
      obtain rfl := Option.some.inj (hn.symm.trans hv)
      rw [Function.update_self] at hn₁
      rw [← Option.some.inj hn₁]
      rfl
    · rw [Function.update_of_ne hpa, hn] at hn₁
      exact congrArg Node.elections (Option.some.inj hn₁).symm
  unfold Node.poll
  rw [hel]
  exact hpoll

/-- What an event makes of the cluster: a step of `run` and the heartbeats it sends; a step of
one node that takes no message; a heartbeat; a vote request and what becomes of the answer. -/
inductive WorldStep (s : World) : Event → World → Prop
  | main {a : Addr} {n n' : Node} {out : List (Addr × Heartbeat)} (node : s.nodes a = some n)
      (step : n.main = some (n', out)) :
      WorldStep s (.main a) { s.set a n' with beats := s.beats ++ out }
  | alone {event : Event} {a : Addr} {n n' : Node} {ev : Node.Event} (node : s.nodes a = some n)
      (causes : s.Causes a event n ev) (alone : ev.Alone) (step : n.step ev = some n') :
      WorldStep s event (s.set a n')
  | hear {i : ℕ} {p : Addr} {hb : Heartbeat} {n : Node} (beat : s.beats[i]? = some (p, hb))
      (node : s.nodes p = some n) :
      WorldStep s (.hear i)
        { s.set p (n.handleHeartbeat hb) with beats := s.beats.eraseIdx i }
  | vote {a p : Addr} {n n₁ voter voter' : Node} {e j : ℕ} {el : Election} {resp : VoteResponse}
      {stage stage' : Stage} (node : s.nodes a = some n)
      (poll_eq : n.poll e j = some (el, p, stage)) (voter_eq : s.nodes p = some voter)
      (handled : voter.handleVoteRequest ⟨el.term, n.raft.nodeAddr, 0⟩ = (voter', resp))
      (node₁ : (s.set p voter').nodes a = some n₁)
      (arrives : n₁.step (.arrive e j resp) = some (n₁.setPoll e el j p stage'))
      (stage_eq : stage' = .replied resp ∨ stage' = .done false) :
      WorldStep s (.vote a e j) ((s.set p voter').set a (n₁.setPoll e el j p stage'))

/-- **These are all the steps of the cluster:** one node makes a step, takes a heartbeat or
answers a vote request. -/
theorem worldStep_of_step (hs : s.step event = some s') : WorldStep s event s' := by
  cases event with
  | main a =>
    obtain ⟨n, hn, hs⟩ := Option.bind_eq_some_iff.1 hs
    obtain ⟨⟨n', out⟩, hmain, hs⟩ := Option.bind_eq_some_iff.1 hs
    obtain rfl := Option.some.inj hs
    exact .main hn hmain
  | heard a =>
    obtain ⟨n, hn, hs⟩ := Option.bind_eq_some_iff.1 hs
    obtain ⟨n', hheard, hs⟩ := Option.bind_eq_some_iff.1 hs
    obtain rfl := Option.some.inj hs
    exact .alone hn .heard trivial hheard
  | post a i =>
    obtain ⟨n, hn, hs⟩ := Option.bind_eq_some_iff.1 hs
    obtain ⟨n', hpost, hs⟩ := Option.bind_eq_some_iff.1 hs
    obtain rfl := Option.some.inj hs
    exact .alone hn (.post hn) trivial hpost
  | send a e j =>
    obtain ⟨n, hn, hs⟩ := Option.bind_eq_some_iff.1 hs
    obtain ⟨⟨el, p, stage⟩, hpoll, hs⟩ := Option.bind_eq_some_iff.1 hs
    cases stage with
    | dialing =>
      obtain rfl := Option.some.inj hs
      exact .alone hn .send trivial (by simp [Node.step, hpoll])
    | _ => cases hs
  | lose a e j =>
    obtain ⟨n, hn, hs⟩ := Option.bind_eq_some_iff.1 hs
    obtain ⟨⟨el, p, stage⟩, hpoll, hs⟩ := Option.bind_eq_some_iff.1 hs
    cases stage <;> cases hs <;> exact .alone hn .lose trivial (by simp [Node.step, hpoll])
  | reply a e j =>
    obtain ⟨n, hn, hs⟩ := Option.bind_eq_some_iff.1 hs
    obtain ⟨⟨el, p, stage⟩, hpoll, hs⟩ := Option.bind_eq_some_iff.1 hs
    cases stage with
    | replied resp =>
      obtain rfl := Option.some.inj hs
      exact .alone hn .reply trivial (by simp [Node.step, hpoll])
    | _ => cases hs
  | count a e j =>
    obtain ⟨n, hn, hs⟩ := Option.bind_eq_some_iff.1 hs
    obtain ⟨⟨el, p, stage⟩, hpoll, hs⟩ := Option.bind_eq_some_iff.1 hs
    cases stage with
    | answered granted =>
      obtain rfl := Option.some.inj hs
      exact .alone hn .count trivial (by simp [Node.step, hpoll])
    | _ => cases hs
  | hear i =>
    obtain ⟨⟨p, hb⟩, hi, hs⟩ := Option.bind_eq_some_iff.1 hs
    obtain ⟨n, hn, hs⟩ := Option.bind_eq_some_iff.1 hs
    obtain rfl := Option.some.inj hs
    exact .hear hi hn
  | vote a e j =>
    obtain ⟨n, hn, hs⟩ := Option.bind_eq_some_iff.1 hs
    obtain ⟨⟨el, p, stage⟩, hpoll, hs⟩ := Option.bind_eq_some_iff.1 hs
    obtain ⟨voter, hv, hs⟩ := Option.bind_eq_some_iff.1 hs
    obtain ⟨n₁, hn₁, hs⟩ := Option.bind_eq_some_iff.1 hs
    have hpoll₁ := poll_of_voted hn hpoll hv hn₁
    cases stage with
    | sent =>
      obtain rfl := Option.some.inj hs
      exact .vote hn hpoll hv rfl hn₁ (by simp [Node.step, hpoll₁]) (Or.inl rfl)
    | abandoned =>
      obtain rfl := Option.some.inj hs
      exact .vote hn hpoll hv rfl hn₁ (by simp [Node.step, hpoll₁]) (Or.inr rfl)
    | _ => cases hs

/-- **A step of the cluster is for each node some steps of its own:** none, one, or, for
a node that asks itself, two. -/
theorem becomes_nodes (hs : s.step event = some s') (a : Addr) :
    Option.Rel (Reach Node.step (s.Causes a event)) (s.nodes a) (s'.nodes a) := by
  cases worldStep_of_step hs with
  | @main b n n' out hn hmain =>
    have hstep : n.step .main = some n' := by rw [Node.step, hmain, Option.map_some]
    exact becomes_update hn hstep a (by rintro rfl; exact .main hn)
  | alone hn hcause _ hstep => exact becomes_update hn hstep a (by rintro rfl; exact hcause)
  | @hear i p hb n hi hn =>
    have hstep : n.step (.heartbeat hb) = some (n.handleHeartbeat hb) := rfl
    exact becomes_update hn hstep a (by rintro rfl; exact .heartbeat hi hn)
  | @vote b p n n₁ voter voter' e j el resp stage stage' hn _ hv hhandled hn₁ harrives =>
    have hstep : voter.step (.voteRequest ⟨el.term, n.raft.nodeAddr, 0⟩) = some voter' := by
      rw [Node.step, hhandled]
    exact becomes_trans (becomes_update hv hstep a fun _ => .voteRequest hn)
      (becomes_update hn₁ harrives a (by rintro rfl; exact .arrive))

/-- **What a node goes through in a cluster it may go through alone.** -/
theorem reach_node {ok : World → Event → Prop} {peers nodes : List Addr}
    (hs : Reach step ok (start peers nodes) s) (ha : s.nodes a = some n) :
    Becomes (Node.start a peers) n := by
  induction hs generalizing n with
  | refl =>
    obtain ⟨-, rfl⟩ := node_of_start ha
    exact .refl
  | tail event _ _ hstep ih =>
    have hrel := becomes_nodes hstep a
    rw [ha] at hrel
    obtain ⟨m, hm, hlast⟩ := before_of_becomes hrel
    exact (ih hm).trans (hlast.mono fun _ _ _ => trivial)

end World

end Cluster
end Keva
