/-
# Elections

The nodes of a cluster, each with the goroutine of `run` (`cluster/raft.go`) that is
follower, candidate and leader in turn, the goroutines that ask for votes, the
handlers of requests and heartbeats, and the messages between them.  A step is one
critical section or one communication of one goroutine, and any goroutine may take
the next step.  Timers may fire whenever they are waited for.

A vote request is asked on a connection of its own: it reaches its peer once at most,
and the response comes back or is lost.  A goroutine that has given up does not stop
its request from being handled.  A heartbeat is delivered once at most.  Messages are
taken to arrive as they were sent.

`ballots` and `won` are read by no step: the votes a node has given, and the terms it
has won, the last one first.
-/

import Keva.Cluster.Raft
import Keva.Lib.Reach
import Mathlib.Logic.Function.Basic

namespace Keva
namespace Cluster

open Protocol (VoteRequest VoteResponse Heartbeat)

/-- Where a goroutine of `requestVoteRPC` stands: it dials, it has sent its request and waits, or
does so no longer, it has the response, it has looked at the term in it, or it has reported its
vote. -/
inductive Stage
  | dialing
  | sent
  | abandoned
  | replied (resp : VoteResponse)
  | answered (granted : Bool)
  | done (granted : Bool)
  deriving DecidableEq, Repr

/-- One run of `runCandidate`: its term, and for each other peer the goroutine that
asks for its vote. -/
structure Election where
  term : UInt64
  polls : List (Addr × Stage)
  deriving DecidableEq, Repr

/-- `votes`, an `int32`: one's own and those of the goroutines that have added one. -/
def Election.votes (el : Election) : ℤ :=
  Int.bmod (1 + el.polls.countP fun x => x.2 = .done true) (2 ^ 32)

/-- Where the goroutine of `run` stands: at the top of its loop, in the `select` of one of its
three roles, or between two of their critical sections; `e` is the election that it is about. -/
inductive Pc
  | run
  | follower
  | timedOut
  | candidate
  | waiting (e : ℕ)
  | stepBack
  | counting (e : ℕ)
  | won
  | leader
  | leading (term : UInt64)
  | recheck
  deriving DecidableEq, Repr

/-- A node: its Raft state, where its goroutines stand, and whether `Node.leader` is
set. -/
structure Node where
  raft : RaftState
  pc : Pc
  elections : List Election
  posts : List Post
  leader : Bool
  ballots : List (UInt64 × Addr)
  won : List UInt64

namespace Node

/-- The next step of `run`, where there is a `select` that of the timer, and the
heartbeats it sends. -/
def main (n : Node) : Option (Node × List (Addr × Heartbeat)) :=
  match n.pc with
  | .run =>
    match n.raft.role with
    | .follower => some ({ n with pc := .follower }, [])
    | .candidate => some ({ n with pc := .candidate }, [])
    | .leader => some ({ n with pc := .leader }, [])
  | .follower => some ({ n with pc := .timedOut }, [])
  | .timedOut => some ({ n with raft := { n.raft with role := .candidate }, pc := .run }, [])
  | .candidate =>
    let raft := n.raft.startElection
    let election := ⟨raft.currentTerm, raft.otherPeers.map fun p => (p, .dialing)⟩
    some ({ n with raft := raft, elections := n.elections ++ [election],
                   pc := .waiting n.elections.length,
                   ballots := (raft.currentTerm, raft.votedFor) :: n.ballots }, [])
  -- `voteDone` is closed or the timer fires.
  | .waiting e => some ({ n with pc := .counting e }, [])
  | .stepBack => some ({ n with raft := { n.raft with role := .follower }, pc := .run }, [])
  | .counting e => do
    let el ← n.elections[e]?
    match n.raft.finishElection el.term el.votes with
    | (raft, some true) => return ({ n with raft := raft, pc := .won, won := el.term :: n.won }, [])
    | (raft, _) => return ({ n with raft := raft, pc := .run }, [])
  | .won => some ({ n with leader := true, pc := .run }, [])
  | .leader =>
    if n.raft.role = .leader then some ({ n with pc := .leading n.raft.currentTerm }, [])
    else some ({ n with pc := .run }, [])
  | .leading term =>
    some ({ n with pc := .leader }, n.raft.otherPeers.map fun p => (p, ⟨term, n.raft.nodeAddr⟩))
  | .recheck =>
    if n.raft.role = .leader then some ({ n with pc := .leader }, [])
    else some ({ n with pc := .run }, [])

/-- A `select` takes the signal of `heartbeatCh`. -/
def heard (n : Node) : Option Node :=
  if n.raft.heartbeatCh then
    let n := { n with raft := { n.raft with heartbeatCh := false } }
    match n.pc with
    | .follower => some { n with pc := .run }
    | .waiting _ => some { n with pc := .stepBack }
    | .leading _ => some { n with pc := .recheck }
    | _ => none
  else none

/-- `HandleHeartbeat` at a node, with a goroutine for what is still to be done. -/
def handleHeartbeat (n : Node) (hb : Heartbeat) : Node :=
  let (raft, post) := n.raft.handleHeartbeat hb
  { n with raft := raft, posts := n.posts ++ post.toList }

/-- `HandleVoteRequest` at a node, with a goroutine for what is still to be done.  A vote that is
given is put down in `ballots`, which no step reads. -/
def handleVoteRequest (n : Node) (req : VoteRequest) : Node × VoteResponse :=
  let (raft, resp, post) := n.raft.handleVoteRequest req
  ({ n with raft := raft, posts := n.posts ++ post.toList,
            ballots := if resp.granted then (req.term, req.candidateID) :: n.ballots
                       else n.ballots },
   resp)

/-- A handler goes on after its critical section. -/
def post (n : Node) (i : ℕ) : Option Node := do
  match ← n.posts[i]? with
  | .onFollower => return { n with leader := false, posts := n.posts.set i .signal }
  | .signal => return { n with raft := { n.raft with heartbeatCh := true },
                               posts := n.posts.eraseIdx i }

/-- The `j`-th goroutine of the `e`-th election. -/
def poll (n : Node) (e j : ℕ) : Option (Election × Addr × Stage) := do
  let el ← n.elections[e]?
  let x ← el.polls[j]?
  return (el, x)

/-- The goroutine moves on. -/
def setPoll (n : Node) (e : ℕ) (el : Election) (j : ℕ) (p : Addr) (stage : Stage) : Node :=
  { n with elections := n.elections.set e { el with polls := el.polls.set j (p, stage) } }

end Node

/-- The nodes by address, and the heartbeats on their way.  Vote requests and their responses are
on their way in the polls of the node that asks. -/
structure World where
  nodes : Addr → Option Node
  beats : List (Addr × Heartbeat)

/-- One step: of `run` or of a `select` on the signal, at node `a`; of the goroutine
of `a` that asks for the `j`-th vote in its `e`-th election; of a heartbeat; of a
handler. -/
inductive Event
  | main (a : Addr)
  | heard (a : Addr)
  | send (a : Addr) (e j : ℕ)
  | lose (a : Addr) (e j : ℕ)
  | vote (a : Addr) (e j : ℕ)
  | reply (a : Addr) (e j : ℕ)
  | count (a : Addr) (e j : ℕ)
  | hear (i : ℕ)
  | post (a : Addr) (i : ℕ)

namespace World

/-- The same cluster with another node at address `a`. -/
def set (s : World) (a : Addr) (n : Node) : World :=
  { s with nodes := Function.update s.nodes a (some n) }

/-- One step of the cluster.  A request for a vote may fail at any stage, and any other message
may stay where it is for ever. -/
def step (s : World) : Event → Option World
  | .main a => do
    let n ← s.nodes a
    let (n, out) ← n.main
    return { s.set a n with beats := s.beats ++ out }
  | .heard a => do
    let n ← s.nodes a
    let n ← n.heard
    return s.set a n
  | .send a e j => do
    let n ← s.nodes a
    let (el, p, stage) ← n.poll e j
    match stage with
    | .dialing => return s.set a (n.setPoll e el j p .sent)
    | _ => none
  | .lose a e j => do
    let n ← s.nodes a
    let (el, p, stage) ← n.poll e j
    match stage with
    | .dialing => return s.set a (n.setPoll e el j p (.done false))
    | .sent => return s.set a (n.setPoll e el j p .abandoned)
    | .replied _ => return s.set a (n.setPoll e el j p (.done false))
    | _ => none
  | .vote a e j => do
    let n ← s.nodes a
    let (el, p, stage) ← n.poll e j
    let voter ← s.nodes p
    let (voter, resp) := voter.handleVoteRequest ⟨el.term, n.raft.nodeAddr, 0⟩
    let s := s.set p voter
    let n ← s.nodes a
    match stage with
    | .sent => return s.set a (n.setPoll e el j p (.replied resp))
    | .abandoned => return s.set a (n.setPoll e el j p (.done false))
    | _ => none
  | .reply a e j => do
    let n ← s.nodes a
    let (el, p, stage) ← n.poll e j
    match stage with
    | .replied resp =>
      let n := { n with raft := n.raft.stepDown resp.term }
      return s.set a (n.setPoll e el j p (.answered resp.granted))
    | _ => none
  | .count a e j => do
    let n ← s.nodes a
    let (el, p, stage) ← n.poll e j
    match stage with
    | .answered granted => return s.set a (n.setPoll e el j p (.done granted))
    | _ => none
  | .hear i => do
    let (p, hb) ← s.beats[i]?
    let n ← s.nodes p
    return { s.set p (n.handleHeartbeat hb) with beats := s.beats.eraseIdx i }
  | .post a i => do
    let n ← s.nodes a
    let n ← n.post i
    return s.set a n

/-- `NewRaftState` and `Start` on every address of `nodes`. -/
def start (peers nodes : List Addr) : World where
  nodes a := if a ∈ nodes then some ⟨newRaftState a peers, .run, [], [], false, [], []⟩ else none
  beats := []

/-- No term has reached `2 ^ 64 - 1` where an election starts. -/
def NoOverflow (s : World) : Event → Prop
  | .main a => ∀ n ∈ s.nodes a, n.pc = .candidate → n.raft.currentTerm ≠ -1
  | _ => True

instance (s : World) (event : Event) : Decidable (s.NoOverflow event) := by
  unfold NoOverflow
  cases event <;> infer_instance

end World

end Cluster
end Keva
