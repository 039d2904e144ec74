/-
# The client and what it knows of the cluster

`cli/cli.go`: a `kvClient` has the addresses it has heard of, the leader and the followers of the
last topology it was sent, and from these it picks the node a command goes to.

`connect` and `execute` make calls that may fail and between which the cluster goes on, so the
client is a machine (`Pc`): each of its steps runs up to the next call, or takes what a call has
returned.  `Caller.found` and `Caller.missed` are what the callers of `waitForLeader` do after it.
What is typed and what is printed is left out.
-/

import Keva.Protocol.Frame
import Keva.Cluster.Raft
import Keva.Server.Engine

namespace Keva
namespace Cli

open Cluster (Addr RaftState)
open Protocol (Message NodeInfo TopologyResponse)

/-- `kvClient`: the addresses it has ever heard of, in the order in which it asks them, and
leader and followers of the last topology it was sent.  An empty `leaderAddr` stands for no
leader, as after a command that could not be sent. -/
structure Client where
  knownAddrs : List Addr
  leaderAddr : Addr
  followers : List Addr
  deriving DecidableEq

/-- A client that has heard of nobody but the address it was started with. -/
def newClient (seed : Addr) : Client := ⟨[seed], [], []⟩

/-- What `execute` and `waitForLeader` report: nobody named a leader within the time there is, or
all attempts at a command were used up. -/
inductive Error
  | noLeader
  | unavailable
  deriving DecidableEq

/-- The texts that are printed for them. -/
def Error.text : Error → String
  | noLeader => "no leader elected after 4.5s — cluster may be down"
  | unavailable => "cluster unavailable after retries"

/-- `isWrite` of `execute`. -/
def isWrite (msg : Message) : Bool :=
  msg.opCode = Protocol.opSet ∨ msg.opCode = Protocol.opDelete

/-- The messages `parseCommand` builds. -/
def isCommand (msg : Message) : Bool :=
  msg.opCode = Protocol.opGet ∨ isWrite msg

namespace Client

/-- `addKnown`: an address is kept once, in the order in which it was first heard of. -/
def addKnown (c : Client) (addr : Addr) : Client :=
  if c.knownAddrs.any fun a => a = addr then c
  else { c with knownAddrs := c.knownAddrs ++ [addr] }

/-- The body of the loop of `connect` over the nodes of a topology. -/
def learnNode (leaderAddr : Addr) (c : Client) (n : NodeInfo) : Client :=
  let c := c.addKnown n.address
  if n.address ≠ leaderAddr then { c with followers := c.followers ++ [n.address] } else c

/-- What `connect` does with a topology. -/
def learn (c : Client) (topo : TopologyResponse) : Client :=
  topo.nodes.foldl (learnNode topo.leaderAddr)
    { c with leaderAddr := topo.leaderAddr, followers := [] }

/-- `pickTarget`, where `rand.Intn` returns `i`; `none` is a number that it does not return. -/
def pickTarget (c : Client) (isWrite : Bool) (i : ℕ) : Option Addr :=
  if isWrite then some c.leaderAddr
  else if 0 < c.followers.length then c.followers[i]?
  else some c.leaderAddr

end Client

/-- `fetchTopology` from a node that answers: `GetTopology` through the wire. -/
def fetchTopology (r : RaftState) : Option TopologyResponse :=
  match (Protocol.readFrame 0
      (Protocol.encodeFrame (.topologyResponse (Server.getTopology r)))).1 with
  | .ok (.topologyResponse topo) => some topo
  | _ => none

/-! ### The machine -/

/-- Who has called `waitForLeader`: `main`, or `execute` in one of its attempts, because it had no
target or because it could not reach it. -/
inductive Caller
  | main
  | discovering (msg : Message) (attempt : ℕ)
  | retrying (msg : Message) (attempt : ℕ)
  deriving DecidableEq

/-- Where the client is: at the prompt, with what the last command returned; at the head of the
loop of `execute`; in `sendToNode`; in the `i`-th `connect` of `waitForLeader`, with the addresses
it has still to ask; or gone. -/
inductive Pc
  | prompt (result : Option (Except Error Message))
  | picking (msg : Message) (attempt : ℕ)
  | sending (msg : Message) (attempt : ℕ) (target : Addr)
  | connecting (caller : Caller) (i : ℕ) (rest : List Addr)
  | exited

/-- After `waitForLeader` has returned no error. -/
def Caller.found : Caller → Pc
  | main => .prompt none
  | discovering msg attempt => .picking msg (attempt + 1)
  | retrying msg attempt => .picking msg (attempt + 1)

/-- After `waitForLeader` has returned an error, which `execute` ignores where it retries. -/
def Caller.missed : Caller → Pc
  | main => .exited
  | discovering _ _ => .prompt (some (.error .noLeader))
  | retrying msg attempt => .picking msg (attempt + 1)

/-- A step of the client: a command is typed, a target is picked, a topology is fetched or not, the
client wakes up after a `connect` that found no leader, a command is answered or not. -/
inductive Action
  | command (msg : Message)
  | pick (i : ℕ)
  | fetch (topo : Option TopologyResponse)
  | wake
  | send (resp : Option Message)

/-- One step of the client. -/
def step (c : Client) (pc : Pc) (a : Action) : Option (Client × Pc) :=
  match pc, a with
  | .prompt _, .command msg => if isCommand msg then some (c, .picking msg 0) else none
  | .picking msg attempt, .pick i =>
    if attempt < 8 then do
      let target ← c.pickTarget (isWrite msg) i
      if target = [] then return (c, .connecting (.discovering msg attempt) 0 c.knownAddrs)
      else return (c, .sending msg attempt target)
    else some (c, .prompt (some (.error .unavailable)))
  | .sending _ _ _, .send (some resp) => some (c, .prompt (some (.ok resp)))
  | .sending msg attempt _, .send none =>
    some ({ c with leaderAddr := [] }, .connecting (.retrying msg attempt) 0 c.knownAddrs)
  | .connecting caller i (_ :: rest), .fetch none => some (c, .connecting caller i rest)
  | .connecting caller i (_ :: rest), .fetch (some topo) =>
    let c := c.learn topo
    if c.leaderAddr ≠ [] then some (c, caller.found) else some (c, .connecting caller i rest)
  | .connecting caller i [], .wake =>
    if i + 1 < 15 then some (c, .connecting caller (i + 1) c.knownAddrs) else some (c, caller.missed)
  | _, _ => none

variable {c c' : Client} {pc pc' : Pc} {a : Action}

/-- The steps of the client, one constructor each, with the guard that each is taken under and
with what it makes of the client and of the place where its code stands. -/
inductive Step (c : Client) : Pc → Action → Client → Pc → Prop
  | command {result : Option (Except Error Message)} {msg : Message} :
      Step c (.prompt result) (.command msg) c (.picking msg 0)
  | discover {msg : Message} {attempt i : ℕ} (lt : attempt < 8) :
      Step c (.picking msg attempt) (.pick i) c
        (.connecting (.discovering msg attempt) 0 c.knownAddrs)
  | route {msg : Message} {attempt i : ℕ} {target : Addr} (lt : attempt < 8)
      (picked : c.pickTarget (isWrite msg) i = some target) (ne : target ≠ []) :
      Step c (.picking msg attempt) (.pick i) c (.sending msg attempt target)
  | giveUp {msg : Message} {attempt i : ℕ} :
      Step c (.picking msg attempt) (.pick i) c (.prompt (some (.error .unavailable)))
  | answered {msg resp : Message} {attempt : ℕ} {target : Addr} :
      Step c (.sending msg attempt target) (.send (some resp)) c (.prompt (some (.ok resp)))
  | unreachable {msg : Message} {attempt : ℕ} {target : Addr} :
      Step c (.sending msg attempt target) (.send none) { c with leaderAddr := [] }
        (.connecting (.retrying msg attempt) 0 c.knownAddrs)
  | skip {caller : Caller} {i : ℕ} {addr : Addr} {rest : List Addr} :
      Step c (.connecting caller i (addr :: rest)) (.fetch none) c (.connecting caller i rest)
  | find {caller : Caller} {i : ℕ} {addr : Addr} {rest : List Addr} {topo : TopologyResponse} :
      Step c (.connecting caller i (addr :: rest)) (.fetch (some topo)) (c.learn topo) caller.found
  | leaderless {caller : Caller} {i : ℕ} {addr : Addr} {rest : List Addr}
      {topo : TopologyResponse} :
      Step c (.connecting caller i (addr :: rest)) (.fetch (some topo)) (c.learn topo)
        (.connecting caller i rest)
  | again {caller : Caller} {i : ℕ} (lt : i + 1 < 15) :
      Step c (.connecting caller i []) .wake c (.connecting caller (i + 1) c.knownAddrs)
  | miss {caller : Caller} {i : ℕ} : Step c (.connecting caller i []) .wake c caller.missed

/-- **These are all the steps of the client.**  What is proved about a step below is proved by
cases on `Step`, and the body of `step` is not looked at again. -/
theorem step_of_step (h : step c pc a = some (c', pc')) : Step c pc a c' pc' := by
  unfold step at h
  split at h
  · split_ifs at h
    obtain ⟨rfl, rfl⟩ := Prod.mk.inj (Option.some.inj h)
    exact .command
  · split_ifs at h with hlt
    · obtain ⟨target, htarget, h⟩ := Option.bind_eq_some_iff.1 h
      split_ifs at h with hne
      · obtain ⟨rfl, rfl⟩ := Prod.mk.inj (Option.some.inj h)
        exact .discover hlt
      · obtain ⟨rfl, rfl⟩ := Prod.mk.inj (Option.some.inj h)
        exact .route hlt htarget hne
    · obtain ⟨rfl, rfl⟩ := Prod.mk.inj (Option.some.inj h)
      exact .giveUp
  · obtain ⟨rfl, rfl⟩ := Prod.mk.inj (Option.some.inj h)
    exact .answered
  · obtain ⟨rfl, rfl⟩ := Prod.mk.inj (Option.some.inj h)
    exact .unreachable
  · obtain ⟨rfl, rfl⟩ := Prod.mk.inj (Option.some.inj h)
    exact .skip
  · dsimp only at h
    split_ifs at h
    · obtain ⟨rfl, rfl⟩ := Prod.mk.inj (Option.some.inj h)
      exact .find
    · obtain ⟨rfl, rfl⟩ := Prod.mk.inj (Option.some.inj h)
      exact .leaderless
  · split_ifs at h with hlt
    · obtain ⟨rfl, rfl⟩ := Prod.mk.inj (Option.some.inj h)
      exact .again hlt
    · obtain ⟨rfl, rfl⟩ := Prod.mk.inj (Option.some.inj h)
      exact .miss
  · cases h

/-! ### What the client knows -/

/-- What the client has been told is so: its addresses are the seed and peers, none twice; the
leader, if it has one, is one of those of whom `won` holds; and the followers are other peers. -/
structure Client.Knows (seed : Addr) (peers : List Addr) (won : Addr → Prop) (c : Client) : Prop where
  nodup : c.knownAddrs.Nodup
  known : ∀ a ∈ c.knownAddrs, a = seed ∨ a ∈ peers
  leader : c.leaderAddr = [] ∨ won c.leaderAddr
  followers : ∀ a ∈ c.followers, a ∈ peers ∧ a ≠ c.leaderAddr

/-- A topology of these peers, with a leader of whom `won` holds or without one. -/
structure Genuine (peers : List Addr) (won : Addr → Prop) (topo : TopologyResponse) : Prop where
  leader : topo.leaderAddr = [] ∨ won topo.leaderAddr
  nodes : ∀ n ∈ topo.nodes, n.address ∈ peers

variable {seed : Addr} {peers : List Addr} {won won' : Addr → Prop} {topo : TopologyResponse}

/-- A new client knows nothing wrong. -/
theorem knows_newClient (seed : Addr) (peers : List Addr) (won : Addr → Prop) :
    (newClient seed).Knows seed peers won :=
  ⟨List.nodup_singleton _, fun _ ha => Or.inl (List.mem_singleton.1 ha), Or.inl rfl,
    fun _ ha => absurd ha List.not_mem_nil⟩

/-- What a client knows stays true when more nodes have won. -/
theorem Client.Knows.mono (h : c.Knows seed peers won) (hwon : ∀ a, won a → won' a) :
    c.Knows seed peers won' :=
  ⟨h.nodup, h.known, h.leader.imp_right (hwon _), h.followers⟩

/-- No more addresses than there are. -/
theorem Client.Knows.length_le (h : c.Knows seed peers won) :
    c.knownAddrs.length ≤ peers.length + 1 := by
  have hsub : c.knownAddrs ⊆ seed :: peers := fun a ha => List.mem_cons.2 (h.known a ha)
  exact (List.subperm_of_subset h.nodup hsub).length_le

/-- It may hear of one more peer. -/
theorem Client.Knows.addKnown (h : c.Knows seed peers won) {addr : Addr} (haddr : addr ∈ peers) :
    (c.addKnown addr).Knows seed peers won := by
  unfold Client.addKnown
  split_ifs with hany
  · exact h
  · have hnew : addr ∉ c.knownAddrs := by simpa using hany
    refine ⟨?_, fun a ha => ?_, h.leader, h.followers⟩
    · exact h.nodup.append (List.nodup_singleton _) (List.disjoint_singleton.2 hnew)
    · rcases List.mem_append.1 ha with ha | ha
      · exact h.known a ha
      · exact Or.inr (List.mem_singleton.1 ha ▸ haddr)

/-- Hearing of a peer changes nobody's mind about the leader. -/
theorem leaderAddr_addKnown (c : Client) (addr : Addr) : (c.addKnown addr).leaderAddr = c.leaderAddr := by
  unfold Client.addKnown
  split_ifs <;> rfl

/-- **One node of a topology.**  It is added to the addresses, unless it is there already, and to
the followers, unless it is the leader. -/
theorem Client.Knows.learnNode (h : c.Knows seed peers won) {n : NodeInfo} (hn : n.address ∈ peers) :
    (c.learnNode c.leaderAddr n).Knows seed peers won ∧
      (c.learnNode c.leaderAddr n).leaderAddr = c.leaderAddr := by
  have hknown := h.addKnown hn
  have hleader := leaderAddr_addKnown c n.address
  unfold Client.learnNode
  dsimp only
  split_ifs with hne
  · refine ⟨⟨hknown.nodup, hknown.known, hknown.leader, fun a ha => ?_⟩, hleader⟩
    rcases List.mem_append.1 ha with ha | ha
    · exact hknown.followers a ha
    · obtain rfl := List.mem_singleton.1 ha
      exact ⟨hn, hleader ▸ hne⟩
  · exact ⟨hknown, hleader⟩

/-- **All nodes of a topology.**  The leader is replaced by the one it names and the followers by
the others, and a genuine topology has nothing wrong in it. -/
theorem Client.Knows.learn (h : c.Knows seed peers won) (htopo : Genuine peers won topo) :
    (c.learn topo).Knows seed peers won := by
  have hfold : ∀ (nodes : List NodeInfo) (c : Client), (∀ n ∈ nodes, n.address ∈ peers) →
      c.Knows seed peers won → c.leaderAddr = topo.leaderAddr →
      (nodes.foldl (Client.learnNode topo.leaderAddr) c).Knows seed peers won := by
    intro nodes
    induction nodes with
    | nil => exact fun c _ hc _ => hc
    | cons n nodes ih =>
      intro c hnodes hc hleader
      obtain ⟨hc', hleader'⟩ := hc.learnNode (hnodes n List.mem_cons_self)
      rw [hleader] at hc' hleader'
      exact ih _ (fun n hn => hnodes n (List.mem_cons_of_mem _ hn)) hc' hleader'
  exact hfold topo.nodes _ htopo.nodes
    ⟨h.nodup, h.known, htopo.leader, fun _ ha => absurd ha List.not_mem_nil⟩ rfl

/-- **Where a command goes:** a write to the leader, a read to a follower or to the leader. -/
theorem Client.Knows.pickTarget (h : c.Knows seed peers won) (hwon : ∀ a, won a → a ∈ peers)
    {write : Bool} {i : ℕ} {target : Addr} (hpick : c.pickTarget write i = some target)
    (hne : target ≠ []) : target ∈ peers ∧ (write → won target) := by
  have hleader : c.leaderAddr ≠ [] → won c.leaderAddr := h.leader.resolve_left
  unfold Client.pickTarget at hpick
  split_ifs at hpick with hw hlen
  · obtain rfl := Option.some.inj hpick
    exact ⟨hwon _ (hleader hne), fun _ => hleader hne⟩
  · exact ⟨(h.followers target (List.mem_of_getElem? hpick)).1, fun hwrite => absurd hwrite hw⟩
  · obtain rfl := Option.some.inj hpick
    exact ⟨hwon _ (hleader hne), fun _ => hleader hne⟩

/-- A message on its way goes where it should. -/
def Pc.Routed (peers : List Addr) (won : Addr → Prop) : Pc → Prop
  | .sending msg _ target => target ∈ peers ∧ (isWrite msg → won target)
  | _ => True

/-- A command on its way to a winner is still on its way to one when more nodes have won. -/
theorem Pc.Routed.mono (h : pc.Routed peers won) (hwon : ∀ a, won a → won' a) :
    pc.Routed peers won' := by
  cases pc with
  | sending msg attempt target => exact ⟨h.1, fun hw => hwon _ (h.2 hw)⟩
  | _ => trivial

/-- Where `waitForLeader` has found a leader, its caller picks a target next. -/
theorem routed_found (caller : Caller) : caller.found.Routed peers won := by
  cases caller <;> trivial

/-- Where it has given up, its caller sends nothing before it has picked a target again. -/
theorem routed_missed (caller : Caller) : caller.missed.Routed peers won := by
  cases caller <;> trivial

/-- **Every step of a client that is told the truth** leaves it knowing nothing wrong, and a
message that is on its way on its way to where it should go: to a peer, and a write to one that
has won a term. -/
theorem Step.knows (hs : Step c pc a c' pc') (h : c.Knows seed peers won)
    (hpc : pc.Routed peers won) (hwon : ∀ a, won a → a ∈ peers) (hpeers : ∀ a ∈ peers, a ≠ [])
    (ha : ∀ topo, a = .fetch (some topo) → Genuine peers won topo) :
    c'.Knows seed peers won ∧ pc'.Routed peers won := by
  cases hs with
  | command | discover | giveUp | answered | skip | again => exact ⟨h, trivial⟩
  | route lt picked ne => exact ⟨h, h.pickTarget hwon picked ne⟩
  | unreachable =>
    refine ⟨⟨h.nodup, h.known, Or.inl rfl, fun a ha => ?_⟩, trivial⟩
    exact ⟨(h.followers a ha).1, hpeers a (h.followers a ha).1⟩
  | @find caller => exact ⟨h.learn (ha _ rfl), routed_found caller⟩
  | leaderless => exact ⟨h.learn (ha _ rfl), trivial⟩
  | @miss caller => exact ⟨h, routed_missed caller⟩

/-! ### What a command costs -/

/-- The attempt of `execute` that waits for a leader. -/
def Caller.attempt : Caller → ℕ
  | main => 0
  | discovering _ attempt => attempt
  | retrying _ attempt => attempt

/-- How often its message has been sent by then, at most. -/
def Caller.sends : Caller → ℕ
  | main => 0
  | discovering _ attempt => attempt
  | retrying _ attempt => attempt + 1

/-- The steps of one attempt: it picks a target, sends a message, and 15 times asks `k` nodes for a
topology and sleeps. -/
def attemptSteps (k : ℕ) : ℕ := 2 + 15 * (k + 1)

/-- The messages that were sent and the steps that were made since the last command was typed. -/
def Pc.Within (k sends steps : ℕ) : Pc → Prop
  | .prompt _ => sends ≤ 8 ∧ steps ≤ 8 * attemptSteps k + 1
  | .picking _ attempt => attempt ≤ 8 ∧ sends ≤ attempt ∧ steps ≤ attempt * attemptSteps k
  | .sending _ attempt _ => attempt < 8 ∧ sends ≤ attempt ∧ steps ≤ attempt * attemptSteps k + 1
  | .connecting caller i rest => caller.attempt < 8 ∧ i < 15 ∧ sends ≤ caller.sends ∧
      steps + rest.length + 1 ≤ caller.attempt * attemptSteps k + 2 + (i + 1) * (k + 1)
  | .exited => sends ≤ 8 ∧ steps ≤ 8 * attemptSteps k + 1

/-- The messages sent since the last command was typed, after this step. -/
def Action.sends (n : ℕ) : Action → ℕ
  | command _ => 0
  | send _ => n + 1
  | _ => n

/-- The steps made since then. -/
def Action.steps (n : ℕ) : Action → ℕ
  | command _ => 0
  | _ => n + 1

variable {k sends steps : ℕ}

/-- An attempt after the others. -/
theorem attempt_succ (attempt k : ℕ) :
    (attempt + 1) * attemptSteps k = attempt * attemptSteps k + (2 + 15 * (k + 1)) :=
  Nat.succ_mul _ _

/-- `waitForLeader` starts. -/
theorem within_connecting {caller : Caller} (hlt : caller.attempt < 8) (hsends : sends ≤ caller.sends)
    (hsteps : steps ≤ caller.attempt * attemptSteps k + 2) (hk : c.knownAddrs.length ≤ k) :
    (Pc.connecting caller 0 c.knownAddrs).Within k sends steps := by
  refine ⟨hlt, by decide, hsends, ?_⟩
  rw [Nat.zero_add, Nat.one_mul]
  omega

/-- `waitForLeader` has returned, with a leader or without one.  At most fifteen rounds over the
addresses were made, and these are paid for by the attempt that is over now. -/
theorem within_found {caller : Caller} {i : ℕ} (hlt : caller.attempt < 8) (hi : i < 15)
    (hsends : sends ≤ caller.sends)
    (hsteps : steps ≤ caller.attempt * attemptSteps k + 2 + (i + 1) * (k + 1)) :
    caller.found.Within k sends steps ∧ caller.missed.Within k sends steps := by
  have hnext : steps ≤ (caller.attempt + 1) * attemptSteps k := by
    have hle : (i + 1) * (k + 1) ≤ 15 * (k + 1) := Nat.mul_le_mul_right _ hi
    rw [attempt_succ]
    omega
  have hall : steps ≤ 8 * attemptSteps k + 1 :=
    (hnext.trans (Nat.mul_le_mul_right _ hlt)).trans (Nat.le_succ _)
  cases caller with
  | main => exact ⟨⟨hsends.trans (Nat.zero_le 8), hall⟩, ⟨hsends.trans (Nat.zero_le 8), hall⟩⟩
  | discovering msg attempt =>
    exact ⟨⟨hlt, Nat.le_succ_of_le hsends, hnext⟩, ⟨hsends.trans hlt.le, hall⟩⟩
  | retrying msg attempt => exact ⟨⟨hlt, hsends, hnext⟩, ⟨hlt, hsends, hnext⟩⟩

/-- **Every step of a client that knows at most `k` addresses** stays within the budget of
`Pc.Within`: an attempt costs a step to pick and one to send, and at most fifteen rounds over the
addresses. -/
theorem Step.within (hs : Step c pc a c' pc') (h : pc.Within k sends steps)
    (hk : c.knownAddrs.length ≤ k) : pc'.Within k (a.sends sends) (a.steps steps) := by
  cases hs with
  | command => exact ⟨Nat.zero_le _, le_rfl, Nat.zero_le _⟩
  | @discover msg attempt i hlt =>
    obtain ⟨-, hsends, hsteps⟩ := h
    have hsteps' : steps + 1 ≤ attempt * attemptSteps k + 2 := by omega
    exact within_connecting hlt hsends hsteps' hk
  | route hlt => exact ⟨hlt, h.2.1, Nat.succ_le_succ h.2.2⟩
  | giveUp =>
    obtain ⟨hle, hsends, hsteps⟩ := h
    exact ⟨hsends.trans hle, Nat.succ_le_succ (hsteps.trans (Nat.mul_le_mul_right _ hle))⟩
  | @answered msg resp attempt target =>
    obtain ⟨hlt, hsends, hsteps⟩ := h
    have hle : (attempt + 1) * attemptSteps k ≤ 8 * attemptSteps k := Nat.mul_le_mul_right _ hlt
    rw [attempt_succ] at hle
    exact ⟨(Nat.succ_le_succ hsends).trans hlt, by change steps + 1 ≤ _; omega⟩
  | unreachable =>
    obtain ⟨hlt, hsends, hsteps⟩ := h
    exact within_connecting hlt (Nat.succ_le_succ hsends) (Nat.succ_le_succ hsteps) hk
  | @skip caller i addr rest | @leaderless caller i addr rest =>
    obtain ⟨hlt, hi, hsends, hsteps⟩ := h
    rw [List.length_cons] at hsteps
    exact ⟨hlt, hi, hsends, by change steps + 1 + rest.length + 1 ≤ _; omega⟩
  | @find caller i addr rest =>
    obtain ⟨hlt, hi, hsends, hsteps⟩ := h
    rw [List.length_cons] at hsteps
    exact (within_found hlt hi hsends (by change steps + 1 ≤ _; omega)).1
  | @again caller i hi' =>
    obtain ⟨hlt, hi, hsends, hsteps⟩ := h
    rw [List.length_nil] at hsteps
    have hmul : (i + 1 + 1) * (k + 1) = (i + 1) * (k + 1) + (k + 1) := Nat.succ_mul _ _
    exact ⟨hlt, hi', hsends, by change steps + 1 + c.knownAddrs.length + 1 ≤ _; omega⟩
  | @miss caller i =>
    obtain ⟨hlt, hi, hsends, hsteps⟩ := h
    exact (within_found hlt hi hsends hsteps).2

/-- What it has cost, wherever the client is: eight messages at most, and eight times the steps
of one attempt. -/
theorem Pc.Within.bounds (h : pc.Within k sends steps) :
    sends ≤ 8 ∧ steps ≤ 8 * attemptSteps k + 1 := by
  cases pc with
  | prompt | exited => exact h
  | picking msg attempt =>
    obtain ⟨hle, hsends, hsteps⟩ := h
    exact ⟨hsends.trans hle, (hsteps.trans (Nat.mul_le_mul_right _ hle)).trans (Nat.le_succ _)⟩
  | sending msg attempt target =>
    obtain ⟨hlt, hsends, hsteps⟩ := h
    exact ⟨hsends.trans hlt.le,
      hsteps.trans (Nat.succ_le_succ (Nat.mul_le_mul_right _ hlt.le))⟩
  | connecting caller i rest =>
    obtain ⟨hlt, hi, hsends, hsteps⟩ := h
    have hcaller : caller.sends ≤ caller.attempt + 1 := by
      cases caller with
      | main | retrying => exact Nat.le_of_ble_eq_true (by simp [Caller.sends, Caller.attempt])
      | discovering msg attempt => exact Nat.le_succ attempt
    have hwait : (i + 1) * (k + 1) ≤ 15 * (k + 1) := Nat.mul_le_mul_right _ hi
    have hall : (caller.attempt + 1) * attemptSteps k ≤ 8 * attemptSteps k :=
      Nat.mul_le_mul_right _ hlt
    rw [attempt_succ] at hall
    exact ⟨by omega, by omega⟩

/-- A step in which no call succeeds and nothing is typed. -/
def Action.Unaided : Action → Prop
  | pick _ | fetch none | wake | send none => True
  | _ => False

/-- `rand.Intn` has a number to return. -/
theorem exists_pickTarget (c : Client) (write : Bool) : ∃ i target, c.pickTarget write i = some target := by
  refine ⟨0, ?_⟩
  unfold Client.pickTarget
  split_ifs with hw hlen
  · exact ⟨_, rfl⟩
  · exact ⟨_, List.getElem?_eq_getElem hlen⟩
  · exact ⟨_, rfl⟩

/-- **The client always goes on,** unless it waits for a command or is gone; no call has to succeed
for that. -/
theorem exists_step (c : Client) (pc : Pc) :
    (∃ result, pc = .prompt result) ∨ pc = .exited ∨
      ∃ a x, step c pc a = some x ∧ a.Unaided := by
  cases pc with
  | prompt result => exact Or.inl ⟨result, rfl⟩
  | exited => exact Or.inr (Or.inl rfl)
  | picking msg attempt =>
    refine Or.inr (Or.inr ?_)
    obtain ⟨i, target, hpick⟩ := exists_pickTarget c (isWrite msg)
    by_cases hlt : attempt < 8
    · by_cases hne : target = []
      · exact ⟨.pick i, _, by simp only [step, if_pos hlt, hpick, hne]; rfl, trivial⟩
      · refine ⟨.pick i, (c, .sending msg attempt target), ?_, trivial⟩
        simp only [step, if_pos hlt, hpick, bind, Option.bind_some, if_neg hne, pure]
    · exact ⟨.pick i, _, by simp only [step, if_neg hlt]; rfl, trivial⟩
  | sending msg attempt target => exact Or.inr (Or.inr ⟨.send none, _, rfl, trivial⟩)
  | connecting caller i rest =>
    refine Or.inr (Or.inr ?_)
    cases rest with
    | nil =>
      by_cases hlt : i + 1 < 15
      · exact ⟨.wake, _, by simp only [step, if_pos hlt]; rfl, trivial⟩
      · exact ⟨.wake, _, by simp only [step, if_neg hlt]; rfl, trivial⟩
    | cons addr rest => exact ⟨.fetch none, _, rfl, trivial⟩

end Cli
end Keva
