/-
# Heartbeats name the winner of their term

`runLeader` (`cluster/raft.go`) reads the term under the mutex while the node leads, and
sends its heartbeats later, from goroutines of their own; by then the node may lead no
more, or in another term.  The term it read is one it has won (`Steers`), so every
heartbeat that is ever sent bears a term and the name of the node that won it, and with
election safety that of no other node (`heartbeat_agreement`).

`sent` and `heard` are read by no step: the heartbeats that were sent, and what a node
recorded when it accepted one.
-/

import Keva.Cluster.ElectionSafety

namespace Keva
namespace Cluster

open Protocol (VoteRequest VoteResponse Heartbeat)

variable {n n' : Node}

/-! ### One node -/

/-- A node that leads does so in the term it won last, and heartbeats are sent for a term
that was won. -/
structure Steers (n : Node) : Prop where
  leads : n.raft.role = .leader → n.pc.Leads ∧ n.won.head? = some n.raft.currentTerm
  leading : ∀ t, n.pc = .leading t → t ∈ n.won

/-- Steps that win nothing and read no term. -/
theorem Steers.evolve (h : Steers n) (he : Evolves n.raft n'.raft) (hw : n'.won = n.won)
    (hpc : n'.raft.role = .leader → n.pc.Leads → n'.pc.Leads)
    (hleading : ∀ t, n'.pc = .leading t → n.pc = .leading t) : Steers n' := by
  refine ⟨fun hrole => ?_, fun t ht => hw ▸ h.leading t (hleading t ht)⟩
  rcases he.moves with ⟨-, hnot⟩ | ⟨hterm, -, hlead⟩
  · exact absurd hrole hnot
  · obtain ⟨hpc₀, hwon⟩ := h.leads (hlead hrole)
    exact ⟨hpc hrole hpc₀, by rw [hw, hterm, hwon]⟩

/-- **A step of `run`,** and the heartbeats it sends: they go to other nodes, name this one, and
bear a term that it has won. -/
theorem Steers.main (h : Steers n) {out : List (Addr × Heartbeat)} (hm : MainStep n n' out) :
    Steers n' ∧ (∀ t ∈ n.won, t ∈ n'.won) ∧
      ∀ x ∈ out, x.2.term ∈ n.won ∧ x.2.leaderID = n.raft.nodeAddr ∧ x.1 ≠ n.raft.nodeAddr := by
  have hsame : Evolves n.raft n.raft := .of_eq rfl rfl rfl rfl id
  have hnone {P : Addr × Heartbeat → Prop} : ∀ x ∈ ([] : List (Addr × Heartbeat)), P x :=
    fun x hx => absurd hx List.not_mem_nil
  cases hm with
  | move _ _ hleads hreads hsends =>
    refine ⟨⟨fun hlead => ?_, fun t ht => ?_⟩, fun _ ht => ht, fun x hx => ?_⟩
    · exact ⟨hleads hlead (h.leads hlead).1, (h.leads hlead).2⟩
    · -- The term is read while the node leads: it is the one that was won last.
      obtain ⟨hlead, rfl⟩ := hreads t ht
      exact List.mem_of_head? (h.leads hlead).2
    · obtain ⟨t, hpc, hx₂, hx₁⟩ := hsends x hx
      rw [hx₂]
      exact ⟨h.leading t hpc, rfl, of_decide_eq_true (List.mem_filter.1 hx₁).2⟩
  | turn _ hrole =>
    exact ⟨h.evolve (.of_eq rfl rfl rfl rfl fun hlead => absurd hlead hrole) rfl
      (fun _ _ => trivial) nofun, fun _ ht => ht, hnone⟩
  | elect hpc =>
    refine ⟨⟨fun hlead => ?_, nofun⟩, fun _ ht => ht, hnone⟩
    have hleads := (h.leads hlead).1
    rw [hpc] at hleads
    exact hleads.elim
  | win _ _ hfin =>
    obtain ⟨hcur, -, rfl⟩ := finishElection_won hfin
    exact ⟨⟨fun _ => ⟨trivial, congrArg some hcur.symm⟩, nofun⟩,
      fun _ ht => List.mem_cons_of_mem _ ht, hnone⟩
  | lose _ _ hfin hlost =>
    have he := evolves_finishElection hfin hlost
    exact ⟨h.evolve he rfl (fun _ _ => trivial) nofun, fun _ ht => ht, hnone⟩
  | onLeader => exact ⟨h.evolve hsame rfl (fun _ _ => trivial) nofun, fun _ ht => ht, hnone⟩

/-- A handler or a goroutine that asks for votes: `run` stays where it is. -/
theorem Steers.aside (h : Steers n) (he : Evolves n.raft n'.raft) (hw : n'.won = n.won)
    (hpc : n'.pc = n.pc) : Steers n' ∧ ∀ t ∈ n.won, t ∈ n'.won :=
  ⟨h.evolve he hw (fun _ hleads => hpc ▸ hleads) fun _ ht => hpc ▸ ht, fun _ ht => hw ▸ ht⟩

/-- **Every step of a node,** whatever it is sent.  Whoever leads does so in the term it won
last, and a term that was won stays so. -/
theorem Steers.step (h : Steers n) {event : Node.Event} (hs : n.step event = some n') :
    Steers n' ∧ ∀ t ∈ n.won, t ∈ n'.won := by
  cases nodeStep_of_step hs with
  | main hm =>
    obtain ⟨hsteers, hwon, -⟩ := h.main hm
    exact ⟨hsteers, hwon⟩
  | heard _ _ hreads hleads =>
    exact ⟨h.evolve (.of_eq rfl rfl rfl rfl id) rfl (fun _ => hleads)
      fun t ht => absurd ht (hreads t), fun _ ht => ht⟩
  | heartbeat hb => exact h.aside (evolves_handleHeartbeat n.raft hb) rfl rfl
  | voteRequest req => exact h.aside (evolves_handleVoteRequest n.raft req).1 rfl rfl
  | reply => exact h.aside (evolves_stepDown n.raft _) rfl rfl
  | poll | onFollower | signal => exact h.aside (.of_eq rfl rfl rfl rfl id) rfl rfl

/-- Terms that were won stay won. -/
theorem Steers.becomes {ok : Node → Node.Event → Prop} (h : Steers n)
    (hn : Reach Node.step ok n n') :
    Steers n' ∧ ∀ t ∈ n.won, t ∈ n'.won := by
  refine hn.invariant (P := fun m => Steers m ∧ ∀ t ∈ n.won, t ∈ m.won) ⟨h, fun _ ht => ht⟩ ?_
  intro m event m' hm _ hs
  obtain ⟨hsteers, hwon⟩ := hm.1.step hs
  exact ⟨hsteers, fun t ht => hwon t (hm.2 t ht)⟩

/-- A new node does not lead. -/
theorem steers_start (a : Addr) (peers : List Addr) : Steers (Node.start a peers) :=
  ⟨Role.noConfusion, nofun⟩

/-! ### All nodes -/

/-- Node `a` has won term `t`: the term is in the ledger in which `runCandidate` puts down its
wins. -/
def Won (nodes : Addr → Option Node) (t : UInt64) (a : Addr) : Prop :=
  ∃ n, nodes a = some n ∧ t ∈ n.won

namespace World

variable {s s' : World} {event : Event}

/-- **The heartbeats on their way:** a step of `run` sends some, any other step sends none. -/
theorem beats_step (hs : s.step event = some s') :
    (∃ a n n' out, s.nodes a = some n ∧ MainStep n n' out ∧ s'.beats = s.beats ++ out) ∨
      s'.beats.Sublist s.beats := by
  cases worldStep_of_step hs with
  | main hn hm => exact Or.inl ⟨_, _, _, _, hn, mainStep_of_main hm, rfl⟩
  | hear => exact Or.inr (List.eraseIdx_sublist ..)
  | alone | vote => exact Or.inr (.refl _)

/-- Every node keeps what it has won. -/
theorem steers_step (h : ∀ a n, s.nodes a = some n → Steers n) (hs : s.step event = some s') :
    (∀ a n, s'.nodes a = some n → Steers n) ∧
      ∀ t a, Won s.nodes t a → Won s'.nodes t a := by
  constructor
  · intro a n' hn'
    obtain ⟨n, hn, hbecomes⟩ := before_of_becomes (hn' ▸ becomes_nodes hs a)
    exact ((h a n hn).becomes hbecomes).1
  · rintro t a ⟨n, hn, ht⟩
    obtain ⟨n', hn', hbecomes⟩ := after_of_becomes (hn ▸ becomes_nodes hs a)
    exact ⟨n', hn', ((h a n hn).becomes hbecomes).2 t ht⟩

end World

/-- What a node has accepted: the term of a heartbeat, and the leader it recorded. -/
structure Hearing where
  node : Addr
  term : UInt64
  leaderAddr : Addr
  deriving DecidableEq

/-- The cluster with two ledgers that no step reads: the heartbeats that have been sent, and what
nodes have recorded on accepting one. -/
structure Broadcasts where
  world : World
  sent : List Heartbeat
  heard : List Hearing

namespace Broadcasts

/-- What is heard in a step: the heartbeat that is handled, if its term is not old. -/
def hears (s : World) : Event → Option Hearing
  | .hear i => do
    let (p, hb) ← s.beats[i]?
    let n ← s.nodes p
    if hb.term < n.raft.currentTerm then none
    else return ⟨p, hb.term, (n.handleHeartbeat hb).raft.leaderAddr⟩
  | _ => none

/-- A step of the cluster, with the heartbeats it sends and the one it accepts. -/
def step (s : Broadcasts) (event : Event) : Option Broadcasts := do
  let world ← s.world.step event
  -- What a step sends goes to the end of `beats`.
  let out := world.beats.drop s.world.beats.length
  return ⟨world, s.sent ++ out.map Prod.snd, s.heard ++ (hears s.world event).toList⟩

/-- The cluster at its start.  Nothing has been sent and nothing has been heard. -/
def start (peers nodes : List Addr) : Broadcasts := ⟨World.start peers nodes, [], []⟩

/-- As in the cluster: no candidacy starts from the largest term there is. -/
def NoOverflow (s : Broadcasts) (event : Event) : Prop := s.world.NoOverflow event

instance (s : Broadcasts) (event : Event) : Decidable (s.NoOverflow event) :=
  inferInstanceAs (Decidable (s.world.NoOverflow event))

variable {peers : List Addr} {s s' : Broadcasts} {event : Event}

/-- **What is heard was on its way,** and the leader that is recorded is the one it names. -/
theorem eq_of_hears {w : World} {x : Hearing} (h : hears w event = some x) :
    ∃ y ∈ w.beats, y.2 = ⟨x.term, x.leaderAddr⟩ := by
  cases event with
  | hear i =>
    obtain ⟨⟨p, hb⟩, hi, h⟩ := Option.bind_eq_some_iff.1 h
    obtain ⟨n, -, h⟩ := Option.bind_eq_some_iff.1 h
    split_ifs at h with hold
    obtain rfl := Option.some.inj h
    refine ⟨(p, hb), List.mem_of_getElem? hi, ?_⟩
    have hleader : (n.handleHeartbeat hb).raft.leaderAddr = hb.leaderID := by
      simp only [Node.handleHeartbeat, RaftState.handleHeartbeat, if_neg hold]
    rw [hleader]
  | _ => cases h

/-- Every heartbeat bears a term that the node it names has won, be it in the ledger of those
sent, on its way or in the ledger of those accepted; and none goes to the node it names. -/
structure Inv (peers : List Addr) (s : Broadcasts) : Prop where
  cluster : Cluster.Inv peers s.world.nodes
  steers : ∀ a n, s.world.nodes a = some n → Steers n
  sent : ∀ hb ∈ s.sent, Won s.world.nodes hb.term hb.leaderID
  beats : ∀ x ∈ s.world.beats, x.2 ∈ s.sent ∧ x.2.leaderID ≠ x.1
  heard : ∀ x ∈ s.heard, Won s.world.nodes x.term x.leaderAddr

/-- **Every step of the cluster keeps it:** what is sent is sent by a node that has won the term,
and what is accepted was sent. -/
theorem Inv.step (h : Inv peers s) (hnd : peers.Nodup) (hover : s.NoOverflow event)
    (hs : s.step event = some s') : Inv peers s' := by
  obtain ⟨w, hw, hs⟩ := Option.bind_eq_some_iff.1 hs
  obtain rfl := Option.some.inj hs
  have hcluster := World.inv_step h.cluster hnd hover hw
  obtain ⟨hsteers, hwon⟩ := World.steers_step h.steers hw
  have hheard : ∀ x ∈ s.heard ++ (hears s.world event).toList, Won w.nodes x.term x.leaderAddr := by
    intro x hx
    rcases List.mem_append.1 hx with hx | hx
    · exact hwon _ _ (h.heard x hx)
    · obtain ⟨y, hy, heq⟩ := eq_of_hears (Option.mem_toList.1 hx)
      exact hwon _ _ (h.sent ⟨x.term, x.leaderAddr⟩ (heq ▸ (h.beats y hy).1))
  rcases World.beats_step hw with ⟨a, n, n', out, hn, hm, hbeats⟩ | hsub
  · -- The term was read by a node that has won it.
    obtain ⟨-, -, hout⟩ := (h.steers a n hn).main hm
    have haddr : n.raft.nodeAddr = a := (h.cluster.node a n hn).nodeAddr_eq
    rw [hbeats, List.drop_left]
    refine ⟨hcluster, hsteers, fun hb hmem => ?_, fun x hx => ?_, hheard⟩
    · rcases List.mem_append.1 hmem with hmem | hmem
      · exact hwon _ _ (h.sent hb hmem)
      · obtain ⟨x, hx, rfl⟩ := List.mem_map.1 hmem
        obtain ⟨hterm, hleader, -⟩ := hout x hx
        exact hwon _ _ ⟨n, by rw [hleader, haddr, hn], hterm⟩
    · rw [hbeats] at hx
      rcases List.mem_append.1 hx with hx | hx
      · exact ⟨List.mem_append_left _ (h.beats x hx).1, (h.beats x hx).2⟩
      · obtain ⟨-, hleader, hother⟩ := hout x hx
        exact ⟨List.mem_append_right _ (List.mem_map_of_mem hx), hleader ▸ hother.symm⟩
  · have hnone : w.beats.drop s.world.beats.length = [] := List.drop_eq_nil_of_le hsub.length_le
    rw [hnone, List.map_nil, List.append_nil]
    exact ⟨hcluster, hsteers, fun hb hmem => hwon _ _ (h.sent hb hmem),
      fun x hx => h.beats x (hsub.subset hx), hheard⟩

/-- Nobody has won, and nothing has been sent. -/
theorem inv_start {nodes : List Addr} (hnodes : ∀ a ∈ nodes, a ∈ peers ∧ a ≠ []) :
    Inv peers (start peers nodes) := by
  refine ⟨World.inv_start hnodes, fun a n hn => ?_, nofun, nofun, nofun⟩
  obtain ⟨-, rfl⟩ := World.node_of_start hn
  exact steers_start a peers

/-- **Leader agreement through heartbeats.**  As in election safety, nodes with distinct
non-empty addresses and the same duplicate-free list of peers start and never restart, and
no term overflows.  Every heartbeat that was ever sent names the node that has won its
term, which no other node has.  Nodes that accept heartbeats of one term record the same
leader.  And no heartbeat on its way to a node that leads bears the term it leads in. -/
theorem heartbeat_agreement (hnd : peers.Nodup) {nodes : List Addr}
    (hnodes : ∀ a ∈ nodes, a ∈ peers ∧ a ≠ [])
    (hs : Reach step NoOverflow (start peers nodes) s) :
    (∀ hb ∈ s.sent, ∀ a, Won s.world.nodes hb.term a ↔ a = hb.leaderID) ∧
      (∀ x ∈ s.heard, ∀ y ∈ s.heard, x.term = y.term → x.leaderAddr = y.leaderAddr) ∧
      ∀ x ∈ s.world.beats, ∀ n, s.world.nodes x.1 = some n → n.raft.role = .leader →
        x.2.term ≠ n.raft.currentTerm := by
  have hinv : Inv peers s := hs.invariant (P := Inv peers) (inv_start hnodes)
    fun s event s' h hover hstep => h.step hnd hover hstep
  have hone : ∀ t a b, Won s.world.nodes t a → Won s.world.nodes t b → a = b := by
    rintro t a b ⟨n, hn, ht⟩ ⟨m, hm, ht'⟩
    exact hinv.cluster.winner_eq hn hm ht ht'
  refine ⟨fun hb hmem a => ?_, fun x hx y hy hterm => ?_, fun x hx n hn hlead hterm => ?_⟩
  · constructor
    · exact fun ha => hone _ _ _ ha (hinv.sent hb hmem)
    · rintro rfl
      exact hinv.sent hb hmem
  · exact hone _ _ _ (hinv.heard x hx) (hterm ▸ hinv.heard y hy)
  · obtain ⟨hsent, hother⟩ := hinv.beats x hx
    have hown : n.raft.currentTerm ∈ n.won := List.mem_of_head? (((hinv.steers x.1 n hn).leads hlead).2)
    exact hother (hone _ _ _ (hinv.sent x.2 hsent) ⟨n, hn, hterm ▸ hown⟩)

/-- The first of three nodes wins and sends its heartbeats, which both others hear. -/
def heardByBoth : List Event :=
  World.firstElection ++ [.main [1], .main [1], .main [1], .main [1], .hear 1, .hear 0]

/-- Two heartbeats of term 1 have been sent and accepted, and nobody but the first node has won
that term. -/
theorem heartbeat_agreement_heardByBoth :
    ∃ s ∈ runAll step NoOverflow (start [[1], [2], [3]] [[1], [2], [3]]) heardByBoth,
      s.sent = [⟨1, [1]⟩, ⟨1, [1]⟩] ∧ s.heard = [⟨[3], 1, [1]⟩, ⟨[2], 1, [1]⟩] ∧
        ∀ a, Won s.world.nodes 1 a ↔ a = [1] := by
  obtain ⟨s, hs, hsent, hheard⟩ :
      ∃ s ∈ runAll step NoOverflow (start [[1], [2], [3]] [[1], [2], [3]]) heardByBoth,
        s.sent = [⟨1, [1]⟩, ⟨1, [1]⟩] ∧ s.heard = [⟨[3], 1, [1]⟩, ⟨[2], 1, [1]⟩] := by
    decide +kernel
  obtain ⟨hwon, -, -⟩ := heartbeat_agreement (by decide)
    (by decide : ∀ a ∈ ([[1], [2], [3]] : List Addr), a ∈ [[1], [2], [3]] ∧ a ≠ [])
    (reach_of_runAll hs)
  exact ⟨s, hs, hsent, hheard, hwon ⟨1, [1]⟩ (by rw [hsent]; exact List.mem_cons_self)⟩

end Broadcasts

end Cluster
end Keva
