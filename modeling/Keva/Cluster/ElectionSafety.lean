/-
# At most one leader per term

Behind every vote that is counted stands a ballot of the voter (`Inv.evidence`),
behind every win the ballots of a majority (`Inv.backed`), and a node gives one
ballot per term (`Ballots`): so no two nodes win the same term (`election_safety`).
A node that leads does so in the term it won last, since whatever moves its term on
ends its lead, and only the goroutine that ran the election can make it lead
(`NodeInv.leads`).
-/

import Keva.Cluster.OneNode
import Keva.Lib.Quorum

namespace Keva
namespace Cluster

open Protocol (VoteRequest VoteResponse Heartbeat)

variable {peers : List Addr} {a p : Addr} {n n' : Node} {el : Election} {e j : ℕ} {stage stage' : Stage}

/-! ### One node -/

/-- A node with address `a`: it has given one vote per term at most, has voted for itself
wherever it stood, asks every other peer once per election, and leads only in the term that it
won last. -/
structure NodeInv (peers : List Addr) (a : Addr) (n : Node) : Prop where
  nodeAddr_eq : n.raft.nodeAddr = a
  peers_eq : n.raft.peers = peers
  ballots : Ballots n.raft n.ballots
  polls : ∀ el ∈ n.elections, el.polls.map Prod.fst = n.raft.otherPeers
  self : ∀ el ∈ n.elections, (el.term, a) ∈ n.ballots
  leads : n.raft.role = .leader → n.pc.Leads ∧ n.won.head? = some n.raft.currentTerm

/-- No handler changes the peers. -/
theorem otherPeers_eq {r r' : RaftState} (h : Evolves r r') : r'.otherPeers = r.otherPeers := by
  unfold RaftState.otherPeers
  rw [h.nodeAddr_eq, h.peers_eq]

/-- Steps that do not touch the ledgers and the polls. -/
theorem NodeInv.evolve (h : NodeInv peers a n) (he : Evolves n.raft n'.raft)
    (hel : n'.elections = n.elections) (hb : n'.ballots = n.ballots) (hw : n'.won = n.won)
    (hpc : n'.raft.role = .leader → n.pc.Leads → n'.pc.Leads) : NodeInv peers a n' := by
  refine ⟨he.nodeAddr_eq.trans h.nodeAddr_eq, he.peers_eq.trans h.peers_eq, hb ▸ h.ballots.evolve he,
    ?_, ?_, fun hrole => ?_⟩
  · rw [hel, otherPeers_eq he]
    exact h.polls
  · rw [hel, hb]
    exact h.self
  · rcases he.moves with ⟨-, hne⟩ | ⟨hterm, -, hlead⟩
    · exact absurd hrole hne
    · obtain ⟨hpc₀, hwon⟩ := h.leads (hlead hrole)
      exact ⟨hpc hrole hpc₀, by rw [hw, hterm, hwon]⟩

/-- One more vote. -/
theorem NodeInv.cast (h : NodeInv peers a n) {b : UInt64 × Addr}
    (hb : b = (n.raft.currentTerm, n.raft.votedFor)) (hne : n.raft.votedFor ≠ []) :
    NodeInv peers a { n with ballots := b :: n.ballots } := by
  subst hb
  exact ⟨h.nodeAddr_eq, h.peers_eq, h.ballots.cast hne, h.polls,
    fun el hel => List.mem_cons_of_mem _ (h.self el hel), h.leads⟩

/-- A poll is one of an election of the node. -/
theorem getElem?_of_poll (h : n.poll e j = some (el, p, stage)) :
    n.elections[e]? = some el ∧ el.polls[j]? = some (p, stage) := by
  obtain ⟨el', hel, hx⟩ := Option.bind_eq_some_iff.1 h
  obtain ⟨x, hj, hx⟩ := Option.bind_eq_some_iff.1 hx
  obtain ⟨rfl, rfl⟩ := Prod.mk.inj (Option.some.inj hx)
  exact ⟨hel, hj⟩

/-- A goroutine that asks for a vote moves on.  The peers that are asked stay the same, and so
does the term in which they are. -/
theorem NodeInv.setPoll (h : NodeInv peers a n) (hpoll : n.poll e j = some (el, p, stage))
    (stage' : Stage) : NodeInv peers a (n.setPoll e el j p stage') := by
  obtain ⟨hel, hj⟩ := getElem?_of_poll hpoll
  have hmem : el ∈ n.elections := List.mem_of_getElem? hel
  refine ⟨h.nodeAddr_eq, h.peers_eq, h.ballots, ?_, ?_, h.leads⟩
  · intro y hy
    rcases List.mem_or_eq_of_mem_set hy with hy | rfl
    · exact h.polls y hy
    · have hset : (el.polls.set j (p, stage')).map Prod.fst = el.polls.map Prod.fst :=
        map_set_eq hj rfl
      exact hset.trans (h.polls el hmem)
  · intro y hy
    rcases List.mem_or_eq_of_mem_set hy with hy | rfl
    · exact h.self y hy
    · exact h.self el hmem

/-- A vote request is handled: what is granted is on record, along with all votes that were given
before. -/
theorem NodeInv.handleVoteRequest (h : NodeInv peers a n) (req : VoteRequest)
    (hne : req.candidateID ≠ []) :
    NodeInv peers a (n.handleVoteRequest req).1 ∧
      (∀ b ∈ n.ballots, b ∈ (n.handleVoteRequest req).1.ballots) ∧
      ((n.handleVoteRequest req).2.granted = true →
        (req.term, req.candidateID) ∈ (n.handleVoteRequest req).1.ballots) := by
  obtain ⟨he, hgrant⟩ := evolves_handleVoteRequest n.raft req
  have hnode : NodeInv peers a
      { n with
        raft := (n.raft.handleVoteRequest req).1
        posts := n.posts ++ (n.raft.handleVoteRequest req).2.2.toList } :=
    h.evolve he rfl rfl rfl fun _ hpc => hpc
  unfold Node.handleVoteRequest
  dsimp only
  cases hg : (n.raft.handleVoteRequest req).2.1.granted with
  | false => exact ⟨hnode, fun b hb => hb, Bool.noConfusion⟩
  | true =>
    obtain ⟨hterm, hvote⟩ := hgrant hg
    refine ⟨?_, fun b hb => List.mem_cons_of_mem _ hb, fun _ => List.mem_cons_self⟩
    refine hnode.cast (b := (req.term, req.candidateID)) ?_ ?_
    · rw [← hterm, ← hvote]
    · exact hvote ▸ hne

/-- A new node has won nothing and given no vote. -/
theorem nodeInv_start (a : Addr) (peers : List Addr) : NodeInv peers a (Node.start a peers) := by
  refine ⟨rfl, rfl, ⟨?_, ?_, ?_, ?_⟩, ?_, ?_, Role.noConfusion⟩ <;>
    exact fun _ hmem => absurd hmem List.not_mem_nil

/-! ### All nodes -/

variable {nodes : Addr → Option Node}

/-- Node `v` has voted for `c` in term `t`, by its own record of the votes it has given. -/
def Backed (nodes : Addr → Option Node) (t : UInt64) (v c : Addr) : Prop :=
  ∃ n, nodes v = some n ∧ (t, c) ∈ n.ballots

/-- The nodes of a cluster.  A vote that a candidate has been granted was given, and a term that
was won was won with a majority of the peers: both are evidence in the records of the voters. -/
structure Inv (peers : List Addr) (nodes : Addr → Option Node) : Prop where
  node : ∀ a n, nodes a = some n → NodeInv peers a n
  listed : ∀ a n, nodes a = some n → a ∈ peers ∧ a ≠ []
  evidence : ∀ a n, nodes a = some n → ∀ el ∈ n.elections, ∀ x ∈ el.polls, x.2.Granted →
    Backed nodes el.term x.1 a
  backed : ∀ a n, nodes a = some n → ∀ t ∈ n.won,
    ∃ Q, Majority peers Q ∧ ∀ v ∈ Q, Backed nodes t v a

/-- A vote that was given stays given. -/
theorem Backed.update {t : UInt64} {v c : Addr} (h : Backed nodes t v c) (hn : nodes a = some n)
    (hsub : ∀ b ∈ n.ballots, b ∈ n'.ballots) : Backed (Function.update nodes a (some n')) t v c := by
  obtain ⟨m, hm, hb⟩ := h
  by_cases hva : v = a
  · subst hva
    obtain rfl := Option.some.inj (hn.symm.trans hm)
    exact ⟨n', Function.update_self .., hsub _ hb⟩
  · exact ⟨m, by rw [Function.update_of_ne hva, hm], hb⟩

/-- **A change of one node,** with evidence for whatever is new.  Votes that were given stay on
record, so that what others base on them still stands. -/
theorem Inv.update (h : Inv peers nodes) (hn : nodes a = some n) (hnode : NodeInv peers a n')
    (hsub : ∀ b ∈ n.ballots, b ∈ n'.ballots)
    (hevid : ∀ el ∈ n'.elections, ∀ x ∈ el.polls, x.2.Granted → Backed nodes el.term x.1 a)
    (hwon : ∀ t ∈ n'.won, ∃ Q, Majority peers Q ∧ ∀ v ∈ Q, Backed nodes t v a) :
    Inv peers (Function.update nodes a (some n')) := by
  refine ⟨?_, ?_, ?_, ?_⟩
  · intro b m hm
    rcases World.node_of_update hm with ⟨rfl, rfl⟩ | hm
    · exact hnode
    · exact h.node b m hm
  · intro b m hm
    rcases World.node_of_update hm with ⟨rfl, rfl⟩ | hm
    · exact h.listed b n hn
    · exact h.listed b m hm
  · intro b m hm el hel x hx hg
    rcases World.node_of_update hm with ⟨rfl, rfl⟩ | hm
    · exact (hevid el hel x hx hg).update hn hsub
    · exact (h.evidence b m hm el hel x hx hg).update hn hsub
  · intro b m hm t ht
    have hold : ∃ Q, Majority peers Q ∧ ∀ v ∈ Q, Backed nodes t v b := by
      rcases World.node_of_update hm with ⟨rfl, rfl⟩ | hm
      · exact hwon t ht
      · exact h.backed b m hm t ht
    obtain ⟨Q, hQ, hv⟩ := hold
    exact ⟨Q, hQ, fun v hvQ => (hv v hvQ).update hn hsub⟩

/-- A change of one node that leaves its polls and its wins alone. -/
theorem Inv.quiet (h : Inv peers nodes) (hn : nodes a = some n) (hnode : NodeInv peers a n')
    (hel : n'.elections = n.elections) (hw : n'.won = n.won)
    (hsub : ∀ b ∈ n.ballots, b ∈ n'.ballots) : Inv peers (Function.update nodes a (some n')) :=
  h.update hn hnode hsub (hel ▸ h.evidence a n hn) (hw ▸ h.backed a n hn)

/-- A change of one node that leaves its ledgers alone too. -/
theorem Inv.evolve (h : Inv peers nodes) (hn : nodes a = some n) (he : Evolves n.raft n'.raft)
    (hel : n'.elections = n.elections) (hb : n'.ballots = n.ballots) (hw : n'.won = n.won)
    (hpc : n'.raft.role = .leader → n.pc.Leads → n'.pc.Leads) :
    Inv peers (Function.update nodes a (some n')) :=
  h.quiet hn ((h.node a n hn).evolve he hel hb hw hpc) hel hw fun _ hmem => hb ▸ hmem

/-- A goroutine that asks for a vote moves on, with evidence if it reports one. -/
theorem Inv.setPoll (h : Inv peers nodes) (hn : nodes a = some n)
    (hpoll : n.poll e j = some (el, p, stage)) (hg : stage'.Granted → Backed nodes el.term p a) :
    Inv peers (Function.update nodes a (some (n.setPoll e el j p stage'))) := by
  have hmem : el ∈ n.elections := List.mem_of_getElem? (getElem?_of_poll hpoll).1
  refine h.update hn ((h.node a n hn).setPoll hpoll stage') (fun b hb => hb) ?_ (h.backed a n hn)
  intro y hy x hx hgx
  rcases List.mem_or_eq_of_mem_set hy with hy | rfl
  · exact h.evidence a n hn y hy x hx hgx
  · rcases List.mem_or_eq_of_mem_set hx with hx | rfl
    · exact h.evidence a n hn el hmem x hx hgx
    · exact hg hgx

/-! ### Steps -/

/-- The `int32` counter never shows more than was counted. -/
theorem Election.votes_le (el : Election) :
    el.votes ≤ 1 + el.polls.countP fun x => x.2 = .done true := by
  unfold votes
  generalize (el.polls.countP fun x => x.2 = .done true) = k
  rw [Int.bmod_def]
  split_ifs <;> omega

/-- **Enough votes are a majority of voters.**  The polls of an election are of distinct peers,
and the candidate itself is one more, so that counting votes is counting voters. -/
theorem Inv.majority (h : Inv peers nodes) (hnd : peers.Nodup) (hn : nodes a = some n)
    (hel : el ∈ n.elections) (hvotes : (peers.length / 2 + 1 : ℕ) ≤ el.votes) :
    ∃ Q, Majority peers Q ∧ ∀ v ∈ Q, Backed nodes el.term v a := by
  have hnode := h.node a n hn
  have hpolls : el.polls.map Prod.fst = peers.filter fun p => p ≠ a := by
    rw [hnode.polls el hel, RaftState.otherPeers, hnode.peers_eq, hnode.nodeAddr_eq]
  have hsub : ((el.polls.filter fun x => x.2 = .done true).map Prod.fst).Sublist
      (peers.filter fun p => p ≠ a) := hpolls ▸ List.filter_sublist.map _
  have hnodup := (hnd.filter _).sublist hsub
  have hnotin : a ∉ ((el.polls.filter fun x => x.2 = .done true).map Prod.fst).toFinset := by
    intro ha
    have hmem := hsub.subset (List.mem_toFinset.1 ha)
    simp at hmem
  refine ⟨insert a ((el.polls.filter fun x => x.2 = .done true).map Prod.fst).toFinset,
    ⟨?_, ?_⟩, ?_⟩
  · refine Finset.insert_subset (List.mem_toFinset.2 (h.listed a n hn).1) fun v hv => ?_
    exact List.mem_toFinset.2 (List.mem_of_mem_filter (hsub.subset (List.mem_toFinset.1 hv)))
  · rw [Finset.card_insert_of_notMem hnotin, List.toFinset_card_of_nodup hnodup, List.length_map,
      ← List.countP_eq_length_filter]
    have hle := el.votes_le
    omega
  · intro v hv
    rcases Finset.mem_insert.1 hv with rfl | hv
    · exact ⟨n, hn, hnode.self el hel⟩
    · obtain ⟨x, hx, rfl⟩ := List.mem_map.1 (List.mem_toFinset.1 hv)
      obtain ⟨hx, hdone⟩ := List.mem_filter.1 hx
      refine h.evidence a n hn el hel x hx ?_
      rw [of_decide_eq_true hdone]
      rfl

/-- An election starts: in a new term, with the candidate's vote for itself on record and with
one poll for every other peer. -/
theorem NodeInv.startElection (h : NodeInv peers a n) (hne : a ≠ [])
    (hterm : n.raft.currentTerm ≠ -1) (hpc : n.pc = .candidate) :
    NodeInv peers a { n with
      raft := n.raft.startElection
      elections := n.elections ++ [⟨n.raft.startElection.currentTerm,
        n.raft.startElection.otherPeers.map fun p => (p, .dialing)⟩]
      pc := .waiting n.elections.length
      ballots := (n.raft.startElection.currentTerm, n.raft.startElection.votedFor) ::
        n.ballots } := by
  have hrole : n.raft.role ≠ .leader := by
    intro hlead
    have hleads := (h.leads hlead).1
    rw [hpc] at hleads
    exact hleads
  have he := evolves_startElection hterm hrole
  have hvote : n.raft.startElection.votedFor = a := h.nodeAddr_eq
  refine ⟨h.nodeAddr_eq, h.peers_eq, (h.ballots.evolve he).cast (hvote ▸ hne), ?_, ?_,
    fun hlead => absurd hlead hrole⟩
  · intro y hy
    rcases List.mem_append.1 hy with hy | hy
    · exact (h.polls y hy).trans (otherPeers_eq he).symm
    · obtain rfl := List.mem_singleton.1 hy
      change (n.raft.startElection.otherPeers.map fun p => (p, Stage.dialing)).map Prod.fst = _
      rw [List.map_map]
      exact List.map_id _
  · intro y hy
    rcases List.mem_append.1 hy with hy | hy
    · exact List.mem_cons_of_mem _ (h.self y hy)
    · obtain rfl := List.mem_singleton.1 hy
      change (n.raft.startElection.currentTerm, a) ∈ _
      rw [← hvote]
      exact List.mem_cons_self

/-- **A step of `run` of one node.**  A candidacy takes a new term, in which no vote has been
given, and votes for itself. -/
theorem NodeInv.main (h : NodeInv peers a n) (hne : a ≠ [])
    (hterm : n.pc = .candidate → n.raft.currentTerm ≠ -1) {out : List (Addr × Heartbeat)}
    (hm : MainStep n n' out) : NodeInv peers a n' := by
  have hsame : Evolves n.raft n.raft := .of_eq rfl rfl rfl rfl id
  cases hm with
  | move _ _ hleads => exact h.evolve hsame rfl rfl rfl hleads
  | turn _ hrole =>
    exact h.evolve (.of_eq rfl rfl rfl rfl fun hlead => absurd hlead hrole) rfl rfl rfl
      fun _ _ => trivial
  | elect hpc => exact h.startElection hne (hterm hpc) hpc
  | win _ _ hfin =>
    obtain ⟨hcur, -, rfl⟩ := finishElection_won hfin
    exact ⟨h.nodeAddr_eq, h.peers_eq,
      ⟨h.ballots.le, h.ballots.voted, h.ballots.unique, h.ballots.named⟩, h.polls, h.self,
      fun _ => ⟨trivial, congrArg some hcur.symm⟩⟩
  | lose _ _ hfin hlost =>
    exact h.evolve (evolves_finishElection hfin hlost) rfl rfl rfl fun _ _ => trivial
  | onLeader => exact h.evolve hsame rfl rfl rfl fun _ _ => trivial

/-- **A step of `run`:** who has won an election has a majority behind it.  Votes are counted as
they stand, and for each of them there is evidence already. -/
theorem Inv.main (h : Inv peers nodes) (hnd : peers.Nodup) (hn : nodes a = some n)
    (hterm : n.pc = .candidate → n.raft.currentTerm ≠ -1) {out : List (Addr × Heartbeat)}
    (hm : n.main = some (n', out)) : Inv peers (Function.update nodes a (some n')) := by
  have hstep := mainStep_of_main hm
  have hnode := (h.node a n hn).main (h.listed a n hn).2 hterm hstep
  cases hstep with
  | elect hpc =>
    -- Nobody has been asked yet.
    refine h.update hn hnode (fun b hb => List.mem_cons_of_mem _ hb) ?_ (h.backed a n hn)
    intro y hy x hx hg
    rcases List.mem_append.1 hy with hy | hy
    · exact h.evidence a n hn y hy x hx hg
    · obtain rfl := List.mem_singleton.1 hy
      obtain ⟨p, -, rfl⟩ := List.mem_map.1 hx
      exact hg.elim
  | win _ hel hfin =>
    obtain ⟨-, hquorum, rfl⟩ := finishElection_won hfin
    rw [(h.node a n hn).peers_eq] at hquorum
    refine h.update hn hnode (fun b hb => hb) (h.evidence a n hn) fun t ht => ?_
    rcases List.mem_cons.1 ht with rfl | ht
    · exact h.majority hnd hn (List.mem_of_getElem? hel) hquorum
    · exact h.backed a n hn t ht
  | move | turn | lose | onLeader => exact h.quiet hn hnode rfl rfl fun _ hb => hb

/-- **A peer handles a vote request,** and its answer is on its way if someone waits
for it. -/
theorem Inv.vote (h : Inv peers nodes) (hn : nodes a = some n)
    (hpoll : n.poll e j = some (el, p, stage)) {voter voter' n₁ : Node} {resp : VoteResponse}
    (hv : nodes p = some voter)
    (hhandled : voter.handleVoteRequest ⟨el.term, n.raft.nodeAddr, 0⟩ = (voter', resp))
    (hn₁ : Function.update nodes p (some voter') a = some n₁)
    (hstage : stage' = .replied resp ∨ stage' = .done false) :
    Inv peers (Function.update (Function.update nodes p (some voter')) a
      (some (n₁.setPoll e el j p stage'))) := by
  have haddr : n.raft.nodeAddr = a := (h.node a n hn).nodeAddr_eq
  rw [haddr] at hhandled
  obtain rfl : (voter.handleVoteRequest ⟨el.term, a, 0⟩).1 = voter' := congrArg Prod.fst hhandled
  obtain rfl : (voter.handleVoteRequest ⟨el.term, a, 0⟩).2 = resp := congrArg Prod.snd hhandled
  obtain ⟨hnode, hsub, hgrant⟩ :=
    (h.node p voter hv).handleVoteRequest ⟨el.term, a, 0⟩ (h.listed a n hn).2
  have h₁ := h.quiet hv hnode rfl rfl hsub
  have hpoll₁ := World.poll_of_voted hn hpoll hv hn₁
  refine h₁.setPoll hn₁ hpoll₁ fun hg => ?_
  rcases hstage with rfl | rfl
  · exact ⟨_, Function.update_self .., hgrant hg⟩
  · cases hg

/-- A vote that an asker has seen was cast. -/
theorem Inv.backed_of_poll (h : Inv peers nodes) (hn : nodes a = some n)
    (hpoll : n.poll e j = some (el, p, stage)) (hg : stage.Granted) : Backed nodes el.term p a := by
  obtain ⟨hel, hj⟩ := getElem?_of_poll hpoll
  exact h.evidence a n hn el (List.mem_of_getElem? hel) _ (List.mem_of_getElem? hj) hg

/-- **An answer arrives,** and a newer term in it makes the asker a follower. -/
theorem Inv.reply (h : Inv peers nodes) (hn : nodes a = some n) {resp : VoteResponse}
    (hpoll : n.poll e j = some (el, p, .replied resp)) :
    Inv peers (Function.update nodes a (some
      (({ n with raft := n.raft.stepDown resp.term } : Node).setPoll e el j p
        (.answered resp.granted)))) := by
  have h₁ : Inv peers (Function.update nodes a
      (some { n with raft := n.raft.stepDown resp.term })) :=
    h.evolve hn (evolves_stepDown n.raft resp.term) rfl rfl rfl fun _ hleads => hleads
  have hback : (Stage.answered resp.granted).Granted → Backed (Function.update nodes a
      (some { n with raft := n.raft.stepDown resp.term })) el.term p a :=
    fun hg => (h.backed_of_poll hn hpoll hg).update hn fun b hb => hb
  have h₂ := h₁.setPoll (Function.update_self ..) hpoll hback
  rwa [Function.update_idem] at h₂

/-- **A step of one node that takes no message of another** needs no new evidence. -/
theorem Inv.alone (h : Inv peers nodes) (hn : nodes a = some n) {event : Node.Event}
    (halone : event.Alone) (hs : n.step event = some n') :
    Inv peers (Function.update nodes a (some n')) := by
  cases nodeStep_of_step hs with
  | main | heartbeat | voteRequest => exact halone.elim
  | heard _ _ _ hleads =>
    exact h.evolve hn (.of_eq rfl rfl rfl rfl id) rfl rfl rfl fun _ => hleads
  | poll _ hpoll hgranted =>
    exact h.setPoll hn hpoll fun hg => h.backed_of_poll hn hpoll (hgranted halone hg)
  | reply hpoll => exact h.reply hn hpoll
  | onFollower | signal =>
    exact h.evolve hn (.of_eq rfl rfl rfl rfl id) rfl rfl rfl fun _ hleads => hleads

/-- **A term has one winner:** two majorities have a voter in common, and that voter has one
vote. -/
theorem Inv.winner_eq (h : Inv peers nodes) {b : Addr} {m : Node} (hn : nodes a = some n)
    (hm : nodes b = some m) {t : UInt64} (ht : t ∈ n.won) (ht' : t ∈ m.won) : a = b := by
  obtain ⟨Q, hQ, hvotes⟩ := h.backed a n hn t ht
  obtain ⟨Q', hQ', hvotes'⟩ := h.backed b m hm t ht'
  have hone : ∀ v c c', Backed nodes t v c → Backed nodes t v c' → c = c' := by
    rintro v c c' ⟨k, hk, hc⟩ ⟨k', hk', hc'⟩
    obtain rfl := Option.some.inj (hk.symm.trans hk')
    exact (h.node v k hk).ballots.unique _ hc _ hc' rfl
  exact hQ.choice_eq hone hQ' hvotes hvotes'

namespace World

variable {s s' : World}

/-- **Every step of the cluster keeps the invariant.**  The evidence for a vote is made where the
vote is given, in the step in which the request is handled, and is still there when it is
counted. -/
theorem inv_step (h : Inv peers s.nodes) (hnd : peers.Nodup) {event : Event}
    (hover : s.NoOverflow event) (hs : s.step event = some s') : Inv peers s'.nodes := by
  cases worldStep_of_step hs with
  | main hn hm => exact h.main hnd hn (hover _ hn) hm
  | alone hn _ halone hstep => exact h.alone hn halone hstep
  | @hear i p hb n _ hn =>
    exact h.evolve hn (evolves_handleHeartbeat n.raft hb) rfl rfl rfl fun _ hleads => hleads
  | vote hn hpoll hv hhandled hn₁ _ hstage => exact h.vote hn hpoll hv hhandled hn₁ hstage

/-- Nodes that have just started: no election has been held, so that there is nothing to give
evidence of. -/
theorem inv_start {nodes : List Addr} (hnodes : ∀ a ∈ nodes, a ∈ peers ∧ a ≠ []) :
    Inv peers (start peers nodes).nodes := by
  refine ⟨?_, ?_, ?_, ?_⟩
  · intro a n hn
    obtain ⟨-, rfl⟩ := node_of_start hn
    exact nodeInv_start a peers
  · intro a n hn
    exact hnodes a (node_of_start hn).1
  · intro a n hn el hel
    obtain ⟨-, rfl⟩ := node_of_start hn
    exact absurd hel List.not_mem_nil
  · intro a n hn t ht
    obtain ⟨-, rfl⟩ := node_of_start hn
    exact absurd ht List.not_mem_nil

/-- **Election safety.**  Nodes with distinct non-empty addresses and the same
duplicate-free list of peers, which has them all, start and never restart.  In every
state they reach by any interleaving in which no term overflows, no two of them have
won the same term, and one that leads is in the term it won last. -/
theorem election_safety (hnd : peers.Nodup) {nodes : List Addr}
    (hnodes : ∀ a ∈ nodes, a ∈ peers ∧ a ≠ [])
    (hs : Reach step NoOverflow (start peers nodes) s) :
    (∀ a b n m, s.nodes a = some n → s.nodes b = some m → ∀ t, t ∈ n.won → t ∈ m.won → a = b) ∧
      ∀ a n, s.nodes a = some n → n.raft.role = .leader →
        n.won.head? = some n.raft.currentTerm := by
  have hinv : Inv peers s.nodes := hs.invariant (P := fun s => Inv peers s.nodes)
    (inv_start hnodes) fun s event s' h hover hstep => inv_step h hnd hover hstep
  constructor
  · exact fun a b n m hn hm t ht ht' => hinv.winner_eq hn hm ht ht'
  · intro a n hn hlead
    exact ((hinv.node a n hn).leads hlead).2

/-- Of three nodes the first times out, asks the second for its vote, and wins. -/
def firstElection : List Event :=
  [.main [1], .main [1], .main [1], .main [1], .main [1], .send [1] 0 0, .vote [1] 0 0,
    .reply [1] 0 0, .count [1] 0 0, .main [1], .main [1]]

/-- The first node leads in term 1, and nobody else has won that term. -/
theorem election_safety_first :
    ∃ s ∈ runAll step NoOverflow (start [[1], [2], [3]] [[1], [2], [3]]) firstElection,
      ∃ n, s.nodes [1] = some n ∧ n.raft.role = .leader ∧ n.won.head? = some n.raft.currentTerm ∧
        ∀ b m, s.nodes b = some m → 1 ∈ m.won → [1] = b := by
  obtain ⟨s, hs, hwon⟩ :
      ∃ s ∈ runAll step NoOverflow (start [[1], [2], [3]] [[1], [2], [3]]) firstElection,
        (s.nodes [1]).map (fun n => (n.raft.role, n.won)) = some (.leader, [1]) := by
    decide +kernel
  obtain ⟨n, hn, hwon⟩ := Option.map_eq_some_iff.1 hwon
  obtain ⟨hrole, hwon⟩ := Prod.mk.inj hwon
  obtain ⟨hone, hleads⟩ := election_safety (by decide)
    (by decide : ∀ a ∈ ([[1], [2], [3]] : List Addr), a ∈ [[1], [2], [3]] ∧ a ≠ [])
    (reach_of_runAll hs)
  exact ⟨s, hs, n, hn, hrole, hleads [1] n hn hrole, fun b m hm hmem =>
    hone [1] b n m hn hm 1 (by rw [hwon]; exact List.mem_cons_self) hmem⟩

end World

end Cluster
end Keva
