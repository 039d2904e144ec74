/-
# A leader leads its term to the end

`HandleHeartbeat` (`cluster/raft.go`) makes a follower of whoever receives a heartbeat that
is not older than its own term, and asks nobody whether it leads that very term;
`HandleVoteRequest`, `requestVoteRPC`, `runFollower` and `runCandidate` write the role as
well.  In a cluster it takes more than that to depose a leader: heartbeats of its term come
from itself alone and go to others, and what else writes the role of a leader raises its
term first.

So a node that leads goes on to lead until its term is a newer one, on every interleaving
(`World.leads_its_term`).  Each term is led in one stretch by one node.
-/

import Keva.Cluster.Heartbeats
import Keva.Cluster.Terms

namespace Keva
namespace Cluster

open Protocol (VoteRequest VoteResponse Heartbeat)

variable {peers : List Addr} {a : Addr} {n n' : Node} {t : UInt64}

/-! ### Handlers that leave the term as it is -/

namespace RaftState

variable {r : RaftState}

/-- A heartbeat of another term. -/
theorem handleHeartbeat_of_ne {hb : Heartbeat} (hne : hb.term ≠ r.currentTerm)
    (h : (r.handleHeartbeat hb).1.currentTerm = r.currentTerm) : (r.handleHeartbeat hb).1 = r := by
  unfold handleHeartbeat at h ⊢
  split_ifs at h ⊢ with hold hnew
  · rfl
  · exact absurd h hne
  · exact absurd (UInt64.le_antisymm (UInt64.not_lt.1 hnew) (UInt64.not_lt.1 hold)) hne

/-- A leader is asked for its vote.  If that does not raise its term, it changes nothing at all:
within its term it refuses. -/
theorem handleVoteRequest_of_leads {req : VoteRequest} (hlead : r.role = .leader)
    (h : (r.handleVoteRequest req).1.currentTerm = r.currentTerm) :
    (r.handleVoteRequest req).1 = r := by
  unfold handleVoteRequest at h ⊢
  by_cases hold : req.term < r.currentTerm
  · rw [if_pos hold]
  rw [if_neg hold] at h ⊢
  by_cases hsame : req.term = r.currentTerm
  · rw [if_pos ⟨hlead, hsame⟩]
  have hnew : r.currentTerm < req.term :=
    UInt64.lt_of_le_of_ne (UInt64.not_lt.1 hold) (Ne.symm hsame)
  rw [if_neg fun hboth => hsame hboth.2, if_pos hnew] at h
  dsimp only at h
  rw [if_pos (Or.inl rfl)] at h
  exact absurd h hsame

/-- A step-down that leaves the term does nothing. -/
theorem stepDown_of_eq {term : UInt64} (h : (r.stepDown term).currentTerm = r.currentTerm) :
    r.stepDown term = r := by
  unfold stepDown at h ⊢
  split_ifs at h ⊢ with hnew
  · exact absurd (h ▸ hnew) (UInt64.lt_irrefl _)
  · rfl

end RaftState

/-! ### One node -/

/-- The node leads in term `t`, or its term is newer.  A lead ends in no other way. -/
def Kept (t : UInt64) (n : Node) : Prop :=
  n.raft.currentTerm = t ∧ n.raft.role = .leader ∨ t < n.raft.currentTerm

/-- **One step of a node that leads.**  It gives way to a heartbeat of its own term, and
otherwise to newer terms only. -/
theorem Kept.step (h : Kept t n) (hsteers : Steers n) {event : Node.Event} (hok : n.Regular event)
    (hbeat : ∀ hb, event = .heartbeat hb → n.raft.role = .leader → hb.term ≠ n.raft.currentTerm)
    (hs : n.step event = some n') : Kept t n' := by
  rcases h with ⟨rfl, hlead⟩ | hnewer
  · have hpc := (hsteers.leads hlead).1
    rcases grows_step hok hs with hlt | ⟨heq, -⟩
    · exact Or.inr hlt
    refine Or.inl ⟨heq, ?_⟩
    cases nodeStep_of_step hs with
    | main hm =>
      -- `run` stands in none of the places where it would write the role.
      cases hm with
      | move | onLeader => exact hlead
      | turn hpc' =>
        rcases hpc' with hpc' | hpc' <;>
        · rw [hpc'] at hpc
          exact False.elim hpc
      | elect hpc' | win hpc' | lose hpc' =>
        rw [hpc'] at hpc
        exact False.elim hpc
    | heartbeat hb =>
      change (n.raft.handleHeartbeat hb).1.role = .leader
      rw [RaftState.handleHeartbeat_of_ne (hbeat hb rfl hlead) heq]
      exact hlead
    | voteRequest req =>
      change (n.raft.handleVoteRequest req).1.role = .leader
      rw [RaftState.handleVoteRequest_of_leads hlead heq]
      exact hlead
    | @reply e j el p resp =>
      change (n.raft.stepDown resp.term).role = .leader
      rw [RaftState.stepDown_of_eq heq]
      exact hlead
    | heard | poll | onFollower | signal => exact hlead
  · rcases grows_step hok hs with hlt | ⟨heq, -⟩
    · exact Or.inr (UInt64.lt_trans hnewer hlt)
    · exact Or.inr (heq ▸ hnewer)

/-! ### The cluster -/

namespace World

variable {s s' : World} {event : Event} {nodes : List Addr}

/-- What the ledgers of sent heartbeats say of those on their way. -/
theorem exists_broadcasts (hs : Reach step NoOverflow (start peers nodes) s) :
    ∃ b, Reach Broadcasts.step Broadcasts.NoOverflow (Broadcasts.start peers nodes) b ∧
      b.world = s := by
  induction hs with
  | refl => exact ⟨_, .refl, rfl⟩
  | tail event _ hover hstep ih =>
    obtain ⟨b, hb, rfl⟩ := ih
    exact ⟨_, .tail event hb hover (by simp only [Broadcasts.step, hstep]; rfl), rfl⟩

/-- A heartbeat on its way to a node that leads is of another term. -/
theorem beat_ne {b : Broadcasts} (h : Broadcasts.Inv peers b) {x : Addr × Heartbeat}
    (hx : x ∈ b.world.beats) (hn : b.world.nodes x.1 = some n) (hlead : n.raft.role = .leader) :
    x.2.term ≠ n.raft.currentTerm := by
  intro heq
  obtain ⟨hsent, hne⟩ := h.beats x hx
  obtain ⟨m, hm, hwon⟩ := h.sent x.2 hsent
  have hterm := List.mem_of_head? ((h.steers _ n hn).leads hlead).2
  exact hne (h.cluster.winner_eq hm hn hwon (heq ▸ hterm))

/-- **One step of the cluster.**  A heartbeat of the term the node leads in would have to come
from another winner of that term, and there is none. -/
theorem kept_step {b : Broadcasts} (h : Broadcasts.Inv peers b) (hover : b.world.NoOverflow event)
    (hs : b.world.step event = some s') (hk : ∀ n, b.world.nodes a = some n → Kept t n) :
    ∀ n', s'.nodes a = some n' → Kept t n' := by
  intro n' hn'
  obtain ⟨n, hn, hruns⟩ := before_of_becomes (hn' ▸ becomes_nodes hs a)
  refine (hruns.invariant (P := fun m => Kept t m ∧ Steers m) ⟨hk n hn, h.steers a n hn⟩ ?_).1
  rintro m ev m' ⟨hkept, hsteers⟩ hcause hstep
  refine ⟨hkept.step hsteers ?_ ?_ hstep, (hsteers.step hstep).1⟩
  · cases hcause with
    | main hm => exact hover m hm
    | voteRequest hb =>
      exact (h.cluster.node _ _ hb).nodeAddr_eq ▸ (h.cluster.listed _ _ hb).2
    | _ => trivial
  · rintro hb rfl hlead
    cases hcause with
    | heartbeat hi hm => exact beat_ne h (List.mem_of_getElem? hi) hm hlead

/-- **A leader leads its term to the end.**  Nodes with distinct non-empty addresses and the
same duplicate-free list of peers start and never restart, and no term overflows.  Whatever
happens after a node has come to lead, with heartbeats and requests delayed, lost and
reordered, it still leads the same term, or its term is a newer one. -/
theorem leads_its_term (hnd : peers.Nodup) (hnodes : ∀ a ∈ nodes, a ∈ peers ∧ a ≠ [])
    (hs : Reach step NoOverflow (start peers nodes) s) (hs' : Reach step NoOverflow s s')
    (hn : s.nodes a = some n) (hlead : n.raft.role = .leader) (hn' : s'.nodes a = some n') :
    n'.raft.currentTerm = n.raft.currentTerm ∧ n'.raft.role = .leader ∨
      n.raft.currentTerm < n'.raft.currentTerm := by
  induction hs' generalizing n' with
  | refl =>
    rw [Option.some.inj (hn'.symm.trans hn)]
    exact Or.inl ⟨rfl, hlead⟩
  | tail event hs' hover hstep ih =>
    obtain ⟨b, hb, rfl⟩ := exists_broadcasts (hs.trans hs')
    have hinv : Broadcasts.Inv peers b := hb.invariant (P := Broadcasts.Inv peers)
      (Broadcasts.inv_start hnodes) fun _ _ _ h hover hstep => h.step hnd hover hstep
    exact kept_step hinv hover hstep (fun m hm => ih hm) n' hn'

/-- The first node leads in term 1.  The second has voted for it, and stands in term 2; the
heartbeat of term 1 is still on its way to it. -/
def challenged : List Event :=
  [.main [1], .main [1], .main [1], .main [1], .main [2], .main [2], .main [2], .main [2],
    .main [2], .send [2] 0 0, .vote [2] 0 0, .hear 0]

/-- The leader of term 1 is asked for its vote in a newer term and follows: it has stopped
leading, and its term has grown. -/
theorem leads_its_term_challenged :
    ∃ s ∈ runAll step NoOverflow (start [[1], [2], [3]] [[1], [2], [3]]) firstElection,
      ∃ s' ∈ runAll step NoOverflow s challenged, ∃ n n', s.nodes [1] = some n ∧
        n.raft.role = .leader ∧ s'.nodes [1] = some n' ∧ n'.raft.role = .follower ∧
        n.raft.currentTerm < n'.raft.currentTerm := by
  obtain ⟨s, hs, s', hs', h, h'⟩ :
      ∃ s ∈ runAll step NoOverflow (start [[1], [2], [3]] [[1], [2], [3]]) firstElection,
        ∃ s' ∈ runAll step NoOverflow s challenged,
          (s.nodes [1]).map (fun n => n.raft.role) = some .leader ∧
            (s'.nodes [1]).map (fun n => n.raft.role) = some .follower := by
    decide +kernel
  obtain ⟨n, hn, hlead⟩ := Option.map_eq_some_iff.1 h
  obtain ⟨n', hn', hfollows⟩ := Option.map_eq_some_iff.1 h'
  have hkept := leads_its_term (by decide)
    (by decide : ∀ a ∈ ([[1], [2], [3]] : List Addr), a ∈ [[1], [2], [3]] ∧ a ≠ [])
    (reach_of_runAll hs) (reach_of_runAll hs') hn hlead hn'
  refine ⟨s, hs, s', hs', n, n', hn, hlead, hn', hfollows, hkept.resolve_left fun hstill => ?_⟩
  exact Role.noConfusion (hfollows.symm.trans hstill.2)

end World

end Cluster
end Keva
