/-
# A join and the `Leader` it is for

`handleReplicationPeer` (`server/tcp.go`) asks `IsLeader`, which reads the role under the
mutex of `RaftState`, then reads `Node.leader` under the mutex of the node, and calls
`AddFollower` on what it has read.  The callbacks that keep `Node.leader` in step with the
role run in between (`cluster/node.go`), and with a nil `Leader` the call takes the whole
server down.

It is not nil as long as nothing comes between (`leader_ne_nil_of_undisturbed`).  A leader
that is deposed after the check has none when it is looked for (`deposed_leader_is_nil`), and
neither has a node that has won an election and not yet called `onLeader`; but where that call
comes before `Node.leader` is read, nothing is lost.
-/

import Keva.Cluster.ElectionSafety
import Keva.Cluster.Network

namespace Keva
namespace Cluster

open Store (KVStore)

/-- `Node.leader` is set, or about to be: `onLeader` is the next step of `run`. -/
def Node.HasLeader (n : Node) : Prop := n.leader = true ∨ n.pc = .won

instance (n : Node) : Decidable n.HasLeader := inferInstanceAs (Decidable (_ ∨ _))

/-- **`Node.leader` stays set or about to be** until `onFollower` is called and `onLeader` is not
due. -/
theorem hasLeader_of_step {n n' : Node} {event : Node.Event} (hlead : n.HasLeader)
    (hpost : ∀ i, event = .post i → n.posts[i]? = some .onFollower → n.pc = .won)
    (hs : n.step event = some n') : n'.HasLeader := by
  cases nodeStep_of_step hs with
  | main hm =>
    cases hm with
    | onLeader => exact Or.inl rfl
    | win => exact Or.inr rfl
    -- No other step of `run` starts where `onLeader` is due.
    | move hpc => exact Or.inl (hlead.resolve_right hpc.1)
    | turn hpc =>
      refine Or.inl (hlead.resolve_right fun hwon => ?_)
      rw [hwon] at hpc
      exact hpc.elim Pc.noConfusion Pc.noConfusion
    | elect hpc =>
      refine Or.inl (hlead.resolve_right fun hwon => ?_)
      exact Pc.noConfusion (hwon.symm.trans hpc)
    | lose hpc =>
      refine Or.inl (hlead.resolve_right fun hwon => ?_)
      exact Pc.noConfusion (hwon.symm.trans hpc)
  | heard hwon => exact Or.inl (hlead.resolve_right hwon)
  | onFollower hi => exact Or.inr (hpost _ rfl hi)
  | heartbeat | voteRequest | poll | reply | signal => exact hlead

/-- The role has not been looked at. -/
def Serving.isJoin : Serving → Bool
  | .join _ => true
  | _ => false

/-- The role was that of a leader, and `Node.leader` has not been looked at. -/
def Serving.isChecked : Serving → Bool
  | .checked _ => true
  | _ => false

namespace Network

variable {s s' : Network} {action : Action}

/-- A join finds the role of a leader only where `Node.leader` is set or `onLeader` is due, and
reads `Node.leader` only after that call; and while it has found the role and not yet read
`Node.leader`, `onFollower` does not run, unless `onLeader` is due. -/
def Undisturbed (s : Network) : Action → Prop
  | .serve c => ∀ conn ∈ s.conns[c]?, ∀ n ∈ s.world.nodes conn.server,
      ((s.serving c).isJoin → n.raft.role = .leader → n.HasLeader) ∧
        ((s.serving c).isChecked → n.pc = .won → n.leader = true)
  | .event (.post a i) => ∀ n ∈ s.world.nodes a, n.posts[i]? = some .onFollower → n.pc ≠ .won →
      ∀ c < s.conns.length, (s.serving c).isChecked → s.servers[c]? ≠ some a
  | _ => True

instance (s : Network) (action : Action) : Decidable (s.Undisturbed action) := by
  unfold Undisturbed
  split <;> infer_instance

/-- Where the role was found, `Node.leader` is set or about to be, and it is not nil where it has
been read. -/
structure JoinInv (s : Network) : Prop where
  checked : ∀ c, (s.serving c).isChecked →
    ∃ a n, s.servers[c]? = some a ∧ s.world.nodes a = some n ∧ n.HasLeader
  adding : ∀ c nodeAddr, s.serving c ≠ .adding nodeAddr none

/-- A step that moves no join. -/
theorem JoinInv.aside (h : JoinInv s) (hworld : s'.world = s.world) {new : List Addr}
    (hservers : s'.servers = s.servers ++ new) (hserving : s'.serving = s.serving) : JoinInv s' := by
  refine ⟨fun c hc => ?_, hserving ▸ h.adding⟩
  obtain ⟨a, n, ha, hn, hlead⟩ := h.checked c (hserving ▸ hc)
  refine ⟨a, n, ?_, hworld ▸ hn, hlead⟩
  rw [hservers, List.getElem?_append_left (List.getElem?_eq_some_iff.1 ha).1]
  exact ha

/-- One join moves on, and the others stay where they are.  Only the new place of this one has to
be looked at. -/
theorem JoinInv.move (h : JoinInv s) (hworld : s'.world = s.world)
    (hservers : s'.servers = s.servers) {c : ℕ}
    (hothers : ∀ d, d ≠ c → s'.serving d = s.serving d)
    (hchecked : (s'.serving c).isChecked →
      ∃ a n, s.servers[c]? = some a ∧ s.world.nodes a = some n ∧ n.HasLeader)
    (hadding : ∀ nodeAddr, s'.serving c ≠ .adding nodeAddr none) : JoinInv s' := by
  refine ⟨fun d hd => ?_, fun d nodeAddr => ?_⟩
  · rw [hservers, hworld]
    by_cases hdc : d = c
    · subst hdc
      exact hchecked hd
    · exact h.checked d (hothers d hdc ▸ hd)
  · by_cases hdc : d = c
    · subst hdc
      exact hadding nodeAddr
    · exact hothers d hdc ▸ h.adding d nodeAddr

/-- **Every step that disturbs no join keeps it.**  Only a check makes a join of the first kind,
which finds `Node.leader` set or about to be; and only `onFollower` takes that away. -/
theorem JoinInv.step (h : JoinInv s) (hok : s.Undisturbed action) (hs : s.step action = some s') :
    JoinInv s' := by
  cases netStep_of_step hs with
  | @event event hworld _ hservers hserving =>
    refine ⟨fun c hc => ?_, hserving ▸ h.adding⟩
    rw [hserving] at hc
    obtain ⟨a, n, ha, hn, hlead⟩ := h.checked c hc
    obtain ⟨n', hn', hruns⟩ := World.after_of_becomes (hn ▸ World.becomes_nodes hworld a)
    refine ⟨a, n', hservers ▸ ha, hn', ?_⟩
    refine hruns.invariant (P := Node.HasLeader) hlead fun m ev m' hm hcause hstep => ?_
    refine hasLeader_of_step hm (fun i hev hpost => ?_) hstep
    subst hev
    cases hcause with
    | post hnode =>
      have hlt : c < s.conns.length := by
        have hlt := (List.getElem?_eq_some_iff.1 ha).1
        rwa [servers, List.length_map] at hlt
      by_contra hwon
      exact hok m hnode hpost hwon c hlt hc ha
  | loop _ hworld _ _ _ hservers hserving =>
    exact h.aside hworld (hservers.trans (List.append_nil _).symm) hserving
  | dial hworld _ _ _ hservers hserving => exact h.aside hworld hservers hserving
  | read hworld _ _ _ _ hservers hserving =>
    exact h.aside hworld (hservers.trans (List.append_nil _).symm) hserving
  | quiet _ hworld _ hservers hserving =>
    exact h.aside hworld (hservers.trans (List.append_nil _).symm) hserving
  | leave hworld _ hservers hclosed hothers =>
    refine h.move hworld hservers hothers (fun hc => ?_) fun nodeAddr => ?_
    · rw [hclosed] at hc
      cases hc
    · rw [hclosed]
      intro hadd
      cases hadd
  | @serve c a n hworld hserver hn _ hservers hserve hothers =>
    -- The guard speaks of the connection whose server this is.
    have hserver' := hserver
    rw [servers, List.getElem?_map] at hserver'
    obtain ⟨conn, hconn, rfl⟩ := Option.map_eq_some_iff.1 hserver'
    obtain ⟨hjoin, hread⟩ := hok conn hconn n hn
    refine h.move hworld hservers hothers (fun hc => ?_) fun nodeAddr hadd => ?_
    · generalize hold : s.serving c = serving at hserve
      generalize s'.serving c = serving' at hserve hc
      cases hserve with
      | check nodeAddr hrole => exact ⟨conn.server, n, hserver, hn, hjoin (by rw [hold]; rfl) hrole⟩
      | _ => cases hc
    · generalize hold : s.serving c = serving at hserve
      rw [hadd] at hserve
      cases hserve with
      | lookup _ hsome =>
        have hchecked : (s.serving c).isChecked := by rw [hold]; rfl
        obtain ⟨b, m, hb, hm, hlead⟩ := h.checked c hchecked
        obtain rfl := Option.some.inj (hserver.symm.trans hb)
        obtain rfl := Option.some.inj (hn.symm.trans hm)
        rw [hlead.elim id (hread hchecked)] at hsome
        cases hsome

variable {peers nodes : List Addr} {dbs : Addr → KVStore} {defaultTTL : ℤ} {maxPayloadBytes : ℕ}
  {t : Time}

/-- **`AddFollower` is called on a `Leader`.**  Whatever the nodes of a cluster do, if a join
finds the role of a leader only where `Node.leader` is set or `onLeader` is due, reads
`Node.leader` only after that call, and `onFollower` does not run in between, unless `onLeader` is
due, then what is read is not nil. -/
theorem leader_ne_nil_of_undisturbed
    (hs : Reach step Undisturbed (start peers nodes dbs defaultTTL maxPayloadBytes t) s) (c : ℕ)
    (nodeAddr : Addr) : s.serving c ≠ .adding nodeAddr none := by
  have hstart : JoinInv (start peers nodes dbs defaultTTL maxPayloadBytes t) :=
    ⟨fun _ hc => (Bool.false_ne_true hc).elim, fun _ _ => Serving.noConfusion⟩
  have hinv : JoinInv s := hs.invariant (P := JoinInv) hstart
    fun s action s' h hok hstep => h.step hok hstep
  exact hinv.adding c nodeAddr

/-- The first of three nodes is elected, and the second, which has its heartbeat, dials it. -/
def dialFirst : List Action :=
  List.map Action.event
      (World.firstElection ++ [.main [1], .main [1], .main [1], .main [1], .hear 0]) ++
    [.follow [2], .follow [2], .follow [2], .serve 0, .serve 0]

/-- The third node fails in term 1 and asks the first for its vote in term 2. -/
def standTwice : List Action :=
  List.map Action.event (List.replicate 12 (.main [3]) ++ [.send [3] 1 0, .vote [3] 1 0])

/-- The first node, deposed, wins term 3 with the vote of the second. -/
def winAgain : List Action :=
  List.map Action.event
    (List.replicate 6 (.main [1]) ++ [.send [1] 1 0, .vote [1] 1 0, .reply [1] 1 0, .count [1] 1 0,
      .main [1], .main [1]])

/-- The join of the second node has found the first leading.  The first gives its vote to the
third and wins the next term before `onFollower` runs; then that and `onLeader` do, and the join
reads the second `Leader` of the node. -/
theorem leader_ne_nil_of_undisturbed_winAgain :
    ∃ s ∈ runAll step Undisturbed
        (start [[1], [2], [3]] [[1], [2], [3]] (fun _ => Store.oneShard) 60 0 0)
        (dialFirst ++ standTwice ++ winAgain ++
          [.event (.post [1] 0), .event (.main [1]), .serve 0]),
      s.serving 0 = .adding [2] (some 1) ∧ ∀ c nodeAddr, s.serving c ≠ .adding nodeAddr none := by
  obtain ⟨s, hs, hadd⟩ :
      ∃ s ∈ runAll step Undisturbed
          (start [[1], [2], [3]] [[1], [2], [3]] (fun _ => Store.oneShard) 60 0 0)
          (dialFirst ++ standTwice ++ winAgain ++
            [.event (.post [1] 0), .event (.main [1]), .serve 0]),
        s.serving 0 = .adding [2] (some 1) := by
    decide +kernel
  exact ⟨s, hs, hadd, leader_ne_nil_of_undisturbed (reach_of_runAll hs)⟩

/-- **A deposed leader has no `Leader`.**  The join of the second node has found the first
leading; then the first gives its vote to the third and calls `onFollower`; and what the join
reads next, and calls `AddFollower` on, is nil. -/
theorem deposed_leader_is_nil :
    ∃ s ∈ runAll step (fun _ _ => True)
        (start [[1], [2], [3]] [[1], [2], [3]] (fun _ => Store.oneShard) 60 0 0)
        (dialFirst ++ standTwice ++ [.event (.post [1] 0), .serve 0]),
      s.serving 0 = .adding [2] none := by
  decide +kernel

end Network

end Cluster
end Keva
