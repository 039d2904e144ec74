/-
# All followers see one sequence

A `Leader` with its peers (`Keva.Cluster.Peers`) and any number of followers, each in the loop
of `syncWithLeader` (`cluster/follower.go`) with a store of its own.

Broadcasts may take their indices in one order and write in another, so a follower may hold
what the leader does not.  But a broadcast writes to all followers under one mutex
(`cluster/leader.go`), and a follower on which a write fails is dropped.  So there is one
sequence, that in which the broadcasts took the mutex, and what a follower has carried out is
a stretch of it, from the moment it joined, in order and without gaps
(`carried_out_stretch`).  Two followers that joined at the same point with stores that show
the same therefore show the same whenever they have carried out equally many
(`followers_agree`), whatever happens to the leader's own store.

`order`, `joined`, `base` and `done` are read by no step.  They keep the broadcasts in the order
in which they wrote, for each connection how many had written when it was added, and for each
follower what it showed when it dialed and what it has carried out since.
-/

import Keva.Cluster.Rejoin

namespace Keva
namespace Cluster

open Eviction (Range)
open Store (KVStore Call oneShard newKVStore_oneShard)
open Protocol (ReplicationSync encodeFrame)
open Expiry (Content Write AgreeFrom)

/-! ### What a follower does with a frame -/

/-- The write that `applySync` carries out. -/
def syncWrite (sync : ReplicationSync) : Option (Write Key Bytes Time) :=
  if sync.op = Wal.opSet then some (.set sync.key sync.value (Bytes.int64 sync.expiresAt.toNat))
  else if sync.op = Wal.opDelete then some (.del sync.key)
  else none

/-- **`applySync` on a store without a budget** is the write that the frame stands for; a frame
that stands for none leaves the contents. -/
theorem content_applySync {ranges : ℕ → Range} {db db' : KVStore} {sync : ReplicationSync}
    {now : Time} (h : db.Regular 0) (hdb : applySync ranges db sync now = some db') :
    db'.Regular 0 ∧ db'.content = Expiry.replay (syncWrite sync).toList db.content := by
  unfold applySync at hdb
  unfold syncWrite
  split_ifs at hdb ⊢ with hset hdel
  · obtain ⟨⟨kv, err⟩, hr, rfl⟩ := Option.map_eq_some_iff.1 hdb
    obtain ⟨-, hreg, -, hc⟩ := KVStore.applySet_eq_some (h.withWal _) hr
    exact ⟨hreg, hc⟩
  · obtain ⟨⟨kv, err⟩, hr, rfl⟩ := Option.map_eq_some_iff.1 hdb
    obtain ⟨-, hreg, -, hc⟩ := KVStore.applyDelete_eq_some (h.withWal _) hr
    exact ⟨hreg, hc⟩
  · obtain rfl := Option.some.inj hdb
    exact ⟨h, rfl⟩

/-! ### The machine -/

/-- A follower: where its loop stands, and its store.  What the store showed when it dialed and
the frames it has carried out since are ledgers, which no step reads. -/
structure Replica where
  loop : Loop
  db : KVStore
  base : Content Key Bytes Time
  done : List ReplicationSync

/-- A `Leader` with its peers, and the followers by address.  The broadcasts that have written,
in that order, and how many of them there were when a connection was added are ledgers that no
step reads. -/
structure Fleet where
  peers : Peers
  leaderAddr : Addr
  replicas : Addr → Replica
  clock : Time
  order : List (Call × UInt64)
  joined : ℕ → ℕ

/-- The follower after a step of its own that leads to `link`. -/
def Replica.after (r : Replica) (link : Link) : Link.Action → Replica
  | .dial => ⟨link.loop, link.db, r.db.content, []⟩
  | .apply _ => ⟨link.loop, link.db, r.base, r.done ++ r.loop.sync.toList⟩
  | _ => { r with loop := link.loop, db := link.db }

namespace Fleet

/-- One step: at the leader, of the clock, or of one follower, on the connection that it has
dialed. -/
inductive Action
  | peers (action : Peers.Action)
  | tick (t : Time)
  | replica (nodeAddr : Addr) (action : Link.Action)

/-- The leader's peers and one of the followers. -/
def link (s : Fleet) (nodeAddr : Addr) : Link :=
  ⟨s.peers, nodeAddr, s.leaderAddr, (s.replicas nodeAddr).loop, (s.replicas nodeAddr).db, s.clock,
    [], []⟩

/-- The broadcast that writes in a step. -/
def wrote (s : Fleet) : Peers.Action → Option (Call × UInt64)
  | .broadcast j _ _ => do
    let (call, index) ← s.peers.calls[j]?
    return (call, ← index)
  | _ => none

/-- A connection is added behind the broadcasts that have written. -/
def joins (s : Fleet) : Peers.Action → ℕ → ℕ
  | .addFollower _ c => Function.update s.joined c s.order.length
  | _ => s.joined

/-- The steps of the `Leader` are those of `Peers`, and each follower takes those of `Link` on the
connection it has dialed.  A broadcast that writes is recorded in `order`, and a join in
`joined`. -/
def step (s : Fleet) : Action → Option Fleet
  | .peers action => do
    let peers ← s.peers.step action
    return { s with peers := peers, order := s.order ++ (s.wrote action).toList,
                    joined := s.joins action }
  | .tick t => if s.clock ≤ t then some { s with clock := t } else none
  | .replica nodeAddr action =>
    match action with
    | .peers _ | .tick _ => none
    | action => do
      let link ← (s.link nodeAddr).step action
      return { s with
        peers := link.peers
        replicas := Function.update s.replicas nodeAddr ((s.replicas nodeAddr).after link action) }

/-- A new `Leader`, and followers that have not dialed yet. -/
def start (leaderAddr : Addr) (stores : Addr → KVStore) (t : Time) : Fleet :=
  ⟨.start, leaderAddr, fun a => ⟨.top, stores a, (stores a).content, []⟩, t, [], fun _ => 0⟩

/-- Broadcasts fit the frames that are sent for them. -/
def Fitting (_ : Fleet) : Action → Prop
  | .peers (.call call) => (syncOf call 0).Fits
  | _ => True

instance (s : Fleet) (a : Action) : Decidable (s.Fitting a) := by
  unfold Fitting
  split <;> infer_instance

end Fleet

/-! ### What a step leaves of a connection -/

namespace Peers

variable {s s' : Peers} {a : Action} {c : ℕ}

/-- Nobody but `AddFollower` makes a connection that of a follower. -/
theorem kept_step (ha : ∀ addr, a ≠ .addFollower addr c) (hwired : s.Wired)
    (hs : s.step a = some s') :
    (s'.drains c = .accepted → s.drains c = .accepted) ∧
      ∀ x, s'.leader.followers.lookup x = some c → s.leader.followers.lookup x = some c := by
  by_cases hc : s.drains c = .accepted
  · refine ⟨fun _ => hc, fun x hx => ?_⟩
    have hwired' := hwired.step hs
    cases peersStep_of_step hs with
    | @addFollower d conn nodeAddr hconn hdrain =>
      change (s.leader.followers.insert nodeAddr d).lookup x = some c at hx
      by_cases hxa : x = nodeAddr
      · rw [hxa, Finmap.lookup_insert] at hx
        exact absurd (congrArg (Action.addFollower nodeAddr) (Option.some.inj hx)) (ha nodeAddr)
      · rwa [Finmap.lookup_insert_of_ne _ hxa] at hx
    | @removeFollower d nodeAddr hdrain =>
      have hlookup := (Leader.removeFollower_spec s.leader s.conns nodeAddr).1 x
      rw [hx] at hlookup
      split_ifs at hlookup
      exact hlookup.symm
    | broadcast range cuts hj hframe =>
      change (s.leader.broadcast _ _ _ _).1.followers.lookup x = some c at hx
      rw [(Leader.broadcast_spec hwired.sound _ _ _).followers, Option.filter_eq_some_iff] at hx
      exact hx.1
    | _ => exact hx
  · obtain ⟨hadded, hlookup⟩ := added_step hc hwired hs
    exact ⟨fun hacc => absurd hacc hadded, hlookup⟩

/-- A connection that is the follower's is there. -/
theorem Wired.down_ne_none (hwired : s.Wired) {x : Addr}
    (hx : s.leader.followers.lookup x = some c) : s.down c ≠ none := by
  obtain ⟨conn, hconn, -⟩ := closed_eq_some_iff.1 (hwired.isOpen hx)
  rw [down, hconn]
  exact Option.some_ne_none _

end Peers

/-! ### What every step keeps -/

namespace Fleet

/-- The frames of a stretch of broadcasts. -/
def syncs (calls : List (Call × UInt64)) : List ReplicationSync :=
  calls.map fun x => syncOf x.1 x.2

/-- A follower has carried out `taken`, but for the frame in its hands. -/
def Follows (r : Replica) (taken : List (Call × UInt64)) : Prop :=
  r.done ++ r.loop.sync.toList = syncs taken

/-- Of the broadcasts since connection `c` was added, `taken` have been taken off it, those of
`flying` are on it, followed by the beginning of one that was cut, and `later` were not written
to it. -/
structure Carries (s : Fleet) (c : ℕ) (taken flying later : List (Call × UInt64)) (tail : Bytes) :
    Prop where
  drop_eq : s.order.drop (s.joined c) = taken ++ flying ++ later
  down : s.peers.down c = some (frames flying ++ tail)
  cut : ∃ sync : ReplicationSync, sync.Fits ∧
    ∃ k < (encodeFrame (.replicationSync sync)).length,
      tail = (encodeFrame (.replicationSync sync)).take k
  registered : ∀ x, s.peers.leader.followers.lookup x = some c → tail = [] ∧ later = []
  fresh : s.peers.drains c = .accepted → taken = [] ∧ flying = [] ∧ tail = []
  follows : ∀ a, (s.replicas a).loop.conn = some c → Follows (s.replicas a) taken

/-- Every connection carries its stretch of the broadcasts, and is that of one follower.  What is
sent fits its frame, so that it can be read at the other end. -/
structure Inv (s : Fleet) : Prop where
  wired : s.peers.Wired
  waits : ∀ x ∈ s.peers.calls, (syncOf x.1 0).Fits
  wrote : ∀ x ∈ s.order, (syncOf x.1 0).Fits
  joined_le : ∀ c, s.joined c ≤ s.order.length
  dialed : ∀ a c, (s.replicas a).loop.conn = some c → s.peers.down c ≠ none
  apart : ∀ a b c, (s.replicas a).loop.conn = some c → (s.replicas b).loop.conn = some c → a = b
  carries : ∀ c, s.peers.down c ≠ none →
    ∃ taken flying later tail, Carries s c taken flying later tail

variable {s s' : Fleet} {c : ℕ} {taken flying later : List (Call × UInt64)} {tail : Bytes}

/-- What is on a connection can be read from it. -/
theorem Carries.fits (h : Carries s c taken flying later tail) (hinv : Inv s) :
    ∀ x ∈ flying, (syncOf x.1 0).Fits := by
  intro x hx
  refine hinv.wrote x (List.mem_of_mem_drop (i := s.joined c) ?_)
  rw [h.drop_eq]
  exact List.mem_append_left _ (List.mem_append_right _ hx)

/-- A connection on which nothing has been sent. -/
theorem carries_fresh (hdown : s.peers.down c = some [])
    (hregistered : ∀ x, s.peers.leader.followers.lookup x ≠ some c)
    (hnobody : ∀ a, (s.replicas a).loop.conn = some c → Follows (s.replicas a) []) :
    Carries s c [] [] (s.order.drop (s.joined c)) [] :=
  ⟨rfl, hdown, Link.cut_nil, fun x hx => absurd hx (hregistered x), fun _ => ⟨rfl, rfl, rfl⟩,
    hnobody⟩

/-! ### Steps at the leader -/

/-- The state after a step at the leader. -/
def afterPeers (s : Fleet) (action : Peers.Action) (p : Peers) : Fleet :=
  { s with peers := p, order := s.order ++ (s.wrote action).toList, joined := s.joins action }

variable {action : Peers.Action} {p : Peers}

/-- **A step that does not concern this connection** leaves what is on it; it may be closed, but
closing takes nothing off. -/
theorem Carries.quiet (h : Carries s c taken flying later tail) (hwired : s.peers.Wired)
    (hadd : ∀ addr, action ≠ .addFollower addr c)
    (hbroadcast : ∀ j range cuts, action ≠ .broadcast j range cuts)
    (hs : s.peers.step action = some p) :
    Carries (s.afterPeers action p) c taken flying later tail := by
  obtain ⟨haccepted, hlookup⟩ := Peers.kept_step hadd hwired hs
  have hwrote : s.wrote action = none := by
    unfold wrote
    split
    · exact absurd rfl (hbroadcast _ _ _)
    · rfl
  have hjoined : s.joins action c = s.joined c := by
    unfold joins
    split
    · rename_i addr d
      refine Function.update_of_ne (fun hcd => hadd addr ?_) _ _
      rw [hcd]
    · rfl
  refine ⟨?_, Peers.down_step h.down hbroadcast hs, h.cut, fun x hx => h.registered x (hlookup x hx),
    fun hacc => h.fresh (haccepted hacc), h.follows⟩
  show (s.order ++ (s.wrote action).toList).drop (s.joins action c) = _
  rw [hwrote, hjoined, Option.toList_none, List.append_nil, h.drop_eq]

/-- **A connection is added:** its stretch begins here.  Nothing was on it before. -/
theorem Carries.addFollower (h : Carries s c taken flying later tail) {nodeAddr : Addr}
    (hs : s.peers.step (.addFollower nodeAddr c) = some p) :
    Carries (s.afterPeers (.addFollower nodeAddr c) p) c [] [] [] [] := by
  have hdrain : s.peers.drains c = .accepted := by
    cases Peers.peersStep_of_step hs with
    | addFollower _ _ hdrain => exact hdrain
  obtain ⟨rfl, rfl, rfl⟩ := h.fresh hdrain
  refine ⟨?_, Peers.down_step h.down (Peers.ne_broadcast rfl) hs, Link.cut_nil,
    fun _ _ => ⟨rfl, rfl⟩, fun _ => ⟨rfl, rfl, rfl⟩, h.follows⟩
  show (s.order ++ []).drop (Function.update s.joined c s.order.length c) = []
  rw [Function.update_self, List.append_nil, List.drop_length]

/-- **A broadcast writes,** to this connection or not, and to the end or not.  If the connection
is registered it gets the next frame; if not, the frame is one of those that it will not get. -/
theorem Carries.broadcast (h : Carries s c taken flying later tail) (hinv : Inv s) {j : ℕ}
    {range : RangeOrder Addr ℕ} {cuts : ℕ → Option ℕ}
    (hs : s.peers.step (.broadcast j range cuts) = some p) :
    ∃ flying' later' tail',
      Carries (s.afterPeers (.broadcast j range cuts) p) c taken flying' later' tail' := by
  obtain ⟨haccepted, hlookup⟩ := Peers.kept_step (c := c) (fun _ heq => by cases heq) hinv.wired hs
  cases Peers.peersStep_of_step hs with
  | @broadcast _ call index frame _ _ hj hframe =>
    have hwrote : s.wrote (.broadcast j range cuts) = some (call, index) := by
      simp only [wrote, hj]
      rfl
    have hspec := Leader.broadcast_spec hinv.wired.sound range frame cuts
    have hfits : (syncOf call index).Fits :=
      Link.fits_syncOf_index (hinv.waits _ (List.mem_of_getElem? hj)) index
    have hdrop : (s.order ++ (s.wrote (.broadcast j range cuts)).toList).drop (s.joined c) =
        taken ++ flying ++ later ++ [(call, index)] := by
      rw [hwrote, List.drop_append_of_le_length (hinv.joined_le c), h.drop_eq]
      rfl
    by_cases hreg : ∃ x, s.peers.leader.followers.lookup x = some c
    · obtain ⟨x, hx⟩ := hreg
      obtain ⟨rfl, rfl⟩ := h.registered x hx
      have hadded : s.peers.drains c ≠ .accepted := fun hacc => hinv.wired.lookup_ne hacc x hx
      have hdown := Peers.down_broadcast hinv.wired h.down hx range frame cuts
      by_cases hk : ∃ k, cuts c = some k ∧ k < frame.length
      · -- The frame is cut, and the follower is dropped.
        obtain ⟨k, hcut, hk⟩ := hk
        refine ⟨flying, [(call, index)], frame.take k, ?_, ?_, ?_, fun y hy => ?_,
          fun hacc => absurd hacc hadded, h.follows⟩
        · exact hdrop.trans (by rw [List.append_nil])
        · refine hdown.trans ?_
          rw [hcut, List.append_nil]
          rfl
        · exact ⟨syncOf call index, hfits, k, hframe ▸ hk, hframe ▸ rfl⟩
        · change (s.peers.leader.broadcast _ _ _ _).1.followers.lookup y = some c at hy
          rw [hspec.followers, Option.filter_eq_some_iff, hcut] at hy
          exact absurd hy.2 Bool.false_ne_true
      · have hwhole : (cuts c).elim frame frame.take = frame := by
          cases hcut : cuts c with
          | none => rfl
          | some k =>
            have hle : frame.length ≤ k := not_lt.1 fun hlt => hk ⟨k, hcut, hlt⟩
            exact List.take_of_length_le hle
        refine ⟨flying ++ [(call, index)], [], [], ?_, ?_, Link.cut_nil, fun _ _ => ⟨rfl, rfl⟩,
          fun hacc => absurd hacc hadded, h.follows⟩
        · exact hdrop.trans (by simp)
        · refine hdown.trans ?_
          rw [hwhole, hframe, frames_append, List.append_nil, List.append_nil]
          simp [frames]
    · have hnone : ∀ x, s.peers.leader.followers.lookup x ≠ some c := fun x hx => hreg ⟨x, hx⟩
      refine ⟨flying, later ++ [(call, index)], tail, ?_, ?_, h.cut,
        fun x hx => absurd (hlookup x hx) (hnone x), fun hacc => h.fresh (haccepted hacc), h.follows⟩
      · exact hdrop.trans (by rw [List.append_assoc])
      · exact (Peers.down_broadcast_other hinv.wired hnone range frame cuts).trans h.down

/-- What is called and what has written fits its frame.  This is asked of a call when it is made,
and the index that it takes later has its own field. -/
theorem Inv.fits_peers (h : Inv s) (hfit : s.Fitting (.peers action))
    (hs : s.peers.step action = some p) :
    (∀ x ∈ p.calls, (syncOf x.1 0).Fits) ∧
      ∀ x ∈ s.order ++ (s.wrote action).toList, (syncOf x.1 0).Fits := by
  constructor
  · by_cases ha : action.broadcasts = false
    · rw [(Peers.calls_step ha hs).1]
      exact h.waits
    · cases Peers.peersStep_of_step hs with
      | call call => exact List.forall_mem_append.2 ⟨h.waits, List.forall_mem_singleton.2 hfit⟩
      | index hj =>
        intro x hx
        rcases List.mem_or_eq_of_mem_set hx with hx | rfl
        · exact h.waits x hx
        · exact h.waits (_, none) (List.mem_of_getElem? hj)
      | broadcast range cuts hj hframe =>
        exact fun x hx => h.waits x (List.mem_of_mem_eraseIdx hx)
      | _ => exact absurd rfl ha
  · refine List.forall_mem_append.2 ⟨h.wrote, fun x hx => ?_⟩
    unfold Fleet.wrote at hx
    split at hx
    · obtain ⟨⟨call, index⟩, hj, hx⟩ := Option.bind_eq_some_iff.1 (Option.mem_toList.1 hx)
      obtain ⟨index, rfl, hx⟩ := Option.bind_eq_some_iff.1 hx
      obtain rfl := Option.some.inj hx
      exact h.waits (call, some index) (List.mem_of_getElem? hj)
    · cases hx

/-- A connection that is there stays, and a new one is empty and nobody's: the numbers of
connections are never used again. -/
theorem Inv.down_peers (h : Inv s) (hs : s.peers.step action = some p) (c : ℕ) :
    (s.peers.down c ≠ none → p.down c ≠ none) ∧
      (s.peers.down c = none → p.down c = none ∨ p.down c = some []) := by
  by_cases hb : ∀ j range cuts, action ≠ .broadcast j range cuts
  · refine ⟨fun hc => ?_, fun hc => Peers.down_of_none hc hb hs⟩
    obtain ⟨bytes, hbytes⟩ := Option.ne_none_iff_exists'.1 hc
    rw [Peers.down_step hbytes hb hs]
    exact Option.some_ne_none _
  · have hbroadcast : ∃ j range cuts, action = .broadcast j range cuts := by
      by_contra hne
      exact hb fun j range cuts heq => hne ⟨j, range, cuts, heq⟩
    obtain ⟨j, range, cuts, rfl⟩ := hbroadcast
    constructor
    · intro hc
      obtain ⟨taken, flying, later, tail, hcarries⟩ := h.carries c hc
      obtain ⟨flying', later', tail', hafter⟩ := hcarries.broadcast h hs
      rw [show p.down c = _ from hafter.down]
      exact Option.some_ne_none _
    · intro hc
      have hnone : ∀ x, s.peers.leader.followers.lookup x ≠ some c :=
        fun x hx => h.wired.down_ne_none hx hc
      cases Peers.peersStep_of_step hs with
      | broadcast _ _ _ _ =>
        exact Or.inl ((Peers.down_broadcast_other h.wired hnone range _ cuts).trans hc)

/-- **A step at the leader.**  A broadcast writes one frame to every registered connection or a
part of it, and removes the latter; a connection that is no longer registered gets nothing more. -/
theorem Inv.peers (h : Inv s) (hfit : s.Fitting (.peers action))
    (hs : s.peers.step action = some p) : Inv (s.afterPeers action p) := by
  obtain ⟨hwaits, hwrote⟩ := h.fits_peers hfit hs
  refine ⟨h.wired.step hs, hwaits, hwrote, fun c => ?_, fun a c hc => ?_, h.apart, fun c hc => ?_⟩
  · show s.joins action c ≤ (s.order ++ _).length
    have hle : s.joins action c ≤ s.order.length := by
      unfold joins
      split
      · rename_i addr d
        by_cases hcd : c = d
        · rw [hcd, Function.update_self]
        · rw [Function.update_of_ne hcd]
          exact h.joined_le c
      · exact h.joined_le c
    rw [List.length_append]
    omega
  · exact (h.down_peers hs c).1 (h.dialed a c hc)
  · by_cases hold : s.peers.down c = none
    · -- A connection that is new.
      have hempty := ((h.down_peers hs c).2 hold).resolve_left hc
      have hadd : ∀ addr, action ≠ .addFollower addr c := by
        rintro addr rfl
        cases Peers.peersStep_of_step hs with
        | addFollower _ hconn _ =>
          rw [Peers.down, hconn] at hold
          cases hold
      refine ⟨[], [], _, [], carries_fresh hempty (fun x hx => ?_) fun a ha => ?_⟩
      · exact h.wired.down_ne_none ((Peers.kept_step hadd h.wired hs).2 x hx) hold
      · exact absurd hold (h.dialed a c ha)
    · obtain ⟨taken, flying, later, tail, hcarries⟩ := h.carries c hold
      cases action with
      | addFollower addr d =>
        by_cases hcd : d = c
        · subst hcd
          exact ⟨[], [], [], [], hcarries.addFollower hs⟩
        · refine ⟨taken, flying, later, tail, hcarries.quiet h.wired (fun addr' heq => ?_)
            (Peers.ne_broadcast rfl) hs⟩
          exact hcd (Peers.Action.addFollower.inj heq).2
      | broadcast j range cuts => exact ⟨taken, hcarries.broadcast h hs⟩
      | _ =>
        exact ⟨taken, flying, later, tail, hcarries.quiet h.wired (by rintro _ ⟨⟩)
          (by rintro _ _ _ ⟨⟩) hs⟩

/-! ### Steps of a follower -/

/-- The state after a step of the follower at `a`. -/
def afterReplica (s : Fleet) (a : Addr) (p : Peers) (r : Replica) : Fleet :=
  { s with peers := p, replicas := Function.update s.replicas a r }

variable {a : Addr} {r : Replica}

/-- A follower after a step of one of them. -/
theorem replica_afterReplica {P : Replica → Prop} (b : Addr) (hr : b = a → P r)
    (hother : b ≠ a → P (s.replicas b)) : P ((s.afterReplica a p r).replicas b) := by
  show P (Function.update s.replicas a r b)
  by_cases hb : b = a
  · rw [hb, Function.update_self]
    exact hr hb
  · rw [Function.update_of_ne hb]
    exact hother hb

/-- **A step that takes nothing off a connection:** the follower stays on its connection or
leaves it. -/
theorem Inv.moves (h : Inv s) (hwired : p.Wired) (hcalls : p.calls = s.peers.calls)
    (hdown : ∀ c, p.down c = s.peers.down c) (hdrains : p.drains = s.peers.drains)
    (hfollowers : p.leader.followers = s.peers.leader.followers)
    (hloop : ∀ c, r.loop.conn = some c → (s.replicas a).loop.conn = some c ∧
      ∀ taken, Follows (s.replicas a) taken → Follows r taken) :
    Inv (s.afterReplica a p r) := by
  have hconn : ∀ b c, ((s.afterReplica a p r).replicas b).loop.conn = some c →
      (s.replicas b).loop.conn = some c := fun b c =>
    replica_afterReplica (P := fun x => x.loop.conn = some c → (s.replicas b).loop.conn = some c) b
      (fun hb hc => hb ▸ (hloop c hc).1) fun _ hc => hc
  refine ⟨hwired, hcalls ▸ h.waits, h.wrote, h.joined_le, fun b c hc => ?_, fun b b' c hc hc' => ?_,
    fun c hc => ?_⟩
  · exact (hdown c).symm ▸ h.dialed b c (hconn b c hc)
  · exact h.apart b b' c (hconn b c hc) (hconn b' c hc')
  · obtain ⟨taken, flying, later, tail, hcarries⟩ := h.carries c (hdown c ▸ hc)
    refine ⟨taken, flying, later, tail, hcarries.drop_eq, (hdown c).trans hcarries.down,
      hcarries.cut, ?_, ?_, fun b => ?_⟩
    · rw [show (s.afterReplica a p r).peers.leader.followers = _ from hfollowers]
      exact hcarries.registered
    · rw [show (s.afterReplica a p r).peers.drains = _ from hdrains]
      exact hcarries.fresh
    · refine replica_afterReplica (P := fun x => x.loop.conn = some c → Follows x taken) b ?_ ?_
      · rintro rfl hc
        exact (hloop c hc).2 taken (hcarries.follows b (hloop c hc).1)
      · exact fun _ => hcarries.follows b

/-- **A follower dials:** its connection is a new one, and it starts again.  What its store shows
at this moment is what its new stretch of broadcasts is applied to. -/
theorem Inv.dial (h : Inv s) (hp : s.peers.step (.dial a s.leaderAddr) = some p) :
    Inv (s.afterReplica a p ⟨.reading s.peers.conns.length, (s.replicas a).db,
      (s.replicas a).db.content, []⟩) := by
  have hsame : s.afterPeers (.dial a s.leaderAddr) p = { s with peers := p } := by
    simp [afterPeers, Fleet.wrote, joins]
  have h₁ : Inv { s with peers := p } := hsame ▸ h.peers trivial hp
  have hnew : s.peers.down s.peers.conns.length = none := by
    rw [Peers.down, List.getElem?_eq_none le_rfl, Option.map_none]
  have hempty : p.down s.peers.conns.length = some [] := by
    cases Peers.peersStep_of_step hp with
    | dial =>
      show ((s.peers.conns ++ [_])[s.peers.conns.length]?).map Conn.down = some []
      rw [List.getElem?_concat_length]
      rfl
  have hnobody : ∀ b, (s.replicas b).loop.conn ≠ some s.peers.conns.length :=
    fun b hb => h.dialed b _ hb hnew
  set r : Replica := ⟨.reading s.peers.conns.length, (s.replicas a).db,
    (s.replicas a).db.content, []⟩ with hr
  -- Where a follower is now, it was before, unless it is the one that has dialed.
  have hconn : ∀ b c, ((s.afterReplica a p r).replicas b).loop.conn = some c →
      b = a ∧ c = s.peers.conns.length ∨ (s.replicas b).loop.conn = some c := fun b c =>
    replica_afterReplica (P := fun x => x.loop.conn = some c → _) b
      (fun hb hc => Or.inl ⟨hb, (Option.some.inj hc).symm⟩) fun _ hc => Or.inr hc
  refine ⟨h₁.wired, h₁.waits, h₁.wrote, h₁.joined_le, fun b c hc => ?_, fun b b' c hc hc' => ?_,
    fun c hc => ?_⟩
  · show p.down c ≠ none
    rcases hconn b c hc with ⟨-, rfl⟩ | hc
    · rw [hempty]
      exact Option.some_ne_none _
    · exact h₁.dialed b c hc
  · rcases hconn b c hc with ⟨rfl, hlast⟩ | hold <;> rcases hconn b' c hc' with ⟨rfl, hlast'⟩ | hold'
    · rfl
    · exact absurd (hlast ▸ hold') (hnobody b')
    · exact absurd (hlast' ▸ hold) (hnobody b)
    · exact h.apart b b' c hold hold'
  · by_cases hlast : c = s.peers.conns.length
    · subst hlast
      refine ⟨[], [], _, [], carries_fresh hempty (fun x hx => ?_) fun b => ?_⟩
      · exact h.wired.down_ne_none
          ((Peers.kept_step (fun _ heq => by cases heq) h.wired hp).2 x hx) hnew
      · exact replica_afterReplica (P := fun x => x.loop.conn = _ → Follows x []) b
          (fun _ _ => rfl) fun _ hb => absurd hb (hnobody b)
    · obtain ⟨taken, flying, later, tail, hcarries⟩ := h₁.carries c hc
      refine ⟨taken, flying, later, tail, { hcarries with follows := fun b => ?_ }⟩
      refine replica_afterReplica (P := fun x => x.loop.conn = some c → Follows x taken) b
        (fun _ hb => absurd (Option.some.inj hb).symm hlast) fun _ => hcarries.follows b

/-- What can be read on a connection is the next frame, if there is one to the end. -/
theorem Carries.read (h : Carries s c taken flying later tail) (hinv : Inv s) {conn : Conn}
    (hconn : s.peers.conns[c]? = some conn) {next : Option ReplicationSync} {rest : Bytes}
    (hread : readSync conn.down = some (next, rest)) :
    ∃ x flying', flying = x :: flying' ∧ next = some (syncOf x.1 x.2) ∧
      rest = frames flying' ++ tail := by
  have hdown := h.down
  rw [Peers.down, hconn] at hdown
  rw [show conn.down = frames flying ++ tail from Option.some.inj hdown] at hread
  obtain ⟨sync, hfits, k, hk, rfl⟩ := h.cut
  exact readSync_frames (fun x hx => Link.fits_syncOf_index (h.fits hinv x hx) x.2)
    (readSync_take hfits hk) hread

/-- **A follower takes the next frame off its connection:** it goes from those on their way to
those that have been taken. -/
theorem Inv.take (h : Inv s) {conn : Conn} {x : Call × UInt64} {rest : List (Call × UInt64)}
    (hconn : s.peers.conns[c]? = some conn) (hloop : (s.replicas a).loop = .reading c)
    (hcarries : Carries s c taken (x :: rest) later tail) :
    Inv (s.afterReplica a (s.peers.setConn c { conn with down := frames rest ++ tail })
      { s.replicas a with loop := .apply c (syncOf x.1 x.2) }) := by
  have honly : (s.replicas a).loop.conn = some c := by rw [hloop]; rfl
  have hlt : c < s.peers.conns.length := (List.getElem?_eq_some_iff.1 hconn).1
  have hdownc : (s.peers.setConn c { conn with down := frames rest ++ tail }).down c =
      some (frames rest ++ tail) := by
    show ((s.peers.conns.set c _)[c]?).map Conn.down = _
    rw [List.getElem?_set_self hlt]
    rfl
  have hdown : ∀ d, d ≠ c →
      (s.peers.setConn c { conn with down := frames rest ++ tail }).down d = s.peers.down d := by
    intro d hd
    show ((s.peers.conns.set c _)[d]?).map Conn.down = _
    rw [List.getElem?_set_ne (Ne.symm hd)]
    rfl
  set p := s.peers.setConn c { conn with down := frames rest ++ tail } with hp
  set r : Replica := { s.replicas a with loop := .apply c (syncOf x.1 x.2) } with hr
  have hwas : ∀ b d, ((s.afterReplica a p r).replicas b).loop.conn = some d →
      (s.replicas b).loop.conn = some d := fun b d =>
    replica_afterReplica (P := fun y => y.loop.conn = some d → (s.replicas b).loop.conn = some d) b
      (fun hb hd => by rw [hb, honly, ← hd]; rfl) fun _ hd => hd
  refine ⟨h.wired.congr rfl (Peers.closed_setConn hconn rfl) rfl rfl rfl, h.waits, h.wrote,
    h.joined_le, fun b d hd => ?_, fun b b' d hd hd' => h.apart b b' d (hwas b d hd) (hwas b' d hd'),
    fun d hd => ?_⟩
  · by_cases hdc : d = c
    · rw [hdc, show (s.afterReplica a p r).peers.down c = _ from hdownc]
      exact Option.some_ne_none _
    · rw [show (s.afterReplica a p r).peers.down d = _ from hdown d hdc]
      exact h.dialed b d (hwas b d hd)
  · by_cases hdc : d = c
    · subst hdc
      refine ⟨taken ++ [x], rest, later, tail, ?_, hdownc, hcarries.cut, hcarries.registered,
        fun hacc => absurd (hcarries.fresh hacc).2.1 (List.cons_ne_nil _ _), fun b => ?_⟩
      · exact hcarries.drop_eq.trans (by simp)
      · refine replica_afterReplica (P := fun y => y.loop.conn = some d → Follows y (taken ++ [x])) b
          (fun _ _ => ?_) fun hb hd => absurd (h.apart b a d hd honly) hb
        have hfollows := hcarries.follows a honly
        unfold Follows at hfollows ⊢
        rw [hloop] at hfollows
        rw [hr, syncs, List.map_append, ← syncs, ← hfollows]
        simp [Loop.sync]
    · rw [show (s.afterReplica a p r).peers.down d = _ from hdown d hdc] at hd
      obtain ⟨taken', flying', later', tail', hother⟩ := h.carries d hd
      refine ⟨taken', flying', later', tail', hother.drop_eq, (hdown d hdc).trans hother.down,
        hother.cut, hother.registered, hother.fresh, fun b => ?_⟩
      exact replica_afterReplica (P := fun y => y.loop.conn = some d → Follows y taken') b
        (fun _ hd => absurd (Option.some.inj hd).symm hdc) fun _ => hother.follows b

/-- **Every step of a follower,** be it on its connection, at its store or before it has dialed. -/
theorem Inv.replica (h : Inv s) {action : Link.Action} {l : Link}
    (hpeers : ∀ x, action ≠ .peers x) (htick : ∀ t, action ≠ .tick t)
    (hs : (s.link a).step action = some l) :
    Inv (s.afterReplica a l.peers ((s.replicas a).after l action)) := by
  cases Link.linkStep_of_step hs with
  | peers => exact absurd rfl (hpeers _)
  | tick => exact absurd rfl (htick _)
  | dial _ hp => exact h.dial hp
  | @read c conn sync rest hloop hconn hread =>
    obtain ⟨taken, flying, later, tail, hcarries⟩ := h.carries c (h.dialed a c (by
      rw [show (s.replicas a).loop = _ from hloop]; rfl))
    obtain ⟨x, flying', rfl, hsync, rfl⟩ := hcarries.read h hconn hread
    obtain rfl := Option.some.inj hsync
    exact h.take hconn hloop hcarries
  | @skip c conn rest hloop hconn hread =>
    -- There is nothing else on the connection.
    obtain ⟨taken, flying, later, tail, hcarries⟩ := h.carries c (h.dialed a c (by
      rw [show (s.replicas a).loop = _ from hloop]; rfl))
    obtain ⟨x, flying', -, hnone, -⟩ := hcarries.read h hconn hread
    cases hnone
  | @ack c conn index bytes hloop hconn =>
    have hloop' : (s.replicas a).loop = .ack c index := hloop
    refine h.moves (h.wired.congr rfl (Peers.closed_setConn hconn rfl) rfl rfl rfl) rfl
      (fun d => ?_) rfl rfl fun d hd => ⟨?_, fun taken hf => ?_⟩
    · have hmap := map_set_eq (f := Conn.down) (y := { conn with up := conn.up ++ bytes }) hconn rfl
      have hget := congrArg (·[d]?) hmap
      simp only [List.getElem?_map] at hget
      exact hget
    · rw [hloop', ← hd]
      rfl
    · unfold Follows at hf ⊢
      rw [hloop'] at hf
      exact hf
  | @apply c sync ranges db hloop hdb =>
    have hloop' : (s.replicas a).loop = .apply c sync := hloop
    refine h.moves h.wired rfl (fun _ => rfl) rfl rfl fun d hd => ⟨?_, fun taken hf => ?_⟩
    · rw [hloop', ← hd]
      rfl
    · unfold Follows at hf ⊢
      exact (List.append_nil _).trans hf
  | hangUp => exact h.moves h.wired rfl (fun _ => rfl) rfl rfl nofun
  | sweep range hshard hnow =>
    exact h.moves h.wired rfl (fun _ => rfl) rfl rfl fun d hd => ⟨hd, fun taken hf => hf⟩

/-- **Every step of the fleet keeps the invariant,** where what is broadcast fits its frame. -/
theorem Inv.step (h : Inv s) {action : Action} (hfit : s.Fitting action)
    (hs : s.step action = some s') : Inv s' := by
  cases action with
  | peers action =>
    obtain ⟨p, hp, hs⟩ := Option.bind_eq_some_iff.1 hs
    exact Option.some.inj hs ▸ h.peers hfit hp
  | tick t =>
    simp only [Fleet.step] at hs
    split_ifs at hs with ht
    obtain rfl := Option.some.inj hs
    exact ⟨h.wired, h.waits, h.wrote, h.joined_le, h.dialed, h.apart,
      fun c hc => by
        obtain ⟨taken, flying, later, tail, hcarries⟩ := h.carries c hc
        exact ⟨taken, flying, later, tail, { hcarries with }⟩⟩
  | replica a action =>
    simp only [Fleet.step] at hs
    split at hs
    · cases hs
    · cases hs
    · rename_i hpeers htick
      obtain ⟨l, hl, hs⟩ := Option.bind_eq_some_iff.1 hs
      exact Option.some.inj hs ▸ h.replica hpeers htick hl

/-- Nobody has joined, and nothing has been written. -/
theorem inv_start (leaderAddr : Addr) (stores : Addr → KVStore) (t : Time) :
    Inv (start leaderAddr stores t) := by
  refine ⟨Peers.wired_start, ?_, ?_, fun _ => le_rfl, nofun, nofun, fun _ hc => absurd rfl hc⟩
  · exact fun _ hx => absurd hx List.not_mem_nil
  · exact fun _ hx => absurd hx List.not_mem_nil

/-- The invariant holds in every state of the fleet. -/
theorem inv_of_reach {leaderAddr : Addr} {stores : Addr → KVStore} {t : Time}
    (hs : Reach step Fitting (start leaderAddr stores t) s) : Inv s :=
  hs.invariant (inv_start leaderAddr stores t) fun _ _ _ h hfit hstep => h.step hfit hstep

/-! ### One sequence -/

/-- What a follower on connection `c` has carried out. -/
theorem Inv.isPrefix_done (h : Inv s) (hc : (s.replicas a).loop.conn = some c) :
    (s.replicas a).done <+: syncs (s.order.drop (s.joined c)) := by
  obtain ⟨taken, flying, later, tail, hcarries⟩ := h.carries c (h.dialed a c hc)
  have hdone := List.prefix_append (s.replicas a).done (s.replicas a).loop.sync.toList
  rw [show _ ++ _ = syncs taken from hcarries.follows a hc] at hdone
  refine hdone.trans ?_
  rw [hcarries.drop_eq, List.append_assoc]
  exact (List.prefix_append taken _).map _

/-- **What a follower has carried out is a stretch of one sequence.**  Any number of followers
dial, join, leave and dial again, and any number of broadcasts take their indices and write, in
any order; writes may fail.  The frames that a follower has carried out since it dialed are, in
order and without a gap, those of the broadcasts that wrote since its connection was added; and
all of them if it is registered and waits for a frame with none on its way. -/
theorem carried_out_stretch {leaderAddr : Addr} {stores : Addr → KVStore} {t : Time}
    (hs : Reach step Fitting (start leaderAddr stores t) s) {a : Addr} {c : ℕ}
    (hc : (s.replicas a).loop.conn = some c) :
    (s.replicas a).done <+: syncs (s.order.drop (s.joined c)) ∧
      ∀ x, s.peers.leader.followers.lookup x = some c → (s.replicas a).loop = .reading c →
        s.peers.down c = some [] → (s.replicas a).done = syncs (s.order.drop (s.joined c)) := by
  have h := inv_of_reach hs
  refine ⟨h.isPrefix_done hc, fun x hx hloop hdown => ?_⟩
  obtain ⟨taken, flying, later, tail, hcarries⟩ := h.carries c (h.dialed a c hc)
  obtain ⟨rfl, rfl⟩ := hcarries.registered x hx
  have hnone : frames flying = [] := by
    have heq := hcarries.down.symm.trans hdown
    rwa [List.append_nil, Option.some.injEq] at heq
  obtain rfl := frames_eq_nil_iff.1 hnone
  have hfollows := hcarries.follows a hc
  unfold Follows at hfollows
  rw [hloop] at hfollows
  rw [hcarries.drop_eq, List.append_nil, List.append_nil, ← hfollows]
  exact (List.append_nil _).symm

/-- Two followers join; two broadcasts take their indices and write in the other order; the
second connection fails in the middle of the second frame. -/
def twoFollowers : List Action :=
  [.replica [2] .dial, .peers (.addFollower [2] 0), .replica [3] .dial,
    .peers (.addFollower [3] 1), .peers (.call (.setWithExpiry [7] [1] 90)),
    .peers (.call (.delete [7])), .peers (.index 0), .peers (.index 1),
    .peers (.broadcast 1 Network.inAddrOrder fun _ => none),
    .replica [2] .follow, .replica [2] (.apply fun _ => Eviction.byKey),
    .peers (.broadcast 0 Network.inAddrOrder fun c => if c = 1 then some 9 else none),
    .replica [3] .follow, .replica [3] (.apply fun _ => Eviction.byKey)]

/-- The first one then carries out the rest. -/
def oneCatchesUp : List Action :=
  twoFollowers ++ [.replica [2] .follow, .replica [2] .follow,
    .replica [2] (.apply fun _ => Eviction.byKey), .replica [2] .follow]

/-- The broadcasts write in the order opposite to their indices.  The follower that has caught up
has carried out both in the order of the writes, and the one whose connection failed a beginning
of it. -/
theorem carried_out_stretch_two :
    ∃ s ∈ runAll step Fitting (start [1] (fun _ => oneShard) 0) oneCatchesUp,
      s.order = [(.delete [7], 2), (.setWithExpiry [7] [1] 90, 1)] ∧
        (s.replicas [2]).done = syncs s.order ∧ (s.replicas [3]).done <+: syncs s.order := by
  obtain ⟨s, hs, horder, h2, hjoined, hfollower, hdown, h3, hjoined'⟩ :
      ∃ s ∈ runAll step Fitting (start [1] (fun _ => oneShard) 0) oneCatchesUp,
        s.order = [(.delete [7], 2), (.setWithExpiry [7] [1] 90, 1)] ∧
          (s.replicas [2]).loop = .reading 0 ∧ s.joined 0 = 0 ∧
          s.peers.leader.followers.lookup [2] = some 0 ∧ s.peers.down 0 = some [] ∧
          (s.replicas [3]).loop.conn = some 1 ∧ s.joined 1 = 0 := by
    decide +kernel
  have hall := (carried_out_stretch (reach_of_runAll hs) (by rw [h2]; rfl)).2 [2] hfollower h2 hdown
  have hsome := (carried_out_stretch (reach_of_runAll hs) h3).1
  rw [hjoined, List.drop_zero] at hall
  rw [hjoined', List.drop_zero] at hsome
  exact ⟨s, hs, horder, hall, hsome⟩

/-! ### What followers show -/

/-- A follower shows what the frames it has carried out lead to, from what it showed when it
dialed.  Sweeps make no difference to it. -/
structure Shows (s : Fleet) (r : Replica) : Prop where
  regular : r.db.Regular 0
  agree : AgreeFrom s.clock r.db.content
    (Expiry.replay (r.done.filterMap syncWrite) r.base)

/-- The store of a follower after a step of its own. -/
theorem Shows.after (h : Shows s (s.replicas a)) {action : Link.Action} {l : Link}
    (htick : ∀ t, action ≠ .tick t) (hs : (s.link a).step action = some l) :
    Shows s ((s.replicas a).after l action) := by
  cases Link.linkStep_of_step hs with
  | tick => exact absurd rfl (htick _)
  | dial => exact ⟨h.regular, .refl _ _⟩
  | @apply c sync ranges db hloop hdb =>
    have hloop' : (s.replicas a).loop = .apply c sync := hloop
    obtain ⟨hreg, hcontent⟩ := content_applySync h.regular hdb
    refine ⟨hreg, ?_⟩
    show AgreeFrom s.clock db.content (Expiry.replay
      (((s.replicas a).done ++ (s.replicas a).loop.sync.toList).filterMap syncWrite) _)
    have hone : [sync].filterMap syncWrite = (syncWrite sync).toList := by
      cases hw : syncWrite sync <;> simp [hw]
    rw [hloop', show (Loop.apply c sync).sync.toList = [sync] from rfl, List.filterMap_append,
      Expiry.replay_append, hcontent, hone]
    exact h.agree.replay _
  | @sweep i shard now range hshard hnow =>
    exact ⟨h.regular.sweepShard hshard range now,
      (KVStore.agreeFrom_sweepShard hshard range hnow).trans h.agree⟩
  | peers | read | skip | ack | hangUp => exact ⟨h.regular, h.agree⟩

/-- **Every step keeps what followers show:** frames are carried out one by one, and a sweep takes
away nothing that is visible. -/
theorem shows_step (h : ∀ a, Shows s (s.replicas a)) {action : Action}
    (hs : s.step action = some s') : ∀ a, Shows s' (s'.replicas a) := by
  cases action with
  | peers action =>
    obtain ⟨p, hp, hs⟩ := Option.bind_eq_some_iff.1 hs
    obtain rfl := Option.some.inj hs
    exact fun a => ⟨(h a).regular, (h a).agree⟩
  | tick t =>
    simp only [Fleet.step] at hs
    split_ifs at hs with ht
    obtain rfl := Option.some.inj hs
    exact fun a => ⟨(h a).regular, (h a).agree.mono ht⟩
  | replica b action =>
    simp only [Fleet.step] at hs
    split at hs
    · cases hs
    · cases hs
    · rename_i hpeers htick
      obtain ⟨l, hl, hs⟩ := Option.bind_eq_some_iff.1 hs
      obtain rfl := Option.some.inj hs
      intro a
      have hafter : Shows s ((s.afterReplica b l.peers ((s.replicas b).after l action)).replicas a) :=
        replica_afterReplica a (fun _ => (h b).after htick hl) fun _ => h a
      exact ⟨hafter.regular, hafter.agree⟩

/-- **Followers agree with each other.**  The stores have no budget, and the followers do
whatever they do.  Two of them on connections that were added at the same point of the
sequence, with stores that showed the same when they dialed, show the same from now on whenever
they have carried out equally many frames: whichever they are, whether their broadcasts overtook
each other, and whatever the leader shows. -/
theorem followers_agree {leaderAddr : Addr} {stores : Addr → KVStore}
    (hreg : ∀ a, (stores a).Regular 0) {t : Time}
    (hs : Reach step Fitting (start leaderAddr stores t) s) {a b : Addr} {c d : ℕ}
    (hc : (s.replicas a).loop.conn = some c) (hd : (s.replicas b).loop.conn = some d)
    (hjoined : s.joined c = s.joined d)
    (hbase : AgreeFrom s.clock (s.replicas a).base (s.replicas b).base)
    (hmany : (s.replicas a).done.length = (s.replicas b).done.length) :
    ∀ t', s.clock ≤ t' → ∀ k, Expiry.visible t' ((s.replicas a).db.content k) =
      Expiry.visible t' ((s.replicas b).db.content k) := by
  have hinv := inv_of_reach hs
  have hshows : ∀ a, Shows s (s.replicas a) :=
    hs.invariant (P := fun s => ∀ a, Shows s (s.replicas a)) (fun a => ⟨hreg a, .refl _ _⟩)
      fun _ _ _ h _ hstep => shows_step h hstep
  have hdone : (s.replicas a).done = (s.replicas b).done := by
    have ha := List.prefix_iff_eq_take.1 (hinv.isPrefix_done hc)
    have hb := List.prefix_iff_eq_take.1 (hinv.isPrefix_done hd)
    rw [ha, hb, hjoined, hmany]
  intro t' ht' k
  have hsame := hbase.replay ((s.replicas a).done.filterMap syncWrite)
  have ha := (hshows a).agree.trans hsame
  rw [hdone] at ha
  exact (ha.trans (hshows b).agree.symm).mono ht' k

/-- Both followers have carried out the same frame and are about to acknowledge it: they show the
same. -/
theorem followers_agree_two :
    ∃ s ∈ runAll step Fitting (start [1] (fun _ => oneShard) 0) twoFollowers,
      (s.replicas [2]).loop = .ack 0 2 ∧ (s.replicas [3]).loop = .ack 1 2 ∧
        ∀ t', s.clock ≤ t' → ∀ k, Expiry.visible t' ((s.replicas [2]).db.content k) =
          Expiry.visible t' ((s.replicas [3]).db.content k) := by
  obtain ⟨s, hs, h2, h3, hjoined, hmany⟩ :
      ∃ s ∈ runAll step Fitting (start [1] (fun _ => oneShard) 0) twoFollowers,
        (s.replicas [2]).loop = .ack 0 2 ∧ (s.replicas [3]).loop = .ack 1 2 ∧
          s.joined 0 = s.joined 1 ∧
          (s.replicas [2]).done.length = (s.replicas [3]).done.length := by
    decide +kernel
  refine ⟨s, hs, h2, h3, followers_agree (fun _ => ?_) (reach_of_runAll hs) (c := 0) (d := 1)
    (by rw [h2]; rfl) (by rw [h3]; rfl) hjoined ?_ hmany⟩
  · exact Replication.regular_of_newKVStore le_rfl (newKVStore_oneShard fun _ => Eviction.byKey)
  · have hbase : ∀ x ∈ runAll step Fitting (start [1] (fun _ => oneShard) 0) twoFollowers,
        (x.replicas [2]).base = oneShard.content ∧ (x.replicas [3]).base = oneShard.content := by
      intro x hx
      obtain rfl : Option.get _ _ = x := Option.get_of_mem (by decide +kernel) hx
      exact ⟨rfl, rfl⟩
    rw [(hbase s hs).1, (hbase s hs).2]
    exact .refl _ _

end Fleet

end Cluster
end Keva
