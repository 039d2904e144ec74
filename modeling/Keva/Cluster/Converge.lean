/-
# What the follower shows

The writes between the two stores are those on the connection and those still to be
broadcast.  Carried out on the follower in that order they lead to the leader's
store, as far as a reader from now on can tell (`Inv.agree`): that is kept by every
step in which a broadcast does not overtake an earlier write of the same key.  A
quiet cluster has then converged (`converged_of_inOrder`).  One broadcast that
overtakes, and the two stores stay apart (`broadcast_overtakes`).

Under one request at a time no broadcast can overtake, and more is true: after `j`
frames the follower shows what the leader showed right after its `j`-th broadcast
(`get_follower_eq`).
-/

import Keva.Cluster.Replication

namespace Keva
namespace Cluster

open Bytes
open Eviction (Range)
open Store (KVStore Call Err Options newKVStore oneShard newKVStore_oneShard)
open Protocol (ReplicationSync encodeFrame)
open Expiry (AgreeFrom visible)

/-! ### One call across the wire -/

/-- The call fits the fields of the frame that is sent for it. -/
def Sendable : Call → Prop
  | .setWithExpiry key value expiredAt =>
    key.length ≤ 65535 ∧ 24 + key.length + value.length < 2 ^ 32 ∧ FitsInt64 expiredAt
  | .delete key => key.length ≤ 65535

instance (c : Call) : Decidable (Sendable c) := by
  unfold Sendable
  cases c <;> infer_instance

/-- The frame of a call that can be sent fits its fields, under any index. -/
theorem fits_syncOf {c : Call} (h : Sendable c) (logIndex : UInt64) : (syncOf c logIndex).Fits := by
  cases c with
  | setWithExpiry key value expiredAt => exact ⟨h.1, h.2.1⟩
  | delete key =>
    refine ⟨h, ?_⟩
    have hkey : key.length ≤ 65535 := h
    change 24 + key.length + 0 < 2 ^ 32
    omega

/-- **The follower carries out the call the leader carried out.**  The expiry goes through the
frame as 64 bits and comes back as it was, since it fits. -/
theorem applySync_syncOf {c : Call} (h : Sendable c) (logIndex : UInt64) (ranges : ℕ → Range)
    (db : KVStore) (now : Time) :
    applySync ranges db (syncOf c logIndex) now = (c.exec ranges db now).map Prod.fst := by
  cases c with
  | setWithExpiry key value expiredAt =>
    have hexp : int64 (UInt64.ofNat (uint64 expiredAt)).toNat = expiredAt := by
      rw [UInt64.toNat_ofNat_of_lt' (uint64_lt expiredAt), int64_uint64 h.2.2]
    change (db.setWithExpiry ranges key value (int64 (UInt64.ofNat (uint64 expiredAt)).toNat)
      now).map Prod.fst = _
    rw [hexp]
    rfl
  | delete key => rfl

/-- The bytes on the connection for calls with their indices. -/
def frames (flying : List (Call × UInt64)) : Bytes :=
  flying.flatMap fun x => encodeFrame (.replicationSync (syncOf x.1 x.2))

/-- Frames stand one behind the other. -/
theorem frames_append (flying flying' : List (Call × UInt64)) :
    frames (flying ++ flying') = frames flying ++ frames flying' :=
  List.flatMap_append

/-- No frame is empty. -/
theorem frames_eq_nil_iff {flying : List (Call × UInt64)} : frames flying = [] ↔ flying = [] := by
  constructor
  · intro h
    cases flying with
    | nil => rfl
    | cons x flying => cases h
  · rintro rfl
    rfl

/-- **What is read of a run of frames** is the first of them; behind them may be anything that
is not yet a frame. -/
theorem readSync_frames {flying : List (Call × UInt64)}
    (hflies : ∀ x ∈ flying, (syncOf x.1 x.2).Fits) {tail : Bytes} (htail : readSync tail = none)
    {next : Option ReplicationSync} {rest : Bytes}
    (h : readSync (frames flying ++ tail) = some (next, rest)) :
    ∃ x flying', flying = x :: flying' ∧ next = some (syncOf x.1 x.2) ∧
      rest = frames flying' ++ tail := by
  cases flying with
  | nil =>
    change readSync tail = _ at h
    rw [htail] at h
    cases h
  | cons x flying =>
    have hread := readSync_encodeFrame (hflies x List.mem_cons_self) (frames flying ++ tail)
    rw [← List.append_assoc] at hread
    obtain ⟨rfl, rfl⟩ := Prod.mk.inj (Option.some.inj (hread.symm.trans h))
    exact ⟨x, flying, rfl, rfl, rfl⟩

/-- A call that fails changes nothing.  Without a budget only a `Delete` fails, and that one
found nothing to delete. -/
theorem content_of_err {c : Call} {ranges : ℕ → Range} {kv kv' : KVStore} {now : Time} {err : Err}
    (h : kv.Regular 0) (hr : c.exec ranges kv now = some (kv', some err)) :
    kv'.content = kv.content := by
  obtain ⟨herr, -, -, hc⟩ := Call.exec_eq_some h hr
  cases c with
  | setWithExpiry key value expiredAt => cases herr
  | delete key =>
    -- The key to be deleted was not there.
    have hnone : kv.content key = none := by
      by_contra hne
      rw [Call.err, if_neg hne] at herr
      cases herr
    rw [hc]
    exact Function.update_eq_self_iff.2 hnone.symm

namespace Replication

variable {s s' : Replication} {a : Action} {flying : List (Call × UInt64)}

/-! ### Conditions on a step -/

/-- Requests fit the frames that are sent for them. -/
def Fitting (s : Replication) : Action → Prop
  | .set key value ttl => Sendable (setCall s.defaultTTL s.clock key value ttl)
  | .delete key => Sendable (.delete key)
  | _ => True

/-- A broadcast does not overtake an earlier write of the same key. -/
def InOrder (s : Replication) : Action → Prop
  | .send j => ∀ x ∈ s.sending[j]?, ∀ y ∈ s.sending.take j, y.1.key ≠ x.1.key
  | _ => True

/-- One request at a time. -/
def Serial (s : Replication) : Action → Prop
  | .set _ _ _ | .delete _ => s.started = [] ∧ s.sending = []
  | _ => True

instance (s : Replication) (a : Action) : Decidable (s.Fitting a) := by
  unfold Fitting
  cases a <;> infer_instance

instance (s : Replication) (a : Action) : Decidable (s.InOrder a) := by
  unfold InOrder
  cases a <;> infer_instance

instance (s : Replication) (a : Action) : Decidable (s.Serial a) := by
  unfold Serial
  cases a <;> infer_instance

/-! ### What every step keeps -/

/-- The writes that are on their way to the follower, first the next one. -/
def pending (s : Replication) (flying : List (Call × UInt64)) :
    List (Expiry.Write Key Bytes Time) :=
  flying.map (fun x => x.1.write) ++ s.sending.map fun x => x.1.write

/-- The two stores, with `flying` on the connection.  What is still to be applied, sent and
received, replayed in that order on what the follower has, shows what the leader shows. -/
structure Inv (flying : List (Call × UInt64)) (s : Replication) : Prop where
  leader : s.leader.Regular 0
  follower : s.follower.Regular 0
  started : ∀ c ∈ s.started, Sendable c
  sending : ∀ x ∈ s.sending, Sendable x.1
  flies : ∀ x ∈ flying, Sendable x.1
  stream : s.stream = frames flying
  agree : AgreeFrom s.clock (Expiry.replay (s.pending flying) s.follower.content) s.leader.content

/-- What is on the connection after a step. -/
def after (s : Replication) (flying : List (Call × UInt64)) : Action → List (Call × UInt64)
  | .send j =>
    match s.sending[j]? with
    | some (c, some index) => flying ++ [(c, index)]
    | _ => flying
  | .receive _ => flying.tail
  | _ => flying

/-- What is sent goes to the end of the connection. -/
theorem after_send {c : Call} {index : UInt64} {j : ℕ} (hj : s.sending[j]? = some (c, some index)) :
    s.after flying (.send j) = flying ++ [(c, index)] := by
  simp only [after, hj]

/-- A request comes in. -/
theorem Inv.accept (h : Inv flying s) {c : Call} (hc : Sendable c) :
    Inv flying { s with started := s.started ++ [c] } :=
  ⟨h.leader, h.follower, List.forall_mem_append.2 ⟨h.started, List.forall_mem_singleton.2 hc⟩,
    h.sending, h.flies, h.stream, h.agree⟩

/-- A request reaches the leader's store.  It is pending from now on, behind all others, unless
it failed and is not broadcast at all. -/
theorem Inv.apply (h : Inv flying s) {c : Call} {j : ℕ} {ranges : ℕ → Range} {kv : KVStore}
    {e : Option Err} (hj : s.started[j]? = some c)
    (hr : c.exec ranges s.leader s.clock = some (kv, e)) :
    Inv flying { s with leader := kv, started := s.started.eraseIdx j,
                        sending := if e = none then s.sending ++ [(c, none)] else s.sending } := by
  obtain ⟨-, hreg, -, hc⟩ := Call.exec_eq_some h.leader hr
  have hsendable := h.started c (List.mem_of_getElem? hj)
  have hstarted : ∀ c' ∈ s.started.eraseIdx j, Sendable c' :=
    fun c' hc' => h.started c' (List.mem_of_mem_eraseIdx hc')
  split_ifs with herr
  · refine ⟨hreg, h.follower, hstarted, ?_, h.flies, h.stream, ?_⟩
    · exact List.forall_mem_append.2 ⟨h.sending, List.forall_mem_singleton.2 hsendable⟩
    · change AgreeFrom s.clock (Expiry.replay (_ ++ (s.sending ++ [(c, none)]).map _) _) kv.content
      rw [List.map_append, ← List.append_assoc, Expiry.replay_append, hc]
      exact h.agree.apply c.write
  · obtain ⟨err, rfl⟩ := Option.ne_none_iff_exists'.1 herr
    refine ⟨hreg, h.follower, hstarted, h.sending, h.flies, h.stream, ?_⟩
    change AgreeFrom s.clock _ kv.content
    rw [content_of_err h.leader hr]
    exact h.agree

/-- A call takes its index.  The order of what is pending is that of the calls, and indices do
not enter into it. -/
theorem Inv.index (h : Inv flying s) {c : Call} {index : Option UInt64} {j : ℕ}
    (hj : s.sending[j]? = some (c, index)) (n : UInt64) :
    Inv flying { s with logIndex := n, sending := s.sending.set j (c, some n) } := by
  -- The calls that wait are the same whatever their indices.
  have hmap : (s.sending.set j (c, some n)).map Prod.fst = s.sending.map Prod.fst :=
    map_set_eq hj rfl
  refine ⟨h.leader, h.follower, h.started, ?_, h.flies, h.stream, ?_⟩
  · intro x hx
    rcases List.mem_or_eq_of_mem_set hx with hx | rfl
    · exact h.sending x hx
    · exact h.sending (c, index) (List.mem_of_getElem? hj)
  · have hpending : pending { s with logIndex := n, sending := s.sending.set j (c, some n) } flying =
        s.pending flying := by
      have hwrites := congrArg (List.map Call.write) hmap
      rw [List.map_map, List.map_map] at hwrites
      exact congrArg _ hwrites
    rw [hpending]
    exact h.agree

/-- A broadcast: the call is written to the connection behind all others, and so passes those
that wait before it.  None of these is about its key. -/
theorem Inv.send (h : Inv flying s) {c : Call} {index : UInt64} {j : ℕ}
    (hj : s.sending[j]? = some (c, some index))
    (hkeys : ∀ y ∈ s.sending.take j, y.1.key ≠ c.key) :
    Inv (flying ++ [(c, index)])
      { s with sending := s.sending.eraseIdx j,
               stream := s.stream ++ encodeFrame (.replicationSync (syncOf c index)),
               sent := s.sent ++ [s.leader] } := by
  obtain ⟨hlt, hget⟩ := List.getElem?_eq_some_iff.1 hj
  have hsplit : s.sending = s.sending.take j ++ (c, some index) :: s.sending.drop (j + 1) := by
    rw [← hget, List.cons_getElem_drop_succ, List.take_append_drop]
  have hne : ∀ w ∈ (s.sending.take j).map fun x => x.1.write, w.key ≠ c.write.key := by
    intro w hw
    obtain ⟨y, hy, rfl⟩ := List.mem_map.1 hw
    rw [Call.key_write, Call.key_write]
    exact hkeys y hy
  refine ⟨h.leader, h.follower, h.started,
    fun x hx => h.sending x (List.mem_of_mem_eraseIdx hx), ?_, ?_, ?_⟩
  · have hsendable : Sendable c := h.sending _ (List.mem_of_getElem? hj)
    exact List.forall_mem_append.2 ⟨h.flies, List.forall_mem_singleton.2 hsendable⟩
  · rw [frames_append, ← h.stream]
    simp [frames]
  · have hagree := h.agree
    unfold pending at hagree ⊢
    rw [hsplit, List.map_append, List.map_cons, Expiry.replay_append,
      Expiry.replay_append_cons hne] at hagree
    dsimp only
    rw [List.eraseIdx_eq_take_drop_succ, List.map_append, List.map_append, List.append_assoc,
      Expiry.replay_append, List.map_singleton, List.singleton_append, Expiry.replay_cons]
    exact hagree

/-- The follower receives only while something is on the connection, and carries out the first
of it. -/
theorem Inv.receive_eq (h : Inv flying s) {ranges : ℕ → Range}
    (hs : s.step (.receive ranges) = some s') :
    ∃ x rest kv e, flying = x :: rest ∧ x.1.exec ranges s.follower s.clock = some (kv, e) ∧
      s' = { s with follower := kv, stream := frames rest, synced := s.synced + 1 } := by
  obtain ⟨⟨next, rest⟩, hread, hs⟩ := Option.bind_eq_some_iff.1 hs
  rw [h.stream, ← List.append_nil (frames flying)] at hread
  obtain ⟨x, flying, rfl, rfl, rfl⟩ :=
    readSync_frames (fun x hx => fits_syncOf (h.flies x hx) x.2) readSync_nil hread
  obtain ⟨kv, hkv, hs⟩ := Option.bind_eq_some_iff.1 hs
  rw [applySync_syncOf (h.flies x List.mem_cons_self), Option.map_eq_some_iff] at hkv
  obtain ⟨⟨kv, e⟩, hexec, rfl⟩ := hkv
  rw [List.append_nil] at hs
  exact ⟨x, flying, kv, e, rfl, hexec, (Option.some.inj hs).symm⟩

/-- The follower carries out the next call. -/
theorem Inv.receive {x : Call × UInt64} (h : Inv (x :: flying) s) {ranges : ℕ → Range}
    {kv : KVStore} {e : Option Err} (hexec : x.1.exec ranges s.follower s.clock = some (kv, e)) :
    Inv flying { s with follower := kv, stream := frames flying, synced := s.synced + 1 } := by
  obtain ⟨-, hreg, -, hc⟩ := Call.exec_eq_some h.follower hexec
  refine ⟨h.leader, hreg, h.started, h.sending, fun y hy => h.flies y (List.mem_cons_of_mem _ hy),
    rfl, ?_⟩
  change AgreeFrom s.clock (Expiry.replay _ kv.content) _
  rw [hc]
  exact h.agree

/-- **Every fitting step in which no broadcast overtakes keeps the invariant.**  A request joins
what is pending at the end, and moves from one list to the next without passing another one on
its key. -/
theorem Inv.step (h : Inv flying s) (hfit : s.Fitting a) (hord : s.InOrder a)
    (hs : s.step a = some s') : Inv (s.after flying a) s' := by
  cases a with
  | tick t =>
    simp only [Replication.step] at hs
    split_ifs at hs with ht
    obtain rfl := Option.some.inj hs
    exact ⟨h.leader, h.follower, h.started, h.sending, h.flies, h.stream, h.agree.mono ht⟩
  | set key value ttl =>
    exact Option.some.inj hs ▸ h.accept hfit
  | delete key =>
    exact Option.some.inj hs ▸ h.accept hfit
  | apply j ranges =>
    obtain ⟨c, hj, hs⟩ := Option.bind_eq_some_iff.1 hs
    obtain ⟨⟨kv, e⟩, hr, hs⟩ := Option.bind_eq_some_iff.1 hs
    have happly := h.apply hj hr
    cases e with
    | none => exact Option.some.inj hs ▸ happly
    | some err => exact Option.some.inj hs ▸ happly
  | index j =>
    obtain ⟨⟨c, index⟩, hj, hs⟩ := Option.bind_eq_some_iff.1 hs
    dsimp only at hs
    split_ifs at hs
    obtain rfl := Option.some.inj hs
    exact h.index hj _
  | send j =>
    obtain ⟨⟨c, index⟩, hj, hs⟩ := Option.bind_eq_some_iff.1 hs
    obtain ⟨index, rfl, hs⟩ := Option.bind_eq_some_iff.1 hs
    obtain rfl := Option.some.inj hs
    rw [after_send hj]
    exact h.send hj (hord _ hj)
  | receive ranges =>
    obtain ⟨x, flying, kv, e, rfl, hexec, rfl⟩ := h.receive_eq hs
    exact h.receive hexec
  | sweepLeader i range now =>
    obtain ⟨shard, hshard, hs⟩ := Option.bind_eq_some_iff.1 hs
    split_ifs at hs with hnow
    obtain rfl := Option.some.inj hs
    have hsame := KVStore.agreeFrom_sweepShard hshard range hnow
    exact ⟨h.leader.sweepShard hshard range now, h.follower, h.started, h.sending, h.flies, h.stream,
      h.agree.trans hsame.symm⟩
  | sweepFollower i range now =>
    obtain ⟨shard, hshard, hs⟩ := Option.bind_eq_some_iff.1 hs
    split_ifs at hs with hnow
    obtain rfl := Option.some.inj hs
    have hsame := KVStore.agreeFrom_sweepShard hshard range hnow
    exact ⟨h.leader, h.follower.sweepShard hshard range now, h.started, h.sending, h.flies, h.stream,
      (hsame.replay _).trans h.agree⟩

/-! ### One request at a time -/

/-- With at most one request on its way: what the follower will show after each of
the frames on the connection is what the leader showed right after it sent it. -/
structure Tracks (flying : List (Call × UInt64)) (s : Replication) : Prop where
  serial : s.started.length + s.sending.length ≤ 1
  regular : ∀ kv ∈ s.sent, kv.Regular 0
  length_eq : s.sent.length = s.synced + flying.length + 1
  shows : ∀ i kv, s.sent[s.synced + i]? = some kv →
    AgreeFrom s.clock (Expiry.replay ((flying.take i).map fun x => x.1.write) s.follower.content)
      kv.content

/-- Nothing can be overtaken. -/
theorem Tracks.inOrder (h : Tracks flying s) (a : Action) : s.InOrder a := by
  cases a with
  | send j =>
    intro x hx y hy
    have hj : j < s.sending.length := (List.getElem?_eq_some_iff.1 hx).1
    have hserial := h.serial
    obtain rfl : j = 0 := by omega
    rw [List.take_zero] at hy
    cases hy
  | _ => trivial

/-- The one request is broadcast.  No other one is in progress, so that the leader's store at
this moment is the one that the follower will show after it. -/
theorem Tracks.send (h : Tracks flying s) {c : Call} {index : UInt64} {j : ℕ}
    (hj : s.sending[j]? = some (c, some index))
    (hinv : Inv (flying ++ [(c, index)])
      { s with sending := s.sending.eraseIdx j,
               stream := s.stream ++ encodeFrame (.replicationSync (syncOf c index)),
               sent := s.sent ++ [s.leader] }) :
    Tracks (flying ++ [(c, index)])
      { s with sending := s.sending.eraseIdx j,
               stream := s.stream ++ encodeFrame (.replicationSync (syncOf c index)),
               sent := s.sent ++ [s.leader] } := by
  have hlt : j < s.sending.length := (List.getElem?_eq_some_iff.1 hj).1
  have hserial := h.serial
  have hlength := h.length_eq
  have herase : s.sending.eraseIdx j = [] := by
    rw [← List.length_eq_zero_iff, List.length_eraseIdx_of_lt hlt]
    omega
  refine ⟨?_, ?_, ?_, ?_⟩
  · rw [herase]
    change s.started.length + 0 ≤ 1
    omega
  · intro kv hkv
    rcases List.mem_append.1 hkv with hkv | hkv
    · exact h.regular kv hkv
    · exact List.mem_singleton.1 hkv ▸ hinv.leader
  · change (s.sent ++ [s.leader]).length = s.synced + (flying ++ [(c, index)]).length + 1
    rw [List.length_append, List.length_append, List.length_singleton, List.length_singleton]
    omega
  · intro i kv hkv
    change (s.sent ++ [s.leader])[s.synced + i]? = some kv at hkv
    by_cases hi : i ≤ flying.length
    · rw [List.getElem?_append_left (by omega)] at hkv
      rw [List.take_append_of_le_length hi]
      exact h.shows i kv hkv
    · have hbound := (List.getElem?_eq_some_iff.1 hkv).1
      rw [List.length_append, List.length_singleton] at hbound
      obtain rfl : i = flying.length + 1 := by omega
      rw [List.getElem?_append_right (by omega), List.getElem?_singleton, if_pos (by omega)] at hkv
      obtain rfl := Option.some.inj hkv
      have hagree := hinv.agree
      unfold pending at hagree
      dsimp only at hagree
      rw [herase, List.map_nil, List.append_nil] at hagree
      rw [List.take_of_length_le (by simp)]
      exact hagree

/-- The follower carries out the next call, and then shows what the leader showed right after it
had broadcast the same call. -/
theorem Tracks.receive {x : Call × UInt64} (h : Tracks (x :: flying) s)
    (hreg : s.follower.Regular 0) {ranges : ℕ → Range} {kv' : KVStore} {e : Option Err}
    (hexec : x.1.exec ranges s.follower s.clock = some (kv', e)) :
    Tracks flying { s with follower := kv', stream := frames flying, synced := s.synced + 1 } := by
  obtain ⟨-, -, -, hc⟩ := Call.exec_eq_some hreg hexec
  have hlength := h.length_eq
  rw [List.length_cons] at hlength
  refine ⟨h.serial, h.regular, ?_, ?_⟩
  · change s.sent.length = s.synced + 1 + flying.length + 1
    omega
  · intro i kv hkv
    have hindex : s.synced + (i + 1) = s.synced + 1 + i := by omega
    have hshows := h.shows (i + 1) kv (hindex ▸ hkv)
    change AgreeFrom s.clock (Expiry.replay _ kv'.content) _
    rw [hc]
    exact hshows

/-- **Every step with one request at a time keeps track** of the leader's stores from one
broadcast to the next, so that the follower can be compared with the leader as it was. -/
theorem Tracks.step (h : Tracks flying s) (hinv : Inv flying s) (hser : s.Serial a)
    (hinv' : Inv (s.after flying a) s') (hs : s.step a = some s') : Tracks (s.after flying a) s' := by
  have hserial := h.serial
  cases a with
  | tick t =>
    simp only [Replication.step] at hs
    split_ifs at hs with ht
    obtain rfl := Option.some.inj hs
    exact ⟨h.serial, h.regular, h.length_eq, fun i kv hkv => (h.shows i kv hkv).mono ht⟩
  | set key value ttl =>
    obtain rfl := Option.some.inj hs
    refine ⟨?_, h.regular, h.length_eq, h.shows⟩
    rw [hser.1, hser.2]
    rfl
  | delete key =>
    obtain rfl := Option.some.inj hs
    refine ⟨?_, h.regular, h.length_eq, h.shows⟩
    rw [hser.1, hser.2]
    rfl
  | apply j ranges =>
    obtain ⟨c, hj, hs⟩ := Option.bind_eq_some_iff.1 hs
    obtain ⟨⟨kv, e⟩, hr, hs⟩ := Option.bind_eq_some_iff.1 hs
    have hlt : j < s.started.length := (List.getElem?_eq_some_iff.1 hj).1
    have herase := List.length_eraseIdx_of_lt hlt
    cases e with
    | none =>
      obtain rfl := Option.some.inj hs
      refine ⟨?_, h.regular, h.length_eq, h.shows⟩
      change (s.started.eraseIdx j).length + (s.sending ++ [(c, none)]).length ≤ 1
      rw [List.length_append, List.length_singleton]
      omega
    | some err =>
      obtain rfl := Option.some.inj hs
      refine ⟨?_, h.regular, h.length_eq, h.shows⟩
      change (s.started.eraseIdx j).length + s.sending.length ≤ 1
      omega
  | index j =>
    obtain ⟨⟨c, index⟩, hj, hs⟩ := Option.bind_eq_some_iff.1 hs
    dsimp only at hs
    split_ifs at hs
    obtain rfl := Option.some.inj hs
    refine ⟨?_, h.regular, h.length_eq, h.shows⟩
    change s.started.length + (s.sending.set j _).length ≤ 1
    rwa [List.length_set]
  | send j =>
    obtain ⟨⟨c, index⟩, hj, hs⟩ := Option.bind_eq_some_iff.1 hs
    obtain ⟨index, rfl, hs⟩ := Option.bind_eq_some_iff.1 hs
    obtain rfl := Option.some.inj hs
    rw [after_send hj] at hinv' ⊢
    exact h.send hj hinv'
  | receive ranges =>
    obtain ⟨x, flying, kv, e, rfl, hexec, rfl⟩ := hinv.receive_eq hs
    exact h.receive hinv.follower hexec
  | sweepLeader i range now =>
    obtain ⟨shard, hshard, hs⟩ := Option.bind_eq_some_iff.1 hs
    split_ifs at hs with hnow
    obtain rfl := Option.some.inj hs
    exact ⟨h.serial, h.regular, h.length_eq, h.shows⟩
  | sweepFollower i range now =>
    obtain ⟨shard, hshard, hs⟩ := Option.bind_eq_some_iff.1 hs
    split_ifs at hs with hnow
    obtain rfl := Option.some.inj hs
    have hsame := KVStore.agreeFrom_sweepShard hshard range hnow
    exact ⟨h.serial, h.regular, h.length_eq, fun i kv hkv => (hsame.replay _).trans (h.shows i kv hkv)⟩

/-- `Get` answers `r` at time `t`, where the key has a shard at all. -/
def Answers (kv : KVStore) (key : Key) (t : Time) (r : Except Err Bytes) : Prop :=
  kv.shardCount ≠ 0 → (kv.get key t).map Prod.snd = some r

/-- In a store without a budget `Get` answers what is visible, and returns. -/
theorem answers_visible {kv : KVStore} (h : kv.Regular 0) (key : Key) (t : Time) :
    Answers kv key t (KVStore.answer (visible t (kv.content key))) := by
  intro hc
  obtain ⟨kv', r, hget⟩ := KVStore.get_isSome hc key t
  obtain ⟨rfl, -⟩ := KVStore.get_eq_some h hget
  rw [hget]
  rfl

section Joined

variable {ranges ranges' : ℕ → Range} {file file' : Option Bytes} {walOpts walOpts' : Wal.Options}
  {opts opts' : Options} {t₀ t₀' t : Time} {leader follower : KVStore}

/-- A store opened without a cap. -/
theorem regular_of_newKVStore (hmax : opts.maxMemoryBytes ≤ 0)
    (h : newKVStore ranges file walOpts opts t₀ = some (.ok leader)) : leader.Regular 0 := by
  obtain ⟨-, -, -, ⟨b, hb, hreg⟩, -⟩ := Store.newKVStore_eq_ok h
  rw [Store.shardBudget_unlimited hmax] at hb
  exact Option.some.inj hb ▸ hreg

/-- Two stores with the same contents, and nothing on its way between them. -/
theorem inv_start (hmax : opts.maxMemoryBytes ≤ 0) (hmax' : opts'.maxMemoryBytes ≤ 0)
    (hleader : newKVStore ranges file walOpts opts t₀ = some (.ok leader))
    (hfollower : newKVStore ranges' file' walOpts' opts' t₀' = some (.ok follower))
    (hsame : follower.content = leader.content) (defaultTTL : ℤ) (t : Time) :
    Inv [] (start leader follower defaultTTL t) := by
  refine ⟨regular_of_newKVStore hmax hleader, regular_of_newKVStore hmax' hfollower, ?_, ?_, ?_, rfl, ?_⟩
  · exact fun c hc => absurd hc List.not_mem_nil
  · exact fun x hx => absurd hx List.not_mem_nil
  · exact fun x hx => absurd hx List.not_mem_nil
  · change AgreeFrom t follower.content leader.content
    rw [hsame]
    exact AgreeFrom.refl _ _

/-- **A quiet cluster has converged, where no broadcast overtook.**  From two stores
without a budget that hold the same when the follower joins, by steps whose requests
fit the wire and whose broadcasts keep the order of the leader's writes of each
key. -/
theorem converged_of_inOrder (hmax : opts.maxMemoryBytes ≤ 0) (hmax' : opts'.maxMemoryBytes ≤ 0)
    (hleader : newKVStore ranges file walOpts opts t₀ = some (.ok leader))
    (hfollower : newKVStore ranges' file' walOpts' opts' t₀' = some (.ok follower))
    (hsame : follower.content = leader.content) {defaultTTL : ℤ}
    (hs : Reach step (fun s a => s.Fitting a ∧ s.InOrder a) (start leader follower defaultTTL t) s)
    (hquiet : s.Quiet) : Converged s := by
  obtain ⟨flying, hinv⟩ : ∃ flying, Inv flying s :=
    hs.invariant (P := fun s => ∃ flying, Inv flying s)
      ⟨[], inv_start hmax hmax' hleader hfollower hsame defaultTTL t⟩
      fun s a s' ⟨flying, h⟩ ha hstep => ⟨s.after flying a, h.step ha.1 ha.2 hstep⟩
  obtain ⟨-, hsending, hstream⟩ := hquiet
  have hnil : flying = [] := frames_eq_nil_iff.1 (hinv.stream.symm.trans hstream)
  have hagree := hinv.agree
  unfold pending at hagree
  rw [hnil, hsending] at hagree
  exact fun t ht => hagree.mono ht

/-- Two sets, of different keys, broadcast the other way round. -/
def twoKeys : List Action :=
  [.set [1] [2] 50, .set [3] [4] 50, .apply 0 fun _ => Eviction.byKey,
    .apply 0 fun _ => Eviction.byKey, .index 1, .index 0, .send 1, .send 0, .tick 5,
    .receive fun _ => Eviction.byKey, .sweepFollower 0 Eviction.byKey 4,
    .receive fun _ => Eviction.byKey]

/-- The two sets arrive in the other order, and both stores show both keys. -/
theorem converged_of_inOrder_twoKeys :
    ∃ s ∈ runAll step (fun s a => s.Fitting a ∧ s.InOrder a) (start oneShard oneShard 60 0) twoKeys,
      s.follower.content [1] = some ([2], 50) ∧ Converged s := by
  obtain ⟨s, hs, hquiet, hc⟩ :
      ∃ s ∈ runAll step (fun s a => s.Fitting a ∧ s.InOrder a) (start oneShard oneShard 60 0) twoKeys,
        s.Quiet ∧ s.follower.content [1] = some ([2], 50) := by
    decide +kernel
  have hnew := newKVStore_oneShard fun _ => Eviction.byKey
  exact ⟨s, hs, hc,
    converged_of_inOrder le_rfl le_rfl hnew hnew rfl (reach_of_runAll hs) hquiet⟩

/-- Two sets of one key, broadcast the other way round. -/
def oneKey : List Action :=
  [.set [1] [2] 50, .set [1] [3] 50, .apply 0 fun _ => Eviction.byKey,
    .apply 0 fun _ => Eviction.byKey, .index 1, .index 0, .send 1, .send 0,
    .receive fun _ => Eviction.byKey, .receive fun _ => Eviction.byKey]

/-- **A broadcast overtakes, and the follower stays behind for good.**  The leader is
left with the second set, the follower with the first. -/
theorem broadcast_overtakes :
    newKVStore (fun _ => Eviction.byKey) none ⟨.always, 0, 0⟩ ⟨1, 0, 0, none⟩ 0 =
        some (.ok oneShard) ∧
      ∃ s ∈ runAll step (fun _ _ => True) (start oneShard oneShard 60 0) oneKey,
        s.Quiet ∧ s.leader.content [1] = some ([3], 50) ∧
          s.follower.content [1] = some ([2], 50) ∧ ¬ Converged s := by
  obtain ⟨s, hs, hclock, hquiet, hl, hf⟩ :
      ∃ s ∈ runAll step (fun _ _ => True) (start oneShard oneShard 60 0) oneKey,
        s.clock = 0 ∧ s.Quiet ∧ s.leader.content [1] = some ([3], 50) ∧
          s.follower.content [1] = some ([2], 50) := by
    decide +kernel
  refine ⟨newKVStore_oneShard _, s, hs, hquiet, hl, hf, fun h => ?_⟩
  have heq := h 0 hclock.le [1]
  rw [hl, hf] at heq
  revert heq
  decide

/-- **After `j` frames the follower shows what the leader showed right after its
`j`-th broadcast.**  From two stores without a budget that hold the same when the
follower joins, by one request at a time, each fitting the wire, and whatever the
sweepers do: `Get` answers the same on both at any time from now on. -/
theorem get_follower_eq (hmax : opts.maxMemoryBytes ≤ 0) (hmax' : opts'.maxMemoryBytes ≤ 0)
    (hleader : newKVStore ranges file walOpts opts t₀ = some (.ok leader))
    (hfollower : newKVStore ranges' file' walOpts' opts' t₀' = some (.ok follower))
    (hsame : follower.content = leader.content) {defaultTTL : ℤ}
    (hs : Reach step (fun s a => s.Fitting a ∧ s.Serial a) (start leader follower defaultTTL t) s) :
    ∃ kv, s.sent[s.synced]? = some kv ∧ ∀ key t', s.clock ≤ t' →
      ∃ r, Answers s.follower key t' r ∧ Answers kv key t' r := by
  have hstart := inv_start hmax hmax' hleader hfollower hsame defaultTTL t
  have htracks : Tracks [] (start leader follower defaultTTL t) := by
    refine ⟨Nat.zero_le 1, ?_, rfl, ?_⟩
    · exact List.forall_mem_singleton.2 hstart.leader
    · intro i kv hkv
      change [leader][0 + i]? = some kv at hkv
      rw [List.getElem?_singleton] at hkv
      split_ifs at hkv
      obtain rfl := Option.some.inj hkv
      change AgreeFrom t (Expiry.replay (([].take i).map _) follower.content) leader.content
      rw [List.take_nil, List.map_nil, Expiry.replay_nil, hsame]
      exact AgreeFrom.refl _ _
  obtain ⟨flying, hinv, htracks⟩ : ∃ flying, Inv flying s ∧ Tracks flying s :=
    hs.invariant (P := fun s => ∃ flying, Inv flying s ∧ Tracks flying s) ⟨[], hstart, htracks⟩
      fun s a s' ⟨flying, h, htr⟩ ha hstep =>
        have hinv' := h.step ha.1 (htr.inOrder a) hstep
        ⟨s.after flying a, hinv', htr.step h ha.2 hinv' hstep⟩
  have hlt : s.synced < s.sent.length := by
    have hlength := htracks.length_eq
    omega
  obtain ⟨kv, hkv⟩ : ∃ kv, s.sent[s.synced]? = some kv := ⟨_, List.getElem?_eq_getElem hlt⟩
  refine ⟨kv, hkv, fun key t' ht => ?_⟩
  have hshows := (htracks.shows 0 kv hkv).mono ht key
  rw [List.take_zero, List.map_nil, Expiry.replay_nil] at hshows
  refine ⟨_, answers_visible hinv.follower key t', ?_⟩
  rw [hshows]
  exact answers_visible (htracks.regular kv (List.mem_of_getElem? hkv)) key t'

/-- A set and a delete of one key; the follower has the first frame only. -/
def setDelete : List Action :=
  [.set [1] [2] 50, .apply 0 fun _ => Eviction.byKey, .index 0, .send 0, .delete [1],
    .apply 0 fun _ => Eviction.byKey, .index 0, .send 0, .tick 5,
    .receive fun _ => Eviction.byKey]

/-- The follower still serves the key that the leader has deleted: its answers are those of the
leader as it was when it sent the frame that the follower applied last. -/
theorem get_follower_eq_setDelete :
    ∃ s ∈ runAll step (fun s a => s.Fitting a ∧ s.Serial a) (start oneShard oneShard 60 0) setDelete,
      s.synced = 1 ∧ s.leader.content [1] = none ∧ s.follower.content [1] = some ([2], 50) ∧
        ∃ kv, s.sent[s.synced]? = some kv ∧
          ∃ r, Answers s.follower [1] 9 r ∧ Answers kv [1] 9 r := by
  obtain ⟨s, hs, hclock, hsynced, hl, hf⟩ :
      ∃ s ∈ runAll step (fun s a => s.Fitting a ∧ s.Serial a) (start oneShard oneShard 60 0) setDelete,
        s.clock = 5 ∧ s.synced = 1 ∧ s.leader.content [1] = none ∧
          s.follower.content [1] = some ([2], 50) := by
    decide +kernel
  have hnew := newKVStore_oneShard fun _ => Eviction.byKey
  obtain ⟨kv, hkv, hget⟩ := get_follower_eq le_rfl le_rfl hnew hnew rfl (reach_of_runAll hs)
  exact ⟨s, hs, hsynced, hl, hf, kv, hkv, hget [1] 9 (by rw [hclock]; decide)⟩

end Joined

end Replication

end Cluster
end Keva
