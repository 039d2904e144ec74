/-
# The followers of a leader

`cluster/leader.go`: a `Leader` has the connections on which followers have joined, by the
address each of them gave, and writes every broadcast to all of them.  A connection on which
a write fails is closed and dropped, and one on which reading fails is dropped by its
address, whichever connection stands there by then.

Connections are numbered in the order in which they were dialed.  A write may fail at any
time, after any part of the frame; on an end that this side has closed it always does, before
the first byte.
-/

import Keva.Cluster.Raft
import Keva.Lib.RangeOrder
import Keva.Lib.Reach

namespace Keva
namespace Cluster

/-- A connection that `syncWithLeader` has dialed: the node at either end, the bytes on their
way to the server and back, and whether the server has closed it. -/
structure Conn where
  dialer : Addr
  server : Addr
  up : Bytes
  down : Bytes
  closed : Bool
  deriving DecidableEq

/-- `conn.Write` of the server, which fails after `cut` bytes if that is a number, and
whether it succeeded. -/
def Conn.write (conn : Conn) (frame : Bytes) (cut : Option ℕ) : Conn × Bool :=
  if conn.closed then (conn, false)
  else
    match cut with
    | none => ({ conn with down := conn.down ++ frame }, true)
    | some n => ({ conn with down := conn.down ++ frame.take n }, false)

/-- The connection after a broadcast has written to it: closed if that failed. -/
def Conn.sent (conn : Conn) (frame : Bytes) (cut : Option ℕ) : Conn :=
  { conn with down := conn.down ++ cut.elim frame frame.take, closed := cut.isSome }

/-- `cluster.Leader`: the connections by the address of their follower, and the index of the last
broadcast. -/
structure Leader where
  followers : Dict Addr ℕ
  logIndex : UInt64

/-- `NewLeader`. -/
def newLeader : Leader := ⟨∅, 0⟩

/-- Ranging in increasing order of the addresses. -/
def Network.byAddr : RangeOrder Addr ℕ := .sorted fun a b : Bytes => a ≤ b

/-- The same order, which the kernel can evaluate. -/
def Network.inAddrOrder : RangeOrder Addr ℕ := .insertionSorted fun a b : Bytes => a ≤ b

namespace Leader

/-- The critical section of `AddFollower`. -/
def addFollower (l : Leader) (nodeAddr : Addr) (c : ℕ) : Leader :=
  { l with followers := l.followers.insert nodeAddr c }

/-- `removeFollower`: whatever connection stands under the address is closed and removed, which
need not be the one that the caller has in mind. -/
def removeFollower (l : Leader) (conns : List Conn) (nodeAddr : Addr) : Leader × List Conn :=
  match l.followers.lookup nodeAddr with
  | none => (l, conns)
  | some c =>
    ({ l with followers := l.followers.erase nodeAddr },
      match conns[c]? with
      | none => conns
      | some conn => conns.set c { conn with closed := true })

/-- One round of the loop of `broadcast`: the connections, and the addresses where the write
failed. -/
def writeTo (l : Leader) (frame : Bytes) (cuts : ℕ → Option ℕ)
    (acc : List Conn × List Addr) (addr : Addr) : List Conn × List Addr :=
  match l.followers.lookup addr with
  | none => acc
  | some c =>
    match acc.1[c]? with
    | none => acc
    | some conn =>
      match conn.write frame (cuts c) with
      | (conn, true) => (acc.1.set c conn, acc.2)
      | (conn, false) => (acc.1.set c conn, acc.2 ++ [addr])

/-- The critical section of `broadcast`: connection `c` fails as `cuts c` says.  What it does
with a dead follower is what `removeFollower` does. -/
def broadcast (l : Leader) (range : RangeOrder Addr ℕ) (frame : Bytes) (cuts : ℕ → Option ℕ)
    (conns : List Conn) : Leader × List Conn :=
  let (conns, dead) := (range.keys l.followers).foldl (l.writeTo frame cuts) (conns, [])
  dead.foldl (fun (l, conns) addr => l.removeFollower conns addr) (l, conns)

/-! ### Who is at the other end -/

variable {l : Leader} {conns : List Conn} {frame : Bytes} {cuts : ℕ → Option ℕ}

/-- Writing to a connection does not change where it leads. -/
theorem server_write (conn : Conn) (frame : Bytes) (cut : Option ℕ) :
    (conn.write frame cut).1.server = conn.server := by
  unfold Conn.write
  cases cut <;> split_ifs <;> rfl

/-- Nor does removing a follower. -/
theorem servers_removeFollower (l : Leader) (conns : List Conn) (nodeAddr : Addr) :
    (l.removeFollower conns nodeAddr).2.map Conn.server = conns.map Conn.server := by
  unfold removeFollower
  cases l.followers.lookup nodeAddr with
  | none => rfl
  | some c =>
    cases hc : conns[c]? with
    | none => simp only [hc]
    | some conn =>
      simp only [hc]
      exact map_set_eq hc rfl

/-- Nor does the write of a broadcast change which nodes a connection is between: it exchanges a
connection for one that leads to the same node. -/
theorem servers_writeTo (acc : List Conn × List Addr) (addr : Addr) :
    (l.writeTo frame cuts acc addr).1.map Conn.server = acc.1.map Conn.server := by
  unfold writeTo
  cases l.followers.lookup addr with
  | none => rfl
  | some c =>
    cases hc : acc.1[c]? with
    | none => simp only [hc]
    | some conn =>
      have hserver := server_write conn frame (cuts c)
      simp only [hc]
      rcases hw : conn.write frame (cuts c) with ⟨conn', ok⟩
      rw [hw] at hserver
      cases ok <;> exact map_set_eq hc hserver

/-- **A broadcast leaves every connection between the nodes it was between,** whichever writes
fail: it writes on connections and closes some, and makes none. -/
theorem servers_broadcast (l : Leader) (range : RangeOrder Addr ℕ) (frame : Bytes)
    (cuts : ℕ → Option ℕ) (conns : List Conn) :
    (l.broadcast range frame cuts conns).2.map Conn.server = conns.map Conn.server := by
  have hwrite : ∀ (addrs : List Addr) (acc : List Conn × List Addr),
      (addrs.foldl (l.writeTo frame cuts) acc).1.map Conn.server = acc.1.map Conn.server := by
    intro addrs
    induction addrs with
    | nil => exact fun acc => rfl
    | cons addr addrs ih => exact fun acc => (ih _).trans (servers_writeTo acc addr)
  have hremove : ∀ (dead : List Addr) (x : Leader × List Conn),
      (dead.foldl (fun (l, conns) addr => l.removeFollower conns addr) x).2.map Conn.server =
        x.2.map Conn.server := by
    intro dead
    induction dead with
    | nil => exact fun x => rfl
    | cons addr dead ih => exact fun x => (ih _).trans (servers_removeFollower x.1 x.2 addr)
  exact (hremove _ _).trans (hwrite _ _)

/-! ### What a broadcast does -/

/-- The address is gone, and the connection that stood there is closed, whosever it was; all
other connections and addresses are as they were. -/
theorem removeFollower_spec (l : Leader) (conns : List Conn) (addr : Addr) :
    (∀ a, (l.removeFollower conns addr).1.followers.lookup a =
        if a = addr then none else l.followers.lookup a) ∧
      (l.removeFollower conns addr).1.logIndex = l.logIndex ∧
      ∀ c : ℕ, (l.removeFollower conns addr).2[c]? =
        if l.followers.lookup addr = some c then conns[c]?.map fun conn => { conn with closed := true }
        else conns[c]? := by
  unfold removeFollower
  cases haddr : l.followers.lookup addr with
  | none =>
    refine ⟨fun a => ?_, rfl, fun c => rfl⟩
    split_ifs with ha
    · rw [ha]
      exact haddr
    · rfl
  | some d =>
    refine ⟨fun a => ?_, rfl, fun c => ?_⟩
    · show (l.followers.erase addr).lookup a = _
      split_ifs with ha
      · rw [ha, Finmap.lookup_erase]
      · exact Finmap.lookup_erase_ne ha
    · cases hd : conns[d]? with
      | none =>
        simp only [hd]
        split_ifs with hc
        · obtain rfl := Option.some.inj hc
          rw [hd]
          rfl
        · rfl
      | some conn =>
        simp only [hd]
        split_ifs with hc
        · obtain rfl := Option.some.inj hc
          rw [hd, List.getElem?_set_self (List.getElem?_eq_some_iff.1 hd).1]
          rfl
        · exact List.getElem?_set_ne fun heq => hc (congrArg some heq)

/-- The second loop of `broadcast`, over the addresses whose write has failed: each is removed,
and its connection closed.  By induction on these addresses. -/
theorem foldl_removeFollower (dead : List Addr) (l : Leader) (conns : List Conn) :
    let r := dead.foldl (fun (l, conns) addr => l.removeFollower conns addr) (l, conns)
    (∀ a, r.1.followers.lookup a = if a ∈ dead then none else l.followers.lookup a) ∧
      r.1.logIndex = l.logIndex ∧
      (∀ a ∈ dead, ∀ c : ℕ, l.followers.lookup a = some c →
        r.2[c]? = conns[c]?.map fun conn => { conn with closed := true }) ∧
      ∀ c : ℕ, (∀ a ∈ dead, l.followers.lookup a ≠ some c) → r.2[c]? = conns[c]? := by
  induction dead generalizing l conns with
  | nil =>
    refine ⟨fun a => ?_, rfl, fun a ha => absurd ha List.not_mem_nil, fun c _ => rfl⟩
    rw [if_neg List.not_mem_nil]
    rfl
  | cons addr dead ih =>
    obtain ⟨hlookup, hindex, hconn⟩ := removeFollower_spec l conns addr
    obtain ⟨ihlookup, ihindex, ihclosed, ihothers⟩ :=
      ih (l.removeFollower conns addr).1 (l.removeFollower conns addr).2
    refine ⟨fun a => ?_, ihindex.trans hindex, fun a ha c hc => ?_, fun c hc => ?_⟩
    · refine (ihlookup a).trans ?_
      rw [hlookup]
      by_cases ha : a = addr
      · simp [ha]
      · simp [ha]
    · by_cases hlater : ∃ b ∈ dead, (l.removeFollower conns addr).1.followers.lookup b = some c
      · obtain ⟨b, hb, hbc⟩ := hlater
        refine (ihclosed b hb c hbc).trans ?_
        rw [hconn]
        split_ifs
        · rw [Option.map_map]
          rfl
        · rfl
      · -- No later round comes back to this connection, so this one closes it.
        refine (ihothers c fun b hb hbc => hlater ⟨b, hb, hbc⟩).trans ?_
        have haddr : a = addr := by
          by_contra hne
          have ha' : a ∈ dead := (List.mem_cons.1 ha).resolve_left hne
          exact hlater ⟨a, ha', by rw [hlookup, if_neg hne, hc]⟩
        rw [hconn, if_pos (haddr ▸ hc)]
    · refine (ihothers c fun b hb hbc => ?_).trans ?_
      · rw [hlookup] at hbc
        split_ifs at hbc
        exact hc b (List.mem_cons_of_mem _ hb) hbc
      · rw [hconn, if_neg (hc addr List.mem_cons_self)]

/-- Every address has a connection of its own, and it is open.  This is what `addFollower` and
`removeFollower` keep, and what a broadcast relies on. -/
structure Sound (l : Leader) (conns : List Conn) : Prop where
  injective : ∀ {a b c}, l.followers.lookup a = some c → l.followers.lookup b = some c → a = b
  isOpen : ∀ {a c}, l.followers.lookup a = some c →
    ∃ conn, conns[c]? = some conn ∧ conn.closed = false

/-- What the write of a broadcast to one follower leads to: the frame is behind what was on the
connection, in full, or cut short where the write fails, and then the follower is to be removed. -/
theorem writeTo_eq {addr : Addr} {c : ℕ} {conn : Conn} (hc : l.followers.lookup addr = some c)
    (hconn : conns[c]? = some conn) (hopen : conn.closed = false) (dead : List Addr) :
    l.writeTo frame cuts (conns, dead) addr =
      (conns.set c { conn with down := conn.down ++ (cuts c).elim frame frame.take },
        if (cuts c).isSome then dead ++ [addr] else dead) := by
  unfold writeTo Conn.write
  cases hcut : cuts c with
  | none => simp [hc, hconn, hopen, hcut]
  | some n => simp [hc, hconn, hopen, hcut]

/-- The first loop of `broadcast`, over the followers: every one gets the frame or the beginning
of it, and the addresses whose write failed are put down.  By induction on the addresses still to
come. -/
theorem foldl_writeTo (h : l.Sound conns) (frame : Bytes) (cuts : ℕ → Option ℕ) {addrs : List Addr}
    (hnodup : addrs.Nodup) (dead : List Addr) :
    let r := addrs.foldl (l.writeTo frame cuts) (conns, dead)
    r.2 = dead ++ addrs.filter (fun a => ((l.followers.lookup a).bind cuts).isSome) ∧
      (∀ a ∈ addrs, ∀ (c : ℕ) (conn : Conn), l.followers.lookup a = some c → conns[c]? = some conn →
        r.1[c]? = some { conn with down := conn.down ++ (cuts c).elim frame frame.take }) ∧
      ∀ c : ℕ, (∀ a ∈ addrs, l.followers.lookup a ≠ some c) → r.1[c]? = conns[c]? := by
  induction addrs generalizing conns dead with
  | nil =>
    refine ⟨(List.append_nil dead).symm, fun a ha => absurd ha List.not_mem_nil, fun c _ => rfl⟩
  | cons addr addrs ih =>
    obtain ⟨hnew, hnodup⟩ := List.nodup_cons.1 hnodup
    rw [List.foldl_cons, List.filter_cons]
    cases haddr : l.followers.lookup addr with
    | none =>
      have hskip : l.writeTo frame cuts (conns, dead) addr = (conns, dead) := by
        simp [writeTo, haddr]
      rw [hskip]
      obtain ⟨ihdead, ihwritten, ihothers⟩ := ih h hnodup dead
      refine ⟨by simpa using ihdead, fun a ha c conn hc => ?_, fun c hc => ?_⟩
      · rcases List.mem_cons.1 ha with rfl | ha
        · rw [haddr] at hc
          cases hc
        · exact ihwritten a ha c conn hc
      · exact ihothers c fun a ha => hc a (List.mem_cons_of_mem _ ha)
    | some d =>
      obtain ⟨conn₀, hconn₀, hopen⟩ := h.isOpen haddr
      obtain ⟨hlt, -⟩ := List.getElem?_eq_some_iff.1 hconn₀
      rw [writeTo_eq haddr hconn₀ hopen dead]
      -- The other addresses have other connections.
      have hother : ∀ a ∈ addrs, ∀ c, l.followers.lookup a = some c → d ≠ c := by
        rintro a ha c hc rfl
        exact hnew (h.injective hc haddr ▸ ha)
      have hsound : l.Sound (conns.set d
          { conn₀ with down := conn₀.down ++ (cuts d).elim frame frame.take }) := by
        refine ⟨h.injective, fun {a c} hc => ?_⟩
        by_cases hdc : d = c
        · subst hdc
          exact ⟨_, List.getElem?_set_self hlt, hopen⟩
        · rw [List.getElem?_set_ne hdc]
          exact h.isOpen hc
      obtain ⟨ihdead, ihwritten, ihothers⟩ := ih hsound hnodup
        (if (cuts d).isSome then dead ++ [addr] else dead)
      refine ⟨?_, fun a ha c conn hc hconn => ?_, fun c hc => ?_⟩
      · rw [ihdead]
        cases hcut : cuts d with
        | none => simp [hcut]
        | some n => simp [hcut]
      · rcases List.mem_cons.1 ha with rfl | ha
        · obtain rfl : d = c := Option.some.inj (haddr.symm.trans hc)
          obtain rfl : conn₀ = conn := Option.some.inj (hconn₀.symm.trans hconn)
          rw [ihothers d fun a ha hd => hother a ha d hd rfl, List.getElem?_set_self hlt]
        · refine ihwritten a ha c conn hc ?_
          rw [List.getElem?_set_ne (hother a ha c hc), hconn]
      · rw [ihothers c fun a ha => hc a (List.mem_cons_of_mem _ ha), List.getElem?_set_ne]
        rintro rfl
        exact hc addr List.mem_cons_self haddr

/-- What a broadcast does where `cuts` says which writes fail: every registered connection gets
the frame or the beginning of it, those with a failed write are removed, and the others are left
alone. -/
structure Broadcast (l : Leader) (conns : List Conn) (frame : Bytes) (cuts : ℕ → Option ℕ)
    (r : Leader × List Conn) : Prop where
  followers : ∀ a, r.1.followers.lookup a = (l.followers.lookup a).filter fun c => (cuts c).isNone
  logIndex : r.1.logIndex = l.logIndex
  written : ∀ {a c conn}, l.followers.lookup a = some c → conns[c]? = some conn →
    r.2[c]? = some (conn.sent frame (cuts c))
  others : ∀ {c : ℕ}, (∀ a, l.followers.lookup a ≠ some c) → r.2[c]? = conns[c]?

/-- **A broadcast writes to every follower once, and drops those where that fails.** -/
theorem broadcast_spec (h : l.Sound conns) (range : RangeOrder Addr ℕ) (frame : Bytes)
    (cuts : ℕ → Option ℕ) : Broadcast l conns frame cuts (l.broadcast range frame cuts conns) := by
  obtain ⟨hdead, hwritten, hothers⟩ :=
    foldl_writeTo h frame cuts (range.nodup l.followers) []
  have hmem : ∀ {a c}, l.followers.lookup a = some c → a ∈ range.keys l.followers :=
    fun hc => range.mem_keys.2 (Finmap.mem_of_lookup_eq_some hc)
  have hdead_iff : ∀ {a c}, l.followers.lookup a = some c →
      (a ∈ ((range.keys l.followers).foldl (l.writeTo frame cuts) (conns, [])).2 ↔
        (cuts c).isSome) := by
    intro a c hc
    rw [hdead, List.nil_append, List.mem_filter, hc]
    exact and_iff_right (hmem hc)
  obtain ⟨hlookup, hindex, hclosed, hkept⟩ := foldl_removeFollower
    ((range.keys l.followers).foldl (l.writeTo frame cuts) (conns, [])).2 l
    ((range.keys l.followers).foldl (l.writeTo frame cuts) (conns, [])).1
  refine ⟨fun a => ?_, hindex, fun {a c conn} hc hconn => ?_, fun {c} hc => ?_⟩
  · refine (hlookup a).trans ?_
    cases hc : l.followers.lookup a with
    | none => simp
    | some c =>
      simp only [hdead_iff hc, Option.filter_some]
      cases hcut : cuts c with
      | none => simp
      | some n => simp
  · have hone := hwritten a (hmem hc) c conn hc hconn
    obtain ⟨conn', hconn', hopen⟩ := h.isOpen hc
    obtain rfl : conn = conn' := Option.some.inj (hconn.symm.trans hconn')
    cases hcut : cuts c with
    | none =>
      refine (hkept c fun b hb hbc => ?_).trans (hone.trans ?_)
      · rw [hdead_iff hbc, hcut] at hb
        cases hb
      · rw [hcut, Conn.sent, hopen]
        rfl
    | some n =>
      refine (hclosed a ((hdead_iff hc).2 (by rw [hcut]; rfl)) c hc).trans ?_
      rw [hone, hcut]
      rfl
  · exact (hkept c fun b _ => hc b).trans (hothers c fun b _ => hc b)

end Leader

end Cluster
end Keva
