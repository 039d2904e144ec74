/-
# A crash in the mode `interval`

One client at a time calls `SetWithExpiry`, `Delete` and `Compact` on a store whose log
has a flusher (`storage/wal/wal_writer.go`, `storage/wal/wal_compaction.go`).  What a call
appends waits in the channel and in the flusher's batch and reaches the file later, one
record after the other.

Without a compaction the file always holds the first of the accepted writes.  A compaction
puts a snapshot of the memory in place of the file, and the records that still wait are
older than that snapshot: written behind it, each of them undoes for a while what came
after it on its key (`compaction_mixes_writes`).  If those that wait at the rename are all
still in force, nothing is undone, and a crash at any moment leaves a log from which
the content after some of the first accepted writes is rebuilt (`rebuilt_of_inForce`).
-/

import Keva.Store.Settled
import Keva.Wal.Flusher

namespace Keva
namespace Store

open Eviction (Range)
open Expiry (Content Write visible loaded AgreeFrom)

/-- The store with its calls, and the flusher of its log.  `accepted` is read by no
step: the calls whose append has returned, in order. -/
structure Interval where
  sys : System
  flusher : Wal.Flusher
  accepted : List Call

namespace Interval

/-- A step of the store, where an append goes to the buffer of the channel; an append that
hands its record straight to the flusher; and a step of the flusher. -/
inductive Action
  | system (a : Store.Action)
  | handOver (c : Call)
  | flusher (a : Wal.Flusher.Action)

/-- The client makes one call at a time, the channel has room for twice a batch, and the
rename needs the mutex of the log. -/
def Admits (s : Interval) : Store.Action → Prop
  | .append _ => s.sys.Idle ∧ s.sys.kv.wal.writeCh.length < s.sys.kv.wal.options.maxBatchSize * 2
  | .openTmp => s.sys.Idle
  | .swap _ => s.flusher.writing = false
  | _ => True

instance (s : Interval) : (a : Store.Action) → Decidable (s.Admits a)
  | .append _ => inferInstanceAs (Decidable (_ ∧ _))
  | .openTmp => inferInstanceAs (Decidable s.sys.Idle)
  | .swap _ => inferInstanceAs (Decidable (_ = false))
  | .tick _ | .apply _ _ | .sweep _ _ _ | .scan _ _ | .spill _ _ | .close _ | .remove _ =>
    isTrue trivial

/-- The log of the store after a step of the flusher. -/
def withWal (s : Interval) (flusher : Wal.Flusher) (wal : Wal.WAL) : Interval :=
  { s with sys := { s.sys with kv := { s.sys.kv with wal := wal } }, flusher := flusher }

/-- The store goes on as in any mode, as far as `Admits` lets it; without a buffer an append meets
the flusher at once.  The flusher takes its own steps, and is never told to stop. -/
def step (s : Interval) : Action → Option Interval
  | .system a =>
    if s.Admits a then
      (s.sys.step a).map fun sys => { s with sys := sys, accepted := s.accepted ++ a.call?.toList }
    else none
  | .handOver c =>
    if s.sys.Idle ∧ s.sys.kv.wal.options.maxBatchSize = 0 then do
      let sys ← s.sys.step (.append c)
      let (flusher, wal) ← s.flusher.step sys.kv.wal .receive
      return withWal { s with sys := sys, accepted := s.accepted ++ [c] } flusher wal
    else none
  | .flusher a =>
    if a = .stop then none
    else do
      let (flusher, wal) ← s.flusher.step s.sys.kv.wal a
      return s.withWal flusher wal

/-- The store as it was opened. -/
def start (kv : KVStore) (stale : Option Bytes) (t : Time) : Interval :=
  ⟨System.start kv stale t, ⟨[], .select⟩, []⟩

/-- The accepted calls whose records have not reached the file. -/
def pending (s : Interval) : List Call :=
  s.accepted.drop (s.accepted.length - (s.flusher.waiting s.sys.kv.wal).length)

/-- What is appended fits the format, and at the rename every record that still waits is
in force: the memory holds for its key what it wrote, or both have expired. -/
def InForce (s : Interval) : Action → Prop
  | .system (.append c) | .handOver c => c.record.Fits
  | .system (.swap _) => ∀ c ∈ s.pending,
    loaded s.sys.clock c.write.entry = loaded s.sys.clock (s.sys.kv.content c.key)
  | _ => True

instance (s : Interval) (a : Action) : Decidable (s.InForce a) := by
  unfold InForce
  split <;> infer_instance

/-! ### The file and the records that wait -/

/-- A file with the calls that wait to be written behind it, out of all that were
accepted since the content was `m₀`: with all of them it shows, from time `t` on, what all
of the accepted ones leave behind, and with some of the first ones, what some of the first
accepted ones leave behind. -/
structure Queued (m₀ : Content Key Bytes Time) (t : Time) (file : Bytes)
    (rest accepted : List Call) : Prop where
  read : (Wal.replay file).2 = none
  suffix : rest <:+ accepted
  fits : ∀ c ∈ rest, c.record.Fits
  last : ∀ t', t < t' → AgreeFrom t' (Expiry.replay (rest.map Call.write) (logContent file))
    (Expiry.replay (accepted.map Call.write) m₀)
  cut : ∀ front, front <+: rest → ∃ done, done <+: accepted ∧ ∀ t', t < t' →
    AgreeFrom t' (Expiry.replay (front.map Call.write) (logContent file))
      (Expiry.replay (done.map Call.write) m₀)

variable {m₀ : Content Key Bytes Time} {t t' t₀ : Time} {file : Bytes}
  {rest accepted : List Call} {c : Call}

/-- What a file shows from some moment on, it shows from any later one on. -/
theorem Queued.mono (h : Queued m₀ t file rest accepted) (ht : t ≤ t') :
    Queued m₀ t' file rest accepted := by
  refine ⟨h.read, h.suffix, h.fits, fun x hx => h.last x (ht.trans_lt hx), fun front hf => ?_⟩
  obtain ⟨done, hdone, hagree⟩ := h.cut front hf
  exact ⟨done, hdone, fun x hx => hagree x (ht.trans_lt hx)⟩

/-- An append joins the end of the queue, and is the last of all calls accepted so far. -/
theorem Queued.append (h : Queued m₀ t file rest accepted) (hc : c.record.Fits) :
    Queued m₀ t file (rest ++ [c]) (accepted ++ [c]) := by
  have hlast : ∀ t', t < t' →
      AgreeFrom t' (Expiry.replay ((rest ++ [c]).map Call.write) (logContent file))
        (Expiry.replay ((accepted ++ [c]).map Call.write) m₀) := by
    intro t' ht
    rw [List.map_append, List.map_append, Expiry.replay_append, Expiry.replay_append]
    exact (h.last t' ht).replay _
  refine ⟨h.read, ?_, ?_, hlast, ?_⟩
  · obtain ⟨written, rfl⟩ := h.suffix
    exact ⟨written, (List.append_assoc ..).symm⟩
  · intro x hx
    rcases List.mem_append.1 hx with hx | hx
    · exact h.fits x hx
    · rwa [List.mem_singleton.1 hx]
  · intro front hfront
    rcases List.prefix_concat_iff.1 hfront with rfl | hfront
    · exact ⟨accepted ++ [c], List.prefix_rfl, hlast⟩
    · obtain ⟨done, hdone, hagree⟩ := h.cut front hfront
      exact ⟨done, hdone.trans (List.prefix_append _ _), hagree⟩

/-- The first record that waits reaches the file. -/
theorem Queued.write (h : Queued m₀ t file (c :: rest) accepted) :
    Queued m₀ t (file ++ c.record.encode) rest accepted := by
  obtain ⟨hread, hlog⟩ :=
    logContent_append h.read (h.fits c List.mem_cons_self) (Call.writeOf_record c)
  refine ⟨hread, (List.suffix_cons c rest).trans h.suffix,
    fun x hx => h.fits x (List.mem_cons_of_mem _ hx), ?_, ?_⟩
  · rw [hlog]
    exact h.last
  · intro front hfront
    rw [hlog]
    exact h.cut (c :: front) (List.cons_prefix_cons.2 ⟨rfl, hfront⟩)

/-- **The rename.**  The new file shows what all accepted calls leave behind; the records
that wait are in force, so it does with any of them written behind it. -/
theorem Queued.swap (h : Queued m₀ t file rest accepted) {bytes : Bytes}
    (hread : (Wal.replay bytes).2 = none) {m : Content Key Bytes Time}
    (hm : ∀ t', t < t' → AgreeFrom t' m (Expiry.replay (accepted.map Call.write) m₀))
    (hlog : ∀ t', t < t' → AgreeFrom t' (logContent bytes) m)
    (hforce : ∀ c ∈ rest, loaded t c.write.entry = loaded t (m c.key)) :
    Queued m₀ t bytes rest accepted := by
  have hsame : ∀ front, front <+: rest → ∀ t', t < t' →
      AgreeFrom t' (Expiry.replay (front.map Call.write) (logContent bytes))
        (Expiry.replay (accepted.map Call.write) m₀) := by
    intro front hfront t' ht
    refine AgreeFrom.trans ((hlog t' ht).replay_of_inForce fun w hw => ?_) (hm t' ht)
    obtain ⟨c, hc, rfl⟩ := List.mem_map.1 hw
    rw [Call.key_write]
    exact Expiry.visible_eq_of_loaded_eq (hforce c (hfront.subset hc)) ht
  refine ⟨hread, h.suffix, h.fits, hsame rest List.prefix_rfl, fun front hfront => ?_⟩
  exact ⟨accepted, List.prefix_rfl, hsame front hfront⟩

end Interval

/-! ### Where no key has a shard -/

/-- Nothing is in the log, and nothing in what a compaction has written. -/
structure Blank (s : System) : Prop where
  log : (Wal.replay s.kv.wal.file).1 = []
  tmp : ∀ x bytes, s.compactions = [x] → s.tmp = some (x.file, bytes) → bytes ++ x.buffer = []

/-- Bytes of the buffer reach the file: there are none. -/
theorem Blank.write {t₀ : Time} {s : System} {x y : Compaction} {bytes data : Bytes} (h : Blank s)
    (hcore : System.Core t₀ s) (hone : s.compactions = [x]) (hx : System.Snapshot t₀ s x bytes)
    (hbuffer : data ++ y.buffer = x.buffer) :
    Blank ((s.write x.file x.offset data).update 0 y) := by
  rw [System.write_eq hcore hx]
  refine ⟨h.log, fun z bytes' hz htmp => ?_⟩
  unfold System.update at hz
  rw [hone] at hz
  obtain rfl := (List.cons.inj hz).1
  obtain ⟨-, rfl⟩ := Prod.mk.inj (Option.some.inj htmp)
  rw [List.append_assoc, hbuffer]
  exact h.tmp x bytes hone hx.tmp_eq

/-- Without shards for keys no call returns, and a compaction finds nothing, so that the files
stay empty of records. -/
theorem Blank.step {t₀ : Time} {s s' : System} {a : Action} (h : Blank s)
    (hcore : System.Core t₀ s) (h0 : s.kv.shardCount = 0) (hun : s.Undisturbed a)
    (hs : s.step a = some s') : Blank s' := by
  cases a with
  | tick t =>
    simp only [System.step] at hs
    split_ifs at hs
    obtain rfl := Option.some.inj hs
    exact ⟨h.log, h.tmp⟩
  | append c =>
    obtain ⟨i, hi, -⟩ := Option.bind_eq_some_iff.1 hs
    rw [KVStore.getShard_of_shardCount_eq_zero h0] at hi
    cases hi
  | apply j ranges =>
    obtain ⟨c, hc, -⟩ := Option.bind_eq_some_iff.1 hs
    exact absurd h0 (hcore.sharded (List.ne_nil_of_mem (List.mem_of_getElem? hc)))
  | sweep i range now =>
    obtain ⟨shard, -, hs⟩ := Option.bind_eq_some_iff.1 hs
    split_ifs at hs
    obtain rfl := Option.some.inj hs
    exact ⟨h.log, h.tmp⟩
  | openTmp =>
    obtain rfl := Option.some.inj hs
    refine ⟨h.log, fun x bytes hx htmp => ?_⟩
    have hnil : s.compactions = [] := hun
    rw [hnil] at hx
    obtain rfl := (List.cons.inj hx).1
    obtain ⟨-, rfl⟩ := Prod.mk.inj (Option.some.inj htmp)
    rfl
  | scan j range =>
    obtain ⟨x, hj, hs⟩ := Option.bind_eq_some_iff.1 hs
    obtain ⟨shard, hshard, hs⟩ := Option.bind_eq_some_iff.1 hs
    split_ifs at hs
    obtain rfl := Option.some.inj hs
    obtain ⟨rfl, hone, bytes, hx⟩ := hcore.compaction_of_getElem? hj
    refine ⟨h.log, fun y bytes' hy htmp => ?_⟩
    rw [hcore.regular.snapshot_eq_nil h0 hshard] at hy
    unfold System.update at hy
    rw [hone] at hy
    obtain rfl := (List.cons.inj hy).1
    have hnil := h.tmp x bytes' hone htmp
    simpa using hnil
  | spill j n =>
    obtain ⟨x, hj, hs⟩ := Option.bind_eq_some_iff.1 hs
    split_ifs at hs
    obtain rfl := Option.some.inj hs
    obtain ⟨rfl, hone, bytes, hx⟩ := hcore.compaction_of_getElem? hj
    exact h.write hcore hone hx (List.take_append_drop n x.buffer)
  | close j =>
    obtain ⟨x, hj, hs⟩ := Option.bind_eq_some_iff.1 hs
    split_ifs at hs
    obtain rfl := Option.some.inj hs
    obtain ⟨rfl, hone, bytes, hx⟩ := hcore.compaction_of_getElem? hj
    exact h.write hcore hone hx (List.append_nil _)
  | swap j =>
    obtain ⟨x, hj, hs⟩ := Option.bind_eq_some_iff.1 hs
    split_ifs at hs
    obtain ⟨rfl, hone, bytes, hx⟩ := hcore.compaction_of_getElem? hj
    rw [hx.tmp_eq] at hs
    obtain rfl := Option.some.inj hs
    obtain ⟨rfl, -⟩ := List.append_eq_nil_iff.1 (h.tmp x bytes hone hx.tmp_eq)
    refine ⟨rfl, fun y _ hy => ?_⟩
    rw [hone] at hy
    cases hy
  | remove j =>
    obtain ⟨x, hj, hs⟩ := Option.bind_eq_some_iff.1 hs
    split_ifs at hs with hphase
    obtain ⟨-, -, bytes, hx⟩ := hcore.compaction_of_getElem? hj
    exact absurd hphase hx.phase_ne

/-! ### Every step -/

namespace Interval

/-- The client makes one call at a time: a write is on its way alone, or there is none. -/
def Sequential (s : System) : Prop := s.calls = [] ∨ s.compactions = [] ∧ ∃ c, s.calls = [c]

/-- A store opened as `kv₀` at `t₀`: what its memory and its log show now in terms of what
was there at the start and of the calls accepted since. -/
structure Inv (t₀ : Time) (kv₀ : KVStore) (s : Interval) : Prop where
  core : System.Core t₀ s.sys
  mode_eq : s.sys.kv.wal.options.mode = .interval
  count_eq : s.sys.kv.shardCount = kv₀.shardCount
  unused : kv₀.shardCount = 0 → s.accepted = [] ∧ Blank s.sys
  sequential : Sequential s.sys
  settled : ∀ t, s.sys.clock < t →
    AgreeFrom t s.sys.settled (Expiry.replay (s.accepted.map Call.write) kv₀.content)
  queue : ∃ rest, s.flusher.waiting s.sys.kv.wal = rest.map (fun c => c.record.encode) ∧
    Queued kv₀.content s.sys.clock s.sys.kv.wal.file rest s.accepted

variable {s s' : Interval} {a : Action} {kv₀ : KVStore}

/-- The calls that wait are the last ones accepted. -/
theorem pending_eq (hw : s.flusher.waiting s.sys.kv.wal = rest.map fun c => c.record.encode)
    (hsuffix : rest <:+ s.accepted) : s.pending = rest := by
  obtain ⟨written, hacc⟩ := hsuffix
  unfold pending
  rw [hw, ← hacc, List.length_append, List.length_map, Nat.add_sub_cancel, List.drop_left]

/-- Calls of one client at a time are in order, and disturb no compaction: there is no other call
to overtake and none beside a compaction. -/
theorem ordered_of_sequential {s : System} {a : Store.Action} (h : Sequential s)
    (hidle : a.call?.isSome ∨ a.opensTmp = true → s.Idle) (hfits : ∀ c ∈ a.call?, c.record.Fits) :
    s.InOrder a ∧ s.Undisturbed a := by
  cases a with
  | append c =>
    refine ⟨hfits c rfl, fun x hx => ?_⟩
    rw [(hidle (Or.inl rfl)).2] at hx
    cases hx
  | apply j ranges =>
    refine ⟨fun c hc c' hc' => ?_, trivial⟩
    rcases h with hnil | ⟨-, y, hone⟩
    · rw [hnil] at hc
      cases hc
    · rw [hone] at hc hc'
      cases j with
      | zero => cases hc'
      | succ j => cases hc
  | openTmp => exact ⟨trivial, (hidle (Or.inr rfl)).2⟩
  | scan j range =>
    refine ⟨trivial, fun x hx c hc => ?_⟩
    rcases h with hnil | ⟨hnone, -⟩
    · rw [hnil] at hc
      cases hc
    · rw [hnone] at hx
      cases hx
  | _ => exact ⟨trivial, trivial⟩

/-- A client that waits for each call to return makes one at a time, and the steps of its call
leave it so. -/
theorem Sequential.step {s s' : System} {a : Store.Action} (h : Sequential s)
    (hidle : a.call?.isSome ∨ a.opensTmp = true → s.Idle) (hs : s.step a = some s') :
    Sequential s' := by
  have hcalls := (System.step_frame hs).2
  have hquiet (hsame : s'.calls = s.calls) (hopen : a.opensTmp = false) : Sequential s' := by
    rcases h with hnil | ⟨hnone, c, hone⟩
    · exact Or.inl (hsame.trans hnil)
    · exact Or.inr ⟨System.compactions_step hnone hopen hs, c, hsame.trans hone⟩
  cases a with
  | append c =>
    obtain ⟨hnil, hnone⟩ := hidle (Or.inl rfl)
    refine Or.inr ⟨System.compactions_step hnone rfl hs, c, ?_⟩
    rw [hcalls, hnil]
    rfl
  | apply j ranges =>
    refine Or.inl ?_
    obtain ⟨c, hc, -⟩ := Option.bind_eq_some_iff.1 hs
    rcases h with hnil | ⟨-, y, hone⟩
    · rw [hnil] at hc
      cases hc
    · rw [hcalls, hone]
      rw [hone] at hc
      cases j with
      | zero => rfl
      | succ j => cases hc
  | openTmp => exact Or.inl (hcalls.trans (hidle (Or.inr rfl)).1)
  | _ => exact hquiet hcalls rfl

/-- **A step of the store.**  Calls and compactions begin when no other is on its way, and a
compaction renames its file when all records that still wait are in force. -/
theorem Inv.system (h : Inv t₀ kv₀ s) {a : Store.Action} {sys : System}
    (hidle : a.call?.isSome ∨ a.opensTmp = true → s.sys.Idle) (hfits : ∀ c ∈ a.call?, c.record.Fits)
    (hforce : ∀ j, a = .swap j → ∀ c ∈ s.pending,
      loaded s.sys.clock c.write.entry = loaded s.sys.clock (s.sys.kv.content c.key))
    (hs : s.sys.step a = some sys) :
    Inv t₀ kv₀ { s with sys := sys, accepted := s.accepted ++ a.call?.toList } := by
  obtain ⟨hin, hun⟩ := ordered_of_sequential h.sequential hidle hfits
  obtain ⟨hcore, hlog⟩ := h.core.step hin hun hs
  have hcount := (System.step_frame hs).1.trans h.count_eq
  have hseq := h.sequential.step hidle hs
  have hblank (h0 : kv₀.shardCount = 0) : Blank sys :=
    (h.unused h0).2.step h.core (h.count_eq.trans h0) hun hs
  obtain ⟨rest, hwait, hqueue⟩ := h.queue
  cases hlog with
  | quiet hcall hclock hwal hset =>
    rw [hcall, Option.toList_none, List.append_nil]
    refine ⟨hcore, hwal ▸ h.mode_eq, hcount, fun h0 => ⟨(h.unused h0).1, hblank h0⟩, hseq, ?_, ?_⟩
    · exact fun t ht => (hset.mono ht.le).trans (h.settled t (hclock.trans_lt ht))
    · exact ⟨rest, by rw [hwal]; exact hwait, by rw [hwal]; exact hqueue.mono hclock⟩
  | @append c hclock hr hwal hset =>
    obtain ⟨hfile, hqueued⟩ := Wal.Flusher.waiting_append (f := s.flusher) h.mode_eq c.record
    refine ⟨hcore, ?_, hcount, fun h0 => ?_, hseq, ?_, rest ++ [c], ?_, ?_⟩
    · rw [hwal, Wal.WAL.append_options]
      exact h.mode_eq
    · obtain ⟨i, hi, -⟩ := Option.bind_eq_some_iff.1 hs
      rw [KVStore.getShard_of_shardCount_eq_zero (h.count_eq.trans h0)] at hi
      cases hi
    · intro t ht
      change AgreeFrom t sys.settled (Expiry.replay ((s.accepted ++ [c]).map Call.write) _)
      rw [hset, List.map_append, Expiry.replay_append]
      exact (h.settled t (hclock ▸ ht)).apply _
    · change s.flusher.waiting sys.kv.wal = _
      rw [hwal, hqueued, hwait, List.map_append]
      rfl
    · change Queued _ sys.clock sys.kv.wal.file _ (s.accepted ++ [c])
      rw [hwal, hfile, hclock]
      exact hqueue.append hr
  | @swap j bytes hclock hread hwal hset hagree =>
    have hcalls : s.sys.calls = [] := by
      obtain ⟨x, hx, -⟩ := Option.bind_eq_some_iff.1 hs
      rcases h.sequential with hnil | ⟨hnone, -⟩
      · exact hnil
      · rw [hnone] at hx
        cases hx
    have hsettled : s.sys.settled = s.sys.kv.content := by
      unfold System.settled
      rw [hcalls]
      rfl
    have hpending := pending_eq hwait hqueue.suffix
    refine ⟨hcore, hwal ▸ h.mode_eq, hcount, fun h0 => ?_, hseq, ?_, rest, ?_, ?_⟩
    · exact ⟨by simpa [Action.call?] using (h.unused h0).1, hblank h0⟩
    · intro t ht
      simpa [Action.call?, hset] using h.settled t (hclock ▸ ht)
    · change s.flusher.waiting sys.kv.wal = _
      rw [hwal]
      exact hwait
    · change Queued _ sys.clock sys.kv.wal.file _ (s.accepted ++ [])
      rw [hwal, hclock, List.append_nil]
      refine hqueue.swap hread h.settled ?_ ?_
      · exact fun t ht => hagree t (h.core.opened.trans_lt ht) ht.le
      · rw [hsettled]
        exact fun c hc => hforce j rfl c (hpending ▸ hc)

/-- **A step of the flusher.**  Records go from the queue to the file, in their order, and the
memory is not concerned. -/
theorem Inv.flusher (h : Inv t₀ kv₀ s) {a : Wal.Flusher.Action} {flusher : Wal.Flusher}
    {wal : Wal.WAL} (hs : s.flusher.step s.sys.kv.wal a = some (flusher, wal)) :
    Inv t₀ kv₀ (s.withWal flusher wal) := by
  obtain ⟨rest, hwait, hqueue⟩ := h.queue
  have hcore : System.Core t₀ (s.withWal flusher wal).sys :=
    h.core.quiet (h.core.regular.withWal wal) h.core.fits rfl rfl (fun _ hc => hc) le_rfl
      (AgreeFrom.refl _ _)
  obtain ⟨hopts, ⟨hfile, hsame⟩ | ⟨b, hfile, hfirst⟩⟩ := Wal.Flusher.step_eq_some hs
  · refine ⟨hcore, hopts ▸ h.mode_eq, h.count_eq, fun h0 => ?_, h.sequential, h.settled, rest,
      hsame.trans hwait, ?_⟩
    · obtain ⟨hacc, hblank⟩ := h.unused h0
      exact ⟨hacc, by rw [← hblank.log, ← hfile]; rfl, hblank.tmp⟩
    · change Queued _ _ wal.file _ _
      rw [hfile]
      exact hqueue
  · -- The first of the calls that waited has reached the file.
    rw [hfirst] at hwait
    obtain ⟨c, rest, rfl, rfl, hrest⟩ := List.map_eq_cons_iff.1 hwait.symm
    refine ⟨hcore, hopts ▸ h.mode_eq, h.count_eq, fun h0 => ?_, h.sequential, h.settled, rest,
      hrest.symm, ?_⟩
    · have hsuffix := hqueue.suffix
      rw [(h.unused h0).1] at hsuffix
      cases List.suffix_nil.1 hsuffix
    · change Queued _ _ wal.file _ _
      rw [hfile]
      exact hqueue.write

/-- **Every step keeps it,** where records fit and those that wait at a rename are in force. -/
theorem Inv.step (h : Inv t₀ kv₀ s) (hforce : s.InForce a) (hs : s.step a = some s') :
    Inv t₀ kv₀ s' := by
  cases a with
  | system a =>
    simp only [Interval.step] at hs
    split_ifs at hs with hadmits
    obtain ⟨sys, hsys, rfl⟩ := Option.map_eq_some_iff.1 hs
    refine h.system ?_ ?_ ?_ hsys
    · cases a with
      | append c => exact fun _ => hadmits.1
      | openTmp => exact fun _ => hadmits
      | _ => simp [Action.call?, Action.opensTmp]
    · cases a with
      | append c => exact fun x hx => Option.some.inj hx ▸ hforce
      | _ => exact fun x hx => nomatch hx
    · rintro j rfl
      exact hforce
  | handOver c =>
    simp only [Interval.step] at hs
    split_ifs at hs with hidle
    obtain ⟨sys, hsys, hs⟩ := Option.bind_eq_some_iff.1 hs
    obtain ⟨⟨flusher, wal⟩, hf, hs⟩ := Option.bind_eq_some_iff.1 hs
    obtain rfl := Option.some.inj hs
    have happ := h.system (a := .append c) (fun _ => hidle.1) (fun x hx => Option.some.inj hx ▸ hforce)
      (fun j hj => nomatch hj) hsys
    exact happ.flusher hf
  | flusher a =>
    simp only [Interval.step] at hs
    split_ifs at hs
    obtain ⟨⟨flusher, wal⟩, hf, hs⟩ := Option.bind_eq_some_iff.1 hs
    obtain rfl := Option.some.inj hs
    exact h.flusher hf

/-! ### A crash at any moment -/

/-- `NewKVStore` on what is in the file succeeds at time `t`, and what it holds of keys
that have not expired is what some of the first accepted calls left behind. -/
def RebuiltPrefix (opts : Options) (kv₀ : KVStore) (s : Interval) (t : Time) : Prop :=
  ∀ (ranges : ℕ → Range) (walOpts : Wal.Options),
    ∃ kv done, newKVStore ranges (some s.sys.kv.wal.file) walOpts opts t = some (.ok kv) ∧
      done <+: s.accepted ∧
      ∀ k, kv.content k = loaded t (Expiry.replay (done.map Call.write) kv₀.content k)

/-- The memory holds, of what has not expired at time `t`, what all accepted calls leave
behind. -/
def Remembers (kv₀ : KVStore) (s : Interval) (t : Time) : Prop :=
  ∀ k, loaded t (s.sys.kv.content k) =
    loaded t (Expiry.replay (s.accepted.map Call.write) kv₀.content k)

/-- A store that has just been opened, with nothing in the channel. -/
theorem inv_start {ranges : ℕ → Range} {file : Option Bytes} {walOpts : Wal.Options}
    {opts : Options} (hmode : walOpts.mode = .interval) (hmax : opts.maxMemoryBytes ≤ 0)
    (h : newKVStore ranges file walOpts opts t₀ = some (.ok kv₀)) (stale : Option Bytes) :
    Inv t₀ kv₀ (start kv₀ stale t₀) := by
  obtain ⟨hread, hcount, hwal, -, hc⟩ := newKVStore_eq_ok h
  have hfile : kv₀.wal.file = file.getD [] := by rw [hwal]; rfl
  have hlog : ∀ t, t₀ < t → AgreeFrom t (logContent kv₀.wal.file) kv₀.content := by
    intro t ht k
    rw [hfile, hc k, Expiry.visible_loaded ht]
  refine ⟨System.core_start hmax h stale, ?_, rfl, fun h0 => ⟨rfl, ?_, ?_⟩, Or.inl rfl, ?_, [], ?_, ?_⟩
  · change kv₀.wal.options.mode = .interval
    rw [hwal]
    exact hmode
  · change (Wal.replay kv₀.wal.file).1 = []
    rw [hfile]
    exact records_eq_nil_of_newKVStore h (hcount ▸ h0)
  · exact fun x bytes hx => nomatch hx
  · exact fun t _ => AgreeFrom.refl _ _
  · change [] ++ kv₀.wal.writeCh = []
    rw [hwal]
    rfl
  · refine ⟨?_, List.suffix_rfl, fun c hc => absurd hc List.not_mem_nil, hlog, fun front hfront => ?_⟩
    · change (Wal.replay kv₀.wal.file).2 = none
      rw [hfile]
      exact hread
    · obtain rfl := List.prefix_nil.1 hfront
      exact ⟨[], List.prefix_rfl, hlog⟩

/-- **Prefix durability.**  A store is opened without a cap and with a log in the mode
`interval`, one client calls it, and at every rename the records that wait are in force.
At any moment, and at any time from then on, the log is rebuilt to what some of the first
accepted calls left behind; and between two calls the memory holds what all of them did. -/
theorem rebuilt_of_inForce {ranges : ℕ → Range} {file : Option Bytes} {walOpts : Wal.Options}
    {opts : Options} (hmode : walOpts.mode = .interval) (hmax : opts.maxMemoryBytes ≤ 0)
    (hkv : newKVStore ranges file walOpts opts t₀ = some (.ok kv₀)) (stale : Option Bytes)
    (hs : Reach step (fun s a => s.InForce a) (start kv₀ stale t₀) s) (ht : s.sys.clock ≤ t) :
    RebuiltPrefix opts kv₀ s t ∧ (s.sys.calls = [] → Remembers kv₀ s t) := by
  have hinv : Inv t₀ kv₀ s := hs.invariant (inv_start hmode hmax hkv stale)
    fun _ _ _ h hforce hstep => h.step hforce hstep
  obtain ⟨rest, -, hqueue⟩ := hinv.queue
  have hcount := (newKVStore_eq_ok hkv).2.1
  refine ⟨fun ranges' walOpts' => ?_, fun hcalls k => ?_⟩
  · obtain ⟨done, hdone, hagree⟩ := hqueue.cut [] List.nil_prefix
    obtain ⟨kv, hnew, hc⟩ := exists_newKVStore_loaded (shardBudget_unlimited hmax) hqueue.read
      (fun h0 => (hinv.unused (hcount.trans h0)).2.log)
      (fun t' ht' => hagree t' (ht.trans_lt ht')) ranges' walOpts'
    exact ⟨kv, done, hnew, hdone, hc⟩
  · have hsettled : s.sys.settled = s.sys.kv.content := by
      unfold System.settled
      rw [hcalls]
      rfl
    rw [← hsettled]
    exact Expiry.loaded_eq_of_visible_eq fun t' ht' => hinv.settled t' (ht.trans_lt ht') k

/-- Two shards without a budget, on an empty log with a flusher. -/
def twoShards : KVStore := emptyStore 0 ⟨.interval, 500, 4⟩ none ⟨2, 0, 0, none⟩

/-- It is what `NewKVStore` makes of no log with two shards in the mode `interval`. -/
theorem newKVStore_twoShards (ranges : ℕ → Range) :
    newKVStore ranges none ⟨.interval, 500, 4⟩ ⟨2, 0, 0, none⟩ 0 = some (.ok twoShards) :=
  newKVStore_empty (by simp [shardBudget]) ranges _ 0

/-- A call from its append to its end. -/
def whole (c : Call) : List Action :=
  [.system (.append c), .system (.apply 0 fun _ => Eviction.byKey)]

/-- A compaction from the temporary file to the rename. -/
def compaction : List Action :=
  [.system .openTmp, .system (.scan 0 Eviction.byKey), .system (.scan 0 Eviction.byKey),
    .system (.close 0), .system (.swap 0)]

/-- Two keys are set, a compaction runs while both records wait, and the first of them
reaches the file. -/
def twoKeys : List Action :=
  whole (.setWithExpiry [1] [2] 100) ++ whole (.setWithExpiry [2] [5] 100) ++ compaction ++
    [.flusher .receive, .flusher .tick, .flusher .write]

/-- Two calls have been accepted, and what is rebuilt shows a beginning of them. -/
theorem rebuilt_of_inForce_twoKeys :
    ∃ s ∈ runAll step (fun s a => s.InForce a) (start twoShards none 0) twoKeys,
      s.accepted.length = 2 ∧ RebuiltPrefix ⟨2, 0, 0, none⟩ twoShards s 7 := by
  obtain ⟨s, hs, hlen, hclock⟩ :
      ∃ s ∈ runAll step (fun s a => s.InForce a) (start twoShards none 0) twoKeys,
        s.accepted.length = 2 ∧ s.sys.clock = 0 := by
    decide +kernel
  have hle : s.sys.clock ≤ 7 := by
    rw [hclock]
    decide
  exact ⟨s, hs, hlen, (rebuilt_of_inForce rfl le_rfl
    (newKVStore_twoShards fun _ => Eviction.byKey) none (reach_of_runAll hs) hle).1⟩

/-- One key is set twice, another one once. -/
def threeSets : List Call :=
  [.setWithExpiry [1] [2] 100, .setWithExpiry [1] [3] 100, .setWithExpiry [2] [5] 100]

/-- The first of the three records reaches the file behind the snapshot of all three. -/
def oldBehindNew : List Action :=
  threeSets.flatMap whole ++ compaction ++ [.flusher .receive, .flusher .tick, .flusher .write]

/-- **A compaction mixes old and new.**  After a crash the first key is back at its first
value and the second key is there, which was set last: no first part of the calls leaves
that behind. -/
theorem compaction_mixes_writes :
    newKVStore (fun _ => Eviction.byKey) none ⟨.interval, 500, 4⟩ ⟨2, 0, 0, none⟩ 0 =
        some (.ok twoShards) ∧
      ∃ s ∈ runAll step (fun _ _ => True) (start twoShards none 0) oldBehindNew,
        s.accepted = threeSets ∧ logContent s.sys.kv.wal.file [1] = some ([2], 100) ∧
          logContent s.sys.kv.wal.file [2] = some ([5], 100) ∧
          ¬ RebuiltPrefix ⟨2, 0, 0, none⟩ twoShards s 7 := by
  refine ⟨newKVStore_twoShards _, ?_⟩
  obtain ⟨s, hs, hacc, h₁, h₂⟩ :
      ∃ s ∈ runAll step (fun _ _ => True) (start twoShards none 0) oldBehindNew,
        s.accepted = threeSets ∧ logContent s.sys.kv.wal.file [1] = some ([2], 100) ∧
          logContent s.sys.kv.wal.file [2] = some ([5], 100) := by
    decide +kernel
  -- With the third call the second one is in force, too.
  have hnot : ∀ done ∈ threeSets.inits,
      ¬ (loaded 7 (some ([2], 100)) =
          loaded 7 (Expiry.replay (done.map Call.write) twoShards.content [1]) ∧
        loaded 7 (some ([5], 100)) =
          loaded 7 (Expiry.replay (done.map Call.write) twoShards.content [2])) := by
    decide +kernel
  refine ⟨s, hs, hacc, h₁, h₂, fun h => ?_⟩
  obtain ⟨kv, done, hnew, hdone, hcontent⟩ := h (fun _ => Eviction.byKey) ⟨.interval, 500, 4⟩
  obtain ⟨-, -, -, -, hc⟩ := newKVStore_eq_ok hnew
  have hone := (hc [1]).symm.trans (hcontent [1])
  have htwo := (hc [2]).symm.trans (hcontent [2])
  rw [Option.getD_some, h₁] at hone
  rw [Option.getD_some, h₂] at htwo
  exact hnot done ((List.mem_inits _ _).2 (hacc ▸ hdone)) ⟨hone, htwo⟩

end Interval

end Store
end Keva
