/-
# What every step keeps

The invariant of a store with calls on their way, under two conditions on the
order of steps.  `InOrder`: calls on one key reach the memory in the order in which
they are in the log, and what is appended fits the format.  `Undisturbed`: there is
one compaction at a time, it scans a shard only when no call on a key of the shard
is between log and memory, and after the scan no such call comes before the rename.

Under these the log shows what the memory will show once the calls on their way
have reached it (`Inv.agree`), and a compaction has in its file, for the shards it
has been through, that very content (`Snapshot.scanned`).
-/

import Keva.Store.Concurrent

namespace Keva
namespace Store

open Eviction (Range)
open Expiry (Content Write visible AgreeFrom)

namespace System

/-- Calls that fit the format, and calls on one key in the order of the log. -/
def InOrder (s : System) : Action → Prop
  | .append c => c.record.Fits
  | .apply j _ => ∀ c ∈ s.calls[j]?, ∀ c' ∈ s.calls.take j, c'.key ≠ c.key
  | _ => True

/-- One compaction at a time, and no call on a key of a shard between the scan of
the shard and the rename, nor half-way through at the scan. -/
def Undisturbed (s : System) : Action → Prop
  | .append c => ∀ x ∈ s.compactions, ∀ i ∈ s.kv.getShard c.key, x.next ≤ i
  | .openTmp => s.compactions = []
  | .scan j _ => ∀ x ∈ s.compactions[j]?, ∀ c ∈ s.calls, s.kv.getShard c.key ≠ some x.next
  | _ => True

instance (s : System) (a : Action) : Decidable (s.InOrder a) := by
  unfold InOrder
  cases a <;> infer_instance

instance (s : System) (a : Action) : Decidable (s.Undisturbed a) := by
  unfold Undisturbed
  cases a <;> infer_instance

/-- A compaction that is alone on its way: what is in its file and its buffer
together. -/
structure Snapshot (t₀ : Time) (s : System) (c : Compaction) (bytes : Bytes) : Prop where
  tmp_eq : s.tmp = some (c.file, bytes)
  offset_eq : c.offset = bytes.length
  phase_ne : c.phase ≠ .failed
  closed : c.phase = .closed → c.buffer = [] ∧ c.next = s.kv.shards.length
  now_le : c.now ≤ s.clock
  readable : (Wal.replay (bytes ++ c.buffer)).2 = none
  scanned : ∀ k i, s.kv.getShard k = some i → i < c.next → ∀ t, t₀ < t → s.clock ≤ t →
    visible t (logContent (bytes ++ c.buffer) k) = visible t (s.settled k)
  ahead : ∀ k, (∀ i, s.kv.getShard k = some i → c.next ≤ i) →
    logContent (bytes ++ c.buffer) k = none

/-- What does not depend on how the log is written: memory, calls and compaction of a
store opened at `t₀`. -/
structure Core (t₀ : Time) (s : System) : Prop where
  regular : s.kv.Regular 0
  fits : s.kv.Fits
  callsFit : ∀ c ∈ s.calls, c.record.Fits
  sharded : s.calls ≠ [] → s.kv.shardCount ≠ 0
  opened : t₀ ≤ s.clock
  files : s.log < s.nextFile ∧ ∀ x, s.tmp = some x → x.1 < s.nextFile ∧ x.1 ≠ s.log
  alone : s.compactions = [] ∨ ∃ c bytes, s.compactions = [c] ∧ Snapshot t₀ s c bytes

/-- A store opened at `t₀` with calls on their way: the log shows what the memory will show once
all of them have reached it, and at most one compaction is on its way. -/
structure Inv (t₀ : Time) (s : System) : Prop where
  regular : s.kv.Regular 0
  mode_ne : s.kv.wal.options.mode ≠ .interval
  readable : s.kv.wal.Readable
  fits : s.kv.Fits
  callsFit : ∀ c ∈ s.calls, c.record.Fits
  sharded : s.calls ≠ [] → s.kv.shardCount ≠ 0
  opened : t₀ ≤ s.clock
  files : s.log < s.nextFile ∧ ∀ x, s.tmp = some x → x.1 < s.nextFile ∧ x.1 ≠ s.log
  agree : ∀ t, t₀ < t → s.clock ≤ t → AgreeFrom t (logContent s.kv.wal.file) s.settled
  alone : s.compactions = [] ∨ ∃ c bytes, s.compactions = [c] ∧ Snapshot t₀ s c bytes

variable {t₀ t : Time} {s s' : System} {x : Compaction} {bytes : Bytes}

/-- A write at the end of a file is an append. -/
theorem writeAt_length (bytes data : Bytes) : writeAt bytes bytes.length data = bytes ++ data := by
  simp [writeAt]

/-- A store just opened, whatever the mode of its log. -/
theorem core_start {ranges : ℕ → Range} {file : Option Bytes} {walOpts : Wal.Options}
    {opts : Options} {kv : KVStore} (hmax : opts.maxMemoryBytes ≤ 0)
    (h : newKVStore ranges file walOpts opts t₀ = some (.ok kv)) (stale : Option Bytes) :
    Core t₀ (start kv stale t₀) := by
  obtain ⟨hreg, hfits⟩ := regular_fits_of_newKVStore hmax h
  refine ⟨hreg, hfits, ?_, ?_, le_rfl, ?_, Or.inl rfl⟩
  · exact fun c hc => absurd hc List.not_mem_nil
  · exact fun hne => absurd rfl hne
  · refine ⟨by simp [start], fun y hy => ?_⟩
    obtain ⟨b, -, rfl⟩ := Option.map_eq_some_iff.1 hy
    exact ⟨by simp [start], by simp [start]⟩

/-- The part of the invariant that all modes share. -/
theorem Inv.core (h : Inv t₀ s) : Core t₀ s :=
  ⟨h.regular, h.fits, h.callsFit, h.sharded, h.opened, h.files, h.alone⟩

/-- Together with what the log shows, it is the whole invariant. -/
theorem Core.inv (h : Core t₀ s) (hmode : s.kv.wal.options.mode ≠ .interval)
    (hread : s.kv.wal.Readable)
    (hagree : ∀ t, t₀ < t → s.clock ≤ t → AgreeFrom t (logContent s.kv.wal.file) s.settled) :
    Inv t₀ s :=
  ⟨h.regular, hmode, hread, h.fits, h.callsFit, h.sharded, h.opened, h.files, hagree, h.alone⟩

/-- A store just opened. -/
theorem inv_start {ranges : ℕ → Range} {file : Option Bytes} {walOpts : Wal.Options}
    {opts : Options} {kv : KVStore} (hmode : walOpts.mode ≠ .interval)
    (hmax : opts.maxMemoryBytes ≤ 0)
    (h : newKVStore ranges file walOpts opts t₀ = some (.ok kv)) (stale : Option Bytes) :
    Inv t₀ (start kv stale t₀) := by
  have hl := Logged.newKVStore hmode hmax h
  exact (core_start hmax h stale).inv hl.mode_ne hl.readable fun t ht _ => hl.agree t ht

/-! ### What the steps keep -/

/-- A call that reaches the memory in its turn leaves `settled` as it is: it may pass calls on
other keys, which makes no difference. -/
theorem settled_apply {kv' : KVStore} {c : Call} {j : ℕ} (hj : s.calls[j]? = some c)
    (hkeys : ∀ c' ∈ s.calls.take j, c'.key ≠ c.key)
    (hc : kv'.content = c.write.apply s.kv.content) :
    settled { s with kv := kv', calls := s.calls.eraseIdx j } = s.settled := by
  obtain ⟨hlt, hget⟩ := List.getElem?_eq_some_iff.1 hj
  have hsplit : s.calls = s.calls.take j ++ c :: s.calls.drop (j + 1) := by
    rw [← hget, List.cons_getElem_drop_succ, List.take_append_drop]
  have hne : ∀ w ∈ (s.calls.take j).map Call.write, w.key ≠ c.write.key := by
    intro w hw
    obtain ⟨c', hc', rfl⟩ := List.mem_map.1 hw
    rw [Call.key_write, Call.key_write]
    exact hkeys c' hc'
  unfold settled
  rw [hc, List.eraseIdx_eq_take_drop_succ, List.map_append, ← Expiry.replay_append_cons hne,
    ← List.map_cons, ← List.map_append, ← hsplit]

/-- A compaction does not notice what later readers do not: what it has scanned is still what
they would see. -/
theorem Snapshot.frame (h : Snapshot t₀ s x bytes) (htmp : s'.tmp = s.tmp)
    (hcount : s'.kv.shardCount = s.kv.shardCount)
    (hlen : s'.kv.shards.length = s.kv.shards.length) (hclock : s.clock ≤ s'.clock)
    (hset : ∀ k i, s.kv.getShard k = some i → i < x.next → ∀ t, s'.clock ≤ t →
      visible t (s'.settled k) = visible t (s.settled k)) :
    Snapshot t₀ s' x bytes := by
  have hget : ∀ k, s'.kv.getShard k = s.kv.getShard k := fun k => by
    unfold KVStore.getShard
    rw [hcount]
  refine ⟨htmp ▸ h.tmp_eq, h.offset_eq, h.phase_ne, hlen ▸ h.closed, h.now_le.trans hclock,
    h.readable, ?_, ?_⟩
  · intro k i hk hi t ht₀ ht
    rw [hget] at hk
    rw [hset k i hk hi t ht]
    exact h.scanned k i hk hi t ht₀ (hclock.trans ht)
  · intro k hk
    simp only [hget] at hk
    exact h.ahead k hk

/-- Steps that leave the files alone, and leave to later readers what the memory will show once
all calls have reached it. -/
theorem Core.quiet (h : Core t₀ s) {kv' : KVStore} {calls' : List Call} {clock' : Time}
    (hreg : kv'.Regular 0) (hfits : kv'.Fits) (hcount : kv'.shardCount = s.kv.shardCount)
    (hlen : kv'.shards.length = s.kv.shards.length) (hcalls : ∀ c ∈ calls', c ∈ s.calls)
    (hclock : s.clock ≤ clock')
    (hset : AgreeFrom clock' (Expiry.replay (calls'.map Call.write) kv'.content) s.settled) :
    Core t₀ { s with kv := kv', calls := calls', clock := clock' } := by
  refine ⟨hreg, hfits, fun c hc => h.callsFit c (hcalls c hc), fun hne => ?_,
    h.opened.trans hclock, h.files, ?_⟩
  · obtain ⟨c, hc⟩ := List.exists_mem_of_ne_nil _ hne
    exact hcount ▸ h.sharded (List.ne_nil_of_mem (hcalls c hc))
  · rcases h.alone with hnil | ⟨c, bytes, hone, hsnap⟩
    · exact Or.inl hnil
    · refine Or.inr ⟨c, bytes, hone, hsnap.frame rfl hcount hlen hclock ?_⟩
      exact fun k i _ _ t ht => hset.mono ht k

/-- What a step does to the log, and to the content of the memory once every call on
its way has reached it: nothing that a later reader notices; one more record and its
write; or, at the rename, a file that shows what the memory will show. -/
inductive LogStep (t₀ : Time) (s s' : System) : Action → Prop
  | quiet {a : Action} (call_eq : a.call? = none) (clock_le : s.clock ≤ s'.clock) (wal_eq : s'.kv.wal = s.kv.wal)
      (agree : AgreeFrom s'.clock s'.settled s.settled) : LogStep t₀ s s' a
  | append {c : Call} (clock_eq : s'.clock = s.clock) (fits : c.record.Fits)
      (wal_eq : s'.kv.wal = s.kv.wal.append c.record)
      (settled_eq : s'.settled = c.write.apply s.settled) : LogStep t₀ s s' (.append c)
  | swap {j : ℕ} {bytes : Bytes} (clock_eq : s'.clock = s.clock) (read : (Wal.replay bytes).2 = none)
      (wal_eq : s'.kv.wal = { s.kv.wal with file := bytes }) (settled_eq : s'.settled = s.settled)
      (agree : ∀ t, t₀ < t → s.clock ≤ t → AgreeFrom t (logContent bytes) s.settled) :
      LogStep t₀ s s' (.swap j)

/-- The clock does not go back. -/
theorem LogStep.clock_le {a : Action} (h : LogStep t₀ s s' a) : s.clock ≤ s'.clock := by
  cases h with
  | quiet _ hclock => exact hclock
  | append hclock => exact hclock.ge
  | swap hclock => exact hclock.ge

/-- Time passes. -/
theorem Core.tick (h : Core t₀ s) (ht : s.clock ≤ t) : Core t₀ { s with clock := t } :=
  h.quiet h.regular h.fits rfl rfl (fun _ hc => hc) ht (AgreeFrom.refl _ _)

/-- A call reaches the memory, where no earlier call on its key is still on its way. -/
theorem Core.apply (h : Core t₀ s) {c : Call} {j : ℕ} {ranges : ℕ → Range} {kv' : KVStore}
    {e : Option Err} (hj : s.calls[j]? = some c) (hkeys : ∀ c' ∈ s.calls.take j, c'.key ≠ c.key)
    (hr : c.applyTo ranges s.kv s.clock = some (kv', e)) :
    Core t₀ { s with kv := kv', calls := s.calls.eraseIdx j } ∧
      LogStep t₀ s { s with kv := kv', calls := s.calls.eraseIdx j } (.apply j ranges) := by
  obtain ⟨-, hreg, hwal, hc⟩ := Call.applyTo_eq_some h.regular hr
  obtain ⟨hcount, hlen⟩ := Call.applyTo_shape hr
  have hrecord := h.callsFit c (List.mem_of_getElem? hj)
  have hset : AgreeFrom s.clock (settled { s with kv := kv', calls := s.calls.eraseIdx j })
      s.settled := by
    rw [settled_apply hj hkeys hc]
    exact AgreeFrom.refl _ _
  refine ⟨h.quiet hreg (h.fits.apply (Call.writeOf_record c) hrecord hc) hcount hlen
    (fun _ hc' => List.mem_of_mem_eraseIdx hc') le_rfl hset, .quiet rfl le_rfl hwal hset⟩

/-- The sweeper takes one shard. -/
theorem Core.sweep (h : Core t₀ s) {i : ℕ} {shard : Shard} (hs : s.kv.shards[i]? = some shard)
    (range : Range) {now : Time} (hnow : now ≤ s.clock) :
    Core t₀ { s with kv := s.kv.setShard i (shard.sweep range now) } ∧
      LogStep t₀ s { s with kv := s.kv.setShard i (shard.sweep range now) } (.sweep i range now) := by
  have hfits := h.fits.of_visible_or_eq (KVStore.content_sweepShard hs range now)
  have hagree := (KVStore.agreeFrom_sweepShard hs range hnow).replay (s.calls.map Call.write)
  exact ⟨h.quiet (h.regular.sweepShard hs range now) hfits rfl List.length_set
    (fun _ hc' => hc') le_rfl hagree, .quiet rfl le_rfl rfl hagree⟩

/-- An append: `settled` takes its write, and it is not about a shard that a
compaction has been through. -/
theorem Core.append (h : Core t₀ s) {c : Call} {i : ℕ} (hi : s.kv.getShard c.key = some i)
    (hr : c.record.Fits) (hnext : ∀ x ∈ s.compactions, x.next ≤ i) :
    Core t₀ { s with kv := s.kv.append c.record, calls := s.calls ++ [c] } ∧
      LogStep t₀ s { s with kv := s.kv.append c.record, calls := s.calls ++ [c] } (.append c) := by
  have hset : settled { s with kv := s.kv.append c.record, calls := s.calls ++ [c] } =
      c.write.apply s.settled := by
    unfold settled
    rw [List.map_append, Expiry.replay_append]
    rfl
  refine ⟨⟨h.regular.withWal _, h.fits, ?_, ?_, h.opened, h.files, ?_⟩, .append rfl hr rfl hset⟩
  · intro c' hc'
    rcases List.mem_append.1 hc' with hc' | hc'
    · exact h.callsFit c' hc'
    · exact List.mem_singleton.1 hc' ▸ hr
  · intro _ h0
    have hnone : s.kv.getShard c.key = none := KVStore.getShard_of_shardCount_eq_zero h0 c.key
    rw [hnone] at hi
    cases hi
  · rcases h.alone with hnil | ⟨y, bytes, hone, hsnap⟩
    · exact Or.inl hnil
    · refine Or.inr ⟨y, bytes, hone, hsnap.frame rfl rfl rfl le_rfl ?_⟩
      intro k i' hk hi' t _
      have hle : y.next ≤ i := hnext y (by rw [hone]; exact List.mem_singleton_self y)
      have hne : k ≠ c.write.key := by
        rintro rfl
        rw [Call.key_write, hi] at hk
        have := Option.some.inj hk
        omega
      rw [hset, Expiry.Write.apply_of_ne hne]

/-! ### Steps of a compaction -/

/-- Steps of a compaction before the rename. -/
theorem Core.compaction (h : Core t₀ s) {file n : ℕ} {bytes : Bytes} {y : Compaction}
    (hn : s.nextFile ≤ n) (hfile : file < n) (hne : file ≠ s.log)
    (hy : Snapshot t₀ { s with tmp := some (file, bytes) } y bytes) :
    Core t₀ { s with tmp := some (file, bytes), nextFile := n, compactions := [y] } := by
  have hsnap : Snapshot t₀ { s with tmp := some (file, bytes), nextFile := n, compactions := [y] }
      y bytes := hy.frame rfl rfl rfl le_rfl fun _ _ _ _ _ _ => rfl
  refine ⟨h.regular, h.fits, h.callsFit, h.sharded, h.opened, ⟨h.files.1.trans_le hn, ?_⟩,
    Or.inr ⟨y, bytes, rfl, hsnap⟩⟩
  intro z hz
  obtain rfl := Option.some.inj hz
  exact ⟨hfile, hne⟩

/-- A compaction begins where none is underway, and has scanned nothing.  The temporary file may
be a stale one, but is never the log itself. -/
theorem Core.openTmp (h : Core t₀ s) (hnil : s.compactions = [])
    (hs : s.step .openTmp = some s') : Core t₀ s' ∧ LogStep t₀ s s' .openTmp := by
  obtain rfl := Option.some.inj hs
  refine ⟨?_, .quiet rfl le_rfl rfl (AgreeFrom.refl _ _)⟩
  have hfile : (s.tmp.map Prod.fst).getD s.nextFile < s.nextFile + 1 ∧
      (s.tmp.map Prod.fst).getD s.nextFile ≠ s.log := by
    cases htmp : s.tmp with
    | none => exact ⟨Nat.lt_succ_self _, h.files.1.ne'⟩
    | some z =>
      obtain ⟨hlt, hne⟩ := h.files.2 z htmp
      exact ⟨hlt.trans (Nat.lt_succ_self _), hne⟩
  rw [hnil, List.nil_append]
  refine h.compaction (Nat.le_succ _) hfile.1 hfile.2 ?_
  refine ⟨rfl, rfl, Phase.noConfusion, Phase.noConfusion, le_rfl, rfl, ?_, ?_⟩
  · exact fun k i _ hi => absurd hi (Nat.not_lt_zero i)
  · exact fun k _ => rfl

/-- The one compaction moves on, and bytes reach its file. -/
theorem Core.update (h : Core t₀ s) (hone : s.compactions = [x]) (hx : Snapshot t₀ s x bytes)
    {bytes' : Bytes} {y : Compaction}
    (hy : Snapshot t₀ { s with tmp := some (x.file, bytes') } y bytes') :
    Core t₀ (System.update { s with tmp := some (x.file, bytes') } 0 y) := by
  obtain ⟨hfile, hne⟩ := h.files.2 _ hx.tmp_eq
  unfold System.update
  rw [hone]
  exact h.compaction le_rfl hfile hne hy

/-- **A scan of a shard** with no call on its way puts the settled content of the
shard into the file. -/
theorem Snapshot.scan (h : Core t₀ s) (hx : Snapshot t₀ s x bytes) {shard : Shard}
    (hs : s.kv.shards[x.next]? = some shard) (hphase : x.phase = .scanning)
    (hcalls : ∀ c ∈ s.calls, s.kv.getShard c.key ≠ some x.next) (range : Range) :
    Snapshot t₀ s
      { x with buffer := x.buffer ++ Wal.encodeAll (shard.snapshot range x.now), next := x.next + 1 }
      bytes := by
  obtain ⟨hread, hlog⟩ := KVStore.logContent_scan h.regular h.fits hs hx.readable range x.now
  rw [List.append_assoc] at hread hlog
  -- A key of another shard is not in the scan.
  have hother : ∀ k, s.kv.getShard k ≠ some x.next →
      logContent (bytes ++ (x.buffer ++ Wal.encodeAll (shard.snapshot range x.now))) k =
        logContent (bytes ++ x.buffer) k := fun k hk => by rw [hlog, if_neg hk]
  refine ⟨hx.tmp_eq, hx.offset_eq, hx.phase_ne, ?_, hx.now_le, hread, ?_, ?_⟩
  · intro hclosed
    rw [hphase] at hclosed
    cases hclosed
  · intro k i hk hi t ht₀ ht
    rcases Nat.lt_succ_iff_lt_or_eq.1 hi with hi | rfl
    · rw [hother k (by rw [hk]; exact fun heq => hi.ne (Option.some.inj heq))]
      exact hx.scanned k i hk hi t ht₀ ht
    · have hnone : logContent (bytes ++ x.buffer) k = none :=
        hx.ahead k fun i' hi' => (Option.some.inj (hk.symm.trans hi')).le
      have hsettled : s.settled k = s.kv.content k := by
        refine Expiry.replay_of_forall_ne (fun w hw => ?_) _
        obtain ⟨c, hc, rfl⟩ := List.mem_map.1 hw
        rw [Call.key_write]
        exact fun heq => hcalls c hc (heq ▸ hk)
      rw [hlog, if_pos hk, hnone, Option.or_none, Expiry.visible_visible (hx.now_le.trans ht),
        hsettled]
  · intro k hk
    rw [hother k fun heq => absurd (hk _ heq) (Nat.not_succ_le_self _)]
    exact hx.ahead k fun i hi => (Nat.le_succ _).trans (hk i hi)

/-- What is in the buffer goes to the end of the file. -/
theorem write_eq (h : Core t₀ s) (hx : Snapshot t₀ s x bytes) (data : Bytes) :
    s.write x.file x.offset data = { s with tmp := some (x.file, bytes ++ data) } := by
  have hne : x.file ≠ s.log := (h.files.2 _ hx.tmp_eq).2
  unfold write
  rw [if_neg hne, hx.tmp_eq]
  dsimp only
  rw [if_pos rfl, hx.offset_eq, writeAt_length]

/-- Bytes of the buffer reach the file. -/
theorem Snapshot.spill (hx : Snapshot t₀ s x bytes) {data rest : Bytes}
    (hbuf : x.buffer = data ++ rest) {phase : Phase} (hphase : phase ≠ .failed)
    (hclosed : phase = .closed → rest = [] ∧ x.next = s.kv.shards.length) :
    Snapshot t₀ { s with tmp := some (x.file, bytes ++ data) }
      { x with offset := x.offset + data.length, buffer := rest, phase := phase }
      (bytes ++ data) := by
  have hbytes : bytes ++ data ++ rest = bytes ++ x.buffer := by
    rw [hbuf, List.append_assoc]
  refine ⟨rfl, ?_, hphase, hclosed, hx.now_le, ?_, ?_, ?_⟩
  · rw [List.length_append, hx.offset_eq]
  · exact hbytes ▸ hx.readable
  · exact hbytes ▸ hx.scanned
  · exact hbytes ▸ hx.ahead

/-- **The rename:** the file has every shard, so that the log still shows what the
memory will show. -/
theorem Core.swap (h : Core t₀ s) (hx : Snapshot t₀ s x bytes) (hphase : x.phase = .closed)
    (j : ℕ) :
    Core t₀ { s with kv := { s.kv with wal := { s.kv.wal with file := bytes } }, log := x.file,
                     tmp := none, compactions := [] } ∧
      LogStep t₀ s { s with kv := { s.kv with wal := { s.kv.wal with file := bytes } },
                            log := x.file, tmp := none, compactions := [] } (.swap j) := by
  obtain ⟨hbuf, hnext⟩ := hx.closed hphase
  have hread := hx.readable
  have hscanned := hx.scanned
  have hahead := hx.ahead
  rw [hbuf, List.append_nil] at hread hscanned hahead
  refine ⟨⟨h.regular.withWal _, h.fits, h.callsFit, h.sharded, h.opened,
    ⟨(h.files.2 _ hx.tmp_eq).1, fun z hz => nomatch hz⟩, Or.inl rfl⟩, .swap rfl hread rfl rfl ?_⟩
  intro t ht₀ ht k
  by_cases hcount : s.kv.shardCount = 0
  · have hcalls : s.calls = [] := by
      by_contra hne
      exact h.sharded hne hcount
    have hnone : ∀ i, s.kv.getShard k = some i → x.next ≤ i := by
      rw [KVStore.getShard_of_shardCount_eq_zero hcount]
      exact fun i hi => nomatch hi
    unfold settled
    rw [hahead k hnone, hcalls, List.map_nil, Expiry.replay_nil,
      KVStore.content_of_shardCount_eq_zero hcount]
  · obtain ⟨i, shard, hi, hshard⟩ := KVStore.exists_shard hcount k
    have hlt : i < x.next := hnext ▸ (List.getElem?_eq_some_iff.1 hshard).1
    exact hscanned k i hi hlt t ht₀ ht

/-! ### Every step, every run -/

/-- The one compaction that is on its way. -/
theorem Core.compaction_of_getElem? (h : Core t₀ s) {j : ℕ} (hj : s.compactions[j]? = some x) :
    j = 0 ∧ s.compactions = [x] ∧ ∃ bytes, Snapshot t₀ s x bytes := by
  rcases h.alone with hnil | ⟨c, bytes, hone, hsnap⟩
  · rw [hnil] at hj
    cases hj
  · rw [hone, List.getElem?_singleton] at hj
    split_ifs at hj with h0
    obtain rfl := Option.some.inj hj
    exact ⟨h0, hone, bytes, hsnap⟩

/-- **Every step in order and undisturbed,** whatever the mode of the log, together with what it
does to log and memory. -/
theorem Core.step (h : Core t₀ s) {a : Action} (hin : s.InOrder a) (hun : s.Undisturbed a)
    (hs : s.step a = some s') : Core t₀ s' ∧ LogStep t₀ s s' a := by
  cases a with
  | tick t =>
    simp only [System.step] at hs
    split_ifs at hs with ht
    obtain rfl := Option.some.inj hs
    exact ⟨h.tick ht, .quiet rfl ht rfl (AgreeFrom.refl _ _)⟩
  | append c =>
    obtain ⟨i, hi, hs⟩ := Option.bind_eq_some_iff.1 hs
    obtain rfl := Option.some.inj hs
    exact h.append hi hin fun x hx => hun x hx i hi
  | apply j ranges =>
    obtain ⟨c, hj, hs⟩ := Option.bind_eq_some_iff.1 hs
    obtain ⟨⟨kv', e⟩, hr, hs⟩ := Option.bind_eq_some_iff.1 hs
    obtain rfl := Option.some.inj hs
    exact h.apply hj (hin c hj) hr
  | sweep i range now =>
    obtain ⟨shard, hshard, hs⟩ := Option.bind_eq_some_iff.1 hs
    split_ifs at hs with hnow
    obtain rfl := Option.some.inj hs
    exact h.sweep hshard range hnow
  | openTmp => exact h.openTmp hun hs
  | scan j range =>
    obtain ⟨x, hj, hs⟩ := Option.bind_eq_some_iff.1 hs
    obtain ⟨shard, hshard, hs⟩ := Option.bind_eq_some_iff.1 hs
    split_ifs at hs with hphase
    obtain rfl := Option.some.inj hs
    obtain ⟨rfl, hone, bytes, hx⟩ := h.compaction_of_getElem? hj
    have hsame : { s with tmp := some (x.file, bytes) } = s := by rw [← hx.tmp_eq]
    have hnext := h.update hone hx (hsame.symm ▸ hx.scan h hshard hphase (hun x hj) range)
    rw [hsame] at hnext
    exact ⟨hnext, .quiet rfl le_rfl rfl (AgreeFrom.refl _ _)⟩
  | spill j n =>
    obtain ⟨x, hj, hs⟩ := Option.bind_eq_some_iff.1 hs
    split_ifs at hs with hphase
    obtain rfl := Option.some.inj hs
    obtain ⟨rfl, hone, bytes, hx⟩ := h.compaction_of_getElem? hj
    rw [write_eq h hx]
    refine ⟨h.update hone hx (hx.spill (List.take_append_drop n x.buffer).symm hx.phase_ne ?_),
      .quiet rfl le_rfl rfl (AgreeFrom.refl _ _)⟩
    rw [hphase]
    intro hclosed
    cases hclosed
  | close j =>
    obtain ⟨x, hj, hs⟩ := Option.bind_eq_some_iff.1 hs
    split_ifs at hs with hphase
    obtain rfl := Option.some.inj hs
    obtain ⟨rfl, hone, bytes, hx⟩ := h.compaction_of_getElem? hj
    rw [write_eq h hx]
    exact ⟨h.update hone hx (hx.spill (List.append_nil _).symm Phase.noConfusion
      fun _ => ⟨rfl, hphase.2⟩), .quiet rfl le_rfl rfl (AgreeFrom.refl _ _)⟩
  | swap j =>
    obtain ⟨x, hj, hs⟩ := Option.bind_eq_some_iff.1 hs
    split_ifs at hs with hphase
    obtain ⟨rfl, hone, bytes, hx⟩ := h.compaction_of_getElem? hj
    rw [hx.tmp_eq] at hs
    obtain rfl := Option.some.inj hs
    rw [hone]
    exact h.swap hx hphase 0
  | remove j =>
    obtain ⟨x, hj, hs⟩ := Option.bind_eq_some_iff.1 hs
    split_ifs at hs with hphase
    obtain ⟨-, -, bytes, hx⟩ := h.compaction_of_getElem? hj
    exact absurd hphase hx.phase_ne

/-- **Every step in order and undisturbed keeps the invariant** of a log that is
written through. -/
theorem Inv.step (h : Inv t₀ s) {a : Action} (hin : s.InOrder a) (hun : s.Undisturbed a)
    (hs : s.step a = some s') : Inv t₀ s' := by
  obtain ⟨hcore, hlog⟩ := h.core.step hin hun hs
  have hclock := hlog.clock_le
  cases hlog with
  | quiet _ _ hwal hset =>
    refine hcore.inv (hwal ▸ h.mode_ne) (hwal ▸ h.readable) fun t ht₀ ht => ?_
    rw [hwal]
    exact (h.agree t ht₀ (hclock.trans ht)).trans (hset.mono ht).symm
  | append _ hr hwal hset =>
    have hfile := Wal.WAL.append_file h.mode_ne
    refine hcore.inv ?_ (hwal ▸ h.readable.append hr) fun t ht₀ ht => ?_
    · rw [hwal, Wal.WAL.append_options]
      exact h.mode_ne
    · rw [hwal, hfile, (logContent_append h.readable.file hr (Call.writeOf_record _)).2, hset]
      exact (h.agree t ht₀ (hclock.trans ht)).apply _
  | swap _ hread hwal hset hagree =>
    refine hcore.inv (hwal ▸ h.mode_ne) ?_ fun t ht₀ ht => ?_
    · rw [hwal]
      exact ⟨h.readable.settled, hread, h.readable.queue⟩
    · rw [hwal, hset]
      exact hagree t ht₀ (hclock.trans ht)

end System

end Store
end Keva
