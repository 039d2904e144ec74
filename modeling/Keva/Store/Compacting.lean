/-
# A compaction that crashes or fails

`WAL.Compact` and `writeSnapshot` of `storage/wal/wal_compaction.go`, with the
snapshot of `KVStore.Compact` in `storage/store/kv_store_util.go`, one file operation
at a time: the temporary file is opened and truncated, the shards are scanned into a
buffered writer, the file is flushed, fsynced and closed, renamed over the log, and
the log's handle is switched.  Any of these may fail where it stands, and the process
may crash after any of them.

* Rename is atomic, and of a file a crash keeps what was fsynced and any part of the
  rest.  Of the log it keeps what was written: in the mode `always` that has been
  fsynced, and in the mode `none` the crash is one of the process.
* Nobody writes in the meantime.  Reads and the sweeper go on, the sweeper shard by
  shard and with a clock reading that may be an earlier one.

Up to the rename the file at `path` is the old log, from then on it is the new one,
and both show what the memory showed when the call began (`crash_atomic`).  A call
that fails leaves the log in use, but for one step: when the log cannot be opened
again after the rename, the handle stays on the file that was replaced, and whatever
is written from then on is in no file that a restart would read (`usable_iff`).
-/

import Keva.Lib.Reach
import Keva.Store.Restart

namespace Keva
namespace Store
namespace Compacting

open Bytes (FitsInt64)
open Eviction (Range)
open Expiry (Content visible loaded AgreeFrom)

/-- A file and how much of it has been fsynced, counted in bytes from its beginning. -/
structure File where
  contents : Bytes
  synced : ℕ

/-- What may be left of a file after a crash: all that was fsynced, and any part of what was
written after that, but nothing that was not written. -/
def File.Survives (f : File) (c : Bytes) : Prop := ∃ n, f.synced ≤ n ∧ c = f.contents.take n

/-- The operation of the file system that failed, of those that `Compact` makes one after the
other. -/
inductive Fault
  | create
  | write
  | flush
  | sync
  | close
  | rename
  | reopen
  deriving DecidableEq

/-- What has been done last.  A scan has its clock reading, the next shard and what
the buffered writer holds back. -/
inductive Stage
  | called
  | created
  | scanning (now : Time) (next : ℕ) (buffer : Bytes)
  | flushed
  | synced
  | closed
  | renamed
  | failed (fault : Fault)
  | returned (err : Option Fault)
  deriving DecidableEq

/-- The store, whose log is the file the handle is on; the file at `<path>.tmp`; the
file at `path`, if that is not the one the handle is on; the time; and where the call
stands. -/
structure State where
  kv : KVStore
  tmp : Option File
  path : Option File
  clock : Time
  stage : Stage

/-- A step of the call, of a reader, of the sweeper or of the clock. -/
inductive Action
  | create
  | readClock
  | scan (range : Range)
  | spill (n : ℕ)
  | flush
  | sync
  | close
  | rename
  | reopen
  | fail (fault : Fault)
  | remove (ok : Bool)
  | get (key : Key)
  | sweep (i : ℕ) (range : Range) (now : Time)
  | tick (t : Time)

namespace State

/-- The operation is the next one of the call, so that it is the one that may fail now.  A flush
comes when every shard has been scanned. -/
def IsNext (s : State) (fault : Fault) : Prop :=
  match s.stage, fault with
  | .called, .create => True
  | .scanning _ _ _, .write => True
  | .scanning _ next _, .flush => next = s.kv.shards.length
  | .flushed, .sync => True
  | .synced, .close => True
  | .closed, .rename => True
  | .renamed, .reopen => True
  | _, _ => False

instance (s : State) (fault : Fault) : Decidable (s.IsNext fault) := by
  unfold IsNext
  split <;> infer_instance

/-- One file operation at a time, each in its place in `Compact` and `writeSnapshot`; a failure
leads from where it occurs to the return of the call, by way of the removal of the temporary file
where the source has one. -/
def step (s : State) : Action → Option State
  | .create =>
    -- `O_CREATE|O_WRONLY|O_TRUNC`: whatever is there is emptied.
    if s.stage = .called then some { s with tmp := some ⟨[], 0⟩, stage := .created } else none
  | .readClock =>
    if s.stage = .created then some { s with stage := .scanning s.clock 0 [] } else none
  | .scan range =>
    match s.stage with
    | .scanning now next buffer => do
      let shard ← s.kv.shards[next]?
      let records := shard.snapshot range now
      return { s with stage := .scanning now (next + 1) (buffer ++ Wal.encodeAll records) }
    | _ => none
  | .spill n =>
    match s.stage, s.tmp with
    | .scanning now next buffer, some f =>
      some { s with tmp := some { f with contents := f.contents ++ buffer.take n },
                    stage := .scanning now next (buffer.drop n) }
    | _, _ => none
  | .flush =>
    match s.stage, s.tmp with
    | .scanning _ next buffer, some f =>
      if next = s.kv.shards.length then
        some { s with tmp := some { f with contents := f.contents ++ buffer }, stage := .flushed }
      else none
    | _, _ => none
  | .sync =>
    match s.stage, s.tmp with
    | .flushed, some f =>
      some { s with tmp := some { f with synced := f.contents.length }, stage := .synced }
    | _, _ => none
  | .close => if s.stage = .synced then some { s with stage := .closed } else none
  | .rename =>
    match s.stage, s.tmp with
    | .closed, some f => some { s with tmp := none, path := some f, stage := .renamed }
    | _, _ => none
  | .reopen =>
    match s.stage, s.path with
    | .renamed, some f =>
      some { s with kv := { s.kv with wal := { s.kv.wal with file := f.contents } }, path := none,
                    stage := .returned none }
    | _, _ => none
  | .fail fault =>
    if s.IsNext fault then
      -- Only what comes before the rename is cleaned up.
      if fault = .reopen then some { s with stage := .returned (some .reopen) }
      else some { s with stage := .failed fault }
    else none
  | .remove ok =>
    match s.stage with
    | .failed fault =>
      some { s with tmp := if ok then none else s.tmp, stage := .returned (some fault) }
    | _ => none
  | .get key => do
    let (kv, _) ← s.kv.get key s.clock
    return { s with kv := kv }
  | .sweep i range now => do
    let shard ← s.kv.shards[i]?
    if now ≤ s.clock then return { s with kv := s.kv.setShard i (shard.sweep range now) } else none
  | .tick t => if s.clock ≤ t then some { s with clock := t } else none

/-- A call begins at time `t`; an earlier crash may have left a temporary file. -/
def start (kv : KVStore) (tmp : Option File) (t : Time) : State := ⟨kv, tmp, none, t, .called⟩

/-- What may be in the file at `path` after a crash: the log as it was, until the rename has put
the new file in its place. -/
def AfterCrash (s : State) (c : Bytes) : Prop :=
  match s.path with
  | none => c = s.kv.wal.file
  | some f => f.Survives c

end State

/-- The states of one call. -/
abbrev Reached (kv : KVStore) (tmp : Option File) (t : Time) : State → Prop :=
  Reach State.step (fun _ _ => True) (.start kv tmp t)

/-! ### What is in the files -/

/-- What a file holds once the shards before `next` of a store have been scanned into
it, for readers from `t` on. -/
structure Copied (kv₀ : KVStore) (t : Time) (next : ℕ) (bytes : Bytes) : Prop where
  readable : (Wal.replay bytes).2 = none
  unused : kv₀.shardCount = 0 → bytes = []
  scanned : ∀ k i, kv₀.getShard k = some i → i < next →
    visible t (logContent bytes k) = visible t (kv₀.content k)
  ahead : ∀ k, (∀ i, kv₀.getShard k = some i → next ≤ i) → logContent bytes k = none

/-- A file that shows every reader from `t` on what a store showed. -/
structure Whole (kv₀ : KVStore) (t : Time) (bytes : Bytes) : Prop where
  readable : (Wal.replay bytes).2 = none
  unused : kv₀.shardCount = 0 → (Wal.replay bytes).1 = []
  agree : AgreeFrom t (logContent bytes) kv₀.content

variable {kv₀ kv : KVStore} {t t' : Time} {next : ℕ} {bytes : Bytes}

/-- Nothing has been copied, of no shard. -/
theorem Copied.nil (kv₀ : KVStore) (t : Time) : Copied kv₀ t 0 [] :=
  ⟨rfl, fun _ => rfl, fun _ i _ hi => absurd hi (Nat.not_lt_zero i), fun _ _ => rfl⟩

/-- What was copied in time stays a copy: later readings are of no concern to it. -/
theorem Copied.mono (h : Copied kv₀ t next bytes) (ht : t ≤ t') : Copied kv₀ t' next bytes := by
  refine ⟨h.readable, h.unused, fun k i hk hi => ?_, h.ahead⟩
  rw [← Expiry.visible_visible ht, h.scanned k i hk hi, Expiry.visible_visible ht]

/-- The same for a file that is complete. -/
theorem Whole.mono (h : Whole kv₀ t bytes) (ht : t ≤ t') : Whole kv₀ t' bytes :=
  ⟨h.readable, h.unused, h.agree.mono ht⟩

/-- **A scan of the next shard,** at a reading that is not ahead of the clock. -/
theorem Copied.scan (h : Copied kv₀ t next bytes) (hlog : Logged t kv)
    (hcount : kv.shardCount = kv₀.shardCount) (hagree : AgreeFrom t kv.content kv₀.content)
    {shard : Shard} (hs : kv.shards[next]? = some shard) (range : Range) {now : Time}
    (hnow : now ≤ t) :
    Copied kv₀ t (next + 1) (bytes ++ Wal.encodeAll (shard.snapshot range now)) := by
  obtain ⟨hread, hscan⟩ :=
    KVStore.logContent_scan hlog.regular hlog.fits hs h.readable range now
  simp only [KVStore.getShard_congr hcount] at hscan
  refine ⟨hread, fun h0 => ?_, fun k i hk hi => ?_, fun k hk => ?_⟩
  · rw [hlog.regular.snapshot_eq_nil (hcount.trans h0) hs, h.unused h0]
    rfl
  · rw [hscan]
    split_ifs with heq
    · have hnone : logContent bytes k = none :=
        h.ahead k fun i' hi' => (Option.some.inj (heq.symm.trans hi')).le
      rw [hnone, Option.or_none, Expiry.visible_visible hnow, hagree k]
    · refine h.scanned k i hk (lt_of_le_of_ne (Nat.lt_succ_iff.1 hi) fun hnext => heq ?_)
      rw [hk, hnext]
  · rw [hscan, if_neg fun heq => absurd (hk _ heq) (Nat.not_succ_le_self _)]
    exact h.ahead k fun i hi => (Nat.le_succ _).trans (hk i hi)

/-- Once every shard has been scanned, the file is the store's. -/
theorem Copied.whole (h : Copied kv₀ t kv.shards.length bytes)
    (hcount : kv.shardCount = kv₀.shardCount) : Whole kv₀ t bytes := by
  refine ⟨h.readable, fun h0 => by rw [h.unused h0]; rfl, fun k => ?_⟩
  by_cases h0 : kv₀.shardCount = 0
  · rw [KVStore.content_of_shardCount_eq_zero h0, h.unused h0]
    rfl
  · obtain ⟨i, shard, hk, hi⟩ := KVStore.exists_shard (hcount ▸ h0 : kv.shardCount ≠ 0) k
    rw [KVStore.getShard_congr hcount] at hk
    exact h.scanned k i hk (List.getElem?_eq_some_iff.1 hi).1

/-! ### What every step keeps -/

/-- How far the temporary file has got. -/
def Progress (kv₀ : KVStore) (t : Time) (tmp : Option File) : Stage → Prop
  | .created => ∃ f, tmp = some f ∧ f.contents = []
  | .scanning now next buffer =>
    now ≤ t ∧ ∃ f, tmp = some f ∧ Copied kv₀ t next (f.contents ++ buffer)
  | .flushed => ∃ f, tmp = some f ∧ Whole kv₀ t f.contents
  | .synced => ∃ f, tmp = some f ∧ Whole kv₀ t f.contents ∧ f.contents.length ≤ f.synced
  | .closed => ∃ f, tmp = some f ∧ Whole kv₀ t f.contents ∧ f.contents.length ≤ f.synced
  | .failed fault => fault ≠ .reopen
  | _ => True

/-- The same for a call that is underway. -/
theorem Progress.mono {tmp : Option File} {stage : Stage} (h : Progress kv₀ t tmp stage)
    (ht : t ≤ t') : Progress kv₀ t' tmp stage := by
  cases stage with
  | scanning now next buffer =>
    obtain ⟨hnow, f, hf, hcopied⟩ := h
    exact ⟨hnow.trans ht, f, hf, hcopied.mono ht⟩
  | flushed =>
    obtain ⟨f, hf, hwhole⟩ := h
    exact ⟨f, hf, hwhole.mono ht⟩
  | synced | closed =>
    obtain ⟨f, hf, hwhole, hsynced⟩ := h
    exact ⟨f, hf, hwhole.mono ht, hsynced⟩
  | created | failed => exact h
  | called | renamed | returned => trivial

/-- The handle of the log is on a file that has been replaced. -/
def Stage.detached : Stage → Bool
  | renamed => true
  | returned (some .reopen) => true
  | _ => false

/-- Of all failures only that of reopening the log leaves the handle on another file. -/
theorem Stage.detached_returned (fault : Fault) :
    (returned (some fault)).detached = decide (fault = .reopen) := by
  cases fault <;> rfl

/-- The operations after the rename are those that find the handle detached. -/
theorem State.detached_of_isNext {s : State} {fault : Fault} (h : s.IsNext fault) :
    s.stage.detached = decide (fault = .reopen) := by
  unfold IsNext at h
  split at h <;> rename_i hstage <;> first | (rw [hstage]; rfl) | exact h.elim

/-- A call that began when the store was `kv₀`: memory and log still go together, the
memory shows what it showed, and so does the file at `path` where it is not the log. -/
structure Inv (kv₀ : KVStore) (s : State) : Prop where
  logged : Logged s.clock s.kv
  count : s.kv.shardCount = kv₀.shardCount
  agree : AgreeFrom s.clock s.kv.content kv₀.content
  progress : Progress kv₀ s.clock s.tmp s.stage
  path : ∀ f, s.path = some f → Whole kv₀ s.clock f.contents ∧ f.contents.length ≤ f.synced
  detached : s.path.isSome = s.stage.detached

variable {s s' : State}

/-- The call begins with the handle on the file at `path`. -/
theorem inv_start (h : Logged t kv₀) (tmp : Option File) : Inv kv₀ (.start kv₀ tmp t) :=
  ⟨h, rfl, AgreeFrom.refl _ _, trivial, (fun _ hf => nomatch hf), rfl⟩

/-- Time passes. -/
theorem Inv.tick (h : Inv kv₀ s) (ht : s.clock ≤ t) : Inv kv₀ { s with clock := t } := by
  refine ⟨h.logged.mono ht, h.count, h.agree.mono ht, h.progress.mono ht, fun f hf => ?_,
    h.detached⟩
  obtain ⟨hwhole, hsynced⟩ := h.path f hf
  exact ⟨hwhole.mono ht, hsynced⟩

/-- The memory changes, and no later reader notices. -/
theorem Inv.memory (h : Inv kv₀ s) (hlog : Logged s.clock kv)
    (hcount : kv.shardCount = s.kv.shardCount) (hagree : AgreeFrom s.clock kv.content s.kv.content) :
    Inv kv₀ { s with kv := kv } :=
  ⟨hlog, hcount.trans h.count, hagree.trans h.agree, h.progress, h.path, h.detached⟩

/-- The call goes on, and the file at `path` stays. -/
theorem Inv.move (h : Inv kv₀ s) {tmp : Option File} {stage : Stage}
    (hprogress : Progress kv₀ s.clock tmp stage) (hdetached : stage.detached = s.stage.detached) :
    Inv kv₀ { s with tmp := tmp, stage := stage } :=
  ⟨h.logged, h.count, h.agree, hprogress, h.path, h.detached.trans hdetached.symm⟩

/-- A read while the compaction is on its way. -/
theorem Inv.get (h : Inv kv₀ s) {key : Key} (hs : s.step (.get key) = some s') : Inv kv₀ s' := by
  obtain ⟨⟨kv, r⟩, hget, hs⟩ := Option.bind_eq_some_iff.1 hs
  obtain rfl := Option.some.inj hs
  have hstep : s.kv.step (.get key s.clock) = some (kv, .read r) :=
    Option.map_eq_some_iff.2 ⟨_, hget, rfl⟩
  obtain ⟨-, hc, -⟩ := KVStore.step_eq_some h.logged.regular hstep
  have hlog : Logged s.clock kv := by
    refine h.logged.step le_rfl (fun r hr => ?_) hstep
    cases hr
  exact h.memory hlog (KVStore.step_shardCount hstep) (hc ▸ AgreeFrom.refl _ _)

/-- A sweep while the compaction is on its way. -/
theorem Inv.sweep (h : Inv kv₀ s) {i : ℕ} {range : Range} {now : Time}
    (hs : s.step (.sweep i range now) = some s') : Inv kv₀ s' := by
  obtain ⟨shard, hshard, hs⟩ := Option.bind_eq_some_iff.1 hs
  split_ifs at hs with hnow
  obtain rfl := Option.some.inj hs
  have hagree := KVStore.agreeFrom_sweepShard hshard range hnow
  have hfits := h.logged.fits.of_visible_or_eq (KVStore.content_sweepShard hshard range now)
  exact h.memory (h.logged.of_agree (h.logged.regular.sweepShard hshard range now) hfits rfl rfl
    hagree) rfl hagree

/-- **Every step of the call,** of a reader, of the sweeper and of the clock. -/
theorem Inv.step (h : Inv kv₀ s) {a : Action} (hs : s.step a = some s') : Inv kv₀ s' := by
  have hprogress := h.progress
  have hdetached := h.detached
  cases a with
  | create =>
    simp only [State.step] at hs
    split_ifs at hs with hstage
    obtain rfl := Option.some.inj hs
    exact h.move ⟨_, rfl, rfl⟩ (by rw [hstage]; rfl)
  | readClock =>
    simp only [State.step] at hs
    split_ifs at hs with hstage
    obtain rfl := Option.some.inj hs
    rw [hstage] at hprogress
    obtain ⟨f, hf, hempty⟩ := hprogress
    refine h.move ⟨le_rfl, f, hf, ?_⟩ (by rw [hstage]; rfl)
    rw [hempty]
    exact Copied.nil kv₀ s.clock
  | scan range =>
    simp only [State.step] at hs
    split at hs
    next now next buffer hstage =>
      rw [hstage] at hprogress
      obtain ⟨hnow, f, hf, hcopied⟩ := hprogress
      obtain ⟨shard, hshard, hs⟩ := Option.bind_eq_some_iff.1 hs
      obtain rfl := Option.some.inj hs
      have hnext := hcopied.scan h.logged h.count h.agree hshard range hnow
      rw [List.append_assoc] at hnext
      exact h.move ⟨hnow, f, hf, hnext⟩ (by rw [hstage]; rfl)
    next => cases hs
  | spill n =>
    simp only [State.step] at hs
    split at hs
    next now next buffer f hstage hf =>
      rw [hstage] at hprogress
      obtain ⟨hnow, f', hf', hcopied⟩ := hprogress
      obtain rfl := Option.some.inj (hf.symm.trans hf')
      obtain rfl := Option.some.inj hs
      refine h.move ⟨hnow, _, rfl, ?_⟩ (by rw [hstage]; rfl)
      rwa [List.append_assoc, List.take_append_drop]
    next => cases hs
  | flush =>
    simp only [State.step] at hs
    split at hs
    next now next buffer f hstage hf =>
      split_ifs at hs with hnext
      rw [hstage] at hprogress
      obtain ⟨-, f', hf', hcopied⟩ := hprogress
      obtain rfl := Option.some.inj (hf.symm.trans hf')
      obtain rfl := Option.some.inj hs
      exact h.move ⟨_, rfl, (hnext ▸ hcopied).whole h.count⟩ (by rw [hstage]; rfl)
    next => cases hs
  | sync =>
    simp only [State.step] at hs
    split at hs
    next f hstage hf =>
      rw [hstage] at hprogress
      obtain ⟨f', hf', hwhole⟩ := hprogress
      obtain rfl := Option.some.inj (hf.symm.trans hf')
      obtain rfl := Option.some.inj hs
      exact h.move ⟨_, rfl, hwhole, le_rfl⟩ (by rw [hstage]; rfl)
    next => cases hs
  | close =>
    simp only [State.step] at hs
    split_ifs at hs with hstage
    obtain rfl := Option.some.inj hs
    rw [hstage] at hprogress
    exact h.move hprogress (by rw [hstage]; rfl)
  | rename =>
    simp only [State.step] at hs
    split at hs
    next f hstage hf =>
      rw [hstage] at hprogress
      obtain ⟨f', hf', hwhole, hsynced⟩ := hprogress
      obtain rfl := Option.some.inj (hf.symm.trans hf')
      obtain rfl := Option.some.inj hs
      refine ⟨h.logged, h.count, h.agree, trivial, fun g hg => ?_, rfl⟩
      obtain rfl := Option.some.inj hg
      exact ⟨hwhole, hsynced⟩
    next => cases hs
  | reopen =>
    simp only [State.step] at hs
    split at hs
    next f hstage hf =>
      obtain ⟨hwhole, -⟩ := h.path f hf
      obtain rfl := Option.some.inj hs
      have hlog := h.logged.withFile hwhole.readable (h.count ▸ hwhole.unused)
        (hwhole.agree.trans h.agree.symm)
      refine ⟨hlog, h.count, h.agree, trivial, fun g hg => ?_, rfl⟩
      cases hg
    next => cases hs
  | fail fault =>
    simp only [State.step] at hs
    split_ifs at hs with hnext hfault
    · obtain rfl := Option.some.inj hs
      refine h.move trivial ?_
      rw [State.detached_of_isNext hnext, hfault]
      rfl
    · obtain rfl := Option.some.inj hs
      refine h.move hfault ?_
      rw [State.detached_of_isNext hnext, decide_eq_false hfault]
      rfl
  | remove ok =>
    simp only [State.step] at hs
    split at hs
    next fault hstage =>
      obtain rfl := Option.some.inj hs
      rw [hstage] at hprogress
      refine h.move trivial ?_
      rw [hstage, Stage.detached_returned, decide_eq_false hprogress]
      rfl
    next => cases hs
  | get key => exact h.get hs
  | sweep i range now => exact h.sweep hs
  | tick t =>
    simp only [State.step] at hs
    split_ifs at hs with ht
    obtain rfl := Option.some.inj hs
    exact h.tick ht

/-- **Every state of the call** that can be reached, by steps of the call itself and of whoever
may run beside it. -/
theorem Inv.of_reached (h : Logged t kv₀) {tmp : Option File} (hs : Reached kv₀ tmp t s) :
    Inv kv₀ s :=
  hs.invariant (inv_start h tmp) fun _ _ _ h _ hstep => h.step hstep

/-! ### Crashes -/

/-- Whatever a crash leaves at `path` is rebuilt to what the memory held: the old log, which
still shows it, or the new one, which has been fsynced in full before the rename. -/
theorem Inv.rebuilt (h : Inv kv₀ s) {opts : Options} (hmax : opts.maxMemoryBytes ≤ 0)
    (hcount : kv₀.shardCount = UInt32.ofNat opts.shardCount) {c : Bytes} (hc : s.AfterCrash c)
    (ht : s.clock ≤ t) (ranges : ℕ → Range) (walOpts : Wal.Options) :
    ∃ kv, newKVStore ranges (some c) walOpts opts t = some (.ok kv) ∧
      ∀ k, kv.content k = loaded t (kv₀.content k) := by
  unfold State.AfterCrash at hc
  split at hc
  next =>
    subst hc
    have hunused := h.logged.unused
    rw [h.count, hcount] at hunused
    refine exists_newKVStore_loaded (shardBudget_unlimited hmax) h.logged.readable.file hunused
      (fun t' ht' => ?_) ranges walOpts
    exact (h.logged.agree t' (ht.trans_lt ht')).trans (h.agree.mono (ht.trans ht'.le))
  next f hf =>
    obtain ⟨hwhole, hsynced⟩ := h.path f hf
    obtain ⟨n, hn, rfl⟩ := hc
    rw [List.take_of_length_le (hsynced.trans hn)]
    exact exists_newKVStore_loaded (shardBudget_unlimited hmax) hwhole.readable
      (hcount ▸ hwhole.unused) (fun t' ht' => hwhole.agree.mono (ht.trans ht'.le)) ranges walOpts

/-- **Compaction is crash-atomic.**  A store opened without a cap, whose log is written
through, has been through any run of calls that fit the log's format when `Compact` is
called.  After whichever step the process crashes, whatever an earlier crash left at
`<path>.tmp`: `NewKVStore` on the file at `path` succeeds at any later time `T`, with
exactly those entries that were in memory when the call began and have not expired by
`T`. -/
theorem crash_atomic {ranges₀ : ℕ → Range} {file₀ : Option Bytes} {walOpts : Wal.Options}
    {opts : Options} {t₀ T : Time} {ops : List Op} {rs : List Reply}
    (hmode : walOpts.mode ≠ .interval) (hmax : opts.maxMemoryBytes ≤ 0)
    (hnew : newKVStore ranges₀ file₀ walOpts opts t₀ = some (.ok kv₀))
    (hfits : ∀ op ∈ ops, op.Fits) (hclock : Clocked t₀ ops t)
    (hrun : kv₀.run ops = some (kv, rs)) {tmp : Option File} (hs : Reached kv tmp t s) {c : Bytes}
    (hc : s.AfterCrash c) (hT : s.clock ≤ T) (ranges : ℕ → Range) (walOpts' : Wal.Options) :
    ∃ kv', newKVStore ranges (some c) walOpts' opts T = some (.ok kv') ∧
      ∀ k, kv'.content k = loaded T (kv.content k) := by
  have hlogged := (Logged.newKVStore hmode hmax hnew).run hclock hfits hrun
  have hcount : kv.shardCount = UInt32.ofNat opts.shardCount :=
    (KVStore.run_shardCount hrun).trans (newKVStore_eq_ok hnew).2.1
  exact (Inv.of_reached hlogged hs).rebuilt hmax hcount hc hT ranges walOpts'

/-- A key is set and set again. -/
def setTwice : List Op :=
  [.setWithExpiry (fun _ => Eviction.byKey) [1] [7] 50 1,
    .setWithExpiry (fun _ => Eviction.byKey) [1] [9] 100 2]

/-- A compaction of one shard up to the rename. -/
def toRename : List Action :=
  [.create, .readClock, .scan Eviction.byKey, .spill 3, .flush, .sync, .close, .rename]

/-- The process crashes right after the rename, before the log's handle is switched; there
was a stale temporary file. -/
theorem crash_atomic_renamed :
    ∃ x ∈ oneShard.run setTwice,
      ∃ s ∈ runAll State.step (fun _ _ => True) (.start x.1 (some ⟨[3], 0⟩) 2) toRename,
      ∃ f ∈ s.path, ∃ kv,
        newKVStore (fun _ => Eviction.byKey) (some f.contents) ⟨.none, 0, 0⟩ ⟨1, 0, 0, none⟩ 3 =
          some (.ok kv) ∧ kv.content [1] = some ([9], 100) := by
  obtain ⟨x, hx, s, hs, f, hf, hclock, hcontent⟩ : ∃ x ∈ oneShard.run setTwice,
      ∃ s ∈ runAll State.step (fun _ _ => True) (.start x.1 (some ⟨[3], 0⟩) 2) toRename,
      ∃ f ∈ s.path, s.clock = 2 ∧ x.1.content [1] = some ([9], 100) := by
    decide +kernel
  have hfits : ∀ op ∈ setTwice, op.Fits := by
    have hfirst : (Wal.Record.ofSet [1] [7] 50).Fits := by decide
    have hsecond : (Wal.Record.ofSet [1] [9] 100).Fits := by decide
    simp [setTwice, Op.Fits, Op.record, hfirst, hsecond]
  have hcrash : s.AfterCrash f.contents := by
    rw [State.AfterCrash, hf]
    exact ⟨max f.synced f.contents.length, le_max_left ..,
      (List.take_of_length_le (le_max_right ..)).symm⟩
  obtain ⟨kv, hnew, hc⟩ := crash_atomic (T := 3) (by decide) le_rfl
    (newKVStore_oneShard fun _ => Eviction.byKey) hfits (by decide) hx (reach_of_runAll hs) hcrash
    (by rw [hclock]; decide) (fun _ => Eviction.byKey) ⟨.none, 0, 0⟩
  exact ⟨x, hx, s, hs, f, hf, kv, hnew, by rw [hc, hcontent]; decide⟩

/-! ### Failures -/

/-- What is in the file at `path` when the store, and with it the log that the handle is
on, has become `kv`. -/
def State.atPath (s : State) (kv : KVStore) : Bytes := (s.path.map File.contents).getD kv.wal.file

/-- The call compacts the log. -/
def IsCompact : Op → Prop
  | .compact _ _ => True
  | _ => False

/-- The log is in use after the call has returned: after any further calls but
compactions, the file at `path` is rebuilt to what the memory holds.  The calls are those
whose records the log format can hold, keys of at most 65535 bytes, values under `2 ^ 32` bytes
and expiries in `int64`, and their clock readings do not decrease: of a record outside the format
the log reads back something else, whether or not a compaction has failed. -/
def State.Usable (opts : Options) (s : State) : Prop :=
  ∀ (ops : List Op) (kv : KVStore) (rs : List Reply) (t T : Time) (ranges : ℕ → Range)
    (walOpts : Wal.Options), (∀ op ∈ ops, op.Fits ∧ ¬ IsCompact op) → Clocked s.clock ops t →
    s.kv.run ops = some (kv, rs) → t ≤ T →
    ∃ kv', newKVStore ranges (some (s.atPath kv)) walOpts opts T = some (.ok kv') ∧
      ∀ k, kv'.content k = loaded T (kv.content k)

/-- The handle is on the file at `path`. -/
theorem Inv.usable_of_path (h : Inv kv₀ s) {opts : Options} (hmax : opts.maxMemoryBytes ≤ 0)
    (hcount : kv₀.shardCount = UInt32.ofNat opts.shardCount) (hpath : s.path = none) :
    s.Usable opts := by
  intro ops kv rs t T ranges walOpts hops hclock hrun hT
  have hlogged := h.logged.run hclock (fun op hop => (hops op hop).1) hrun
  have hunused := hlogged.unused
  rw [KVStore.run_shardCount hrun, h.count, hcount] at hunused
  have hfile : s.atPath kv = kv.wal.file := by
    rw [State.atPath, hpath]
    rfl
  rw [hfile]
  exact exists_newKVStore_loaded (shardBudget_unlimited hmax) hlogged.readable.file hunused
    (fun t' ht' => hlogged.agree t' (hT.trans_lt ht')) ranges walOpts

/-- Where the file at `path` is not the one that is written to, it stays what it is. -/
theorem State.atPath_of_path {f : File} (hpath : s.path = some f) (kv : KVStore) :
    s.atPath kv = f.contents := by
  rw [State.atPath, hpath]
  rfl

/-- The handle is on a file that has been replaced.  A set that the file at `path` does not
have is lost, if a key has a shard and there is an expiry ahead of the clock. -/
theorem Inv.not_usable_of_path (h : Inv kv₀ s) {opts : Options} (hcount : s.kv.shardCount ≠ 0)
    (hclock : s.clock < 2 ^ 63 - 1) {f : File} (hpath : s.path = some f) : ¬ s.Usable opts := by
  intro husable
  have hlast : FitsInt64 (2 ^ 63 - 1) := by decide
  -- A value that the file does not have for the key.
  obtain ⟨value, hvalue, hdiff⟩ : ∃ value : Bytes, value.length < 2 ^ 32 ∧
      loaded s.clock (logContent f.contents []) ≠ some (value, 2 ^ 63 - 1) := by
    by_cases h0 : loaded s.clock (logContent f.contents []) = some ([], 2 ^ 63 - 1)
    · exact ⟨[0], by decide, by rw [h0]; simp⟩
    · exact ⟨[], by decide, h0⟩
  let op : Op := .setWithExpiry (fun _ => Eviction.byKey) [] value (2 ^ 63 - 1) s.clock
  have hfits : op.Fits := by
    rintro r ⟨⟩
    exact Wal.Record.fits_ofSet (by decide) hvalue hlast
  obtain ⟨kv, rs, hrun⟩ := KVStore.exists_run h.logged.regular hcount [op]
  obtain ⟨kv', hnew, hc⟩ := husable [op] kv rs s.clock s.clock (fun _ => Eviction.byKey)
    ⟨.always, 0, 0⟩ (List.forall_mem_singleton.2 ⟨hfits, id⟩) ⟨le_rfl, le_rfl⟩ hrun le_rfl
  have hmemory : kv.content [] = some (value, 2 ^ 63 - 1) := by
    obtain ⟨kv₁, r, rs₁, hstep, hnil⟩ := KVStore.run_cons_eq_some hrun
    obtain ⟨rfl, -⟩ := Prod.mk.inj (Option.some.inj hnil)
    rw [(KVStore.step_eq_some h.logged.regular hstep).2.1]
    rfl
  obtain ⟨-, -, -, -, hlog⟩ := newKVStore_eq_ok hnew
  have hkey := hc []
  rw [hlog, State.atPath_of_path hpath, hmemory, Expiry.loaded_some, if_pos hclock] at hkey
  exact hdiff hkey

/-- What is at `path` no longer changes, and that is enough only if nothing can be written to
the memory either, or if nothing that fits the log is still ahead of the clock. -/
theorem Inv.usable_iff_of_path (h : Inv kv₀ s) {opts : Options} (hmax : opts.maxMemoryBytes ≤ 0)
    (hcount : kv₀.shardCount = UInt32.ofNat opts.shardCount) {f : File} (hpath : s.path = some f) :
    s.Usable opts ↔ opts.shardCount % 2 ^ 32 = 0 ∨ 2 ^ 63 - 1 ≤ s.clock := by
  constructor
  · intro husable
    by_contra hne
    obtain ⟨hshards, hclock⟩ := not_or.1 hne
    refine h.not_usable_of_path ?_ (not_le.1 hclock) hpath husable
    rw [h.count, hcount]
    exact fun h0 => hshards ((ofNat_shardCount_eq_zero_iff _).1 h0)
  · intro hcond ops kv rs t T ranges walOpts hops hclock hrun hT
    obtain ⟨hwhole, -⟩ := h.path f hpath
    have hunused := hwhole.unused
    rw [hcount] at hunused
    have hlogged := h.logged.run hclock (fun op hop => (hops op hop).1) hrun
    rw [State.atPath_of_path hpath]
    refine exists_newKVStore_loaded (shardBudget_unlimited hmax) hwhole.readable hunused
      (fun t' ht' => ?_) ranges walOpts
    rcases hcond with hshards | hlate
    · have h0 := (ofNat_shardCount_eq_zero_iff _).2 hshards
      have hnone : kv.shardCount = 0 := by rw [KVStore.run_shardCount hrun, h.count, hcount, h0]
      intro k
      rw [KVStore.content_of_shardCount_eq_zero hnone, logContent, hunused h0]
      rfl
    · have hend {e : Time} (he : FitsInt64 e) : e < t' := by
        have hlt : 2 ^ 63 - 1 < t' := (hlate.trans (hclock.le.trans hT)).trans_lt ht'
        exact he.2.trans_le (Int.sub_one_lt_iff.1 hlt)
      refine Expiry.agreeFrom_of_lt (fun k v e hk => hend ?_) fun k v e hk => hend ?_
      · exact (bounds_of_logContent hk).2.2
      · exact (hlogged.fits k v e hk).fitsInt64

/-- **A failed compaction leaves the log in use** exactly if it is not the reopening of
the log that failed.  (Two stores do not notice: one in which no key has a shard, and one
whose clock has passed every expiry that the log can express.)  The store is any that a run of
calls within the log format has brought about, in the modes `always` and `none` and without a
memory budget. -/
theorem usable_iff {ranges₀ : ℕ → Range} {file₀ : Option Bytes} {walOpts : Wal.Options}
    {opts : Options} {t₀ : Time} {ops : List Op} {rs : List Reply}
    (hmode : walOpts.mode ≠ .interval) (hmax : opts.maxMemoryBytes ≤ 0)
    (hnew : newKVStore ranges₀ file₀ walOpts opts t₀ = some (.ok kv₀))
    (hfits : ∀ op ∈ ops, op.Fits) (hclock : Clocked t₀ ops t)
    (hrun : kv₀.run ops = some (kv, rs)) {tmp : Option File} (hs : Reached kv tmp t s)
    {fault : Fault} (hret : s.stage = .returned (some fault)) :
    s.Usable opts ↔
      fault ≠ .reopen ∨ opts.shardCount % 2 ^ 32 = 0 ∨ 2 ^ 63 - 1 ≤ s.clock := by
  have hlogged := (Logged.newKVStore hmode hmax hnew).run hclock hfits hrun
  have hcount : kv.shardCount = UInt32.ofNat opts.shardCount :=
    (KVStore.run_shardCount hrun).trans (newKVStore_eq_ok hnew).2.1
  have hinv := Inv.of_reached hlogged hs
  have hdetached := hinv.detached
  rw [hret, Stage.detached_returned] at hdetached
  by_cases hfault : fault = .reopen
  · rw [decide_eq_true hfault] at hdetached
    obtain ⟨f, hf⟩ := Option.isSome_iff_exists.1 hdetached
    rw [hinv.usable_iff_of_path hmax hcount hf]
    exact ⟨Or.inr, fun h => h.resolve_left (not_not.2 hfault)⟩
  · rw [decide_eq_false hfault, Option.isSome_eq_false_iff, Option.isNone_iff_eq_none] at hdetached
    exact iff_of_true (hinv.usable_of_path hmax hcount hdetached) (Or.inl hfault)

/-- The temporary file cannot be renamed over the log, and then it cannot be removed. -/
def failsToRename : List Action :=
  [.create, .readClock, .scan Eviction.byKey, .flush, .sync, .close, .fail .rename, .remove false]

/-- A key has been set before. -/
def setBefore : List Op := [.setWithExpiry (fun _ => Eviction.byKey) [1] [9] 100 0]

/-- A store with one key is compacted, and the rename fails: the log is in use as before. -/
theorem usable_iff_rename :
    ∃ x ∈ oneShard.run setBefore,
      ∃ s ∈ runAll State.step (fun _ _ => True) (.start x.1 none 0) failsToRename,
        s.kv.content [1] = some ([9], 100) ∧ s.Usable ⟨1, 0, 0, none⟩ := by
  obtain ⟨x, hx, s, hs, hcontent, hret⟩ :
      ∃ x ∈ oneShard.run setBefore,
        ∃ s ∈ runAll State.step (fun _ _ => True) (.start x.1 none 0) failsToRename,
          s.kv.content [1] = some ([9], 100) ∧ s.stage = .returned (some .rename) := by
    decide +kernel
  have hfits : ∀ op ∈ setBefore, op.Fits := by
    refine List.forall_mem_singleton.2 ?_
    rintro r ⟨⟩
    exact Wal.Record.fits_ofSet (by decide) (by decide) (by decide)
  refine ⟨x, hx, s, hs, hcontent, (usable_iff (by decide) le_rfl
    (newKVStore_oneShard fun _ => Eviction.byKey) hfits ⟨le_rfl, le_rfl⟩ hx (reach_of_runAll hs)
    hret).2 ?_⟩
  exact Or.inl (by decide)

/-- **The writes after a failed reopening are lost.**  The log of an empty store is
compacted, and cannot be opened again after the rename.  A key is set and is in memory; the
file at `path` has nothing of it. -/
theorem written_to_replaced_file :
    ∃ s ∈ runAll State.step (fun _ _ => True) (.start oneShard none 0)
        [.create, .readClock, .scan Eviction.byKey, .flush, .sync, .close, .rename, .fail .reopen],
      s.stage = .returned (some .reopen) ∧
      ∃ x ∈ s.kv.run [.setWithExpiry (fun _ => Eviction.byKey) [1] [9] 100 1],
        x.1.content [1] = some ([9], 100) ∧
        ∃ kv, newKVStore (fun _ => Eviction.byKey) (some (s.atPath x.1)) ⟨.always, 0, 0⟩
          ⟨1, 0, 0, none⟩ 1 = some (.ok kv) ∧ kv.content [1] = none := by
  obtain ⟨s, hs, hret, x, hx, hcontent, hpath⟩ :
      ∃ s ∈ runAll State.step (fun _ _ => True) (.start oneShard none 0)
        [.create, .readClock, .scan Eviction.byKey, .flush, .sync, .close, .rename, .fail .reopen],
      s.stage = .returned (some .reopen) ∧
      ∃ x ∈ s.kv.run [.setWithExpiry (fun _ => Eviction.byKey) [1] [9] 100 1],
        x.1.content [1] = some ([9], 100) ∧ s.atPath x.1 = [] := by
    decide +kernel
  refine ⟨s, hs, hret, x, hx, hcontent, ?_⟩
  have hb : shardBudget ⟨1, 0, 0, none⟩ = some 0 := shardBudget_unlimited le_rfl
  obtain ⟨kv, hnew⟩ := exists_newKVStore (some (s.atPath x.1)) hb (by rw [hpath]; rfl)
    (Or.inr (by rw [hpath]; rfl)) (fun _ => Eviction.byKey) ⟨.always, 0, 0⟩ 1
  obtain ⟨-, -, -, -, hc⟩ := newKVStore_eq_ok hnew
  refine ⟨kv, hnew, ?_⟩
  rw [hc, hpath]
  rfl

end Compacting
end Store
end Keva
