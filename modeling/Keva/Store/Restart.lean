/-
# Nothing is lost in a restart

A store without a budget, whose log is written through, can be reopened on its
log at any moment: `get_newKVStore_run` says that from the next instant on `Get`
returns in the reopened store exactly what it would have returned in the
original one.  The history on disk and the map in memory are different things by
then: overwritten and deleted entries are in the log and not in the map, swept
ones too, and a compaction has replaced the history by what was live when it
ran.  What they have in common is what a reader can still see, and that every
call keeps (`Logged.step`).
-/

import Keva.Store.Run

namespace Keva
namespace Store

open Eviction (Range)
open Expiry (Content Write visible loaded AgreeFrom)

/-- The record of the call, if it appends one, fits the format of the log. -/
def Op.Fits (op : Op) : Prop := ∀ r, op.record = some r → r.Fits

variable {kv kv' : KVStore} {op : Op} {ops : List Op} {r : Reply} {rs : List Reply}
  {t t' : Time}

/-- Memory and log of a store without a budget, after a last clock reading `t`:
the log can be read, and shows every later reader what the memory shows. -/
structure Logged (t : Time) (kv : KVStore) : Prop where
  regular : kv.Regular 0
  mode_ne : kv.wal.options.mode ≠ .interval
  readable : kv.wal.Readable
  unused : kv.shardCount = 0 → (Wal.replay kv.wal.file).1 = []
  fits : kv.Fits
  agree : ∀ t', t < t' → AgreeFrom t' (logContent kv.wal.file) kv.content

/-- A store just opened without a cap. -/
theorem regular_fits_of_newKVStore {ranges : ℕ → Range} {file : Option Bytes}
    {walOpts : Wal.Options} {opts : Options} (hmax : opts.maxMemoryBytes ≤ 0)
    (h : newKVStore ranges file walOpts opts t = some (.ok kv)) : kv.Regular 0 ∧ kv.Fits := by
  obtain ⟨-, -, -, ⟨b, hb, hreg⟩, hc⟩ := newKVStore_eq_ok h
  rw [shardBudget_unlimited hmax] at hb
  obtain rfl := Option.some.inj hb
  refine ⟨hreg, fun k v e hk => ?_⟩
  rw [hc] at hk
  obtain ⟨hlog, -⟩ := Expiry.loaded_eq_some_iff.1 hk
  obtain ⟨hkey, hvalue, hexp⟩ := bounds_of_logContent hlog
  exact Wal.Record.fits_ofSet hkey hvalue hexp

/-- A store just opened on a log. -/
theorem Logged.newKVStore {ranges : ℕ → Range} {file : Option Bytes} {walOpts : Wal.Options}
    {opts : Options} (hmode : walOpts.mode ≠ .interval) (hmax : opts.maxMemoryBytes ≤ 0)
    (h : newKVStore ranges file walOpts opts t = some (.ok kv)) : Logged t kv := by
  obtain ⟨hreg, hfits⟩ := regular_fits_of_newKVStore hmax h
  obtain ⟨hread, hcount, hwal, -, hc⟩ := newKVStore_eq_ok h
  have hfile : kv.wal.file = file.getD [] := by rw [hwal]; rfl
  refine ⟨hreg, by rw [hwal]; exact hmode,
    by rw [hwal]; exact Wal.WAL.readable_openLog hread walOpts, ?_, hfits, ?_⟩
  · rw [hfile, hcount]
    exact records_eq_nil_of_newKVStore h
  · intro t' ht k
    rw [hfile, hc, Expiry.visible_loaded ht]

/-- A log that shows what the memory shows from some moment on does so from any later one on. -/
theorem Logged.mono (h : Logged t kv) (ht : t ≤ t') : Logged t' kv :=
  ⟨h.regular, h.mode_ne, h.readable, h.unused, h.fits, fun x hx => h.agree x (ht.trans_lt hx)⟩

/-- A call that writes: one more record in the log, one more write in memory. -/
theorem Logged.append (h : Logged t kv) {record : Wal.Record} {w : Write Key Bytes Time}
    (hw : writeOf record = some w) (hr : record.Fits) (hreg : kv'.Regular 0)
    (hshard : kv'.shardCount ≠ 0) (hc : kv'.content = w.apply kv.content)
    (hwal : kv'.wal = kv.wal.append record) : Logged t kv' := by
  have hfile : kv'.wal.file = kv.wal.file ++ record.encode := by
    rw [hwal, Wal.WAL.append_file h.mode_ne]
  obtain ⟨-, hlog⟩ := logContent_append h.readable.file hr hw
  refine ⟨hreg, by rw [hwal, Wal.WAL.append_options]; exact h.mode_ne,
    by rw [hwal]; exact h.readable.append hr, fun h0 => absurd h0 hshard,
    h.fits.apply hw hr hc, fun t' ht => ?_⟩
  rw [hfile, hlog, hc]
  exact (h.agree t' ht).apply w

/-- The memory changes in a way that no later reader notices. -/
theorem Logged.of_agree (h : Logged t kv) (hreg : kv'.Regular 0) (hfits : kv'.Fits)
    (hcount : kv'.shardCount = kv.shardCount) (hwal : kv'.wal = kv.wal)
    (hc : AgreeFrom t kv'.content kv.content) : Logged t kv' := by
  refine ⟨hreg, hwal ▸ h.mode_ne, hwal ▸ h.readable, hwal ▸ hcount ▸ h.unused, hfits,
    fun t' ht => ?_⟩
  rw [hwal]
  exact (h.agree t' ht).trans (hc.mono ht.le).symm

/-- A call that leaves the log alone, and of each entry at least what can still
be seen. -/
theorem Logged.quiet (h : Logged t kv) (hreg : kv'.Regular 0)
    (hcount : kv'.shardCount = kv.shardCount) (hwal : kv'.wal = kv.wal)
    (hc : ∀ k, kv'.content k = visible t (kv.content k) ∨ kv'.content k = kv.content k) :
    Logged t kv' :=
  h.of_agree hreg (h.fits.of_visible_or_eq hc) hcount hwal (Expiry.agreeFrom_of_visible_or_eq hc)

/-- Another file takes the place of the log, and shows what the memory shows. -/
theorem Logged.withFile (h : Logged t kv) {file : Bytes} (hread : (Wal.replay file).2 = none)
    (hunused : kv.shardCount = 0 → (Wal.replay file).1 = [])
    (hagree : AgreeFrom t (logContent file) kv.content) :
    Logged t { kv with wal := { kv.wal with file := file } } :=
  ⟨h.regular.withWal _, h.mode_ne, ⟨h.readable.settled, hread, h.readable.queue⟩, hunused, h.fits,
    fun _ ht => hagree.mono ht.le⟩

/-- A compaction: the log becomes what is visible in memory, and to later readers that is all
there was. -/
theorem Logged.compact (h : Logged t kv) (ranges : ℕ → Range) :
    Logged t (kv.compact ranges t) := by
  obtain ⟨hfits, hlog⟩ := KVStore.logContent_snapshot h.regular ranges t h.fits
  refine h.withFile (by rw [Wal.replay_encodeAll hfits]) (fun h0 => ?_) ?_
  · have hnil : kv.snapshot ranges t = [] := by
      refine List.eq_nil_iff_forall_not_mem.2 fun r hr => ?_
      obtain ⟨k, v, e, hv, -⟩ := (KVStore.mem_snapshot_iff h.regular ranges t r).1 hr
      have hnone : kv.content k = none := KVStore.content_of_shardCount_eq_zero h0 k
      rw [hnone] at hv
      cases hv
    rw [hnil]
    rfl
  · rw [hlog]
    exact Expiry.agreeFrom_of_visible_or_eq fun k => Or.inl rfl

/-- **Every call keeps log and memory together:** it appends one record and makes the same write,
or does neither, and a compaction replaces the log by what the memory shows. -/
theorem Logged.step (h : Logged t kv) (ht : t ≤ op.at?.getD t) (hop : op.Fits)
    (hs : kv.step op = some (kv', r)) : Logged (op.at?.getD t) kv' := by
  obtain ⟨hreg, hc, -, hwal⟩ := KVStore.step_eq_some h.regular hs
  have hcount := KVStore.step_shardCount hs
  have hlater : Logged (op.at?.getD t) kv := h.mono ht
  cases op with
  | setWithExpiry ranges key value expiredAt now =>
    exact hlater.append (writeOf_ofSet key value expiredAt) (hop _ rfl) hreg
      (hcount ▸ KVStore.shardCount_ne_zero_of_step hs rfl) hc hwal
  | get key now => exact hlater.quiet hreg hcount hwal fun k => Or.inr (congrFun hc k)
  | delete key =>
    exact hlater.append (writeOf_ofDelete key) (hop _ rfl) hreg
      (hcount ▸ KVStore.shardCount_ne_zero_of_step hs rfl) hc hwal
  | sweep ranges now => exact hlater.quiet hreg hcount hwal fun k => Or.inl (congrFun hc k)
  | compact ranges now =>
    obtain ⟨rfl, -⟩ := Prod.mk.inj (Option.some.inj hs)
    exact hlater.compact ranges
  | flush n =>
    have hflush := Wal.WAL.flush_of_writeCh_eq_nil (h.readable.settled h.mode_ne) n
    exact hlater.quiet hreg hcount (hwal.trans hflush) fun k => Or.inr (congrFun hc k)

/-- **So does every run** in which the clock does not go back, by induction on its calls. -/
theorem Logged.run (h : Logged t kv) (hc : Clocked t ops t') (hops : ∀ op ∈ ops, op.Fits)
    (hr : kv.run ops = some (kv', rs)) : Logged t' kv' := by
  induction ops generalizing kv t rs with
  | nil =>
    obtain ⟨rfl, rfl⟩ := Prod.mk.inj (Option.some.inj hr)
    exact h.mono hc
  | cons op ops ih =>
    obtain ⟨kv₁, r, rs₁, hstep, hrun⟩ := KVStore.run_cons_eq_some hr
    obtain ⟨hle, hclock⟩ := clocked_cons hc
    have h₁ := h.step hle (hops op List.mem_cons_self) hstep
    exact ih h₁ hclock (fun op hop => hops op (List.mem_cons_of_mem _ hop)) hrun

/-- **What is rebuilt from a log** that can be read and shows every reader after `t`
the content `m`. -/
theorem exists_newKVStore_loaded {opts : Options} {b : ℤ} (hb : shardBudget opts = some b)
    {file : Bytes} (hread : (Wal.replay file).2 = none)
    (hunused : UInt32.ofNat opts.shardCount = 0 → (Wal.replay file).1 = [])
    {m : Content Key Bytes Time} (hagree : ∀ t' > t, AgreeFrom t' (logContent file) m)
    (ranges : ℕ → Range) (walOpts : Wal.Options) :
    ∃ kv', newKVStore ranges (some file) walOpts opts t = some (.ok kv') ∧
      ∀ k, kv'.content k = loaded t (m k) := by
  have hshards : UInt32.ofNat opts.shardCount ≠ 0 ∨ (Wal.replay file).1 = [] := by
    by_cases h0 : UInt32.ofNat opts.shardCount = 0
    · exact Or.inr (hunused h0)
    · exact Or.inl h0
  obtain ⟨kv', hnew⟩ := exists_newKVStore (some file) hb hread hshards ranges walOpts t
  refine ⟨kv', hnew, fun k => ?_⟩
  obtain ⟨-, -, -, -, hc⟩ := newKVStore_eq_ok hnew
  rw [hc k]
  exact Expiry.loaded_eq_of_visible_eq fun t' ht => hagree t' ht k

/-- Two stores answer `Get` alike where they show the same, or where no key has a
shard in either. -/
theorem get_congr {now : Time} {b b' : ℤ} (h : kv.Regular b) (h' : kv'.Regular b')
    (hcount : kv'.shardCount = kv.shardCount) (k : Key)
    (hv : visible now (kv'.content k) = visible now (kv.content k)) :
    (kv'.get k now).map Prod.snd = (kv.get k now).map Prod.snd := by
  by_cases h0 : kv.shardCount = 0
  · have hnone := KVStore.getShard_of_shardCount_eq_zero h0 k
    have hnone' := KVStore.getShard_of_shardCount_eq_zero (hcount.trans h0) k
    simp [KVStore.get, hnone, hnone']
  · obtain ⟨kv₁, r₁, hget⟩ := KVStore.get_isSome h0 k now
    obtain ⟨kv₂, r₂, hget'⟩ := KVStore.get_isSome (hcount ▸ h0) k now
    rw [hget, hget', Option.map_some, Option.map_some, (KVStore.get_eq_some h hget).1,
      (KVStore.get_eq_some h' hget').1, hv]

/-- **A restart is not noticed.**  After any run of calls that fit the log's
format on a store opened without a cap and with a log that is written through,
`NewKVStore` on what is then in the file succeeds at any time from the last clock
reading on, and every later `Get` returns in the reopened store what it would
have returned in the original one. -/
theorem get_newKVStore_run {ranges₀ : ℕ → Range} {file₀ : Option Bytes} {walOpts : Wal.Options}
    {opts : Options} {t₀ : Time} {kv₀ : KVStore} (hmode : walOpts.mode ≠ .interval)
    (hmax : opts.maxMemoryBytes ≤ 0)
    (hnew : newKVStore ranges₀ file₀ walOpts opts t₀ = some (.ok kv₀))
    (hfits : ∀ op ∈ ops, op.Fits) (hclock : Clocked t₀ ops t)
    (hrun : kv₀.run ops = some (kv, rs)) (ranges : ℕ → Range) (walOpts' : Wal.Options) :
    ∃ kv', newKVStore ranges (some kv.wal.file) walOpts' opts t = some (.ok kv') ∧
      ∀ k t', t < t' → (kv'.get k t').map Prod.snd = (kv.get k t').map Prod.snd := by
  have h := (Logged.newKVStore hmode hmax hnew).run hclock hfits hrun
  have hcount : kv.shardCount = UInt32.ofNat opts.shardCount :=
    (KVStore.run_shardCount hrun).trans (newKVStore_eq_ok hnew).2.1
  obtain ⟨kv', hnew', hc'⟩ := exists_newKVStore_loaded (shardBudget_unlimited hmax)
    h.readable.file (hcount ▸ h.unused) h.agree ranges walOpts'
  refine ⟨kv', hnew', fun k t' ht => ?_⟩
  obtain ⟨-, hcount', -, ⟨b, -, hreg'⟩, -⟩ := newKVStore_eq_ok hnew'
  refine get_congr h.regular hreg' (hcount'.trans hcount.symm) k ?_
  rw [hc', Expiry.visible_loaded ht]

/-- Four shards without a budget, on an empty log. -/
def fourShards : KVStore := emptyStore 0 ⟨.always, 0, 0⟩ none ⟨4, 0, 0, some .relaxed⟩

/-- It is what `NewKVStore` makes of no log with four shards and the policy `relaxed`. -/
theorem newKVStore_fourShards (ranges : ℕ → Range) :
    newKVStore ranges none ⟨.always, 0, 0⟩ ⟨4, 0, 0, some .relaxed⟩ 0 = some (.ok fourShards) :=
  newKVStore_empty (by simp [shardBudget]) ranges _ 0

/-- A set, a sweep, a delete of another key and a compaction, on four shards. -/
def setAndCompact : List Op :=
  [.setWithExpiry (fun _ => Eviction.byKey) [1] [7] 20 3, .sweep (fun _ => Eviction.byKey) 5,
    .delete [2], .compact (fun _ => Eviction.byKey) 6]

/-- The key that was set survives the restart: the reopened store returns its value, as the
original one does. -/
theorem get_newKVStore_run_of_set_compact :
    ∃ x ∈ fourShards.run setAndCompact,
      ∃ kv', newKVStore (fun _ => Eviction.byKey) (some x.1.wal.file) ⟨.none, 0, 0⟩
          ⟨4, 0, 0, some .relaxed⟩ 6 = some (.ok kv') ∧
        (kv'.get [1] 9).map Prod.snd = (x.1.get [1] 9).map Prod.snd ∧
        (kv'.get [1] 9).map Prod.snd = some (.ok [7]) := by
  obtain ⟨x, hx, hvalue⟩ : ∃ x ∈ fourShards.run setAndCompact,
      (x.1.get [1] 9).map Prod.snd = some (.ok [7]) := by
    decide +kernel
  have hfits : ∀ op ∈ setAndCompact, op.Fits := by
    have hset : (Wal.Record.ofSet [1] [7] 20).Fits :=
      Wal.Record.fits_ofSet (by decide) (by decide) (by decide)
    have hdel : (Wal.Record.ofDelete [2]).Fits := Wal.Record.fits_ofDelete (by decide)
    simp [setAndCompact, Op.Fits, Op.record, hset, hdel]
  obtain ⟨kv', hnew', hget⟩ := get_newKVStore_run (t := 6) (by decide) le_rfl
    (newKVStore_fourShards fun _ => Eviction.byKey) hfits (by decide) hx (fun _ => Eviction.byKey)
    ⟨.none, 0, 0⟩
  have heq := hget [1] 9 (by decide)
  exact ⟨x, hx, kv', hnew', heq, heq.trans hvalue⟩

end Store
end Keva
