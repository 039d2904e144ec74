/-
# What a store is rebuilt to

The content of a log is what its writes leave behind, the first one first
(`logContent`).  A store opened at time `now` on a log that can be read holds of
it what has not expired by then (`newKVStore_eq_ok`), whatever the number of
shards, the budget and the policy; and opening succeeds on every log that can be
read, if keys have shards or there is nothing to load (`exists_newKVStore`).
-/

import Keva.Store.Content

namespace Keva
namespace Store

open Bytes
open Eviction (Range)
open Expiry (Content Write visible loaded)

/-- What the records of a log leave behind. -/
def logContent (file : Bytes) : Content Key Bytes Time :=
  Expiry.replay ((Wal.replay file).1.filterMap writeOf) fun _ => none

/-- An empty log has nothing. -/
@[simp] theorem logContent_nil : logContent [] = fun _ => none := rfl

/-- **Records appended to a log** that can be read to its end are as many more
writes. -/
theorem logContent_encodeAll {file : Bytes} (h : (Wal.replay file).2 = none)
    {rs : List Wal.Record} (hrs : ∀ r ∈ rs, r.Fits) :
    (Wal.replay (file ++ Wal.encodeAll rs)).2 = none ∧
      logContent (file ++ Wal.encodeAll rs) =
        Expiry.replay (rs.filterMap writeOf) (logContent file) := by
  have happ := Wal.replay_append h (Wal.encodeAll rs)
  rw [Wal.replay_encodeAll hrs] at happ
  refine ⟨by rw [happ], ?_⟩
  unfold logContent
  rw [happ, List.filterMap_append, Expiry.replay_append, List.filterMap_map]
  simp

/-- **A record appended to a log** is one more write, if it fits the format, and the log can
still be read to its end. -/
theorem logContent_append {file : Bytes} (h : (Wal.replay file).2 = none) {r : Wal.Record}
    (hr : r.Fits) {w : Write Key Bytes Time} (hw : writeOf r = some w) :
    (Wal.replay (file ++ r.encode)).2 = none ∧
      logContent (file ++ r.encode) = w.apply (logContent file) := by
  have hone := logContent_encodeAll h (List.forall_mem_singleton.2 hr)
  simpa [Wal.encodeAll, hw] using hone

/-- **A set appended to a log,** whatever its expiry: the log has it with the expiry that is
read back, the low 64 bits as a signed number. -/
theorem logContent_append_set {file : Bytes} (h : (Wal.replay file).2 = none) {key : Key}
    {value : Bytes} (hk : key.length ≤ 65535) (hv : value.length < 2 ^ 32) (expiredAt : Time) :
    (Wal.replay (file ++ (Wal.Record.ofSet key value expiredAt).encode)).2 = none ∧
      logContent (file ++ (Wal.Record.ofSet key value expiredAt).encode) =
        (Write.set key value (int64 (uint64 expiredAt))).apply (logContent file) := by
  rw [← Wal.Record.encode_wrapExpiry]
  exact logContent_append h (Wal.Record.lengthsFit_ofSet hk hv expiredAt).fits_wrapExpiry rfl

/-- The key of a record is that of its write. -/
theorem key_of_writeOf {r : Wal.Record} {w : Write Key Bytes Time} (h : writeOf r = some w) :
    w.key = r.key := by
  unfold writeOf at h
  split_ifs at h <;> obtain rfl := Option.some.inj h <;> rfl

/-- What a record that fits leaves behind fits. -/
theorem fits_of_writeOf {r : Wal.Record} {w : Write Key Bytes Time} (h : writeOf r = some w)
    (hr : r.Fits) {v : Bytes} {e : Time} (he : w.entry = some (v, e)) :
    (Wal.Record.ofSet w.key v e).Fits := by
  unfold writeOf at h
  split_ifs at h with hset hdel <;> obtain rfl := Option.some.inj h
  · obtain ⟨rfl, rfl⟩ := Prod.mk.inj (Option.some.inj he)
    rcases hr.cases_op with ⟨-, hexp⟩ | ⟨hdel, -⟩
    · exact Wal.Record.fits_ofSet hr.key_le hr.value_lt hexp
    · rw [hset] at hdel
      cases hdel
  · cases he

/-- The writes of a list of sets, one per entry of `m`. -/
theorem mem_writes_iff {rs : List Wal.Record} {m : Content Key Bytes Time}
    (h : ∀ r, r ∈ rs ↔ ∃ k v e, m k = some (v, e) ∧ r = .ofSet k v e)
    (w : Write Key Bytes Time) :
    w ∈ rs.filterMap writeOf ↔ ∃ k v e, m k = some (v, e) ∧ w = .set k v e := by
  simp only [List.mem_filterMap, h]
  constructor
  · rintro ⟨r, ⟨k, v, e, hv, rfl⟩, hw⟩
    exact ⟨k, v, e, hv, (Option.some.inj hw).symm⟩
  · rintro ⟨k, v, e, hv, rfl⟩
    exact ⟨.ofSet k v e, ⟨k, v, e, hv, rfl⟩, rfl⟩

/-- What a log leaves behind has room in a record. -/
theorem bounds_of_logContent {file : Bytes} {k : Key} {v : Bytes} {e : Time}
    (h : logContent file k = some (v, e)) :
    k.length ≤ 65535 ∧ v.length < 2 ^ 32 ∧ FitsInt64 e := by
  obtain ⟨w, hw, hk, he⟩ := Expiry.exists_mem_of_replay_eq_some rfl h
  obtain ⟨r, hr, hwr⟩ := List.mem_filterMap.1 hw
  obtain ⟨hkey, hvalue, hexp⟩ := Wal.bounds_of_mem_replay hr
  unfold writeOf at hwr
  split_ifs at hwr <;> obtain rfl := Option.some.inj hwr
  · obtain ⟨rfl, rfl⟩ := Prod.mk.inj (Option.some.inj he)
    exact ⟨hk ▸ hkey, hvalue, hexp⟩
  · cases he

namespace KVStore

variable {kv kv' : KVStore} {b : ℤ} {now : Time}

/-- **Recovery of one record** loads of it what has not expired.  An expired set takes away what
earlier records had put under its key. -/
theorem load_eq_some {r : Wal.Record} (hr : kv.load now r = some kv') :
    kv'.shardCount = kv.shardCount ∧ kv'.wal = kv.wal ∧ (∀ b, kv.Regular b → kv'.Regular b) ∧
      kv'.content =
        match writeOf r with
        | none => kv.content
        | some w => Function.update kv.content w.key (loaded now w.entry) := by
  simp only [load, bind, Option.bind_eq_some_iff, pure, Option.some.injEq] at hr
  obtain ⟨i, hk, s, hs, rfl⟩ := hr
  obtain ⟨hb, hc⟩ := Shard.content_load now s r
  have hb' {b : ℤ} (h : kv.Regular b) : (s.load now r).budget = b :=
    hb.trans (h.budget_eq s (List.mem_of_getElem? hs))
  cases hw : writeOf r with
  | none =>
    have hc' : (s.load now r).content = Function.update s.content r.key (s.content r.key) := by
      rw [hc, hw, Function.update_eq_self]
    refine ⟨rfl, rfl, fun b h => h.setShard hk hs hc' (hb' h), ?_⟩
    rw [content_setShard hk hs hc', ← content_of_getShard hk hs, Function.update_eq_self]
  | some w =>
    rw [hw] at hc
    rw [← key_of_writeOf hw] at hk
    exact ⟨rfl, rfl, fun b h => h.setShard hk hs hc (hb' h), content_setShard hk hs hc⟩

/-- A record is loaded wherever there is a shard for its key. -/
theorem exists_load (hc : kv.shardCount ≠ 0) (now : Time) (r : Wal.Record) :
    ∃ kv', kv.load now r = some kv' := by
  obtain ⟨i, s, hk, hs⟩ := exists_shard hc r.key
  exact ⟨kv.setShard i (s.load now r), by simp [load, hk, hs]⟩

/-- **Recovery of a list of records,** on a store that holds what is loaded of
`m`: an expired value is not loaded, and still replaces what was there. -/
theorem foldlM_load_eq_some {records : List Wal.Record}
    (hr : records.foldlM (load now) kv = some kv') {m : Content Key Bytes Time}
    (hm : ∀ k, kv.content k = loaded now (m k)) :
    kv'.shardCount = kv.shardCount ∧ kv'.wal = kv.wal ∧ (∀ b, kv.Regular b → kv'.Regular b) ∧
      ∀ k, kv'.content k = loaded now (Expiry.replay (records.filterMap writeOf) m k) := by
  induction records generalizing kv m with
  | nil =>
    obtain rfl := Option.some.inj hr
    exact ⟨rfl, rfl, fun _ h => h, hm⟩
  | cons r records ih =>
    obtain ⟨kv₁, hload, hr⟩ := Option.bind_eq_some_iff.1 hr
    obtain ⟨hcount, hwal, hreg, hc⟩ := load_eq_some hload
    cases hw : writeOf r with
    | none =>
      rw [hw] at hc
      obtain ⟨h₁, h₂, h₃, h₄⟩ := ih hr fun k => (congrFun hc k).trans (hm k)
      refine ⟨h₁.trans hcount, h₂.trans hwal, fun b h => h₃ b (hreg b h), fun k => ?_⟩
      rw [h₄, List.filterMap_cons_none hw]
    | some w =>
      simp only [hw] at hc
      have hm₁ : ∀ k, kv₁.content k = loaded now (w.apply m k) := fun k => by
        rw [hc]
        by_cases hk : k = w.key
        · rw [hk, Function.update_self, Write.apply_key]
        · rw [Function.update_of_ne hk, Write.apply_of_ne hk, hm]
      obtain ⟨h₁, h₂, h₃, h₄⟩ := ih hr hm₁
      refine ⟨h₁.trans hcount, h₂.trans hwal, fun b h => h₃ b (hreg b h), fun k => ?_⟩
      rw [h₄, List.filterMap_cons_some hw, Expiry.replay_cons]

/-- A whole log is loaded if there are shards, and an empty one in any case. -/
theorem exists_foldlM_load (kv : KVStore) {records : List Wal.Record}
    (hc : kv.shardCount ≠ 0 ∨ records = []) (now : Time) : ∃ kv', records.foldlM (load now) kv = some kv' := by
  induction records generalizing kv with
  | nil => exact ⟨kv, rfl⟩
  | cons r records ih =>
    have hc := hc.resolve_right (List.cons_ne_nil _ _)
    obtain ⟨kv₁, hload⟩ := exists_load hc now r
    obtain ⟨kv', hrest⟩ := ih kv₁ (Or.inl ((load_eq_some hload).1 ▸ hc))
    exact ⟨kv', Option.bind_eq_some_iff.2 ⟨kv₁, hload, hrest⟩⟩

/-- The end of recovery counts what has been loaded, and changes none of it. -/
theorem content_settle (ranges : ℕ → Range) (kv : KVStore) :
    (kv.settle ranges).content = kv.content :=
  funext (content_mapIdx (g := id) rfl (fun i s k => by
    unfold Shard.content
    rw [(Shard.data_settle (ranges i) s).1]
    rfl) _)

/-- Nor does it move keys between shards. -/
theorem Regular.settle (h : kv.Regular b) (ranges : ℕ → Range) :
    (kv.settle ranges).Regular b :=
  h.mapIdx (fun i s => (Shard.data_settle (ranges i) s).2) (fun i s k hne => by
    unfold Shard.content at hne ⊢
    rwa [(Shard.data_settle (ranges i) s).1] at hne) _

/-- Every entry fits the format of the log, which is what a compaction needs. -/
def Fits (kv : KVStore) : Prop :=
  ∀ k v e, kv.content k = some (v, e) → (Wal.Record.ofSet k v e).Fits

/-- Contents of which entries have been dropped still fit. -/
theorem Fits.of_visible_or_eq (h : kv.Fits) {t : Time}
    (hc : ∀ k, kv'.content k = visible t (kv.content k) ∨ kv'.content k = kv.content k) :
    kv'.Fits := by
  intro k v e hk
  rcases hc k with hk' | hk'
  · rw [hk'] at hk
    exact h k v e (Expiry.visible_eq_some_iff.1 hk).1
  · exact h k v e (hk' ▸ hk)

/-- A write within the log format keeps the contents within it. -/
theorem Fits.apply (h : kv.Fits) {r : Wal.Record} {w : Write Key Bytes Time}
    (hw : writeOf r = some w) (hr : r.Fits) (hc : kv'.content = w.apply kv.content) : kv'.Fits := by
  intro k v e hk
  rw [hc] at hk
  by_cases hkey : k = w.key
  · rw [hkey, Write.apply_key] at hk
    exact hkey ▸ fits_of_writeOf hw hr hk
  · rw [Write.apply_of_ne hkey] at hk
    exact h k v e hk

/-- **A scan of one shard** adds what is visible there to a log, and nothing else. -/
theorem logContent_scan (h : kv.Regular b) (hfits : kv.Fits) {i : ℕ} {s : Shard}
    (hs : kv.shards[i]? = some s) {file : Bytes} (hread : (Wal.replay file).2 = none)
    (range : Range) (now : Time) :
    (Wal.replay (file ++ Wal.encodeAll (s.snapshot range now))).2 = none ∧
      ∀ k, logContent (file ++ Wal.encodeAll (s.snapshot range now)) k =
        if kv.getShard k = some i then (visible now (kv.content k)).or (logContent file k)
        else logContent file k := by
  have hrecord : ∀ r ∈ s.snapshot range now, r.Fits := by
    intro r hr
    obtain ⟨k, v, e, hv, rfl⟩ := (Shard.mem_snapshot_iff ..).1 hr
    have hk := (Expiry.visible_eq_some_iff.1 hv).1
    have hget := h.placed hs (k := k) (by rw [hk]; exact Option.some_ne_none _)
    exact hfits k v e (by rw [content_of_getShard hget hs, hk])
  obtain ⟨hread', hlog⟩ := logContent_encodeAll hread hrecord
  refine ⟨hread', fun k => ?_⟩
  rw [hlog, Expiry.replay_sets (m := fun k => visible now (s.content k))
    (mem_writes_iff (Shard.mem_snapshot_iff range now s))]
  split_ifs with hk
  · rw [content_of_getShard hk hs]
  · have hnone : s.content k = none := by
      by_contra hne
      exact hk (h.placed hs hne)
    rw [hnone, Expiry.visible_none, Option.none_or]

/-- **The log a compaction writes** is that of what was visible when it ran. -/
theorem logContent_snapshot (h : kv.Regular b) (ranges : ℕ → Range) (now : Time)
    (hfits : kv.Fits) :
    (∀ r ∈ kv.snapshot ranges now, r.Fits) ∧
      logContent (Wal.encodeAll (kv.snapshot ranges now)) = fun k => visible now (kv.content k) := by
  have hrecord : ∀ r ∈ kv.snapshot ranges now, r.Fits := by
    intro r hr
    obtain ⟨k, v, e, hv, rfl⟩ := (mem_snapshot_iff h ranges now r).1 hr
    exact hfits k v e (Expiry.visible_eq_some_iff.1 hv).1
  refine ⟨hrecord, funext fun k => ?_⟩
  have hlog := (logContent_encodeAll (rfl : (Wal.replay []).2 = none) hrecord).2
  rw [List.nil_append] at hlog
  rw [hlog, Expiry.replay_sets (mem_writes_iff (mem_snapshot_iff h ranges now)), logContent_nil,
    Option.or_none]

end KVStore

section NewKVStore

variable {ranges : ℕ → Range} {file : Option Bytes} {walOpts : Wal.Options} {opts : Options}
  {now : Time} {kv : KVStore}

/-- Opened without a cap, the store has no budget. -/
theorem shardBudget_unlimited (h : opts.maxMemoryBytes ≤ 0) : shardBudget opts = some 0 := by
  rw [shardBudget, if_neg (not_lt.2 h)]

/-- Keys have shards: then the division that sets the budget has a divisor. -/
theorem exists_shardBudget (h : UInt32.ofNat opts.shardCount ≠ 0) : ∃ b, shardBudget opts = some b := by
  have hpos : opts.shardCount ≠ 0 := by
    intro h0
    rw [h0] at h
    exact h rfl
  unfold shardBudget
  split_ifs
  · exact ⟨_, rfl⟩
  · exact ⟨_, rfl⟩

/-- A store that has just been made has nothing. -/
theorem content_emptyStore (budget : ℤ) (walOpts : Wal.Options) (file : Option Bytes)
    (opts : Options) : (emptyStore budget walOpts file opts).content = fun _ => none := by
  funext k
  unfold KVStore.content
  simp only [Option.bind_eq_none_iff]
  intro s hs
  obtain ⟨i, -, hi⟩ := Option.bind_eq_some_iff.1 hs
  obtain rfl := List.eq_of_mem_replicate (List.mem_of_getElem? hi)
  exact Shard.content_eq_none_iff.2 (Finmap.notMem_empty)

/-- Its shards have the budget they were given, and no key stands in a wrong one. -/
theorem regular_emptyStore (budget : ℤ) (walOpts : Wal.Options) (file : Option Bytes)
    (opts : Options) : (emptyStore budget walOpts file opts).Regular budget := by
  constructor
  · intro s hs
    rw [List.eq_of_mem_replicate hs]
  · intro i s k hi hne
    obtain rfl := List.eq_of_mem_replicate (List.mem_of_getElem? hi)
    exact absurd (Shard.content_eq_none_iff.2 (Finmap.notMem_empty)) hne

/-- **What `NewKVStore` builds:** the log could be read, and the store holds what
of its content has not expired. -/
theorem newKVStore_eq_ok (h : newKVStore ranges file walOpts opts now = some (.ok kv)) :
    (Wal.replay (file.getD [])).2 = none ∧ kv.shardCount = UInt32.ofNat opts.shardCount ∧
      kv.wal = Wal.openLog file walOpts ∧ (∃ b, shardBudget opts = some b ∧ kv.Regular b) ∧
      ∀ k, kv.content k = loaded now (logContent (file.getD []) k) := by
  simp only [newKVStore, KVStore.recover, bind, Option.bind_eq_some_iff] at h
  obtain ⟨budget, hbudget, kv₁, hfold, h⟩ := h
  unfold Wal.replayFile at h hfold
  cases herr : (Wal.replay (file.getD [])).2 with
  | some e =>
    rw [herr] at h
    cases h
  | none =>
    rw [herr] at h
    obtain rfl : kv₁.settle ranges = kv := Except.ok.inj (Option.some.inj h)
    obtain ⟨hcount, hwal, hreg, hc⟩ := KVStore.foldlM_load_eq_some hfold (m := fun _ => none)
      fun k => by rw [content_emptyStore]; rfl
    have hreg₁ := hreg budget (regular_emptyStore budget walOpts file opts)
    refine ⟨rfl, hcount, hwal, ⟨budget, hbudget, hreg₁.settle ranges⟩, fun k => ?_⟩
    rw [KVStore.content_settle, hc]
    rfl

/-- **`NewKVStore` succeeds** on a log that can be read, if keys have shards or
no key is needed. -/
theorem exists_newKVStore (file : Option Bytes) {budget : ℤ} (hb : shardBudget opts = some budget)
    (herr : (Wal.replay (file.getD [])).2 = none)
    (hc : UInt32.ofNat opts.shardCount ≠ 0 ∨ (Wal.replay (file.getD [])).1 = [])
    (ranges : ℕ → Range) (walOpts : Wal.Options) (now : Time) :
    ∃ kv, newKVStore ranges file walOpts opts now = some (.ok kv) := by
  obtain ⟨kv, hkv⟩ := KVStore.exists_foldlM_load (emptyStore budget walOpts file opts) hc now
  refine ⟨kv.settle ranges, ?_⟩
  simp only [newKVStore, KVStore.recover, bind, Option.bind_eq_some_iff]
  refine ⟨budget, hb, kv, hkv, ?_⟩
  unfold Wal.replayFile
  rw [herr]
  rfl

/-- **`NewKVStore` passes on the error** of a log that cannot be read to its end, if keys
have shards. -/
theorem newKVStore_eq_error (file : Option Bytes) {budget : ℤ} (hb : shardBudget opts = some budget)
    {e : ReadError} (herr : (Wal.replay (file.getD [])).2 = some e)
    (hc : UInt32.ofNat opts.shardCount ≠ 0) (ranges : ℕ → Range) (walOpts : Wal.Options)
    (now : Time) : newKVStore ranges file walOpts opts now = some (.error e) := by
  obtain ⟨kv, hkv⟩ := KVStore.exists_foldlM_load (emptyStore budget walOpts file opts)
    (Or.inl hc : _ ∨ (Wal.replay (file.getD [])).1 = []) now
  simp only [newKVStore, KVStore.recover, bind, Option.bind_eq_some_iff]
  refine ⟨budget, hb, kv, hkv, ?_⟩
  unfold Wal.replayFile
  rw [herr]
  rfl

/-- Where no key has a shard, only a log without records can be opened. -/
theorem records_eq_nil_of_newKVStore (h : newKVStore ranges file walOpts opts now = some (.ok kv))
    (hc : UInt32.ofNat opts.shardCount = 0) : (Wal.replay (file.getD [])).1 = [] := by
  simp only [newKVStore, KVStore.recover, bind, Option.bind_eq_some_iff] at h
  obtain ⟨budget, -, kv₁, hfold, -⟩ := h
  unfold Wal.replayFile at hfold
  cases hrec : (Wal.replay (file.getD [])).1 with
  | nil => rfl
  | cons r records =>
    rw [hrec] at hfold
    obtain ⟨kv₂, hload, -⟩ := Option.bind_eq_some_iff.1 hfold
    have hnone : (emptyStore budget walOpts file opts).getShard r.key = none :=
      KVStore.getShard_of_shardCount_eq_zero hc r.key
    simp [KVStore.load, hnone] at hload

/-- **What recovery does to every shard:** what holds of an empty one, and is kept by loading a
record, holds when the books are settled. -/
theorem forall_shards_newKVStore {P Q : Shard → Prop}
    (hempty : ∀ b, shardBudget opts = some b →
      P ⟨⟨∅, 0, b⟩, Eviction.byName (opts.newEviction.getD .noevict)⟩)
    (hload : ∀ s r, P s → P (s.load now r)) (hsettle : ∀ range s, P s → Q (s.settle range))
    (h : newKVStore ranges file walOpts opts now = some (.ok kv)) :
    kv.shards.length = opts.shardCount ∧ ∀ s ∈ kv.shards, Q s := by
  have hfold : ∀ (records : List Wal.Record) {kv kv' : KVStore}, (∀ s ∈ kv.shards, P s) →
      records.foldlM (KVStore.load now) kv = some kv' →
      kv'.shards.length = kv.shards.length ∧ ∀ s ∈ kv'.shards, P s := by
    intro records
    induction records with
    | nil =>
      intro kv kv' h hr
      exact Option.some.inj hr ▸ ⟨rfl, h⟩
    | cons r records ih =>
      intro kv kv' h hr
      obtain ⟨kv₁, hone, hr⟩ := Option.bind_eq_some_iff.1 hr
      simp only [KVStore.load, bind, Option.bind_eq_some_iff, pure, Option.some.injEq] at hone
      obtain ⟨i, -, s, hs, rfl⟩ := hone
      have hkept : ∀ x ∈ (kv.setShard i (s.load now r)).shards, P x := by
        intro x hx
        rcases List.mem_or_eq_of_mem_set hx with hx | rfl
        · exact h x hx
        · exact hload s r (h s (List.mem_of_getElem? hs))
      obtain ⟨hlen, hP⟩ := ih hkept hr
      exact ⟨hlen.trans (List.length_set ..), hP⟩
  simp only [newKVStore, KVStore.recover, bind, Option.bind_eq_some_iff] at h
  obtain ⟨b, hb, kv₁, hrecords, h⟩ := h
  have hstart : ∀ s ∈ (emptyStore b walOpts file opts).shards, P s := by
    intro s hs
    rw [List.eq_of_mem_replicate hs]
    exact hempty b hb
  obtain ⟨hlen, hP⟩ := hfold _ hstart hrecords
  split at h
  · cases h
  · obtain rfl : kv₁.settle ranges = kv := Except.ok.inj (Option.some.inj h)
    refine ⟨?_, fun s hs => ?_⟩
    · refine (List.length_mapIdx ..).trans (hlen.trans ?_)
      exact List.length_replicate ..
    · obtain ⟨i, hi, rfl⟩ := List.mem_mapIdx.1 hs
      exact hsettle _ _ (hP _ (List.getElem_mem hi))

/-- The number of shards as `getShard` divides by it. -/
theorem ofNat_shardCount_eq_zero_iff (n : ℕ) : UInt32.ofNat n = 0 ↔ n % 2 ^ 32 = 0 := by
  rw [← UInt32.toNat_inj, UInt32.toNat_ofNat']
  rfl

/-- Recovery has no books to settle where nothing was loaded. -/
theorem settle_emptyStore (b : ℤ) (walOpts : Wal.Options) (file : Option Bytes) (opts : Options)
    (ranges : ℕ → Range) :
    (emptyStore b walOpts file opts).settle ranges = emptyStore b walOpts file opts := by
  have hshard : ∀ (i : ℕ) (policy : Eviction.Policy),
      Shard.settle (ranges i) ⟨⟨∅, 0, b⟩, policy⟩ = ⟨⟨∅, 0, b⟩, policy⟩ := by
    intro i policy
    simp [Shard.settle]
  simp only [KVStore.settle, emptyStore, KVStore.mk.injEq, and_true]
  refine List.ext_getElem (by simp) fun i hi hi' => ?_
  rw [List.getElem_mapIdx, List.getElem_replicate, hshard]

/-- **A store opened without a log** is the empty one, whatever its options are. -/
theorem newKVStore_empty {b : ℤ} (hb : shardBudget opts = some b) (ranges : ℕ → Range)
    (walOpts : Wal.Options) (now : Time) :
    newKVStore ranges none walOpts opts now = some (.ok (emptyStore b walOpts none opts)) := by
  simp [newKVStore, hb, KVStore.recover, Wal.replayFile, settle_emptyStore]

/-- One shard without a budget, on an empty log. -/
def oneShard : KVStore := emptyStore 0 ⟨.always, 0, 0⟩ none ⟨1, 0, 0, none⟩

/-- It is what `NewKVStore` makes of no log with these options. -/
theorem newKVStore_oneShard (ranges : ℕ → Range) :
    newKVStore ranges none ⟨.always, 0, 0⟩ ⟨1, 0, 0, none⟩ 0 = some (.ok oneShard) :=
  newKVStore_empty (by simp [shardBudget]) ranges _ 0

end NewKVStore

end Store
end Keva
