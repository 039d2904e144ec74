/-
# What was evicted comes back

`SamplingEvict` and `LRUEvict` evict a key from the map, and nothing is written to the log:
the set of that key is still there.  `recover` loads every entry of the log that has not
expired, asks no policy for room, and so brings back what was evicted and goes over the
budget (`evicted_is_recovered`).

Nothing of this is seen where a set evicts only entries that have expired: they would not be
loaded any more.  A store reopened after a run of such calls serves nothing that was evicted,
and every shard is within its budget or holds a single entry (`reopened_of_spares`).

`evicted` is read by no step.  It keeps the keys that were evicted and not set again.
-/

import Keva.Lib.Reach
import Keva.Store.Accounts

namespace Keva
namespace Store

open Bytes
open Eviction (Range PolicyName entrySize)
open Eviction.Shard (data_evict)
open Expiry (Write visible loaded AgreeFrom)

/-- A store with the last reading of the clock, and the keys that were evicted and not set
again. -/
structure Evicting where
  kv : KVStore
  clock : Time
  evicted : Key → Bool

/-- What the set evicts has expired by its clock reading: every other key whose entry is no
longer in the shard. -/
def Shard.Spares (ranges : ℕ → Range) (s : Shard) (key : Key) (value : Bytes)
    (expiredAt now : Time) : Prop :=
  ∀ x ∈ s.setWithExpiry ranges key value expiredAt now, ∀ k ∈ s.data.keys, k ≠ key →
    x.1.data.lookup k = none → ∀ rec ∈ s.data.lookup k, rec.expiredAt ≤ now

instance (ranges : ℕ → Range) (s : Shard) (key : Key) (value : Bytes) (expiredAt now : Time) :
    Decidable (s.Spares ranges key value expiredAt now) :=
  inferInstanceAs (Decidable (∀ x ∈ s.setWithExpiry ranges key value expiredAt now, _))

namespace Evicting

/-- What is evicted and not set again, when a call has led to `kv'`. -/
def evictedBy (s : Evicting) (kv' : KVStore) : Op → Key → Bool
  | .setWithExpiry _ key _ _ _ => fun k =>
    k ≠ key && (s.evicted k || (s.kv.content k).isSome && (kv'.content k).isNone)
  | _ => s.evicted

/-- One call, none of them a compaction; the clock does not go back. -/
def step (s : Evicting) (op : Op) : Option Evicting :=
  match op with
  | .compact _ _ => none
  | op => do
    let (kv, _) ← s.kv.step op
    let now := op.at?.getD s.clock
    if s.clock ≤ now then return ⟨kv, now, s.evictedBy kv op⟩ else none

/-- A store at time `t`, of which nothing has been evicted. -/
def start (kv : KVStore) (t : Time) : Evicting := ⟨kv, t, fun _ => false⟩

/-- The record of the call fits the log, and what a set evicts has expired. -/
def Spares (s : Evicting) (op : Op) : Prop :=
  (∀ r ∈ op.record, r.Fits) ∧
    match op with
    | .setWithExpiry ranges key value expiredAt now =>
      ∀ i ∈ s.kv.getShard key, ∀ shard ∈ s.kv.shards[i]?,
        shard.Spares ranges key value expiredAt now
    | _ => True

instance (s : Evicting) (op : Op) : Decidable (s.Spares op) := by
  unfold Spares
  cases op <;> infer_instance

/-! ### What every call keeps -/

variable {s s' : Evicting} {op : Op} {b : ℤ} {n : PolicyName}

/-- A step is a call but a compaction, at a reading that is not behind the clock, and the ledger
takes down what it evicts. -/
theorem step_eq_some (hs : s.step op = some s') :
    (∀ ranges now, op ≠ .compact ranges now) ∧ s.clock ≤ op.at?.getD s.clock ∧
      ∃ kv r, s.kv.step op = some (kv, r) ∧
        s' = ⟨kv, op.at?.getD s.clock, s.evictedBy kv op⟩ := by
  unfold step at hs
  split at hs
  · cases hs
  · rename_i hcompact
    obtain ⟨⟨kv, r⟩, hstep, hs⟩ := Option.bind_eq_some_iff.1 hs
    dsimp only at hs
    split_ifs at hs with hclock
    exact ⟨hcompact, hclock, kv, r, hstep, (Option.some.inj hs).symm⟩

/-- Memory and log of a store with a budget, where nothing that is alive has been evicted: the
log can be read, and shows every later reader what the memory shows. -/
structure Faithful (b : ℤ) (n : PolicyName) (s : Evicting) : Prop where
  regular : s.kv.Regular b
  sound : s.kv.Sound b n
  within : ∀ shard ∈ s.kv.shards, shard.Within
  readable : s.kv.wal.Readable
  unused : s.kv.shardCount = 0 → (Wal.replay s.kv.wal.contents).1 = []
  agree : ∀ t, s.clock < t → AgreeFrom t (logContent s.kv.wal.contents) s.kv.content
  gone : ∀ k, s.evicted k = true → s.kv.content k = none

/-- What a set leaves of the other keys, where it spares what is alive. -/
theorem content_of_spares {kv : KVStore} {i : ℕ} {shard shard' : Shard} {key k : Key}
    {value : Bytes} {ranges : ℕ → Range} {expiredAt now t : Time} {err : Option Err}
    (hi : kv.shards[i]? = some shard)
    (hset : shard.setWithExpiry ranges key value expiredAt now = some (shard', err))
    (hwrote : shard.Wrote key value expiredAt shard' err)
    (hspares : shard.Spares ranges key value expiredAt now) (hk : k ≠ key) (ht : now < t) :
    ((kv.setShard i shard').content k = kv.content k ∨ (kv.setShard i shard').content k = none) ∧
      visible t ((kv.setShard i shard').content k) = visible t (kv.content k) := by
  rw [KVStore.content_setShard_eq hi]
  split_ifs with hshard
  · rw [KVStore.content_of_getShard hshard hi]
    refine ⟨hwrote.others k hk, ?_⟩
    rcases hwrote.others k hk with heq | hnone
    · rw [heq]
    · rw [hnone, Expiry.visible_none]
      cases hrec : shard.data.lookup k with
      | none => simp [Shard.content, hrec]
      | some rec =>
        -- What was evicted has expired.
        have hmem : k ∈ shard.data.keys := Finmap.mem_keys.2 (Finmap.mem_of_lookup_eq_some hrec)
        have hgone : shard'.data.lookup k = none := Option.map_eq_none_iff.1 hnone
        have hle : rec.expiredAt ≤ now := hspares _ hset k hmem hk hgone rec hrec
        have hcontent : shard.content k = some (rec.value, rec.expiredAt) :=
          Shard.content_eq_some_iff.2 ⟨rec, hrec, rfl, rfl⟩
        rw [hcontent, Expiry.visible_some, if_neg (not_le.2 (hle.trans_lt ht))]
  · exact ⟨Or.inl rfl, rfl⟩

/-- A record is appended to the log. -/
theorem Faithful.contents_append (h : Faithful b n s) {record : Wal.Record}
    {w : Write Key Bytes Time} (hfits : record.Fits) (hw : writeOf record = some w) :
    logContent (s.kv.wal.append record).contents = w.apply (logContent s.kv.wal.contents) := by
  rw [h.readable.contents_append]
  exact (logContent_append h.readable.contents hfits hw).2

/-- The shards and their books are right after every call; what is left is the log. -/
theorem Faithful.of_step (h : Faithful b n s) (hb : 0 < b) {kv : KVStore} {r : Reply} {now : Time}
    {evicted : Key → Bool} (hstep : s.kv.step op = some (kv, r)) (hread : kv.wal.Readable)
    (hunused : kv.shardCount = 0 → (Wal.replay kv.wal.contents).1 = [])
    (hagree : ∀ t, now < t → AgreeFrom t (logContent kv.wal.contents) kv.content)
    (hgone : ∀ k, evicted k = true → kv.content k = none) : Faithful b n ⟨kv, now, evicted⟩ := by
  obtain ⟨hsound, hwithin⟩ := h.sound.step hstep
  exact ⟨h.regular.step h.sound hstep, hsound, hwithin hb h.within, hread, hunused, hagree, hgone⟩

/-- A set that spares what is alive in its shard.  For the other keys log and memory may differ
after it, but only in entries that have expired. -/
theorem Faithful.setWithExpiry (h : Faithful b n s) (hb : 0 < b) (hn : n ≠ .noevict)
    {ranges : ℕ → Range} {key : Key} {value : Bytes} {expiredAt now : Time} {kv : KVStore} {r : Reply}
    (hspares : s.Spares (.setWithExpiry ranges key value expiredAt now)) (hclock : s.clock ≤ now)
    (hstep : s.kv.step (.setWithExpiry ranges key value expiredAt now) = some (kv, r)) :
    Faithful b n ⟨kv, now, s.evictedBy kv (.setWithExpiry ranges key value expiredAt now)⟩ := by
  have hcount := KVStore.step_shardCount hstep
  obtain ⟨⟨kv₁, err⟩, hr, heq⟩ := Option.map_eq_some_iff.1 hstep
  obtain ⟨rfl, rfl⟩ := Prod.mk.inj heq
  have hfit : (Wal.Record.ofSet key value expiredAt).Fits := hspares.1 _ rfl
  have hlogged : (s.kv.append (.ofSet key value expiredAt)).Sound b n :=
    ⟨h.sound.sound, h.sound.budget_eq, h.sound.name_eq⟩
  obtain ⟨i, shard, shard', hk, hi, rfl, hset, hwrote⟩ := KVStore.applySet_wrote hlogged hr
  have herr : err = none := by
    refine hwrote.accepted ?_
    rw [h.sound.name_eq shard (List.mem_of_getElem? hi)]
    exact hn
  have hothers : ∀ {k t}, k ≠ key → now < t → _ := fun hkey ht =>
    content_of_spares hi hset hwrote (hspares.2 i hk shard hi) hkey ht
  refine h.of_step hb hstep (h.readable.append hfit) (fun h0 => ?_) (fun t ht k => ?_) fun k hk' => ?_
  · exact absurd (hcount.symm.trans h0) (KVStore.shardCount_ne_zero_of_step hstep rfl)
  · change visible t (logContent (s.kv.wal.append (.ofSet key value expiredAt)).contents k) = _
    rw [h.contents_append hfit (writeOf_ofSet key value expiredAt)]
    by_cases hkey : k = key
    · subst hkey
      have hstored : ((s.kv.append (.ofSet k value expiredAt)).setShard i shard').content k =
          some (value, expiredAt) := by
        rw [KVStore.content_setShard_eq hi, if_pos hk, hwrote.stored herr]
      rw [hstored]
      exact congrArg _ (Write.apply_key (Write.set k value expiredAt) _)
    · rw [Write.apply_of_ne (w := .set key value expiredAt) hkey, (hothers hkey ht).2]
      exact h.agree t (hclock.trans_lt ht) k
  · change (k ≠ key && (s.evicted k || _)) = true at hk'
    rw [Bool.and_eq_true, decide_eq_true_eq, Bool.or_eq_true, Bool.and_eq_true] at hk'
    obtain ⟨hkey, hgone | ⟨-, hnone⟩⟩ := hk'
    · have hold := h.gone k hgone
      exact (hothers hkey (lt_add_one now)).1.elim (fun heq => heq.trans hold) id
    · exact Option.isNone_iff_eq_none.1 hnone

/-- A delete is in the log as well as in memory, and a key that was evicted is still not there. -/
theorem Faithful.delete (h : Faithful b n s) (hb : 0 < b) {key : Key} {kv : KVStore} {r : Reply}
    (hfit : (Wal.Record.ofDelete key).Fits) (hstep : s.kv.step (.delete key) = some (kv, r)) :
    Faithful b n ⟨kv, s.clock, s.evicted⟩ := by
  have hcount := KVStore.step_shardCount hstep
  obtain ⟨⟨kv₁, err⟩, hr, heq⟩ := Option.map_eq_some_iff.1 hstep
  obtain ⟨rfl, rfl⟩ := Prod.mk.inj heq
  obtain ⟨-, -, hwal, hc⟩ := KVStore.applyDelete_eq_some (h.regular.withWal _) hr
  refine h.of_step hb hstep (hwal ▸ h.readable.append hfit) (fun h0 => ?_) (fun t ht => ?_) fun k hk => ?_
  · exact absurd (hcount.symm.trans h0) (KVStore.shardCount_ne_zero_of_step hstep rfl)
  · rw [hwal, hc]
    change AgreeFrom t (logContent (s.kv.wal.append (.ofDelete key)).contents) _
    rw [h.contents_append hfit (writeOf_ofDelete key)]
    exact (h.agree t ht).apply (.del key)
  · rw [hc]
    by_cases hkey : k = key
    · rw [hkey]
      exact Write.apply_key (Write.del key) _
    · rw [Write.apply_of_ne (w := .del key) hkey]
      exact h.gone k hk

/-- **Every call that spares what is alive** keeps log and memory together: what an eviction
takes had expired, and no later reader of the log sees it. -/
theorem Faithful.step (h : Faithful b n s) (hb : 0 < b) (hn : n ≠ .noevict) (hspares : s.Spares op)
    (hs : s.step op = some s') : Faithful b n s' := by
  obtain ⟨hcompact, hclock, kv, r, hstep, rfl⟩ := step_eq_some hs
  cases op with
  | setWithExpiry ranges key value expiredAt now => exact h.setWithExpiry hb hn hspares hclock hstep
  | get key now =>
    have hcount := KVStore.step_shardCount hstep
    obtain ⟨⟨kv₁, a⟩, hr, heq⟩ := Option.map_eq_some_iff.1 hstep
    obtain ⟨rfl, rfl⟩ := Prod.mk.inj heq
    obtain ⟨-, -, hwal, hc⟩ := KVStore.get_eq_some h.regular hr
    refine h.of_step hb hstep (hwal ▸ h.readable) (hwal ▸ hcount ▸ h.unused) ?_ ?_
    · rw [hwal, hc]
      exact fun t ht => h.agree t (hclock.trans_lt ht)
    · rw [hc]
      exact h.gone
  | delete key => exact h.delete hb (hspares.1 _ rfl) hstep
  | sweep ranges now =>
    obtain ⟨rfl, rfl⟩ := Prod.mk.inj (Option.some.inj hstep)
    refine h.of_step hb hstep h.readable h.unused (fun t ht => ?_) fun k hk => ?_
    · have hsame : AgreeFrom now (s.kv.sweep ranges now).content s.kv.content :=
        Expiry.agreeFrom_of_visible_or_eq fun k => Or.inl (KVStore.content_sweep ranges now s.kv k)
      exact (h.agree t (hclock.trans_lt ht)).trans (hsame.mono (le_of_lt ht)).symm
    · rw [KVStore.content_sweep, h.gone k hk]
      rfl
  | compact ranges now => exact absurd rfl (hcompact ranges now)
  | flush m =>
    obtain ⟨rfl, rfl⟩ := Prod.mk.inj (Option.some.inj hstep)
    refine h.of_step hb hstep (h.readable.flush m) ?_ ?_ h.gone
    · change _ → (Wal.replay (s.kv.wal.flush m).contents).1 = []
      rw [Wal.WAL.contents_flush]
      exact h.unused
    · change ∀ t, _ → AgreeFrom t (logContent (s.kv.wal.flush m).contents) _
      rw [Wal.WAL.contents_flush]
      exact h.agree

section Open

variable {ranges : ℕ → Range} {file : Option Bytes} {walOpts : Wal.Options} {opts : Options}
  {t₀ T : Time} {kv₀ : KVStore}

/-- A store that was opened on an empty log: there is nothing in memory, and nothing has been
evicted. -/
theorem faithful_start (hb : shardBudget opts = some b) (hpos : 0 < b) (hfile : file.getD [] = [])
    (hnew : newKVStore ranges file walOpts opts t₀ = some (.ok kv₀)) :
    Faithful b (opts.newEviction.getD .noevict) (start kv₀ t₀) := by
  obtain ⟨hread, hcount, hwal, ⟨b', hb', hreg⟩, hcontent⟩ := newKVStore_eq_ok hnew
  obtain rfl : b' = b := Option.some.inj (hb'.symm.trans hb)
  obtain ⟨-, hsound⟩ := sound_newKVStore hb hnew
  have hlog : kv₀.wal.contents = [] := by
    rw [hwal, Wal.WAL.contents, Wal.openLog, hfile]
    rfl
  refine ⟨hreg, hsound, within_newKVStore hb hpos.le hfile hnew,
    hwal ▸ Wal.WAL.readable_openLog hread walOpts, fun _ => ?_, fun t _ k => ?_,
    fun k hk => absurd hk Bool.false_ne_true⟩
  · change (Wal.replay kv₀.wal.contents).1 = []
    rw [hlog]
    rfl
  · change visible t (logContent kv₀.wal.contents k) = visible t (kv₀.content k)
    rw [hlog, hcontent, hfile]
    rfl

/-- A shard that was loaded holds no more than the one in its place. -/
theorem content_of_loaded {kv kv' : KVStore} {i : ℕ} {shard shard' : Shard} {k : Key}
    {x : Bytes × Time} (hreg : kv'.Regular b) (hcount : kv'.shardCount = kv.shardCount)
    (hloaded : ∀ k, kv'.content k = loaded T (kv.content k)) (hi' : kv'.shards[i]? = some shard')
    (hi : kv.shards[i]? = some shard) (hx : shard'.content k = some x) :
    shard.content k = some x := by
  have hplaced' : kv'.getShard k = some i := by
    refine hreg.placed hi' ?_
    rw [hx]
    exact Option.some_ne_none x
  have hplaced : kv.getShard k = some i := (KVStore.getShard_congr hcount k).symm.trans hplaced'
  rw [← KVStore.content_of_getShard hplaced' hi', hloaded] at hx
  rw [← KVStore.content_of_getShard hplaced hi]
  exact (Expiry.loaded_eq_some_iff.1 hx).1

/-- **A store reopened on its log,** after calls that spared what was alive: nothing that was
evicted and not set again is served, and every shard is within its budget or holds a single
entry. -/
theorem reopened_of_spares (hb : shardBudget opts = some b) (hpos : 0 < b)
    (hpolicy : opts.newEviction = some .relaxed ∨ opts.newEviction = some .strict)
    (hfile : file.getD [] = []) (hnew : newKVStore ranges file walOpts opts t₀ = some (.ok kv₀))
    (hs : Reach step Spares (start kv₀ t₀) s) (hT : s.clock ≤ T) (ranges' : ℕ → Range)
    (walOpts' : Wal.Options) :
    ∃ kv', newKVStore ranges' (some s.kv.wal.contents) walOpts' opts T = some (.ok kv') ∧
      (∀ k, s.evicted k = true → kv'.content k = none) ∧
      ∀ shard ∈ kv'.shards, shard.bytes ≤ shard.budget ∨ shard.data.keys.card = 1 := by
  have hn : opts.newEviction.getD .noevict ≠ .noevict := by
    rcases hpolicy with heq | heq <;> rw [heq] <;> decide
  obtain ⟨h, hcount, hlen⟩ : Faithful b (opts.newEviction.getD .noevict) s ∧
      s.kv.shardCount = UInt32.ofNat opts.shardCount ∧ s.kv.shards.length = opts.shardCount := by
    refine hs.invariant (P := fun s => Faithful b (opts.newEviction.getD .noevict) s ∧
        s.kv.shardCount = UInt32.ofNat opts.shardCount ∧ s.kv.shards.length = opts.shardCount)
      ⟨faithful_start hb hpos hfile hnew, (newKVStore_eq_ok hnew).2.1, (sound_newKVStore hb hnew).1⟩
      fun s op s' ⟨h, hcount, hlen⟩ hok hstep => ?_
    refine ⟨h.step hpos hn hok hstep, ?_⟩
    obtain ⟨-, -, kv, r, hcall, rfl⟩ := step_eq_some hstep
    exact ⟨(KVStore.step_shardCount hcall).trans hcount, (KVStore.step_shards hcall).1.trans hlen⟩
  -- What is loaded is what of the memory has not expired.
  obtain ⟨kv', hopen, hloaded⟩ := exists_newKVStore_loaded hb h.readable.contents
    (fun h0 => h.unused (hcount.trans h0)) (fun t ht => h.agree t (hT.trans_lt ht)) ranges' walOpts'
  obtain ⟨-, hcount', -, ⟨b', hb', hreg'⟩, -⟩ := newKVStore_eq_ok hopen
  obtain rfl : b' = b := Option.some.inj (hb'.symm.trans hb)
  obtain ⟨hlen', hsound'⟩ := sound_newKVStore hb hopen
  refine ⟨kv', hopen, fun k hk => by rw [hloaded, h.gone k hk]; rfl, fun shard' hshard' => ?_⟩
  -- Every shard holds no more than the one in its place did.
  obtain ⟨i, hi'⟩ := List.getElem?_of_mem hshard'
  have hlt : i < s.kv.shards.length := by
    rw [hlen, ← hlen']
    exact (List.getElem?_eq_some_iff.1 hi').1
  have hi : s.kv.shards[i]? = some s.kv.shards[i] := List.getElem?_eq_getElem hlt
  have hmem : s.kv.shards[i] ∈ s.kv.shards := List.getElem_mem hlt
  have hwithin : shard'.Within := by
    refine (h.within _ hmem).of_content (h.sound.sound _ hmem) (hsound'.sound _ hshard') ?_ ?_ ?_
      fun k x hx => content_of_loaded hreg' (hcount'.trans hcount.symm) hloaded hi' hi hx
    · rw [hsound'.budget_eq _ hshard', h.sound.budget_eq _ hmem]
    · rw [h.sound.budget_eq _ hmem]
      exact hpos.le
    · rw [hsound'.name_eq _ hshard', h.sound.name_eq _ hmem]
  exact hwithin.imp_right fun hcard => hcard.2

/-- One shard with room for two bytes under `LRUEvict`, on an empty log. -/
def strictStore : KVStore := emptyStore 2 ⟨.always, 0, 0⟩ none ⟨1, 0, 2, some .strict⟩

/-- It is what `NewKVStore` makes of no log with a budget of two bytes and the policy `strict`. -/
theorem newKVStore_strictStore (ranges : ℕ → Range) :
    newKVStore ranges none ⟨.always, 0, 0⟩ ⟨1, 0, 2, some .strict⟩ 0 = some (.ok strictStore) :=
  newKVStore_empty (by simp [shardBudget]) ranges _ 0

/-- One shard has the whole budget. -/
theorem shardBudget_strict : shardBudget ⟨1, 0, 2, some .strict⟩ = some 2 := by
  simp [shardBudget]

/-- A key expires, and is evicted for another one; a third one stays, and is alive. -/
def evictsExpired : List Op :=
  [.setWithExpiry (fun _ => Eviction.byKey) [1] [9] 5 0,
    .setWithExpiry (fun _ => Eviction.byKey) [3] [9] 100 0,
    .setWithExpiry (fun _ => Eviction.byKey) [2] [9] 100 6]

/-- The key that had expired when it was evicted is not served after a restart, and the shard is
within its budget. -/
theorem reopened_of_spares_evictsExpired :
    ∃ s ∈ runAll step Spares (start fourBytes 0) evictsExpired,
      s.evicted [1] = true ∧ s.kv.content [3] = some ([9], 100) ∧
      ∃ kv', newKVStore (fun _ => Eviction.byKey) (some s.kv.wal.contents) ⟨.always, 0, 0⟩
          ⟨1, 0, 4, some .strict⟩ 7 = some (.ok kv') ∧ kv'.content [1] = none ∧
        ∀ shard ∈ kv'.shards, shard.bytes ≤ shard.budget ∨ shard.data.keys.card = 1 := by
  obtain ⟨s, hs, hclock, hevicted, hkept⟩ :
      ∃ s ∈ runAll step Spares (start fourBytes 0) evictsExpired,
        s.clock ≤ 7 ∧ s.evicted [1] = true ∧ s.kv.content [3] = some ([9], 100) := by
    decide +kernel
  have hb : shardBudget ⟨1, 0, 4, some .strict⟩ = some 4 := by simp [shardBudget]
  obtain ⟨kv', hopen, hgone, hwithin⟩ := reopened_of_spares hb (by decide)
    (Or.inr rfl) rfl (newKVStore_fourBytes fun _ => Eviction.byKey) (reach_of_runAll hs) hclock
    (fun _ => Eviction.byKey) ⟨.always, 0, 0⟩
  exact ⟨s, hs, hevicted, hkept, kv', hopen, hgone [1] hevicted, hwithin⟩

/-- A key that is alive is evicted for another one. -/
def evictsAlive : List Op :=
  [.setWithExpiry (fun _ => Eviction.byKey) [1] [9] 100 0,
    .setWithExpiry (fun _ => Eviction.byKey) [2] [9] 100 0]

/-- **What was evicted is served again, and the shard is over its budget.** -/
theorem evicted_is_recovered :
    newKVStore (fun _ => Eviction.byKey) none ⟨.always, 0, 0⟩ ⟨1, 0, 2, some .strict⟩ 0 =
        some (.ok strictStore) ∧
      ∃ s ∈ runAll step (fun _ op => ∀ r ∈ op.record, r.Fits) (start strictStore 0) evictsAlive,
        s.clock ≤ 1 ∧ s.evicted [1] = true ∧
          ∃ kv', newKVStore (fun _ => Eviction.byKey) (some s.kv.wal.contents) ⟨.always, 0, 0⟩
              ⟨1, 0, 2, some .strict⟩ 1 = some (.ok kv') ∧ kv'.content [1] = some ([9], 100) ∧
            ∃ shard ∈ kv'.shards, ¬ (shard.bytes ≤ shard.budget ∨ shard.data.keys.card = 1) := by
  refine ⟨newKVStore_strictStore _, ?_⟩
  obtain ⟨s, hs, hclock, hevicted, hread, hone, htwo⟩ :
      ∃ s ∈ runAll step (fun _ op => ∀ r ∈ op.record, r.Fits) (start strictStore 0) evictsAlive,
        s.clock ≤ 1 ∧ s.evicted [1] = true ∧ (Wal.replay s.kv.wal.contents).2 = none ∧
          loaded 1 (logContent s.kv.wal.contents [1]) = some ([9], 100) ∧
          loaded 1 (logContent s.kv.wal.contents [2]) = some ([9], 100) := by
    decide +kernel
  obtain ⟨kv', hopen⟩ := exists_newKVStore (some s.kv.wal.contents) shardBudget_strict hread
    (Or.inl (by decide)) (fun _ => Eviction.byKey) ⟨.always, 0, 0⟩ 1
  obtain ⟨-, hcount, -, -, hcontent⟩ := newKVStore_eq_ok hopen
  obtain ⟨-, hsound⟩ := sound_newKVStore shardBudget_strict hopen
  refine ⟨s, hs, hclock, hevicted, kv', hopen, (hcontent [1]).trans hone, ?_⟩
  -- Both keys are in the one shard.
  have hshard : ∀ k, kv'.getShard k = some 0 := by
    intro k
    rw [KVStore.getShard, hcount, if_neg (by decide)]
    exact congrArg some (Nat.mod_one _)
  have hne : kv'.shardCount ≠ 0 := by
    rw [hcount]
    decide
  obtain ⟨i, shard, hk, hi⟩ := KVStore.exists_shard hne [1]
  obtain rfl : 0 = i := Option.some.inj ((hshard [1]).symm.trans hk)
  have hmem := List.mem_of_getElem? hi
  have hrec : ∀ k, kv'.content k = some ([9], 100) → ∃ rec, shard.data.lookup k = some rec ∧
      rec.value = [9] := by
    intro k hc
    rw [KVStore.content_of_getShard (hshard k) hi] at hc
    obtain ⟨rec, hrec, hvalue, -⟩ := Shard.content_eq_some_iff.1 hc
    exact ⟨rec, hrec, hvalue⟩
  obtain ⟨r₁, hr₁, hv₁⟩ := hrec [1] ((hcontent [1]).trans hone)
  obtain ⟨r₂, hr₂, hv₂⟩ := hrec [2] ((hcontent [2]).trans htwo)
  refine ⟨shard, hmem, not_or.2 ⟨?_, fun hcard => ?_⟩⟩
  · have hbytes : shard.bytes = shard.toShard.size := (hsound.sound shard hmem).bytes_eq
    have hr₂' : (shard.data.erase [1]).lookup [2] = some r₂ := by
      rw [Finmap.lookup_erase_ne (by decide), hr₂]
    rw [hbytes, hsound.budget_eq shard hmem, Eviction.Shard.size, Dict.weight_of_lookup hr₁,
      Dict.weight_of_lookup hr₂', entrySize, entrySize, hv₁, hv₂]
    have hrest := Dict.weight_nonneg Eviction.entrySize_nonneg
      (Finmap.erase [2] (Finmap.erase [1] shard.data))
    have hlen : (([1] : Key).length : ℤ) + ([9] : Bytes).length = 2 := rfl
    have hlen' : (([2] : Key).length : ℤ) + ([9] : Bytes).length = 2 := rfl
    omega
  · have heq := Dict.eq_of_card_le_one hcard.le (Finmap.mem_of_lookup_eq_some hr₁)
      (Finmap.mem_of_lookup_eq_some hr₂)
    exact absurd heq (by decide)

end Open

end Evicting

end Store
end Keva
