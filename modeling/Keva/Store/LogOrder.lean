/-
# Log and memory of concurrent calls

Between its append and its shard update a call holds no lock, so the order of two
calls on a key may be one thing in the log and another in memory, and the loser in
memory is the winner of the next restart (`log_order_differs`).  A compaction scans
the shards while appends go on to the file it is about to replace; a call that
falls between the scan of its shard and the rename is in memory only
(`compaction_loses_write`).

Where neither happens, a store that has come to rest can be rebuilt from its log:
`replays_of_inOrder` without compaction, `replays_of_undisturbed` with it.
-/

import Keva.Store.Settled

namespace Keva
namespace Store

open Eviction (Range)
open Expiry (visible loaded)

namespace System

variable {t₀ : Time} {s : System}

/-- The log of a store opened at `t₀` can be read, and shows what the memory shows:
to every reader from now on, and to every loader, which `NewKVStore` is. -/
structure Replays (t₀ : Time) (s : System) : Prop where
  readable : (Wal.replay s.kv.wal.file).2 = none
  visible_eq : ∀ t, t₀ < t → s.clock ≤ t → ∀ k,
    visible t (logContent s.kv.wal.file k) = visible t (s.kv.content k)
  loaded_eq : ∀ t, s.clock ≤ t → ∀ k,
    loaded t (logContent s.kv.wal.file k) = loaded t (s.kv.content k)

/-- At rest everything has reached the memory. -/
theorem Inv.replays (h : Inv t₀ s) (hidle : s.Idle) : Replays t₀ s := by
  have hset : s.settled = s.kv.content := by
    unfold settled
    rw [hidle.1]
    rfl
  have hagree := h.agree
  rw [hset] at hagree
  refine ⟨h.readable.file, hagree, fun t ht k => ?_⟩
  refine Expiry.loaded_eq_of_visible_eq fun t' ht' => ?_
  exact hagree t' (h.opened.trans_lt (ht.trans_lt ht')) (ht.trans ht'.le) k

/-- Where no compaction is underway, none is disturbed. -/
theorem undisturbed_of_compactions {a : Action} (h : s.compactions = []) : s.Undisturbed a := by
  cases a with
  | append c =>
    intro x hx
    rw [h] at hx
    cases hx
  | openTmp => exact h
  | scan j range =>
    intro x hx
    rw [h] at hx
    cases hx
  | _ => trivial

/-! ### Calls without compaction -/

variable {ranges : ℕ → Range} {file : Option Bytes} {walOpts : Wal.Options} {opts : Options}
  {kv : KVStore}

/-- **Log order is memory order where calls on a key keep their order.**  From a
store just opened, without a budget and with a log that is written through, by
steps in order and none of a compaction: whenever no call is on its way, the log
replays to the memory. -/
theorem replays_of_inOrder (hmode : walOpts.mode ≠ .interval) (hmax : opts.maxMemoryBytes ≤ 0)
    (hkv : newKVStore ranges file walOpts opts t₀ = some (.ok kv)) (stale : Option Bytes)
    (hs : Reach step (fun s a => s.InOrder a ∧ a.opensTmp = false) (start kv stale t₀) s)
    (hidle : s.Idle) : Replays t₀ s := by
  have hinv : Inv t₀ s ∧ s.compactions = [] :=
    hs.invariant (P := fun s => Inv t₀ s ∧ s.compactions = [])
      ⟨inv_start hmode hmax hkv stale, rfl⟩ fun s a s' h ha hstep =>
      ⟨h.1.step ha.1 (undisturbed_of_compactions h.2) hstep, compactions_step h.2 ha.2 hstep⟩
  exact hinv.1.replays hidle

/-- Two sets of one key, the second logged before the first is in memory, and a
round of the sweeper. -/
def twoSets : List Action :=
  [.append (.setWithExpiry [1] [2] 100), .append (.setWithExpiry [1] [3] 100), .tick 5,
    .apply 0 fun _ => Eviction.byKey, .sweep 0 Eviction.byKey 4, .apply 0 fun _ => Eviction.byKey]

/-- Two sets of one key reach the memory in the order of the log, and both show the second. -/
theorem replays_of_inOrder_twoSets :
    ∃ s ∈ runAll step (fun s a => s.InOrder a ∧ a.opensTmp = false) (start oneShard none 0) twoSets,
      s.kv.content [1] = some ([3], 100) ∧ Replays 0 s := by
  obtain ⟨s, hs, hidle, hc⟩ :
      ∃ s ∈ runAll step (fun s a => s.InOrder a ∧ a.opensTmp = false) (start oneShard none 0)
        twoSets, s.Idle ∧ s.kv.content [1] = some ([3], 100) := by
    decide +kernel
  exact ⟨s, hs, hc, replays_of_inOrder (by decide) le_rfl
    (newKVStore_oneShard fun _ => Eviction.byKey) none (reach_of_runAll hs) hidle⟩

/-- The second set overtakes the first on the way to the memory. -/
def overtaking : List Action :=
  [.append (.setWithExpiry [1] [2] 100), .append (.setWithExpiry [1] [3] 100),
    .apply 1 fun _ => Eviction.byKey, .apply 0 fun _ => Eviction.byKey]

/-- **Log order is not memory order.**  The memory is left with the first set, the
log with the second. -/
theorem log_order_differs :
    newKVStore (fun _ => Eviction.byKey) none ⟨.always, 0, 0⟩ ⟨1, 0, 0, none⟩ 0 =
        some (.ok oneShard) ∧
      ∃ s ∈ runAll step (fun _ _ => True) (start oneShard none 0) overtaking,
        s.Idle ∧ s.kv.content [1] = some ([2], 100) ∧
          logContent s.kv.wal.file [1] = some ([3], 100) ∧ ¬ Replays 0 s := by
  obtain ⟨s, hs, hclock, hidle, hc, hlog⟩ :
      ∃ s ∈ runAll step (fun _ _ => True) (start oneShard none 0) overtaking,
        s.clock = 0 ∧ s.Idle ∧ s.kv.content [1] = some ([2], 100) ∧
          logContent s.kv.wal.file [1] = some ([3], 100) := by
    decide +kernel
  refine ⟨newKVStore_oneShard _, s, hs, hidle, hc, hlog, fun h => ?_⟩
  have heq := h.loaded_eq 0 hclock.le [1]
  rw [hc, hlog] at heq
  revert heq
  decide

/-! ### Calls and compactions -/

/-- **Compaction loses nothing where it is undisturbed.**  From a store just opened,
without a budget and with a log that is written through, by steps in order and
undisturbed: whenever no call and no compaction is on its way, the log replays to
the memory. -/
theorem replays_of_undisturbed (hmode : walOpts.mode ≠ .interval) (hmax : opts.maxMemoryBytes ≤ 0)
    (hkv : newKVStore ranges file walOpts opts t₀ = some (.ok kv)) (stale : Option Bytes)
    (hs : Reach step (fun s a => s.InOrder a ∧ s.Undisturbed a) (start kv stale t₀) s)
    (hidle : s.Idle) : Replays t₀ s := by
  have hinv : Inv t₀ s := hs.invariant (inv_start hmode hmax hkv stale)
    fun s a s' h ha hstep => h.step ha.1 ha.2 hstep
  exact hinv.replays hidle

/-- A set between the opening of the temporary file and the scan of its shard, and
a delete after the rename; the writer spills on the way. -/
def compacting : List Action :=
  [.openTmp, .append (.setWithExpiry [1] [2] 100), .apply 0 fun _ => Eviction.byKey,
    .scan 0 Eviction.byKey, .tick 5, .spill 0 4, .close 0, .swap 0, .append (.delete [3]),
    .apply 0 fun _ => Eviction.byKey]

/-- The set comes before the scan of its shard and the delete after the rename, so the new log
shows what the memory shows. -/
theorem replays_of_undisturbed_compacting :
    ∃ s ∈ runAll step (fun s a => s.InOrder a ∧ s.Undisturbed a) (start oneShard (some [7]) 0)
      compacting, s.kv.content [1] = some ([2], 100) ∧ Replays 0 s := by
  obtain ⟨s, hs, hidle, hc⟩ :
      ∃ s ∈ runAll step (fun s a => s.InOrder a ∧ s.Undisturbed a) (start oneShard (some [7]) 0)
        compacting, s.Idle ∧ s.kv.content [1] = some ([2], 100) := by
    decide +kernel
  exact ⟨s, hs, hc, replays_of_undisturbed (by decide) le_rfl
    (newKVStore_oneShard fun _ => Eviction.byKey) _ (reach_of_runAll hs) hidle⟩

/-- A set between the scan of its shard and the rename. -/
def tooLate : List Action :=
  [.openTmp, .scan 0 Eviction.byKey, .append (.setWithExpiry [1] [2] 100),
    .apply 0 fun _ => Eviction.byKey, .close 0, .swap 0]

/-- **A compaction loses a write.**  The set was logged and is in memory, and the log
that replaced the one it went to has nothing. -/
theorem compaction_loses_write :
    newKVStore (fun _ => Eviction.byKey) none ⟨.always, 0, 0⟩ ⟨1, 0, 0, none⟩ 0 =
        some (.ok oneShard) ∧
      ∃ s ∈ runAll step (fun _ _ => True) (start oneShard none 0) tooLate,
        s.Idle ∧ s.kv.content [1] = some ([2], 100) ∧ s.kv.wal.file = [] ∧ ¬ Replays 0 s := by
  obtain ⟨s, hs, hclock, hidle, hc, hlog⟩ :
      ∃ s ∈ runAll step (fun _ _ => True) (start oneShard none 0) tooLate,
        s.clock = 0 ∧ s.Idle ∧ s.kv.content [1] = some ([2], 100) ∧ s.kv.wal.file = [] := by
    decide +kernel
  refine ⟨newKVStore_oneShard _, s, hs, hidle, hc, hlog, fun h => ?_⟩
  have heq := h.loaded_eq 0 hclock.le [1]
  rw [hc, hlog] at heq
  revert heq
  decide

end System

end Store
end Keva
