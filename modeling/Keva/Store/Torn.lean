/-
# A log that ends inside a record

A crash in the middle of an append leaves the complete records of the log and the first
bytes of one more.  `readRecord` tells such an end from the end of the log, so that a
truncated record is never taken for it (`unexpectedEOF` in `storage/wal/wal_record.go`),
and `Replay`, `recover` and `NewKVStore` pass the error on: the store is not opened
(`torn_log_is_refused`).  Where the cut falls between two records the store is
opened, and holds what the complete records leave behind (`newKVStore_of_cut`).
-/

import Keva.Store.Recover

namespace Keva
namespace Store

open Bytes
open Eviction (Range)
open Expiry (loaded)

variable {ranges : ℕ → Range} {walOpts : Wal.Options} {opts : Options} {now : Time}
  {rs : List Wal.Record} {r : Wal.Record} {p : Bytes}

/-- `NewKVStore` succeeds on the file, and what it holds in memory is what has not
expired of what the records leave behind. -/
def RebuiltFrom (ranges : ℕ → Range) (walOpts : Wal.Options) (opts : Options) (now : Time)
    (file : Bytes) (rs : List Wal.Record) : Prop :=
  ∃ kv, newKVStore ranges (some file) walOpts opts now = some (.ok kv) ∧
    ∀ k, kv.content k = loaded now (Expiry.replay (rs.filterMap writeOf) (fun _ => none) k)

/-- A log of complete records is rebuilt. -/
theorem rebuiltFrom_encodeAll (hrs : ∀ r ∈ rs, r.Fits) (hc : UInt32.ofNat opts.shardCount ≠ 0) :
    RebuiltFrom ranges walOpts opts now (Wal.encodeAll rs) rs := by
  obtain ⟨b, hb⟩ := exists_shardBudget hc
  obtain ⟨hread, hlog⟩ := logContent_encodeAll (rfl : (Wal.replay []).2 = none) hrs
  rw [List.nil_append] at hread hlog
  obtain ⟨kv, hkv⟩ := exists_newKVStore (some (Wal.encodeAll rs)) hb hread (Or.inl hc) ranges
    walOpts now
  obtain ⟨-, -, -, -, hcontent⟩ := newKVStore_eq_ok hkv
  refine ⟨kv, hkv, fun k => ?_⟩
  rw [hcontent k, Option.getD_some, hlog, logContent_nil]

/-- A log with a record cut short at its end is refused. -/
theorem newKVStore_append_take (hrs : ∀ r ∈ rs, r.Fits) (hr : r.Fits) {n : ℕ} (h0 : 0 < n)
    (hn : n < r.encode.length) (hc : UInt32.ofNat opts.shardCount ≠ 0) :
    newKVStore ranges (some (Wal.encodeAll rs ++ r.encode.take n)) walOpts opts now =
      some (.error .unexpectedEOF) := by
  obtain ⟨b, hb⟩ := exists_shardBudget hc
  have hread : (Wal.replay (Wal.encodeAll rs)).2 = none := by rw [Wal.replay_encodeAll hrs]
  refine newKVStore_eq_error _ hb ?_ hc ranges walOpts now
  rw [Option.getD_some, Wal.replay_append_take hread hr h0 hn]

/-- **Where the log of a crash may end.**  After complete records, with nothing or all
of the last one on disk, the store is rebuilt from what is there; with a part of it on
disk, `NewKVStore` returns an unexpected end of file and there is no store. -/
theorem newKVStore_of_cut (hrs : ∀ r ∈ rs, r.Fits) (hr : r.Fits) (hp : p <+: r.encode)
    (hshards : opts.shardCount % 2 ^ 32 ≠ 0) (ranges : ℕ → Range) (walOpts : Wal.Options)
    (now : Time) :
    (p = [] → RebuiltFrom ranges walOpts opts now (Wal.encodeAll rs ++ p) rs) ∧
      (p = r.encode →
        RebuiltFrom ranges walOpts opts now (Wal.encodeAll rs ++ p) (rs ++ [r])) ∧
      (p ≠ [] → p ≠ r.encode →
        newKVStore ranges (some (Wal.encodeAll rs ++ p)) walOpts opts now =
          some (.error .unexpectedEOF)) := by
  have hc : UInt32.ofNat opts.shardCount ≠ 0 :=
    fun h0 => hshards ((ofNat_shardCount_eq_zero_iff _).1 h0)
  refine ⟨?_, ?_, ?_⟩
  · rintro rfl
    rw [List.append_nil]
    exact rebuiltFrom_encodeAll hrs hc
  · rintro rfl
    have hall : ∀ x ∈ rs ++ [r], x.Fits := by
      intro x hx
      rcases List.mem_append.1 hx with hx | hx
      · exact hrs x hx
      · rwa [List.mem_singleton.1 hx]
    have happ : Wal.encodeAll rs ++ r.encode = Wal.encodeAll (rs ++ [r]) := by
      rw [Wal.encodeAll, Wal.encodeAll, List.flatMap_append, List.flatMap_singleton]
    rw [happ]
    exact rebuiltFrom_encodeAll hall hc
  · intro hne hall
    have htake : p = r.encode.take p.length := List.prefix_iff_eq_take.1 hp
    have hpos : 0 < p.length := List.length_pos_iff.2 hne
    have hlt : p.length < r.encode.length :=
      lt_of_le_of_ne hp.length_le fun hlen => hall (hp.eq_of_length hlen)
    rw [htake]
    exact newKVStore_append_take hrs hr hpos hlt hc

/-- One complete record and the first seven bytes of another one. -/
def tornLog : Bytes :=
  Wal.encodeAll [.ofSet [1] [2] 100] ++ (Wal.Record.ofSet [3] [4] 100).encode.take 7

/-- A log that ends within its second record is refused. -/
theorem newKVStore_of_cut_tornLog :
    newKVStore (fun _ => Eviction.byKey) (some tornLog) ⟨.always, 0, 0⟩ ⟨4, 0, 0, none⟩ 50 =
      some (.error .unexpectedEOF) := by
  have h₁ : (Wal.Record.ofSet [1] [2] 100).Fits := by decide
  have h₂ : (Wal.Record.ofSet [3] [4] 100).Fits := by decide
  have hshards : (⟨4, 0, 0, none⟩ : Options).shardCount % 2 ^ 32 ≠ 0 := by decide
  have hcut := newKVStore_of_cut (List.forall_mem_singleton.2 h₁) h₂ (List.take_prefix 7 _) hshards
    (fun _ => Eviction.byKey) ⟨.always, 0, 0⟩ 50
  exact hcut.2.2 (by decide) (by decide)

/-- **A torn log is not opened.**  The first record is complete and has not expired, and
no store holds it as long as a part of the second one stands behind it. -/
theorem torn_log_is_refused :
    newKVStore (fun _ => Eviction.byKey) (some tornLog) ⟨.always, 0, 0⟩ ⟨4, 0, 0, none⟩ 50 =
        some (.error .unexpectedEOF) ∧
      ¬ RebuiltFrom (fun _ => Eviction.byKey) ⟨.always, 0, 0⟩ ⟨4, 0, 0, none⟩ 50 tornLog
        [.ofSet [1] [2] 100] := by
  have h₁ : (Wal.Record.ofSet [1] [2] 100).Fits := by decide
  have h₂ : (Wal.Record.ofSet [3] [4] 100).Fits := by decide
  have herr : newKVStore (fun _ => Eviction.byKey) (some tornLog) ⟨.always, 0, 0⟩ ⟨4, 0, 0, none⟩ 50 =
      some (.error .unexpectedEOF) :=
    newKVStore_append_take (List.forall_mem_singleton.2 h₁) h₂ (by decide) (by decide) (by decide)
  refine ⟨herr, ?_⟩
  rintro ⟨kv, hkv, -⟩
  rw [herr] at hkv
  cases hkv

end Store
end Keva
