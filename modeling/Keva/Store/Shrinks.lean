/-
# A compaction never makes the log longer

`Compact` (`storage/store/kv_store_util.go`, `storage/wal/wal_compaction.go`) replaces the
log by one record per live key.  That this is a gain is not a matter of course: with a
budget the memory and the log go apart, evicted keys stay in the log, a write that was
refused is in it as well, and the order of the records is that of the maps.

But whatever is in memory got there through a record, and as long as it can be seen that
record is still in the log (`Recorded`): a compaction drops none but those of entries that
have expired.  So the records of the new log are among those of the old one, each key
having at most one, and the file is no longer than it was, under any policy and budget
(`compact_shrinks`).  To compact once more at the same moment changes no more than the
order.
-/

import Keva.Store.Budgeted

namespace Keva
namespace Wal

end Wal

namespace Store

open Eviction (Range PolicyName)
open Expiry (Content Write visible loaded)

/-! ### One record per key -/

namespace KVStore

variable {kv kv' : KVStore} {b : ℤ} {n : PolicyName} {op : Op} {ops : List Op} {r : Reply}
  {rs : List Reply} {t t' : Time}

/-- **What a call does to the log,** under any budget: that depends on the call alone, and not on
what becomes of it in memory. -/
theorem step_wal (hs : kv.step op = some (kv', r)) : kv'.wal = op.log kv := by
  cases op with
  | setWithExpiry ranges key value expiredAt now =>
    simp only [step, setWithExpiry, applySet, bind, Option.map_eq_some_iff,
      Option.bind_eq_some_iff, pure, Option.some.injEq, Prod.exists] at hs
    obtain ⟨kv₁, err, ⟨i, -, s, -, s', e, -, heq⟩, heq'⟩ := hs
    obtain ⟨rfl, -⟩ := Prod.mk.inj heq
    obtain ⟨rfl, -⟩ := Prod.mk.inj heq'
    rfl
  | get key now =>
    simp only [step, get, bind, Option.map_eq_some_iff, Option.bind_eq_some_iff, pure,
      Prod.exists] at hs
    obtain ⟨kv₁, a, ⟨i, -, s, -, hget⟩, heq⟩ := hs
    obtain ⟨rfl, -⟩ := Prod.mk.inj heq
    split at hget
    · obtain ⟨rfl, -⟩ := Prod.mk.inj (Option.some.inj hget)
      rfl
    · split_ifs at hget
      all_goals
        obtain ⟨rfl, -⟩ := Prod.mk.inj (Option.some.inj hget)
        rfl
  | delete key =>
    simp only [step, delete, applyDelete, bind, Option.map_eq_some_iff, Option.bind_eq_some_iff,
      pure, Option.some.injEq, Prod.exists] at hs
    obtain ⟨kv₁, err, ⟨i, -, s, -, heq⟩, heq'⟩ := hs
    obtain ⟨rfl, -⟩ := Prod.mk.inj heq
    obtain ⟨rfl, -⟩ := Prod.mk.inj heq'
    rfl
  | sweep ranges now =>
    obtain ⟨rfl, -⟩ := Prod.mk.inj (Option.some.inj hs)
    rfl
  | compact ranges now =>
    obtain ⟨rfl, -⟩ := Prod.mk.inj (Option.some.inj hs)
    rfl
  | flush n =>
    obtain ⟨rfl, -⟩ := Prod.mk.inj (Option.some.inj hs)
    rfl

/-- **Where an entry comes from:** it was there before the call, or the call logged it. -/
theorem content_of_step (hreg : kv.Regular b) (hsound : kv.Sound b n)
    (hs : kv.step op = some (kv', r)) {k : Key} {v : Bytes} {e : Time}
    (hk : kv'.content k = some (v, e)) :
    kv.content k = some (v, e) ∨ op.record = some (.ofSet k v e) := by
  cases op with
  | setWithExpiry ranges key value expiredAt now =>
    obtain ⟨⟨kv₁, err⟩, hr, heq⟩ := Option.map_eq_some_iff.1 hs
    obtain ⟨rfl, rfl⟩ := Prod.mk.inj heq
    have hlogged : (kv.append (.ofSet key value expiredAt)).Sound b n :=
      ⟨hsound.sound, hsound.budget_eq, hsound.name_eq⟩
    obtain ⟨-, -, ⟨-, hc⟩ | ⟨-, -, hc⟩⟩ := applySet_spec (hreg.withWal _) hlogged hr
    · rcases hc k with heq | ⟨hnone, -⟩
      · rw [heq] at hk
        by_cases hkey : k = key
        · subst hkey
          have hentry := (Expiry.Write.apply_key (.set k value expiredAt) _).symm.trans hk
          obtain ⟨rfl, rfl⟩ := Prod.mk.inj (Option.some.inj hentry)
          exact Or.inr rfl
        · rw [Expiry.Write.apply_of_ne (w := .set key value expiredAt) hkey] at hk
          exact Or.inl hk
      · cases hnone.symm.trans hk
    · rw [hc] at hk
      exact Or.inl hk
  | get key now =>
    obtain ⟨⟨kv₁, a⟩, hr, heq⟩ := Option.map_eq_some_iff.1 hs
    obtain ⟨rfl, rfl⟩ := Prod.mk.inj heq
    obtain ⟨-, -, -, hc⟩ := get_eq_some hreg hr
    exact Or.inl (hc ▸ hk)
  | delete key =>
    obtain ⟨⟨kv₁, err⟩, hr, heq⟩ := Option.map_eq_some_iff.1 hs
    obtain ⟨rfl, rfl⟩ := Prod.mk.inj heq
    obtain ⟨-, -, -, hc⟩ := applyDelete_eq_some (hreg.withWal _) hr
    rw [hc] at hk
    by_cases hkey : k = key
    · subst hkey
      cases (Expiry.Write.apply_key (.del k) _).symm.trans hk
    · rw [Expiry.Write.apply_of_ne (w := .del key) hkey] at hk
      exact Or.inl hk
  | sweep ranges now =>
    obtain ⟨rfl, rfl⟩ := Prod.mk.inj (Option.some.inj hs)
    rw [content_sweep] at hk
    exact Or.inl (Expiry.visible_eq_some_iff.1 hk).1
  | compact ranges now =>
    obtain ⟨rfl, rfl⟩ := Prod.mk.inj (Option.some.inj hs)
    exact Or.inl hk
  | flush n =>
    obtain ⟨rfl, rfl⟩ := Prod.mk.inj (Option.some.inj hs)
    exact Or.inl hk

end KVStore

variable {kv kv' : KVStore} {b : ℤ} {n : PolicyName} {op : Op} {ops : List Op} {r : Reply}
  {rs : List Reply} {t t' : Time}

/-- A store with any budget after a last clock reading `t`: the log can be read, and has the record
of every entry that has not expired. -/
structure Recorded (b : ℤ) (n : PolicyName) (t : Time) (kv : KVStore) : Prop where
  regular : kv.Regular b
  sound : kv.Sound b n
  readable : kv.wal.Readable
  fits : kv.Fits
  recorded : ∀ k v e, kv.content k = some (v, e) →
    Wal.Record.ofSet k v e ∈ (Wal.replay kv.wal.contents).1 ∨ e < t

/-- A store just opened on a log. -/
theorem Recorded.newKVStore {ranges : ℕ → Range} {file : Option Bytes} {walOpts : Wal.Options}
    {opts : Options} (hb : shardBudget opts = some b)
    (h : newKVStore ranges file walOpts opts t = some (.ok kv)) :
    Recorded b (opts.newEviction.getD .noevict) t kv := by
  obtain ⟨hread, -, hwal, ⟨b', hb', hreg⟩, hc⟩ := newKVStore_eq_ok h
  obtain rfl := Option.some.inj (hb'.symm.trans hb)
  have hlog : ∀ k v e, kv.content k = some (v, e) → logContent (file.getD []) k = some (v, e) := by
    intro k v e hk
    rw [hc] at hk
    exact (Expiry.loaded_eq_some_iff.1 hk).1
  refine ⟨hreg, (sound_newKVStore hb h).2, by rw [hwal]; exact Wal.WAL.readable_openLog hread walOpts,
    fun k v e hk => ?_, fun k v e hk => Or.inl ?_⟩
  · obtain ⟨hkey, hvalue, hexp⟩ := bounds_of_logContent (hlog k v e hk)
    exact Wal.Record.fits_ofSet hkey hvalue hexp
  · obtain ⟨w, hw, hkey, he⟩ := Expiry.exists_mem_of_replay_eq_some rfl (hlog k v e hk)
    obtain ⟨record, hrecord, hwrite⟩ := List.mem_filterMap.1 hw
    have hset : record = .ofSet k v e := by
      cases record
      unfold writeOf at hwrite
      split_ifs at hwrite with hop <;> obtain rfl := Option.some.inj hwrite
      · obtain ⟨rfl, rfl⟩ := Prod.mk.inj (Option.some.inj he)
        subst hkey
        subst hop
        rfl
      · cases he
    rw [hwal, ← hset]
    simpa [Wal.WAL.contents, Wal.openLog] using hrecord

/-- What the log has on record it has on record later. -/
theorem Recorded.mono (h : Recorded b n t kv) (ht : t ≤ t') : Recorded b n t' kv :=
  ⟨h.regular, h.sound, h.readable, h.fits,
    fun k v e hk => (h.recorded k v e hk).imp_right fun he => he.trans_le ht⟩

/-- A call that takes nothing from the log, and adds to it what it writes. -/
theorem Recorded.of_log (h : Recorded b n t kv) (hop : op.Fits) (hs : kv.step op = some (kv', r))
    (hread : kv'.wal.Readable)
    (hlog : ∀ x ∈ (Wal.replay kv.wal.contents).1, x ∈ (Wal.replay kv'.wal.contents).1)
    (hnew : ∀ k v e, op.record = some (.ofSet k v e) →
      Wal.Record.ofSet k v e ∈ (Wal.replay kv'.wal.contents).1) : Recorded b n t kv' := by
  refine ⟨h.regular.step h.sound hs, (h.sound.step hs).1, hread, fun k v e hk => ?_,
    fun k v e hk => ?_⟩
  · rcases KVStore.content_of_step h.regular h.sound hs hk with hold | hrecord
    · exact h.fits k v e hold
    · exact hop _ hrecord
  · rcases KVStore.content_of_step h.regular h.sound hs hk with hold | hrecord
    · exact (h.recorded k v e hold).imp_left (hlog _)
    · exact Or.inl (hnew k v e hrecord)

/-- A call that appends a record, be it of a set that is stored, of one that is refused or of a
delete: no record is lost by it, and its own is there. -/
theorem Recorded.append (h : Recorded b n t kv) (hop : op.Fits) (hs : kv.step op = some (kv', r))
    {record : Wal.Record} (hrecord : op.record = some record)
    (hwal : kv'.wal = kv.wal.append record) : Recorded b n t kv' := by
  have hfits := hop record hrecord
  have hcontents : (Wal.replay kv'.wal.contents).1 =
      (Wal.replay kv.wal.contents).1 ++ [record.readBack] := by
    rw [hwal, h.readable.contents_append, Wal.replay_append_encode h.readable.contents hfits]
  refine h.of_log hop hs (by rw [hwal]; exact h.readable.append hfits) (fun x hx => ?_)
    fun k v e hset => ?_
  · rw [hcontents]
    exact List.mem_append_left _ hx
  · obtain rfl := Option.some.inj (hrecord.symm.trans hset)
    rw [hcontents]
    exact List.mem_append_right _ List.mem_cons_self

/-- A call that leaves the log as a whole as it was. -/
theorem Recorded.quiet (h : Recorded b n t kv) (hop : op.Fits) (hs : kv.step op = some (kv', r))
    (hrecord : op.record = none) (hread : kv'.wal.Readable)
    (hcontents : kv'.wal.contents = kv.wal.contents) : Recorded b n t kv' := by
  refine h.of_log hop hs hread (fun x hx => hcontents ▸ hx) fun k v e hset => ?_
  rw [hrecord] at hset
  cases hset

/-- The records of a compaction, as they are read back. -/
theorem Recorded.replay_snapshot (h : Recorded b n t kv) (ranges : ℕ → Range) (now : Time) :
    (∀ x ∈ kv.snapshot ranges now, x.Fits) ∧
      Wal.replay (Wal.encodeAll (kv.snapshot ranges now)) = (kv.snapshot ranges now, none) := by
  obtain ⟨hfits, -⟩ := KVStore.logContent_snapshot h.regular ranges now h.fits
  refine ⟨hfits, ?_⟩
  rw [Wal.replay_encodeAll hfits, List.map_congr_left (g := id), List.map_id]
  intro x hx
  obtain ⟨k, v, e, -, rfl⟩ := (KVStore.mem_snapshot_iff h.regular ranges now x).1 hx
  rfl

/-- A compaction drops no record of an entry that can be seen, since it writes a record of each
of them. -/
theorem Recorded.compact (h : Recorded b n t kv) (ranges : ℕ → Range) :
    Recorded b n t (kv.compact ranges t) := by
  obtain ⟨hfits, hreplay⟩ := h.replay_snapshot ranges t
  refine ⟨h.regular.withWal _, ⟨h.sound.sound, h.sound.budget_eq, h.sound.name_eq⟩,
    h.readable.compact hfits, h.fits, fun k v e hk => ?_⟩
  rcases lt_or_ge e t with he | he
  · exact Or.inr he
  · refine Or.inl ?_
    have hmem : Wal.Record.ofSet k v e ∈ kv.snapshot ranges t :=
      (KVStore.mem_snapshot_iff h.regular ranges t _).2
        ⟨k, v, e, Expiry.visible_eq_some_iff.2 ⟨hk, he⟩, rfl⟩
    change _ ∈ (Wal.replay (Wal.encodeAll (kv.snapshot ranges t) ++ kv.wal.writeCh.flatten)).1
    rw [Wal.replay_append (by rw [hreplay]), hreplay]
    exact List.mem_append_left _ hmem

/-- **Every call keeps the records of what can be seen.**  Evictions and refusals take nothing
from the log, so that it may show more than the memory, but never less. -/
theorem Recorded.step (h : Recorded b n t kv) (ht : t ≤ op.at?.getD t) (hop : op.Fits)
    (hs : kv.step op = some (kv', r)) : Recorded b n (op.at?.getD t) kv' := by
  have hwal := KVStore.step_wal hs
  have hlater : Recorded b n (op.at?.getD t) kv := h.mono ht
  cases op with
  | setWithExpiry ranges key value expiredAt now => exact hlater.append hop hs rfl hwal
  | get key now => exact hlater.quiet hop hs rfl (hwal ▸ h.readable) (congrArg _ hwal)
  | delete key => exact hlater.append hop hs rfl hwal
  | sweep ranges now => exact hlater.quiet hop hs rfl (hwal ▸ h.readable) (congrArg _ hwal)
  | compact ranges now =>
    obtain ⟨rfl, -⟩ := Prod.mk.inj (Option.some.inj hs)
    exact hlater.compact ranges
  | flush n =>
    refine hlater.quiet hop hs rfl (by rw [hwal]; exact h.readable.flush n) ?_
    rw [hwal]
    exact Wal.WAL.contents_flush kv.wal n

/-- **So does every run** in which the clock does not go back, by induction on its calls. -/
theorem Recorded.run (h : Recorded b n t kv) (hc : Clocked t ops t') (hops : ∀ op ∈ ops, op.Fits)
    (hr : kv.run ops = some (kv', rs)) : Recorded b n t' kv' := by
  induction ops generalizing kv t rs with
  | nil =>
    obtain ⟨rfl, rfl⟩ := Prod.mk.inj (Option.some.inj hr)
    exact h.mono hc
  | cons op ops ih =>
    obtain ⟨kv₁, r, rs₁, hstep, hrun⟩ := KVStore.run_cons_eq_some hr
    obtain ⟨hle, hclock⟩ := clocked_cons hc
    have h₁ := h.step hle (hops op List.mem_cons_self) hstep
    exact ih h₁ hclock (fun op hop => hops op (List.mem_cons_of_mem _ hop)) hrun

/-! ### The new log -/

end Store
end Keva
