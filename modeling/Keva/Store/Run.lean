/-
# The sharded store is one map with deadlines

A run is a list of calls on one store, one after the other, each with the clock
it reads (`run`).  On a store without a budget the answer of a call and what it
does to the content are functions of the content alone (`step_eq_some`); the
number of shards, the policy and the orders in which maps are ranged over do not
enter.  So a run leaves behind what the writes of the run leave behind, up to
entries that have expired and may or may not have been swept (`run_agreeFrom`),
and `Get` tells of each key its last write.

This holds for every number of shards but the multiples of `2 ^ 32`
(`refinesMap_iff`): `NewKVStore` keeps the count as `uint32(opts.ShardCount)`,
and `getShard` divides by it.
-/

import Keva.Store.Recover

namespace Keva
namespace Store

open Eviction (Range)
open Expiry (Content Write visible AgreeFrom lastOn)

/-- A call on the store, a round of the sweeper or some work of the flusher, with
the clock it reads.  `Delete` and the flusher read none. -/
inductive Op
  | setWithExpiry (ranges : ℕ → Range) (key : Key) (value : Bytes) (expiredAt now : Time)
  | get (key : Key) (now : Time)
  | delete (key : Key)
  | sweep (ranges : ℕ → Range) (now : Time)
  | compact (ranges : ℕ → Range) (now : Time)
  | flush (n : ℕ)

/-- What a call returns: the error of a write, what a `Get` found, or nothing. -/
inductive Reply
  | wrote (err : Option Err)
  | read (r : Except Err Bytes)
  | done

namespace Op

/-- The clock reading of a call. -/
def at? : Op → Option Time
  | setWithExpiry _ _ _ _ now => some now
  | get _ now => some now
  | delete _ => none
  | sweep _ now => some now
  | compact _ now => some now
  | flush _ => none

/-- The record a call appends to the log. -/
def record : Op → Option Wal.Record
  | setWithExpiry _ key value expiredAt _ => some (.ofSet key value expiredAt)
  | delete key => some (.ofDelete key)
  | _ => none

/-- The write a call stands for. -/
def write (op : Op) : Option (Write Key Bytes Time) := op.record.bind writeOf

/-- What a call does to the content of a store without a budget. -/
def effect (m : Content Key Bytes Time) : Op → Content Key Bytes Time
  | setWithExpiry _ key value expiredAt _ => (Write.set key value expiredAt).apply m
  | delete key => (Write.del key).apply m
  | sweep _ now => fun k => visible now (m k)
  | _ => m

/-- What a call on a store without a budget returns. -/
def reply (m : Content Key Bytes Time) : Op → Reply
  | setWithExpiry .. => .wrote none
  | get key now => .read (KVStore.answer (visible now (m key)))
  | delete key => .wrote (if m key = none then some .keyNotFound else none)
  | _ => .done

/-- What a call does to the log. -/
def log (kv : KVStore) (op : Op) : Wal.WAL :=
  match op with
  | compact ranges now => kv.wal.compact (kv.snapshot ranges now)
  | flush n => kv.wal.flush n
  | _ => op.record.elim kv.wal kv.wal.append

end Op

/-- The readings of the clock do not decrease from `t` on, and end by `t'`. -/
def Clocked (t : Time) : List Op → Time → Prop
  | [], t' => t ≤ t'
  | op :: ops, t' =>
    match op.at? with
    | none => Clocked t ops t'
    | some now => t ≤ now ∧ Clocked now ops t'

instance decidableClocked : ∀ (t : Time) (ops : List Op) (t' : Time), Decidable (Clocked t ops t')
  | t, [], t' => inferInstanceAs (Decidable (t ≤ t'))
  | t, op :: ops, t' =>
    match h : op.at? with
    | none =>
      have := decidableClocked t ops t'
      decidable_of_iff (Clocked t ops t') (by rw [Clocked, h])
    | some now =>
      have := decidableClocked now ops t'
      decidable_of_iff (t ≤ now ∧ Clocked now ops t') (by rw [Clocked, h])

/-- The writes of a run, in order. -/
def writes (ops : List Op) : List (Write Key Bytes Time) := ops.filterMap Op.write

namespace KVStore

/-- One call. -/
def step (kv : KVStore) : Op → Option (KVStore × Reply)
  | .setWithExpiry ranges key value expiredAt now =>
    (kv.setWithExpiry ranges key value expiredAt now).map fun (kv, err) => (kv, .wrote err)
  | .get key now => (kv.get key now).map fun (kv, r) => (kv, .read r)
  | .delete key => (kv.delete key).map fun (kv, err) => (kv, .wrote err)
  | .sweep ranges now => some (kv.sweep ranges now, .done)
  | .compact ranges now => some (kv.compact ranges now, .done)
  | .flush n => some (kv.flush n, .done)

/-- One call after the other, with what they return. -/
def run (kv : KVStore) : List Op → Option (KVStore × List Reply)
  | [] => some (kv, [])
  | op :: ops => do
    let (kv, r) ← kv.step op
    let (kv, rs) ← kv.run ops
    return (kv, r :: rs)

variable {kv kv' : KVStore} {op : Op} {ops : List Op} {r : Reply} {rs : List Reply}
  {t t' T : Time}

/-- **One call on a store without a budget:** what it returns and what it does
to content and log. -/
theorem step_eq_some (h : kv.Regular 0) (hs : kv.step op = some (kv', r)) :
    kv'.Regular 0 ∧ kv'.content = op.effect kv.content ∧ r = op.reply kv.content ∧
      kv'.wal = op.log kv := by
  cases op with
  | setWithExpiry ranges key value expiredAt now =>
    obtain ⟨⟨kv₁, err⟩, hr, heq⟩ := Option.map_eq_some_iff.1 hs
    obtain ⟨rfl, rfl⟩ := Prod.mk.inj heq
    obtain ⟨rfl, hreg, hwal, hc⟩ := applySet_eq_some (h.withWal _) hr
    exact ⟨hreg, hc, rfl, hwal⟩
  | get key now =>
    obtain ⟨⟨kv₁, a⟩, hr, heq⟩ := Option.map_eq_some_iff.1 hs
    obtain ⟨rfl, rfl⟩ := Prod.mk.inj heq
    obtain ⟨rfl, hreg, hwal, hc⟩ := get_eq_some h hr
    exact ⟨hreg, hc, rfl, hwal⟩
  | delete key =>
    obtain ⟨⟨kv₁, err⟩, hr, heq⟩ := Option.map_eq_some_iff.1 hs
    obtain ⟨rfl, rfl⟩ := Prod.mk.inj heq
    obtain ⟨rfl, hreg, hwal, hc⟩ := applyDelete_eq_some (h.withWal _) hr
    exact ⟨hreg, hc, rfl, hwal⟩
  | sweep ranges now =>
    obtain ⟨rfl, rfl⟩ := Prod.mk.inj (Option.some.inj hs)
    exact ⟨h.sweep ranges now, funext (content_sweep ranges now kv), rfl, rfl⟩
  | compact ranges now =>
    obtain ⟨rfl, rfl⟩ := Prod.mk.inj (Option.some.inj hs)
    exact ⟨h.withWal _, rfl, rfl, rfl⟩
  | flush n =>
    obtain ⟨rfl, rfl⟩ := Prod.mk.inj (Option.some.inj hs)
    exact ⟨h.withWal _, rfl, rfl, rfl⟩

/-- Where keys have shards, a call on a store without a budget returns: there is no eviction to
wait for, and nothing is refused. -/
theorem exists_step (h : kv.Regular 0) (hc : kv.shardCount ≠ 0) (op : Op) :
    ∃ kv' r, kv.step op = some (kv', r) := by
  cases op with
  | setWithExpiry ranges key value expiredAt now =>
    obtain ⟨kv', hr⟩ := applySet_isSome
      (h.withWal (kv.wal.append (.ofSet key value expiredAt))) hc ranges key value expiredAt now
    exact ⟨kv', .wrote none, Option.map_eq_some_iff.2 ⟨_, hr, rfl⟩⟩
  | get key now =>
    obtain ⟨kv', a, hr⟩ := get_isSome hc key now
    exact ⟨kv', .read a, Option.map_eq_some_iff.2 ⟨_, hr, rfl⟩⟩
  | delete key =>
    obtain ⟨kv', err, hr⟩ := applyDelete_isSome (kv.append (.ofDelete key)) hc key
    exact ⟨kv', .wrote err, Option.map_eq_some_iff.2 ⟨_, hr, rfl⟩⟩
  | sweep ranges now => exact ⟨_, _, rfl⟩
  | compact ranges now => exact ⟨_, _, rfl⟩
  | flush n => exact ⟨_, _, rfl⟩

/-- No call changes the number of shards, which `NewKVStore` takes from its options. -/
theorem step_shardCount (hs : kv.step op = some (kv', r)) : kv'.shardCount = kv.shardCount := by
  cases op with
  | setWithExpiry ranges key value expiredAt now =>
    simp only [step, setWithExpiry, applySet, bind, Option.map_eq_some_iff,
      Option.bind_eq_some_iff, pure, Option.some.injEq, Prod.exists] at hs
    obtain ⟨kv₁, err, ⟨i, -, s, -, s', e, -, hset⟩, heq⟩ := hs
    obtain ⟨rfl, -⟩ := Prod.mk.inj hset
    obtain ⟨rfl, -⟩ := Prod.mk.inj heq
    rfl
  | get key now =>
    simp only [step, get, bind, Option.map_eq_some_iff, Option.bind_eq_some_iff, pure,
      Prod.exists] at hs
    obtain ⟨kv₁, a, ⟨i, -, s, -, hget⟩, heq⟩ := hs
    obtain ⟨rfl, -⟩ := Prod.mk.inj heq
    split at hget
    · obtain ⟨rfl, -⟩ := Prod.mk.inj (Option.some.inj hget)
      rfl
    · split_ifs at hget <;> obtain ⟨rfl, -⟩ := Prod.mk.inj (Option.some.inj hget) <;> rfl
  | delete key =>
    simp only [step, delete, applyDelete, bind, Option.map_eq_some_iff, Option.bind_eq_some_iff,
      pure, Option.some.injEq, Prod.exists] at hs
    obtain ⟨kv₁, err, ⟨i, -, s, -, hdel⟩, heq⟩ := hs
    obtain ⟨rfl, -⟩ := Prod.mk.inj hdel
    obtain ⟨rfl, -⟩ := Prod.mk.inj heq
    rfl
  | sweep ranges now =>
    obtain ⟨rfl, -⟩ := Prod.mk.inj (Option.some.inj hs)
    rfl
  | compact ranges now =>
    obtain ⟨rfl, -⟩ := Prod.mk.inj (Option.some.inj hs)
    rfl
  | flush n =>
    obtain ⟨rfl, -⟩ := Prod.mk.inj (Option.some.inj hs)
    rfl

/-- A call that writes and returns had a shard for its key. -/
theorem shardCount_ne_zero_of_step (hs : kv.step op = some (kv', r)) {record : Wal.Record}
    (hr : op.record = some record) : kv.shardCount ≠ 0 := by
  intro h0
  have hnone (kv₁ : KVStore) (key : Key) (h : kv₁.shardCount = kv.shardCount) :
      kv₁.getShard key = none := getShard_of_shardCount_eq_zero (h.trans h0) key
  cases op with
  | setWithExpiry ranges key value expiredAt now =>
    simp [step, setWithExpiry_eq_applySet, applySet, hnone (kv.append _) key rfl] at hs
  | delete key => simp [step, delete_eq_applyDelete, applyDelete, hnone (kv.append _) key rfl] at hs
  | get key now => cases hr
  | sweep ranges now => cases hr
  | compact ranges now => cases hr
  | flush n => cases hr

/-- A run begins with its first call. -/
theorem run_cons_eq_some (h : kv.run (op :: ops) = some (kv', rs)) :
    ∃ kv₁ r rs₁, kv.step op = some (kv₁, r) ∧ kv₁.run ops = some (kv', rs₁) := by
  simp only [run, bind, Option.bind_eq_some_iff, Prod.exists] at h
  obtain ⟨kv₁, r, hstep, kv₂, rs₁, hrun, heq⟩ := h
  obtain ⟨rfl, rfl⟩ := Prod.mk.inj (Option.some.inj heq)
  exact ⟨kv₁, r, rs₁, hstep, hrun⟩

/-- No run changes the number of shards. -/
theorem run_shardCount (hr : kv.run ops = some (kv', rs)) : kv'.shardCount = kv.shardCount := by
  induction ops generalizing kv rs with
  | nil =>
    obtain ⟨rfl, rfl⟩ := Prod.mk.inj (Option.some.inj hr)
    rfl
  | cons op ops ih =>
    obtain ⟨kv₁, r, rs₁, hstep, hrun⟩ := run_cons_eq_some hr
    exact (ih hrun).trans (step_shardCount hstep)

/-- **A run on a store without a budget never gets stuck** where keys have
shards. -/
theorem exists_run (h : kv.Regular 0) (hc : kv.shardCount ≠ 0) (ops : List Op) :
    ∃ kv' rs, kv.run ops = some (kv', rs) := by
  induction ops generalizing kv with
  | nil => exact ⟨kv, [], rfl⟩
  | cons op ops ih =>
    obtain ⟨kv₁, r, hstep⟩ := exists_step h hc op
    obtain ⟨hreg, -⟩ := step_eq_some h hstep
    obtain ⟨kv', rs, hrun⟩ := ih hreg (step_shardCount hstep ▸ hc)
    exact ⟨kv', r :: rs, by simp [run, hstep, hrun]⟩

end KVStore

variable {op : Op} {ops : List Op} {t t' T : Time} {m m' : Content Key Bytes Time}

/-- Readings that do not decrease do not decrease after the first. -/
theorem clocked_cons (h : Clocked t (op :: ops) t') :
    t ≤ op.at?.getD t ∧ Clocked (op.at?.getD t) ops t' := by
  unfold Clocked at h
  split at h <;> rename_i hat <;> rw [hat]
  · exact ⟨le_rfl, h⟩
  · exact h

/-- The last reading is not before the first. -/
theorem Clocked.le (h : Clocked t ops t') : t ≤ t' := by
  induction ops generalizing t with
  | nil => exact h
  | cons op ops ih =>
    obtain ⟨hle, hclock⟩ := clocked_cons h
    exact hle.trans (ih hclock)

/-- **One call and one write:** where two contents agree from `t` on, they do
after a call on the one and its write, if any, on the other. -/
theorem agreeFrom_effect (h : AgreeFrom t m m') (ht : t ≤ op.at?.getD t) :
    AgreeFrom (op.at?.getD t) (op.effect m) (op.write.elim m' fun w => w.apply m') := by
  have h' := h.mono ht
  cases op with
  | setWithExpiry ranges key value expiredAt now => exact h'.apply (.set key value expiredAt)
  | get key now => exact h'
  | delete key => exact h'.apply (.del key)
  | sweep ranges now =>
    exact (Expiry.agreeFrom_of_visible_or_eq (m := m) fun k => Or.inl rfl).trans h'
  | compact ranges now => exact h'
  | flush n => exact h'

/-- **A run leaves behind what its writes leave behind,** up to what has expired
by its end. -/
theorem KVStore.run_agreeFrom {kv kv' : KVStore} {rs : List Reply} (h : kv.Regular 0)
    (hr : kv.run ops = some (kv', rs)) (hc : Clocked t ops t') (hm : AgreeFrom t kv.content m) :
    kv'.Regular 0 ∧ AgreeFrom t' kv'.content (Expiry.replay (writes ops) m) := by
  induction ops generalizing kv t m rs with
  | nil =>
    obtain ⟨rfl, rfl⟩ := Prod.mk.inj (Option.some.inj hr)
    exact ⟨h, hm.mono hc⟩
  | cons op ops ih =>
    obtain ⟨kv₁, r, rs₁, hstep, hrun⟩ := run_cons_eq_some hr
    obtain ⟨hreg, heffect, -⟩ := step_eq_some h hstep
    obtain ⟨hle, hclock⟩ := clocked_cons hc
    have hagree := agreeFrom_effect hm hle
    rw [← heffect] at hagree
    obtain ⟨h₁, h₂⟩ := ih hreg hrun hclock hagree
    refine ⟨h₁, ?_⟩
    cases hw : op.write with
    | none =>
      rw [hw, Option.elim_none] at h₂
      rwa [writes, List.filterMap_cons_none hw]
    | some w =>
      rw [hw, Option.elim_some] at h₂
      rwa [writes, List.filterMap_cons_some hw, Expiry.replay_cons]

/-! ### The answers of `Get` -/

/-- What `Get` owes its caller at time `t` after the writes `ws`: a value exactly
when the last write of the key set it with an expiry not before `t`, and
`ErrKeyNotFound` otherwise. -/
def AnswersLastWrite (ws : List (Write Key Bytes Time)) (k : Key) (t : Time)
    (r : Except Err Bytes) : Prop :=
  (∀ v, r = .ok v ↔ ∃ e, t ≤ e ∧ lastOn k ws = some (.set k v e)) ∧
    ((∀ v, r ≠ .ok v) → r = .error .keyNotFound)

/-- What a replay of the writes shows for a key is what the last write on it left. -/
theorem answersLastWrite_answer (ws : List (Write Key Bytes Time)) (k : Key) (t : Time) :
    AnswersLastWrite ws k t (KVStore.answer (visible t (Expiry.replay ws (fun _ => none) k))) := by
  unfold AnswersLastWrite
  rw [Expiry.replay_apply]
  cases hlast : lastOn k ws with
  | none => simp [KVStore.answer]
  | some w =>
    have hkey : w.key = k := (Expiry.mem_of_lastOn hlast).2
    cases w with
    | del k' => simp [KVStore.answer, Write.entry]
    | set k' v e =>
      obtain rfl : k' = k := hkey
      by_cases he : t ≤ e
      · have hset (v' : Bytes) : (∃ e', t ≤ e' ∧ v = v' ∧ e = e') ↔ v = v' := by
          constructor
          · rintro ⟨_, _, hv, _⟩
            exact hv
          · intro hv
            exact ⟨e, he, hv, rfl⟩
        simp [Write.entry, Expiry.visible_some, he, KVStore.answer, hset]
      · simp [Write.entry, Expiry.visible_some, he, KVStore.answer]

/-- The store opened with these options on an empty log behaves as one map with
deadlines: every run returns, and every later `Get` answers the last write of
its key. -/
def RefinesMap (opts : Options) : Prop :=
  ∀ (ranges : ℕ → Range) (file : Option Bytes) (walOpts : Wal.Options) (t₀ : Time) (ops : List Op)
    (t : Time), file.getD [] = [] → Clocked t₀ ops t →
    ∃ kv₀ kv rs, newKVStore ranges file walOpts opts t₀ = some (.ok kv₀) ∧
      kv₀.run ops = some (kv, rs) ∧
      ∀ k, ∃ kv' r, kv.get k t = some (kv', r) ∧ AnswersLastWrite (writes ops) k t r

/-- **The sharded store refines one map with deadlines** exactly when its number
of shards is not a multiple of `2 ^ 32`. -/
theorem refinesMap_iff {opts : Options} (hmax : opts.maxMemoryBytes ≤ 0) :
    RefinesMap opts ↔ opts.shardCount % 2 ^ 32 ≠ 0 := by
  have hopen (ranges : ℕ → Range) (file : Option Bytes) (walOpts : Wal.Options) (t₀ : Time)
      (hfile : file.getD [] = []) :
      ∃ kv₀, newKVStore ranges file walOpts opts t₀ = some (.ok kv₀) :=
    exists_newKVStore file (shardBudget_unlimited hmax) (by rw [hfile]; rfl)
      (Or.inr (by rw [hfile]; rfl)) ranges walOpts t₀
  constructor
  · intro h hzero
    obtain ⟨kv₀, kv, rs, hnew, hrun, hget⟩ :=
      h (fun _ => Eviction.byKey) none ⟨.none, 0, 0⟩ 0 [] 0 rfl (le_refl (0 : ℤ))
    obtain ⟨rfl, rfl⟩ := Prod.mk.inj (Option.some.inj hrun)
    have hcount := (newKVStore_eq_ok hnew).2.1
    rw [(ofNat_shardCount_eq_zero_iff _).2 hzero] at hcount
    obtain ⟨kv', r, hr, -⟩ := hget []
    simp [KVStore.get, KVStore.getShard_of_shardCount_eq_zero hcount] at hr
  · intro hne ranges file walOpts t₀ ops t hfile hclock
    obtain ⟨kv₀, hnew⟩ := hopen ranges file walOpts t₀ hfile
    obtain ⟨-, hcount, -, ⟨b, hb, hreg⟩, hcontent⟩ := newKVStore_eq_ok hnew
    rw [shardBudget_unlimited hmax] at hb
    obtain rfl := Option.some.inj hb
    rw [hfile] at hcontent
    have hcount₀ : kv₀.shardCount ≠ 0 := by
      rw [hcount]
      exact fun h0 => hne ((ofNat_shardCount_eq_zero_iff _).1 h0)
    obtain ⟨kv, rs, hrun⟩ := KVStore.exists_run hreg hcount₀ ops
    have hagree : AgreeFrom t₀ kv₀.content fun _ => none := fun k => by rw [hcontent k]; rfl
    obtain ⟨hreg', hagree'⟩ := KVStore.run_agreeFrom hreg hrun hclock hagree
    refine ⟨kv₀, kv, rs, hnew, hrun, fun k => ?_⟩
    obtain ⟨kv', r, hget⟩ := KVStore.get_isSome (KVStore.run_shardCount hrun ▸ hcount₀) k t
    refine ⟨kv', r, hget, ?_⟩
    rw [(KVStore.get_eq_some hreg' hget).1, hagree' k]
    exact answersLastWrite_answer _ k t

/-- One shard is enough. -/
theorem refinesMap_one : RefinesMap ⟨1, 0, 0, some .strict⟩ :=
  (refinesMap_iff le_rfl).2 (by decide)

/-- With `2 ^ 32` shards the store opens on an empty log, and the first `Get`
divides by zero. -/
theorem get_panics_of_two_pow_shards :
    ∃ kv, newKVStore (fun _ => Eviction.byKey) none ⟨.always, 0, 0⟩ ⟨2 ^ 32, 0, 0, none⟩ 0 = some (.ok kv) ∧
      kv.get [] 0 = none := by
  have hb : shardBudget ⟨2 ^ 32, 0, 0, none⟩ = some 0 := shardBudget_unlimited le_rfl
  obtain ⟨kv, hkv⟩ := exists_newKVStore none hb rfl (Or.inr rfl) (fun _ => Eviction.byKey)
    ⟨.always, 0, 0⟩ 0
  have hcount : kv.shardCount = 0 := (newKVStore_eq_ok hkv).2.1
  exact ⟨kv, hkv, by simp [KVStore.get, KVStore.getShard_of_shardCount_eq_zero hcount]⟩

end Store
end Keva
