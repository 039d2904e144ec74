/-
# The books of a shard, and the cap

A shard keeps a byte counter beside its map, and its policy may keep an order of the keys.
Recovery settles both, and every call keeps them right (`Shard.Sound`), whatever the policy
and the budget.  A shard with a budget then stays within it, or holds a single entry that is
larger, which only a policy that evicts lets in (`Shard.Within`).

`NewKVStore` gives each shard `opts.MaxMemoryBytes / int64(opts.ShardCount)` bytes, and a
budget of `0` is none.  So under `NoEvict` the cap holds where it leaves every shard at least
one byte, and with fewer bytes than shards there is no cap at all (`capped_iff`).
-/

import Mathlib.Algebra.Ring.Int.Defs
import Keva.Eviction.Room
import Keva.Store.Reject

namespace Keva
namespace Store

open Eviction (Range Policy PolicyName entrySize)
open Eviction.Shard (data_evict budget_evict)
open Expiry (Write visible)

namespace Shard

variable {s s' : Shard} {key : Key} {value : Bytes} {expiredAt now : Time} {err : Option Err}
  {ranges : ℕ → Range}

/-- The byte counter is right, and what the policy keeps goes with the map. -/
structure Sound (s : Shard) : Prop where
  bytes_eq : s.toShard.Exact
  tracks : s.policy.Tracks s.data

/-- The list of the strict policy has the keys of the shard. -/
theorem Sound.lru {s : Shard} (h : s.Sound) {p : Eviction.LRUEvict} (hp : s.policy = .lruEvict p) :
    p.Linked ∧ ∀ k, k ∈ p.keys ↔ k ∈ s.data := by
  have htracks := h.tracks
  rwa [hp] at htracks

/-- What the critical section of a set leads to: an error and no change, or the value under its
key; other keys keep their entry or lose it, and lose none if there is room. -/
structure Wrote (s : Shard) (key : Key) (value : Bytes) (expiredAt : Time) (s' : Shard)
    (err : Option Err) : Prop where
  sound : s'.Sound
  budget_eq : s'.budget = s.budget
  name_eq : s'.policy.name = s.policy.name
  refused : err ≠ none → s' = s
  stored : err = none → s'.content key = some (value, expiredAt)
  others : ∀ k, k ≠ key → s'.content k = s.content k ∨ s'.content k = none
  fits : (s.toShard.evict key).bytes + (key.length + value.length) ≤ s.budget →
    ∀ k, k ≠ key → s'.content k = s.content k
  accepted : s.policy.name ≠ .noevict → err = none
  within : err = none → s.budget ≠ 0 →
    s'.bytes ≤ s'.budget ∨ s.policy.name ≠ .noevict ∧ s'.data.keys.card = 1

/-- The policy has made room, and the new entry goes in. -/
theorem wrote_of_accepted (h : s.Sound) {p' : Policy} {view : Eviction.Shard}
    (hroom : s.policy.Room (s.toShard.evict key) (key.length + value.length) true p' view)
    (now : Time) :
    Wrote s key value expiredAt
      ⟨{ view with data := view.data.insert key ⟨value, now, expiredAt⟩,
                   bytes := view.bytes + (key.length + value.length) }, p'.afterWrite key⟩ none := by
  have hlookup : ∀ k, view.data.lookup k = (s.data.erase key).lookup k ∨ view.data.lookup k = none :=
    fun k => data_evict s.toShard key ▸ hroom.evicts.lookup_eq_or k
  have hnew : key ∉ view.data := by
    rw [← Finmap.lookup_eq_none]
    exact (hlookup key).elim (fun heq => heq.trans (Finmap.lookup_erase ..)) id
  have hbudget : view.budget = s.budget := hroom.evicts.budget_eq.trans (budget_evict ..)
  have hview : view.bytes = view.size := hroom.evicts.exact (h.bytes_eq.evict key)
  obtain ⟨htracks, hname⟩ := hroom.tracks.afterWrite hnew ⟨value, now, expiredAt⟩
  refine ⟨⟨?_, htracks⟩, hbudget, hname.trans hroom.name_eq, fun hne => absurd rfl hne,
    fun _ => ?_, fun k hk => ?_, fun hfits k hk => ?_, fun _ => rfl, fun _ h0 => ?_⟩
  · have hweight : Dict.weight entrySize (view.data.insert key ⟨value, now, expiredAt⟩) =
        entrySize key ⟨value, now, expiredAt⟩ + view.size := Dict.weight_insert hnew
    show view.bytes + (key.length + value.length) = Dict.weight entrySize _
    rw [hweight, hview, add_comm]
    rfl
  · show ((view.data.insert key _).lookup key).map _ = _
    rw [Finmap.lookup_insert]
    rfl
  · have hk' := hlookup k
    rw [Finmap.lookup_erase_ne hk] at hk'
    show ((view.data.insert key _).lookup k).map _ = (s.data.lookup k).map _ ∨
      ((view.data.insert key _).lookup k).map _ = none
    rw [Finmap.lookup_insert_of_ne _ hk]
    rcases hk' with heq | hnone
    · exact Or.inl (congrArg _ heq)
    · exact Or.inr (congrArg _ hnone)
  · have heq : view = s.toShard.evict key :=
      hroom.evicts.eq_of_fits ((budget_evict ..).symm ▸ hfits)
    show ((view.data.insert key _).lookup k).map _ = (s.data.lookup k).map _
    rw [Finmap.lookup_insert_of_ne _ hk, heq, data_evict, Finmap.lookup_erase_ne hk]
  · rcases hroom.room rfl ((budget_evict ..).symm ▸ h0) with hfits | ⟨hpolicy, hempty⟩
    · exact Or.inl hfits
    · refine Or.inr ⟨hpolicy, ?_⟩
      show (view.data.insert key _).keys.card = 1
      rw [hempty]
      rfl

/-- **A set on a shard whose books are right** returns, and leaves them right.  `BeforeWrite`
sees the shard without the old entry, and if it refuses, that entry is put back. -/
theorem setWithExpiry_spec (h : s.Sound) (ranges : ℕ → Range) (key : Key) (value : Bytes)
    (expiredAt now : Time) :
    ∃ s' err, s.setWithExpiry ranges key value expiredAt now = some (s', err) ∧
      Wrote s key value expiredAt s' err := by
  obtain ⟨accepted, p', view, hbefore, hroom⟩ := s.policy.beforeWrite_spec ranges h.tracks
    (data_evict s.toShard key) (key.length + value.length)
  cases accepted with
  | true =>
    refine ⟨_, none, ?_, wrote_of_accepted h hroom now⟩
    rw [setWithExpiry, hbefore]
    rfl
  | false =>
    -- Only `NoEvict` refuses, and the shard is then as it was.
    have hpolicy : s.policy.name = .noevict := by
      by_contra hne
      exact absurd (hroom.accepts (Or.inr hne)) Bool.false_ne_true
    have hset : ∃ s', s.setWithExpiry ranges key value expiredAt now = some (s', some .memoryFull) := by
      rw [setWithExpiry, hbefore]
      cases hold : s.data.lookup key with
      | none => exact ⟨_, rfl⟩
      | some rec => exact ⟨_, rfl⟩
    obtain ⟨s', hset⟩ := hset
    have hnoEvict : s.policy = .noEvict := by
      cases hp : s.policy with
      | noEvict => rfl
      | samplingEvict => rw [hp] at hpolicy; cases hpolicy
      | lruEvict p => rw [hp] at hpolicy; cases hpolicy
    obtain ⟨-, -, hcase⟩ := setWithExpiry_noEvict hnoEvict hset
    have hsome : (some Err.memoryFull : Option Err) ≠ none := Option.some_ne_none _
    obtain ⟨-, rfl⟩ := hcase.resolve_left fun hc => hsome hc.1
    exact ⟨s', some .memoryFull, hset, h, rfl, rfl, fun _ => rfl, fun herr => absurd herr hsome,
      fun k _ => Or.inl rfl, fun _ k _ => rfl, fun hne => absurd hpolicy hne,
      fun herr => absurd herr hsome⟩

/-! ### The other calls -/

/-- A delete takes off the counter what it takes out of the map, and tells the policy. -/
theorem Sound.delete (h : s.Sound) (key : Key) :
    (s.delete key).1.Sound ∧ (s.delete key).1.policy.name = s.policy.name := by
  unfold Shard.delete
  split
  · exact ⟨h, rfl⟩
  · obtain ⟨htracks, hname⟩ := h.tracks.afterDelete key
    exact ⟨⟨h.bytes_eq.evict key, data_evict s.toShard key ▸ htracks⟩, hname⟩

/-- The sweeper does the same for a key that has expired, and nothing for any other. -/
theorem Sound.sweepKey (h : s.Sound) (now : Time) (key : Key) :
    (s.sweepKey now key).Sound ∧ (s.sweepKey now key).policy.name = s.policy.name := by
  unfold Shard.sweepKey
  split
  · exact ⟨h, rfl⟩
  · split_ifs
    · obtain ⟨htracks, hname⟩ := h.tracks.afterDelete key
      exact ⟨⟨h.bytes_eq.evict key, data_evict s.toShard key ▸ htracks⟩, hname⟩
    · exact ⟨h, rfl⟩

/-- A whole sweep, in any order of iteration. -/
theorem Sound.sweep (h : s.Sound) (range : Range) (now : Time) :
    (s.sweep range now).Sound ∧ (s.sweep range now).policy.name = s.policy.name := by
  unfold Shard.sweep
  generalize range.keys s.data = ks
  induction ks generalizing s with
  | nil => exact ⟨h, rfl⟩
  | cons k ks ih =>
    obtain ⟨hsound, hname⟩ := h.sweepKey now k
    obtain ⟨hsound', hname'⟩ := ih hsound
    exact ⟨hsound', hname'.trans hname⟩

/-- A read changes nothing that is counted. -/
theorem Sound.afterRead (h : s.Sound) (key : Key) :
    ({ s with policy := s.policy.afterRead key } : Shard).Sound ∧
      (s.policy.afterRead key).name = s.policy.name := by
  obtain ⟨htracks, hname⟩ := h.tracks.afterRead key
  exact ⟨⟨h.bytes_eq, htracks⟩, hname⟩

/-- A shard that shows nothing for any key has no entries. -/
theorem data_eq_empty (h : ∀ k, s.content k = none) : s.data = ∅ :=
  Dict.eq_empty_iff.2 fun k => content_eq_none_iff.1 (h k)

/-- One round of the loop in `settle`. -/
def settleKey (s : Shard) (key : Key) : Shard :=
  match s.data.lookup key with
  | none => s
  | some rec =>
    { s with bytes := s.bytes + (key.length + rec.value.length),
             policy := s.policy.afterWrite key }

/-- The loop that ends recovery, key by key. -/
theorem settle_eq (s : Shard) (range : Range) :
    s.settle range = (range.keys s.data).foldl settleKey s := rfl

/-- The books are those of `m`, the entries that have been met, and `ks` are the keys to come:
at the end they are those of the shard. -/
theorem sound_foldl_settleKey {ks : List Key} {m : Dict Key Record} (hnodup : ks.Nodup)
    (hnew : ∀ k ∈ ks, k ∉ m) (hm : ∀ k, k ∉ ks → m.lookup k = s.data.lookup k)
    (hbytes : s.bytes = Dict.weight entrySize m) (htracks : s.policy.Tracks m) :
    (ks.foldl settleKey s).Sound ∧ (ks.foldl settleKey s).policy.name = s.policy.name := by
  induction ks generalizing s m with
  | nil =>
    obtain rfl : m = s.data := Finmap.ext_lookup fun k => hm k List.not_mem_nil
    exact ⟨⟨hbytes, htracks⟩, rfl⟩
  | cons key ks ih =>
    obtain ⟨hkey, hnodup⟩ := List.nodup_cons.1 hnodup
    have hnotMem : key ∉ m := hnew key List.mem_cons_self
    rw [List.foldl_cons]
    cases hrec : s.data.lookup key with
    | none =>
      have hsame : s.settleKey key = s := by rw [settleKey, hrec]
      rw [hsame]
      refine ih hnodup (fun k hk => hnew k (List.mem_cons_of_mem _ hk)) (fun k hk => ?_) hbytes
        htracks
      by_cases hkk : k = key
      · rw [hkk, hrec, Finmap.lookup_eq_none.2 hnotMem]
      · exact hm k fun hmem => (List.mem_cons.1 hmem).elim hkk hk
    | some rec =>
      have hmet : s.settleKey key = { s with
          bytes := s.bytes + (key.length + rec.value.length)
          policy := s.policy.afterWrite key } := by
        rw [settleKey, hrec]
      obtain ⟨htracks', hname⟩ := htracks.afterWrite hnotMem rec
      have hbytes' : (s.settleKey key).bytes = Dict.weight entrySize (m.insert key rec) := by
        rw [hmet, Dict.weight_insert hnotMem, hbytes, add_comm]
        rfl
      have hnew' : ∀ k ∈ ks, k ∉ m.insert key rec := by
        intro k hk hmem
        rcases Finmap.mem_insert.1 hmem with rfl | hmem
        · exact hkey hk
        · exact hnew k (List.mem_cons_of_mem _ hk) hmem
      have hm' : ∀ k, k ∉ ks → (m.insert key rec).lookup k = (s.settleKey key).data.lookup k := by
        intro k hk
        rw [hmet]
        by_cases hkk : k = key
        · rw [hkk, Finmap.lookup_insert, hrec]
        · rw [Finmap.lookup_insert_of_ne _ hkk]
          exact hm k fun hmem => (List.mem_cons.1 hmem).elim hkk hk
      obtain ⟨hsound, hname'⟩ := ih hnodup hnew' hm' hbytes' (hmet ▸ htracks')
      rw [hmet] at hname' ⊢
      exact ⟨hmet ▸ hsound, hname'.trans hname⟩

/-- **At the end of recovery the books are right:** records are loaded without counting, and one
loop over the keys counts them all. -/
theorem sound_settle (hbytes : s.bytes = 0) (htracks : s.policy.Tracks ∅) (range : Range) :
    (s.settle range).Sound ∧ (s.settle range).policy.name = s.policy.name := by
  rw [settle_eq]
  refine sound_foldl_settleKey (range.nodup _) (fun k _ => Finmap.notMem_empty) (fun k hk => ?_)
    hbytes htracks
  rw [range.mem_keys, ← Finmap.lookup_eq_none] at hk
  rw [hk, Finmap.lookup_empty]

/-! ### Staying within the budget -/

/-- The shard is within its budget, or holds a single entry and has a policy that evicts. -/
def Within (s : Shard) : Prop :=
  s.bytes ≤ s.budget ∨ s.policy.name ≠ .noevict ∧ s.data.keys.card = 1

/-- **A shard that holds no more is within its budget:** its entries weigh no more than those it
had. -/
theorem Within.of_content (h : s.Within) (hs : s.Sound) (hs' : s'.Sound) (hb : s'.budget = s.budget)
    (h0 : 0 ≤ s.budget) (hname : s'.policy.name = s.policy.name)
    (hcontent : ∀ k x, s'.content k = some x → s.content k = some x) : s'.Within := by
  have hlookup : ∀ k r', s'.data.lookup k = some r' →
      ∃ r, s.data.lookup k = some r ∧ entrySize k r' ≤ entrySize k r := by
    intro k r' hr'
    have hk := hcontent k (r'.value, r'.expiredAt) (content_eq_some_iff.2 ⟨r', hr', rfl, rfl⟩)
    obtain ⟨r, hr, hvalue, -⟩ := content_eq_some_iff.1 hk
    refine ⟨r, hr, ?_⟩
    rw [entrySize, entrySize, hvalue]
  have hbytes : s'.bytes ≤ s.bytes := by
    rw [hs.bytes_eq, hs'.bytes_eq]
    exact Dict.weight_le Eviction.entrySize_nonneg hlookup
  rcases h with hle | ⟨hpolicy, hcard⟩
  · exact Or.inl (hbytes.trans (hb ▸ hle))
  · have hsub : s'.data.keys ⊆ s.data.keys := by
      intro k hk
      obtain ⟨r', hr'⟩ := Finmap.mem_iff.1 (Finmap.mem_keys.1 hk)
      obtain ⟨r, hr, -⟩ := hlookup k r' hr'
      exact Finmap.mem_keys.2 (Finmap.mem_of_lookup_eq_some hr)
    have hcard' : s'.data.keys.card ≤ 1 := hcard ▸ Finset.card_le_card hsub
    by_cases hone : s'.data.keys.card = 1
    · exact Or.inr ⟨hname ▸ hpolicy, hone⟩
    · -- Nothing is left.
      have hempty : s'.data = ∅ :=
        Eviction.Shard.data_eq_empty_of_len (s := s'.toShard) (show s'.data.keys.card = 0 by omega)
      refine Or.inl ?_
      rw [hs'.bytes_eq, Eviction.Shard.size, hempty, hb]
      exact h0

end Shard

/-! ### Every call, shard by shard -/

/-- What a call may do to a shard: nothing, a set, a read that the policy is told of, a delete,
or a sweep. -/
inductive ShardStep (s : Shard) : Shard → Prop
  | same : ShardStep s s
  | set {ranges : ℕ → Range} {key : Key} {value : Bytes} {expiredAt now : Time} {s' : Shard}
      {err : Option Err} (hset : s.setWithExpiry ranges key value expiredAt now = some (s', err)) :
      ShardStep s s'
  | read (key : Key) : ShardStep s { s with policy := s.policy.afterRead key }
  | delete (key : Key) : ShardStep s (s.delete key).1
  | sweep (range : Range) (now : Time) : ShardStep s (s.sweep range now)

/-- The shard stays sound, keeps its budget and its policy, and stays within the budget. -/
structure Kept (s s' : Shard) : Prop where
  sound : s'.Sound
  budget_eq : s'.budget = s.budget
  name_eq : s'.policy.name = s.policy.name
  within : 0 < s.budget → s.Within → s'.Within

/-- **No call upsets the books,** and one that finds a shard within its budget leaves it so. -/
theorem ShardStep.kept {s s' : Shard} (hstep : ShardStep s s') (h : s.Sound) : Kept s s' := by
  cases hstep with
  | same => exact ⟨h, rfl, rfl, fun _ hw => hw⟩
  | @set ranges key value expiredAt now _ err hset =>
    obtain ⟨s₁, err₁, hset₁, hwrote⟩ := s.setWithExpiry_spec h ranges key value expiredAt now
    obtain ⟨rfl, rfl⟩ := Prod.mk.inj (Option.some.inj (hset₁.symm.trans hset))
    refine ⟨hwrote.sound, hwrote.budget_eq, hwrote.name_eq, fun hpos hw => ?_⟩
    by_cases herr : err₁ = none
    · rw [Shard.Within, hwrote.name_eq]
      exact hwrote.within herr hpos.ne'
    · exact hwrote.refused herr ▸ hw
  | read key =>
    obtain ⟨hsound, hname⟩ := h.afterRead key
    refine ⟨hsound, rfl, hname, fun _ hw => ?_⟩
    exact hw.imp_right fun hcard => ⟨hname ▸ hcard.1, hcard.2⟩
  | delete key =>
    obtain ⟨hsound, hname⟩ := h.delete key
    obtain ⟨hb, hc, -⟩ := Shard.content_delete s key
    refine ⟨hsound, hb, hname, fun hpos hw => hw.of_content h hsound hb hpos.le hname fun k x hk => ?_⟩
    rw [hc] at hk
    by_cases hkey : k = key
    · rw [hkey] at hk
      cases (Write.apply_key (Write.del key) s.content).symm.trans hk
    · rwa [Write.apply_of_ne (w := .del key) hkey] at hk
  | sweep range now =>
    obtain ⟨hsound, hname⟩ := h.sweep range now
    obtain ⟨hb, hc⟩ := Shard.content_sweep range now s
    refine ⟨hsound, hb, hname, fun hpos hw => hw.of_content h hsound hb hpos.le hname fun k x hk => ?_⟩
    rw [hc] at hk
    exact (Expiry.visible_eq_some_iff.1 hk).1

namespace KVStore

variable {kv kv' : KVStore} {op : Op} {ops : List Op} {r : Reply} {rs : List Reply} {b : ℤ}

/-- One shard is changed. -/
theorem shards_setShard (kv : KVStore) {i : ℕ} {s s' : Shard} (hs : kv.shards[i]? = some s)
    (hstep : ShardStep s s') :
    (kv.setShard i s').shards.length = kv.shards.length ∧
      ∀ (j : ℕ) x, (kv.setShard i s').shards[j]? = some x →
        ∃ y, kv.shards[j]? = some y ∧ ShardStep y x := by
  have hlt : i < kv.shards.length := (List.getElem?_eq_some_iff.1 hs).1
  refine ⟨List.length_set .., fun j x hx => ?_⟩
  by_cases hij : i = j
  · subst hij
    obtain rfl := Option.some.inj ((List.getElem?_set_self hlt).symm.trans hx)
    exact ⟨s, hs, hstep⟩
  · exact ⟨x, (List.getElem?_set_ne hij).symm.trans hx, .same⟩

/-- **What a call does to the shards:** each of them makes one step of `ShardStep`.  A sweep
reaches all of them, and any other call one. -/
theorem step_shards (hs : kv.step op = some (kv', r)) :
    kv'.shards.length = kv.shards.length ∧
      ∀ (i : ℕ) s', kv'.shards[i]? = some s' → ∃ s, kv.shards[i]? = some s ∧ ShardStep s s' := by
  cases op with
  | setWithExpiry ranges key value expiredAt now =>
    simp only [step, setWithExpiry, applySet, bind, Option.map_eq_some_iff,
      Option.bind_eq_some_iff, pure, Option.some.injEq, Prod.exists] at hs
    obtain ⟨kv₁, err, ⟨i, -, s, hi, s', e, hset, heq⟩, heq'⟩ := hs
    obtain ⟨rfl, -⟩ := Prod.mk.inj heq
    obtain ⟨rfl, -⟩ := Prod.mk.inj heq'
    exact shards_setShard (kv.append _) hi (.set hset)
  | get key now =>
    simp only [step, get, bind, Option.map_eq_some_iff, Option.bind_eq_some_iff, pure,
      Prod.exists] at hs
    obtain ⟨kv₁, a, ⟨i, -, s, hi, hget⟩, heq⟩ := hs
    obtain ⟨rfl, -⟩ := Prod.mk.inj heq
    have hsame : kv.shards.length = kv.shards.length ∧
        ∀ (j : ℕ) x, kv.shards[j]? = some x → ∃ y, kv.shards[j]? = some y ∧ ShardStep y x :=
      ⟨rfl, fun j x hx => ⟨x, hx, .same⟩⟩
    split at hget
    · obtain ⟨rfl, -⟩ := Prod.mk.inj (Option.some.inj hget)
      exact hsame
    · split_ifs at hget
      · obtain ⟨rfl, -⟩ := Prod.mk.inj (Option.some.inj hget)
        exact hsame
      · obtain ⟨rfl, -⟩ := Prod.mk.inj (Option.some.inj hget)
        exact shards_setShard kv hi (.read key)
  | delete key =>
    simp only [step, delete, applyDelete, bind, Option.map_eq_some_iff, Option.bind_eq_some_iff,
      pure, Option.some.injEq, Prod.exists] at hs
    obtain ⟨kv₁, err, ⟨i, -, s, hi, heq⟩, heq'⟩ := hs
    obtain ⟨rfl, -⟩ := Prod.mk.inj heq
    obtain ⟨rfl, -⟩ := Prod.mk.inj heq'
    exact shards_setShard (kv.append _) hi (.delete key)
  | sweep ranges now =>
    obtain ⟨rfl, -⟩ := Prod.mk.inj (Option.some.inj hs)
    refine ⟨List.length_mapIdx .., fun i s' hi => ?_⟩
    change (kv.shards.mapIdx fun i s => s.sweep (ranges i) now)[i]? = some s' at hi
    rw [List.getElem?_mapIdx, Option.map_eq_some_iff] at hi
    obtain ⟨s, hi, rfl⟩ := hi
    exact ⟨s, hi, .sweep _ _⟩
  | compact ranges now =>
    obtain ⟨rfl, -⟩ := Prod.mk.inj (Option.some.inj hs)
    exact ⟨rfl, fun i s' hi => ⟨s', hi, .same⟩⟩
  | flush n =>
    obtain ⟨rfl, -⟩ := Prod.mk.inj (Option.some.inj hs)
    exact ⟨rfl, fun i s' hi => ⟨s', hi, .same⟩⟩

/-- Every shard has budget `b` and a policy of that name, and its books are right. -/
structure Sound (b : ℤ) (n : PolicyName) (kv : KVStore) : Prop where
  sound : ∀ s ∈ kv.shards, s.Sound
  budget_eq : ∀ s ∈ kv.shards, s.budget = b
  name_eq : ∀ s ∈ kv.shards, s.policy.name = n

variable {n : PolicyName}

/-- **Every call keeps all books right,** and every shard within its budget, if it has one and
was. -/
theorem Sound.step (h : kv.Sound b n) (hs : kv.step op = some (kv', r)) :
    kv'.Sound b n ∧ (0 < b → (∀ s ∈ kv.shards, s.Within) → ∀ s ∈ kv'.shards, s.Within) := by
  have hkept : ∀ s' ∈ kv'.shards, ∃ s ∈ kv.shards, Kept s s' := by
    intro s' hs'
    obtain ⟨i, hi⟩ := List.getElem?_of_mem hs'
    obtain ⟨s, hsi, hstep⟩ := (step_shards hs).2 i s' hi
    have hmem := List.mem_of_getElem? hsi
    exact ⟨s, hmem, hstep.kept (h.sound s hmem)⟩
  refine ⟨⟨fun s' hs' => ?_, fun s' hs' => ?_, fun s' hs' => ?_⟩, fun hb hw s' hs' => ?_⟩
  · obtain ⟨s, -, hk⟩ := hkept s' hs'
    exact hk.sound
  · obtain ⟨s, hmem, hk⟩ := hkept s' hs'
    exact hk.budget_eq.trans (h.budget_eq s hmem)
  · obtain ⟨s, hmem, hk⟩ := hkept s' hs'
    exact hk.name_eq.trans (h.name_eq s hmem)
  · obtain ⟨s, hmem, hk⟩ := hkept s' hs'
    exact hk.within ((h.budget_eq s hmem).symm ▸ hb) (hw s hmem)

/-- **Every run keeps the accounts:** counters are exact, policies go with their shards, and with
a budget no shard exceeds it by more than its last entry. -/
theorem Sound.run (h : kv.Sound b n) (hr : kv.run ops = some (kv', rs)) :
    kv'.Sound b n ∧ (0 < b → (∀ s ∈ kv.shards, s.Within) → ∀ s ∈ kv'.shards, s.Within) := by
  induction ops generalizing kv rs with
  | nil =>
    obtain ⟨rfl, rfl⟩ := Prod.mk.inj (Option.some.inj hr)
    exact ⟨h, fun _ hw => hw⟩
  | cons op ops ih =>
    obtain ⟨kv₁, r, rs₁, hstep, hrun⟩ := run_cons_eq_some hr
    obtain ⟨h₁, hw₁⟩ := h.step hstep
    obtain ⟨h', hw'⟩ := ih h₁ hrun
    exact ⟨h', fun hb hw => hw' hb (hw₁ hb hw)⟩

/-- Shards are neither added nor lost. -/
theorem length_shards_run (hr : kv.run ops = some (kv', rs)) :
    kv'.shards.length = kv.shards.length := by
  induction ops generalizing kv rs with
  | nil =>
    obtain ⟨rfl, rfl⟩ := Prod.mk.inj (Option.some.inj hr)
    rfl
  | cons op ops ih =>
    obtain ⟨kv₁, r, rs₁, hstep, hrun⟩ := run_cons_eq_some hr
    exact (ih hrun).trans (step_shards hstep).1

/-- The critical section of a set, on its shard. -/
theorem applySet_wrote (h : kv.Sound b n) {ranges : ℕ → Range} {key : Key} {value : Bytes}
    {expiredAt now : Time} {err : Option Err}
    (hr : kv.applySet ranges key value expiredAt now = some (kv', err)) :
    ∃ i s s', kv.getShard key = some i ∧ kv.shards[i]? = some s ∧ kv' = kv.setShard i s' ∧
      s.setWithExpiry ranges key value expiredAt now = some (s', err) ∧
      s.Wrote key value expiredAt s' err := by
  simp only [applySet, bind, Option.bind_eq_some_iff, pure, Option.some.injEq, Prod.exists] at hr
  obtain ⟨i, hk, s, hs, s₁, e, hset, hr⟩ := hr
  obtain ⟨rfl, rfl⟩ := Prod.mk.inj hr
  obtain ⟨s', err, hset', hwrote⟩ :=
    s.setWithExpiry_spec (h.sound s (List.mem_of_getElem? hs)) ranges key value expiredAt now
  obtain ⟨rfl, rfl⟩ := Prod.mk.inj (Option.some.inj (hset'.symm.trans hset))
  exact ⟨i, s, s', hk, hs, rfl, hset, hwrote⟩

/-- **Every entry stays in the shard its key hashes to,** whatever is evicted: a call only adds
its own key, to the shard of this key. -/
theorem Regular.step (h : kv.Regular b) (hsound : kv.Sound b n) (hs : kv.step op = some (kv', r)) :
    kv'.Regular b := by
  cases op with
  | setWithExpiry ranges key value expiredAt now =>
    obtain ⟨⟨kv₁, err⟩, hr, heq⟩ := Option.map_eq_some_iff.1 hs
    obtain ⟨rfl, rfl⟩ := Prod.mk.inj heq
    have hlogged : (kv.append (.ofSet key value expiredAt)).Sound b n :=
      ⟨hsound.sound, hsound.budget_eq, hsound.name_eq⟩
    obtain ⟨i, s, s', hk, hi, rfl, -, hwrote⟩ := applySet_wrote hlogged hr
    refine (h.withWal _).setShard_of_placed hi ?_ fun k hne => ?_
    · exact hwrote.budget_eq.trans (h.budget_eq s (List.mem_of_getElem? hi))
    · by_cases hkey : k = key
      · exact hkey ▸ hk
      · rcases hwrote.others k hkey with heq | hnone
        · exact (h.withWal _).placed hi (heq ▸ hne)
        · exact absurd hnone hne
  | get key now =>
    obtain ⟨⟨kv₁, a⟩, hr, heq⟩ := Option.map_eq_some_iff.1 hs
    obtain ⟨rfl, rfl⟩ := Prod.mk.inj heq
    exact (get_eq_some h hr).2.1
  | delete key =>
    obtain ⟨⟨kv₁, err⟩, hr, heq⟩ := Option.map_eq_some_iff.1 hs
    obtain ⟨rfl, rfl⟩ := Prod.mk.inj heq
    exact (applyDelete_eq_some (h.withWal _) hr).2.1
  | sweep ranges now =>
    obtain ⟨rfl, rfl⟩ := Prod.mk.inj (Option.some.inj hs)
    exact h.sweep ranges now
  | compact ranges now =>
    obtain ⟨rfl, rfl⟩ := Prod.mk.inj (Option.some.inj hs)
    exact h.withWal _
  | flush n =>
    obtain ⟨rfl, rfl⟩ := Prod.mk.inj (Option.some.inj hs)
    exact h.withWal _

/-- A run leaves every key in the shard that `getShard` finds for it. -/
theorem Regular.run (h : kv.Regular b) (hsound : kv.Sound b n) (hr : kv.run ops = some (kv', rs)) :
    kv'.Regular b := by
  induction ops generalizing kv rs with
  | nil =>
    obtain ⟨rfl, rfl⟩ := Prod.mk.inj (Option.some.inj hr)
    exact h
  | cons op ops ih =>
    obtain ⟨kv₁, r, rs₁, hstep, hrun⟩ := run_cons_eq_some hr
    exact ih (h.step hsound hstep) (hsound.step hstep).1 hrun

/-- The bytes of all entries in all shards. -/
def size (kv : KVStore) : ℤ := (kv.shards.map fun s => s.toShard.size).sum

/-- An entry counts. -/
theorem le_size {k : Key} {v : Bytes} {e : Time} (hk : kv.content k = some (v, e)) :
    (k.length + v.length : ℤ) ≤ kv.size := by
  unfold content at hk
  obtain ⟨s, hs, hc⟩ := Option.bind_eq_some_iff.1 hk
  obtain ⟨i, -, hi⟩ := Option.bind_eq_some_iff.1 hs
  obtain ⟨rec, hrec, rfl, -⟩ := Shard.content_eq_some_iff.1 hc
  have hsize : s.toShard.size = entrySize k rec + (s.toShard.evict k).size := by
    rw [Eviction.Shard.size, Dict.weight_of_lookup hrec, Eviction.Shard.size, data_evict]
  have hone : s.toShard.size ≤ kv.size := by
    refine List.single_le_sum (fun x hx => ?_) _ (List.mem_map_of_mem (List.mem_of_getElem? hi))
    obtain ⟨s', -, rfl⟩ := List.mem_map.1 hx
    exact s'.toShard.size_nonneg
  have hrest := (s.toShard.evict k).size_nonneg
  have hentry : entrySize k rec = k.length + rec.value.length := rfl
  omega

/-- Shards of at most `c` bytes each. -/
theorem size_le {c : ℤ} (h : ∀ s ∈ kv.shards, s.toShard.size ≤ c) :
    kv.size ≤ kv.shards.length * c := by
  have hsum : kv.size ≤ (kv.shards.map fun s => s.toShard.size).length • c := by
    refine List.sum_le_card_nsmul _ _ fun x hx => ?_
    obtain ⟨s, hs, rfl⟩ := List.mem_map.1 hx
    exact h s hs
  rwa [List.length_map, Int.nsmul_eq_mul] at hsum

/-- Where no key has a shard, nothing is stored. -/
theorem size_le_zero_of_shardCount_eq_zero (h : kv.Regular b) (hcount : kv.shardCount = 0) :
    kv.size ≤ 0 := by
  have hempty : ∀ s ∈ kv.shards, s.toShard.size ≤ 0 := by
    intro s hs
    obtain ⟨i, hi⟩ := List.getElem?_of_mem hs
    rw [Eviction.Shard.size, Shard.data_eq_empty (h.content_eq_none hcount hi)]
    rfl
  have hsize := size_le hempty
  rwa [mul_zero] at hsize

end KVStore

section Open

variable {ranges : ℕ → Range} {file : Option Bytes} {walOpts : Wal.Options} {opts : Options}
  {t₀ : Time} {kv₀ : KVStore} {b : ℤ}

/-- **A store just opened has its books right,** with the budget and the policy of its options in
every shard. -/
theorem sound_newKVStore (hb : shardBudget opts = some b)
    (h : newKVStore ranges file walOpts opts t₀ = some (.ok kv₀)) :
    kv₀.shards.length = opts.shardCount ∧ kv₀.Sound b (opts.newEviction.getD .noevict) := by
  have hall : kv₀.shards.length = opts.shardCount ∧ ∀ s ∈ kv₀.shards,
      s.Sound ∧ s.budget = b ∧ s.policy.name = opts.newEviction.getD .noevict := by
    refine forall_shards_newKVStore
      (P := fun s => s.bytes = 0 ∧ s.budget = b ∧
        s.policy = Eviction.byName (opts.newEviction.getD .noevict))
      (fun b' hb' => ⟨rfl, Option.some.inj (hb'.symm.trans hb), rfl⟩)
      (fun s r hs => ?_) (fun range s hs => ?_) h
    · refine ⟨?_, (Shard.content_load t₀ s r).1.trans hs.2.1, (Shard.policy_load t₀ s r).trans hs.2.2⟩
      rw [← hs.1]
      unfold Shard.load
      split_ifs <;> rfl
    · obtain ⟨hbytes, hbudget, hpolicy⟩ := hs
      obtain ⟨hsound, hname⟩ := s.sound_settle hbytes (hpolicy ▸ Policy.tracks_byName _) range
      refine ⟨hsound, (s.data_settle range).2.trans hbudget, ?_⟩
      rw [hname, hpolicy, Policy.name_byName]
  obtain ⟨hlen, hshards⟩ := hall
  exact ⟨hlen, fun s hs => (hshards s hs).1, fun s hs => (hshards s hs).2.1,
    fun s hs => (hshards s hs).2.2⟩

/-- A store just opened on an empty log holds nothing. -/
theorem data_eq_empty_of_newKVStore (hfile : file.getD [] = [])
    (h : newKVStore ranges file walOpts opts t₀ = some (.ok kv₀)) : ∀ s ∈ kv₀.shards, s.data = ∅ := by
  obtain ⟨-, -, -, ⟨b, -, hreg⟩, hcontent⟩ := newKVStore_eq_ok h
  intro s hs
  obtain ⟨i, hi⟩ := List.getElem?_of_mem hs
  refine Shard.data_eq_empty fun k => ?_
  by_contra hne
  refine hne ?_
  rw [← KVStore.content_of_getShard (hreg.placed hi hne) hi, hcontent, hfile]
  rfl

/-- **The byte counter is exact.**  Whatever the log, the policy and the budget with which a
store was opened, and whatever is done to it then, the counter of each shard is the sum of
`len(key) + len(value)` over its entries. -/
theorem bytes_eq_weight {kv : KVStore} {ops : List Op} {rs : List Reply}
    (hnew : newKVStore ranges file walOpts opts t₀ = some (.ok kv₀))
    (hrun : kv₀.run ops = some (kv, rs)) :
    ∀ s ∈ kv.shards, s.bytes = Dict.weight entrySize s.data := by
  obtain ⟨-, -, -, ⟨b, hb, -⟩, -⟩ := newKVStore_eq_ok hnew
  obtain ⟨-, hsound⟩ := sound_newKVStore hb hnew
  obtain ⟨hsound', -⟩ := hsound.run hrun
  exact fun s hs => (hsound'.sound s hs).bytes_eq

/-- One shard with room for four bytes under `LRUEvict`, on an empty log. -/
def fourBytes : KVStore := emptyStore 4 ⟨.always, 0, 0⟩ none ⟨1, 0, 4, some .strict⟩

/-- Its one shard. -/
def fourBytesShard : Shard := ⟨⟨∅, 0, 4⟩, .lruEvict .new⟩

/-- It is what `NewKVStore` makes of no log with these options. -/
theorem newKVStore_fourBytes (ranges : ℕ → Range) :
    newKVStore ranges none ⟨.always, 0, 0⟩ ⟨1, 0, 4, some .strict⟩ 0 = some (.ok fourBytes) :=
  newKVStore_empty (by simp [shardBudget]) ranges _ 0

/-- A key is written, overwritten and evicted for another one, and a third one is deleted. -/
def overwritesAndEvicts : List Op :=
  [.setWithExpiry (fun _ => Eviction.byKey) [1] [9] 5 0,
    .setWithExpiry (fun _ => Eviction.byKey) [1] [9, 9] 5 0,
    .setWithExpiry (fun _ => Eviction.byKey) [2] [8] 6 0,
    .setWithExpiry (fun _ => Eviction.byKey) [3] [8] 9 0, .get [2] 6, .delete [3]]

/-- After an overwrite and an eviction the counter is the size of what is left. -/
theorem bytes_eq_weight_overwritesAndEvicts :
    ∃ x ∈ fourBytes.run overwritesAndEvicts,
      x.1.shards.map (fun s => (s.bytes, s.data.lookup [1], s.data.lookup [2])) =
          [(2, none, some ⟨[8], 0, 6⟩)] ∧
        ∀ s ∈ x.1.shards, s.bytes = Dict.weight entrySize s.data := by
  obtain ⟨⟨kv, rs⟩, hrun, hshards⟩ : ∃ x ∈ fourBytes.run overwritesAndEvicts,
      x.1.shards.map (fun s => (s.bytes, s.data.lookup [1], s.data.lookup [2])) =
        [(2, none, some ⟨[8], 0, 6⟩)] := by
    decide +kernel
  exact ⟨(kv, rs), hrun, hshards,
    bytes_eq_weight (newKVStore_fourBytes fun _ => Eviction.byKey) hrun⟩

/-- It is within its budgets. -/
theorem within_newKVStore (hb : shardBudget opts = some b) (hnonneg : 0 ≤ b)
    (hfile : file.getD [] = []) (h : newKVStore ranges file walOpts opts t₀ = some (.ok kv₀)) :
    ∀ s ∈ kv₀.shards, s.Within := by
  obtain ⟨-, hsound⟩ := sound_newKVStore hb h
  intro s hs
  refine Or.inl ?_
  rw [(hsound.sound s hs).bytes_eq, Eviction.Shard.size, data_eq_empty_of_newKVStore hfile h s hs,
    hsound.budget_eq s hs]
  exact hnonneg

/-! ### The cap -/

/-- The cap is one: whatever is done to a store that was opened on an empty log, its entries
together are no larger than `MaxMemoryBytes`. -/
def Capped (opts : Options) : Prop :=
  ∀ (ranges : ℕ → Range) (file : Option Bytes) (walOpts : Wal.Options) (t₀ : Time) (kv₀ kv : KVStore)
    (ops : List Op) (rs : List Reply), file.getD [] = [] →
    newKVStore ranges file walOpts opts t₀ = some (.ok kv₀) → kv₀.run ops = some (kv, rs) →
    kv.size ≤ opts.maxMemoryBytes

/-- Under `NoEvict` every shard stays within a budget that is not `0`. -/
theorem size_le_of_budget_pos (hb : shardBudget opts = some b) (hpos : 0 < b)
    (hpolicy : opts.newEviction.getD .noevict = .noevict) (hfile : file.getD [] = [])
    (hnew : newKVStore ranges file walOpts opts t₀ = some (.ok kv₀)) {kv : KVStore} {ops : List Op}
    {rs : List Reply} (hrun : kv₀.run ops = some (kv, rs)) : kv.size ≤ opts.shardCount * b := by
  obtain ⟨hlen, hsound⟩ := sound_newKVStore hb hnew
  obtain ⟨hsound', hwithin⟩ := hsound.run hrun
  have hwithin' := hwithin hpos (within_newKVStore hb hpos.le hfile hnew)
  have hshard : ∀ s ∈ kv.shards, s.toShard.size ≤ b := by
    intro s hs
    rw [← (hsound'.sound s hs).bytes_eq, ← hsound'.budget_eq s hs]
    refine (hwithin' s hs).resolve_right fun hcard => hcard.1 ?_
    rw [hsound'.name_eq s hs, hpolicy]
  have hsize := KVStore.size_le hshard
  rwa [KVStore.length_shards_run hrun, hlen] at hsize

/-- Without a budget there is no bound: one value of any length goes in, so that no number bounds
the size of a store over its runs. -/
theorem exists_run_size_gt (hb : shardBudget opts = some 0)
    (hcount : UInt32.ofNat opts.shardCount ≠ 0) (n : ℕ) :
    ∃ (kv₀ kv : KVStore) (ops : List Op) (rs : List Reply),
      newKVStore (fun _ => Eviction.byKey) none ⟨.always, 0, 0⟩ opts 0 = some (.ok kv₀) ∧
        kv₀.run ops = some (kv, rs) ∧ (n : ℤ) < kv.size := by
  obtain ⟨kv₀, hnew⟩ := exists_newKVStore none hb rfl (Or.inl hcount) (fun _ => Eviction.byKey)
    ⟨.always, 0, 0⟩ 0
  obtain ⟨-, hcount₀, -, ⟨b, hb', hreg⟩, -⟩ := newKVStore_eq_ok hnew
  obtain rfl : b = 0 := Option.some.inj (hb'.symm.trans hb)
  obtain ⟨kv, r, hstep⟩ := KVStore.exists_step hreg (hcount₀ ▸ hcount)
    (.setWithExpiry (fun _ => Eviction.byKey) [] (List.replicate (n + 1) 0) 0 0)
  have hkey : kv.content [] = some (List.replicate (n + 1) 0, 0) := by
    rw [(KVStore.step_eq_some hreg hstep).2.1]
    exact Write.apply_key (.set _ _ _) _
  have hsize := KVStore.le_size hkey
  rw [List.length_replicate] at hsize
  push_cast at hsize
  have hrun : kv₀.run [.setWithExpiry (fun _ => Eviction.byKey) [] (List.replicate (n + 1) 0) 0 0] =
      some (kv, [r]) := by
    simp [KVStore.run, hstep]
  refine ⟨kv₀, kv, _, [r], hnew, hrun, ?_⟩
  omega

/-- **When the cap is a cap.**  Under `NoEvict`, exactly when it has a byte for every shard, or
no key has a shard. -/
theorem capped_iff {opts : Options} (hmax : 0 < opts.maxMemoryBytes) (hcount : 0 < opts.shardCount)
    (hpolicy : opts.newEviction.getD .noevict = .noevict) :
    Capped opts ↔
      (opts.shardCount : ℤ) ≤ opts.maxMemoryBytes ∨ opts.shardCount % 2 ^ 32 = 0 := by
  have hb : shardBudget opts = some (opts.maxMemoryBytes / opts.shardCount) := by
    rw [shardBudget, if_pos hmax, if_neg hcount.ne']
  have hpos : (0 : ℤ) < opts.shardCount := by exact_mod_cast hcount
  constructor
  · intro hcap
    by_contra hnot
    obtain ⟨hlt, hshards⟩ := not_or.1 hnot
    -- The budget of every shard is zero.
    rw [Int.ediv_eq_zero_of_lt hmax.le (not_le.1 hlt)] at hb
    obtain ⟨kv₀, kv, ops, rs, hnew, hrun, hsize⟩ := exists_run_size_gt hb
      (fun h0 => hshards ((ofNat_shardCount_eq_zero_iff _).1 h0)) opts.maxMemoryBytes.toNat
    have hle := hcap _ none _ _ _ _ _ _ rfl hnew hrun
    omega
  · intro hor ranges file walOpts t₀ kv₀ kv ops rs hfile hnew hrun
    rcases hor with hle | hzero
    · have hbudget : 0 < opts.maxMemoryBytes / opts.shardCount :=
        (Int.le_ediv_iff_mul_le hpos).2 (by rwa [zero_add, one_mul])
      exact (size_le_of_budget_pos hb hbudget hpolicy hfile hnew hrun).trans
        (Int.mul_ediv_self_le hpos.ne')
    · obtain ⟨-, hcount₀, -, ⟨b, hb', hreg⟩, -⟩ := newKVStore_eq_ok hnew
      obtain ⟨-, hsound⟩ := sound_newKVStore hb' hnew
      have hcount' : kv.shardCount = 0 := by
        rw [KVStore.run_shardCount hrun, hcount₀, (ofNat_shardCount_eq_zero_iff _).2 hzero]
      exact (KVStore.size_le_zero_of_shardCount_eq_zero (hreg.run hsound hrun) hcount').trans hmax.le

/-- A hundred bytes for four shards. -/
theorem capped_iff_four : Capped ⟨4, 0, 100, none⟩ :=
  (capped_iff (by decide) (by decide) rfl).2 (Or.inl (by decide))

/-- Two shards and a cap of one byte, on an empty log. -/
def twoShards : KVStore := emptyStore 0 ⟨.always, 0, 0⟩ none ⟨2, 0, 1, none⟩

/-- **A cap smaller than the number of shards is none.**  Two bytes are stored under a cap of
one. -/
theorem not_capped :
    newKVStore (fun _ => Eviction.byKey) none ⟨.always, 0, 0⟩ ⟨2, 0, 1, none⟩ 0 =
        some (.ok twoShards) ∧
      ∃ x ∈ twoShards.run [.setWithExpiry (fun _ => Eviction.byKey) [1] [2] 100 0],
        1 < x.1.size := by
  constructor
  · simp [newKVStore, KVStore.recover, Wal.replayFile, shardBudget, KVStore.settle, emptyStore,
      Shard.settle, twoShards]
  · decide +kernel

end Open

end Store
end Keva
