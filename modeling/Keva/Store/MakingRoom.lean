/-
# A set makes room for itself

`SetWithExpiry` (`storage/store/kv_store.go`) on a shard that has a budget.  `NoEvict` takes
a write exactly if it fits beside the other entries, and leaves the shard alone otherwise.
`SamplingEvict` and `LRUEvict` take every write: they evict until it fits or nothing else is
left, and no key is evicted at a moment when the write would have fitted
(`setWithExpiry_makes_room`).

The shard may be one that recovery left over its budget: nothing is asked of it but that its
books are right, which they always are.
-/

import Keva.Store.Accounts

namespace Keva
namespace Store

open Eviction (Range Policy PolicyName entrySize)
open Eviction.Shard (data_evict budget_evict data_evictAll budget_evictAll)

namespace Shard

variable {s : Shard} {key : Key} {value : Bytes}

/-- The new entry fits beside the entries of the other keys.  What is stored under its own key
makes room for it. -/
def Fits (s : Shard) (key : Key) (value : Bytes) : Prop :=
  Dict.weight entrySize (s.data.erase key) + (key.length + value.length) ≤ s.budget

/-- The keys a set evicts, in this order. -/
def victims (ranges : ℕ → Range) (s : Shard) (key : Key) (value : Bytes) : List Key :=
  s.policy.victims ranges (s.toShard.evict key) key (key.length + value.length)

/-- With the key taken out the counter is that of the other entries. -/
theorem Sound.bytes_evict (h : s.Sound) (key : Key) :
    (s.toShard.evict key).bytes = Dict.weight entrySize (s.data.erase key) := by
  rw [← data_evict s.toShard key]
  exact h.bytes_eq.evict key

/-- And so it is once some of them have been evicted. -/
theorem Sound.bytes_evictAll (h : s.Sound) (key : Key) (gone : List Key) :
    ((s.toShard.evict key).evictAll gone).bytes =
      Dict.weight entrySize (Dict.eraseAll (s.data.erase key) gone) := by
  have hexact := (h.bytes_eq.evict key).evictAll gone
  rwa [Eviction.Shard.Exact, Eviction.Shard.size, data_evictAll, data_evict] at hexact

/-- **A set under `NoEvict`** goes in exactly if it fits.  If it does, no other key is touched,
and if it does not, nothing is. -/
theorem setWithExpiry_of_noevict (h : s.Sound) (hpos : 0 < s.budget)
    (hname : s.policy.name = .noevict) {ranges : ℕ → Range} {expiredAt now : Time} {s' : Shard}
    {err : Option Err} (hset : s.setWithExpiry ranges key value expiredAt now = some (s', err)) :
    (err = none ↔ s.Fits key value) ∧
      (err = none → s'.data = s.data.insert key ⟨value, now, expiredAt⟩) ∧
      (err ≠ none → s' = s) := by
  have hpolicy : s.policy = .noEvict := by
    cases hp : s.policy with
    | noEvict => rfl
    | samplingEvict | lruEvict =>
      rw [hp] at hname
      cases hname
  obtain ⟨-, -, hcase⟩ := setWithExpiry_noEvict hpolicy hset
  have hne : (s.toShard.evict key).budget ≠ 0 := by
    rw [budget_evict]
    exact hpos.ne'
  have hfits : (s.toShard.evict key).bytes + (key.length + value.length) ≤
      (s.toShard.evict key).budget ↔ s.Fits key value := by
    rw [h.bytes_evict, budget_evict]
    rfl
  rw [setWithExpiry, hpolicy, Policy.beforeWrite, if_neg hne, Option.map_some] at hset
  by_cases hfit : s.Fits key value
  · rw [decide_eq_true (hfits.2 hfit)] at hset
    obtain ⟨rfl, rfl⟩ := Prod.mk.inj (Option.some.inj hset)
    refine ⟨iff_of_true rfl hfit, fun _ => ?_, fun hsome => absurd rfl hsome⟩
    show (s.toShard.evict key).data.insert key _ = _
    rw [data_evict, Dict.insert_erase]
  · rw [decide_eq_false (mt hfits.1 hfit)] at hset
    have herr : err = some .memoryFull := by
      cases hold : s.data.lookup key <;> simp only [hold] at hset <;>
        exact (Prod.mk.inj (Option.some.inj hset)).2.symm
    have hsome : err ≠ none := herr ▸ Option.some_ne_none _
    exact ⟨iff_of_false hsome hfit, fun hnone => absurd hnone hsome,
      fun _ => (hcase.resolve_left fun hok => hsome hok.1).2⟩

/-- **A set under a policy that evicts** goes in, and evicts no more than it has to. -/
theorem setWithExpiry_of_evicts (h : s.Sound) (hpos : 0 < s.budget)
    (hname : s.policy.name ≠ .noevict) {ranges : ℕ → Range} {expiredAt now : Time} {s' : Shard}
    {err : Option Err} (hset : s.setWithExpiry ranges key value expiredAt now = some (s', err)) :
    err = none ∧
      s'.data = (Dict.eraseAll (s.data.erase key) (s.victims ranges key value)).insert key
        ⟨value, now, expiredAt⟩ ∧
      (s'.bytes ≤ s'.budget ∨ s'.data.keys = {key}) ∧
      ∀ before victim after, s.victims ranges key value = before ++ victim :: after →
        victim ∈ Dict.eraseAll (s.data.erase key) before ∧
          s.budget < Dict.weight entrySize (Dict.eraseAll (s.data.erase key) before) +
            (key.length + value.length) := by
  obtain ⟨accepted, p', view, hbefore, hroom⟩ := s.policy.beforeWrite_spec ranges h.tracks
    (data_evict s.toShard key) (key.length + value.length)
  obtain ⟨hview, hforced⟩ := Policy.beforeWrite_victims h.tracks (data_evict s.toShard key) hbefore
  obtain rfl : accepted = true := hroom.accepts (Or.inr hname)
  rw [setWithExpiry, hbefore] at hset
  obtain ⟨rfl, rfl⟩ := Prod.mk.inj (Option.some.inj hset)
  refine ⟨rfl, ?_, ?_, fun before victim after heq => ?_⟩
  · show view.data.insert key _ = _
    rw [hview, data_evictAll, data_evict]
    rfl
  · have hne : (s.toShard.evict key).budget ≠ 0 := by
      rw [budget_evict]
      exact hpos.ne'
    rcases hroom.room rfl hne with hfits | ⟨-, hempty⟩
    · exact Or.inl hfits
    · refine Or.inr ?_
      show (view.data.insert key _).keys = {key}
      rw [hempty]
      rfl
  · have hforced' : (s.toShard.evict key).Forced (key.length + value.length)
        (before ++ victim :: after) := by
      rw [← heq]
      exact hforced
    obtain ⟨hvictim, hover⟩ := hforced'.at
    rw [data_evictAll, data_evict] at hvictim
    rw [budget_evictAll, budget_evict, h.bytes_evictAll] at hover
    exact ⟨hvictim, hover⟩

end Shard

section Open

variable {ranges : ℕ → Range} {file : Option Bytes} {walOpts : Wal.Options} {opts : Options}
  {t₀ : Time} {kv₀ kv : KVStore} {ops : List Op} {rs : List Reply}

/-- **Making room is enough and never too much.**  A set of `key` goes to the shard `s` of a
store, in any state, where `s` has a budget.  It returns, and under `NoEvict` it is accepted
exactly if it fits beside the other entries; a set that is refused changes nothing in the shard.
Under the other two policies it is accepted, whatever order the maps are ranged over in: the
victims are taken out and the entry goes in, what survives is as it was, and the shard is within
its budget or holds nothing else.  When a victim was evicted it was there, and the entries that
were left and the new one exceeded the budget. -/
theorem setWithExpiry_makes_room (hnew : newKVStore ranges file walOpts opts t₀ = some (.ok kv₀))
    (hrun : kv₀.run ops = some (kv, rs)) {key : Key} {i : ℕ} {s : Shard}
    (hkey : kv.getShard key = some i) (hs : kv.shards[i]? = some s) (hpos : 0 < s.budget)
    (ranges' : ℕ → Range) (value : Bytes) (expiredAt now : Time) :
    ∃ s' err,
      kv.setWithExpiry ranges' key value expiredAt now =
          some ((kv.append (.ofSet key value expiredAt)).setShard i s', err) ∧
        (s.policy.name = .noevict →
          (err = none ↔ s.Fits key value) ∧
            (err = none → s'.data = s.data.insert key ⟨value, now, expiredAt⟩) ∧
            (err ≠ none → s' = s)) ∧
        (s.policy.name ≠ .noevict →
          err = none ∧
            s'.data = (Dict.eraseAll (s.data.erase key) (s.victims ranges' key value)).insert key
              ⟨value, now, expiredAt⟩ ∧
            (∀ k ∈ s'.data, k ≠ key → s'.data.lookup k = s.data.lookup k) ∧
            (s'.bytes ≤ s'.budget ∨ s'.data.keys = {key}) ∧
            ∀ before victim after, s.victims ranges' key value = before ++ victim :: after →
              victim ∈ Dict.eraseAll (s.data.erase key) before ∧
                s.budget < Dict.weight entrySize (Dict.eraseAll (s.data.erase key) before) +
                  (key.length + value.length)) := by
  obtain ⟨-, -, -, ⟨b, hb, -⟩, -⟩ := newKVStore_eq_ok hnew
  obtain ⟨-, hsound⟩ := sound_newKVStore hb hnew
  have h : s.Sound := (hsound.run hrun).1.sound s (List.mem_of_getElem? hs)
  obtain ⟨s', err, hset, -⟩ := s.setWithExpiry_spec h ranges' key value expiredAt now
  refine ⟨s', err, ?_, fun hname => Shard.setWithExpiry_of_noevict h hpos hname hset, fun hname => ?_⟩
  · have hkey' : (kv.append (.ofSet key value expiredAt)).getShard key = some i := hkey
    have hs' : (kv.append (.ofSet key value expiredAt)).shards[i]? = some s := hs
    simp [KVStore.setWithExpiry_eq_applySet, KVStore.applySet, hkey', hs', hset]
  · obtain ⟨herr, hdata, hwithin, hforced⟩ := Shard.setWithExpiry_of_evicts h hpos hname hset
    refine ⟨herr, hdata, fun k hk hne => ?_, hwithin, hforced⟩
    rw [hdata, Finmap.mem_insert, or_iff_right hne, Dict.mem_eraseAll] at hk
    rw [hdata, Finmap.lookup_insert_of_ne _ hne, Dict.lookup_eraseAll, if_neg hk.2,
      Finmap.lookup_erase_ne hne]

/-- Two keys fill the shard, and a third one is written, whose entry needs three of the four
bytes: both have to go. -/
theorem setWithExpiry_makes_room_fourBytes :
    ∃ x ∈ fourBytes.run [.setWithExpiry (fun _ => Eviction.byKey) [1] [9] 5 0,
        .setWithExpiry (fun _ => Eviction.byKey) [2] [9] 5 0],
      ∃ s ∈ x.1.shards[0]?, s.victims (fun _ => Eviction.byKey) [3] [8, 8] = [[1], [2]] ∧
        ∃ s', s'.data = (Dict.eraseAll (s.data.erase [3]) [[1], [2]]).insert [3] ⟨[8, 8], 1, 9⟩ ∧
          ∃ kv err, x.1.setWithExpiry (fun _ => Eviction.byKey) [3] [8, 8] 9 1 = some (kv, err) ∧
            kv.shards[0]? = some s' := by
  obtain ⟨⟨kv, rs⟩, hrun, s, hs, hkey, hpos, hname, hvictims⟩ :
      ∃ x ∈ fourBytes.run [.setWithExpiry (fun _ => Eviction.byKey) [1] [9] 5 0,
          .setWithExpiry (fun _ => Eviction.byKey) [2] [9] 5 0],
        ∃ s ∈ x.1.shards[0]?, x.1.getShard [3] = some 0 ∧ 0 < s.budget ∧
          s.policy.name ≠ .noevict ∧
          s.victims (fun _ => Eviction.byKey) [3] [8, 8] = [[1], [2]] := by
    decide +kernel
  obtain ⟨s', err, hset, -, hevicts⟩ := setWithExpiry_makes_room
    (newKVStore_fourBytes fun _ => Eviction.byKey) hrun hkey hs hpos (fun _ => Eviction.byKey)
    [8, 8] 9 1
  obtain ⟨-, hdata, -⟩ := hevicts hname
  refine ⟨(kv, rs), hrun, s, hs, hvictims, s', hvictims ▸ hdata, _, err, hset, ?_⟩
  exact List.getElem?_set_self (List.getElem?_eq_some_iff.1 hs).1

end Open

end Store
end Keva
