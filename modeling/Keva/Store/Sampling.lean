/-
# What the relaxed policy spares

`SamplingEvict` (`storage/eviction/sampling_evict_policy.go`) looks at no more than five
keys in whatever order the map is ranged over, and evicts the one of them that expires
first.  So it may well evict a key that expires after most of the others; this file says
how far off it can be.

Whatever the order, each victim is outlived: of the keys that are left at that moment at
least four others, or all others where there are fewer, expire no earlier than it does
(`Outlived`).  Five keys or fewer are therefore evicted strictly by their expiry, and a
key that expires after all the others goes last of all (`set_evicts_outlived`).
-/

import Keva.Store.MakingRoom

namespace Keva
namespace Eviction

variable {data : Dict Key Store.Record} {sample : List Key} {victim : Key} {e : Time}

/-- A key of the sample, and no key of the sample expires before it. -/
structure Soonest (data : Dict Key Store.Record) (sample : List Key) (victim : Key) (e : Time) :
    Prop where
  mem : victim ∈ sample
  expires : ∃ rec, data.lookup victim = some rec ∧ rec.expiredAt = e
  le : ∀ k ∈ sample, ∀ rec, data.lookup k = some rec → e ≤ rec.expiredAt

/-- One more key of the sample. -/
theorem Soonest.sooner (h : Soonest data sample victim e) (key : Key) :
    ∃ victim' e', sooner data (some (victim, e)) key = some (victim', e') ∧
      Soonest data (sample ++ [key]) victim' e' := by
  have hsample : ∀ k ∈ sample ++ [key], k ∈ sample ∨ k = key := by simp
  unfold Eviction.sooner
  cases hkey : data.lookup key with
  | none =>
    refine ⟨victim, e, rfl, List.mem_append_left _ h.mem, h.expires, fun k hk rec hrec => ?_⟩
    rcases hsample k hk with hk | rfl
    · exact h.le k hk rec hrec
    · cases hkey.symm.trans hrec
  | some rec =>
    dsimp only
    split_ifs with hlt
    · refine ⟨key, rec.expiredAt, rfl, by simp, ⟨rec, hkey, rfl⟩, fun k hk rec' hrec' => ?_⟩
      rcases hsample k hk with hk | rfl
      · exact hlt.le.trans (h.le k hk rec' hrec')
      · rw [Option.some.inj (hkey.symm.trans hrec')]
    · refine ⟨victim, e, rfl, List.mem_append_left _ h.mem, h.expires, fun k hk rec' hrec' => ?_⟩
      rcases hsample k hk with hk | rfl
      · exact h.le k hk rec' hrec'
      · rw [← Option.some.inj (hkey.symm.trans hrec')]
        exact not_lt.1 hlt

/-- The rest of the sample. -/
theorem Soonest.foldl (h : Soonest data sample victim e) (rest : List Key) :
    ∃ victim' e', rest.foldl (Eviction.sooner data) (some (victim, e)) = some (victim', e') ∧
      Soonest data (sample ++ rest) victim' e' := by
  induction rest generalizing sample victim e with
  | nil => exact ⟨victim, e, rfl, by rwa [List.append_nil]⟩
  | cons key rest ih =>
    obtain ⟨victim₁, e₁, hsooner, h₁⟩ := h.sooner key
    rw [List.foldl_cons, hsooner, List.append_cons]
    exact ih h₁

/-- **The key that is found expires first of the sample.**  By induction on the sample, with the
best key so far. -/
theorem soonest_spec (hsample : ∀ k ∈ sample, k ∈ data)
    (h : soonest data sample = some (victim, e)) : Soonest data sample victim e := by
  cases sample with
  | nil => cases h
  | cons key rest =>
    obtain ⟨rec, hrec⟩ := Finmap.mem_iff.1 (hsample key List.mem_cons_self)
    have hfirst : sooner data none key = some (key, rec.expiredAt) := by
      unfold sooner
      rw [hrec]
    have hone : Soonest data [key] key rec.expiredAt := by
      refine ⟨List.mem_cons_self, ⟨rec, hrec, rfl⟩, fun k hk rec' hrec' => ?_⟩
      obtain rfl := List.mem_singleton.1 hk
      rw [Option.some.inj (hrec.symm.trans hrec')]
    obtain ⟨victim', e', hfold, hspec⟩ := hone.foldl rest
    rw [soonest_eq, List.foldl_cons, hfirst, hfold] at h
    obtain ⟨rfl, rfl⟩ := Prod.mk.inj (Option.some.inj h)
    exact hspec

/-- Besides the victim at least four keys, or all there are, expire no earlier. -/
def Outlived (data : Dict Key Store.Record) (victim : Key) : Prop :=
  ∃ rec, data.lookup victim = some rec ∧ ∃ longer : Finset Key,
    longer ⊆ data.keys.erase victim ∧ min (sampleN - 1) (data.keys.card - 1) ≤ longer.card ∧
      ∀ k ∈ longer, ∀ rec', data.lookup k = some rec' → rec.expiredAt ≤ rec'.expiredAt

/-- **One round of the loop** of `SamplingEvict`: the sample has five keys, or all there are, and
none of them expires before the victim. -/
theorem outlived_of_soonest (range : Range)
    (h : soonest data ((range.keys data).take sampleN) = some (victim, e)) :
    Outlived data victim := by
  have hspec := soonest_spec
    (fun k hk => range.mem_keys.1 (List.mem_of_mem_take hk)) h
  obtain ⟨rec, hrec, rfl⟩ := hspec.expires
  have hnodup : ((range.keys data).take sampleN).Nodup :=
    (range.nodup data).sublist (List.take_sublist ..)
  have hkeys : (range.keys data).toFinset = data.keys := by
    ext k
    rw [List.mem_toFinset, range.mem_keys, Finmap.mem_keys]
  have hlength : (range.keys data).length = data.keys.card := by
    rw [← hkeys, List.toFinset_card_of_nodup (range.nodup data)]
  refine ⟨rec, hrec, ((range.keys data).take sampleN).toFinset.erase victim,
    Finset.erase_subset_erase _ ?_, ?_, fun k hk rec' hrec' => ?_⟩
  · rw [← hkeys]
    exact fun k hk => List.mem_toFinset.2 (List.mem_of_mem_take (List.mem_toFinset.1 hk))
  · rw [Finset.card_erase_of_mem (List.mem_toFinset.2 hspec.mem),
      List.toFinset_card_of_nodup hnodup, List.length_take, hlength]
    omega
  · exact hspec.le k (List.mem_toFinset.1 (Finset.mem_of_mem_erase hk)) rec' hrec'

/-- **All rounds:** each victim is outlived when its turn comes, in the shard that the evictions
before it have left. -/
theorem sampleVictims_outlived (ranges : ℕ → Range) (needed : ℤ) {fuel : ℕ} {s : Shard}
    {before after : List Key} (h : sampleVictims ranges needed fuel s = before ++ victim :: after) :
    Outlived (s.evictAll before).data victim := by
  induction fuel generalizing s before with
  | zero => simp [sampleVictims] at h
  | succ fuel ih =>
    rw [sampleVictims] at h
    split_ifs at h
    · cases hsoonest : soonest s.data (((ranges fuel).keys s.data).take sampleN) with
      | none =>
        rw [hsoonest] at h
        exact ih h
      | some x =>
        obtain ⟨first, e⟩ := x
        rw [hsoonest] at h
        cases before with
        | nil =>
          obtain ⟨rfl, -⟩ := List.cons.inj h
          exact outlived_of_soonest (ranges fuel) hsoonest
        | cons key before =>
          obtain ⟨rfl, hrest⟩ := List.cons.inj h
          exact ih (s := s.evict first) hrest
    · simp at h

/-- A key that expires after all the others is only outlived when it is alone. -/
theorem Outlived.keys_eq (h : Outlived data victim) {rec : Store.Record}
    (hrec : data.lookup victim = some rec)
    (hlast : ∀ k rec', k ≠ victim → data.lookup k = some rec' → rec'.expiredAt < rec.expiredAt) :
    data.keys = {victim} := by
  obtain ⟨rec', hrec', longer, hsub, hcard, hle⟩ := h
  obtain rfl := Option.some.inj (hrec.symm.trans hrec')
  have hmem : victim ∈ data.keys := Finmap.mem_keys.2 (Finmap.mem_of_lookup_eq_some hrec)
  have hempty : longer = ∅ := by
    refine Finset.eq_empty_of_forall_notMem fun k hk => ?_
    obtain ⟨hne, hk'⟩ := Finset.mem_erase.1 (hsub hk)
    obtain ⟨rec₁, hrec₁⟩ := Finmap.mem_iff.1 (Finmap.mem_keys.1 hk')
    exact absurd (hlast k rec₁ hne hrec₁) (not_lt.2 (hle k hk rec₁ hrec₁))
  rw [hempty, Finset.card_empty, sampleN] at hcard
  have hone : data.keys.card = 1 := by
    have hpos := Finset.card_pos.2 ⟨victim, hmem⟩
    omega
  obtain ⟨k, hk⟩ := Finset.card_eq_one.1 hone
  rw [hk, Finset.mem_singleton] at hmem
  rw [hk, hmem]

end Eviction

namespace Store

open Eviction (Range Outlived)

variable {ranges : ℕ → Range} {file : Option Bytes} {walOpts : Wal.Options} {opts : Options}
  {t₀ : Time} {kv₀ kv : KVStore} {ops : List Op} {rs : List Reply}

/-- The victims of a set under the relaxed policy.  Each is outlived among the entries that the
set and the evictions before it have left. -/
theorem Shard.victims_outlived {s : Shard} (hname : s.policy.name = .relaxed) {ranges : ℕ → Range}
    {key victim : Key} {value : Bytes} {before after : List Key}
    (h : s.victims ranges key value = before ++ victim :: after) :
    Outlived (Dict.eraseAll (s.data.erase key) before) victim := by
  have hpolicy : s.policy = .samplingEvict := by
    cases hp : s.policy with
    | samplingEvict => rfl
    | noEvict | lruEvict =>
      rw [hp] at hname
      cases hname
  rw [victims, hpolicy, Eviction.Policy.victims] at h
  split_ifs at h
  · simp at h
  · have houtlived := Eviction.sampleVictims_outlived ranges _ h
    rwa [Eviction.Shard.data_evictAll, Eviction.Shard.data_evict] at houtlived

/-- **Who lives longest goes last.**  A set goes to a shard of a store, in any state it
reaches, under the relaxed policy and with a budget.  It is accepted, whatever order the
maps are ranged over in, and each of its victims is outlived by at least four of the keys
that were left when it was evicted, or by all of them.  A victim that expired after all of
these was the only one left. -/
theorem set_evicts_outlived (hnew : newKVStore ranges file walOpts opts t₀ = some (.ok kv₀))
    (hrun : kv₀.run ops = some (kv, rs)) {key : Key} {i : ℕ} {s : Shard}
    (hkey : kv.getShard key = some i) (hs : kv.shards[i]? = some s) (hpos : 0 < s.budget)
    (hname : s.policy.name = .relaxed) (ranges' : ℕ → Range) (value : Bytes)
    (expiredAt now : Time) :
    ∃ s', kv.setWithExpiry ranges' key value expiredAt now =
          some ((kv.append (.ofSet key value expiredAt)).setShard i s', none) ∧
        s'.data = (Dict.eraseAll (s.data.erase key) (s.victims ranges' key value)).insert key
          ⟨value, now, expiredAt⟩ ∧
        ∀ before victim after, s.victims ranges' key value = before ++ victim :: after →
          Outlived (Dict.eraseAll (s.data.erase key) before) victim ∧
            ∀ rec, (Dict.eraseAll (s.data.erase key) before).lookup victim = some rec →
              (∀ k rec', k ≠ victim →
                (Dict.eraseAll (s.data.erase key) before).lookup k = some rec' →
                  rec'.expiredAt < rec.expiredAt) →
                (Dict.eraseAll (s.data.erase key) before).keys = {victim} := by
  obtain ⟨-, -, -, ⟨b, hb, -⟩, -⟩ := newKVStore_eq_ok hnew
  obtain ⟨-, hsound⟩ := sound_newKVStore hb hnew
  have h : s.Sound := (hsound.run hrun).1.sound s (List.mem_of_getElem? hs)
  obtain ⟨s', err, hset, -⟩ := s.setWithExpiry_spec h ranges' key value expiredAt now
  have hne : s.policy.name ≠ .noevict := by
    rw [hname]
    exact Eviction.PolicyName.noConfusion
  obtain ⟨rfl, hdata, -⟩ := Shard.setWithExpiry_of_evicts h hpos hne hset
  refine ⟨s', ?_, hdata, fun before victim after hvictims => ?_⟩
  · have hkey' : (kv.append (.ofSet key value expiredAt)).getShard key = some i := hkey
    have hs' : (kv.append (.ofSet key value expiredAt)).shards[i]? = some s := hs
    simp [KVStore.setWithExpiry_eq_applySet, KVStore.applySet, hkey', hs', hset]
  · have houtlived := Shard.victims_outlived hname hvictims
    exact ⟨houtlived, fun rec hrec hlast => houtlived.keys_eq hrec hlast⟩

/-- One shard with room for six bytes under `SamplingEvict`, on an empty log. -/
def sixBytes : KVStore := emptyStore 6 ⟨.always, 0, 0⟩ none ⟨1, 0, 6, some .relaxed⟩

/-- It is what `NewKVStore` makes of no log with a budget of six bytes and the policy `relaxed`. -/
theorem newKVStore_sixBytes (ranges : ℕ → Range) :
    newKVStore ranges none ⟨.always, 0, 0⟩ ⟨1, 0, 6, some .relaxed⟩ 0 = some (.ok sixBytes) :=
  newKVStore_empty (by simp [shardBudget]) ranges _ 0

/-- Three keys fill the shard. -/
def threeKeys : List Op :=
  [.setWithExpiry (fun _ => Eviction.inKeyOrder) [1] [7] 9 0,
    .setWithExpiry (fun _ => Eviction.inKeyOrder) [2] [7] 5 0,
    .setWithExpiry (fun _ => Eviction.inKeyOrder) [3] [7] 7 0]

/-- A longer entry takes the place of the two that expire first. -/
theorem set_evicts_outlived_threeKeys :
    ∃ x ∈ sixBytes.run threeKeys, ∃ s ∈ x.1.shards[0]?,
      s.victims (fun _ => Eviction.inKeyOrder) [4] [8, 8] = [[2], [3]] ∧
        Outlived (s.data.erase [4]) [2] ∧
        Outlived (Dict.eraseAll (s.data.erase [4]) [[2]]) [3] := by
  obtain ⟨⟨kv, rs⟩, hrun, s, hs, hkey, hpos, hname, hvictims⟩ :
      ∃ x ∈ sixBytes.run threeKeys, ∃ s ∈ x.1.shards[0]?, x.1.getShard [4] = some 0 ∧
        0 < s.budget ∧ s.policy.name = .relaxed ∧
        s.victims (fun _ => Eviction.inKeyOrder) [4] [8, 8] = [[2], [3]] := by
    decide +kernel
  obtain ⟨-, -, -, hall⟩ := set_evicts_outlived
    (newKVStore_sixBytes fun _ => Eviction.inKeyOrder) hrun hkey hs hpos hname
    (fun _ => Eviction.inKeyOrder) [8, 8] 9 1
  exact ⟨(kv, rs), hrun, s, hs, hvictims, (hall [] [2] [[3]] hvictims).1,
    (hall [[2]] [3] [] hvictims).1⟩

end Store
end Keva
