/-
# Exactly the least recently used

`LRUEvict` (`storage/eviction/lru_evict_policy.go`) on a shard that is used by one call after
the other: `SetWithExpiry`, `Get`, `Delete` (`storage/store/kv_store.go`) and sweeps
(`storage/store/kv_store_util.go`).  A set touches its key, and so does a get that returns a
value; `Touched` keeps the time of the last touch beside the shard.

On a shard that starts empty the list always has the keys in the order of their last touches,
and a set evicts those touched least recently, as many of them as it has to
(`evicts_least_recent`).
-/

import Keva.Lib.Reach
import Keva.Lib.Recency
import Keva.Store.MakingRoom

namespace Keva
namespace Store

open Eviction (Range Policy PolicyName LRUEvict entrySize)
open Eviction.Shard (data_evict budget_evict budget_evictAll)

namespace Shard

/-- `Get` on the shard of its key. -/
def get (s : Shard) (key : Key) (now : Time) : Shard × Except Err Bytes :=
  match s.data.lookup key with
  | none => (s, .error .keyNotFound)
  | some rec =>
    if rec.expiredAt < now then (s, .error .keyNotFound)
    else ({ s with policy := s.policy.afterRead key }, .ok rec.value)

/-- The new entry fits beside the others once the keys in `gone` have been taken out. -/
def FitsWithout (s : Shard) (key : Key) (value : Bytes) (gone : List Key) : Prop :=
  Dict.weight entrySize (Dict.eraseAll (s.data.erase key) gone) + (key.length + value.length) ≤
    s.budget

end Shard

/-- `Get` is the get on its shard. -/
theorem KVStore.get_eq {kv : KVStore} {key : Key} {i : ℕ} {s : Shard}
    (hkey : kv.getShard key = some i) (hs : kv.shards[i]? = some s) (now : Time) :
    kv.get key now = some (kv.setShard i (s.get key now).1, (s.get key now).2) := by
  have hself : kv.setShard i s = kv := by
    obtain ⟨hlt, rfl⟩ := List.getElem?_eq_some_iff.1 hs
    unfold setShard
    congr 1
    exact List.set_getElem_self hlt
  simp only [get, hkey, hs, bind, Option.bind_some, Shard.get]
  cases s.data.lookup key with
  | none => rw [hself]; rfl
  | some rec =>
    dsimp only
    split_ifs
    · rw [hself]; rfl
    · rfl

/-! ### A set under the strict policy -/

namespace Shard

variable {s : Shard} {p : LRUEvict}

/-- **A set evicts from the back of the list,** and no further than it has to: what it keeps and
what it evicts, the last one first, are the list without the key. -/
theorem setWithExpiry_lru (h : s.Sound) (hpos : 0 < s.budget) (hp : s.policy = .lruEvict p)
    (ranges : ℕ → Range) (key : Key) (value : Bytes) (expiredAt now : Time) :
    ∃ s' p' kept victims, s.setWithExpiry ranges key value expiredAt now = some (s', none) ∧
      s'.policy = .lruEvict p' ∧ p'.keys = key :: kept ∧
      kept ++ victims.reverse = p.keys.filter (· ≠ key) ∧
      s'.data = (Dict.eraseAll (s.data.erase key) victims).insert key ⟨value, now, expiredAt⟩ ∧
      (∀ m < victims.length, ¬s.FitsWithout key value (victims.take m)) ∧
      (s.FitsWithout key value victims ∨ kept = []) := by
  obtain ⟨hlinked, hkeys⟩ := h.lru hp
  have hne : (s.toShard.evict key).budget ≠ 0 := by
    rw [budget_evict]
    exact hpos.ne'
  have hforget : ∀ k, k ∈ (p.forget key).keys ↔ k ∈ (s.toShard.evict key).data := by
    intro k
    rw [LRUEvict.mem_keys_forget hlinked, hkeys, data_evict, Finmap.mem_erase, and_comm]
  obtain ⟨p', view, hloop, -, htracks', hview, hkept, -, hroom⟩ := LRUEvict.evictLoop_spec
    (hlinked.forget key) hforget (key.length + value.length) le_rfl
  have hset : s.setWithExpiry ranges key value expiredAt now =
      some (⟨{ view with data := view.data.insert key ⟨value, now, expiredAt⟩,
                         bytes := view.bytes + (key.length + value.length) },
        .lruEvict (p'.afterWrite key)⟩, none) := by
    rw [setWithExpiry, hp, Policy.beforeWrite]
    dsimp only
    rw [if_neg hne, hloop]
    rfl
  set victims := (p.forget key).victims (key.length + value.length) (p.forget key).order.length
    (s.toShard.evict key)
  have hvictims : s.victims ranges key value = victims := by
    rw [Shard.victims, hp, Policy.victims, if_neg hne]
  have hname : s.policy.name ≠ .noevict := by
    rw [hp]
    intro heq
    cases heq
  obtain ⟨-, hdata, -, hforced⟩ := setWithExpiry_of_evicts h hpos hname hset
  rw [hvictims] at hdata hforced
  refine ⟨_, _, p'.keys, victims, hset, rfl, rfl, ?_, hdata, fun m hm => ?_, ?_⟩
  · rw [hkept, LRUEvict.keys_forget hlinked]
  · have hsplit : victims = victims.take m ++ victims[m] :: victims.drop (m + 1) := by
      rw [List.cons_getElem_drop_succ, List.take_append_drop]
    exact not_le.2 (hforced _ _ _ hsplit).2
  · rcases hroom with hroom | hempty
    · rw [hview, h.bytes_evictAll, budget_evictAll, budget_evict] at hroom
      exact Or.inl hroom
    · refine Or.inr (List.eq_nil_iff_forall_not_mem.2 fun k hk => ?_)
      rw [htracks', hempty] at hk
      exact absurd hk Finmap.notMem_empty

/-- A key that is dropped leaves the others in their order. -/
theorem exists_sublist_afterDelete (h : s.Sound) (hp : s.policy = .lruEvict p) (key : Key) :
    ∃ p', s.policy.afterDelete key = .lruEvict p' ∧ p'.keys.Sublist p.keys := by
  refine ⟨p.forget key, by rw [hp]; rfl, ?_⟩
  rw [LRUEvict.keys_forget (h.lru hp).1]
  exact List.filter_sublist

/-- A delete takes one key off the list and keeps the order of the others. -/
theorem exists_sublist_delete (h : s.Sound) (hp : s.policy = .lruEvict p) (key : Key) :
    ∃ p', (s.delete key).1.policy = .lruEvict p' ∧ p'.keys.Sublist p.keys := by
  unfold delete
  split
  · exact ⟨p, hp, .refl _⟩
  · exact exists_sublist_afterDelete h hp key

/-- So does a sweep, or it takes off nothing. -/
theorem exists_sublist_sweepKey (h : s.Sound) (hp : s.policy = .lruEvict p) (now : Time) (key : Key) :
    ∃ p', (s.sweepKey now key).policy = .lruEvict p' ∧ p'.keys.Sublist p.keys := by
  unfold sweepKey
  split
  · exact ⟨p, hp, .refl _⟩
  · split_ifs
    · exact exists_sublist_afterDelete h hp key
    · exact ⟨p, hp, .refl _⟩

/-- **A sweep** drops keys and moves none, so that those that are left keep their order. -/
theorem exists_sublist_sweep (h : s.Sound) (hp : s.policy = .lruEvict p) (range : Range) (now : Time) :
    ∃ p', (s.sweep range now).policy = .lruEvict p' ∧ p'.keys.Sublist p.keys := by
  unfold sweep
  generalize range.keys s.data = ks
  induction ks generalizing s p with
  | nil => exact ⟨p, hp, .refl _⟩
  | cons k ks ih =>
    obtain ⟨p₁, hp₁, hsub₁⟩ := exists_sublist_sweepKey h hp now k
    obtain ⟨p', hp', hsub⟩ := ih (h.sweepKey now k).1 hp₁
    exact ⟨p', hp', hsub.trans hsub₁⟩

end Shard

/-! ### One call after the other -/

/-- A shard, and the times at which its keys were touched last.  The times are a ledger, which no
step reads. -/
structure Touched where
  shard : Shard
  touches : Touches Key

namespace Touched

/-- The calls on one shard, each with the order in which it iterates and its reading of the
clock. -/
inductive Call
  | set (ranges : ℕ → Range) (key : Key) (value : Bytes) (expiredAt now : Time)
  | get (key : Key) (now : Time)
  | delete (key : Key)
  | sweep (range : Range) (now : Time)

/-- One call; a set touches its key, and a get does if it returns a value. -/
def step (l : Touched) : Call → Option Touched
  | .set ranges key value expiredAt now =>
    (l.shard.setWithExpiry ranges key value expiredAt now).map fun (s, _) =>
      ⟨s, l.touches.touch key⟩
  | .get key now =>
    match l.shard.get key now with
    | (s, .ok _) => some ⟨s, l.touches.touch key⟩
    | (s, .error _) => some ⟨s, l.touches.skip⟩
  | .delete key => some ⟨(l.shard.delete key).1, l.touches.skip⟩
  | .sweep range now => some ⟨l.shard.sweep range now, l.touches.skip⟩

/-- The other keys of the shard, the one touched least recently first: the order in which they
are to be evicted. -/
def LeastRecent (l : Touched) (key : Key) (others : List Key) : Prop :=
  (others.Pairwise fun a b => l.touches.last a < l.touches.last b) ∧
    ∀ k, k ∈ others ↔ k ∈ l.shard.data ∧ k ≠ key

/-- What is kept: the books are right, and the list is in the order of the last touches. -/
structure Recent (l : Touched) : Prop where
  sound : l.shard.Sound
  pos : 0 < l.shard.budget
  order : ∃ p, l.shard.policy = .lruEvict p ∧ l.touches.ByRecency p.keys

variable {l l' : Touched}

/-- **A set** puts its key in front, where it belongs, being the one touched last. -/
theorem Recent.set (h : l.Recent) {ranges : ℕ → Range} {key : Key} {value : Bytes}
    {expiredAt now : Time} {s' : Shard} {err : Option Err}
    (hset : l.shard.setWithExpiry ranges key value expiredAt now = some (s', err)) :
    Recent ⟨s', l.touches.touch key⟩ := by
  obtain ⟨p, hp, horder⟩ := h.order
  obtain ⟨s₁, p', kept, victims, hset₁, hp', hkeys, hkept, -⟩ :=
    Shard.setWithExpiry_lru h.sound h.pos hp ranges key value expiredAt now
  obtain ⟨s₂, err₂, hset₂, hwrote⟩ :=
    l.shard.setWithExpiry_spec h.sound ranges key value expiredAt now
  obtain ⟨rfl, -⟩ := Prod.mk.inj (Option.some.inj (hset₁.symm.trans hset))
  obtain ⟨rfl, -⟩ := Prod.mk.inj (Option.some.inj (hset₂.symm.trans hset))
  refine ⟨hwrote.sound, hwrote.budget_eq ▸ h.pos, p', hp', ?_⟩
  have hsub : kept.Sublist (p.keys.filter (· ≠ key)) := hkept ▸ List.sublist_append_left _ _
  have hnew : key ∉ kept := by
    intro hmem
    exact of_decide_eq_true (List.mem_filter.1 (hsub.subset hmem)).2 rfl
  rw [hkeys]
  exact (horder.sublist (hsub.trans List.filter_sublist)).touch hnew

/-- **A get** that returns a value puts its key in front; one that does not changes nothing. -/
theorem Recent.get (h : l.Recent) (key : Key) (now : Time) :
    (∀ s' value, l.shard.get key now = (s', .ok value) → Recent ⟨s', l.touches.touch key⟩) ∧
      ∀ s' err, l.shard.get key now = (s', .error err) → s' = l.shard := by
  unfold Shard.get
  cases hrec : l.shard.data.lookup key with
  | none =>
    constructor
    · intro s' value heq
      cases heq
    · intro s' err heq
      exact (Prod.mk.inj heq).1.symm
  | some rec =>
    dsimp only
    split_ifs
    · constructor
      · intro s' value heq
        cases heq
      · intro s' err heq
        exact (Prod.mk.inj heq).1.symm
    · constructor
      · intro s' value heq
        obtain ⟨rfl, -⟩ := Prod.mk.inj heq
        obtain ⟨p, hp, horder⟩ := h.order
        obtain ⟨hlinked, hkeys⟩ := h.sound.lru hp
        refine ⟨(h.sound.afterRead key).1, h.pos, p.afterRead key, by rw [hp]; rfl, ?_⟩
        rw [LRUEvict.keys_afterRead hlinked ((hkeys key).2 (Finmap.mem_of_lookup_eq_some hrec))]
        refine (horder.sublist List.filter_sublist).touch fun hmem => ?_
        exact of_decide_eq_true (List.mem_filter.1 hmem).2 rfl
      · intro s' err heq
        cases heq

/-- **Every call keeps the order:** sets and reads move their key to the front, deletes and
sweeps only take keys off. -/
theorem Recent.step (h : l.Recent) {c : Call} (hs : l.step c = some l') : l'.Recent := by
  cases c with
  | set ranges key value expiredAt now =>
    obtain ⟨⟨s', err⟩, hset, rfl⟩ := Option.map_eq_some_iff.1 hs
    exact h.set hset
  | get key now =>
    obtain ⟨hfound, hmissed⟩ := h.get key now
    simp only [Touched.step] at hs
    split at hs
    · rename_i s' value heq
      exact Option.some.inj hs ▸ hfound s' value heq
    · rename_i s' err heq
      obtain rfl := hmissed s' err heq
      exact Option.some.inj hs ▸ ⟨h.sound, h.pos, h.order⟩
  | delete key =>
    obtain rfl := Option.some.inj hs
    obtain ⟨p, hp, horder⟩ := h.order
    obtain ⟨p', hp', hsub⟩ := Shard.exists_sublist_delete h.sound hp key
    exact ⟨(h.sound.delete key).1, (Shard.content_delete l.shard key).1 ▸ h.pos, p', hp',
      horder.sublist hsub⟩
  | sweep range now =>
    obtain rfl := Option.some.inj hs
    obtain ⟨p, hp, horder⟩ := h.order
    obtain ⟨p', hp', hsub⟩ := Shard.exists_sublist_sweep h.sound hp range now
    exact ⟨(h.sound.sweep range now).1, (Shard.content_sweep range now l.shard).1 ▸ h.pos, p', hp',
      horder.sublist hsub⟩

/-- **And so does every run,** by `Reach.invariant`. -/
theorem Recent.run (h : l.Recent) (hrun : Reach Touched.step (fun _ _ => True) l l') : l'.Recent :=
  hrun.invariant h fun _ _ _ hrecent _ hs => hrecent.step hs

/-- The list has the keys of the shard. -/
theorem Recent.listed (h : l.Recent) :
    ∃ p, l.shard.policy = .lruEvict p ∧ l.touches.ByRecency p.keys ∧
      ∀ k, k ∈ p.keys ↔ k ∈ l.shard.data := by
  obtain ⟨p, hp, horder⟩ := h.order
  exact ⟨p, hp, horder, (h.sound.lru hp).2⟩

/-- **What a set evicts:** the keys touched least recently, one after the other, as many as it
takes for the new entry to fit and not one more. -/
theorem Recent.evicts (h : l.Recent) (ranges : ℕ → Range) (key : Key) (value : Bytes)
    (expiredAt now : Time) :
    ∃ s' others n, l.shard.setWithExpiry ranges key value expiredAt now = some (s', none) ∧
      l.LeastRecent key others ∧ n ≤ others.length ∧
      s'.data = (Dict.eraseAll (l.shard.data.erase key) (others.take n)).insert key
        ⟨value, now, expiredAt⟩ ∧
      (∀ m < n, ¬l.shard.FitsWithout key value (others.take m)) ∧
      (l.shard.FitsWithout key value (others.take n) ∨ n = others.length) := by
  obtain ⟨p, hp, horder, hkeys⟩ := h.listed
  obtain ⟨s', p', kept, victims, hset, -, -, hkept, hdata, hforced, hroom⟩ :=
    Shard.setWithExpiry_lru h.sound h.pos hp ranges key value expiredAt now
  have hothers : (p.keys.filter (· ≠ key)).reverse = victims ++ kept.reverse := by
    rw [← hkept, List.reverse_append, List.reverse_reverse]
  have htake : (victims ++ kept.reverse).take victims.length = victims := List.take_left
  refine ⟨s', victims ++ kept.reverse, victims.length, hset, ⟨?_, fun k => ?_⟩, ?_, ?_, ?_, ?_⟩
  · rw [← hothers, List.pairwise_reverse]
    exact horder.sublist List.filter_sublist
  · rw [← hothers, List.mem_reverse, List.mem_filter, hkeys, decide_eq_true_eq]
  · rw [List.length_append]
    omega
  · rw [htake, hdata]
  · intro m hm
    rw [List.take_append_of_le_length hm.le]
    exact hforced m hm
  · rw [htake]
    refine hroom.imp_right fun hnil => ?_
    rw [hnil, List.reverse_nil, List.append_nil]

end Touched

section Open

variable {ranges : ℕ → Range} {file : Option Bytes} {walOpts : Wal.Options} {opts : Options}
  {t₀ : Time} {kv₀ : KVStore} {s₀ : Shard} {l : Touched}

/-- A shard that starts empty has an empty list, which is in any order, and nothing in it has
been touched. -/
theorem recent_newKVStore (hnew : newKVStore ranges file walOpts opts t₀ = some (.ok kv₀))
    (hpolicy : opts.newEviction = some .strict) (hs₀ : s₀ ∈ kv₀.shards) (hempty : s₀.data = ∅)
    (hpos : 0 < s₀.budget) : Touched.Recent ⟨s₀, .none⟩ := by
  obtain ⟨-, -, -, ⟨b, hb, -⟩, -⟩ := newKVStore_eq_ok hnew
  obtain ⟨-, hsound⟩ := sound_newKVStore hb hnew
  have h := hsound.sound s₀ hs₀
  have hname : s₀.policy.name = .strict := by
    rw [hsound.name_eq s₀ hs₀, hpolicy]
    rfl
  obtain ⟨p, hp⟩ := Policy.exists_lruEvict hname
  have hnil : p.keys = [] := by
    refine List.eq_nil_iff_forall_not_mem.2 fun k hk => ?_
    rw [(h.lru hp).2, hempty] at hk
    exact absurd hk Finmap.notMem_empty
  refine ⟨h, hpos, p, hp, ?_⟩
  rw [hnil]
  exact List.Pairwise.nil

/-- **Strict eviction is exact LRU.**  Take a shard with a budget that is empty when the store
is opened with the strict policy, and any calls on it, one after the other.  The list has the
keys of the shard in the order of their last touches, the latest first.  A set evicts a first
part of the other keys, the one touched least recently first: with fewer of them gone the new
entry would not fit, and it fits, or they are all gone. -/
theorem evicts_least_recent (hnew : newKVStore ranges file walOpts opts t₀ = some (.ok kv₀))
    (hpolicy : opts.newEviction = some .strict) (hs₀ : s₀ ∈ kv₀.shards) (hempty : s₀.data = ∅)
    (hpos : 0 < s₀.budget) (hrun : Reach Touched.step (fun _ _ => True) ⟨s₀, .none⟩ l) :
    (∃ p, l.shard.policy = .lruEvict p ∧
      (p.keys.Pairwise fun a b => l.touches.last b < l.touches.last a) ∧
      ∀ k, k ∈ p.keys ↔ k ∈ l.shard.data) ∧
    ∀ (ranges : ℕ → Range) (key : Key) (value : Bytes) (expiredAt now : Time), ∃ s' others n,
      l.shard.setWithExpiry ranges key value expiredAt now = some (s', none) ∧
        l.LeastRecent key others ∧ n ≤ others.length ∧
        s'.data = (Dict.eraseAll (l.shard.data.erase key) (others.take n)).insert key
          ⟨value, now, expiredAt⟩ ∧
        (∀ k, k ∈ others.take n ↔ k ∈ l.shard.data ∧ k ∉ s'.data) ∧
        (∀ m < n, ¬l.shard.FitsWithout key value (others.take m)) ∧
        (l.shard.FitsWithout key value (others.take n) ∨ n = others.length) := by
  have h := (recent_newKVStore hnew hpolicy hs₀ hempty hpos).run hrun
  refine ⟨h.listed, fun ranges key value expiredAt now => ?_⟩
  obtain ⟨s', others, n, hset, hothers, hn, hdata, hforced, hroom⟩ :=
    h.evicts ranges key value expiredAt now
  refine ⟨s', others, n, hset, hothers, hn, hdata, fun k => ?_, hforced, hroom⟩
  have hmem : k ∈ others.take n → k ∈ l.shard.data ∧ k ≠ key := by
    intro hk
    exact (hothers.2 k).1 (List.mem_of_mem_take hk)
  rw [hdata, Finmap.mem_insert, Dict.mem_eraseAll, Finmap.mem_erase]
  tauto

/-- Two keys fill the shard, and the first one is read. -/
def readsTheFirst : List Touched.Call :=
  [.set (fun _ => Eviction.byKey) [1] [9] 5 0, .set (fun _ => Eviction.byKey) [2] [9] 5 0,
    .get [1] 1, .get [2] 6, .get [3] 1]

/-- Where the first key was read last and the second one only missed, it is the second one that
has to go. -/
theorem evicts_least_recent_readsTheFirst :
    ∃ l ∈ runAll Touched.step (fun _ _ => True) ⟨fourBytesShard, .none⟩ readsTheFirst,
      l.touches.last [1] = 3 ∧ l.touches.last [2] = 2 ∧
        (∃ x ∈ l.shard.setWithExpiry (fun _ => Eviction.byKey) [3] [8] 9 2,
          x.1.data.lookup [2] = none ∧ x.1.data.lookup [1] = some ⟨[9], 0, 5⟩) ∧
        ∃ s' others n,
          l.shard.setWithExpiry (fun _ => Eviction.byKey) [3] [8] 9 2 = some (s', none) ∧
            l.LeastRecent [3] others ∧ n ≤ others.length ∧
            s'.data = (Dict.eraseAll (l.shard.data.erase [3]) (others.take n)).insert [3]
              ⟨[8], 2, 9⟩ := by
  obtain ⟨l, hrun, hfirst, hsecond, hset⟩ :
      ∃ l ∈ runAll Touched.step (fun _ _ => True) ⟨fourBytesShard, .none⟩ readsTheFirst,
        l.touches.last [1] = 3 ∧ l.touches.last [2] = 2 ∧
          ∃ x ∈ l.shard.setWithExpiry (fun _ => Eviction.byKey) [3] [8] 9 2,
            x.1.data.lookup [2] = none ∧ x.1.data.lookup [1] = some ⟨[9], 0, 5⟩ := by
    decide +kernel
  have hmem : fourBytesShard ∈ fourBytes.shards := List.mem_cons_self
  obtain ⟨-, hevicts⟩ := evicts_least_recent (newKVStore_fourBytes fun _ => Eviction.byKey) rfl hmem
    rfl (by decide) (reach_of_runAll hrun)
  obtain ⟨s', others, n, hset', hothers, hn, hdata, -⟩ :=
    hevicts (fun _ => Eviction.byKey) [3] [8] 9 2
  exact ⟨l, hrun, hfirst, hsecond, hset, s', others, n, hset', hothers, hn, hdata⟩

end Open

end Store
end Keva
