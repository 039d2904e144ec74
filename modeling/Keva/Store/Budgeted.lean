/-
# A store with a budget

With a budget (`MaxMemoryBytes`) a shard makes room before it stores an entry
(`storage/store/kv_store.go`, `storage/eviction`).  Under `noevict` a set that finds no room is
refused; under the other policies it is not, and other entries go.

Calls that overlap in any way then keep to a specification all the same, one for each policy
(`budgeted_linearizable`).  Under `noevict` it is a map with deadlines in which a set may be
refused, and then changes nothing.  Under the other policies it is a cache: nothing is refused, and
an entry may be missing, but what is found is what was last written and has not expired.
-/

import Keva.Store.Accounts
import Keva.Store.Linear

namespace Keva
namespace Store

open Eviction (Range PolicyName)
open Expiry (Content Write visible)
open Linearizable (IsLinearizable)

/-! ### What a store with a budget is for -/

/-- **A map that is short of room.**  A set is refused under `noevict` only, and has no effect then;
an entry that is visible is missing under the other policies only. -/
def budgeted (n : PolicyName) : StoreSpec where
  next m req a :=
    match req, a with
    | .write _, .wrote (some .memoryFull) => m
    | .write c, _ => c.write.apply m
    | .get _, _ => m
  allows m req a t :=
    match req, a with
    | .write (.setWithExpiry ..), .wrote err => err = none ∨ err = some .memoryFull ∧ n = .noevict
    | .write (.delete key), .wrote err =>
      err = none ∧ m key ≠ none ∨
        err = some .keyNotFound ∧ (visible t (m key) = none ∨ n ≠ .noevict)
    | .get key, .read r =>
      r = KVStore.answer (visible t (m key)) ∨ r = .error .keyNotFound ∧ n ≠ .noevict
    | _, _ => False

/-- What is there is what should be there; what is missing has expired, or was evicted. -/
def ShortOf (n : PolicyName) (t : Time) (m m' : Content Key Bytes Time) : Prop :=
  ∀ k, m' k = m k ∨ m' k = none ∧ (visible t (m k) = none ∨ n ≠ .noevict)

variable {n : PolicyName} {t t' : Time} {m m' m'' : Content Key Bytes Time}

/-- Contents that fall short from some moment on do so from any later one on. -/
theorem ShortOf.mono (h : ShortOf n t m m') (ht : t ≤ t') : ShortOf n t' m m' := by
  intro k
  rcases h k with hk | ⟨hnone, hgone | hevicts⟩
  · exact Or.inl hk
  · refine Or.inr ⟨hnone, Or.inl ?_⟩
    rw [← Expiry.visible_visible ht, hgone, Expiry.visible_none]
  · exact Or.inr ⟨hnone, Or.inr hevicts⟩

/-- Entries that have expired go, or any under a policy that evicts. -/
theorem ShortOf.drop (h : ShortOf n t m m')
    (hdrop : ∀ k, m'' k = m' k ∨ m'' k = none ∧ (visible t (m' k) = none ∨ n ≠ .noevict)) :
    ShortOf n t m m'' := by
  intro k
  rcases hdrop k with hk | ⟨hnone, hwhy⟩
  · rw [hk]
    exact h k
  · refine Or.inr ⟨hnone, ?_⟩
    rcases h k with hk | ⟨-, hgone⟩
    · exact hk ▸ hwhy
    · exact hgone

/-- A write decides its own key on both sides, and leaves what is missing elsewhere missing. -/
theorem ShortOf.apply (h : ShortOf n t m m') (w : Write Key Bytes Time) :
    ShortOf n t (w.apply m) (w.apply m') := by
  intro k
  by_cases hk : k = w.key
  · subst hk
    exact Or.inl (by rw [Expiry.Write.apply_key, Expiry.Write.apply_key])
  · rw [Expiry.Write.apply_of_ne hk, Expiry.Write.apply_of_ne hk]
    exact h k

/-! ### The steps of a store with a budget -/

namespace KVStore

variable {kv kv' : KVStore} {b : ℤ} {key : Key} {i : ℕ} {s s' : Shard}

/-- One shard is replaced by another one whose books are right, with the same budget and a policy
of the same name. -/
theorem Sound.setShard (h : kv.Sound b n) (hs : kv.shards[i]? = some s) (hsound : s'.Sound)
    (hbudget : s'.budget = s.budget) (hname : s'.policy.name = s.policy.name) :
    (kv.setShard i s').Sound b n := by
  have hmem := List.mem_of_getElem? hs
  refine ⟨fun x hx => ?_, fun x hx => ?_, fun x hx => ?_⟩
  · rcases List.mem_or_eq_of_mem_set hx with hx | rfl
    · exact h.sound x hx
    · exact hsound
  · rcases List.mem_or_eq_of_mem_set hx with hx | rfl
    · exact h.budget_eq x hx
    · exact hbudget.trans (h.budget_eq s hmem)
  · rcases List.mem_or_eq_of_mem_set hx with hx | rfl
    · exact h.name_eq x hx
    · exact hname.trans (h.name_eq s hmem)

/-- **The critical section of a set,** under any policy and budget: it is refused under `noevict`
only and changes nothing then; otherwise the entry is there, and under a policy that evicts others
may be gone. -/
theorem applySet_spec (hreg : kv.Regular b) (h : kv.Sound b n) {ranges : ℕ → Range} {value : Bytes}
    {expiredAt now : Time} {err : Option Err}
    (hr : kv.applySet ranges key value expiredAt now = some (kv', err)) :
    kv'.Regular b ∧ kv'.Sound b n ∧
      (err = none ∧ (∀ k, kv'.content k = (Write.set key value expiredAt).apply kv.content k ∨
          kv'.content k = none ∧ n ≠ .noevict) ∨
        err = some .memoryFull ∧ n = .noevict ∧ kv'.content = kv.content) := by
  simp only [applySet, bind, Option.bind_eq_some_iff, pure, Option.some.injEq, Prod.exists] at hr
  obtain ⟨i, hk, s, hs, s₁, e, hset, hr⟩ := hr
  obtain ⟨rfl, rfl⟩ := Prod.mk.inj hr
  have hmem := List.mem_of_getElem? hs
  obtain ⟨s', err, hset', hwrote⟩ :=
    s.setWithExpiry_spec (h.sound s hmem) ranges key value expiredAt now
  obtain ⟨rfl, rfl⟩ := Prod.mk.inj (Option.some.inj (hset'.symm.trans hset))
  have hother : ∀ k, k ≠ key → s'.content k = s.content k ∨ s'.content k = none := hwrote.others
  have hregular : (kv.setShard i s').Regular b := by
    refine hreg.setShard_of_placed hs (hwrote.budget_eq.trans (hreg.budget_eq s hmem)) fun k hne => ?_
    by_cases hkey : k = key
    · exact hkey ▸ hk
    · rcases hother k hkey with heq | hnone
      · exact hreg.placed hs (heq ▸ hne)
      · exact absurd hnone hne
  refine ⟨hregular, h.setShard hs hwrote.sound hwrote.budget_eq hwrote.name_eq, ?_⟩
  by_cases hn : n = .noevict
  · -- Nothing is evicted, and what is refused leaves the shard as it was.
    have hpolicy : s.policy = .noEvict := by
      have hname := (h.name_eq s hmem).trans hn
      cases hp : s.policy with
      | noEvict => rfl
      | samplingEvict => rw [hp] at hname; cases hname
      | lruEvict p => rw [hp] at hname; cases hname
    obtain ⟨-, -, ⟨rfl, hc⟩ | ⟨rfl, rfl⟩⟩ := Shard.setWithExpiry_noEvict hpolicy hset
    · exact Or.inl ⟨rfl, fun k => Or.inl (congrFun (content_setShard hk hs hc) k)⟩
    · refine Or.inr ⟨rfl, hn, funext fun k => ?_⟩
      rw [content_setShard_eq hs]
      split_ifs with hki
      · exact (content_of_getShard hki hs).symm
      · rfl
  · obtain rfl : err = none := hwrote.accepted fun hname => hn ((h.name_eq s hmem).symm.trans hname)
    refine Or.inl ⟨rfl, fun k => ?_⟩
    rw [content_setShard_eq hs]
    by_cases hkey : k = key
    · rw [if_pos (hkey ▸ hk), hkey, hwrote.stored rfl]
      exact Or.inl (Expiry.Write.apply_key (.set key value expiredAt) kv.content).symm
    · rw [Expiry.Write.apply_of_ne (w := .set key value expiredAt) hkey]
      split_ifs with hki
      · rw [content_of_getShard hki hs]
        exact (hother k hkey).imp_right fun hnone => ⟨hnone, hn⟩
      · exact Or.inl rfl

/-- A delete keeps the books of its shard. -/
theorem Sound.applyDelete (h : kv.Sound b n) {err : Option Err}
    (hr : kv.applyDelete key = some (kv', err)) : kv'.Sound b n := by
  simp only [KVStore.applyDelete, bind, Option.bind_eq_some_iff, pure, Option.some.injEq] at hr
  obtain ⟨i, -, s, hs, hr⟩ := hr
  obtain ⟨rfl, -⟩ := Prod.mk.inj hr
  obtain ⟨hsound, hname⟩ := (h.sound s (List.mem_of_getElem? hs)).delete key
  exact h.setShard hs hsound (Shard.content_delete s key).1 hname

end KVStore

/-- The books are right, and the store has what it should have but for what has expired or was
evicted. -/
structure Keeps (b : ℤ) (n : PolicyName) (t : Time) (m : Content Key Bytes Time) (kv : KVStore) :
    Prop where
  regular : kv.Regular b
  sound : kv.Sound b n
  shortOf : ShortOf n t m kv.content

/-- **The steps of a store with a budget** keep to the specification of its policy. -/
theorem implements_budgeted (b : ℤ) (n : PolicyName) : Implements (budgeted n) (Keeps b n) where
  mono h ht := ⟨h.regular, h.sound, h.shortOf.mono ht⟩
  append r h := ⟨h.regular.withWal _, ⟨h.sound.sound, h.sound.budget_eq, h.sound.name_eq⟩, h.shortOf⟩
  apply {t m kv kv' err ranges c} h hkv := by
    cases c with
    | setWithExpiry key value expiredAt =>
      obtain ⟨hregular, hsound, ⟨rfl, hcontent⟩ | ⟨rfl, hn, hcontent⟩⟩ :=
        KVStore.applySet_spec h.regular h.sound hkv
      · refine ⟨Or.inl rfl, hregular, hsound, (h.shortOf.apply (.set key value expiredAt)).drop ?_⟩
        exact fun k => (hcontent k).imp_right fun hk => ⟨hk.1, Or.inr hk.2⟩
      · exact ⟨Or.inr ⟨rfl, hn⟩, hregular, hsound, hcontent ▸ h.shortOf⟩
    | delete key =>
      obtain ⟨herr, hregular, -, hcontent⟩ := KVStore.applyDelete_eq_some h.regular hkv
      have hsound := h.sound.applyDelete hkv
      split_ifs at herr with hnone
      · subst herr
        refine ⟨Or.inr ⟨rfl, ?_⟩, hregular, hsound, hcontent ▸ h.shortOf.apply (.del key)⟩
        rcases h.shortOf key with hk | ⟨-, hwhy⟩
        · rw [← hk, hnone]
          exact Or.inl rfl
        · exact hwhy
      · subst herr
        refine ⟨Or.inl ⟨rfl, ?_⟩, hregular, hsound, hcontent ▸ h.shortOf.apply (.del key)⟩
        rcases h.shortOf key with hk | ⟨hgone, -⟩
        · exact hk ▸ hnone
        · exact absurd hgone hnone
  get {t t' m kv} key h ht := by
    refine ⟨?_, rfl⟩
    show KVStore.answer (visible t' (kv.content key)) = KVStore.answer (visible t' (m key)) ∨
      KVStore.answer (visible t' (kv.content key)) = .error .keyNotFound ∧ n ≠ .noevict
    rcases h.shortOf.mono ht key with hk | ⟨hnone, hgone | hevicts⟩
    · rw [hk]
      exact Or.inl rfl
    · rw [hnone, hgone]
      exact Or.inl rfl
    · rw [hnone]
      exact Or.inr ⟨rfl, hevicts⟩
  afterRead {t m kv j key shard} h hkey hshard := by
    have hsame : ({ shard with policy := shard.policy.afterRead key } : Shard).content =
        Function.update shard.content key (shard.content key) := (Function.update_eq_self ..).symm
    have hmem := List.mem_of_getElem? hshard
    obtain ⟨hsound, hname⟩ := (h.sound.sound shard hmem).afterRead key
    refine ⟨h.regular.setShard hkey hshard hsame (h.regular.budget_eq shard hmem),
      h.sound.setShard hshard hsound rfl hname, ?_⟩
    rw [KVStore.content_setShard hkey hshard hsame, ← KVStore.content_of_getShard hkey hshard,
      Function.update_eq_self]
    exact h.shortOf
  sweep {t m kv j now shard} range h hshard hnow := by
    obtain ⟨hsound, hname⟩ := (h.sound.sound shard (List.mem_of_getElem? hshard)).sweep range now
    refine ⟨h.regular.sweepShard hshard range now,
      h.sound.setShard hshard hsound (Shard.content_sweep range now shard).1 hname,
      h.shortOf.drop fun k => ?_⟩
    rcases KVStore.content_sweepShard hshard range now k with hk | hk
    · rw [hk]
      cases hc : visible now (kv.content k) with
      | none => exact Or.inr ⟨rfl, Or.inl (by rw [← Expiry.visible_visible hnow, hc]; rfl)⟩
      | some entry => exact Or.inl (Expiry.visible_eq_some_iff.1 hc).1.symm
    · exact Or.inl hk

namespace Clients

variable {s : Clients}

/-- **A store with a budget is linearizable.**  Whatever its budget, its policy and its log, and
however calls, sweeps and the hooks of the policy overlap, the calls can be put in one order in
which each answers what the specification of the policy lets it answer.  Under `noevict` nothing
but sets is refused and nothing is lost; under the other policies nothing is refused, and no call
ever returns a value that is not the last one written, or has expired. -/
theorem budgeted_linearizable {ranges : ℕ → Range} {file : Option Bytes} {walOpts : Wal.Options}
    {opts : Options} {t₀ t : Time} {kv : KVStore}
    (hkv : newKVStore ranges file walOpts opts t₀ = some (.ok kv))
    (hs : Reach step (fun _ _ => True) (start kv t) s) :
    IsLinearizable (budgeted (opts.newEviction.getD .noevict)) kv.content s.history := by
  obtain ⟨-, -, -, ⟨b, hb, hregular⟩, -⟩ := newKVStore_eq_ok hkv
  have hsound := (sound_newKVStore hb hkv).2
  exact isLinearizable (implements_budgeted b _) ⟨hregular, hsound, fun _ => Or.inl rfl⟩ hs

/-- Two sets in four bytes: the second one evicts the first, whose `Get` is on its way. -/
def evictedUnderway : List Action :=
  [.invoke (.write (.setWithExpiry [1] [7] 90)), .append 0, .apply 0 fun _ => Eviction.byKey,
    .invoke (.get [1]), .lookup 1, .invoke (.write (.setWithExpiry [2] [8, 8, 8] 90)), .append 2,
    .apply 2 fun _ => Eviction.byKey, .readClock 1, .afterRead 1, .ret 1, .ret 2,
    .invoke (.get [1]), .lookup 3, .readClock 3, .ret 3]

/-- The first get returns the value that it had looked up before the second set evicted it, and
the last one misses it.  Both are explained by one order of the calls, although the set of the
value has not returned. -/
theorem budgeted_linearizable_evictedUnderway :
    ∃ s ∈ runAll step (fun _ _ => True) (start fourBytes 0) evictedUnderway,
      s.calls = [.done (.wrote none), .returned, .returned, .returned] ∧ s.kv.content [1] = none ∧
        IsLinearizable (budgeted .strict) fourBytes.content s.history := by
  obtain ⟨s, hs, hcalls, hgone⟩ : ∃ s ∈ runAll step (fun _ _ => True) (start fourBytes 0)
      evictedUnderway, s.calls = [.done (.wrote none), .returned, .returned, .returned] ∧
        s.kv.content [1] = none := by
    decide +kernel
  exact ⟨s, hs, hcalls, hgone,
    budgeted_linearizable (newKVStore_fourBytes fun _ => Eviction.byKey) (reach_of_runAll hs)⟩

end Clients

end Store
end Keva
