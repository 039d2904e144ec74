/-
# Making room

What `BeforeWrite` does to a shard, for each of the three policies.  A policy evicts only
keys that are there, and only while the entries and the new one exceed the budget (`Evicts`).
`SamplingEvict` and `LRUEvict` go on until the new entry fits or nothing is left, and their
loops end; `NoEvict` evicts nothing and refuses what does not fit (`beforeWrite_spec`).  The
keys that are evicted, in their order, are `Policy.victims` (`beforeWrite_victims`).

`LRUEvict` keeps a list and a map of its own.  As long as the map refers to the elements of
the list, each under its key (`LRUEvict.Linked`), and the list has the keys of the shard
(`Policy.Tracks`), the back of the list is always a key that can be evicted.
-/

import Keva.Eviction.Policy
import Keva.Lib.Weight

namespace Keva
namespace Eviction

/-! ### What an eviction leaves -/

/-- The bytes an entry counts for. -/
def entrySize (key : Key) (rec : Store.Record) : ℤ := key.length + rec.value.length

/-- The size of an entry is that of its key and its value, and so it is never negative. -/
theorem entrySize_nonneg (key : Key) (rec : Store.Record) : 0 ≤ entrySize key rec := by
  unfold entrySize
  omega

namespace Shard

variable {s s' : Shard} {key : Key} {needed : ℤ}

/-- The sum of `len(key) + len(value)` over the entries. -/
def size (s : Shard) : ℤ := Dict.weight entrySize s.data

/-- Neither is the size of a shard, which is the sum over its entries. -/
theorem size_nonneg (s : Shard) : 0 ≤ s.size := Dict.weight_nonneg entrySize_nonneg s.data

/-- The byte counter is right: it is the sum of the lengths of the keys and values that are
stored. -/
def Exact (s : Shard) : Prop := s.bytes = s.size

/-- **An eviction keeps the counter right:** it takes off the size of the entry, or nothing if
there is none. -/
theorem Exact.evict (h : s.Exact) (key : Key) : (s.evict key).Exact := by
  unfold Shard.evict
  cases hrec : s.data.lookup key with
  | none => exact h
  | some rec =>
    have hsize : s.size = entrySize key rec + Dict.weight entrySize (s.data.erase key) :=
      Dict.weight_of_lookup hrec
    have hbytes : s.bytes = s.size := h
    show s.bytes - entrySize key rec = Dict.weight entrySize (s.data.erase key)
    omega

/-- The shard after some evictions, each of a key that is there, at a moment when the entries
and `needed` more bytes exceeded the budget. -/
inductive Evicts (needed : ℤ) : Shard → Shard → Prop
  | done (s : Shard) : Evicts needed s s
  | evict {s s' : Shard} {victim : Key} (hvictim : victim ∈ s.data)
      (hover : s.budget < s.bytes + needed) (hrest : Evicts needed (s.evict victim) s') :
      Evicts needed s s'

namespace Evicts

/-- Evictions leave the budget alone. -/
theorem budget_eq (h : Evicts needed s s') : s'.budget = s.budget := by
  induction h with
  | done s => rfl
  | evict hvictim hover hrest ih => rw [ih, budget_evict]

/-- The byte counter still is the size of the entries, since each eviction takes off what it
removes. -/
theorem exact (h : Evicts needed s s') (hs : s.Exact) : s'.Exact := by
  induction h with
  | done s => exact hs
  | evict hvictim hover hrest ih => exact ih (hs.evict _)

/-- What survives is as it was. -/
theorem lookup_eq_or (h : Evicts needed s s') (k : Key) :
    s'.data.lookup k = s.data.lookup k ∨ s'.data.lookup k = none := by
  induction h with
  | done s => exact Or.inl rfl
  | @evict s s' victim hvictim hover hrest ih =>
    rw [data_evict] at ih
    by_cases hk : k = victim
    · rw [hk, Finmap.lookup_erase, or_self] at ih
      rw [hk]
      exact Or.inr ih
    · rwa [Finmap.lookup_erase_ne hk] at ih

/-- Nothing is evicted for what fits. -/
theorem eq_of_fits (h : Evicts needed s s') (hfits : s.bytes + needed ≤ s.budget) : s' = s := by
  cases h with
  | done s => rfl
  | evict hvictim hover hrest => exact absurd hfits (not_le.2 hover)

end Evicts

/-- Evict one key after another. -/
def evictAll (s : Shard) (victims : List Key) : Shard := victims.foldl evict s

/-- Evicting keys one after another erases them from the map, in any order. -/
theorem data_evictAll (s : Shard) (victims : List Key) :
    (s.evictAll victims).data = s.data.eraseAll victims := by
  induction victims generalizing s with
  | nil => rfl
  | cons victim victims ih =>
    show ((s.evict victim).evictAll victims).data = _
    rw [ih, data_evict, Dict.eraseAll_cons]

/-- The budget stays what it was. -/
theorem budget_evictAll (s : Shard) (victims : List Key) : (s.evictAll victims).budget = s.budget := by
  induction victims generalizing s with
  | nil => rfl
  | cons victim victims ih => exact (ih (s.evict victim)).trans (budget_evict s victim)

/-- The byte counter stays exact. -/
theorem Exact.evictAll (h : s.Exact) (victims : List Key) : (s.evictAll victims).Exact := by
  induction victims generalizing s with
  | nil => exact h
  | cons victim victims ih => exact ih (h.evict victim)

/-- When its turn comes each of the victims is there, and the entries and `needed` more bytes
exceed the budget. -/
def Forced (needed : ℤ) (s : Shard) : List Key → Prop
  | [] => True
  | victim :: victims =>
    victim ∈ s.data ∧ s.budget < s.bytes + needed ∧ Forced needed (s.evict victim) victims

/-- A list of victims, each forced at its turn, is a course of evictions. -/
theorem Forced.evicts {victims : List Key} (h : s.Forced needed victims) :
    Evicts needed s (s.evictAll victims) := by
  induction victims generalizing s with
  | nil => exact .done s
  | cons victim victims ih =>
    obtain ⟨hvictim, hover, hrest⟩ := h
    exact .evict hvictim hover (ih hrest)

/-- **The moment of one eviction.**  After those before it the victim is still there, and there
is still no room. -/
theorem Forced.at {before after : List Key} {victim : Key}
    (h : s.Forced needed (before ++ victim :: after)) :
    victim ∈ (s.evictAll before).data ∧
      (s.evictAll before).budget < (s.evictAll before).bytes + needed := by
  induction before generalizing s with
  | nil => exact ⟨h.1, h.2.1⟩
  | cons first before ih => exact ih h.2.2

/-- A shard is empty when it has no keys. -/
theorem data_eq_empty_of_len (h : s.len = 0) : s.data = ∅ := by
  refine Dict.eq_empty_iff.2 fun k hk => ?_
  rw [← Finmap.mem_keys, Finset.card_eq_zero.1 h] at hk
  exact Finset.notMem_empty k hk

/-- Each eviction of a key that is there leaves one entry less, which is why the loops end. -/
theorem len_evict (h : key ∈ s.data) : (s.evict key).len + 1 = s.len := by
  unfold len
  rw [data_evict, Finmap.keys_erase, Finset.card_erase_add_one (Finmap.mem_keys.2 h)]

end Shard

open Shard (Evicts)

variable {s : Shard} {needed : ℤ}

/-! ### `SamplingEvict` -/

/-- One round of the loop in `soonest`: the victim so far, if any, against the next key. -/
def sooner (data : Dict Key Store.Record) (victim : Option (Key × Time)) (key : Key) :
    Option (Key × Time) :=
  match data.lookup key, victim with
  | none, _ => victim
  | some rec, none => some (key, rec.expiredAt)
  | some rec, some (k, e) => if rec.expiredAt < e then some (key, rec.expiredAt) else some (k, e)

/-- The loop of `soonest` as a fold, one `sooner` after the other. -/
theorem soonest_eq (data : Dict Key Store.Record) (sample : List Key) :
    soonest data sample = sample.foldl (sooner data) none := rfl

/-- After a key of the shard there is a victim, and it is a key of the shard. -/
theorem exists_sooner {data : Dict Key Store.Record} {victim : Option (Key × Time)} {key : Key}
    (hvictim : ∀ x ∈ victim, x.1 ∈ data) (hkey : key ∈ data) :
    ∃ x, sooner data victim key = some x ∧ x.1 ∈ data := by
  obtain ⟨rec, hrec⟩ := Finmap.mem_iff.1 hkey
  unfold sooner
  rw [hrec]
  rcases victim with _ | ⟨k, e⟩
  · exact ⟨_, rfl, hkey⟩
  · dsimp only
    split_ifs
    · exact ⟨_, rfl, hkey⟩
    · exact ⟨_, rfl, hvictim _ rfl⟩

/-- Once there is a victim, and all the keys that are drawn are in the map, there is one at the
end, and it is in the map. -/
theorem exists_foldl_sooner {data : Dict Key Store.Record} {sample : List Key} {x : Key × Time}
    (hsample : ∀ k ∈ sample, k ∈ data) (hx : x.1 ∈ data) :
    ∃ y, sample.foldl (sooner data) (some x) = some y ∧ y.1 ∈ data := by
  induction sample generalizing x with
  | nil => exact ⟨x, rfl, hx⟩
  | cons key sample ih =>
    have hvictim : ∀ y ∈ some x, y.1 ∈ data := by
      intro y hy
      rwa [← Option.some.inj hy]
    obtain ⟨y, hy, hmem⟩ := exists_sooner hvictim (hsample key List.mem_cons_self)
    rw [List.foldl_cons, hy]
    exact ih (fun k hk => hsample k (List.mem_cons_of_mem _ hk)) hmem

/-- Of a sample of the shard one key is found. -/
theorem exists_soonest {data : Dict Key Store.Record} {sample : List Key}
    (hsample : ∀ k ∈ sample, k ∈ data) (hne : sample ≠ []) :
    ∃ victim e, soonest data sample = some (victim, e) ∧ victim ∈ data := by
  obtain ⟨key, sample, rfl⟩ := List.exists_cons_of_ne_nil hne
  have hnone : ∀ x ∈ (none : Option (Key × Time)), x.1 ∈ data := by
    intro x hx
    cases hx
  obtain ⟨x, hx, hmem⟩ := exists_sooner hnone (hsample key List.mem_cons_self)
  obtain ⟨⟨victim, e⟩, hy, hvictim⟩ :=
    exists_foldl_sooner (fun k hk => hsample k (List.mem_cons_of_mem _ hk)) hmem
  refine ⟨victim, e, ?_, hvictim⟩
  rw [soonest_eq, List.foldl_cons, hx, hy]

/-- One round finds a key to evict: a shard that is not empty gives a sample that is not, and
every key of the sample has an entry. -/
theorem exists_victim (range : Range) (h : 0 < s.len) :
    ∃ victim e, soonest s.data ((range.keys s.data).take sampleN) = some (victim, e) ∧
      victim ∈ s.data := by
  have hsample : ∀ k ∈ (range.keys s.data).take sampleN, k ∈ s.data :=
    fun k hk => range.mem_keys.1 (List.mem_of_mem_take hk)
  have hne : (range.keys s.data).take sampleN ≠ [] := by
    obtain ⟨k, hk⟩ := Finset.card_pos.1 h
    have hmem : k ∈ range.keys s.data := range.mem_keys.2 (Finmap.mem_keys.1 hk)
    intro hnil
    rw [List.take_eq_nil_iff] at hnil
    rcases hnil with h0 | hnil
    · exact absurd h0 (by decide)
    · rw [hnil] at hmem
      cases hmem
  exact exists_soonest hsample hne

/-- The keys the loop of `SamplingEvict` evicts, in this order. -/
def sampleVictims (ranges : ℕ → Range) (needed : ℤ) : ℕ → Shard → List Key
  | 0, _ => []
  | fuel + 1, s =>
    if s.bytes + needed > s.budget ∧ s.len > 0 then
      match soonest s.data (((ranges fuel).keys s.data).take sampleN) with
      | none => sampleVictims ranges needed fuel s
      | some (victim, _) => victim :: sampleVictims ranges needed fuel (s.evict victim)
    else []

/-- **The loop of `SamplingEvict`** evicts its victims, and ends with room or with nothing
left. -/
theorem sampleLoop_spec (ranges : ℕ → Range) (needed : ℤ) {fuel : ℕ} (hfuel : s.len ≤ fuel) :
    sampleLoop ranges needed fuel s = s.evictAll (sampleVictims ranges needed fuel s) ∧
      s.Forced needed (sampleVictims ranges needed fuel s) ∧
      ((sampleLoop ranges needed fuel s).bytes + needed ≤ (sampleLoop ranges needed fuel s).budget ∨
        (sampleLoop ranges needed fuel s).data = ∅) := by
  induction fuel generalizing s with
  | zero =>
    exact ⟨rfl, trivial, Or.inr (Shard.data_eq_empty_of_len (Nat.le_zero.1 hfuel))⟩
  | succ fuel ih =>
    rw [sampleLoop, sampleVictims]
    split_ifs with hloop
    · obtain ⟨hover, hpos⟩ := hloop
      obtain ⟨victim, e, hsoonest, hvictim⟩ := exists_victim (ranges fuel) hpos
      have hlen := Shard.len_evict hvictim
      obtain ⟨heq, hforced, hroom⟩ := ih (s := s.evict victim) (by omega)
      rw [evictSoonestOfSample, hsoonest]
      exact ⟨heq, ⟨hvictim, hover, hforced⟩, hroom⟩
    · refine ⟨rfl, trivial, ?_⟩
      by_cases hover : s.bytes + needed > s.budget
      · have hlen : s.len = 0 := Nat.eq_zero_of_not_pos fun hpos => hloop ⟨hover, hpos⟩
        exact Or.inr (Shard.data_eq_empty_of_len hlen)
      · exact Or.inl (not_lt.1 hover)

/-! ### `LRUEvict` -/

namespace LRUEvict

variable {p p' : LRUEvict} {key : Key}

/-- The keys in the list, the most recent first. -/
def keys (p : LRUEvict) : List Key := p.order.map Element.value

/-- No two elements have the same key or the same identity, and the map takes each key of the
list to its element, and no other key to anything. -/
structure Linked (p : LRUEvict) : Prop where
  keys_nodup : p.keys.Nodup
  ids_nodup : (p.order.map Element.id).Nodup
  fresh : ∀ e ∈ p.order, e.id < p.next
  elems : ∀ key id, p.elems.lookup key = some id ↔ ⟨id, key⟩ ∈ p.order

/-- A new policy has an empty list and an empty map. -/
theorem linked_new : new.Linked where
  keys_nodup := List.nodup_nil
  ids_nodup := List.nodup_nil
  fresh e he := absurd he List.not_mem_nil
  elems key id := by
    constructor
    · exact fun h => nomatch h
    · exact fun h => absurd h List.not_mem_nil

/-- A key is in the list under some identity. -/
theorem mem_keys_iff : key ∈ p.keys ↔ ∃ id, ⟨id, key⟩ ∈ p.order := by
  rw [keys, List.mem_map]
  constructor
  · rintro ⟨⟨id, value⟩, he, rfl⟩
    exact ⟨id, he⟩
  · rintro ⟨id, he⟩
    exact ⟨_, he, rfl⟩

/-- The identity of an element tells its key. -/
theorem Linked.eq_of_id (h : p.Linked) {e e' : Element} (he : e ∈ p.order) (he' : e' ∈ p.order)
    (hid : e.id = e'.id) : e = e' :=
  List.inj_on_of_nodup_map h.ids_nodup he he' hid

/-- The element of a key is told by its identity. -/
theorem Linked.id_eq_iff (h : p.Linked) {id : ℕ} (hmem : ⟨id, key⟩ ∈ p.order) {e : Element}
    (he : e ∈ p.order) : e.id = id ↔ e.value = key := by
  constructor
  · intro heq
    rw [h.eq_of_id he hmem heq]
  · rintro rfl
    have hlookup : p.elems.lookup e.value = some e.id := (h.elems _ _).2 he
    exact Option.some.inj (hlookup.symm.trans ((h.elems _ _).2 hmem))

/-- **`forget` drops the element of the key,** and nothing else, from list and map alike; a key
without an element leaves both. -/
theorem forget_spec (h : p.Linked) (key : Key) :
    (p.forget key).order = p.order.filter (fun e => e.value ≠ key) ∧
      (p.forget key).next = p.next ∧
      ∀ k, (p.forget key).elems.lookup k = if k = key then none else p.elems.lookup k := by
  unfold forget
  cases hid : p.elems.lookup key with
  | none =>
    refine ⟨(List.filter_eq_self.2 fun e he => ?_).symm, rfl, fun k => ?_⟩
    · have hne : e.value ≠ key := by
        rintro rfl
        have hlookup : p.elems.lookup e.value = some e.id := (h.elems _ _).2 he
        rw [hid] at hlookup
        cases hlookup
      exact decide_eq_true hne
    · split_ifs with hk
      · rw [hk, hid]
      · rfl
  | some id =>
    have hmem : ⟨id, key⟩ ∈ p.order := (h.elems key id).1 hid
    refine ⟨List.filter_congr fun e he => ?_, rfl, fun k => ?_⟩
    · exact decide_eq_decide.2 (not_congr (h.id_eq_iff hmem he))
    · split_ifs with hk
      · rw [hk, Finmap.lookup_erase]
      · exact Finmap.lookup_erase_ne hk

/-- `forget` takes the element off the list and the key out of the map, both or neither. -/
theorem Linked.forget (h : p.Linked) (key : Key) : (p.forget key).Linked := by
  obtain ⟨horder, hnext, helems⟩ := forget_spec h key
  have hsub : (p.forget key).order.Sublist p.order := horder ▸ List.filter_sublist
  refine ⟨h.keys_nodup.sublist (hsub.map _), h.ids_nodup.sublist (hsub.map _),
    fun e he => hnext ▸ h.fresh e (hsub.subset he), fun k id => ?_⟩
  rw [helems, horder, List.mem_filter]
  split_ifs with hk
  · constructor
    · exact fun hnone => nomatch hnone
    · exact fun hmem => absurd hk (of_decide_eq_true hmem.2)
  · rw [h.elems]
    exact (and_iff_left (decide_eq_true hk)).symm

/-- Of the list, `forget` removes the one element of the key and keeps the order of the others. -/
theorem keys_forget (h : p.Linked) (key : Key) :
    (p.forget key).keys = p.keys.filter (· ≠ key) := by
  rw [keys, (forget_spec h key).1, keys, List.filter_map]
  rfl

/-- So the keys that are left are the others. -/
theorem mem_keys_forget (h : p.Linked) {key k : Key} :
    k ∈ (p.forget key).keys ↔ k ∈ p.keys ∧ k ≠ key := by
  rw [keys_forget h, List.mem_filter, decide_eq_true_eq]

/-- **A key that is written is put in front,** with an element of its own that no other key has. -/
theorem Linked.afterWrite (h : p.Linked) (hnew : key ∉ p.keys) : (p.afterWrite key).Linked := by
  refine ⟨List.nodup_cons.2 ⟨hnew, h.keys_nodup⟩, List.nodup_cons.2 ⟨?_, h.ids_nodup⟩, ?_, ?_⟩
  · intro hmem
    obtain ⟨e, he, hid⟩ := List.mem_map.1 hmem
    have hlt := h.fresh e he
    rw [hid] at hlt
    exact lt_irrefl _ hlt
  · intro e he
    rcases List.mem_cons.1 he with rfl | he
    · exact Nat.lt_succ_self _
    · exact (h.fresh e he).trans (Nat.lt_succ_self _)
  · intro k id
    show (p.elems.insert key p.next).lookup k = some id ↔ ⟨id, k⟩ ∈ ⟨p.next, key⟩ :: p.order
    rw [List.mem_cons, Element.mk.injEq]
    by_cases hk : k = key
    · subst hk
      have hold : ⟨id, k⟩ ∉ p.order := fun he => hnew (mem_keys_iff.2 ⟨id, he⟩)
      rw [Finmap.lookup_insert, Option.some.injEq]
      constructor
      · exact fun heq => Or.inl ⟨heq.symm, rfl⟩
      · exact fun hor => (hor.resolve_right hold).1.symm
    · rw [Finmap.lookup_insert_of_ne _ hk, h.elems]
      constructor
      · exact Or.inr
      · exact fun hor => hor.resolve_left fun heq => hk heq.2

/-- Moving an element to the front reorders the list, since pointers are distinct: one element is
taken out and put in again. -/
theorem moveToFront_perm {order : List Element} (h : (order.map Element.id).Nodup) (id : ℕ) :
    (moveToFront order id).Perm order := by
  unfold moveToFront
  cases hfind : order.find? fun e => e.id = id with
  | none => exact .refl _
  | some e =>
    have hmem : e ∈ order := List.mem_of_find?_eq_some hfind
    have hid : e.id = id := by simpa using List.find?_some hfind
    have hrest : order.erase e = order.filter fun e => e.id ≠ id := by
      rw [(List.Nodup.of_map _ h).erase_eq_filter]
      refine List.filter_congr fun x hx => ?_
      have hiff : x = e ↔ x.id = id := by
        constructor
        · rintro rfl
          exact hid
        · exact fun heq => List.inj_on_of_nodup_map h hx hmem (heq.trans hid.symm)
      rw [bne, Bool.eq_iff_iff]
      simp [hiff]
    exact hrest ▸ (List.perm_cons_erase hmem).symm

/-- **A key that is read stays linked,** wherever it is moved; the keys are the same, in another
order. -/
theorem Linked.afterRead (h : p.Linked) (key : Key) :
    (p.afterRead key).Linked ∧ (p.afterRead key).keys.Perm p.keys := by
  unfold LRUEvict.afterRead
  split
  · rename_i id hid
    have hperm := moveToFront_perm h.ids_nodup id
    refine ⟨⟨(hperm.map _).nodup_iff.2 h.keys_nodup, (hperm.map _).nodup_iff.2 h.ids_nodup,
      fun e he => h.fresh e (hperm.mem_iff.1 he), fun k i => ?_⟩, hperm.map _⟩
    exact (h.elems k i).trans hperm.mem_iff.symm
  · exact ⟨h, .refl _⟩

/-- **A key that is read is moved to the front,** and the others keep their order. -/
theorem keys_afterRead (h : p.Linked) (hkey : key ∈ p.keys) :
    (p.afterRead key).keys = key :: p.keys.filter (· ≠ key) := by
  obtain ⟨id, hmem⟩ := mem_keys_iff.1 hkey
  have hfind : p.order.find? (fun e => e.id = id) = some ⟨id, key⟩ := by
    cases hfind : p.order.find? fun e => e.id = id with
    | none => exact absurd (decide_eq_true rfl) (List.find?_eq_none.1 hfind _ hmem)
    | some e =>
      have hid : e.id = id := by simpa using List.find?_some hfind
      rw [h.eq_of_id (List.mem_of_find?_eq_some hfind) hmem hid]
  have hrest : p.order.filter (fun e => e.id ≠ id) = p.order.filter (fun e => e.value ≠ key) :=
    List.filter_congr fun e he => decide_eq_decide.2 (not_congr (h.id_eq_iff hmem he))
  rw [afterRead, (h.elems key id).2 hmem]
  show (moveToFront p.order id).map Element.value = _
  rw [moveToFront, hfind]
  dsimp only
  rw [hrest, List.map_cons, keys, List.filter_map]
  rfl

/-- The keys the loop of `LRUEvict` evicts, in this order. -/
def victims (needed : ℤ) : ℕ → LRUEvict → Shard → List Key
  | 0, _, _ => []
  | fuel + 1, p, s =>
    if s.bytes + needed > s.budget then
      match p.order.getLast? with
      | none => []
      | some tail => tail.value :: victims needed fuel (p.forget tail.value) (s.evict tail.value)
    else []

/-- The key at the back of the list is the one that goes. -/
theorem keys_forget_last (h : p.Linked) {tail : Element} (hlast : p.order.getLast? = some tail) :
    (p.forget tail.value).keys ++ [tail.value] = p.keys := by
  obtain ⟨init, horder⟩ := List.getLast?_eq_some_iff.1 hlast
  have hkeys : p.keys = init.map Element.value ++ [tail.value] := by
    rw [keys, horder, List.map_append]
    rfl
  have hnotMem : ∀ e ∈ init, e.value ≠ tail.value := by
    intro e he heq
    have hnodup := h.keys_nodup
    rw [hkeys, List.nodup_append] at hnodup
    exact hnodup.2.2 e.value (List.mem_map_of_mem he) tail.value List.mem_cons_self heq
  have hforget : (p.forget tail.value).order = init := by
    rw [(forget_spec h tail.value).1, horder, List.filter_append,
      List.filter_eq_self.2 fun e he => decide_eq_true (hnotMem e he)]
    simp
  rw [hkeys, keys, hforget]

/-- Where the list is empty, so is the shard. -/
theorem data_eq_empty_of_order (hkeys : ∀ k, k ∈ p.keys ↔ k ∈ s.data) (hnil : p.order = []) :
    s.data = ∅ := by
  refine Dict.eq_empty_iff.2 fun k hk => ?_
  rw [← hkeys, keys, hnil] at hk
  cases hk

/-- **The loop of `LRUEvict`** evicts its victims, which are the last ones of the list, and ends
with room or with nothing left. -/
theorem evictLoop_spec (h : p.Linked) (hkeys : ∀ k, k ∈ p.keys ↔ k ∈ s.data) (needed : ℤ) {fuel : ℕ}
    (hfuel : p.order.length ≤ fuel) :
    ∃ p' s', p.evictLoop needed fuel s = some (p', s') ∧ p'.Linked ∧
      (∀ k, k ∈ p'.keys ↔ k ∈ s'.data) ∧ s' = s.evictAll (p.victims needed fuel s) ∧
      p'.keys ++ (p.victims needed fuel s).reverse = p.keys ∧
      s.Forced needed (p.victims needed fuel s) ∧
      (s'.bytes + needed ≤ s'.budget ∨ s'.data = ∅) := by
  induction fuel generalizing p s with
  | zero =>
    have hnil : p.order = [] := List.length_eq_zero_iff.1 (Nat.le_zero.1 hfuel)
    refine ⟨p, s, ?_, h, hkeys, rfl, List.append_nil _, trivial,
      Or.inr (data_eq_empty_of_order hkeys hnil)⟩
    unfold evictLoop
    rw [hnil]
    exact ite_self _
  | succ fuel ih =>
    unfold evictLoop victims
    by_cases hover : s.bytes + needed > s.budget
    · rw [if_pos hover, if_pos hover]
      cases hlast : p.order.getLast? with
      | none =>
        have hnil : p.order = [] := List.getLast?_eq_none_iff.1 hlast
        exact ⟨p, s, rfl, h, hkeys, rfl, List.append_nil _, trivial,
          Or.inr (data_eq_empty_of_order hkeys hnil)⟩
      | some tail =>
        have htail : tail ∈ p.order := List.mem_of_getLast? hlast
        have hvictim : tail.value ∈ s.data := (hkeys _).1 (List.mem_map_of_mem htail)
        have hback := keys_forget_last h hlast
        have hshort : (p.forget tail.value).order.length < p.order.length := by
          have hlength := congrArg List.length hback
          simp only [keys, List.length_append, List.length_map, List.length_singleton] at hlength
          omega
        have hkeys' : ∀ k, k ∈ (p.forget tail.value).keys ↔ k ∈ (s.evict tail.value).data := by
          intro k
          rw [mem_keys_forget h, hkeys, Shard.data_evict, Finmap.mem_erase, and_comm]
        obtain ⟨p', s', hloop, hlinked, htracks, heq, hkept, hforced, hroom⟩ :=
          ih (h.forget tail.value) hkeys' (by omega)
        refine ⟨p', s', hloop, hlinked, htracks, heq, ?_, ⟨hvictim, hover, hforced⟩, hroom⟩
        rw [List.reverse_cons, ← List.append_assoc, hkept, hback]
    · rw [if_neg hover, if_neg hover]
      exact ⟨p, s, rfl, h, hkeys, rfl, List.append_nil _, trivial, Or.inl (not_lt.1 hover)⟩

end LRUEvict

/-! ### Policies -/

namespace Policy

/-- The name of the policy. -/
def name : Policy → PolicyName
  | noEvict => .noevict
  | samplingEvict => .relaxed
  | lruEvict _ => .strict

/-- The policy that is made for a name reports that name. -/
@[simp] theorem name_byName (n : PolicyName) : (byName n).name = n := by
  cases n <;> rfl

/-- Only `LRUEvict` goes by the name `strict`. -/
theorem exists_lruEvict {p : Policy} (h : p.name = .strict) : ∃ state, p = lruEvict state := by
  cases p with
  | lruEvict state => exact ⟨state, rfl⟩
  | noEvict | samplingEvict => cases h

/-- What the policy keeps goes with the shard: for `LRUEvict`, list and map are linked, and
have the keys of the shard. -/
def Tracks (p : Policy) (data : Dict Key Store.Record) : Prop :=
  match p with
  | lruEvict p => p.Linked ∧ ∀ k, k ∈ p.keys ↔ k ∈ data
  | _ => True

variable {p : Policy} {data : Dict Key Store.Record} {key : Key}

/-- A policy that has just been made goes with an empty shard. -/
theorem tracks_byName (n : PolicyName) : (byName n).Tracks ∅ := by
  cases n with
  | strict => exact ⟨LRUEvict.linked_new, fun k => ⟨fun hk => absurd hk List.not_mem_nil,
      fun hk => absurd hk Finmap.notMem_empty⟩⟩
  | _ => trivial

/-- **A key that has been stored** is the most recent one, and what the policy keeps goes with
the map again. -/
theorem Tracks.afterWrite (h : p.Tracks data) (hnew : key ∉ data) (rec : Store.Record) :
    (p.afterWrite key).Tracks (data.insert key rec) ∧ (p.afterWrite key).name = p.name := by
  cases p with
  | lruEvict p =>
    refine ⟨⟨h.1.afterWrite fun hk => hnew ((h.2 key).1 hk), fun k => ?_⟩, rfl⟩
    show k ∈ key :: p.keys ↔ _
    rw [List.mem_cons, h.2, Finmap.mem_insert]
  | noEvict => exact ⟨trivial, rfl⟩
  | samplingEvict => exact ⟨trivial, rfl⟩

/-- A read moves an element within the list, or does nothing where the key is not in it. -/
theorem Tracks.afterRead (h : p.Tracks data) (key : Key) :
    (p.afterRead key).Tracks data ∧ (p.afterRead key).name = p.name := by
  cases p with
  | lruEvict p =>
    obtain ⟨hlinked, hperm⟩ := h.1.afterRead key
    exact ⟨⟨hlinked, fun k => hperm.mem_iff.trans (h.2 k)⟩, rfl⟩
  | noEvict => exact ⟨trivial, rfl⟩
  | samplingEvict => exact ⟨trivial, rfl⟩

/-- A delete takes the key out of the policy as well. -/
theorem Tracks.afterDelete (h : p.Tracks data) (key : Key) :
    (p.afterDelete key).Tracks (data.erase key) ∧ (p.afterDelete key).name = p.name := by
  cases p with
  | lruEvict p =>
    refine ⟨⟨h.1.forget key, fun k => ?_⟩, rfl⟩
    rw [LRUEvict.mem_keys_forget h.1, h.2, Finmap.mem_erase, and_comm]
  | noEvict => exact ⟨trivial, rfl⟩
  | samplingEvict => exact ⟨trivial, rfl⟩

/-- What `BeforeWrite` leads to: evictions, each of which was forced; acceptance, which `noevict`
alone may refuse; and room, unless nothing is left to evict. -/
structure Room (p : Policy) (s : Shard) (needed : ℤ) (accepted : Bool) (p' : Policy) (s' : Shard) :
    Prop where
  name_eq : p'.name = p.name
  tracks : p'.Tracks s'.data
  evicts : Evicts needed s s'
  unlimited : s.budget = 0 → accepted = true ∧ s' = s
  noevict : p.name = .noevict →
    s' = s ∧ (accepted = true → s.budget = 0 ∨ s.bytes + needed ≤ s.budget)
  accepts : s.bytes + needed ≤ s.budget ∨ p.name ≠ .noevict → accepted = true
  room : accepted = true → s.budget ≠ 0 → s'.bytes + needed ≤ s'.budget ∨
    p.name ≠ .noevict ∧ s'.data = ∅

/-- A policy that evicts accepts every write. -/
theorem room_of_evicts {p' : Policy} {s' : Shard} (hp : p.name ≠ .noevict) (hname : p'.name = p.name)
    (htracks : p'.Tracks s'.data) (hevicts : Evicts needed s s') (h0 : s.budget = 0 → s' = s)
    (hroom : s.budget ≠ 0 → s'.bytes + needed ≤ s'.budget ∨ s'.data = ∅) :
    p.Room s needed true p' s' where
  name_eq := hname
  tracks := htracks
  evicts := hevicts
  unlimited h := ⟨rfl, h0 h⟩
  noevict h := absurd h hp
  accepts _ := rfl
  room _ hne := (hroom hne).imp_right fun hempty => ⟨hp, hempty⟩

/-- **Making room,** for a shard from which the key that is written has been taken out. -/
theorem beforeWrite_spec (ranges : ℕ → Range) (h : p.Tracks data) (hs : s.data = data.erase key)
    (needed : ℤ) :
    ∃ accepted p' s', p.beforeWrite ranges s key needed = some (accepted, p', s') ∧
      p.Room s needed accepted p' s' := by
  cases p with
  | noEvict =>
    refine ⟨decide (s.budget = 0 ∨ s.bytes + needed ≤ s.budget), .noEvict, s, ?_, rfl, trivial, .done s,
      fun h0 => ⟨decide_eq_true (Or.inl h0), rfl⟩, fun _ => ⟨rfl, of_decide_eq_true⟩, ?_, ?_⟩
    · rw [beforeWrite]
      split_ifs with h0
      · simp [h0]
      · simp [h0]
    · exact fun hor => decide_eq_true (Or.inr (hor.resolve_right fun hne => hne rfl))
    · exact fun hacc h0 => Or.inl ((of_decide_eq_true hacc).resolve_left h0)
  | samplingEvict =>
    have hname : samplingEvict.name ≠ .noevict := fun heq => nomatch heq
    by_cases h0 : s.budget = 0
    · exact ⟨true, .samplingEvict, s, if_pos h0, room_of_evicts hname rfl trivial (.done s)
        (fun _ => rfl) fun hne => absurd h0 hne⟩
    · obtain ⟨heq, hforced, hroom⟩ := sampleLoop_spec (s := s) ranges needed le_rfl
      exact ⟨true, .samplingEvict, _, if_neg h0, room_of_evicts hname rfl trivial
        (heq ▸ hforced.evicts) (fun h => absurd h h0) fun _ => hroom⟩
  | lruEvict p =>
    have hname : (lruEvict p).name ≠ .noevict := fun heq => nomatch heq
    have hkeys : ∀ k, k ∈ (p.forget key).keys ↔ k ∈ s.data := by
      intro k
      rw [LRUEvict.mem_keys_forget h.1, h.2, hs, Finmap.mem_erase, and_comm]
    have hlinked := h.1.forget key
    by_cases h0 : s.budget = 0
    · exact ⟨true, .lruEvict (p.forget key), s, if_pos h0, room_of_evicts hname rfl
        ⟨hlinked, hkeys⟩ (.done s) (fun _ => rfl) fun hne => absurd h0 hne⟩
    · obtain ⟨p', s', hloop, hlinked', hkeys', heq, -, hforced, hroom⟩ :=
        LRUEvict.evictLoop_spec hlinked hkeys needed le_rfl
      refine ⟨true, .lruEvict p', s', ?_, room_of_evicts hname rfl ⟨hlinked', hkeys'⟩
        (heq ▸ hforced.evicts) (fun h => absurd h h0) fun _ => hroom⟩
      rw [beforeWrite]
      dsimp only
      rw [if_neg h0, hloop]
      rfl

/-- The keys `BeforeWrite` evicts, in this order. -/
def victims (ranges : ℕ → Range) (p : Policy) (s : Shard) (key : Key) (needed : ℤ) : List Key :=
  match p with
  | noEvict => []
  | samplingEvict => if s.budget = 0 then [] else sampleVictims ranges needed s.len s
  | lruEvict p =>
    if s.budget = 0 then [] else (p.forget key).victims needed (p.forget key).order.length s

/-- **What is evicted to make room** is what `victims` says, one after the other, and each of
them was forced when its turn came. -/
theorem beforeWrite_victims {ranges : ℕ → Range} (h : p.Tracks data) (hs : s.data = data.erase key)
    {accepted : Bool} {p' : Policy} {s' : Shard}
    (hbefore : p.beforeWrite ranges s key needed = some (accepted, p', s')) :
    s' = s.evictAll (p.victims ranges s key needed) ∧
      s.Forced needed (p.victims ranges s key needed) := by
  unfold beforeWrite at hbefore
  unfold victims
  by_cases h0 : s.budget = 0
  · have hs' : s' = s := by
      cases p <;> simp only [if_pos h0, Option.some.injEq, Prod.mk.injEq] at hbefore <;>
        exact hbefore.2.2.symm
    cases p with
    | noEvict => exact ⟨hs', trivial⟩
    | samplingEvict | lruEvict =>
      simp only [if_pos h0]
      exact ⟨hs', trivial⟩
  cases p with
  | noEvict =>
    simp only [if_neg h0, Option.some.injEq, Prod.mk.injEq] at hbefore
    exact ⟨hbefore.2.2.symm, trivial⟩
  | samplingEvict =>
    simp only [if_neg h0, Option.some.injEq, Prod.mk.injEq] at hbefore ⊢
    obtain ⟨heq, hforced, -⟩ := sampleLoop_spec (s := s) ranges needed le_rfl
    exact ⟨hbefore.2.2 ▸ heq, hforced⟩
  | lruEvict p =>
    have hkeys : ∀ k, k ∈ (p.forget key).keys ↔ k ∈ s.data := by
      intro k
      rw [LRUEvict.mem_keys_forget h.1, h.2, hs, Finmap.mem_erase, and_comm]
    obtain ⟨p₁, s₁, hloop, -, -, heq, -, hforced, -⟩ :=
      LRUEvict.evictLoop_spec (h.1.forget key) hkeys needed le_rfl
    simp only [if_neg h0, hloop, Option.map_some, Option.some.injEq, Prod.mk.injEq] at hbefore ⊢
    exact ⟨hbefore.2.2 ▸ heq, hforced⟩

end Policy

end Eviction
end Keva
