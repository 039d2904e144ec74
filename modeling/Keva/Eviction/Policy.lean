/-
# Eviction policies

`storage/eviction`: the `Shard` view a policy works on, `NoEvict`,
`SamplingEvict`, `LRUEvict` and `ByName`; `Evict` and the other methods of the
view are those of `storage/store/shard.go`.

A policy is asked to make room before a write (`beforeWrite`) and told of
writes, reads and deletes afterwards.  `BeforeRead` and `BeforeDelete` do nothing
in any of the three, and are left out.  A list element of `container/list` is a
pointer, so `LRUEvict` keeps an identity with each element: `elems` refers to it,
and `Remove` and `MoveToFront` look it up.

With no budget a policy makes no difference to the shard
(`beforeWrite_unlimited`).
-/

import Keva.Lib.RangeOrder
import Keva.Wal.Record

namespace Keva

/-- The value part of a shard's map: the value, and the times at which it was written and at
which it expires. -/
structure Store.Record where
  value : Bytes
  createdAt : Time
  expiredAt : Time
  deriving DecidableEq

namespace Eviction

/-- What a policy sees of a shard: the map, the byte counter and the budget, where a budget of
zero stands for none. -/
structure Shard where
  data : Dict Key Store.Record
  bytes : ℤ
  budget : ℤ

namespace Shard

/-- The number of keys. -/
def len (s : Shard) : ℕ := s.data.keys.card

/-- Remove `key` and its bytes, if it is there. -/
def evict (s : Shard) (key : Key) : Shard :=
  match s.data.lookup key with
  | some rec =>
    { s with bytes := s.bytes - (key.length + rec.value.length), data := s.data.erase key }
  | none => s

/-- An eviction erases its key. -/
theorem data_evict (s : Shard) (key : Key) : (s.evict key).data = s.data.erase key := by
  unfold evict
  split
  · rfl
  · rename_i h
    refine (Finmap.ext_lookup fun k => ?_).symm
    by_cases hk : k = key
    · rw [hk, Finmap.lookup_erase, h]
    · rw [Finmap.lookup_erase_ne hk]

/-- An eviction leaves the budget. -/
@[simp] theorem budget_evict (s : Shard) (key : Key) : (s.evict key).budget = s.budget := by
  unfold evict
  split <;> rfl

end Shard

/-- The order in which `Range` visits the entries of a shard. -/
abbrev Range := RangeOrder Key Store.Record

/-- Ranging by key, bytes in lexicographic order: one of the orders there are. -/
def byKey : Range := .sorted fun a b : Bytes => a ≤ b

/-- The same order, by an insertion sort, which evaluates by itself. -/
def inKeyOrder : Range := .insertionSorted fun a b : Bytes => a ≤ b

/-! ### `SamplingEvict` -/

/-- How many keys `SamplingEvict` draws for one victim. -/
def sampleN : ℕ := 5

/-- The sampled key that expires first; of two that expire together, the one met
first. -/
def soonest (data : Dict Key Store.Record) (sample : List Key) : Option (Key × Time) :=
  sample.foldl (fun victim key =>
    match data.lookup key, victim with
    | none, _ => victim
    | some rec, none => some (key, rec.expiredAt)
    | some rec, some (k, e) => if rec.expiredAt < e then some (key, rec.expiredAt) else some (k, e))
    none

/-- One round of `SamplingEvict`: of the first keys of an iteration over the map, the one that
expires first is evicted.  Where the iteration begins is left to the runtime. -/
def evictSoonestOfSample (range : Range) (s : Shard) : Shard :=
  match soonest s.data ((range.keys s.data).take sampleN) with
  | none => s
  | some (victim, _) => s.evict victim

/-- The loop of `SamplingEvict.BeforeWrite`.  Each round evicts a key, so there
are at most as many rounds as keys. -/
def sampleLoop (ranges : ℕ → Range) (needed : ℤ) : ℕ → Shard → Shard
  | 0, s => s
  | fuel + 1, s =>
    if s.bytes + needed > s.budget ∧ s.len > 0 then
      sampleLoop ranges needed fuel (evictSoonestOfSample (ranges fuel) s)
    else s

/-! ### `LRUEvict` -/

/-- An element of the list: the pointer to it, and the key it holds. -/
structure Element where
  id : ℕ
  value : Key
  deriving DecidableEq

/-- Least recently used: the list from the most recent key to the least recent
one, each key's element in it, and the next pointer to be handed out. -/
structure LRUEvict where
  order : List Element
  elems : Dict Key ℕ
  next : ℕ

namespace LRUEvict

/-- `NewLRUEvict`: an empty list and an empty map. -/
def new : LRUEvict := ⟨[], ∅, 0⟩

/-- `PushFront(key)`, remembered as the element of `key`. -/
def afterWrite (p : LRUEvict) (key : Key) : LRUEvict :=
  ⟨⟨p.next, key⟩ :: p.order, p.elems.insert key p.next, p.next + 1⟩

/-- `MoveToFront(elem)`: an element that is not in the list is left alone. -/
def moveToFront (order : List Element) (id : ℕ) : List Element :=
  match order.find? fun e => e.id = id with
  | some e => e :: order.filter fun e => e.id ≠ id
  | none => order

/-- `AfterRead`: the element of the key, if there is one, is moved to the front. -/
def afterRead (p : LRUEvict) (key : Key) : LRUEvict :=
  match p.elems.lookup key with
  | some id => { p with order := moveToFront p.order id }
  | none => p

/-- Drop `key` from the order. -/
def forget (p : LRUEvict) (key : Key) : LRUEvict :=
  match p.elems.lookup key with
  | some id =>
    { p with order := p.order.filter fun e => e.id ≠ id, elems := p.elems.erase key }
  | none => p

/-- The loop of `LRUEvict.BeforeWrite`, `none` if it never ends.  A round either
shortens the list or leaves it and the map as they are, and after a round of the
second kind that does not end the loop every further one is the same; so a loop
that outlasts the length of the list runs forever. -/
def evictLoop (needed : ℤ) : ℕ → LRUEvict → Shard → Option (LRUEvict × Shard)
  | fuel, p, s =>
    if s.bytes + needed > s.budget then
      match p.order.getLast?, fuel with
      | none, _ => some (p, s)
      | some _, 0 => none
      | some tail, fuel + 1 => evictLoop needed fuel (p.forget tail.value) (s.evict tail.value)
    else some (p, s)

end LRUEvict

/-! ### Policies -/

/-- The three policies, with what each keeps: only `LRUEvict` has a state of its own. -/
inductive Policy
  | noEvict
  | samplingEvict
  | lruEvict (state : LRUEvict)

/-- The names `ByName` knows; any other is taken as `noevict`.  `relaxed` is the sampling policy
and `strict` the one that keeps a list of all keys. -/
inductive PolicyName
  | noevict
  | relaxed
  | strict
  deriving DecidableEq, Repr

/-- A fresh policy of that name. -/
def byName : PolicyName → Policy
  | .relaxed => .samplingEvict
  | .strict => .lruEvict .new
  | .noevict => .noEvict

namespace Policy

/-- Make room for `needed` more bytes, or refuse the write.  `none` stands for a
call that never returns. -/
def beforeWrite (ranges : ℕ → Range) (p : Policy) (s : Shard) (key : Key) (needed : ℤ) :
    Option (Bool × Policy × Shard) :=
  match p with
  | noEvict =>
    if s.budget = 0 then some (true, noEvict, s)
    else some (decide (s.bytes + needed ≤ s.budget), noEvict, s)
  | samplingEvict =>
    if s.budget = 0 then some (true, samplingEvict, s)
    else some (true, samplingEvict, sampleLoop ranges needed s.len s)
  | lruEvict p =>
    let p := p.forget key
    if s.budget = 0 then some (true, lruEvict p, s)
    else (p.evictLoop needed p.order.length s).map fun (p, s) => (true, lruEvict p, s)

/-- `AfterWrite` of whichever policy it is; only `LRUEvict` does anything. -/
def afterWrite (p : Policy) (key : Key) : Policy :=
  match p with
  | lruEvict p => lruEvict (p.afterWrite key)
  | p => p

/-- `AfterRead` of whichever policy it is; only `LRUEvict` does anything. -/
def afterRead (p : Policy) (key : Key) : Policy :=
  match p with
  | lruEvict p => lruEvict (p.afterRead key)
  | p => p

/-- `AfterDelete` of whichever policy it is; only `LRUEvict` does anything. -/
def afterDelete (p : Policy) (key : Key) : Policy :=
  match p with
  | lruEvict p => lruEvict (p.forget key)
  | p => p

/-- **Without a budget every write is let through,** and the shard is not
touched. -/
theorem beforeWrite_unlimited (ranges : ℕ → Range) (p : Policy) {s : Shard} (h : s.budget = 0)
    (key : Key) (needed : ℤ) :
    ∃ p', beforeWrite ranges p s key needed = some (true, p', s) := by
  cases p with
  | noEvict => exact ⟨_, if_pos h⟩
  | samplingEvict => exact ⟨_, if_pos h⟩
  | lruEvict p => exact ⟨_, if_pos h⟩

end Policy

end Eviction
end Keva
