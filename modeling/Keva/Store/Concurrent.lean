/-
# Calls in progress

`SetWithExpiry` and `Delete` append to the log under the log's mutex and then
change the shard under the shard's lock, and other calls may come in between.
`Compact` (`storage/wal/wal_compaction.go`, `storage/store/kv_store_util.go`) goes
through many more steps: it opens `<path>.tmp`, scans the shards one lock at a
time into a buffered writer, flushes and closes the file, and then, under the
mutex of the log, renames the file over the log and switches the handle.

`System` is a store with any number of such calls on their way, and `step` one
atomic step of one of them, of the sweeper or of the clock.  A clock reading is the
current time, that of a round of the sweeper an earlier one perhaps.  File
operations succeed, but for the rename of a file that is not there.  The temporary
file is shared by all compactions: opening it truncates it, each writes at its own
offset, and whoever renames first takes it along.
`Get` is left out: it changes nothing but the order a policy keeps.

What a state in between means is the content of the memory once the calls that
are in the log have all reached it (`settled`).
-/

import Keva.Lib.Reach
import Keva.Store.Restart

namespace Keva
namespace Store

open Eviction (Range)
open Expiry (Content Write visible AgreeFrom)

/-- Where a compaction stands: it scans the shards, it has closed its file, or an operation on
the file has failed. -/
inductive Phase
  | scanning
  | closed
  | failed
  deriving DecidableEq

/-- A compaction on its way: the temporary file it has open, its place in it, what
its writer still holds back, its clock reading, and the next shard. -/
structure Compaction where
  file : ℕ
  offset : ℕ
  buffer : Bytes
  now : Time
  next : ℕ
  phase : Phase
  deriving DecidableEq

/-- The bytes of a file after a write at `offset`; a gap is filled with zeros. -/
def writeAt (bytes : Bytes) (offset : ℕ) (data : Bytes) : Bytes :=
  (bytes ++ List.replicate (offset - bytes.length) 0).take offset ++ data ++
    bytes.drop (offset + data.length)

/-- The store, the identity of the file at `path`, which is the one the log's
handle is on, the file at `<path>.tmp`, calls that have appended and not yet
changed the memory, oldest first, and compactions. -/
structure System where
  kv : KVStore
  log : ℕ
  tmp : Option (ℕ × Bytes)
  nextFile : ℕ
  calls : List Call
  compactions : List Compaction
  clock : Time

/-- One atomic step; numbers pick one of the calls or compactions on their way. -/
inductive Action
  | tick (t : Time)
  | append (c : Call)
  | apply (j : ℕ) (ranges : ℕ → Range)
  | sweep (i : ℕ) (range : Range) (now : Time)
  | openTmp
  | scan (j : ℕ) (range : Range)
  | spill (j : ℕ) (n : ℕ)
  | close (j : ℕ)
  | swap (j : ℕ)
  | remove (j : ℕ)

/-- The action starts a compaction. -/
def Action.opensTmp : Action → Bool
  | .openTmp => true
  | _ => false

/-- The call an action begins. -/
def Action.call? : Action → Option Call
  | .append c => some c
  | _ => none

namespace System

/-- A write to the file a compaction has open, which by now may be the temporary
file, the log or neither. -/
def write (s : System) (file offset : ℕ) (data : Bytes) : System :=
  if file = s.log then
    { s with kv := { s.kv with wal := { s.kv.wal with file := writeAt s.kv.wal.file offset data } } }
  else
    match s.tmp with
    | some (id, bytes) =>
      if file = id then { s with tmp := some (id, writeAt bytes offset data) } else s
    | none => s

/-- The `j`-th compaction moves on. -/
def update (s : System) (j : ℕ) (c : Compaction) : System :=
  { s with compactions := s.compactions.set j c }

/-- One section of a call, or one file operation of a compaction, at a time.  An append takes its
place in the log and waits for its turn at the memory, in any order; a compaction scans shard by
shard, and takes the mutex of the log for the rename only. -/
def step (s : System) : Action → Option System
  | .tick t => if s.clock ≤ t then some { s with clock := t } else none
  | .append c => do
    -- A key without a shard takes the process down right after the append.
    let _ ← s.kv.getShard c.key
    return { s with kv := s.kv.append c.record, calls := s.calls ++ [c] }
  | .apply j ranges => do
    let c ← s.calls[j]?
    let (kv, _) ← c.applyTo ranges s.kv s.clock
    return { s with kv := kv, calls := s.calls.eraseIdx j }
  | .sweep i range now => do
    -- The sweeper reads the clock once for all shards.
    let shard ← s.kv.shards[i]?
    if now ≤ s.clock then return { s with kv := s.kv.setShard i (shard.sweep range now) } else none
  | .openTmp =>
    -- `O_CREATE|O_TRUNC`: a file that is there is emptied and shared.
    let file := (s.tmp.map Prod.fst).getD s.nextFile
    some { s with tmp := some (file, []), nextFile := s.nextFile + 1,
                  compactions := s.compactions ++ [⟨file, 0, [], s.clock, 0, .scanning⟩] }
  | .scan j range => do
    let c ← s.compactions[j]?
    let shard ← s.kv.shards[c.next]?
    if c.phase = .scanning then
      let records := shard.snapshot range c.now
      return s.update j { c with buffer := c.buffer ++ Wal.encodeAll records, next := c.next + 1 }
    else none
  | .spill j n => do
    let c ← s.compactions[j]?
    if c.phase = .scanning then
      let data := c.buffer.take n
      return (s.write c.file c.offset data).update j
        { c with offset := c.offset + data.length, buffer := c.buffer.drop n }
    else none
  | .close j => do
    let c ← s.compactions[j]?
    if c.phase = .scanning ∧ c.next = s.kv.shards.length then
      return (s.write c.file c.offset c.buffer).update j
        { c with offset := c.offset + c.buffer.length, buffer := [], phase := .closed }
    else none
  | .swap j => do
    let c ← s.compactions[j]?
    if c.phase = .closed then
      match s.tmp with
      | some (file, bytes) =>
        return { s with kv := { s.kv with wal := { s.kv.wal with file := bytes } }, log := file,
                        tmp := none, compactions := s.compactions.eraseIdx j }
      | none => return s.update j { c with phase := .failed }
    else none
  | .remove j => do
    let c ← s.compactions[j]?
    if c.phase = .failed then
      return { s with tmp := none, compactions := s.compactions.eraseIdx j }
    else none

/-- No call is on its way, neither a write nor a compaction. -/
def Idle (s : System) : Prop := s.calls = [] ∧ s.compactions = []

instance (s : System) : Decidable s.Idle := inferInstanceAs (Decidable (_ ∧ _))

/-- The store as it was opened, with whatever an earlier compaction left at
`<path>.tmp`. -/
def start (kv : KVStore) (stale : Option Bytes) (t : Time) : System :=
  ⟨kv, 0, stale.map fun bytes => (1, bytes), 2, [], [], t⟩

/-- The content of the memory once every call on its way has reached it, in the
order of the log. -/
def settled (s : System) : Content Key Bytes Time :=
  Expiry.replay (s.calls.map Call.write) s.kv.content

variable {s s' : System} {a : Action}

/-- A compaction begins with the temporary file. -/
theorem compactions_step (h : s.compactions = []) (ha : a.opensTmp = false)
    (hs : s.step a = some s') : s'.compactions = [] := by
  have hnone (j : ℕ) : s.compactions[j]? = none := by rw [h, List.getElem?_nil]
  cases a with
  | tick t =>
    simp only [step] at hs
    split_ifs at hs
    exact Option.some.inj hs ▸ h
  | append c =>
    obtain ⟨i, -, hs⟩ := Option.bind_eq_some_iff.1 hs
    exact Option.some.inj hs ▸ h
  | apply j ranges =>
    obtain ⟨c, -, hs⟩ := Option.bind_eq_some_iff.1 hs
    obtain ⟨kv', -, hs⟩ := Option.bind_eq_some_iff.1 hs
    exact Option.some.inj hs ▸ h
  | sweep i range now =>
    obtain ⟨shard, -, hs⟩ := Option.bind_eq_some_iff.1 hs
    split_ifs at hs
    exact Option.some.inj hs ▸ h
  | openTmp => cases ha
  | scan j | spill j | close j | swap j | remove j =>
    obtain ⟨x, hx, -⟩ := Option.bind_eq_some_iff.1 hs
    rw [hnone] at hx
    cases hx

/-- The calls on their way after an action. -/
def callsAfter (calls : List Call) : Action → List Call
  | .append c => calls ++ [c]
  | .apply j _ => calls.eraseIdx j
  | _ => calls

/-- A write to a file touches neither shards nor calls. -/
theorem write_frame (s : System) (file offset : ℕ) (data : Bytes) :
    (s.write file offset data).kv.shardCount = s.kv.shardCount ∧
      (s.write file offset data).calls = s.calls := by
  unfold write
  split_ifs
  · exact ⟨rfl, rfl⟩
  · split
    · split_ifs
      · exact ⟨rfl, rfl⟩
      · exact ⟨rfl, rfl⟩
    · exact ⟨rfl, rfl⟩

/-- What a step makes of the calls on their way; the number of shards stays. -/
theorem step_frame (hs : s.step a = some s') :
    s'.kv.shardCount = s.kv.shardCount ∧ s'.calls = callsAfter s.calls a := by
  cases a with
  | tick t =>
    simp only [step] at hs
    split_ifs at hs
    obtain rfl := Option.some.inj hs
    exact ⟨rfl, rfl⟩
  | append c =>
    obtain ⟨i, -, hs⟩ := Option.bind_eq_some_iff.1 hs
    obtain rfl := Option.some.inj hs
    exact ⟨rfl, rfl⟩
  | apply j ranges =>
    obtain ⟨c, -, hs⟩ := Option.bind_eq_some_iff.1 hs
    obtain ⟨⟨kv', e⟩, hr, hs⟩ := Option.bind_eq_some_iff.1 hs
    obtain rfl := Option.some.inj hs
    exact ⟨(Call.applyTo_shape hr).1, rfl⟩
  | sweep i range now =>
    obtain ⟨shard, -, hs⟩ := Option.bind_eq_some_iff.1 hs
    split_ifs at hs
    obtain rfl := Option.some.inj hs
    exact ⟨rfl, rfl⟩
  | openTmp =>
    obtain rfl := Option.some.inj hs
    exact ⟨rfl, rfl⟩
  | scan j range =>
    obtain ⟨x, -, hs⟩ := Option.bind_eq_some_iff.1 hs
    obtain ⟨shard, -, hs⟩ := Option.bind_eq_some_iff.1 hs
    split_ifs at hs
    obtain rfl := Option.some.inj hs
    exact ⟨rfl, rfl⟩
  | spill j n =>
    obtain ⟨x, -, hs⟩ := Option.bind_eq_some_iff.1 hs
    split_ifs at hs
    obtain rfl := Option.some.inj hs
    exact write_frame ..
  | close j =>
    obtain ⟨x, -, hs⟩ := Option.bind_eq_some_iff.1 hs
    split_ifs at hs
    obtain rfl := Option.some.inj hs
    exact write_frame ..
  | swap j =>
    obtain ⟨x, -, hs⟩ := Option.bind_eq_some_iff.1 hs
    split_ifs at hs
    split at hs
    · obtain rfl := Option.some.inj hs
      exact ⟨rfl, rfl⟩
    · obtain rfl := Option.some.inj hs
      exact ⟨rfl, rfl⟩
  | remove j =>
    obtain ⟨x, -, hs⟩ := Option.bind_eq_some_iff.1 hs
    split_ifs at hs
    obtain rfl := Option.some.inj hs
    exact ⟨rfl, rfl⟩

end System

end Store
end Keva
