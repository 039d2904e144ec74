/-
# Writing the log

`storage/wal/wal_options.go` and `storage/wal/wal_writer.go`: `SyncMode`,
`Options`, `WAL`, `Open`, `AppendSet`, `AppendDelete`, `append`; and what a
completed `Compact` of `storage/wal/wal_compaction.go` leaves behind.

In the modes `always` and `none` an append is in the file when it returns; in
the mode `interval` it is handed to the flusher through `writeCh`.  Either way
`contents` is the log once everything accepted has reached the file.  As long as
what is appended fits the format (`Readable`), an append adds exactly one
encoding to it, and all of it can be read.  Writes to the file succeed here.
-/

import Keva.Wal.Replay

namespace Keva
namespace Wal

/-- How quickly an append reaches the disk.  A mode of any other name behaves as
`none`. -/
inductive SyncMode
  | always
  | interval
  | none
  deriving DecidableEq, Repr

/-- The interval between two flushes and the size of a batch matter to the
flusher only. -/
structure Options where
  mode : SyncMode
  flushInterval : ℤ
  maxBatchSize : ℕ
  deriving DecidableEq, Repr

/-- The open log: the file at `path`, and the encoded records waiting for the
flusher. -/
structure WAL where
  options : Options
  file : Bytes
  writeCh : List Bytes

/-- `Open`: a missing file is created. -/
def openLog (file : Option Bytes) (options : Options) : WAL := ⟨options, file.getD [], []⟩

namespace WAL

/-- `append`: in the mode `interval` the record is handed to the flusher, and in the others it is
in the file when the call returns. -/
def append (w : WAL) (r : Record) : WAL :=
  if w.options.mode = .interval then { w with writeCh := w.writeCh ++ [r.encode] }
  else { w with file := w.file ++ r.encode }

/-- `AppendSet`. -/
def appendSet (w : WAL) (key : Key) (value : Bytes) (expiresAt : Time) : WAL :=
  w.append (.ofSet key value expiresAt)

/-- `AppendDelete`. -/
def appendDelete (w : WAL) (key : Key) : WAL := w.append (.ofDelete key)

/-- `Compact`, run to its end: the file holds the records of the snapshot and
nothing else. -/
def compact (w : WAL) (snapshot : List Record) : WAL := { w with file := encodeAll snapshot }

/-- The flusher writes the first `n` records that wait for it. -/
def flush (w : WAL) (n : ℕ) : WAL :=
  { w with file := w.file ++ (w.writeCh.take n).flatten, writeCh := w.writeCh.drop n }

/-- Everything the log has accepted, in the order it will stand in the file. -/
def contents (w : WAL) : Bytes := w.file ++ w.writeCh.flatten

/-- Nothing changes the options. -/
@[simp] theorem append_options (w : WAL) (r : Record) : (w.append r).options = w.options := by
  unfold append
  split_ifs <;> rfl

/-- Without a flusher the file grows by the record. -/
theorem append_file {w : WAL} (h : w.options.mode ≠ .interval) (r : Record) :
    (w.append r).file = w.file ++ r.encode := by
  rw [append, if_neg h]

/-- Flushing moves records from the queue to the file and changes nothing in the
log as a whole. -/
@[simp] theorem contents_flush (w : WAL) (n : ℕ) : (w.flush n).contents = w.contents := by
  unfold contents flush
  rw [List.append_assoc, ← List.flatten_append, List.take_append_drop]

/-- Where nothing waits, a flush does nothing. -/
theorem flush_of_writeCh_eq_nil {w : WAL} (h : w.writeCh = []) (n : ℕ) : w.flush n = w := by
  cases w
  subst h
  simp [flush]

/-- A log in which everything can be read: nothing waits for a flusher unless
there is one, and what waits are records that fit. -/
structure Readable (w : WAL) : Prop where
  settled : w.options.mode ≠ .interval → w.writeCh = []
  file : (replay w.file).2 = none
  queue : ∃ rs : List Record, (∀ r ∈ rs, r.Fits) ∧ w.writeCh = rs.map Record.encode

/-- A log that can be replayed is readable when it has been opened, with nothing waiting. -/
theorem readable_openLog {file : Option Bytes} (h : (replay (file.getD [])).2 = none)
    (options : Options) : (openLog file options).Readable :=
  ⟨fun _ => rfl, h, [], by simp, rfl⟩

variable {w : WAL} {r : Record}

/-- **An append adds one encoding to the log,** be it to the file at once or to what waits for
it. -/
theorem Readable.contents_append (h : w.Readable) (r : Record) :
    (w.append r).contents = w.contents ++ r.encode := by
  unfold contents append
  split_ifs with hm
  · simp
  · simp [h.settled hm]

/-- A record within the format keeps the log readable, be it written at once or left to the
flusher. -/
theorem Readable.append (h : w.Readable) (hr : r.Fits) : (w.append r).Readable := by
  obtain ⟨rs, hrs, hq⟩ := h.queue
  unfold WAL.append
  split_ifs with hm
  · refine ⟨fun hne => absurd hm hne, h.file, rs ++ [r], ?_, ?_⟩
    · intro x hx
      rcases List.mem_append.1 hx with hx | hx
      · exact hrs x hx
      · rwa [List.mem_singleton.1 hx]
    · rw [hq, List.map_append]
      rfl
  · refine ⟨h.settled, ?_, rs, hrs, hq⟩
    change (replay (w.file ++ r.encode)).2 = none
    rw [replay_append_encode h.file hr]

/-- The log cannot tell a record from the one with the wrapped expiry. -/
theorem append_wrapExpiry (w : WAL) (r : Record) : w.append r.wrapExpiry = w.append r := by
  unfold append
  rw [r.encode_wrapExpiry]

/-- A record keeps the log readable if its lengths fit, whatever its expiry is read back
as. -/
theorem Readable.append_of_lengthsFit (h : w.Readable) (hr : r.LengthsFit) :
    (w.append r).Readable :=
  append_wrapExpiry w r ▸ h.append hr.fits_wrapExpiry

/-- What is flushed was counted as part of the log before. -/
theorem Readable.flush (h : w.Readable) (n : ℕ) : (w.flush n).Readable := by
  obtain ⟨rs, hrs, hq⟩ := h.queue
  have htake : (w.writeCh.take n).flatten = encodeAll (rs.take n) := by
    rw [hq, ← List.map_take, encodeAll, List.flatMap_def]
  refine ⟨fun hm => ?_, ?_, rs.drop n, fun x hx => hrs x (List.mem_of_mem_drop hx), ?_⟩
  · simp [WAL.flush, h.settled hm]
  · change (replay (w.file ++ (w.writeCh.take n).flatten)).2 = none
    rw [replay_append h.file, htake, replay_encodeAll fun x hx => hrs x (List.mem_of_mem_take hx)]
  · rw [List.map_drop, ← hq]
    rfl

/-- A snapshot of records within the format is a readable log. -/
theorem Readable.compact (h : w.Readable) {snapshot : List Record} (hs : ∀ r ∈ snapshot, r.Fits) :
    (w.compact snapshot).Readable :=
  ⟨h.settled, by rw [WAL.compact, replay_encodeAll hs], h.queue⟩

/-- A compaction keeps the log readable if the lengths of what it writes fit. -/
theorem Readable.compact_of_lengthsFit (h : w.Readable) {snapshot : List Record}
    (hs : ∀ r ∈ snapshot, r.LengthsFit) : (w.compact snapshot).Readable := by
  have hfits : ∀ r ∈ snapshot.map Record.wrapExpiry, r.Fits :=
    List.forall_mem_map.2 fun r hr => (hs r hr).fits_wrapExpiry
  have hencode : encodeAll (snapshot.map Record.wrapExpiry) = encodeAll snapshot := by
    simp only [encodeAll, List.flatMap_map, Record.encode_wrapExpiry]
  have hcompact := h.compact hfits
  rwa [WAL.compact, hencode] at hcompact

/-- **A readable log can be read to its end,** also the part that waits. -/
theorem Readable.contents (h : w.Readable) : (replay w.contents).2 = none := by
  obtain ⟨rs, hrs, hq⟩ := h.queue
  have hflat : w.writeCh.flatten = encodeAll rs := by rw [hq, encodeAll, List.flatMap_def]
  rw [WAL.contents, replay_append h.file, hflat, replay_encodeAll hrs]

end WAL

end Wal
end Keva
