/-
# The flusher

`storage/wal/wal_writer.go` in the mode `interval`: `append` hands the encoding of
its record to a goroutine through `writeCh`, and the goroutine, `runFlusher`,
collects encodings in a batch and writes them to the file when the ticker fires, when
the batch is full, and when `stopCh` is closed.  `Close` closes `stopCh` and waits for
the goroutine to return.

An encoding that was accepted is in the file, in the batch or in the channel, and
each step of the flusher either leaves all of them where they are in the queue or
writes the first one (`Flusher.step_eq_some`).  So nothing is lost, written twice or
out of order as long as the flusher runs (`Pipeline.lossless`).  When it stops it writes
its batch and not what is still in the channel: `Close` leaves out what the
channel holds at that moment (`Pipeline.close_loses_record`), and nothing else
(`Pipeline.file_of_drained`).
-/

import Keva.Lib.Reach
import Keva.Wal.Writer

namespace Keva
namespace Wal

/-! ### The goroutine -/

/-- Where `runFlusher` stands: at its `select`, inside `flush` with the first `i`
records of the batch written, or returned. -/
inductive FlusherPc
  | select
  | flushing (i : ℕ) (stopping : Bool)
  | stopped
  deriving DecidableEq, Repr

/-- The goroutine of `runFlusher`: its `batch`, the records that it has taken from the channel
and not yet written, and where it stands. -/
structure Flusher where
  batch : List Bytes
  pc : FlusherPc
  deriving DecidableEq, Repr

namespace Flusher

/-- What the goroutine may do next: take one of the cases of its `select`, or go on
with `flush`. -/
inductive Action
  | receive
  | tick
  | stop
  | write
  | sync
  deriving DecidableEq, Repr

/-- Where the loop goes on after `flush`. -/
def after (stopping : Bool) : FlusherPc := if stopping then .stopped else .select

/-- `flush`, up to the first write: an empty batch is not flushed. -/
def flush (f : Flusher) (stopping : Bool) : Flusher :=
  if f.batch = [] then { f with pc := after stopping } else { f with pc := .flushing 0 stopping }

/-- One step of the goroutine on the log.  The log's mutex is held from the first
write of a batch to the last. -/
def step (f : Flusher) (w : WAL) : Action → Option (Flusher × WAL)
  | .receive =>
    match f.pc, w.writeCh with
    | .select, data :: rest =>
      let f := { f with batch := f.batch ++ [data] }
      some (if w.options.maxBatchSize ≤ f.batch.length then f.flush false else f,
        { w with writeCh := rest })
    | _, _ => none
  | .tick => if f.pc = .select then some (f.flush false, w) else none
  | .stop => if f.pc = .select then some (f.flush true, w) else none
  | .write =>
    match f.pc with
    | .flushing i stopping => do
      let b ← f.batch[i]?
      return ({ f with pc := .flushing (i + 1) stopping }, { w with file := w.file ++ b })
    | _ => none
  | .sync =>
    match f.pc with
    | .flushing i stopping => if i = f.batch.length then some (⟨[], after stopping⟩, w) else none
    | _ => none

/-- What of the batch is not in the file yet. -/
def unwritten (f : Flusher) : List Bytes :=
  match f.pc with
  | .flushing i _ => f.batch.drop i
  | _ => f.batch

/-- The goroutine is between two writes of a batch, and holds the log's mutex. -/
def writing (f : Flusher) : Bool :=
  match f.pc with
  | .flushing (_ + 1) _ => true
  | _ => false

/-- What was accepted and is not in the file yet, in the order it will be written. -/
def waiting (f : Flusher) (w : WAL) : List Bytes := f.unwritten ++ w.writeCh

variable {f f' : Flusher} {w w' : WAL} {a : Action}

/-- Between two flushes nothing of the batch is in the file. -/
theorem unwritten_of_select (h : f.pc = .select) : f.unwritten = f.batch := by
  rw [unwritten, h]

/-- Nor is it when a flush begins. -/
theorem unwritten_flush (f : Flusher) (stopping : Bool) : (f.flush stopping).unwritten = f.batch := by
  unfold flush
  split_ifs with hempty
  · cases stopping <;> rfl
  · rfl

/-- An append joins the end of what waits. -/
theorem waiting_append (h : w.options.mode = .interval) (r : Record) :
    (w.append r).file = w.file ∧ f.waiting (w.append r) = f.waiting w ++ [r.encode] := by
  rw [WAL.append, if_pos h]
  exact ⟨rfl, (List.append_assoc ..).symm⟩

/-- **A step of the flusher** leaves the queue and the file as they are, or takes the
first record off the queue and writes it. -/
theorem step_eq_some (h : f.step w a = some (f', w')) :
    w'.options = w.options ∧
      (w'.file = w.file ∧ f'.waiting w' = f.waiting w ∨
        ∃ b, w'.file = w.file ++ b ∧ f.waiting w = b :: f'.waiting w') := by
  cases a with
  | receive =>
    simp only [step] at h
    split at h
    · rename_i data rest hpc hch
      obtain ⟨rfl, rfl⟩ := Prod.mk.inj (Option.some.inj h)
      refine ⟨rfl, Or.inl ⟨rfl, ?_⟩⟩
      unfold waiting
      rw [unwritten_of_select hpc, hch]
      split_ifs
      · rw [unwritten_flush]
        simp
      · have hbatch := unwritten_of_select (f := ⟨f.batch ++ [data], f.pc⟩) hpc
        rw [hbatch]
        simp
    · cases h
  | tick =>
    simp only [step] at h
    split_ifs at h with hpc
    obtain ⟨rfl, rfl⟩ := Prod.mk.inj (Option.some.inj h)
    refine ⟨rfl, Or.inl ⟨rfl, ?_⟩⟩
    rw [waiting, waiting, unwritten_flush, unwritten_of_select hpc]
  | stop =>
    simp only [step] at h
    split_ifs at h with hpc
    obtain ⟨rfl, rfl⟩ := Prod.mk.inj (Option.some.inj h)
    refine ⟨rfl, Or.inl ⟨rfl, ?_⟩⟩
    rw [waiting, waiting, unwritten_flush, unwritten_of_select hpc]
  | write =>
    simp only [step] at h
    split at h
    · rename_i i stopping hpc
      obtain ⟨b, hb, h⟩ := Option.bind_eq_some_iff.1 h
      obtain ⟨rfl, rfl⟩ := Prod.mk.inj (Option.some.inj h)
      obtain ⟨hlt, hget⟩ := List.getElem?_eq_some_iff.1 hb
      refine ⟨rfl, Or.inr ⟨b, rfl, ?_⟩⟩
      have hdrop : f.batch.drop i = b :: f.batch.drop (i + 1) := by
        rw [List.drop_eq_getElem_cons hlt, hget]
      simp only [waiting, unwritten, hpc, hdrop, List.cons_append]
    · cases h
  | sync =>
    simp only [step] at h
    split at h
    · rename_i i stopping hpc
      split_ifs at h with hi
      obtain ⟨rfl, rfl⟩ := Prod.mk.inj (Option.some.inj h)
      refine ⟨rfl, Or.inl ⟨rfl, ?_⟩⟩
      have hnil : f.batch.drop i = [] := by rw [hi, List.drop_length]
      have hbatch : (⟨[], after stopping⟩ : Flusher).unwritten = [] := by cases stopping <;> rfl
      rw [waiting, waiting, hbatch, unwritten, hpc]
      dsimp only
      rw [hnil]
    · cases h

/-- The goroutine has taken the case of `stopCh`. -/
def stops (f : Flusher) : Bool :=
  match f.pc with
  | .select => false
  | .flushing _ stopping => stopping
  | .stopped => true

/-- A flush that was begun by `Close` is the last. -/
theorem stops_flush (f : Flusher) (stopping : Bool) : (f.flush stopping).stops = stopping := by
  unfold flush
  split_ifs
  · cases stopping <;> rfl
  · rfl

/-- **The end of the flusher:** it begins with the case of `stopCh`, from then on
nothing is taken from the channel, and nothing is left in the batch when it returns. -/
theorem stops_of_step (h : f.step w a = some (f', w')) :
    f'.stops = (f.stops || decide (a = .stop)) ∧ (f'.stops = true → w'.writeCh = w.writeCh) ∧
      (f'.pc = .stopped → f'.batch = []) := by
  have hflush (f : Flusher) (stopping : Bool) :
      (f.flush stopping).pc = .stopped → (f.flush stopping).batch = [] := by
    unfold flush
    split_ifs with hempty
    · exact fun _ => hempty
    · exact False.elim
  cases a with
  | receive =>
    simp only [step] at h
    split at h
    · rename_i data rest hpc hch
      have hstops : f.stops = false := by rw [stops, hpc]
      obtain ⟨rfl, rfl⟩ := Prod.mk.inj (Option.some.inj h)
      split_ifs
      · rw [stops_flush, hstops]
        exact ⟨rfl, Bool.noConfusion, hflush _ false⟩
      · have hsame : (⟨f.batch ++ [data], f.pc⟩ : Flusher).stops = f.stops := rfl
        rw [hsame, hstops]
        refine ⟨rfl, Bool.noConfusion, fun hstop => ?_⟩
        rw [hpc] at hstop
        cases hstop
    · cases h
  | tick =>
    simp only [step] at h
    split_ifs at h with hpc
    have hstops : f.stops = false := by rw [stops, hpc]
    obtain ⟨rfl, rfl⟩ := Prod.mk.inj (Option.some.inj h)
    rw [stops_flush, hstops]
    exact ⟨rfl, fun _ => rfl, hflush f false⟩
  | stop =>
    simp only [step] at h
    split_ifs at h with hpc
    have hstops : f.stops = false := by rw [stops, hpc]
    obtain ⟨rfl, rfl⟩ := Prod.mk.inj (Option.some.inj h)
    rw [stops_flush, hstops]
    exact ⟨rfl, fun _ => rfl, hflush f true⟩
  | write =>
    simp only [step] at h
    split at h
    · rename_i i stopping hpc
      have hstops : f.stops = stopping := by rw [stops, hpc]
      obtain ⟨b, -, h⟩ := Option.bind_eq_some_iff.1 h
      obtain ⟨rfl, rfl⟩ := Prod.mk.inj (Option.some.inj h)
      rw [hstops]
      exact ⟨(Bool.or_false _).symm, fun _ => rfl, FlusherPc.noConfusion⟩
    · cases h
  | sync =>
    simp only [step] at h
    split at h
    · rename_i i stopping hpc
      have hstops : f.stops = stopping := by rw [stops, hpc]
      split_ifs at h
      obtain ⟨rfl, rfl⟩ := Prod.mk.inj (Option.some.inj h)
      rw [hstops]
      exact ⟨by cases stopping <;> rfl, fun _ => rfl, fun _ => rfl⟩
    · cases h

end Flusher

/-! ### Appenders, the goroutine and `Close` -/

/-- The log, its flusher, whether `stopCh` is closed and whether `Close` has returned.
`accepted` is read by no step: the records whose append has returned, in the order
the channel took them. -/
structure Pipeline where
  wal : WAL
  flusher : Flusher
  stopCh : Bool
  closed : Bool
  accepted : List Record

namespace Pipeline

/-- One step: the send of an append, into the buffer of the channel or, where it has
none, straight to the flusher; a step of the flusher; `Close` closing `stopCh`, and
returning. -/
inductive Action
  | append (r : Record)
  | handOver (r : Record)
  | flusher (a : Flusher.Action)
  | close
  | closed

/-- An append hands its record over where the channel has room, or, without a buffer, where the
flusher receives it at once; the flusher goes on; and `Close` first asks it to stop and later
finds that it has. -/
def step (s : Pipeline) : Action → Option Pipeline
  | .append r =>
    if s.wal.writeCh.length < s.wal.options.maxBatchSize * 2 then
      some { s with wal := s.wal.append r, accepted := s.accepted ++ [r] }
    else none
  | .handOver r =>
    if s.wal.options.maxBatchSize = 0 then do
      let (flusher, wal) ← s.flusher.step (s.wal.append r) .receive
      return { s with wal := wal, flusher := flusher, accepted := s.accepted ++ [r] }
    else none
  | .flusher a =>
    if a = .stop ∧ s.stopCh = false then none
    else do
      let (flusher, wal) ← s.flusher.step s.wal a
      return { s with wal := wal, flusher := flusher }
  | .close => if s.stopCh then none else some { s with stopCh := true }
  | .closed =>
    if s.stopCh ∧ s.flusher.pc = .stopped then some { s with closed := true } else none

/-- `Open` in the mode `interval`. -/
def start (file : Option Bytes) (flushInterval : ℤ) (maxBatchSize : ℕ) : Pipeline :=
  ⟨openLog file ⟨.interval, flushInterval, maxBatchSize⟩, ⟨[], .select⟩, false, false, []⟩

/-- Of the accepted records, the first ones are in the file behind what was there at
the start, and the others wait, each with all of its bytes. -/
structure Inv (bytes : Bytes) (s : Pipeline) : Prop where
  mode_eq : s.wal.options.mode = .interval
  queue : ∃ written rest, s.accepted = written ++ rest ∧ s.wal.file = bytes ++ encodeAll written ∧
    s.flusher.waiting s.wal = rest.map Record.encode

variable {bytes : Bytes} {s s' : Pipeline} {a : Action}

/-- An append joins the end of the queue. -/
theorem Inv.append (h : Inv bytes s) (r : Record) :
    Inv bytes { s with wal := s.wal.append r, accepted := s.accepted ++ [r] } := by
  obtain ⟨written, rest, hacc, hfile, hwait⟩ := h.queue
  obtain ⟨hsame, hqueued⟩ := Flusher.waiting_append (f := s.flusher) h.mode_eq r
  refine ⟨by rw [WAL.append_options]; exact h.mode_eq, written, rest ++ [r], ?_, ?_, ?_⟩
  · rw [hacc, List.append_assoc]
  · rw [hsame]
    exact hfile
  · rw [hqueued, hwait, List.map_append]
    rfl

/-- A step of the flusher. -/
theorem Inv.flusher (h : Inv bytes s) {a : Flusher.Action} {flusher : Flusher} {wal : WAL}
    (hs : s.flusher.step s.wal a = some (flusher, wal)) :
    Inv bytes { s with wal := wal, flusher := flusher } := by
  obtain ⟨written, rest, hacc, hfile, hwait⟩ := h.queue
  obtain ⟨hopts, ⟨hsame, hqueue⟩ | ⟨b, hwrite, hqueue⟩⟩ := Flusher.step_eq_some hs
  · exact ⟨hopts ▸ h.mode_eq, written, rest, hacc, hsame.trans hfile, hqueue.trans hwait⟩
  · -- The first of the records that waited is now the last of those written.
    rw [hqueue] at hwait
    obtain ⟨r, rest, rfl, rfl, hrest⟩ := List.map_eq_cons_iff.1 hwait.symm
    refine ⟨hopts ▸ h.mode_eq, written ++ [r], rest, by simpa using hacc, ?_, hrest.symm⟩
    rw [hwrite, hfile, encodeAll, encodeAll, List.flatMap_append, List.flatMap_singleton,
      List.append_assoc]

/-- **Every step keeps the queue:** records move from channel to batch to file and never pass
each other. -/
theorem Inv.step (h : Inv bytes s) (hs : s.step a = some s') : Inv bytes s' := by
  cases a with
  | append r =>
    simp only [Pipeline.step] at hs
    split_ifs at hs
    exact Option.some.inj hs ▸ h.append r
  | handOver r =>
    simp only [Pipeline.step] at hs
    split_ifs at hs
    obtain ⟨⟨flusher, wal⟩, hf, hs⟩ := Option.bind_eq_some_iff.1 hs
    exact Option.some.inj hs ▸ (h.append r).flusher hf
  | flusher a =>
    simp only [Pipeline.step] at hs
    split_ifs at hs
    obtain ⟨⟨flusher, wal⟩, hf, hs⟩ := Option.bind_eq_some_iff.1 hs
    exact Option.some.inj hs ▸ h.flusher hf
  | close =>
    simp only [Pipeline.step] at hs
    split_ifs at hs
    obtain rfl := Option.some.inj hs
    exact ⟨h.mode_eq, h.queue⟩
  | closed =>
    simp only [Pipeline.step] at hs
    split_ifs at hs
    obtain rfl := Option.some.inj hs
    exact ⟨h.mode_eq, h.queue⟩

/-- Nothing has been accepted. -/
theorem inv_start (file : Option Bytes) (flushInterval : ℤ) (maxBatchSize : ℕ) :
    Inv (file.getD []) (start file flushInterval maxBatchSize) :=
  ⟨rfl, [], [], rfl, (List.append_nil _).symm, rfl⟩

/-- **Nothing is lost, written twice or out of order.**  In every state the file holds
what it held at the start and then the first ones of the accepted records, and the
others wait in their order, none of them split.  Between two turns of the flusher's loop
those that wait are in the batch and in the channel. -/
theorem lossless {file : Option Bytes} {flushInterval : ℤ} {maxBatchSize : ℕ}
    (hs : Reach step (fun _ _ => True) (start file flushInterval maxBatchSize) s) :
    ∃ written rest, s.accepted = written ++ rest ∧
      s.wal.file = file.getD [] ++ encodeAll written ∧
      s.flusher.waiting s.wal = rest.map Record.encode ∧
      (s.flusher.pc = .select →
        s.flusher.batch ++ s.wal.writeCh = rest.map Record.encode ∧
          s.wal.file ++ s.flusher.batch.flatten ++ s.wal.writeCh.flatten =
            file.getD [] ++ encodeAll s.accepted) := by
  have hinv : Inv (file.getD []) s :=
    hs.invariant (inv_start file flushInterval maxBatchSize) fun _ _ _ h _ hstep => h.step hstep
  obtain ⟨written, rest, hacc, hfile, hwait⟩ := hinv.queue
  refine ⟨written, rest, hacc, hfile, hwait, fun hpc => ?_⟩
  rw [Flusher.waiting, Flusher.unwritten_of_select hpc] at hwait
  refine ⟨hwait, ?_⟩
  rw [List.append_assoc, ← List.flatten_append, hwait, hfile, hacc, encodeAll, encodeAll,
    List.flatMap_append, List.flatMap_def, List.flatMap_def, List.append_assoc]

/-- Three records and room for two: the first two are flushed, the third one waits. -/
def threeAppends : List Action :=
  [.append (.ofDelete [1]), .append (.ofDelete [2]), .flusher .receive, .append (.ofDelete [3]),
    .flusher .receive, .flusher .write, .flusher .write, .flusher .sync, .flusher .tick]

/-- Two records are behind what the file had, and the third is in the channel. -/
theorem lossless_threeAppends :
    ∃ s ∈ runAll step (fun _ _ => True) (start (some [7]) 500 2) threeAppends,
      s.wal.file = 7 :: encodeAll [.ofDelete [1], .ofDelete [2]] ∧
        s.wal.file ++ s.flusher.batch.flatten ++ s.wal.writeCh.flatten =
          [7] ++ encodeAll s.accepted := by
  have hrun : ∃ s ∈ runAll step (fun _ _ => True) (start (some [7]) 500 2) threeAppends,
      s.wal.file = 7 :: encodeAll [.ofDelete [1], .ofDelete [2]] ∧ s.flusher.pc = .select := by
    decide +kernel
  obtain ⟨s, hs, hfile, hpc⟩ := hrun
  obtain ⟨written, rest, -, -, -, hselect⟩ := lossless (reach_of_runAll hs)
  exact ⟨s, hs, hfile, (hselect hpc).2⟩

/-! ### `Close` -/

/-- `Close` comes after the appends. -/
def Orderly (s : Pipeline) : Action → Prop
  | .append _ | .handOver _ => s.stopCh = false
  | _ => True

/-- The flusher takes the case of `stopCh` only when the channel is empty. -/
def Drained (s : Pipeline) : Action → Prop
  | .flusher .stop => s.wal.writeCh = []
  | _ => True

instance (s : Pipeline) (a : Action) : Decidable (s.Orderly a) := by
  unfold Orderly
  cases a <;> infer_instance

instance (s : Pipeline) (a : Action) : Decidable (s.Drained a) := by
  unfold Drained
  split <;> infer_instance

/-- Once the flusher stops, the channel is empty for good; when it has stopped, its batch is
empty too. -/
structure Stopping (s : Pipeline) : Prop where
  drained : s.flusher.stops = true → s.stopCh = true ∧ s.wal.writeCh = []
  empty : s.flusher.pc = .stopped → s.flusher.batch = []
  stopped : s.closed = true → s.flusher.pc = .stopped

/-- A step of the flusher that finds the channel empty if it is the one to stop. -/
theorem Stopping.flusher (h : Stopping s) {a : Flusher.Action} {flusher : Flusher} {wal : WAL}
    (hstop : a = .stop → s.stopCh = true ∧ s.wal.writeCh = [])
    (hs : s.flusher.step s.wal a = some (flusher, wal)) :
    Stopping { s with wal := wal, flusher := flusher } := by
  obtain ⟨hstops, hch, hempty⟩ := Flusher.stops_of_step hs
  refine ⟨fun hst => ?_, hempty, fun hclosed => ?_⟩
  · have hsame := hch hst
    change flusher.stops = true at hst
    rw [hstops, Bool.or_eq_true, decide_eq_true_iff] at hst
    change s.stopCh = true ∧ wal.writeCh = []
    rw [hsame]
    exact hst.elim h.drained hstop
  · -- A flusher that has returned takes no step.
    have hpc := h.stopped hclosed
    cases a <;> simp [Flusher.step, hpc] at hs

/-- **Every orderly step keeps it,** where the flusher sees the stop only after the channel is
empty. -/
theorem Stopping.step (h : Stopping s) (hord : s.Orderly a) (hdr : s.Drained a)
    (hs : s.step a = some s') : Stopping s' := by
  cases a with
  | append r =>
    simp only [Pipeline.step] at hs
    split_ifs at hs
    obtain rfl := Option.some.inj hs
    refine ⟨fun hst => ?_, h.empty, h.stopped⟩
    have hopen : s.stopCh = false := hord
    rw [(h.drained hst).1] at hopen
    cases hopen
  | handOver r =>
    simp only [Pipeline.step] at hs
    split_ifs at hs
    obtain ⟨⟨flusher, wal⟩, hf, hs⟩ := Option.bind_eq_some_iff.1 hs
    obtain rfl := Option.some.inj hs
    have hopen : s.stopCh = false := hord
    obtain ⟨hstops, -, hempty⟩ := Flusher.stops_of_step hf
    have hrun : s.flusher.stops = false := by
      by_contra hst
      rw [(h.drained (Bool.eq_true_of_not_eq_false hst)).1] at hopen
      cases hopen
    refine ⟨fun hst => ?_, hempty, fun hclosed => ?_⟩
    · change flusher.stops = true at hst
      rw [hstops, hrun] at hst
      cases hst
    · have hpc := h.stopped hclosed
      rw [Flusher.stops, hpc] at hrun
      cases hrun
  | flusher a =>
    simp only [Pipeline.step] at hs
    split_ifs at hs with hstop
    obtain ⟨⟨flusher, wal⟩, hf, hs⟩ := Option.bind_eq_some_iff.1 hs
    obtain rfl := Option.some.inj hs
    refine h.flusher (fun ha => ?_) hf
    subst ha
    exact ⟨Bool.eq_true_of_not_eq_false fun hopen => hstop ⟨rfl, hopen⟩, hdr⟩
  | close =>
    simp only [Pipeline.step] at hs
    split_ifs at hs
    obtain rfl := Option.some.inj hs
    exact ⟨fun hst => ⟨rfl, (h.drained hst).2⟩, h.empty, h.stopped⟩
  | closed =>
    simp only [Pipeline.step] at hs
    split_ifs at hs with hpc
    obtain rfl := Option.some.inj hs
    exact ⟨h.drained, h.empty, fun _ => hpc.2⟩

/-- **`Close` leaves everything in the file,** if the channel is empty when the flusher
takes the case of `stopCh`. -/
theorem file_of_drained {file : Option Bytes} {flushInterval : ℤ} {maxBatchSize : ℕ}
    (hs : Reach step (fun s a => s.Orderly a ∧ s.Drained a)
      (start file flushInterval maxBatchSize) s) (hclosed : s.closed = true) :
    s.wal.file = file.getD [] ++ encodeAll s.accepted := by
  have hboth : Inv (file.getD []) s ∧ Stopping s :=
    hs.invariant (P := fun s => Inv (file.getD []) s ∧ Stopping s)
      ⟨inv_start file flushInterval maxBatchSize,
        ⟨Bool.noConfusion, FlusherPc.noConfusion, Bool.noConfusion⟩⟩
      fun _ _ _ h hok hstep => ⟨h.1.step hstep, h.2.step hok.1 hok.2 hstep⟩
  obtain ⟨hinv, hstop⟩ := hboth
  obtain ⟨written, rest, hacc, hfile, hwait⟩ := hinv.queue
  have hpc := hstop.stopped hclosed
  have hch : s.wal.writeCh = [] := (hstop.drained (by rw [Flusher.stops, hpc])).2
  rw [Flusher.waiting, Flusher.unwritten, hpc] at hwait
  dsimp only at hwait
  rw [hstop.empty hpc, hch] at hwait
  obtain rfl : rest = [] := List.map_eq_nil_iff.1 hwait.symm
  rw [hfile, hacc, List.append_nil]

/-- A record that the flusher has received when it stops. -/
def receiveThenStop : List Action :=
  [.append (.ofDelete [1]), .close, .flusher .receive, .flusher .stop, .flusher .write,
    .flusher .sync, .closed]

/-- The flusher received the record before it stopped, and so the file has it. -/
theorem file_of_drained_receiveThenStop :
    ∃ s ∈ runAll step (fun s a => s.Orderly a ∧ s.Drained a) (start none 500 2) receiveThenStop,
      s.accepted = [.ofDelete [1]] ∧ s.wal.file = [] ++ encodeAll s.accepted := by
  have hrun : ∃ s ∈ runAll step (fun s a => s.Orderly a ∧ s.Drained a) (start none 500 2)
      receiveThenStop, s.closed = true ∧ s.accepted = [.ofDelete [1]] := by
    decide +kernel
  obtain ⟨s, hs, hclosed, hacc⟩ := hrun
  exact ⟨s, hs, hacc, file_of_drained (reach_of_runAll hs) hclosed⟩

/-- A record that is still in the channel when the flusher stops. -/
def stopFirst : List Action := [.append (.ofDelete [1]), .close, .flusher .stop, .closed]

/-- **`Close` loses a record.**  Its append has returned, `Close` has returned, and
the file is empty. -/
theorem close_loses_record :
    ∃ s ∈ runAll step (fun s a => s.Orderly a) (start none 500 2) stopFirst,
      s.closed = true ∧ s.accepted = [.ofDelete [1]] ∧ s.wal.file = [] := by
  decide +kernel

end Pipeline

end Wal
end Keva
