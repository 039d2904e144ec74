/-
# Appends that fail

`storage/wal/wal_writer.go`: `append` in the modes `always` and `none`, where the write
to the file may store only the first bytes of a record and return an error.  `append`
then returns the error and leaves those bytes where they are, and the next record is
written right behind them.

The records of a log stand back to back, so `Replay` takes the bytes of a record cut
short for the beginning of one that goes on in what follows.  A record that was
acknowledged afterwards is not handed to `apply` (`failed_append_hides_record`).  As long
as no append is acknowledged behind a record cut short, `Replay` hands over all of those
that were, in order (`handedOver_of_whole`).
-/

import Keva.Lib.Reach
import Keva.Wal.Writer
import Mathlib.Data.List.Forall2

namespace Keva
namespace Wal

/-- `append` outside the mode `interval` when the write stores `n` bytes of the record
and fails. -/
def WAL.appendFailed (w : WAL) (r : Record) (n : ℕ) : WAL :=
  { w with file := w.file ++ r.encode.take n }

/-- The log under appends that may fail.  The two other fields are read by no step:
`acknowledged` are the records whose append returned no error, in order, and `torn`
says that a record is cut short somewhere in the file. -/
structure Appends where
  wal : WAL
  acknowledged : List Record
  torn : Bool

namespace Appends

/-- An append that returns no error, and one that stores `n` bytes and fails. -/
inductive Action
  | append (r : Record)
  | fail (r : Record) (n : ℕ)

/-- A write cuts no record short when it stores nothing, or all of a record that fits. -/
def cuts (r : Record) (n : ℕ) : Bool := !decide (n = 0 ∨ r.encode.length ≤ n ∧ r.Fits)

/-- An append that returns no error is acknowledged; one that fails leaves the part of its record
that was written in the file. -/
def step (s : Appends) : Action → Option Appends
  | .append r => some { s with wal := s.wal.append r, acknowledged := s.acknowledged ++ [r] }
  | .fail r n => some { s with wal := s.wal.appendFailed r n, torn := s.torn || cuts r n }

/-- `Open` on a log, which may itself end inside a record. -/
def start (file : Option Bytes) (options : Options) : Appends :=
  ⟨openLog file options, [], (replayFile file).2.isSome⟩

/-- `Replay` of the file hands to `apply` every acknowledged record, in order; an error
can only come after all of what it hands over. -/
def HandedOver (s : Appends) : Prop :=
  ∃ rs, rs.Sublist (replay s.wal.file).1 ∧ List.Forall₂ SameRecord s.acknowledged rs

/-- An append is acknowledged only for a record that fits, and only while no record is
cut short in the file. -/
def Whole (s : Appends) : Action → Prop
  | .append r => s.torn = false ∧ r.Fits
  | .fail _ _ => True

instance (s : Appends) (a : Action) : Decidable (s.Whole a) := by
  unfold Whole
  cases a <;> infer_instance

/-- The file is read to its end unless a record is cut short, and in any case as far as
the last acknowledged record. -/
structure Inv (s : Appends) : Prop where
  mode_ne : s.wal.options.mode ≠ .interval
  whole : s.torn = false → (replay s.wal.file).2 = none
  read : (s.acknowledged.map Record.readBack).Sublist (replay s.wal.file).1

variable {s s' : Appends} {a : Action}

/-- A write that cuts no record short leaves a log that can be read to its end. -/
theorem replay_append_take_of_not_cuts {f : Bytes} (h : (replay f).2 = none) {r : Record} {n : ℕ}
    (hcuts : cuts r n = false) : (replay (f ++ r.encode.take n)).2 = none := by
  rw [cuts, Bool.not_eq_false', decide_eq_true_iff] at hcuts
  rcases hcuts with rfl | ⟨hlen, hfits⟩
  · simpa using h
  · rw [List.take_of_length_le hlen, replay_append_encode h hfits]

/-- **Every step keeps it,** where nothing is acknowledged behind a record that is cut short. -/
theorem Inv.step (h : Inv s) (hok : s.Whole a) (hs : s.step a = some s') : Inv s' := by
  cases a with
  | append r =>
    obtain rfl := Option.some.inj hs
    obtain ⟨hwhole, hfits⟩ := hok
    have hfile : (s.wal.append r).file = s.wal.file ++ r.encode := WAL.append_file h.mode_ne r
    have hreplay := replay_append_encode (h.whole hwhole) hfits
    refine ⟨?_, ?_, ?_⟩
    · rw [WAL.append_options]
      exact h.mode_ne
    · intro _
      change (replay (s.wal.append r).file).2 = none
      rw [hfile, hreplay]
    · change ((s.acknowledged ++ [r]).map Record.readBack).Sublist (replay (s.wal.append r).file).1
      rw [hfile, hreplay, List.map_append]
      exact h.read.append (List.Sublist.refl _)
  | fail r n =>
    obtain rfl := Option.some.inj hs
    refine ⟨h.mode_ne, ?_, ?_⟩
    · intro htorn
      obtain ⟨htorn, hcuts⟩ := Bool.or_eq_false_iff.1 htorn
      exact replay_append_take_of_not_cuts (h.whole htorn) hcuts
    · exact h.read.trans (replay_prefix_append _ _).sublist

/-- A log that has just been opened. -/
theorem inv_start (file : Option Bytes) {options : Options} (hmode : options.mode ≠ .interval) :
    Inv (start file options) :=
  ⟨hmode, fun h => Option.isNone_iff_eq_none.1 (Option.isSome_eq_false_iff.1 h),
    List.nil_sublist _⟩

/-- **A failed append does no harm to the others** if it stores nothing, or all of its
record, or if none of the later ones is acknowledged. -/
theorem handedOver_of_whole {file : Option Bytes} {options : Options}
    (hmode : options.mode ≠ .interval)
    (hs : Reach step (fun s a => s.Whole a) (start file options) s) : s.HandedOver := by
  have hinv : Inv s := hs.invariant (inv_start file hmode) fun _ _ _ h hok hstep => h.step hok hstep
  refine ⟨_, hinv.read, ?_⟩
  rw [List.forall₂_map_right_iff, List.forall₂_same]
  exact fun r _ => r.sameRecord_readBack

/-- A failed append that stored nothing, between two that are acknowledged, and at the
end one that is cut short. -/
def failBetween : List Action :=
  [.append (.ofSet [1] [2] 100), .fail (.ofSet [3] [4] 100) 0, .append (.ofDelete [5]),
    .fail (.ofDelete [1]) 3]

/-- One append fails and writes nothing, and the last one writes a part of its record; the two
that were acknowledged are handed over. -/
theorem handedOver_of_whole_failBetween :
    ∃ s ∈ runAll step (fun s a => s.Whole a) (start none ⟨.always, 0, 0⟩) failBetween,
      s.acknowledged = [.ofSet [1] [2] 100, .ofDelete [5]] ∧ s.HandedOver := by
  have hrun : ∃ s ∈ runAll step (fun s a => s.Whole a) (start none ⟨.always, 0, 0⟩) failBetween,
      s.acknowledged = [.ofSet [1] [2] 100, .ofDelete [5]] := by
    decide +kernel
  obtain ⟨s, hs, hack⟩ := hrun
  exact ⟨s, hs, hack, handedOver_of_whole (by decide) (reach_of_runAll hs)⟩

/-- **A failed append hides the one after it.**  Three bytes of the first record are in
the file, and `Replay` takes the second one, which was acknowledged, for the rest of the
first. -/
theorem failed_append_hides_record :
    ∃ s ∈ runAll step (fun _ _ => True) (start none ⟨.always, 0, 0⟩)
        [.fail (.ofSet [1] [2] 100) 3, .append (.ofDelete [5])],
      s.acknowledged = [.ofDelete [5]] ∧ replay s.wal.file = ([], some .unexpectedEOF) ∧
        ¬ s.HandedOver := by
  have hrun : ∃ s ∈ runAll step (fun _ _ => True) (start none ⟨.always, 0, 0⟩)
        [.fail (.ofSet [1] [2] 100) 3, .append (.ofDelete [5])],
      s.acknowledged = [.ofDelete [5]] ∧ replay s.wal.file = ([], some .unexpectedEOF) := by
    decide +kernel
  obtain ⟨s, hs, hack, hreplay⟩ := hrun
  refine ⟨s, hs, hack, hreplay, ?_⟩
  rintro ⟨rs, hrs, hsame⟩
  rw [hreplay] at hrs
  obtain rfl := List.sublist_nil.1 hrs
  rw [hack] at hsame
  cases hsame

end Appends

end Wal
end Keva
