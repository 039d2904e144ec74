/-
# Reading the log back

`storage/wal/wal_replay.go`: `Replay`.

`replay` is what `Replay` does with the bytes of a file: the records it hands to
`apply`, in order, and the error it returns.  Every record takes at least its
header off the file, so a loop bounded by the length of the file always reaches
the end of it; `replay_eq` is the loop without the bound.

A log that was only ever appended to is the concatenation of the encodings of
its records.  `replay_of_isPrefix` says what `Replay` makes of any initial part
of it, wherever the cut falls: the records that are wholly there, and an
unexpected end of file exactly when something is left over.
-/

import Keva.Wal.Record

namespace Keva
namespace Wal

open Bytes

/-- `readRecord` until the file ends or a record fails, at most `fuel` times. -/
def replayLoop : ℕ → Bytes → List Record × Option ReadError
  | 0, _ => ([], none)
  | fuel + 1, r =>
    match readRecord r with
    | .error .eof => ([], none)
    | .error e => ([], some e)
    | .ok (rec, r) => (rec :: (replayLoop fuel r).1, (replayLoop fuel r).2)

/-- The records `Replay` hands to `apply` and the error it returns, for a file
holding `bytes`. -/
def replay (bytes : Bytes) : List Record × Option ReadError := replayLoop (bytes.length + 1) bytes

/-- `Replay` on a path: a missing file is an empty log. -/
def replayFile (file : Option Bytes) : List Record × Option ReadError := replay (file.getD [])

/-- More fuel than bytes makes no difference, since every record takes some. -/
theorem replayLoop_eq_replay {fuel : ℕ} {r : Bytes} (h : r.length < fuel) :
    replayLoop fuel r = replay r := by
  have key : ∀ n m (r : Bytes), r.length < n → r.length < m → replayLoop n r = replayLoop m r := by
    intro n
    induction n with
    | zero => intro m r hn; omega
    | succ n ih =>
      intro m r hn hm
      obtain ⟨m, rfl⟩ : ∃ m', m = m' + 1 := ⟨m - 1, by omega⟩
      unfold replayLoop
      split
      · rfl
      · rfl
      · rename_i rec rest hread
        have hlt : rest.length + 15 ≤ r.length := length_of_readRecord hread
        rw [ih m rest (by omega) (by omega)]
  exact key _ _ r h (Nat.lt_succ_self _)

/-- **The loop of `Replay`,** without a bound on its iterations: every record that is read is
longer than nothing, so that the bound is never met. -/
theorem replay_eq (r : Bytes) :
    replay r = match readRecord r with
      | .error .eof => ([], none)
      | .error e => ([], some e)
      | .ok (rec, rest) => (rec :: (replay rest).1, (replay rest).2) := by
  conv_lhs => rw [replay, replayLoop]
  split
  · rfl
  · rfl
  · rename_i rec rest hread
    have hlt : rest.length + 15 ≤ r.length := length_of_readRecord hread
    rw [replayLoop_eq_replay (by omega)]

/-- An empty file has no records, and ends well. -/
@[simp] theorem replay_nil : replay [] = ([], none) := rfl

/-- **A log that was read to its end may be appended to:** what follows it is
read as if it stood alone. -/
theorem replay_append {f : Bytes} (h : (replay f).2 = none) (g : Bytes) :
    replay (f ++ g) = ((replay f).1 ++ (replay g).1, (replay g).2) := by
  induction hn : f.length using Nat.strong_induction_on generalizing f with
  | _ n ih =>
    rw [replay_eq f] at h ⊢
    split at h
    · rename_i heof
      obtain rfl := eq_nil_of_readRecord_eof heof
      simp
    · cases h
    · rename_i rec rest hread
      have hlt : rest.length + 15 ≤ f.length := length_of_readRecord hread
      rw [replay_eq, readRecord_append hread]
      simp only [ih _ (by omega) h rfl, List.cons_append]

/-- **What follows a log takes no record from it:** the records read from a file are
still the first ones read when more bytes stand behind it, whatever they are. -/
theorem replay_prefix_append (f g : Bytes) : (replay f).1 <+: (replay (f ++ g)).1 := by
  induction hn : f.length using Nat.strong_induction_on generalizing f with
  | _ n ih =>
    rw [replay_eq f]
    split
    · exact List.nil_prefix
    · exact List.nil_prefix
    · rename_i rec rest hread
      have hlt : rest.length + 15 ≤ f.length := length_of_readRecord hread
      rw [replay_eq (f ++ g), readRecord_append hread]
      exact List.cons_prefix_cons.2 ⟨rfl, ih _ (by omega) rest rfl⟩

/-- What the fields of a record read from a log can be. -/
theorem bounds_of_mem_replay {f : Bytes} {r : Record} (h : r ∈ (replay f).1) :
    r.key.length ≤ 65535 ∧ r.value.length < 2 ^ 32 ∧ FitsInt64 r.expiresAt := by
  induction hn : f.length using Nat.strong_induction_on generalizing f with
  | _ n ih =>
    rw [replay_eq f] at h
    split at h
    · cases h
    · cases h
    · rename_i rec rest hread
      have hlt : rest.length + 15 ≤ f.length := length_of_readRecord hread
      rcases List.mem_cons.1 h with rfl | h
      · exact bounds_of_readRecord hread
      · exact ih _ (by omega) h rfl

/-- The encodings of the records, one after the other. -/
def encodeAll (rs : List Record) : Bytes := rs.flatMap Record.encode

/-- No records, no bytes. -/
@[simp] theorem encodeAll_nil : encodeAll [] = [] := rfl

/-- Records stand one behind the other. -/
@[simp] theorem encodeAll_cons (r : Record) (rs : List Record) :
    encodeAll (r :: rs) = r.encode ++ encodeAll rs := rfl

/-- **A record in front of a log** is replayed first, and the rest as it would be alone. -/
theorem replay_encode_append {r : Record} (h : r.Fits) (rest : Bytes) :
    replay (r.encode ++ rest) = (r.readBack :: (replay rest).1, (replay rest).2) := by
  rw [replay_eq, readRecord_encode h]

/-- A record that fits, behind a log that can be read to its end. -/
theorem replay_append_encode {f : Bytes} (h : (replay f).2 = none) {r : Record} (hr : r.Fits) :
    replay (f ++ r.encode) = ((replay f).1 ++ [r.readBack], none) := by
  have hone := replay_encode_append hr []
  rw [List.append_nil] at hone
  rw [replay_append h, hone]
  rfl

/-- **A record cut short,** behind a log that can be read to its end: what comes before
is read, and the end of the file is unexpected. -/
theorem replay_append_take {f : Bytes} (h : (replay f).2 = none) {r : Record} (hr : r.Fits)
    {n : ℕ} (h0 : 0 < n) (hn : n < r.encode.length) :
    replay (f ++ r.encode.take n) = ((replay f).1, some .unexpectedEOF) := by
  have hcut : replay (r.encode.take n) = ([], some .unexpectedEOF) := by
    rw [replay_eq, readRecord_take hr h0 hn]
  rw [replay_append h, hcut, List.append_nil]

/-- **A log of records that fit is read back in full,** record by record, up to what `readBack`
says. -/
theorem replay_encodeAll {rs : List Record} (h : ∀ r ∈ rs, r.Fits) :
    replay (encodeAll rs) = (rs.map Record.readBack, none) := by
  induction rs with
  | nil => rfl
  | cons r rs ih =>
    rw [encodeAll_cons, replay_encode_append (h r List.mem_cons_self),
      ih fun x hx => h x (List.mem_cons_of_mem _ hx)]
    rfl

/-! ### A log cut anywhere -/

/-- The records whose encodings end within the first `n` bytes of the log. -/
def wholeInside : List Record → ℕ → List Record
  | [], _ => []
  | r :: rs, n =>
    if r.encode.length ≤ n then r :: wholeInside rs (n - r.encode.length) else []

/-- The log has a record ending at `n` bytes, or `n` is its start. -/
def OnBoundary (rs : List Record) (n : ℕ) : Prop :=
  ∃ m ≤ rs.length, (encodeAll (rs.take m)).length = n

/-- What was handed to `apply` is what was written: op, key, value and, for a
set, the expiry. -/
structure SameRecord (r r' : Record) : Prop where
  op_eq : r'.op = r.op
  key_eq : r'.key = r.key
  value_eq : r'.value = r.value
  expiresAt_eq : r.op = opSet → r'.expiresAt = r.expiresAt

/-- What is read back is the record, up to the expiry that a delete does not have. -/
theorem Record.sameRecord_readBack (r : Record) : SameRecord r r.readBack :=
  ⟨r.readBack_op, r.readBack_key, r.readBack_value, fun h => by rw [readBack, if_pos h]⟩

/-- The first record is wholly inside: the boundaries are those of the others,
one encoding further. -/
theorem onBoundary_cons_iff {r : Record} {rs : List Record} {n : ℕ} :
    OnBoundary (r :: rs) (r.encode.length + n) ↔ OnBoundary rs n := by
  have hpos : 0 < r.encode.length := by rw [r.length_encode, recordHeaderSize]; omega
  constructor
  · rintro ⟨m, hm, hlen⟩
    cases m with
    | zero => simp at hlen; omega
    | succ m =>
      refine ⟨m, by simpa using hm, ?_⟩
      simp only [List.take_succ_cons, encodeAll_cons, List.length_append] at hlen
      omega
  · rintro ⟨m, hm, hlen⟩
    refine ⟨m + 1, by simpa using hm, ?_⟩
    simp only [List.take_succ_cons, encodeAll_cons, List.length_append]
    omega

/-- A cut inside the first record is on no boundary but the start. -/
theorem onBoundary_cons_of_lt {r : Record} {rs : List Record} {n : ℕ} (h : n < r.encode.length) :
    OnBoundary (r :: rs) n ↔ n = 0 := by
  constructor
  · rintro ⟨m, -, hlen⟩
    cases m with
    | zero => simpa using hlen.symm
    | succ m =>
      simp only [List.take_succ_cons, encodeAll_cons, List.length_append] at hlen
      omega
  · rintro rfl
    exact ⟨0, Nat.zero_le _, rfl⟩

/-- **`Replay` over any initial part of a log.**  It hands to `apply` exactly
the records that are wholly there, in order, and returns no error exactly when
the part ends between two records; otherwise the error is an unexpected end of
file. -/
theorem replay_of_isPrefix {rs : List Record} (h : ∀ r ∈ rs, r.Fits) {p : Bytes}
    (hp : p <+: encodeAll rs) :
    List.Forall₂ SameRecord (wholeInside rs p.length) (replay p).1 ∧
      ((replay p).2 = none ↔ OnBoundary rs p.length) ∧
      (¬ OnBoundary rs p.length → (replay p).2 = some .unexpectedEOF) := by
  induction rs generalizing p with
  | nil =>
    obtain rfl : p = [] := List.prefix_nil.1 hp
    exact ⟨.nil, ⟨fun _ => ⟨0, le_rfl, rfl⟩, fun _ => rfl⟩, fun hb => absurd ⟨0, le_rfl, rfl⟩ hb⟩
  | cons r rs ih =>
    have hr := h r List.mem_cons_self
    rcases Nat.lt_or_ge p.length r.encode.length with hlt | hge
    · have htake : p = r.encode.take p.length := by
        rw [List.prefix_iff_eq_take, encodeAll_cons, List.take_append_of_le_length hlt.le] at hp
        exact hp
      rw [onBoundary_cons_of_lt hlt, wholeInside, if_neg (by omega)]
      rcases Nat.eq_zero_or_pos p.length with h0 | hpos
      · obtain rfl : p = [] := List.length_eq_zero_iff.1 h0
        simp
      · have hread : readRecord p = .error .unexpectedEOF := by
          rw [htake]
          exact readRecord_take hr (by simpa using hpos) (by simpa using hlt)
        rw [replay_eq, hread]
        exact ⟨.nil, ⟨fun hnone => absurd hnone (Option.some_ne_none _),
          fun h0 => absurd h0 hpos.ne'⟩, fun _ => rfl⟩
    · obtain ⟨q, hq⟩ : ∃ q, p = r.encode ++ q := by
        obtain ⟨q, hq⟩ := List.prefix_of_prefix_length_le (List.prefix_append _ _) hp hge
        exact ⟨q, hq.symm⟩
      subst hq
      have hq' : q <+: encodeAll rs := (List.prefix_append_right_inj _).1 hp
      obtain ⟨ih₁, ih₂, ih₃⟩ := ih (fun x hx => h x (List.mem_cons_of_mem _ hx)) hq'
      rw [replay_encode_append hr, List.length_append, onBoundary_cons_iff, wholeInside,
        if_pos (by omega), Nat.add_sub_cancel_left]
      exact ⟨.cons r.sameRecord_readBack ih₁, ih₂, ih₃⟩

/-- The hypotheses of `replay_of_isPrefix` are satisfiable with a cut that falls
inside the second record. -/
theorem replay_of_isPrefix_cut :
    let rs := [Record.ofSet [107] [118] 5, Record.ofDelete [107]]
    let p := (encodeAll rs).take 20
    List.Forall₂ SameRecord (wholeInside rs p.length) (replay p).1 ∧
      ((replay p).2 = none ↔ OnBoundary rs p.length) ∧
      (¬ OnBoundary rs p.length → (replay p).2 = some .unexpectedEOF) :=
  replay_of_isPrefix
    (by
      intro r hr
      simp only [List.mem_cons, List.not_mem_nil, or_false] at hr
      rcases hr with rfl | rfl
      · exact Record.fits_ofSet (by decide) (by decide) (by decide)
      · exact Record.fits_ofDelete (by decide))
    (List.take_prefix _ _)

end Wal
end Keva
