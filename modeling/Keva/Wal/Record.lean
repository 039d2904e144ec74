/-
# One entry of the log

`storage/wal/wal_record.go`: `Record`, `encode`, `readRecord`, `unexpectedEOF`.

A record on disk is

| field | bytes | |
| --- | ---: | --- |
| `Op` | 1 | `OpSet` or `OpDelete` |
| `KeyLen` | 2 | big-endian, `uint16(len(Key))` |
| `ValueLen` | 4 | big-endian, `uint32(len(Value))` |
| `ExpiresAt` | 8 | big-endian, Unix nanoseconds, zero for a delete |
| `Key`, `Value` | | as they are |

and records follow each other with nothing in between.  `readRecord_encode`
says that a record whose fields fit is read back whatever follows it, and
`readRecord_take` what a log that ends inside a record reads as.
-/

import Keva.Lib.Bytes

namespace Keva

/-- An instant: nanoseconds since the Unix epoch, exactly and without bounds, as
`time.Time` is used here. -/
abbrev Time := ℤ

/-- A key: a Go string is its bytes. -/
abbrev Key := Bytes

namespace Wal

open Bytes

/-- The operation byte of a set. -/
def opSet : UInt8 := 1

/-- The operation byte of a delete. -/
def opDelete : UInt8 := 2

/-- `1 + 2 + 4 + 8`: op, key length, value length and expiry. -/
def recordHeaderSize : ℕ := 15

/-- `wal.Record`: the operation, the key, and for a set the value and the expiry in Unix
nanoseconds. -/
structure Record where
  op : UInt8
  key : Key
  value : Bytes
  expiresAt : Time
  deriving DecidableEq

/-- `time.Time{}`, midnight of 1 January of the year 1. -/
def zeroTime : Time := -62135596800 * 10 ^ 9

/-- The record `AppendSet` writes. -/
def Record.ofSet (key : Key) (value : Bytes) (expiresAt : Time) : Record :=
  ⟨opSet, key, value, expiresAt⟩

/-- The record `AppendDelete` writes: no value and no expiry. -/
def Record.ofDelete (key : Key) : Record := ⟨opDelete, key, [], zeroTime⟩

/-- The expiry as it is written: a delete leaves the field at zero. -/
def Record.expiryField (r : Record) : Bytes :=
  if r.op = opSet then be 8 (uint64 r.expiresAt) else List.replicate 8 0

/-- The fixed part of a record. -/
def Record.header (r : Record) : Bytes :=
  [r.op] ++ be 2 r.key.length ++ be 4 r.value.length ++ r.expiryField

/-- `encode`: a header with the operation, the two lengths and the expiry, then the key and then
the value. -/
def Record.encode (r : Record) : Bytes := r.header ++ r.key ++ r.value

/-- A clean end of file inside a record is an unexpected one. -/
def unexpectedEOF : ReadError → ReadError
  | .eof => .unexpectedEOF
  | e => e

/-- What is read is not touched by the wrapping of errors. -/
theorem mapError_eq_ok {α : Type*} {f : ReadError → ReadError} {x : Except ReadError α} {a : α}
    (h : x.mapError f = .ok a) : x = .ok a := by
  cases x with
  | error e => cases h
  | ok b => exact h

/-- The next record and what follows it.  The value is read for `OpSet` only. -/
def readRecord (r : Bytes) : Except ReadError (Record × Bytes) := do
  let (header, r) ← readFull recordHeaderSize r
  let op := header.headD 0
  let keyLen := ofBE ((header.take 3).drop 1)
  let valLen := ofBE ((header.take 7).drop 3)
  let expiresAt := ofBE ((header.take 15).drop 7)
  let (key, r) ← (readFull keyLen r).mapError unexpectedEOF
  let (value, r) ← if op = opSet then (readFull valLen r).mapError unexpectedEOF else .ok ([], r)
  return (⟨op, key, value, int64 expiresAt⟩, r)

/-- The fields of a record are within what the format has room for, and a delete has no value.
Its expiry is not written, so that nothing is asked of it. -/
structure Record.Fits (r : Record) : Prop where
  key_le : r.key.length ≤ 65535
  value_lt : r.value.length < 2 ^ 32
  cases_op : r.op = opSet ∧ FitsInt64 r.expiresAt ∨ r.op = opDelete ∧ r.value = []

instance (r : Record) : Decidable r.Fits :=
  decidable_of_iff (r.key.length ≤ 65535 ∧ r.value.length < 2 ^ 32 ∧
      (r.op = opSet ∧ FitsInt64 r.expiresAt ∨ r.op = opDelete ∧ r.value = []))
    ⟨fun h => ⟨h.1, h.2.1, h.2.2⟩, fun h => ⟨h.key_le, h.value_lt, h.cases_op⟩⟩

/-- The record of a set is within the log format if its key, its value and its expiry are. -/
theorem Record.fits_ofSet {key : Key} {value : Bytes} {expiresAt : Time}
    (hk : key.length ≤ 65535) (hv : value.length < 2 ^ 32) (he : FitsInt64 expiresAt) :
    (ofSet key value expiresAt).Fits :=
  ⟨hk, hv, Or.inl ⟨rfl, he⟩⟩

/-- The expiry of a set that is within the format is a number of 64 bits. -/
theorem Record.Fits.fitsInt64 {key : Key} {value : Bytes} {expiresAt : Time}
    (h : (ofSet key value expiresAt).Fits) : FitsInt64 expiresAt := by
  rcases h.cases_op with ⟨-, he⟩ | ⟨hop, -⟩
  · exact he
  · cases hop

/-- The record of a delete has a key only. -/
theorem Record.fits_ofDelete {key : Key} (hk : key.length ≤ 65535) : (ofDelete key).Fits :=
  ⟨hk, by simp [ofDelete], Or.inr ⟨rfl, rfl⟩⟩

/-! ### An expiry that the log cannot express -/

/-- The lengths of a record are within what the format has room for, whatever its
expiry is.  `KeyLen` and `ValueLen` of a request on the wire are as wide as those of a
record, so that everything a client can send is of this kind; its TTL may still put the
expiry out of range. -/
structure Record.LengthsFit (r : Record) : Prop where
  key_le : r.key.length ≤ 65535
  value_lt : r.value.length < 2 ^ 32
  cases_op : r.op = opSet ∨ r.op = opDelete ∧ r.value = []

/-- The lengths of a set fit their fields, whatever its expiry. -/
theorem Record.lengthsFit_ofSet {key : Key} {value : Bytes} (hk : key.length ≤ 65535)
    (hv : value.length < 2 ^ 32) (expiresAt : Time) : (ofSet key value expiresAt).LengthsFit :=
  ⟨hk, hv, Or.inl rfl⟩

/-- The record with the expiry that its eight bytes stand for: `ExpiresAt.UnixNano()`
keeps the low 64 bits of an instant, and `time.Unix(0, int64(..))` reads them as a signed
number. -/
def Record.wrapExpiry (r : Record) : Record := { r with expiresAt := int64 (uint64 r.expiresAt) }

/-- **The bytes say no more than that:** a record and the one with the wrapped expiry are
written alike. -/
theorem Record.encode_wrapExpiry (r : Record) : r.wrapExpiry.encode = r.encode := by
  simp only [encode, header, expiryField, wrapExpiry, uint64_int64_uint64]

/-- With the wrapped expiry a record fits if its lengths do. -/
theorem Record.LengthsFit.fits_wrapExpiry {r : Record} (h : r.LengthsFit) : r.wrapExpiry.Fits :=
  ⟨h.key_le, h.value_lt, h.cases_op.imp_left fun hop => ⟨hop, int64_fits _⟩⟩

/-- What a record reads back as: a delete comes back with the expiry its zero
field stands for. -/
def Record.readBack (r : Record) : Record :=
  if r.op = opSet then r else { r with expiresAt := 0 }

/-- The operation survives the log. -/
@[simp] theorem Record.readBack_op (r : Record) : r.readBack.op = r.op := by
  unfold readBack
  split_ifs <;> rfl

/-- The key survives the log. -/
@[simp] theorem Record.readBack_key (r : Record) : r.readBack.key = r.key := by
  unfold readBack
  split_ifs <;> rfl

/-- The value survives the log. -/
@[simp] theorem Record.readBack_value (r : Record) : r.readBack.value = r.value := by
  unfold readBack
  split_ifs <;> rfl

/-- The expiry takes eight bytes, also that of a delete, where they are zero. -/
@[simp] theorem Record.length_expiryField (r : Record) : r.expiryField.length = 8 := by
  unfold expiryField
  split_ifs <;> simp

/-- All headers have the same size. -/
@[simp] theorem Record.length_header (r : Record) : r.header.length = recordHeaderSize := by
  simp [header, recordHeaderSize]

/-- The size of a record on disk. -/
theorem Record.length_encode (r : Record) :
    r.encode.length = recordHeaderSize + r.key.length + r.value.length := by
  simp only [encode, List.length_append, length_header]

/-- Within the format the expiry is read back from its eight bytes as it was, negative ones
included. -/
theorem Record.int64_expiryField {r : Record} (h : r.Fits) :
    int64 (ofBE r.expiryField) = r.readBack.expiresAt := by
  unfold expiryField readBack
  rcases h.cases_op with ⟨hop, he⟩ | ⟨hop, -⟩
  · have hlt : uint64 r.expiresAt < 256 ^ 8 := by have := uint64_lt r.expiresAt; omega
    rw [if_pos hop, if_pos hop, ofBE_be_of_lt hlt, int64_uint64 he]
  · have hne : r.op ≠ opSet := by rw [hop]; decide
    rw [if_neg hne, if_neg hne]
    change int64 (ofBE (List.replicate 8 0)) = 0
    decide

/-- `header` announces `r`: the op, the lengths that follow it and the expiry. -/
structure Announces (header : Bytes) (r : Record) : Prop where
  length_eq : header.length = recordHeaderSize
  op_eq : header.headD 0 = r.op
  keyLen_eq : ofBE ((header.take 3).drop 1) = r.key.length
  valLen_eq : r.op = opSet → ofBE ((header.take 7).drop 3) = r.value.length
  value_eq_nil : r.op ≠ opSet → r.value = []
  expiresAt_eq : int64 (ofBE ((header.take 15).drop 7)) = r.expiresAt

/-- **What `readRecord` accepts:** a header, then the key and the value it
announces.  Nothing after them is looked at. -/
theorem readRecord_eq_ok_iff {bs rest : Bytes} {r : Record} :
    readRecord bs = .ok (r, rest) ↔
      ∃ header, Announces header r ∧ bs = header ++ (r.key ++ (r.value ++ rest)) := by
  constructor
  · intro h
    unfold readRecord at h
    simp only [bind, Except.bind] at h
    split at h
    · cases h
    · rename_i p hhead
      obtain ⟨header, bs₁⟩ := p
      obtain ⟨rfl, hlen⟩ := readFull_eq_ok hhead
      dsimp only at h
      split at h
      · cases h
      · rename_i p hkey
        obtain ⟨key, bs₂⟩ := p
        obtain ⟨rfl, hk⟩ := readFull_eq_ok (mapError_eq_ok hkey)
        dsimp only at h
        split_ifs at h with hop
        · split at h
          · cases h
          · rename_i p hvalue
            obtain ⟨value, bs₃⟩ := p
            obtain ⟨rfl, hv⟩ := readFull_eq_ok (mapError_eq_ok hvalue)
            obtain ⟨rfl, rfl⟩ := Prod.mk.inj (Except.ok.inj h)
            exact ⟨header, ⟨hlen, rfl, hk.symm, fun _ => hv.symm, fun h => absurd hop h, rfl⟩, rfl⟩
        · obtain ⟨rfl, rfl⟩ := Prod.mk.inj (Except.ok.inj h)
          exact ⟨header, ⟨hlen, rfl, hk.symm, fun h => absurd h hop, fun _ => rfl, rfl⟩, rfl⟩
  · rintro ⟨header, ha, rfl⟩
    obtain ⟨op, key, value, expiresAt⟩ := r
    obtain ⟨hlen, rfl, hk, hv, hnil, rfl⟩ := ha
    dsimp only at hk hv hnil ⊢
    unfold readRecord
    rw [readFull_append hlen]
    simp only [bind, Except.bind, hk, readFull_append rfl, Except.mapError]
    by_cases hop : header.headD 0 = opSet
    · rw [if_pos hop, hv hop, readFull_append rfl]
      rfl
    · rw [if_neg hop, hnil hop]
      rfl

/-- The header of a record that fits announces what it reads back as: its lengths fit their
fields, and the expiry of a set fits its own. -/
theorem Record.announces {r : Record} (h : r.Fits) : Announces r.header r.readBack := by
  have hk : ofBE (be 2 r.key.length) = r.key.length :=
    ofBE_be_of_lt (by have := h.key_le; omega)
  have hv : ofBE (be 4 r.value.length) = r.value.length :=
    ofBE_be_of_lt (by have := h.value_lt; omega)
  refine ⟨r.length_header, by simp [header], ?_, fun _ => ?_, fun hop => ?_, ?_⟩
  · simpa [header, List.take_append, List.drop_append] using hk
  · simpa [header, List.take_append, List.drop_append, List.take_of_length_le] using hv
  · rcases h.cases_op with ⟨hset, -⟩ | ⟨-, hval⟩
    · exact absurd (r.readBack_op.trans hset) hop
    · rw [readBack_value, hval]
  · have hdrop : (r.header.take 15).drop 7 = r.expiryField := by
      have hpre : ([r.op] ++ be 2 r.key.length ++ be 4 r.value.length).length = 7 := by simp
      rw [List.take_of_length_le (by simp [recordHeaderSize]), header, List.drop_left' hpre]
    rw [hdrop]
    exact int64_expiryField h

/-- **A record that fits is read back,** whatever follows it in the log. -/
theorem readRecord_encode {r : Record} (h : r.Fits) (rest : Bytes) :
    readRecord (r.encode ++ rest) = .ok (r.readBack, rest) :=
  readRecord_eq_ok_iff.2 ⟨r.header, Record.announces h, by simp [Record.encode]⟩

/-- What is read from a file is read from any longer file that starts with it. -/
theorem readRecord_append {bs rest : Bytes} {r : Record} (h : readRecord bs = .ok (r, rest))
    (bs' : Bytes) : readRecord (bs ++ bs') = .ok (r, rest ++ bs') := by
  obtain ⟨header, ha, rfl⟩ := readRecord_eq_ok_iff.1 h
  exact readRecord_eq_ok_iff.2 ⟨header, ha, by simp⟩

/-- A record takes at least its header off the file. -/
theorem length_of_readRecord {bs rest : Bytes} {r : Record}
    (h : readRecord bs = .ok (r, rest)) : rest.length + recordHeaderSize ≤ bs.length := by
  obtain ⟨header, ha, rfl⟩ := readRecord_eq_ok_iff.1 h
  simp only [List.length_append, ha.length_eq]
  omega

/-- Whatever is read from a file could be written to one, in as far as its
lengths and its expiry go. -/
theorem bounds_of_readRecord {bs rest : Bytes} {r : Record} (h : readRecord bs = .ok (r, rest)) :
    r.key.length ≤ 65535 ∧ r.value.length < 2 ^ 32 ∧ FitsInt64 r.expiresAt := by
  obtain ⟨header, ha, -⟩ := readRecord_eq_ok_iff.1 h
  have hlen : header.length = 15 := ha.length_eq
  refine ⟨?_, ?_, ha.expiresAt_eq ▸ int64_fits _⟩
  · have hlt := ofBE_lt ((header.take 3).drop 1)
    have htwo : ((header.take 3).drop 1).length = 2 := by simp [hlen]
    rw [ha.keyLen_eq, htwo] at hlt
    omega
  · by_cases hop : r.op = opSet
    · have hlt := ofBE_lt ((header.take 7).drop 3)
      have hfour : ((header.take 7).drop 3).length = 4 := by simp [hlen]
      rw [ha.valLen_eq hop, hfour] at hlt
      omega
    · simp [ha.value_eq_nil hop]

/-- The log ends cleanly only between two records: an end anywhere inside one is an unexpected
one. -/
theorem eq_nil_of_readRecord_eof {bs : Bytes} (h : readRecord bs = .error .eof) : bs = [] := by
  have hmap : ∀ x : Except ReadError (Bytes × Bytes), x.mapError unexpectedEOF ≠ .error .eof := by
    rintro (_ | _) hx
    · rename_i e
      cases e <;> cases hx
    · cases hx
  unfold readRecord at h
  simp only [bind, Except.bind] at h
  split at h
  · rename_i e hhead
    obtain rfl := Except.error.inj h
    unfold readFull at hhead
    split_ifs at hhead with h1 h2
    · exact List.isEmpty_iff.1 h2
    · cases hhead
  · split at h
    · rename_i e hkey
      obtain rfl := Except.error.inj h
      exact absurd hkey (hmap _)
    · split_ifs at h
      · split at h
        · rename_i e hvalue
          obtain rfl := Except.error.inj h
          exact absurd hvalue (hmap _)
        · cases h
      · cases h

/-- A read of at least one byte more than there is, inside a record. -/
theorem readFull_mapError_short {n : ℕ} {s : Bytes} (h : s.length < n) :
    (readFull n s).mapError unexpectedEOF = .error .unexpectedEOF := by
  by_cases h0 : s = []
  · rw [h0, readFull_nil (by omega)]
    rfl
  · rw [readFull_short h0 h]
    rfl

/-- **A log that ends inside a record** reads as an unexpected end of file,
wherever the record is cut. -/
theorem readRecord_take {r : Record} (h : r.Fits) {n : ℕ} (h0 : 0 < n)
    (hn : n < r.encode.length) : readRecord (r.encode.take n) = .error .unexpectedEOF := by
  obtain ⟨-, hop, hk, hv, -, -⟩ := Record.announces h
  rw [Record.readBack_op] at hop hv
  rw [Record.readBack_key] at hk
  rw [Record.readBack_value] at hv
  rw [Record.length_encode] at hn
  unfold readRecord
  rcases Nat.lt_or_ge n recordHeaderSize with hcut | hcut
  · have hlen : (r.encode.take n).length = n := by
      rw [List.length_take, Record.length_encode]
      omega
    rw [readFull_short (by intro hnil; rw [hnil] at hlen; simp at hlen; omega) (by omega)]
    rfl
  · have htake : r.encode.take n = r.header ++ (r.key ++ r.value).take (n - recordHeaderSize) := by
      rw [Record.encode, List.append_assoc, List.take_append, r.length_header,
        List.take_of_length_le (by rw [r.length_header]; exact hcut)]
    rw [htake, readFull_append r.length_header]
    simp only [bind, Except.bind, hop, hk]
    rcases Nat.lt_or_ge (n - recordHeaderSize) r.key.length with hkey | hkey
    · rw [readFull_mapError_short (by simp; omega)]
    · rw [List.take_append, List.take_of_length_le hkey, readFull_append rfl]
      simp only [Except.mapError]
      rcases h.cases_op with ⟨hset, -⟩ | ⟨-, hval⟩
      · have hshort := readFull_mapError_short (n := r.value.length)
          (s := r.value.take (n - recordHeaderSize - r.key.length)) (by simp; omega)
        simp only [Except.mapError] at hshort
        rw [if_pos hset, hv hset, hshort]
      · rw [hval] at hn
        simp at hn
        omega

end Wal
end Keva
