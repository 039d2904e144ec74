/-
# Calls that may panic

A call returns a value, returns an error, or panics, and a panic ends whatever
was going on.  `Outcome` is that, with the monad in which the statements of a
function follow each other.

On top of it: taking a part of a byte slice, one byte of it, and the big-endian
number in it, each of which panics when its bounds are wrong; and the copy of a
slice into a fresh one.  A slice expression is bounded by the capacity of its
operand; here that is its length.
-/

import Keva.Lib.Bytes

namespace Keva

universe u v

/-- What a call comes to: a value, an error that its caller handles, or a panic that ends the
process. -/
inductive Outcome (ε : Type u) (α : Type v)
  | ok (a : α)
  | error (e : ε)
  | panic
  deriving DecidableEq, Repr

namespace Outcome

variable {ε : Type u} {α β : Type v}

/-- What comes after an error or a panic is not run. -/
protected def bind (x : Outcome ε α) (f : α → Outcome ε β) : Outcome ε β :=
  match x with
  | ok a => f a
  | error e => error e
  | panic => panic

instance : Monad (Outcome ε) where
  pure := ok
  bind := Outcome.bind

/-- Returning a value neither fails nor panics. -/
@[simp] theorem pure_eq (a : α) : (pure a : Outcome ε α) = ok a := rfl

/-- A value is handed on to what comes next. -/
@[simp] theorem ok_bind (a : α) (f : α → Outcome ε β) : (ok a >>= f) = f a := rfl

/-- An error skips what comes next. -/
@[simp] theorem error_bind (e : ε) (f : α → Outcome ε β) :
    (error e >>= f) = error e := rfl

/-- A panic skips what comes next. -/
@[simp] theorem panic_bind (f : α → Outcome ε β) : (panic >>= f) = panic := rfl

/-- The outcome with its error replaced. -/
def mapError {δ : Type*} (f : ε → δ) (x : Outcome ε α) : Outcome δ α :=
  match x with
  | ok a => ok a
  | error e => error (f e)
  | panic => panic

/-- Wrapping an error neither stops a panic nor makes one. -/
@[simp] theorem mapError_eq_panic_iff {δ : Type*} {f : ε → δ} {x : Outcome ε α} :
    x.mapError f = panic ↔ x = panic := by
  cases x <;> simp [mapError]

/-- **Statements that follow each other** return a value where each of them does. -/
theorem bind_eq_ok_iff {x : Outcome ε α} {f : α → Outcome ε β} {b : β} :
    (x >>= f) = ok b ↔ ∃ a, x = ok a ∧ f a = ok b := by
  cases x <;> simp

/-- What comes after a value cannot panic: the whole panics only where the value
does. -/
theorem bind_eq_panic_iff_left {x : Outcome ε α} {f : α → Outcome ε β}
    (h : ∀ a, f a ≠ panic) : (x >>= f) = panic ↔ x = panic := by
  cases x with
  | ok a => simpa using h a
  | error e => simp
  | panic => simp

end Outcome

namespace Bytes

variable {ε : Type*} {data : Bytes} {low high w : ℕ}

/-- `data[low:high]`. -/
def slice (data : Bytes) (low high : ℕ) : Outcome ε Bytes :=
  if low ≤ high ∧ high ≤ data.length then .ok ((data.take high).drop low) else .panic

/-- A slice within the bounds is the list between them. -/
theorem slice_of_le (h : low ≤ high) (h' : high ≤ data.length) :
    slice (ε := ε) data low high = .ok ((data.take high).drop low) :=
  if_pos ⟨h, h'⟩

/-- Bounds the wrong way round. -/
theorem slice_of_gt (h : high < low) : slice (ε := ε) data low high = .panic :=
  if_neg fun h' => absurd h'.1 (not_le.2 h)

/-- `data[i]`. -/
def index (data : Bytes) (i : ℕ) : Outcome ε UInt8 :=
  match data[i]? with
  | some b => .ok b
  | none => .panic

/-- An index within the bounds is the byte that stands there. -/
theorem index_of_lt (h : low < data.length) : index (ε := ε) data low = .ok (data.getD low 0) := by
  simp [index, List.getElem?_eq_getElem h]

/-- A byte that is read is the first of the rest. -/
theorem drop_of_index {b : UInt8} (h : index (ε := ε) data low = .ok b) :
    data.drop low = b :: data.drop (low + 1) := by
  unfold index at h
  split at h
  · rename_i b' hb
    obtain rfl := Outcome.ok.inj h
    obtain ⟨hlt, rfl⟩ := List.getElem?_eq_some_iff.1 hb
    exact List.drop_eq_getElem_cons hlt
  · cases h

/-- The number in the bytes from `low` on, `w` of them. -/
def beAt (w : ℕ) (data : Bytes) (low : ℕ) : ℕ := ofBE ((data.drop low).take w)

/-- What is read from `w` bytes fits `w` bytes. -/
theorem beAt_lt (w : ℕ) (data : Bytes) (low : ℕ) : beAt w data low < 256 ^ w := by
  refine (ofBE_lt _).trans_le (Nat.pow_le_pow_right (by omega) ?_)
  simp

/-- **A number that fits is read back from where it was written,** between whatever stands before
it and after it. -/
theorem beAt_append {before : Bytes} (h : before.length = low) {n : ℕ} (hn : n < 256 ^ w)
    (after : Bytes) : beAt w (before ++ (be w n ++ after)) low = n := by
  rw [beAt, List.drop_left' h, List.take_left' (length_be w n), ofBE_be_of_lt hn]

/-- `binary.BigEndian` on `data[low:high]`, for a number of `w` bytes. -/
def readBE (w : ℕ) (data : Bytes) (low high : ℕ) : Outcome ε ℕ := do
  let b ← slice data low high
  if b.length < w then .panic else .ok (beAt w b 0)

/-- A number that lies within the slice it is read from is read, wherever that slice ends. -/
theorem readBE_of_le (h : low + w ≤ high) (h' : high ≤ data.length) :
    readBE (ε := ε) w data low high = .ok (beAt w data low) := by
  have hlen : ((data.take high).drop low).length = high - low := by simp; omega
  have hsub : ((data.take high).drop low).take w = (data.drop low).take w := by
    rw [List.drop_take, List.take_take, Nat.min_eq_left (by omega)]
  rw [readBE, slice_of_le (by omega) h', Outcome.ok_bind, if_neg (by omega)]
  rw [beAt, beAt, List.drop_zero, hsub]

/-- `make([]byte, n)` and a `copy` into it: what is too long is cut off, what is
missing stays zero. -/
def makeCopy (n : ℕ) (src : Bytes) : Bytes := src.take n ++ List.replicate (n - src.length) 0

/-- A copy into a buffer of the right size is the original. -/
theorem makeCopy_of_length {n : ℕ} {src : Bytes} (h : src.length = n) : makeCopy n src = src := by
  subst h
  simp [makeCopy]

/-! ### Parts given by start and length -/

variable {n m : ℕ}

/-- A slice given by its start and its length, in the form in which decoders take one. -/
theorem slice_add (h : low + n ≤ data.length) :
    slice (ε := ε) data low (low + n) = .ok ((data.drop low).take n) := by
  rw [slice_of_le (Nat.le_add_right ..) h, List.drop_take, Nat.add_sub_cancel_left]

/-- **An end that is computed modulo `m`** is right or lies before the start. -/
theorem slice_mod (hn : n < m) (h : low + n ≤ data.length) :
    slice (ε := ε) data low ((low + n) % m) =
      if low + n < m then .ok ((data.drop low).take n) else .panic := by
  split_ifs with hlt
  · rw [Nat.mod_eq_of_lt hlt, slice_add h]
  · refine slice_of_gt ?_
    have hle : (low + n) % m ≤ low + n - m := by
      rw [Nat.mod_eq_sub_mod (not_lt.1 hlt)]
      exact Nat.mod_le ..
    omega

/-- The copy of such a slice is the slice. -/
theorem makeCopy_take (h : low + n ≤ data.length) :
    makeCopy n ((data.drop low).take n) = (data.drop low).take n :=
  makeCopy_of_length (by simp; omega)

/-! ### Fields by their place -/

/-- A field that lies before a cut is read the same. -/
theorem beAt_take (h : low + w ≤ n) (data : Bytes) :
    beAt w (data.take n) low = beAt w data low := by
  rw [beAt, beAt, List.drop_take, List.take_take, Nat.min_eq_left (by omega)]

/-- A number behind other bytes is read from where they end. -/
@[simp] theorem beAt_append_right {before : Bytes} (h : before.length ≤ low) (after : Bytes) :
    beAt w (before ++ after) low = beAt w after (low - before.length) := by
  rw [beAt, beAt, List.drop_append, List.drop_eq_nil_of_le h, List.nil_append]

/-- A number behind one other byte. -/
@[simp] theorem beAt_cons_succ (b : UInt8) (after : Bytes) :
    beAt w (b :: after) (low + 1) = beAt w after low := rfl

/-- **A number is read back** from the bytes it was written to, whatever follows them, if it
fits. -/
@[simp] theorem beAt_be_append (h : n < 256 ^ w) (after : Bytes) :
    beAt w (be w n ++ after) 0 = n :=
  beAt_append (List.length_nil) h after

/-- A number of 64 bits always fits. -/
@[simp] theorem beAt_be_toNat (x : UInt64) (after : Bytes) :
    beAt 8 (be 8 x.toNat ++ after) 0 = x.toNat :=
  beAt_be_append x.toNat_lt after

/-- Nothing is left of a number behind its bytes. -/
@[simp] theorem drop_be (h : w ≤ low) (n : ℕ) : (be w n).drop low = [] :=
  List.drop_eq_nil_of_le (by rwa [length_be])

/-- **A decoder that learns the size of its input from a header** decodes what has
that size, and rejects whatever is cut off before. -/
theorem decode_take {α : Type*} {e : ε} {decode value : Bytes → Outcome ε α}
    {size : Bytes → ℕ} {header : ℕ}
    (hdecode : ∀ data, decode data =
      if data.length < header ∨ data.length < size data then .error e else value data)
    (hsize : ∀ data n, header ≤ n → size (data.take n) = size data) {payload : Bytes}
    (hheader : header ≤ payload.length) (hlen : size payload = payload.length) (n : ℕ) :
    decode (payload.take n) = if n < payload.length then .error e else value payload := by
  split_ifs with hn
  · have hshort : (payload.take n).length < header ∨
        (payload.take n).length < size (payload.take n) := by
      rw [List.length_take_of_le hn.le]
      rcases lt_or_ge n header with hlt | hle
      · exact .inl hlt
      · rw [hsize payload n hle, hlen]
        exact .inr hn
    rw [hdecode, if_pos hshort]
  · rw [List.take_of_length_le (not_lt.1 hn), hdecode, if_neg (by omega)]

/-- **A layout of fixed size, cut short,** is too short for its decoder; complete, it is decoded.
The hypothesis is the shape of every such decoder: one check of the length, and then a value. -/
theorem decode_take_fixed {α : Type*} {e : ε} {decode value : Bytes → Outcome ε α} {size : ℕ}
    (hdecode : ∀ data, decode data = if data.length < size then .error e else value data)
    {payload : Bytes} (hlen : payload.length = size) (n : ℕ) :
    decode (payload.take n) = if n < payload.length then .error e else value payload := by
  split_ifs with hn
  · rw [hdecode, List.length_take_of_le hn.le, if_pos (hn.trans_eq hlen)]
  · rw [List.take_of_length_le (not_lt.1 hn), hdecode, if_neg hlen.not_lt]

/-! ### Lengths as machine integers -/

/-- A length of two bytes fits 16 bits. -/
theorem beAt_two_lt (data : Bytes) (low : ℕ) : beAt 2 data low < 2 ^ 16 := beAt_lt 2 data low

/-- A length of four bytes fits 32 bits. -/
theorem beAt_four_lt (data : Bytes) (low : ℕ) : beAt 4 data low < 2 ^ 32 := beAt_lt 4 data low

/-- The conversion to `uint16` of what was read from two bytes loses nothing. -/
theorem toNat_uint16_beAt (data : Bytes) (low : ℕ) :
    (UInt16.ofNat (beAt 2 data low)).toNat = beAt 2 data low :=
  UInt16.toNat_ofNat_of_lt' (beAt_two_lt data low)

/-- The conversion to `uint32` of what was read from four bytes loses nothing. -/
theorem toNat_uint32_beAt (data : Bytes) (low : ℕ) :
    (UInt32.ofNat (beAt 4 data low)).toNat = beAt 4 data low :=
  UInt32.toNat_ofNat_of_lt' (beAt_four_lt data low)

end Bytes
end Keva
