/-
# Byte strings: big-endian numbers and exact reads

A fixed-width number on the wire is its base-256 digits, most significant first
(`be`), and `ofBE` reads digits back: `ofBE_be` says what survives a width that
is too small.  A stream is the list of
what is still to come; `readFull` takes exactly `n` items off it and tells a
stream that ended before the first of them (`eof`) from one that ended inside
(`unexpectedEOF`), as `io.ReadFull` does.

`uint64` and `int64` are the conversions between a signed number and its 64-bit
pattern: neither loses anything on the range of the other (`int64_uint64`).
-/

import Mathlib.Algebra.Order.Ring.Nat
import Mathlib.Data.List.Induction

namespace Keva

/-- A string of bytes, of any length. -/
abbrev Bytes := List UInt8

/-! The order of the bytes as words of a dictionary, to range over maps by. -/

instance : Std.Antisymm fun a b : Bytes => a ≤ b := inferInstance

instance : Std.Total fun a b : Bytes => a ≤ b := inferInstance

namespace Bytes

/-- The `w` big-endian bytes of `n`; what does not fit in `w` bytes is dropped. -/
def be : ℕ → ℕ → Bytes
  | 0, _ => []
  | w + 1, n => be w (n / 256) ++ [UInt8.ofNat n]

/-- The number whose big-endian bytes are `bs`. -/
def ofBE (bs : Bytes) : ℕ := bs.foldl (fun n b => n * 256 + b.toNat) 0

/-- A field of `w` bytes has `w` bytes, whatever is written to it. -/
@[simp] theorem length_be (w n : ℕ) : (be w n).length = w := by
  induction w generalizing n with
  | zero => rfl
  | succ w ih => simp [be, ih]

/-- No bytes denote zero. -/
@[simp] theorem ofBE_nil : ofBE [] = 0 := rfl

/-- The last byte counts least. -/
@[simp] theorem ofBE_concat (bs : Bytes) (b : UInt8) :
    ofBE (bs ++ [b]) = ofBE bs * 256 + b.toNat := by
  simp [ofBE]

/-- **A number is read back modulo the width it was written in.**  By induction on the width, one
byte at a time. -/
theorem ofBE_be (w n : ℕ) : ofBE (be w n) = n % 256 ^ w := by
  induction w generalizing n with
  | zero => simp [be, Nat.mod_one]
  | succ w ih =>
    have hmod : n % 256 ^ (w + 1) = n % 256 + 256 * (n / 256 % 256 ^ w) := by
      rw [pow_succ', Nat.mod_mul]
    rw [be, ofBE_concat, ih, UInt8.toNat_ofNat', hmod]
    omega

/-- **A number is read back from its field** if it fits, which is what every decoder of a field
uses. -/
theorem ofBE_be_of_lt {w n : ℕ} (h : n < 256 ^ w) : ofBE (be w n) = n := by
  rw [ofBE_be, Nat.mod_eq_of_lt h]

/-- **Bytes are the digits of the number they stand for,** so that every field is one that an
encoder could have written. -/
theorem be_ofBE (bs : Bytes) : be bs.length (ofBE bs) = bs := by
  induction bs using List.reverseRecOn with
  | nil => rfl
  | append_singleton bs b ih =>
    have hdiv : (ofBE bs * 256 + b.toNat) / 256 = ofBE bs := by
      have hb : b.toNat < 256 := b.toNat_lt
      omega
    have hlast : UInt8.ofNat (ofBE bs * 256 + b.toNat) = b := by
      rw [← UInt8.toNat_inj, UInt8.toNat_ofNat']
      have hb : b.toNat < 256 := b.toNat_lt
      omega
    rw [List.length_append, List.length_singleton, be, ofBE_concat, hdiv, hlast, ih]

/-- What is read from a field fits it. -/
theorem ofBE_lt (bs : Bytes) : ofBE bs < 256 ^ bs.length := by
  induction bs using List.reverseRecOn with
  | nil => simp
  | append_singleton bs b ih =>
    have hb : b.toNat < 256 := b.toNat_lt
    rw [ofBE_concat, List.length_append, List.length_singleton, pow_succ]
    omega

/-! ### Exact reads -/

/-- How a read that needs more than the stream holds fails: at its end, or after some of what it
needs. -/
inductive ReadError
  | eof
  | unexpectedEOF
  deriving DecidableEq, Repr

variable {α : Type*}

/-- The first `n` items of the stream and the rest of it; `eof` when the stream
has ended and something was wanted, `unexpectedEOF` when it ends part-way. -/
def readFull (n : ℕ) (s : List α) : Except ReadError (List α × List α) :=
  if n ≤ s.length then .ok (s.take n, s.drop n)
  else if s.isEmpty then .error .eof
  else .error .unexpectedEOF

/-- `io.ReadFull` takes what it is asked for and leaves the rest. -/
@[simp] theorem readFull_append {n : ℕ} {a : List α} (h : a.length = n) (b : List α) :
    readFull n (a ++ b) = .ok (a, b) := by
  subst h
  simp [readFull]

/-- At the end of the stream there is nothing to read, which is the one error that is no loss. -/
theorem readFull_nil {n : ℕ} (h : 0 < n) : readFull n ([] : List α) = .error .eof := by
  simp only [readFull, List.length_nil, List.isEmpty_nil, if_true]
  rw [if_neg (by omega)]

/-- A stream that ends within what was asked for is cut short, and the error says so. -/
theorem readFull_short {n : ℕ} {s : List α} (h0 : s ≠ []) (h : s.length < n) :
    readFull n s = .error .unexpectedEOF := by
  rw [readFull, if_neg (by omega), if_neg (by simpa using h0)]

/-- Either way a stream that is too short is an error. -/
theorem readFull_of_lt {n : ℕ} {s : List α} (h : s.length < n) :
    ∃ e, readFull n s = .error e := by
  by_cases h0 : s = []
  · subst h0
    exact ⟨_, readFull_nil h⟩
  · exact ⟨_, readFull_short h0 h⟩

/-- What a read that succeeds took off the stream. -/
theorem readFull_eq_ok {n : ℕ} {s a b : List α} (h : readFull n s = .ok (a, b)) :
    s = a ++ b ∧ a.length = n := by
  unfold readFull at h
  split_ifs at h with hn
  · obtain ⟨rfl, rfl⟩ := Prod.mk.inj (Except.ok.inj h)
    exact ⟨(List.take_append_drop n s).symm, by simpa using hn⟩

/-! ### Signed numbers in 64 bits -/

/-- The 64-bit pattern of a number, modulo `2 ^ 64`. -/
def uint64 (n : ℤ) : ℕ := (n % 2 ^ 64).toNat

/-- The signed number a 64-bit pattern stands for, in two's complement. -/
def int64 (n : ℕ) : ℤ := if n % 2 ^ 64 < 2 ^ 63 then (n % 2 ^ 64 : ℕ) else (n % 2 ^ 64 : ℕ) - 2 ^ 64

/-- The numbers a signed 64-bit integer can hold; nothing is lost where one of them is stored as
such. -/
def FitsInt64 (n : ℤ) : Prop := -2 ^ 63 ≤ n ∧ n < 2 ^ 63

instance (n : ℤ) : Decidable (FitsInt64 n) := inferInstanceAs (Decidable (_ ∧ _))

/-- What Go's conversion to `uint64` yields has 64 bits. -/
theorem uint64_lt (n : ℤ) : uint64 n < 2 ^ 64 := by
  unfold uint64
  omega

/-- What Go's conversion to `int64` yields is an `int64`. -/
theorem int64_fits (n : ℕ) : FitsInt64 (int64 n) := by
  unfold FitsInt64 int64
  split_ifs <;> omega

/-- **A number in range is read back from its pattern.**  One that is not comes back modulo
`2 ^ 64`. -/
theorem int64_uint64 {n : ℤ} (h : FitsInt64 n) : int64 (uint64 n) = n := by
  obtain ⟨h₁, h₂⟩ := h
  unfold int64 uint64
  split_ifs <;> omega

/-- A number is read back from its pattern exactly if it is in range. -/
theorem int64_uint64_iff {n : ℤ} : int64 (uint64 n) = n ↔ FitsInt64 n := by
  constructor
  · intro h
    rw [← h]
    exact int64_fits _
  · exact int64_uint64

/-- The pattern of what was read back is the pattern. -/
theorem uint64_int64_uint64 (n : ℤ) : uint64 (int64 (uint64 n)) = uint64 n := by
  unfold int64 uint64
  split_ifs <;> omega

end Bytes
end Keva
