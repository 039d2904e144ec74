/-
# Trimming and decimal numbers

Texts of single bytes: blanks at the two ends (`trimSpace`, as `strings.TrimSpace` does it on
ASCII), upper and lower case, and decimal integers read into 64 bits (`parseInt`, as `strconv.ParseInt`
does it in base 10).

What a text says is stated without the functions that read it.  `Decimal` is the number a text
writes, in positions of powers of ten; `parseInt` returns it exactly if it fits
(`parseInt_eq_ok_iff`), and what `formatInt` prints writes the number (`decimal_formatInt`).
-/

import Mathlib.Data.List.DropRight
import Mathlib.Data.Nat.Digits.Defs
import Keva.Lib.Bytes

namespace Keva
namespace Text

open Bytes

/-- The bytes of an ASCII text. -/
def ascii (cs : List Char) : Bytes := cs.map Char.toUInt8

/-! ### Blanks -/

/-- The blanks of ASCII: tab, newline, vertical tab, form feed, carriage return and space. -/
def isSpace (b : UInt8) : Bool := b = 32 || (9 ≤ b && b ≤ 13)

/-- Blanks and nothing else, or nothing at all. -/
def Blank (bs : Bytes) : Prop := ∀ b ∈ bs, isSpace b = true

/-- A text that neither begins nor ends with a blank; inside it may have some. -/
def Solid (bs : Bytes) : Prop :=
  (∀ b ∈ bs.head?, isSpace b = false) ∧ ∀ b ∈ bs.getLast?, isSpace b = false

/-- `strings.TrimSpace` on ASCII: blanks are dropped from both ends. -/
def trimSpace (s : Bytes) : Bytes := (s.dropWhile isSpace).rdropWhile isSpace

variable {s lead core trail : Bytes}

/-- Blanks at the end are dropped down to what stands before them. -/
theorem rdropWhile_append_blank (h : Blank trail) (core : Bytes) :
    (core ++ trail).rdropWhile isSpace = core.rdropWhile isSpace := by
  have hreverse : ∀ b ∈ trail.reverse, isSpace b = true := fun b hb => h b (List.mem_reverse.1 hb)
  rw [List.rdropWhile, List.reverse_append, List.dropWhile_append_of_pos hreverse]
  rfl

/-- **Trimming takes the blanks off both ends,** and nothing of what stands between them, which
may have blanks inside. -/
theorem trimSpace_eq (hlead : Blank lead) (htrail : Blank trail) (hcore : Solid core) :
    trimSpace (lead ++ (core ++ trail)) = core := by
  rw [trimSpace, List.dropWhile_append_of_pos hlead]
  cases core with
  | nil =>
    rw [List.nil_append, List.dropWhile_eq_nil_iff.2 htrail]
    rfl
  | cons b bs =>
    have hhead : isSpace b = false := hcore.1 b rfl
    rw [List.cons_append, List.dropWhile_cons_of_neg (by simp [hhead]), ← List.cons_append,
      rdropWhile_append_blank htrail, List.rdropWhile_eq_self_iff]
    intro hne
    rw [hcore.2 _ (List.getLast?_eq_some_getLast hne)]
    exact Bool.false_ne_true

/-- What trimming takes off are blanks. -/
theorem exists_trimSpace (s : Bytes) :
    ∃ lead trail, Blank lead ∧ Blank trail ∧ s = lead ++ (trimSpace s ++ trail) := by
  refine ⟨s.takeWhile isSpace, (s.dropWhile isSpace).rtakeWhile isSpace,
    fun b hb => List.mem_takeWhile_imp hb, fun b hb => List.mem_rtakeWhile_imp hb, ?_⟩
  rw [trimSpace, List.rdropWhile_append_rtakeWhile, List.takeWhile_append_dropWhile]

/-! ### Upper and lower case -/

/-- One letter. -/
def upper (b : UInt8) : UInt8 := if 97 ≤ b ∧ b ≤ 122 then b - 32 else b

/-- `strings.ToUpper` on ASCII. -/
def toUpper (s : Bytes) : Bytes := s.map upper

/-- Bytes are changed one by one. -/
@[simp] theorem toUpper_append (s s' : Bytes) : toUpper (s ++ s') = toUpper s ++ toUpper s' :=
  List.map_append

/-- No byte is added or lost. -/
@[simp] theorem length_toUpper (s : Bytes) : (toUpper s).length = s.length := List.length_map _

/-- One letter, the other way. -/
def lower (b : UInt8) : UInt8 := if 65 ≤ b ∧ b ≤ 90 then b + 32 else b

/-- `strings.ToLower` on ASCII. -/
def toLower (s : Bytes) : Bytes := s.map lower

/-! ### Numbers -/

/-- The bytes from `0` to `9`. -/
def isDigit (b : UInt8) : Bool := 48 ≤ b && b ≤ 57

/-- The value of a digit. -/
def digit (b : UInt8) : ℕ := b.toNat - 48

/-- `ErrSyntax` and `ErrRange`: a text that is no number, and a number that does not fit. -/
inductive NumErr
  | errSyntax
  | errRange
  deriving DecidableEq, Repr

/-- The text that was to be parsed, and what is wrong with it. -/
structure NumError where
  num : Bytes
  err : NumErr
  deriving DecidableEq, Repr

/-- The loop of `ParseUint`, after digits that stand for `n`. -/
def parseUintLoop : ℕ → Bytes → Except NumErr ℕ
  | n, [] => .ok n
  | n, b :: bs =>
    if isDigit b then
      if n * 10 + digit b < 2 ^ 64 then parseUintLoop (n * 10 + digit b) bs else .error .errRange
    else .error .errSyntax

/-- `strconv.ParseUint(s, 10, 64)`.  The empty string and any other byte than a digit are an error
of the form, and a number of more than 64 bits is one of the range. -/
def parseUint (s : Bytes) : Except NumErr ℕ :=
  if s = [] then .error .errSyntax else parseUintLoop 0 s

/-- Whether there is a minus sign, and what comes after a sign. -/
def sign : Bytes → Bool × Bytes
  | [] => (false, [])
  | b :: bs => if b = 45 then (true, bs) else if b = 43 then (false, bs) else (false, b :: bs)

/-- `strconv.ParseInt(s, 10, 64)`: a sign, if there is one, and then what `ParseUint` makes of the
rest.  The two bounds are not symmetric, as those of `int64` are not. -/
def parseInt (s : Bytes) : Except NumError ℤ :=
  match parseUint (sign s).2 with
  | .error e => .error ⟨s, e⟩
  | .ok un =>
    if (sign s).1 then if un ≤ 2 ^ 63 then .ok (-un) else .error ⟨s, .errRange⟩
    else if un < 2 ^ 63 then .ok un else .error ⟨s, .errRange⟩

/-- Digits, one at least, and the number they stand for, the first digit being the highest. -/
def Digits (bs : Bytes) (n : ℕ) : Prop :=
  bs ≠ [] ∧ (∀ b ∈ bs, isDigit b = true) ∧ n = Nat.ofDigits 10 (bs.reverse.map digit)

/-- **A decimal number:** digits, or a sign and digits.  This is what a parser may accept, and
says nothing about how large the number is. -/
def Decimal (bs : Bytes) (z : ℤ) : Prop :=
  (∃ n : ℕ, Digits bs n ∧ z = n) ∨ (∃ ds, ∃ n : ℕ, bs = 43 :: ds ∧ Digits ds n ∧ z = n) ∨
    ∃ ds, ∃ n : ℕ, bs = 45 :: ds ∧ Digits ds n ∧ z = -n

variable {bs : Bytes} {n acc : ℕ} {z : ℤ}

/-- Reading more digits never makes the number smaller, so that a check during the loop is as good
as one after it. -/
theorem le_foldl_digit (acc : ℕ) (bs : Bytes) :
    acc ≤ bs.foldl (fun n b => n * 10 + digit b) acc := by
  induction bs generalizing acc with
  | nil => exact le_rfl
  | cons b bs ih =>
    have hle := ih (acc * 10 + digit b)
    rw [List.foldl_cons]
    omega

/-- **The loop reads digits,** as long as what they stand for fits.  By induction on the digits,
with the number read so far. -/
theorem parseUintLoop_eq_ok_iff (hacc : acc < 2 ^ 64) :
    parseUintLoop acc bs = .ok n ↔
      (∀ b ∈ bs, isDigit b = true) ∧ n = bs.foldl (fun n b => n * 10 + digit b) acc ∧ n < 2 ^ 64 := by
  induction bs generalizing acc with
  | nil =>
    rw [parseUintLoop]
    constructor
    · intro h
      obtain rfl := Except.ok.inj h
      exact ⟨by simp, rfl, hacc⟩
    · rintro ⟨-, rfl, -⟩
      rfl
  | cons b bs ih =>
    rw [parseUintLoop, List.forall_mem_cons, List.foldl_cons]
    by_cases hb : isDigit b = true
    · rw [if_pos hb]
      by_cases hlt : acc * 10 + digit b < 2 ^ 64
      · rw [if_pos hlt, ih hlt, and_iff_right hb]
      · rw [if_neg hlt]
        constructor
        · intro h
          cases h
        · rintro ⟨-, rfl, hn⟩
          have hle := le_foldl_digit (acc * 10 + digit b) bs
          omega
    · rw [if_neg hb]
      constructor
      · intro h
        cases h
      · rintro ⟨⟨hb', -⟩, -⟩
        exact absurd hb' hb

/-- The number that digits denote, last digit first in Mathlib's reading, is what the loop
accumulates. -/
theorem ofDigits_eq_foldl (bs : Bytes) :
    Nat.ofDigits 10 (bs.reverse.map digit) = bs.foldl (fun n b => n * 10 + digit b) 0 := by
  rw [Nat.ofDigits_eq_foldr, List.map_reverse, List.foldr_reverse, List.foldl_map]
  refine congrArg (fun f => bs.foldl f 0) (funext fun n => funext fun b => ?_)
  rw [Nat.cast_id]
  omega

/-- **`ParseUint` accepts exactly the digits of a number of 64 bits,** and returns that number. -/
theorem parseUint_eq_ok_iff : parseUint bs = .ok n ↔ Digits bs n ∧ n < 2 ^ 64 := by
  rw [parseUint, Digits]
  by_cases hnil : bs = []
  · rw [if_pos hnil]
    constructor
    · intro h
      cases h
    · rintro ⟨⟨hne, -⟩, -⟩
      exact absurd hnil hne
  · rw [if_neg hnil, parseUintLoop_eq_ok_iff (by norm_num), ofDigits_eq_foldl]
    constructor
    · rintro ⟨hdigits, hn, hlt⟩
      exact ⟨⟨hnil, hdigits, hn⟩, hlt⟩
    · rintro ⟨⟨-, hdigits, hn⟩, hlt⟩
      exact ⟨hdigits, hn, hlt⟩

/-- Digits by their codes. -/
theorem isDigit_iff {b : UInt8} : isDigit b = true ↔ 48 ≤ b.toNat ∧ b.toNat ≤ 57 := by
  rw [isDigit, Bool.and_eq_true, decide_eq_true_iff, decide_eq_true_iff, UInt8.le_iff_toNat_le,
    UInt8.le_iff_toNat_le]
  rfl

/-- No digit is a blank. -/
theorem isSpace_eq_false_of_isDigit {b : UInt8} (h : isDigit b = true) : isSpace b = false := by
  rw [isDigit_iff] at h
  rw [isSpace, Bool.or_eq_false_iff, decide_eq_false_iff_not, Bool.and_eq_false_iff,
    decide_eq_false_iff_not, decide_eq_false_iff_not, UInt8.le_iff_toNat_le, UInt8.le_iff_toNat_le]
  constructor
  · rintro rfl
    exact absurd h.1 (by decide)
  · right
    show ¬ b.toNat ≤ 13
    omega

/-- Digits do not begin with a sign. -/
theorem Digits.head_ne {b : UInt8} (h : Digits (b :: bs) n) : b ≠ 45 ∧ b ≠ 43 := by
  have hb := isDigit_iff.1 (h.2.1 b List.mem_cons_self)
  constructor
  · rintro rfl
    exact absurd hb.1 (by decide)
  · rintro rfl
    exact absurd hb.1 (by decide)

/-- Text that begins with neither sign has none. -/
theorem sign_of_ne {b : UInt8} (h : b ≠ 45 ∧ b ≠ 43) : sign (b :: bs) = (false, b :: bs) := by
  rw [sign, if_neg h.1, if_neg h.2]

/-- A decimal number in terms of its sign, as a parser takes it off first: digits follow, and the
sign decides between the number and its negation. -/
theorem decimal_iff_sign :
    Decimal bs z ↔ ∃ n : ℕ, Digits (sign bs).2 n ∧ z = if (sign bs).1 then -(n : ℤ) else n := by
  constructor
  · rintro (⟨n, hn, rfl⟩ | ⟨ds, n, rfl, hn, rfl⟩ | ⟨ds, n, rfl, hn, rfl⟩)
    · cases bs with
      | nil => exact absurd rfl hn.1
      | cons b bs =>
        rw [sign_of_ne hn.head_ne]
        exact ⟨n, hn, rfl⟩
    · exact ⟨n, hn, rfl⟩
    · exact ⟨n, hn, rfl⟩
  · rintro ⟨n, hn, hz⟩
    cases bs with
    | nil => exact absurd rfl hn.1
    | cons b bs =>
      by_cases hminus : b = 45
      · subst hminus
        exact Or.inr (Or.inr ⟨bs, n, rfl, hn, hz⟩)
      by_cases hplus : b = 43
      · subst hplus
        exact Or.inr (Or.inl ⟨bs, n, rfl, hn, hz⟩)
      · rw [sign_of_ne ⟨hminus, hplus⟩] at hn hz
        exact Or.inl ⟨n, hn, hz⟩

/-- A text writes one number at most. -/
theorem Decimal.unique {z' : ℤ} (h : Decimal bs z) (h' : Decimal bs z') : z = z' := by
  obtain ⟨n, hn, rfl⟩ := decimal_iff_sign.1 h
  obtain ⟨n', hn', rfl⟩ := decimal_iff_sign.1 h'
  rw [hn.2.2, hn'.2.2]

/-- Digits end with a digit, also behind something else. -/
theorem Digits.exists_last (h : Digits bs n) (before : Bytes) :
    ∃ b, (before ++ bs).getLast? = some b ∧ isDigit b = true := by
  obtain ⟨hne, hdigits, -⟩ := h
  refine ⟨bs.getLast hne, ?_, hdigits _ (List.getLast_mem hne)⟩
  rw [List.getLast?_append_of_ne_nil _ hne, List.getLast?_eq_some_getLast hne]

/-- A number ends with a digit, and begins with a digit or a sign, so that trimming leaves it as
it is. -/
theorem Decimal.solid (h : Decimal bs z) :
    Solid bs ∧ ∃ b, bs.getLast? = some b ∧ isDigit b = true := by
  have hsolid : (∀ b ∈ bs.head?, isSpace b = false) →
      (∃ b, bs.getLast? = some b ∧ isDigit b = true) →
        Solid bs ∧ ∃ b, bs.getLast? = some b ∧ isDigit b = true := by
    rintro hhead ⟨b, hb, hdigit⟩
    refine ⟨⟨hhead, fun b' hb' => ?_⟩, b, hb, hdigit⟩
    obtain rfl : b = b' := Option.some.inj (hb.symm.trans hb')
    exact isSpace_eq_false_of_isDigit hdigit
  rcases h with ⟨n, hn, -⟩ | ⟨ds, n, rfl, hn, -⟩ | ⟨ds, n, rfl, hn, -⟩
  · refine hsolid (fun b hb => ?_) (hn.exists_last [])
    exact isSpace_eq_false_of_isDigit (hn.2.1 b (List.mem_of_head? hb))
  · refine hsolid (fun b hb => ?_) (hn.exists_last [43])
    obtain rfl : 43 = b := Option.some.inj hb
    decide
  · refine hsolid (fun b hb => ?_) (hn.exists_last [45])
    obtain rfl : 45 = b := Option.some.inj hb
    decide

/-- **`ParseInt` is exact:** it returns the number that is written, if it fits, and nothing
else. -/
theorem parseInt_eq_ok_iff : parseInt bs = .ok z ↔ Decimal bs z ∧ FitsInt64 z := by
  rw [parseInt, decimal_iff_sign, FitsInt64]
  cases hparse : parseUint (sign bs).2 with
  | error e =>
    constructor
    · intro h
      cases h
    · rintro ⟨⟨n, hn, rfl⟩, hlow, hhigh⟩
      have hlt : n < 2 ^ 64 := by
        split_ifs at hlow hhigh <;> omega
      rw [parseUint_eq_ok_iff.2 ⟨hn, hlt⟩] at hparse
      cases hparse
  | ok un =>
    obtain ⟨hun, -⟩ := parseUint_eq_ok_iff.1 hparse
    dsimp only
    constructor
    · intro h
      split_ifs at h with hneg hle hlt
      · obtain rfl := Except.ok.inj h
        exact ⟨⟨un, hun, by rw [if_pos hneg]⟩, by omega, by omega⟩
      · obtain rfl := Except.ok.inj h
        exact ⟨⟨un, hun, by rw [if_neg hneg]⟩, by omega, by omega⟩
    · rintro ⟨⟨n, hn, rfl⟩, hlow, hhigh⟩
      obtain rfl : n = un := hn.2.2.trans hun.2.2.symm
      by_cases hneg : (sign bs).1 = true
      · rw [if_pos hneg] at hlow hhigh
        rw [if_pos hneg, if_pos hneg, if_pos (by omega)]
      · rw [if_neg hneg] at hlow hhigh
        rw [if_neg hneg, if_neg hneg, if_pos (by omega)]

/-! ### Printing -/

/-- The digits of a number, as `%d` prints them. -/
def formatNat (n : ℕ) : Bytes :=
  if n = 0 then [48] else ((Nat.digits 10 n).map fun d => UInt8.ofNat (d + 48)).reverse

/-- `%d` of an integer: a minus sign where it is negative, and the digits of its absolute value. -/
def formatInt (z : ℤ) : Bytes := if z < 0 then 45 :: formatNat z.natAbs else formatNat z.natAbs

/-- A printed digit. -/
theorem toNat_ofNat_digit {d : ℕ} (h : d < 10) : (UInt8.ofNat (d + 48)).toNat = d + 48 := by
  rw [UInt8.toNat_ofNat']
  omega

/-- **What is printed is the number:** digits, one at least, which stand for it.  Zero is printed
as one digit. -/
theorem digits_formatNat (n : ℕ) : Digits (formatNat n) n := by
  unfold formatNat
  split_ifs with hn
  · refine ⟨List.cons_ne_nil _ _, fun b hb => ?_, by rw [hn]; rfl⟩
    rw [List.mem_singleton.1 hb]
    decide
  · have hdigit : ∀ d ∈ Nat.digits 10 n, (UInt8.ofNat (d + 48)).toNat = d + 48 :=
      fun d hd => toNat_ofNat_digit (Nat.digits_lt_base (by decide) hd)
    refine ⟨?_, fun b hb => ?_, ?_⟩
    · simpa using Nat.digits_ne_nil_iff_ne_zero.2 hn
    · obtain ⟨d, hd, rfl⟩ := List.mem_map.1 (List.mem_reverse.1 hb)
      have hlt : d < 10 := Nat.digits_lt_base (by decide) hd
      rw [isDigit_iff, hdigit d hd]
      omega
    · have hid : ((Nat.digits 10 n).map fun d => UInt8.ofNat (d + 48)).map digit = Nat.digits 10 n := by
        rw [List.map_map]
        refine (List.map_congr_left fun d hd => ?_).trans (List.map_id _)
        rw [Function.comp_apply, digit, hdigit d hd]
        exact Nat.add_sub_cancel d 48
      rw [List.reverse_reverse, hid, Nat.ofDigits_digits]

/-- What is printed for an integer denotes it. -/
theorem decimal_formatInt (z : ℤ) : Decimal (formatInt z) z := by
  unfold formatInt
  split_ifs with hz
  · exact Or.inr (Or.inr ⟨_, z.natAbs, rfl, digits_formatNat _, by omega⟩)
  · exact Or.inl ⟨z.natAbs, digits_formatNat _, by omega⟩

end Text
end Keva
