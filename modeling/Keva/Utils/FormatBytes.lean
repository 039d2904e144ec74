/-
# Sizes of memory, printed and read again

`utils/memory_bytes.go`: `FormatMemoryBytes` prints a size in the largest unit it reaches, cut off
to whole units; `main` logs the memory cap so.

From a kilobyte on, `ParseMemoryBytes` reads what was printed as the size without its last
incomplete unit, which is more than half of it, and prints the same text again.  Below, the text has
the suffix `B`, which is not in the table: it is refused, as is `unlimited`
(`parseMemoryBytes_formatMemoryBytes`).
-/

import Keva.Utils.MemoryBytes

namespace Keva
namespace Utils

open Bytes
open Text

/-- The largest unit a size reaches: its letter, and the power of two. -/
def unitOf (b : ℤ) : Option (UInt8 × ℕ) :=
  if 2 ^ 40 ≤ b then some ('T'.toUInt8, 40)
  else if 2 ^ 30 ≤ b then some ('G'.toUInt8, 30)
  else if 2 ^ 20 ≤ b then some ('M'.toUInt8, 20)
  else if 2 ^ 10 ≤ b then some ('K'.toUInt8, 10)
  else none

/-- `FormatMemoryBytes`: the largest unit that the number reaches, and the number of whole units;
what is left over is not printed, and zero stands for no limit. -/
def formatMemoryBytes (b : ℤ) : Bytes :=
  if b = 0 then ascii ['u', 'n', 'l', 'i', 'm', 'i', 't', 'e', 'd']
  else if 2 ^ 40 ≤ b then formatInt (b >>> (40 : ℕ)) ++ ascii ['T', 'B']
  else if 2 ^ 30 ≤ b then formatInt (b >>> (30 : ℕ)) ++ ascii ['G', 'B']
  else if 2 ^ 20 ≤ b then formatInt (b >>> (20 : ℕ)) ++ ascii ['M', 'B']
  else if 2 ^ 10 ≤ b then formatInt (b >>> (10 : ℕ)) ++ ascii ['K', 'B']
  else formatInt b ++ ascii ['B']

/-- **What is printed,** from a kilobyte on: the whole units and their letter; what is left is
cut off. -/
theorem formatMemoryBytes_of_unit {b : ℤ} {c : UInt8} {p : ℕ} (h : unitOf b = some (c, p)) :
    formatMemoryBytes b = formatInt (b / 2 ^ p) ++ [c, 'B'.toUInt8] ∧ (c, p) ∈ letters ∧
      2 ^ p ≤ b ∧ 0 < p := by
  unfold unitOf at h
  unfold formatMemoryBytes
  split_ifs at h with h40 h30 h20 h10
  all_goals
    obtain ⟨rfl, rfl⟩ := Prod.mk.inj (Option.some.inj h)
    rw [if_neg (by omega)]
  · rw [if_pos h40, Int.shiftRight_eq_div_pow]
    exact ⟨rfl, by decide, h40, by decide⟩
  · rw [if_neg h40, if_pos h30, Int.shiftRight_eq_div_pow]
    exact ⟨rfl, by decide, h30, by decide⟩
  · rw [if_neg h40, if_neg h30, if_pos h20, Int.shiftRight_eq_div_pow]
    exact ⟨rfl, by decide, h20, by decide⟩
  · rw [if_neg h40, if_neg h30, if_neg h20, if_pos h10, Int.shiftRight_eq_div_pow]
    exact ⟨rfl, by decide, h10, by decide⟩

/-- Below a kilobyte nothing is lost. -/
theorem formatMemoryBytes_of_lt {b : ℤ} (h0 : b ≠ 0) (h : b < 2 ^ 10) :
    formatMemoryBytes b = formatInt b ++ ['B'.toUInt8] := by
  unfold formatMemoryBytes
  rw [if_neg h0, if_neg (by omega), if_neg (by omega), if_neg (by omega), if_neg (by omega)]
  rfl

/-- The unit depends on the number of whole units only. -/
theorem unitOf_whole {b : ℤ} {c : UInt8} {p : ℕ} (h : unitOf b = some (c, p)) :
    unitOf (b / 2 ^ p * 2 ^ p) = some (c, p) := by
  unfold unitOf at h ⊢
  split_ifs at h with h40 h30 h20 h10
  all_goals obtain ⟨rfl, rfl⟩ := Prod.mk.inj (Option.some.inj h)
  · rw [if_pos (by omega)]
  · rw [if_neg (by omega), if_pos (by omega)]
  · rw [if_neg (by omega), if_neg (by omega), if_pos (by omega)]
  · rw [if_neg (by omega), if_neg (by omega), if_neg (by omega), if_pos (by omega)]

/-! ### Reading it again -/

/-- Digits and signs are ASCII. -/
theorem ascii_formatInt (z : ℤ) : ∀ x ∈ formatInt z, x < 128 := by
  have hdigits : ∀ n : ℕ, ∀ x ∈ formatNat n, x < 128 := by
    intro n x hx
    have hle := (isDigit_iff.1 ((digits_formatNat n).2.1 x hx)).2
    exact UInt8.lt_iff_toNat_lt.2 (Nat.lt_of_le_of_lt hle (by decide))
  intro x hx
  unfold formatInt at hx
  split_ifs at hx
  · rcases List.mem_cons.1 hx with rfl | hx
    · decide
    · exact hdigits _ x hx
  · exact hdigits _ x hx

/-- What is printed is ASCII, so that the parser, whose model is on ASCII, can be asked about it. -/
theorem ascii_formatMemoryBytes (b : ℤ) : ∀ x ∈ formatMemoryBytes b, x < 128 := by
  have hchars : ∀ {cs : List Char}, ((ascii cs).all fun x => decide (x < 128)) = true →
      ∀ x ∈ ascii cs, x < 128 :=
    fun hcs x hx => of_decide_eq_true (List.all_eq_true.1 hcs x hx)
  have hunit : ∀ {z : ℤ} {cs : List Char}, ((ascii cs).all fun x => decide (x < 128)) = true →
      ∀ x ∈ formatInt z ++ ascii cs, x < 128 := by
    intro z cs hcs x hx
    exact (List.mem_append.1 hx).elim (ascii_formatInt z x) (hchars hcs x)
  unfold formatMemoryBytes
  split_ifs
  · exact hchars rfl
  · exact hunit rfl
  · exact hunit rfl
  · exact hunit rfl
  · exact hunit rfl
  · exact hunit rfl

/-- The text that is logged. -/
def printed (b : ℤ) : Ascii := ⟨formatMemoryBytes b, ascii_formatMemoryBytes b⟩

/-- A `B` behind a digit is no suffix. -/
theorem find_suffixes_of_digit {before : Bytes} {b : UInt8} (hb : b.toNat ≤ 57) :
    suffixes.find? (fun e => e.1.isSuffixOf (before ++ [b, 'B'.toUInt8])) = none := by
  have hne : ∀ c : UInt8, 57 < c.toNat → (c == b) = false := by
    intro c hc
    refine beq_eq_false_iff_ne.2 fun heq => ?_
    rw [heq] at hc
    omega
  have hT := hne 'T'.toUInt8 (by decide)
  have hG := hne 'G'.toUInt8 (by decide)
  have hM := hne 'M'.toUInt8 (by decide)
  have hK := hne 'K'.toUInt8 (by decide)
  simp [suffixes, ascii, List.isSuffixOf, List.isPrefixOf, hT, hG, hM, hK]
  decide

/-- **A number of bytes is refused** if it is written with a `B`.  No suffix matches, and what is
left is no number because of the letter at its end. -/
theorem parseMemoryBytes_ne_ok {s : Ascii} {num : Bytes} {z n : ℤ} (hnum : Decimal num z)
    (hs : s.1 = num ++ ['B'.toUInt8]) : parseMemoryBytes s ≠ .ok n := by
  intro hok
  obtain ⟨hsolid, b, hlast, hdigit⟩ := hnum.solid
  obtain ⟨init, rfl⟩ := List.getLast?_eq_some_iff.1 hlast
  have hsolid' : Solid (init ++ [b] ++ ['B'.toUInt8]) := by
    constructor
    · intro c hc
      refine hsolid.1 c ?_
      rwa [List.head?_append_of_ne_nil _ (by simp)] at hc
    · intro c hc
      rw [List.getLast?_concat] at hc
      rw [← Option.mem_some.1 hc]
      decide
  have htrim : trimSpace s.1 = init ++ [b] ++ ['B'.toUInt8] := by
    have hblank : Blank [] := by simp [Blank]
    have htrim := trimSpace_eq hblank hblank hsolid'
    rw [hs]
    rwa [List.append_nil, List.nil_append] at htrim
  have hsplit : splitUnit (trimSpace s.1) = (init ++ [b] ++ ['B'.toUInt8], 1) := by
    have hb : b.toNat ≤ 57 := (isDigit_iff.1 hdigit).2
    have hupper : toUpper (init ++ [b] ++ ['B'.toUInt8]) = toUpper init ++ [b, 'B'.toUInt8] := by
      rw [toUpper_append, toUpper_append, List.append_assoc]
      exact congrArg (fun x => toUpper init ++ [x, 'B'.toUInt8]) (upper_of_le hb)
    rw [htrim, splitUnit, hupper, find_suffixes_of_digit hb]
  obtain ⟨number, hparse, -⟩ := parseMemoryBytes_eq_ok_iff_splitUnit.1 hok
  rw [hsplit] at hparse
  -- What `ParseInt` reads ends with a digit.
  obtain ⟨-, c, hc, hdigit'⟩ := (parseInt_eq_ok_iff.1 hparse).1.solid
  rw [List.getLast?_concat] at hc
  rw [← Option.some.inj hc] at hdigit'
  exact absurd hdigit' (by decide)

/-- The whole units of a size: at least one, and less than one is missing. -/
theorem whole_bounds {b : ℤ} {p : ℕ} (h : 2 ^ p ≤ b) :
    1 ≤ b / 2 ^ p ∧ b / 2 ^ p * 2 ^ p ≤ b ∧ b < 2 * (b / 2 ^ p * 2 ^ p) := by
  have hpos : (0 : ℤ) < 2 ^ p := pow_pos (by decide) p
  have hone : 1 ≤ b / 2 ^ p := Int.le_ediv_of_mul_le hpos (by rwa [one_mul])
  have hlt : b < (b / 2 ^ p + 1) * 2 ^ p := Int.lt_ediv_add_one_mul_self b hpos
  have hunit : 1 * 2 ^ p ≤ b / 2 ^ p * 2 ^ p := Int.mul_le_mul_of_nonneg_right hone hpos.le
  refine ⟨hone, Int.ediv_mul_le b hpos.ne', ?_⟩
  rw [add_mul] at hlt
  omega

/-- **A size from a kilobyte on is read as its whole units,** which is the size itself where it
is a multiple of its unit. -/
theorem parseMemoryBytes_printed {b : ℤ} (hb : FitsInt64 b) {c : UInt8} {p : ℕ}
    (h : unitOf b = some (c, p)) : parseMemoryBytes (printed b) = .ok (b / 2 ^ p * 2 ^ p) := by
  obtain ⟨htext, hletter, hle, -⟩ := formatMemoryBytes_of_unit h
  obtain ⟨hone, hwhole, -⟩ := whole_bounds hle
  have hpos : (0 : ℤ) < 2 ^ p := pow_pos (by decide) p
  have hcount : b / 2 ^ p ≤ b := Int.ediv_le_self _ (hpos.le.trans hle)
  have hnonneg : 0 ≤ b / 2 ^ p * 2 ^ p := Int.mul_nonneg (by omega) hpos.le
  obtain ⟨-, hlt⟩ := hb
  have hwritten : Written (printed b).1 (b / 2 ^ p) (2 ^ p) := by
    have hblank : Blank [] := by simp [Blank]
    have hupper : toUpper [c, 'B'.toUInt8] = [c, 'B'.toUInt8] := by
      simp only [letters, List.mem_cons, Prod.mk.injEq, List.not_mem_nil, or_false] at hletter
      rcases hletter with ⟨rfl, -⟩ | ⟨rfl, -⟩ | ⟨rfl, -⟩ | ⟨rfl, -⟩ <;> decide
    refine ⟨[], formatInt (b / 2 ^ p), [], [c, 'B'.toUInt8], [], ?_, hblank, hblank, hblank,
      decimal_formatInt _, Or.inr ⟨c, p, hletter, rfl, Or.inr hupper⟩⟩
    rw [List.nil_append, List.nil_append, List.append_nil]
    exact htext
  refine parseMemoryBytes_eq_ok_iff.2 ⟨b / 2 ^ p, 2 ^ p, hwritten, ⟨by omega, by omega⟩, ?_⟩
  rw [int64_uint64 ⟨by omega, by omega⟩]

/-- From a kilobyte on there is a unit. -/
theorem exists_unitOf {b : ℤ} (h : 2 ^ 10 ≤ b) : ∃ c p, unitOf b = some (c, p) := by
  unfold unitOf
  split_ifs
  · exact ⟨_, _, rfl⟩
  · exact ⟨_, _, rfl⟩
  · exact ⟨_, _, rfl⟩
  · exact ⟨_, _, rfl⟩

/-- **Below, the text is refused:** a `B` behind a digit is no suffix that the parser knows. -/
theorem parseMemoryBytes_printed_of_lt {b n : ℤ} (h : b < 2 ^ 10) :
    parseMemoryBytes (printed b) ≠ .ok n := by
  by_cases h0 : b = 0
  · subst h0
    intro hok
    have hrefused : parseMemoryBytes (printed 0) = .error
        ⟨ascii ['u', 'n', 'l', 'i', 'm', 'i', 't', 'e', 'd'], .errSyntax⟩ := by
      decide +kernel
    rw [hrefused] at hok
    cases hok
  · exact parseMemoryBytes_ne_ok (decimal_formatInt b) (formatMemoryBytes_of_lt h0 h)

/-- **What is printed is read again,** from a kilobyte on: as the smallest size that is printed so,
which is more than half of what it was.  A smaller size, and none at all, is printed as a text that
is refused. -/
theorem parseMemoryBytes_formatMemoryBytes {b : ℤ} (hb : FitsInt64 b) :
    (2 ^ 10 ≤ b → ∃ n, parseMemoryBytes (printed b) = .ok n ∧ n ≤ b ∧ b < 2 * n ∧
      formatMemoryBytes n = formatMemoryBytes b ∧
      ∀ m, FitsInt64 m → formatMemoryBytes m = formatMemoryBytes b → n ≤ m) ∧
    (b < 2 ^ 10 → ∃ e, parseMemoryBytes (printed b) = .error e) := by
  constructor
  · intro hle
    obtain ⟨c, p, hunit⟩ := exists_unitOf hle
    obtain ⟨htext, -, hp, -⟩ := formatMemoryBytes_of_unit hunit
    obtain ⟨hone, hwhole, hhalf⟩ := whole_bounds hp
    have hread := parseMemoryBytes_printed hb hunit
    refine ⟨_, hread, hwhole, hhalf, ?_, fun m hm hsame => ?_⟩
    · have hpos : (0 : ℤ) < 2 ^ p := pow_pos (by decide) p
      rw [(formatMemoryBytes_of_unit (unitOf_whole hunit)).1, Int.mul_ediv_cancel _ hpos.ne', htext]
    · -- The same text is read as the whole units of `m`.
      have heq : printed m = printed b := Subtype.ext hsame
      rcases lt_or_ge m (2 ^ 10) with hlt | hge
      · exact absurd (heq ▸ hread) (parseMemoryBytes_printed_of_lt hlt)
      · obtain ⟨c', p', hunit'⟩ := exists_unitOf hge
        have hread' := parseMemoryBytes_printed hm hunit'
        rw [heq, hread] at hread'
        rw [Except.ok.inj hread']
        exact (whole_bounds (formatMemoryBytes_of_unit hunit').2.2.1).2.1
  · intro hlt
    cases hparse : parseMemoryBytes (printed b) with
    | error e => exact ⟨e, rfl⟩
    | ok n => exact absurd hparse (parseMemoryBytes_printed_of_lt hlt)

/-- One and a half gigabytes are printed as one, and more than half of them is read back. -/
theorem parseMemoryBytes_formatMemoryBytes_oneAndAHalf :
    formatMemoryBytes 1610612736 = ascii ['1', 'G', 'B'] ∧
      ∃ n, parseMemoryBytes (printed 1610612736) = .ok n ∧ n ≤ 1610612736 ∧ 1610612736 < 2 * n := by
  obtain ⟨hread, -⟩ := parseMemoryBytes_formatMemoryBytes (b := 1610612736) (by decide)
  obtain ⟨n, hn, hle, hhalf, -⟩ := hread (by decide)
  exact ⟨by decide +kernel, n, hn, hle, hhalf⟩

end Utils
end Keva
