/-
# Sizes of memory

`utils/memory_bytes.go`: `ParseMemoryBytes` reads a size such as `512MB`.  The text is trimmed,
the suffixes are tried from a table, and what stands before the first that matches is trimmed
again and parsed as a decimal `int64`.  The result is that number times the multiplier of the
suffix, in `int64`.

A text that is well formed denotes one number (`Denotes`).  It is accepted exactly if the part
before the suffix fits `int64` (`parseMemoryBytes_eq_ok_iff`), and what is returned is the number
it denotes exactly if that fits, too (`parseMemoryBytes_exact_iff`).  The product is not checked:
`16777217TB` comes out as one terabyte (`parseMemoryBytes_wraps`).
-/

import Keva.Lib.Text

namespace Keva
namespace Utils

open Bytes
open Text

/-- A string of ASCII characters. -/
abbrev Ascii := { s : Bytes // ∀ b ∈ s, b < 128 }

/-- The table of suffixes, in the order in which they are tried. -/
def suffixes : List (Bytes × ℤ) :=
  [(ascii ['T', 'B'], 2 ^ 40), (ascii ['G', 'B'], 2 ^ 30), (ascii ['M', 'B'], 2 ^ 20),
    (ascii ['K', 'B'], 2 ^ 10), (ascii ['T'], 2 ^ 40), (ascii ['G'], 2 ^ 30),
    (ascii ['M'], 2 ^ 20), (ascii ['K'], 2 ^ 10)]

/-- `ParseMemoryBytes`: blanks are trimmed, a unit in upper or lower case is taken off the end,
and the number before it is multiplied in `int64`, which may wrap. -/
def parseMemoryBytes (s : Ascii) : Except NumError ℤ :=
  let s := trimSpace s.1
  match suffixes.find? fun e => e.1.isSuffixOf (toUpper s) with
  | some (suffix, mult) =>
    match parseInt (trimSpace (s.take (s.length - suffix.length))) with
    | .error e => .error e
    -- The product is one of `int64`.
    | .ok n => .ok (int64 (uint64 (n * mult)))
  | none => parseInt s

/-! ### What a size denotes -/

/-- The letters for powers of two. -/
def letters : List (UInt8 × ℕ) :=
  [('K'.toUInt8, 10), ('M'.toUInt8, 20), ('G'.toUInt8, 30), ('T'.toUInt8, 40)]

/-- A suffix and its multiplier: none, a letter, or a letter and `B`, in upper or lower case. -/
def Multiplier (unit : Bytes) (mult : ℤ) : Prop :=
  unit = [] ∧ mult = 1 ∨
    ∃ c p, (c, p) ∈ letters ∧ mult = 2 ^ p ∧
      (toUpper unit = [c] ∨ toUpper unit = [c, 'B'.toUInt8])

/-- The text consists of a decimal number and a suffix, with blanks around them. -/
def Written (s : Bytes) (number mult : ℤ) : Prop :=
  ∃ lead num gap unit trail : Bytes,
    s = lead ++ (num ++ (gap ++ (unit ++ trail))) ∧ Blank lead ∧ Blank gap ∧ Blank trail ∧
      Decimal num number ∧ Multiplier unit mult

/-- The number a size denotes: that of its digits times that of its suffix. -/
def Denotes (s : Bytes) (z : ℤ) : Prop := ∃ number mult, Written s number mult ∧ z = number * mult

/-! ### Suffixes -/

/-- What the table has in it. -/
theorem mem_suffixes_iff {suffix : Bytes} {mult : ℤ} :
    (suffix, mult) ∈ suffixes ↔
      ∃ c p, (c, p) ∈ letters ∧ mult = 2 ^ p ∧ (suffix = [c] ∨ suffix = [c, 'B'.toUInt8]) := by
  constructor
  · intro h
    simp only [suffixes, List.mem_cons, Prod.mk.injEq, List.not_mem_nil, or_false] at h
    rcases h with ⟨rfl, rfl⟩ | ⟨rfl, rfl⟩ | ⟨rfl, rfl⟩ | ⟨rfl, rfl⟩ | ⟨rfl, rfl⟩ | ⟨rfl, rfl⟩ |
      ⟨rfl, rfl⟩ | ⟨rfl, rfl⟩
    · exact ⟨_, 40, by decide, rfl, Or.inr rfl⟩
    · exact ⟨_, 30, by decide, rfl, Or.inr rfl⟩
    · exact ⟨_, 20, by decide, rfl, Or.inr rfl⟩
    · exact ⟨_, 10, by decide, rfl, Or.inr rfl⟩
    · exact ⟨_, 40, by decide, rfl, Or.inl rfl⟩
    · exact ⟨_, 30, by decide, rfl, Or.inl rfl⟩
    · exact ⟨_, 20, by decide, rfl, Or.inl rfl⟩
    · exact ⟨_, 10, by decide, rfl, Or.inl rfl⟩
  · rintro ⟨c, p, hc, rfl, hsuffix⟩
    simp only [letters, List.mem_cons, Prod.mk.injEq, List.not_mem_nil, or_false] at hc
    rcases hc with ⟨rfl, rfl⟩ | ⟨rfl, rfl⟩ | ⟨rfl, rfl⟩ | ⟨rfl, rfl⟩ <;>
    · rcases hsuffix with rfl | rfl <;> decide

/-- The last byte of a suffix is a letter. -/
theorem getLast_of_mem_suffixes {e : Bytes × ℤ} (he : e ∈ suffixes) :
    ∃ init c, e.1 = init ++ [c] ∧ 57 < c.toNat := by
  simp only [suffixes, List.mem_cons, List.not_mem_nil, or_false] at he
  rcases he with rfl | rfl | rfl | rfl | rfl | rfl | rfl | rfl
  · exact ⟨['T'.toUInt8], _, rfl, by decide⟩
  · exact ⟨['G'.toUInt8], _, rfl, by decide⟩
  · exact ⟨['M'.toUInt8], _, rfl, by decide⟩
  · exact ⟨['K'.toUInt8], _, rfl, by decide⟩
  · exact ⟨[], _, rfl, by decide⟩
  · exact ⟨[], _, rfl, by decide⟩
  · exact ⟨[], _, rfl, by decide⟩
  · exact ⟨[], _, rfl, by decide⟩

/-- **The suffix that is there is found,** whatever stands before it: no other one of the table
matches. -/
theorem find_suffixes {e : Bytes × ℤ} (he : e ∈ suffixes) (before : Bytes) :
    suffixes.find? (fun e' => e'.1.isSuffixOf (before ++ e.1)) = some e := by
  have hT : 'T'.toUInt8 = 84 := rfl
  have hG : 'G'.toUInt8 = 71 := rfl
  have hM : 'M'.toUInt8 = 77 := rfl
  have hK : 'K'.toUInt8 = 75 := rfl
  have hB : 'B'.toUInt8 = 66 := rfl
  simp only [suffixes, List.mem_cons, List.not_mem_nil, or_false] at he
  rcases he with rfl | rfl | rfl | rfl | rfl | rfl | rfl | rfl <;>
    simp [suffixes, ascii, List.isSuffixOf, List.isPrefixOf, hT, hG, hM, hK, hB]

/-- Where the last byte is not a letter, there is no suffix. -/
theorem find_suffixes_eq_none {before : Bytes} {b : UInt8} (hb : b.toNat ≤ 57) :
    suffixes.find? (fun e => e.1.isSuffixOf (before ++ [b])) = none := by
  refine List.find?_eq_none.2 fun e he hsuffix => ?_
  obtain ⟨init, c, heq, hc⟩ := getLast_of_mem_suffixes he
  obtain ⟨rest, hrest⟩ := List.isSuffixOf_iff_suffix.1 hsuffix
  rw [heq, ← List.append_assoc] at hrest
  obtain rfl := List.singleton_inj.1 (List.append_inj' hrest rfl).2
  omega

/-- Digits and blanks are the same in upper case. -/
theorem upper_of_le {b : UInt8} (h : b.toNat ≤ 57) : upper b = b := by
  rw [upper, if_neg]
  rintro ⟨hle, -⟩
  rw [UInt8.le_iff_toNat_le] at hle
  exact absurd (hle.trans h) (by decide)

/-- Blanks come before the letters, so no unit begins with one. -/
theorem toNat_le_of_isSpace {b : UInt8} (h : isSpace b = true) : b.toNat ≤ 57 := by
  rw [isSpace, Bool.or_eq_true, decide_eq_true_iff, Bool.and_eq_true, decide_eq_true_iff,
    decide_eq_true_iff, UInt8.le_iff_toNat_le, UInt8.le_iff_toNat_le] at h
  rcases h with rfl | ⟨-, hle⟩
  · decide
  · exact hle.trans (by decide)

/-! ### Number and suffix -/

/-- What `ParseMemoryBytes` takes for the number, and the multiplier, in a text that has been
trimmed. -/
def splitUnit (t : Bytes) : Bytes × ℤ :=
  match suffixes.find? fun e => e.1.isSuffixOf (toUpper t) with
  | some (suffix, mult) => (trimSpace (t.take (t.length - suffix.length)), mult)
  | none => (t, 1)

/-- What is accepted, in terms of the unit that was taken off. -/
theorem parseMemoryBytes_eq_ok_iff_splitUnit {s : Ascii} {n : ℤ} :
    parseMemoryBytes s = .ok n ↔ ∃ number,
      parseInt (splitUnit (trimSpace s.1)).1 = .ok number ∧
        n = int64 (uint64 (number * (splitUnit (trimSpace s.1)).2)) := by
  unfold parseMemoryBytes splitUnit
  dsimp only
  cases suffixes.find? fun e => e.1.isSuffixOf (toUpper (trimSpace s.1)) with
  | none =>
    dsimp only
    constructor
    · intro h
      refine ⟨n, h, ?_⟩
      rw [mul_one, int64_uint64 (parseInt_eq_ok_iff.1 h).2]
    · rintro ⟨number, h, rfl⟩
      rw [mul_one, int64_uint64 (parseInt_eq_ok_iff.1 h).2, h]
  | some e =>
    dsimp only
    cases parseInt (trimSpace ((trimSpace s.1).take ((trimSpace s.1).length - e.1.length))) with
    | error e => simp
    | ok number =>
      simp only [Except.ok.injEq, exists_eq_left']
      exact eq_comm

variable {s lead num gap unit trail : Bytes} {number mult : ℤ}

/-- A multiplier other than 1 comes with a suffix of the table. -/
theorem Multiplier.cases (h : Multiplier unit mult) :
    unit = [] ∧ mult = 1 ∨ (toUpper unit, mult) ∈ suffixes := by
  rcases h with h | ⟨c, p, hc, rfl, hunit⟩
  · exact Or.inl h
  · exact Or.inr (mem_suffixes_iff.2 ⟨c, p, hc, rfl, hunit⟩)

/-- What is a suffix in upper case does not end with a blank. -/
theorem exists_last_of_mem_suffixes (h : (toUpper unit, mult) ∈ suffixes) :
    ∃ front c, unit = front ++ [c] ∧ isSpace c = false := by
  obtain ⟨init, c, heq, hc⟩ := getLast_of_mem_suffixes h
  obtain ⟨front, last, rfl, -, hlast⟩ := List.map_eq_append_iff.1 heq
  obtain ⟨c', rfl, rfl⟩ := List.map_eq_singleton_iff.1 hlast
  refine ⟨front, c', rfl, Bool.eq_false_iff.2 fun hspace => ?_⟩
  have hle := toNat_le_of_isSpace hspace
  rw [upper_of_le hle] at hc
  omega

/-- **A size is taken apart as it was written,** whatever blanks stand around its parts and in
whichever case its suffix is. -/
theorem splitUnit_of_written (hlead : Blank lead) (hgap : Blank gap) (htrail : Blank trail)
    (hnum : Decimal num number) (hunit : Multiplier unit mult) :
    splitUnit (trimSpace (lead ++ (num ++ (gap ++ (unit ++ trail))))) = (num, mult) := by
  obtain ⟨hsolid, b, hlast, hdigit⟩ := hnum.solid
  obtain ⟨init, rfl⟩ := List.getLast?_eq_some_iff.1 hlast
  rcases hunit.cases with ⟨rfl, rfl⟩ | hmem
  · have hblank : Blank (gap ++ ([] ++ trail)) := by
      intro b hb
      exact (List.mem_append.1 hb).elim (hgap b) (htrail b)
    rw [trimSpace_eq hlead hblank hsolid, splitUnit, toUpper_append]
    have hb : b.toNat ≤ 57 := (isDigit_iff.1 hdigit).2
    have hupper : toUpper [b] = [b] := congrArg (fun x => [x]) (upper_of_le hb)
    rw [hupper, find_suffixes_eq_none hb]
  · have hsolidCore : Solid (init ++ [b] ++ (gap ++ unit)) := by
      constructor
      · intro c hc
        refine hsolid.1 c ?_
        rwa [List.head?_append_of_ne_nil _ (by simp)] at hc
      · intro c hc
        obtain ⟨front, c', rfl, hspace⟩ := exists_last_of_mem_suffixes hmem
        rw [← List.append_assoc, ← List.append_assoc, List.getLast?_concat] at hc
        rwa [← Option.mem_some.1 hc]
    have hcore : lead ++ (init ++ [b] ++ (gap ++ (unit ++ trail))) =
        lead ++ (init ++ [b] ++ (gap ++ unit) ++ trail) := by
      simp only [List.append_assoc]
    have hupper : toUpper (init ++ [b] ++ (gap ++ unit)) =
        toUpper (init ++ [b] ++ gap) ++ toUpper unit := by
      simp only [toUpper_append, List.append_assoc]
    have htake : (init ++ [b] ++ (gap ++ unit)).take
        ((init ++ [b] ++ (gap ++ unit)).length - (toUpper unit).length) = init ++ [b] ++ gap := by
      rw [length_toUpper, ← List.append_assoc _ gap, List.length_append, Nat.add_sub_cancel,
        List.take_left]
    rw [hcore, trimSpace_eq hlead htrail hsolidCore, splitUnit, hupper, find_suffixes hmem]
    dsimp only
    rw [htake, ← List.nil_append (init ++ [b] ++ gap), trimSpace_eq (by simp [Blank]) hgap hsolid]

/-- **And what is taken apart was written so,** if the part before the suffix is a number. -/
theorem written_of_splitUnit (h : Decimal (splitUnit (trimSpace s)).1 number) :
    Written s number (splitUnit (trimSpace s)).2 := by
  obtain ⟨lead, trail, hlead, htrail, hs⟩ := exists_trimSpace s
  unfold splitUnit at h ⊢
  cases hfind : suffixes.find? fun e => e.1.isSuffixOf (toUpper (trimSpace s)) with
  | none =>
    rw [hfind] at h
    exact ⟨lead, trimSpace s, [], [], trail, hs, hlead, by simp [Blank], htrail, h,
      Or.inl ⟨rfl, rfl⟩⟩
  | some e =>
    rw [hfind] at h
    dsimp only at h ⊢
    set t := trimSpace s
    have hsuffix := List.find?_some hfind
    obtain ⟨before, hbefore⟩ := List.isSuffixOf_iff_suffix.1 hsuffix
    have hlength : before.length = t.length - e.1.length := by
      rw [← length_toUpper t, ← hbefore, List.length_append, Nat.add_sub_cancel]
    have hunit : toUpper (t.drop (t.length - e.1.length)) = e.1 := by
      rw [toUpper, List.map_drop, ← hlength]
      exact (congrArg (List.drop before.length) hbefore).symm.trans List.drop_left
    obtain ⟨lead', gap, hlead', hgap, htake⟩ :=
      exists_trimSpace (t.take (t.length - e.1.length))
    refine ⟨lead ++ lead', _, gap, t.drop (t.length - e.1.length), trail, ?_, ?_, hgap, htrail, h,
      Or.inr ?_⟩
    · calc s = lead ++ (t ++ trail) := hs
        _ = lead ++ (t.take (t.length - e.1.length) ++ t.drop (t.length - e.1.length) ++ trail) := by
          rw [List.take_append_drop]
        _ = lead ++ (lead' ++ (trimSpace (t.take (t.length - e.1.length)) ++ gap) ++
              t.drop (t.length - e.1.length) ++ trail) := by
          rw [← htake]
        _ = _ := by
          simp only [List.append_assoc]
    · intro b hb
      exact (List.mem_append.1 hb).elim (hlead b) (hlead' b)
    · rw [hunit]
      exact mem_suffixes_iff.1 (List.mem_of_find?_eq_some hfind)

/-- **What is accepted:** a number that fits `int64`, with or without a suffix, and blanks.  The
result is their product, reduced to 64 bits. -/
theorem parseMemoryBytes_eq_ok_iff {s : Ascii} {n : ℤ} :
    parseMemoryBytes s = .ok n ↔ ∃ number mult,
      Written s.1 number mult ∧ FitsInt64 number ∧ n = int64 (uint64 (number * mult)) := by
  rw [parseMemoryBytes_eq_ok_iff_splitUnit]
  constructor
  · rintro ⟨number, hparse, rfl⟩
    obtain ⟨hdecimal, hfits⟩ := parseInt_eq_ok_iff.1 hparse
    exact ⟨number, _, written_of_splitUnit hdecimal, hfits, rfl⟩
  · rintro ⟨number, mult, ⟨lead, num, gap, unit, trail, hs, hlead, hgap, htrail, hnum, hunit⟩,
      hfits, rfl⟩
    rw [hs, splitUnit_of_written hlead hgap htrail hnum hunit]
    exact ⟨number, parseInt_eq_ok_iff.2 ⟨hnum, hfits⟩, rfl⟩

/-- A text is a size in one way only. -/
theorem Written.unique {number' mult' : ℤ} (h : Written s number mult)
    (h' : Written s number' mult') : number = number' ∧ mult = mult' := by
  obtain ⟨lead, num, gap, unit, trail, hs, hlead, hgap, htrail, hnum, hunit⟩ := h
  obtain ⟨lead', num', gap', unit', trail', hs', hlead', hgap', htrail', hnum', hunit'⟩ := h'
  have hsplit := splitUnit_of_written hlead hgap htrail hnum hunit
  rw [← hs, hs', splitUnit_of_written hlead' hgap' htrail' hnum' hunit'] at hsplit
  obtain ⟨rfl, rfl⟩ := Prod.mk.inj hsplit
  exact ⟨hnum.unique hnum', rfl⟩

/-- **A text denotes one size at most:** it is what the parser takes it apart into. -/
theorem Denotes.unique {z z' : ℤ} (h : Denotes s z) (h' : Denotes s z') : z = z' := by
  obtain ⟨number, mult, hwritten, rfl⟩ := h
  obtain ⟨number', mult', hwritten', rfl⟩ := h'
  obtain ⟨rfl, rfl⟩ := hwritten.unique hwritten'
  rfl

/-- **A size that is accepted is returned exactly, unless its product wraps.**  An accepted text
denotes one number, and the result is that number exactly if it fits `int64`. -/
theorem parseMemoryBytes_exact_iff {s : Ascii} {n : ℤ} (h : parseMemoryBytes s = .ok n) :
    ∃ z, Denotes s.1 z ∧ (∀ z', Denotes s.1 z' → z' = z) ∧ (n = z ↔ FitsInt64 z) := by
  obtain ⟨number, mult, hwritten, -, rfl⟩ := parseMemoryBytes_eq_ok_iff.1 h
  have hdenotes : Denotes s.1 (number * mult) := ⟨number, mult, hwritten, rfl⟩
  exact ⟨number * mult, hdenotes, fun z' hz' => hz'.unique hdenotes, int64_uint64_iff⟩

/-- The string of some ASCII characters. -/
def ofChars (cs : List Char) (h : ((ascii cs).all fun b => decide (b < 128)) = true) : Ascii :=
  ⟨ascii cs, fun b hb => of_decide_eq_true (List.all_eq_true.1 h b hb)⟩

/-- With a blank before it and in lower case. -/
def size512mb : Ascii := ofChars [' ', '5', '1', '2', 'm', 'b'] rfl

/-- The result is the size that the text denotes. -/
theorem parseMemoryBytes_exact_iff_512mb :
    parseMemoryBytes size512mb = .ok (2 ^ 29) ∧
      ∃ z, Denotes size512mb.1 z ∧ (∀ z', Denotes size512mb.1 z' → z' = z) ∧
        (2 ^ 29 = z ↔ FitsInt64 z) :=
  ⟨by decide +kernel, parseMemoryBytes_exact_iff (by decide +kernel)⟩

/-- A text whose number is one more than `2 ^ 24`. -/
def size16777217TB : Ascii := ofChars ['1', '6', '7', '7', '7', '2', '1', '7', 'T', 'B'] rfl

/-- **A product that wraps:** `2 ^ 24 + 1` terabytes are accepted and come out as one. -/
theorem parseMemoryBytes_wraps :
    parseMemoryBytes size16777217TB = .ok (2 ^ 40) ∧
      Denotes size16777217TB.1 (16777217 * 2 ^ 40) ∧ ¬Denotes size16777217TB.1 (2 ^ 40) := by
  have hsplit : splitUnit (trimSpace size16777217TB.1) =
      (ascii ['1', '6', '7', '7', '7', '2', '1', '7'], 2 ^ 40) := by
    decide +kernel
  have hnumber : parseInt (ascii ['1', '6', '7', '7', '7', '2', '1', '7']) = .ok 16777217 := by
    decide +kernel
  have hdecimal : Decimal (splitUnit (trimSpace size16777217TB.1)).1 16777217 := by
    rw [hsplit]
    exact (parseInt_eq_ok_iff.1 hnumber).1
  have hwritten := written_of_splitUnit hdecimal
  rw [hsplit] at hwritten
  have hdenotes : Denotes size16777217TB.1 (16777217 * 2 ^ 40) := ⟨_, _, hwritten, rfl⟩
  refine ⟨by decide +kernel, hdenotes, fun h => ?_⟩
  exact absurd (h.unique hdenotes) (by decide)

end Utils
end Keva
