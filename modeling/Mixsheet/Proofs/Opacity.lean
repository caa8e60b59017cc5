import Mixsheet.Opacity
import Mixsheet.Proofs.Decimal.Integer

/-! # Percentages as numbers

A percentage is digits with a percent sign behind them. The digits may be of any script, but only ASCII digits are read
as a number, so a percentage of other digits is no opacity at all. -/

namespace Mixsheet.Opacity

open Decimal Text

/-! ### Digits of any script -/

/-- A digit is an ASCII one, or comes behind all ASCII characters. -/
theorem isDigit_or_of_isDecimalDigit {c : Char} (h : isDecimalDigit c = true) : c.isDigit = true ∨ 128 ≤ c.toNat := by
  have hcode : CharSet.containsCode decimalDigits c.toNat = true := h
  rw [decimalDigits, CharSet.containsCode, CharSet.containsCode] at hcode
  simp only [Bool.and_eq_true, Bool.or_eq_true, decide_eq_true_eq] at hcode
  rw [isDigit_iff]
  omega

theorem toLower_of_isDecimalDigit {c : Char} (h : isDecimalDigit c = true) : c.toLower = c := by
  refine dif_neg ?_
  simp only [ge_iff_le, UInt32.le_iff_toNat_le]
  rintro ⟨hfirst, hlast⟩
  have hfirst : 65 ≤ c.toNat := hfirst
  have hlast : c.toNat ≤ 90 := hlast
  rcases isDigit_or_of_isDecimalDigit h with hdigit | hbeyond
  · rw [isDigit_iff] at hdigit
    omega
  · omega

variable {digits : List Char}

theorem takeSign_of_isDecimalDigit (h : ∀ d ∈ digits, isDecimalDigit d = true) : takeSign digits = (false, digits) := by
  rcases takeSign_cases digits with ⟨ds, rfl, -⟩ | ⟨ds, rfl, -⟩ | hbare
  · exact absurd (h _ List.mem_cons_self) (by decide)
  · exact absurd (h _ List.mem_cons_self) (by decide)
  · exact hbare

/-- Digits spell no word that stands for a number. -/
theorem readWord?_of_isDecimalDigit (h : ∀ d ∈ digits, isDecimalDigit d = true) : readWord? digits = none := by
  have hlower : digits.map Char.toLower = digits :=
    (List.map_congr_left fun d hd => toLower_of_isDecimalDigit (h d hd)).trans (List.map_id digits)
  have hne (word : String) (hword : ∃ c ∈ word.toList, isDecimalDigit c = false) : String.ofList digits ≠ word := by
    rintro rfl
    obtain ⟨c, hc, hnone⟩ := hword
    rw [String.toList_ofList] at hc
    rw [h c hc] at hnone
    cases hnone
  rw [readWord?, hlower, if_neg (not_or.mpr ⟨hne "inf" ⟨'i', by decide⟩, hne "infinity" ⟨'i', by decide⟩⟩),
    if_neg (hne "nan" ⟨'n', by decide⟩)]

theorem read?_of_isDecimalDigit (h : ∀ d ∈ digits, isDecimalDigit d = true) :
    read? (.ofList digits) = readUnsigned? digits := by
  rw [read?, String.toList_ofList, takeSign_of_isDecimalDigit h]
  dsimp only
  rw [readWord?_of_isDecimalDigit h, Option.none_or, if_neg Bool.false_ne_true]

theorem scaled_whole (digits : List Char) : scaled digits 0 = nearest (value digits) 1 := by
  have hlength : ¬ ((0 : Int) + digits.length < -330) := by omega
  have hpower : Nat.pow 10 (Int.toNat 0) = 1 := rfl
  rw [scaled]
  simp only [hlength, or_false]
  split
  · rename_i hzero
    rw [hzero]
  · rw [if_neg (by decide), Int.neg_zero, hpower, Nat.mul_one]

/-- ASCII digits are read as the double nearest to their number. -/
theorem readUnsigned?_numeral {n : Nat} (h : Numeral digits n) : readUnsigned? digits = some (nearest n 1) := by
  obtain ⟨hne, hdigits, rfl⟩ := h.digits
  have hwhole : digits.takeWhile Char.isDigit = digits := List.takeWhile_eq_self_iff.mpr hdigits
  have hrest : digits.dropWhile Char.isDigit = [] := List.dropWhile_eq_nil_iff.mpr hdigits
  have hempty : digits.isEmpty = false := by simp [hne]
  rw [readUnsigned?, hwhole, hrest, ← scaled_whole]
  simp [hempty, readExponent?]

/-- A digit that is no ASCII one ends what is read, and neither a point nor an exponent begins with it. -/
theorem readUnsigned?_of_exists (h : ∀ d ∈ digits, isDecimalDigit d = true) (hexotic : ∃ d ∈ digits, d.isDigit = false) :
    readUnsigned? digits = none := by
  obtain ⟨d, ds, hrest⟩ : ∃ d ds, digits.dropWhile Char.isDigit = d :: ds := by
    refine List.exists_cons_of_ne_nil fun hnil => ?_
    obtain ⟨d, hd, hnone⟩ := hexotic
    rw [List.dropWhile_eq_nil_iff.mp hnil d hd] at hnone
    cases hnone
  have hd : isDecimalDigit d = true := h d ((List.dropWhile_suffix _).subset (hrest ▸ List.mem_cons_self))
  have hne {c : Char} (hc : isDecimalDigit c = false) : d ≠ c := by
    rintro rfl
    rw [hd] at hc
    cases hc
  have hexponent : readExponent? (d :: ds) = none := by
    rw [readExponent?, if_neg (not_or.mpr ⟨hne (by decide), hne (by decide)⟩)]
  rw [readUnsigned?, hrest]
  dsimp only
  split
  · rename_i heq
    exact absurd (List.cons.inj heq).1 (hne (by decide))
  · rw [hexponent, Option.map_none, ite_self]

/-! ### Percentages -/

/-- The digits of a percentage, which may be of any script. -/
structure IsPercentOf (digits : List Char) (s : String) : Prop where
  text : s.toList = digits ++ ['%']
  some_ : digits ≠ []
  digit : ∀ d ∈ digits, isDecimalDigit d = true

theorem isPercentage_iff {s : String} : isPercentage s = true ↔ ∃ digits, IsPercentOf digits s := by
  unfold isPercentage
  constructor
  · intro h
    split at h
    · rename_i ds hreverse
      simp only [Bool.and_eq_true, Bool.not_eq_true', List.isEmpty_eq_false_iff, List.all_eq_true] at h
      have htext : s.toList = ds.reverse ++ ['%'] := by
        rw [← List.reverse_cons, ← hreverse, List.reverse_reverse]
      exact ⟨ds.reverse, htext, by simpa using h.1, fun d hd => h.2 d (List.mem_reverse.mp hd)⟩
    · cases h
  · rintro ⟨digits, htext, hne, hdigits⟩
    rw [htext, List.reverse_append, List.reverse_singleton, List.singleton_append]
    simp only [Bool.and_eq_true, Bool.not_eq_true', List.isEmpty_eq_false_iff, List.all_eq_true]
    exact ⟨by simpa using hne, fun d hd => hdigits d (List.mem_reverse.mp hd)⟩

theorem IsPercentOf.fraction_eq {s : String} (h : IsPercentOf digits s) :
    fraction (.text s) = .number ((read? (.ofList digits)).getD 0 / 100) := by
  rw [fraction, if_pos (isPercentage_iff.mpr ⟨digits, h⟩), percent, h.text, List.dropLast_concat]

/-- A percentage in ASCII digits is read as its number, and is the hundredth part of it as an opacity. Of any other
percentage nothing is read, and it is no opacity at all. -/
theorem fraction_percentage {s : String} (h : isPercentage s = true) : ∃ digits, IsPercentOf digits s ∧
    ((∃ n, Numeral digits n ∧ read? (.ofList digits) = some (nearest n 1) ∧
        fraction (.text s) = .number (nearest n 1 / 100)) ∨
      (∃ d ∈ digits, d.isDigit = false) ∧ read? (.ofList digits) = none ∧ fraction (.text s) = .number 0) := by
  obtain ⟨digits, hpercent⟩ := isPercentage_iff.mp h
  have hread := read?_of_isDecimalDigit hpercent.digit
  have hfraction := hpercent.fraction_eq
  refine ⟨digits, hpercent, ?_⟩
  by_cases hascii : ∀ d ∈ digits, d.isDigit = true
  · have hnumeral := numeral_value hpercent.some_ hascii
    rw [readUnsigned?_numeral hnumeral] at hread
    rw [hread] at hfraction
    exact .inl ⟨_, hnumeral, hread, hfraction⟩
  · have hexotic : ∃ d ∈ digits, d.isDigit = false := by simpa using hascii
    rw [readUnsigned?_of_exists hpercent.digit hexotic] at hread
    rw [hread] at hfraction
    exact .inr ⟨hexotic, hread, hfraction⟩

/-- A percentage in ASCII digits, and one in digits of another script. -/
theorem fraction_percentage_of_digits : isPercentage "20%" = true ∧ isPercentage "٢٠%" = true ∧
    fraction (.text "20%") = .number (nearest 20 1 / 100) ∧ fraction (.text "٢٠%") = .number 0 := by
  have hascii : isPercentage "20%" = true := by cbv
  have hexotic : isPercentage "٢٠%" = true := by cbv
  refine ⟨hascii, hexotic, ?_, ?_⟩
  · obtain ⟨digits, ⟨htext, -, -⟩, hcases⟩ := fraction_percentage hascii
    obtain rfl : ['2', '0'] = digits := List.append_cancel_right htext
    rcases hcases with ⟨n, hnumeral, -, hfraction⟩ | ⟨hnone, -, -⟩
    · obtain rfl : 20 = n := hnumeral.digits.2.2
      exact hfraction
    · exact absurd hnone (by simp)
  · obtain ⟨digits, ⟨htext, -, -⟩, hcases⟩ := fraction_percentage hexotic
    obtain rfl : ['٢', '٠'] = digits := List.append_cancel_right htext
    rcases hcases with ⟨n, hnumeral, -, -⟩ | ⟨-, -, hfraction⟩
    · exact absurd hnumeral.digits.2.1 (by simp)
    · exact hfraction

/-- Digits of another script make a percentage, but are not read as a number. -/
theorem percentage_reads_fails : ¬ ∀ s digits, IsPercentOf digits s →
    ∃ x, read? (.ofList digits) = some x ∧ fraction (.text s) = .number (x / 100) := by
  intro h
  have hdigit : isDecimalDigit '٣' = true := by cbv
  obtain ⟨x, hread, -⟩ := h "٣%" ['٣'] ⟨rfl, List.cons_ne_nil _ _, List.forall_mem_singleton.mpr hdigit⟩
  have hnone : read? (.ofList ['٣']) = none := by decide +kernel
  cases hnone.symm.trans hread

end Mixsheet.Opacity
