import Mixsheet.Units

/-! # Texts that are numbers and texts that are none

A text with a character that is no digit and no point is no plain number: it is a value as it stands, and
it takes no unit. So a value that has its unit does not get another one, and what is written with one setting of the
units is written with another one but for the unit behind it. A text that is a plain number has no unit and holds no
white space, so it takes the unit of every property that has one. -/

namespace Mixsheet

theorem Decimal.readPlain?_eq_none {s : String} (h : (s.toList.all fun c => c.isDigit || c == '.') = false) :
    readPlain? s = none := by
  rw [readPlain?, h]
  rfl

theorem Value.ofText_eq_text {s : String} (hne : s ≠ "") (h : Decimal.readPlain? s = none) :
    ofText s = .text s := by
  rw [ofText, if_neg hne, h]

theorem Units.apply_text {s : String} (h : Decimal.readPlain? s = none) (u : Units) (prop : String) :
    u.apply (.text s) (some prop) = s := by
  have hunit : takesUnit (.text s) prop = false := by simp [takesUnit, isNumeric, isNumber, h]
  rw [apply, hunit]
  rfl

/-! ### Two settings of the units -/

/-- The unit is empty, or a text that ends with it is no number. -/
def IsMark (unit : String) : Prop := unit = "" ∨ ∃ c ∈ unit.toList, c.isDigit = false ∧ c ≠ '.'

theorem IsMark.readPlain?_eq_none {unit : String} (h : IsMark unit) (hne : unit ≠ "") (x : String) :
    Decimal.readPlain? (x ++ unit) = none := by
  obtain ⟨c, hc, hdigit, hpoint⟩ := h.resolve_left hne
  refine Decimal.readPlain?_eq_none (List.all_eq_false.mpr ⟨c, ?_, by simp [hdigit, hpoint]⟩)
  rw [String.toList_append]
  exact List.mem_append_right _ hc

namespace Units

/-- Neither unit goes on with a number. -/
structure Proper (u : Units) : Prop where
  general : IsMark u.general
  lineHeight : IsMark u.lineHeight

/-- The texts are the same, or the same but for the unit of either setting behind them. -/
inductive Alike (u₁ u₂ : Units) : String → String → Prop where
  | same (s : String) : Alike u₁ u₂ s s
  | general (s : String) : Alike u₁ u₂ (s ++ u₁.general) (s ++ u₂.general)
  | lineHeight (s : String) : Alike u₁ u₂ (s ++ u₁.lineHeight) (s ++ u₂.lineHeight)

variable {u u₁ u₂ : Units}

theorem alike_apply (v : Value) (property? : Option String) : u₁.Alike u₂ (u₁.apply v property?) (u₂.apply v property?) := by
  cases property? with
  | none => exact .same _
  | some property =>
    unfold apply
    dsimp only
    by_cases hunit : takesUnit v property = true
    · rw [if_pos hunit, if_pos hunit]
      unfold unit
      by_cases hproperty : property = "line-height"
      · rw [if_pos hproperty, if_pos hproperty]
        exact .lineHeight _
      · rw [if_neg hproperty, if_neg hproperty]
        exact .general _
    · rw [if_neg hunit, if_neg hunit]
      exact .same _

theorem bare_eq (u : Units) (v : Value) :
    u.bare v = if takesUnit v "" then v.render ++ u.general else v.render := rfl

/-- A text with its unit does not take another one. -/
theorem Proper.apply_general (hu : u.Proper) (s : String) {property : String} (hproperty : property ≠ "line-height") :
    u.apply (.text (s ++ u.general)) (some property) = s ++ u.general := by
  by_cases hempty : u.general = ""
  · have hunit : u.unit property = "" := by rw [unit, if_neg hproperty, hempty]
    rw [hempty, String.append_empty, apply, hunit, String.append_empty, ite_self]
    rfl
  · exact apply_text (hu.general.readPlain?_eq_none hempty s) u property

/-! ### Plain numbers -/

theorem isNumber_empty : isNumber "" = false := by decide +kernel

theorem chars_of_isNumber {s : String} (h : isNumber s = true) : ∀ c ∈ s.toList, c.isDigit = true ∨ c = '.' := by
  have hall : (s.toList.all fun c => c.isDigit || c == '.') = true := by
    refine eq_true_of_ne_false fun hother => ?_
    rw [isNumber, Decimal.readPlain?_eq_none hother] at h
    cases h
  intro c hc
  simpa using List.all_eq_true.mp hall c hc

theorem isBlank_of_plain {c : Char} (h : c.isDigit = true ∨ c = '.') : Text.isBlank c = false := by
  rcases h with hdigit | rfl
  · simp only [Char.isDigit, Bool.and_eq_true, decide_eq_true_eq, UInt32.le_iff_toNat_le] at hdigit
    have hlow : 48 ≤ c.toNat := hdigit.1
    have hhigh : c.toNat ≤ 57 := hdigit.2
    simp only [Text.isBlank, Text.blanks, Text.CharSet.contains, Text.CharSet.containsCode, Bool.and_eq_false_iff,
      Bool.or_eq_false_iff, decide_eq_false_iff_not]
    omega
  · decide

theorem hasUnit_of_isNumber {s : String} (h : isNumber s = true) : hasUnit s = false := by
  have hmark : ∀ unit ∈ suffixes, ∃ c ∈ unit.toList, c.isDigit = false ∧ c ≠ '.' := by simp [suffixes]
  refine List.any_eq_false.mpr fun unit hunit hsuffix => ?_
  obtain ⟨c, hc, hdigit, hpoint⟩ := hmark unit hunit
  rcases chars_of_isNumber h c ((List.isSuffixOf_iff_suffix.mp hsuffix).mem hc) with hc | hc
  · rw [hdigit] at hc
    cases hc
  · exact hpoint hc

/-- As the value of a property that has the general unit, a text is written as it is, with the unit behind it if it is
a plain number. -/
theorem apply_text_eq (u : Units) (s : String) {property : String} (hunit : property ∉ unitless)
    (hline : property ≠ "line-height") :
    u.apply (.text s) (some property) = if isNumber s then s ++ u.general else s := by
  have hgeneral : u.unit property = u.general := if_neg hline
  rw [apply, hgeneral]
  by_cases hnumber : isNumber s = true
  · have hblank : s.toList.any Text.isBlank = false :=
      List.any_eq_false.mpr fun c hc => by simp [isBlank_of_plain (chars_of_isNumber hnumber c hc)]
    have htakes : takesUnit (.text s) property = true := by
      simp [takesUnit, hunit, isZero, Value.render, hblank, isNumeric, hnumber, hasUnit_of_isNumber hnumber]
    rw [if_pos htakes, if_pos hnumber, Value.render]
  · have htakes : takesUnit (.text s) property = false := by simp [takesUnit, isNumeric, hnumber]
    rw [htakes, if_neg hnumber]
    rfl

end Units

/-! ### A number -/

theorem Value.ofText_ten : ofText "10" = .number 10 := by
  have hten : Decimal.readPlain? "10" = some 10 := by decide +kernel
  rw [ofText, if_neg (by decide), hten]

theorem Units.apply_ten (u : Units) : u.apply (.number 10) (some "left") = "10" ++ u.general := by
  have hrender : (Value.number 10).render = "10" := by decide +kernel
  have htakes : takesUnit (.number 10) "left" = true := by decide +kernel
  rw [apply, if_pos htakes, hrender]
  rfl

end Mixsheet
