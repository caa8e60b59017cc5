import Mixsheet.Catalog
import Mixsheet.Proofs.Decimal.Digits
import Mixsheet.Proofs.Node.ValueText
import Mixsheet.Proofs.Units

/-! # The values of built-in mixins

The built-in mixins make their values of numbers, units, colors and words of their own, and of the texts of their
arguments, which they take as they are. All but the arguments are values wherever they are put, so the declarations of
a mixin are read back if the texts of its arguments are values and its keys are properties. -/

namespace Mixsheet

open Node

/-! ### Numbers -/

theorem isWordChar_of_isNumberChar {c : Char} (h : isNumberChar c = true) : isWordChar c = true ∧ c.toLower ≠ 'u' :=
  @forall_of_isNumberChar (fun c => isWordChar c = true ∧ c.toLower ≠ 'u') (by decide +kernel) c h

theorem isFront_of_number {cs : List Char} (h : IsNumberText cs) : IsFront cs := by
  obtain ⟨c, ds, rfl⟩ := List.exists_cons_of_ne_nil h.1
  exact ⟨⟨c, rfl, (isWordChar_of_isNumberChar (h.2 c List.mem_cons_self)).2⟩,
    fun d hd => (isWordChar_of_isNumberChar (h.2 d hd)).1⟩

/-- A number is a value, with or without a percent sign behind it. -/
theorem isValue_of_number {s : String} (h : IsNumberText s.toList) : IsValue s ∧ IsValue (s ++ "%") := by
  have hchars := (isFront_of_number h).chars
  have hne : s ≠ "" := by
    rintro rfl
    exact h.1 rfl
  refine ⟨isValue_of_word (isPlainWord_iff.mpr ⟨hne, hchars⟩), isValue_of_word (isPlainWord_iff.mpr ⟨?_, ?_⟩)⟩
  · simp [hne]
  · have hpercent : isWordChar '%' = true := rfl
    rw [String.toList_append]
    exact List.forall_mem_append.mpr ⟨hchars, by simpa using hpercent⟩

theorem isNumberText_of_number? {v : Value} (h : v.number?.isSome = true) : IsNumberText v.render.toList := by
  cases v with
  | number x => rw [Value.render]; exact Value.isNumberText_renderNumber x
  | text s =>
    have hnumber : Units.isNumber s = true := h
    refine ⟨toList_ne_nil ?_, fun c hc => ?_⟩
    · rw [Value.render]
      rintro rfl
      cases Units.isNumber_empty.symm.trans hnumber
    · rw [Value.render] at hc
      rcases Units.chars_of_isNumber hnumber c hc with hdigit | rfl
      · exact isNumberChar_of_isDigit hdigit
      · decide
  | _ => cases h

/-! ### Units -/

namespace Units

/-- A number with a unit behind it is a value. -/
structure Tame (u : Units) : Prop where
  general : IsValue ("0" ++ u.general)
  lineHeight : IsValue ("0" ++ u.lineHeight)

variable {u : Units} {v : Value}

theorem Tame.unit (hu : u.Tame) (property : String) : IsValue ("0" ++ u.unit property) := by
  unfold Units.unit
  split
  · exact hu.lineHeight
  · exact hu.general

theorem number?_of_takesUnit {property : String} (h : takesUnit v property = true) : v.number?.isSome = true := by
  have hnumeric : isNumeric v = true := by
    unfold takesUnit at h
    simp only [Bool.and_eq_true] at h
    exact h.1.2
  cases v with
  | number x => rfl
  | text s => exact hnumeric
  | _ => cases hnumeric

/-- A value is one with its unit. -/
theorem isValue_apply (hu : u.Tame) (hv : IsValue v.render) (property? : Option String) :
    IsValue (u.apply v property?) := by
  unfold apply
  split
  · exact hv
  rename_i property
  split
  · rename_i htakes
    have hnumber := isNumberText_of_number? (number?_of_takesUnit htakes)
    have hzero : IsNumberText "0".toList := isNumberText_natRepr 0
    exact (hu.unit property).exchange (isFront_of_number hzero) (isFront_of_number hnumber)
  · exact hv

end Units

/-! ### Opacities and colors -/

theorem isValue_text {s : String} (h : IsValue s) : IsValue (Value.text s).render := by rwa [Value.render]

theorem isValue_number (x : Float) : IsValue (Value.number x).render := by
  rw [Value.render]
  exact (isValue_of_number (Value.isNumberText_renderNumber x)).1

namespace Opacity

variable {v : Value}

theorem ofNumber_cases (v : Value) : (∃ x, ofNumber v = .number x) ∨ ofNumber v = v := by
  unfold ofNumber
  split
  · split
    · exact .inl ⟨_, rfl⟩
    · exact .inr rfl
  · exact .inr rfl

/-- An opacity is a number, or the value that it is taken of. -/
theorem fraction_cases (v : Value) : (∃ x, fraction v = .number x) ∨ fraction v = v := by
  unfold fraction
  split
  · split
    · exact .inl ⟨_, rfl⟩
    · exact ofNumber_cases _
  · exact ofNumber_cases _

theorem isNumberText_fraction (h : v.number?.isSome = true) : IsNumberText (fraction v).render.toList := by
  rcases fraction_cases v with ⟨x, hx⟩ | hv
  · exact isNumberText_of_number? (by rw [hx]; rfl)
  · rw [hv]
    exact isNumberText_of_number? h

theorem isValue_fraction (h : IsValue v.render) : IsValue (fraction v).render := by
  rcases fraction_cases v with ⟨x, hx⟩ | hv
  · rw [hx]
    exact isValue_number x
  · rwa [hv]

end Opacity

namespace Color

/-- The text has no characters but those of numbers, commas and blanks. -/
def IsNumberList (s : String) : Prop := ∀ c ∈ s.toList, isNumberChar c = true ∨ c = ',' ∨ c = ' '

theorem IsNumberList.append {s t : String} (hs : IsNumberList s) (ht : IsNumberList t) : IsNumberList (s ++ t) := by
  rw [IsNumberList, String.toList_append]
  exact List.forall_mem_append.mpr ⟨hs, ht⟩

theorem isNumberList_of_number {s : String} (h : IsNumberText s.toList) : IsNumberList s := fun c hc => .inl (h.2 c hc)

theorem isNumberList_comma : IsNumberList ", " := by simp [IsNumberList]

theorem isNumberList_channels (r g b : Nat) : IsNumberList s!"{r}, {g}, {b}" := by
  have hnumber : ∀ n : Nat, IsNumberList (toString n) := fun n => isNumberList_of_number (isNumberText_natRepr n)
  exact ((((hnumber r).append isNumberList_comma).append (hnumber g)).append isNumberList_comma).append (hnumber b)

/-- A function of numbers is a value. -/
theorem isValue_function {name inner : String} (hname : IsFront name.toList) (hinner : IsNumberList inner) :
    IsValue (name ++ "(" ++ inner ++ ")") := by
  have hchar : ∀ c ∈ inner.toList, c ≠ ')' ∧ Lexeme.ungroupable.contains c = false := by
    intro c hc
    rcases hinner c hc with hnumber | rfl | rfl
    · exact @forall_of_isNumberChar (fun c => c ≠ ')' ∧ Lexeme.ungroupable.contains c = false) (by decide +kernel) c hnumber
    · decide
    · decide
  refine isValue_group hname (fun hmem => (hchar _ hmem).1 rfl) ?_
  rw [Lexeme.groups, if_neg Bool.false_ne_true]
  exact List.all_eq_true.mpr fun c hc => by rw [(hchar c hc).2]; rfl

/-- A hexadecimal color with an opacity is a function of numbers. -/
theorem isValue_rgba {color text : String} {opacity : Value} (h : rgba? color (some opacity) = some text)
    (hopacity : opacity.number?.isSome = true) : IsValue text ∧ text ≠ "" := by
  obtain ⟨⟨r, g, b⟩, -, htext⟩ := Option.bind_eq_some_iff.mp h
  have halpha := isNumberList_of_number (Opacity.isNumberText_fraction hopacity)
  have hchannels := isNumberList_channels r g b
  dsimp only [Option.map_some] at htext
  split at htext
  · obtain rfl := Option.some.inj htext
    have hname : IsFront "rgba".toList := isFront_of_word rfl rfl
    refine ⟨?_, by simp⟩
    have := isValue_function hname ((hchannels.append isNumberList_comma).append halpha)
    simpa [String.append_assoc] using this
  · obtain rfl := Option.some.inj htext
    have hname : IsFront "rgb".toList := isFront_of_word rfl rfl
    refine ⟨?_, by simp⟩
    simpa [String.append_assoc] using isValue_function hname hchannels

end Color

namespace Catalog

/-! ### Words and borders -/

theorem isValue_solid {color : String} (h : IsValue color) (hne : color ≠ "") : IsValue (solid color) := by
  have hpx : IsValue "1px" := isValue_of_word rfl
  have hsolid : IsValue "solid" := isValue_of_word rfl
  have := (hpx.blank hsolid (by simp) (by simp)).blank h (by simp) hne
  exact this

theorem isValue_borderOf {s : String} (h : IsValue s) : IsValue (borderOf s) := by
  unfold borderOf
  split
  · rename_i hcolor
    refine isValue_solid h ?_
    rintro rfl
    have hempty : Color.occursIn "" = false := by decide +kernel
    rw [hempty] at hcolor
    cases hcolor
  · exact h

end Catalog

end Mixsheet
