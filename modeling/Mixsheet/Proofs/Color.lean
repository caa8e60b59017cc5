import Mixsheet.Color
import Mixsheet.Proofs.Text.Blank
import Mixsheet.Proofs.Text.Pattern

/-! # What counts as a color

A text is a color if it is `#` with word characters behind it, or a function of three numbers or percentages and
perhaps an opacity. A text holds a color if a part of it is one. -/

namespace Mixsheet.Color

open Text Text.Pattern

/-- A number or percentage, with commas behind it that each stand before a white space. -/
def IsComponent (cs : List Char) : Prop :=
  ∃ digits percent blanks, cs = digits ++ percent ++ blanks.flatMap (fun b => [',', b]) ∧ digits ≠ [] ∧
    (∀ d ∈ digits, isDecimalDigit d = true) ∧ (percent = ['%'] ∨ percent = []) ∧ Blank blanks

/-- Digits with perhaps a point before some of them. -/
def IsAlpha (cs : List Char) : Prop :=
  ∃ whole point fraction, cs = whole ++ point ++ fraction ∧ (∀ d ∈ whole, isDecimalDigit d = true) ∧
    (point = ['.'] ∨ point = []) ∧ fraction ≠ [] ∧ ∀ d ∈ fraction, isDecimalDigit d = true

/-- The whole text is one color. -/
inductive IsColor : List Char → Prop where
  | hex {digits : List Char} (some_ : digits ≠ []) (word : ∀ d ∈ digits, isWordChar d = true) : IsColor ('#' :: digits)
  | function {name red green blue alpha : List Char} (some_ : name ≠ []) (word : ∀ c ∈ name, isWordChar c = true)
    (red_ : IsComponent red) (green_ : IsComponent green) (blue_ : IsComponent blue)
    (alpha_ : IsAlpha alpha ∨ alpha = []) : IsColor (name ++ '(' :: (red ++ (green ++ (blue ++ (alpha ++ [')'])))))

variable {cs : List Char}

theorem matches_gaps : Matches (.many (.seq (exactly ',') (.one .blank))) cs ↔
    ∃ blanks, cs = blanks.flatMap (fun b => [',', b]) ∧ Blank blanks := by
  constructor
  · intro h
    generalize hp : Pattern.many _ = p at h
    induction h with
    | stop => exact ⟨[], rfl, blank_nil⟩
    | @again p as bs first rest _ ih =>
      obtain rfl := Pattern.many.inj hp
      obtain ⟨bs, rfl, hblanks⟩ := ih rfl
      obtain ⟨_, _, rfl, hcomma, hblank⟩ := matches_seq.mp first
      obtain rfl := matches_exactly.mp hcomma
      obtain ⟨b, rfl, hb⟩ := matches_one.mp hblank
      exact ⟨b :: bs, rfl, List.forall_mem_cons.mpr ⟨hb, hblanks⟩⟩
    | _ => cases hp
  · rintro ⟨blanks, rfl, hblanks⟩
    induction blanks with
    | nil => exact .stop
    | cons b blanks ih =>
      obtain ⟨hb, hrest⟩ := List.forall_mem_cons.mp hblanks
      exact .again (.seq (matches_exactly.mpr rfl) (.one hb)) (ih hrest)

theorem matches_componentPattern : Matches componentPattern cs ↔ IsComponent cs := by
  simp only [componentPattern, all, matches_seq, matches_some_one, matches_optional, matches_exactly, matches_gaps,
    CharClass.contains, IsComponent]
  constructor
  · rintro ⟨digits, _, rfl, ⟨hne, hdigits⟩, percent, _, rfl, hpercent, blanks, rfl, hblanks⟩
    exact ⟨digits, percent, blanks, by simp, hne, hdigits, hpercent, hblanks⟩
  · rintro ⟨digits, percent, blanks, rfl, hne, hdigits, hpercent, hblanks⟩
    exact ⟨digits, _, List.append_assoc .., ⟨hne, hdigits⟩, percent, _, rfl, hpercent, blanks, rfl, hblanks⟩

theorem matches_alphaPattern : Matches alphaPattern cs ↔ IsAlpha cs := by
  simp only [alphaPattern, all, matches_seq, matches_some_one, matches_many_one, matches_optional, matches_exactly,
    CharClass.contains, IsAlpha]
  constructor
  · rintro ⟨whole, _, rfl, hwhole, point, fraction, rfl, hpoint, hne, hfraction⟩
    exact ⟨whole, point, fraction, by simp, hwhole, hpoint, hne, hfraction⟩
  · rintro ⟨whole, point, fraction, rfl, hwhole, hpoint, hne, hfraction⟩
    exact ⟨whole, _, List.append_assoc .., hwhole, point, fraction, rfl, hpoint, hne, hfraction⟩

theorem matches_hexPattern : Matches hexPattern cs ↔
    ∃ digits, cs = '#' :: digits ∧ digits ≠ [] ∧ ∀ d ∈ digits, isWordChar d = true := by
  simp only [hexPattern, matches_seq, matches_some_one, matches_exactly, CharClass.contains]
  constructor
  · rintro ⟨_, digits, rfl, rfl, hdigits⟩
    exact ⟨digits, rfl, hdigits⟩
  · rintro ⟨digits, rfl, hdigits⟩
    exact ⟨_, digits, rfl, rfl, hdigits⟩

/-- The pattern of colors stands for the colors. -/
theorem matches_pattern : Matches pattern cs ↔ IsColor cs := by
  rw [pattern, matches_either, matches_hexPattern]
  simp only [functionPattern, all, matches_seq, matches_some_one, matches_exactly, matches_componentPattern,
    matches_optional, matches_alphaPattern, CharClass.contains]
  constructor
  · rintro (⟨digits, rfl, hne, hdigits⟩ | ⟨name, _, rfl, ⟨hne, hname⟩, _, _, rfl, rfl, red, _, rfl, hred, green, _, rfl,
      hgreen, blue, _, rfl, hblue, alpha, _, rfl, halpha, rfl⟩)
    · exact .hex hne hdigits
    · exact .function hne hname hred hgreen hblue halpha
  · rintro (⟨hne, hdigits⟩ | ⟨hne, hname, hred, hgreen, hblue, halpha⟩)
    · exact .inl ⟨_, rfl, hne, hdigits⟩
    · exact .inr ⟨_, _, rfl, ⟨hne, hname⟩, _, _, rfl, rfl, _, _, rfl, hred, _, _, rfl, hgreen, _, _, rfl, hblue, _, _, rfl,
        halpha, rfl⟩

/-- A part of the text is a color. -/
def HoldsColor (s : String) : Prop := ∃ front color behind, s.toList = front ++ color ++ behind ∧ IsColor color

theorem occursIn_eq_true {s : String} : occursIn s = true ↔ HoldsColor s := by
  rw [occursIn, Pattern.occursIn_iff]
  simp only [Occurs, matches_pattern, HoldsColor]

end Mixsheet.Color
