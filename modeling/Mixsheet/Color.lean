import Mixsheet.Opacity
import Mixsheet.Text.Pattern

/-! # Colors

A color is written in hexadecimal digits behind a `#`, or as a function of three numbers and perhaps an
opacity. A hexadecimal color is turned into the function of its channels. -/

namespace Mixsheet.Color

open Text (Pattern CharClass)

/-! ### Recognition -/

/-- `#` and word characters. -/
def hexPattern : Pattern := .seq (.exactly '#') (.some (.one .word))

/-- A number or percentage, with commas and white space behind. -/
def componentPattern : Pattern :=
  .all [.some (.one .digit), .optional (.exactly '%'),
    .many (.seq (.exactly ',') (.one .blank))]

/-- An opacity with or without a point. -/
def alphaPattern : Pattern :=
  .all [.many (.one .digit), .optional (.exactly '.'), .some (.one .digit)]

/-- A function of three components and perhaps an opacity. -/
def functionPattern : Pattern :=
  .all [.some (.one .word), .exactly '(', componentPattern, componentPattern, componentPattern,
    .optional alphaPattern, .exactly ')']

/-- The pattern of a color: a hexadecimal one, or a color function. -/
def pattern : Pattern := .either hexPattern functionPattern

/-- Somewhere in the text there is a color. -/
def occursIn (s : String) : Bool := pattern.occursIn s.toList

/-! ### Channels -/

/-- The value of a hexadecimal digit. -/
def hexDigit? (c : Char) : Option Nat :=
  if '0' ≤ c ∧ c ≤ '9' then some (c.toNat - '0'.toNat)
  else if 'a' ≤ c ∧ c ≤ 'f' then some (c.toNat - 'a'.toNat + 10)
  else if 'A' ≤ c ∧ c ≤ 'F' then some (c.toNat - 'A'.toNat + 10)
  else none

/-- The channel that two characters write; a plus sign may stand for the first digit. -/
def channel? (c d : Char) : Option Nat := do
  let high ← if c = '+' then some 0 else hexDigit? c
  return 16 * high + (← hexDigit? d)

/-- The six characters of the channels: three of three are doubled, and more than six are cut. -/
def channelChars : List Char → List Char
  | [r, g, b] => [r, r, g, g, b, b]
  | cs => cs

/-- The channels of a color in hexadecimal digits, without the `#`. -/
def channels? (cs : List Char) : Option (Nat × Nat × Nat) :=
  if cs.all (·.toNat < 128) then
    match channelChars cs with
    | r :: r' :: g :: g' :: b :: b' :: _ => do
      return (← channel? r r', ← channel? g g', ← channel? b b')
    | _ => none
  else
    none

/-- A color without the `#` before its digits. -/
def dropHash : List Char → List Char
  | '#' :: rest => rest
  | cs => cs

/-- A hexadecimal color as a function of its channels, and of the opacity if one is given. -/
def rgba? (color : String) (opacity? : Option Value) : Option String := do
  let (r, g, b) ← channels? (dropHash color.toList)
  let channels := s!"{r}, {g}, {b}"
  match opacity?.map Opacity.fraction with
  | some alpha =>
    if alpha.isTruthy then
      return "rgba(" ++ channels ++ ", " ++ alpha.render ++ ")"
    else
      return "rgb(" ++ channels ++ ")"
  | none => return "rgb(" ++ channels ++ ")"

end Mixsheet.Color
