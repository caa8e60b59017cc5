import Mixsheet.Text.Lowercase

/-! # Dashed names

A name in camel case, such as `lineHeight`, is dashed as `line-height`: a dash is put between a small
letter and the capital behind it, ASCII letters both, and the whole is lower-cased. -/

namespace Mixsheet.Text

/-- Puts a dash between each small ASCII letter and a capital one behind it. -/
def dashCapitals : List Char → List Char
  | [] => []
  | c :: rest =>
    if c.isLower ∧ rest.head?.any Char.isUpper then c :: '-' :: dashCapitals rest
    else c :: dashCapitals rest

/-- The dashed name. -/
def dashCase (s : String) : String := .ofList (lowercase (dashCapitals s.toList))

end Mixsheet.Text
