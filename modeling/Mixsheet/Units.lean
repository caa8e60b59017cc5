import Mixsheet.Text.Blank
import Mixsheet.Value

/-! # Units

A plain number is given a unit when it becomes the value of a property: one unit for line heights and
one for everything else. Zero, values with a unit, values of several words and the values of some
properties stay as they are. -/

namespace Mixsheet

/-- The units put behind plain numbers. -/
structure Units where
  general : String
  lineHeight : String
  deriving DecidableEq, Repr

namespace Units

/-- The units of a run that names none. -/
def standard : Units := ⟨"rem", "em"⟩

/-- The properties whose values never get a unit. -/
def unitless : List String := ["font-weight", "opacity", "content", "columns"]

/-- The endings that show that a value has its unit. -/
def suffixes : List String :=
  ["%", "cm", "rem", "em", "ex", "in", "mm", "pc", "px", "pt", "vh", "vw", "vmin"]

/-- The text is a plain number. -/
def isNumber (s : String) : Bool := (Decimal.readPlain? s).isSome

/-- The text ends as a value does that has its unit. -/
def hasUnit (s : String) : Bool := suffixes.any fun u => u.toList.isSuffixOf s.toList

/-- The value is the number zero. -/
def isZero : Value → Bool
  | .number x => x == 0
  | _ => false

/-- The value is a number, or the text of one. -/
def isNumeric : Value → Bool
  | .number _ => true
  | .text s => isNumber s
  | _ => false

/-- The unit of a property. -/
def unit (u : Units) (property : String) : String :=
  if property = "line-height" then u.lineHeight else u.general

/-- The value takes a unit as the value of a property. -/
def takesUnit (v : Value) (property : String) : Bool :=
  !unitless.contains property && !isZero v && !v.render.toList.any Text.isBlank && isNumeric v &&
    !hasUnit v.render

/-- A value as text for a property, with its unit; without a property it gets none. -/
def apply (u : Units) (v : Value) : Option String → String
  | none => v.render
  | some property => if takesUnit v property then v.render ++ u.unit property else v.render

/-- A value as text that is not yet the value of a property. -/
def bare (u : Units) (v : Value) : String := u.apply v (some "")

/-! ### Options -/

/-- The setting of an option: a text, or something that is none. -/
abbrev Setting := Option String

/-- Settings of the units, by name or by place. -/
inductive Options where
  | named (settings : List (String × Setting))
  | placed (settings : List Setting)

/-- The setting of an option, or the given one if it is not set. Anything but a text is refused. -/
def settingOr (other : String) : Option Setting → Option String
  | none => some other
  | some setting => setting

/-- The units that options set. An unknown name is passed over, too many settings are refused. -/
def ofOptions? : Options → Option Units
  | .named settings => do
    let general ← settingOr standard.general (settings.lookup "default")
    let lineHeight ← settingOr standard.lineHeight (settings.lookup "lineHeight")
    return ⟨general, lineHeight⟩
  | .placed settings => do
    if settings.length > 2 then
      none
    let general ← settingOr standard.general settings[0]?
    let lineHeight ← settingOr standard.lineHeight settings[1]?
    return ⟨general, lineHeight⟩

end Units
end Mixsheet
