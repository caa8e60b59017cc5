import Mixsheet.Argument
import Mixsheet.Decimal.Notation

/-! # Values

What a mixin sees of its arguments. The text of a plain decimal number is that number, an empty text is
no value, and the items of lists and maps are values in turn. -/

namespace Mixsheet

/-- The value of an argument. -/
inductive Value where
  | undefined
  | number (x : Float)
  | text (s : String)
  | list (items : List Value)
  /-- The entries in the order of their keys. -/
  | map (entries : List (String × Value))

instance : Inhabited Value := ⟨.undefined⟩

namespace Value

/-! ### Values of arguments -/

/-- The value of a text: a plain decimal number is a number. -/
def ofText (s : String) : Value :=
  if s = "" then
    .undefined
  else
    match Decimal.readPlain? s with
    | some x => .number x
    | none => .text s

mutual

/-- The value of an argument. -/
def ofArgument : Argument → Value
  | .text s => ofText s
  | .list items => .list (ofItems items)
  | .map entries => .map (ofEntries entries)

/-- The values of the items of a list. -/
def ofItems : List Argument → List Value
  | [] => []
  | item :: rest => ofArgument item :: ofItems rest

/-- The values of the entries of a map. -/
def ofEntries : List (String × Argument) → List (String × Value)
  | [] => []
  | (key, value) :: rest => (key, ofArgument value) :: ofEntries rest

end

/-! ### Text -/

/-- A number as text; zero has no sign. -/
def renderNumber (x : Float) : String := if x == 0 then "0" else Decimal.render x

mutual

/-- A value as text: the parts of a list or map with commas between. -/
def render : Value → String
  | .undefined => ""
  | .number x => renderNumber x
  | .text s => s
  | .list items => ", ".intercalate (renderItems items)
  | .map entries => ", ".intercalate (renderEntries entries)

/-- The items of a list as texts. -/
def renderItems : List Value → List String
  | [] => []
  | item :: rest => render item :: renderItems rest

/-- The entries of a map as texts. -/
def renderEntries : List (String × Value) → List String
  | [] => []
  | (key, value) :: rest => (key ++ ": " ++ render value) :: renderEntries rest

end

/-! ### Reading values -/

/-- The value is undefined. -/
def isUndefined : Value → Bool
  | .undefined => true
  | _ => false

/-- All values count as given but the undefined one, zero, what is no number, and the empty text. -/
def isTruthy : Value → Bool
  | .undefined => false
  | .number x => x != 0 && !x.isNaN
  | .text s => s != ""
  | .list _ | .map _ => true

/-- The text of a value that is one. -/
def text? : Value → Option String
  | .text s => some s
  | _ => none

/-- The number of a number or of the text of a plain decimal number. -/
def number? : Value → Option Float
  | .number x => some x
  | .text s => Decimal.readPlain? s
  | _ => none

/-- The entries of a map. -/
def entries? : Value → Option (List (String × Value))
  | .map entries => some entries
  | _ => none

/-- The value if it counts as given, and the other one if not. -/
def orElse (v other : Value) : Value := if v.isTruthy then v else other

end Value
end Mixsheet
