import Mixsheet.Text.DecimalDigit
import Mixsheet.Value

/-! # Opacity

An opacity is a fraction. A percentage is divided by a hundred, and so is a number above one: `20%`,
`20` and `0.2` are the same opacity, and `1` is all of it. -/

namespace Mixsheet.Opacity

/-- A text is digits, of any script, and a percent sign behind them. -/
def isPercentage (s : String) : Bool :=
  match s.toList.reverse with
  | '%' :: digits => !digits.isEmpty && digits.all Text.isDecimalDigit
  | _ => false

/-- The number before the percent sign; digits that are no ASCII ones count as zero. -/
def percent (s : String) : Float := (Decimal.read? (.ofList s.toList.dropLast)).getD 0

/-- A number above one as a fraction, any other value as it is. -/
def ofNumber (v : Value) : Value :=
  match v.number? with
  | some x => if x > 1 then .number (x / 100) else v
  | none => v

/-- An opacity as a fraction: a percentage is divided by 100, and so is a number above 1. -/
def fraction : Value → Value
  | .text s => if isPercentage s then .number (percent s / 100) else ofNumber (.text s)
  | v => ofNumber v

end Mixsheet.Opacity
