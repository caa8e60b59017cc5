import Mixsheet.Catalog.Basic
import Mixsheet.Catalog.Theme
import Mixsheet.Opacity
import Mixsheet.Text.Blank

/-! # Grid

The built-in mixins for rows and columns. A column takes its share of the columns of the grid, a row
makes up for the margins of the columns in it. -/

namespace Mixsheet.Catalog

/-! ### Rows -/

/-- The number fits into 64 bits with a sign. -/
def inInt64 (n : Int) : Bool := Int64.minValue.toInt ≤ n && n ≤ Int64.maxValue.toInt

/-- The whole number that a text starts with, behind white space: a sign and ASCII digits. -/
def leadingInt? (s : String) : Option Int :=
  let cs := Text.trimStart s.toList
  let sign := cs.take 1 |>.takeWhile fun c => c == '+' || c == '-'
  let digits := (cs.drop sign.length).takeWhile Char.isDigit
  (Decimal.readInt? (sign ++ digits)).filter inInt64

/-- The margin of a row and what it adds to the width; both are kept to 64 bits. -/
def rowMargin (margin : Value) : Except MixinError (Int × Int) :=
  match leadingInt? margin.render with
  | none => .error (.invalidArgument "row" ("'" ++ margin.render ++ "' is not a grid margin"))
  | some n =>
    if inInt64 (-n) && inInt64 (n + 100) then .ok (-n, n + 100)
    else .error (.invalidArgument "row" s!"grid margin {n}% is out of range")

/-- `row(margin)`; with `clearing` the row clears the floats in it. -/
def row (theme : Theme) (clearing : Bool) (scope : Scope) (args : Args) : Script MixinOutput := do
  let (offset, width) ← .ofExcept (rowMargin (args.getOr 0 (.text theme.gridMargin)))
  let margin ← invokeKeyed "margin" "left" (.text s!"{offset}%")
  let limit := declaration scope "max-width" (.text s!"{width}%")
  if clearing then
    let clearfix ← .invoke "clearfix" .none
    statements (first margin ++ limit :: clearfix.nodes)
  else
    statements (first margin ++ [limit])

/-- `rowReset()`: a row without margin and limit. -/
def rowReset (scope : Scope) (_ : Args) : Script MixinOutput := do
  let margin ← invokeKeyed "margin" "left" (.number 0)
  statements (first margin ++ [declaration scope "max-width" (.text "none")])

/-- `clearfix()`: a rule behind the content that clears the floats. -/
def clearfix (scope : Scope) (_ : Args) : Script MixinOutput :=
  pure (.one (.rule "&:after" [scope.declare "clear" (.text "both"),
    scope.declare "content" (.text "''"), scope.declare "display" (.text "block")]))

/-! ### Columns -/

/-- The number of columns that a value sets, or else the theme. -/
def gridColumns (theme : Theme) (value : Value) : Except MixinError Float :=
  let refused :=
    .error (.invalidArgument "column" ("'" ++ value.render ++ "' is not a column count"))
  if value.isUndefined then
    .ok theme.gridColumns
  else
    match value.number? with
    | some columns => if columns > 0 then .ok columns else refused
    | none => refused

/-- The number of columns that a column takes. -/
def columnShare (value : Value) : Except MixinError Float :=
  match value.number? with
  | some share => .ok share
  | none => .error (.invalidArgument "column" ("'" ++ value.render ++ "' is not a column share"))

/-- The width of `share` of so many columns, in percent. -/
def columnWidth (share columns : Float) : String := Value.renderNumber (100 / columns * share) ++ "%"

/-- The width of a column that takes `share` of as many columns as a value sets. -/
def widthOf (theme : Theme) (share columns : Value) : Except MixinError String := do
  let columns ← gridColumns theme columns
  return columnWidth (← columnShare share) columns

/-- `column()`, `column(50%)`, `column(share, columns)` or `column(spaced, share, columns, margin)`. -/
def column (theme : Theme) (scope : Scope) (args : Args) : Script MixinOutput :=
  let start := declaration scope "float" (.text "left")
  let width (value : Value) := declaration scope "width" value
  if args.isEmpty then
    statements [start, width (.text "100%")]
  else if Opacity.isPercentage (args.get 0).render then
    statements [start, width (args.get 0)]
  else if (args.get 0).text? = some "spaced" then do
    let share ← .ofExcept (widthOf theme (args.get 1) (args.get 2))
    let space := scope.bare (args.getOr 3 (.text theme.gridMargin))
    let margin ← invokeKeyed "margin" "left" (.text space)
    statements (start :: width (.text share) :: first margin)
  else do
    let share ← .ofExcept (widthOf theme (args.get 0) (args.get 1))
    statements [start, width (.text share)]

end Mixsheet.Catalog
