import Mixsheet.Catalog.Basic
import Mixsheet.Catalog.Theme
import Mixsheet.Color

/-! # Layout

The built-in mixins for boxes: where they stand, how large they are, and the space, border and
background around and in them. -/

namespace Mixsheet.Catalog

/-! ### Position -/

/-- The sides in the order in which `absolute` and `fixed` take them. -/
def positionSides : List String := ["top", "right", "left", "bottom"]

/-- `absolute(top, right, left, bottom)`, or keyed. -/
def positioned (position : String) (scope : Scope) (args : Args) : Script MixinOutput :=
  let sides := match args.entries? with
    | some entries => scope.declareEntries entries none []
    | none => if args.isEmpty then [] else scope.declareEach positionSides args.toList none
  declarations (scope.declare "position" (.text position) :: sides)

/-- `left()` floats, `left(offset)` moves. -/
def floatOrOffset (side : String) (scope : Scope) (args : Args) : Script MixinOutput :=
  if args.isEmpty then declare scope "float" (.text side) else declare scope side (args.get 0)

/-! ### Size -/

/-- `block(width, height)`, or keyed. -/
def sizedDisplay (display : String) (scope : Scope) (args : Args) : Script MixinOutput := do
  let shown ← invokeText "display" display
  let size := match args.entries? with
    | some entries => (scope.declareEntries entries none []).map .declaration
    | none =>
      if args.isEmpty then
        []
      else
        declaration scope "width" (args.get 0) ::
          if (args.get 1).isTruthy then [declaration scope "height" (args.get 1)] else []
  statements (shown.nodes ++ size)

/-- `size(width, height)`; one length counts for both. -/
def dimensions (width height : String) (scope : Scope) (args : Args) : Script MixinOutput :=
  declarations [scope.declare width (args.get 0),
    scope.declare height ((args.get 1).orElse (args.get 0))]

/-- `centeredBlock(…)`: a block between automatic margins. -/
def centeredBlock (_ : Scope) (args : Args) : Script MixinOutput := do
  let block ← .invoke "block" args
  let sides := Value.map [("left", .text "auto"), ("right", .text "auto")]
  let margin ← .invoke "margin" (.one sides)
  statements (block.nodes ++ margin.nodes)

/-! ### Margins -/

/-- The margins in the order in which `margin` takes them. -/
def marginSides : List String := ["margin-top", "margin-right", "margin-left", "margin-bottom"]

/-- `margin(value)`, `margin(top, right, left, bottom)`, or keyed. -/
def margin (scope : Scope) (args : Args) : Script MixinOutput :=
  match args.entries? with
  | some entries => declarations (scope.declareEntries entries (some "margin") [])
  | none =>
    if args.isEmpty then pure .none
    else if args.size > 1 then declarations (scope.declareEach marginSides args.toList none)
    else declare scope "margin" (args.get 0)

/-- `spaced(margin)`: a margin at the bottom. -/
def spaced (theme : Theme) (scope : Scope) (args : Args) : Script MixinOutput :=
  let value :=
    if args.isEmpty || args.entries?.isSome then .number theme.blockSpacing else args.get 0
  invokeKeyed "margin" "bottom" (.text (scope.bare value))

/-- `spacedBlock(margin, width, height)`, or keyed for the block. -/
def spacedBlock (scope : Scope) (args : Args) : Script MixinOutput := do
  let space ← .invoke "spaced" args
  match args.entries? with
  | some entries =>
    let block ← .invoke "block" .none
    let size := (scope.declareEntries entries none []).map .declaration
    statements (space.nodes ++ size ++ block.nodes)
  | none =>
    let block ← .invoke "block" (if args.size > 1 then args.drop 1 else .none)
    statements (space.nodes ++ block.nodes)

/-! ### Border and background -/

/-- The sides that a border of one argument may name. -/
def borderKeywords : List String := ["top", "right", "bottom", "left", "vertical", "horizontal"]

/-- A solid border of one pixel. -/
def solid (color : String) : String := "1px solid " ++ color

/-- The border that a text stands for: a solid one if the text holds a color. -/
def borderOf (s : String) : String := if Color.occursIn s then solid s else s

/-- The border on a side, or on both sides of a direction. -/
def borderOn (scope : Scope) (side value : String) : Script MixinOutput :=
  if side = "vertical" then
    declarations (scope.declareEach ["border-left", "border-right"] (.text value) none)
  else if side = "horizontal" then
    declarations (scope.declareEach ["border-top", "border-bottom"] (.text value) none)
  else
    declarations [scope.declare (qualified side (some "border") []) (.text value)]

/-- `border()`, `border(value)`, `border(side)` or `border(side, value)`. -/
def border (theme : Theme) (scope : Scope) (args : Args) : Script MixinOutput :=
  let side := (args.get 0).render
  if args.isEmpty then
    declare scope "border" (.text (solid theme.borderColor))
  else if args.size ≠ 1 then
    borderOn scope side (borderOf (args.get 1).render)
  else if borderKeywords.contains side then
    borderOn scope side (solid theme.borderColor)
  else if side = "0" ∨ side = "none" then
    declare scope "border" (.text "none")
  else
    declare scope "border" (.text (borderOf side))

/-- The values of a background; a hexadecimal color and a number behind it are one color with an
opacity. -/
def backgroundValues (args : Args) : List Value :=
  match args.values with
  | color :: opacity :: rest =>
    if opacity.number?.isSome then
      match Color.rgba? color.render (some opacity) with
      | some rgba => .text rgba :: rest
      | none => args.values
    else
      args.values
  | values => values

/-- `background(color, opacity, …)`. -/
def background (scope : Scope) (args : Args) : Script MixinOutput :=
  if (args.get 0).isTruthy then
    declare scope "background" (.text (" ".intercalate ((backgroundValues args).map Value.render)))
  else
    pure .none

end Mixsheet.Catalog
