import Mixsheet.Catalog.Grid
import Mixsheet.Catalog.Layout
import Mixsheet.Catalog.Typography

/-! # The catalog

The registry of the built-in mixins. -/

namespace Mixsheet.Catalog

/-- Declares a property with the first argument. -/
def single (prop : String) (scope : Scope) (args : Args) : Script MixinOutput :=
  declare scope prop (args.get 0)

/-- Declares a property with one value. -/
def constant (prop : String) (value : Value) (scope : Scope) (_ : Args) : Script MixinOutput :=
  declare scope prop value

/-- Calls a mixin with one value. -/
def delegate (name : String) (value : Value) (_ : Scope) (_ : Args) : Script MixinOutput :=
  .invoke name (.one value)

/-- The built-in mixins under their names. -/
def mixins (theme : Theme) : List (String × (Scope → Args → Script MixinOutput)) := [
  ("absolute", positioned "absolute"),
  ("align", single "text-align"),
  ("background", background),
  ("block", sizedDisplay "block"),
  ("bold", constant "font-weight" (.number theme.boldWeight)),
  ("border", border theme),
  ("centeredBlock", centeredBlock),
  ("clear", fun scope args => declare scope "clear" (args.getOr 0 (.text "both"))),
  ("clearfix", clearfix),
  ("color", single "color"),
  ("column", column theme),
  ("display", single "display"),
  ("fixed", positioned "fixed"),
  ("font", font),
  ("hidden", delegate "visibility" (.text "hidden")),
  ("hide", delegate "display" (.text "none")),
  ("inline", delegate "display" (.text "inline")),
  ("inlineBlock", sizedDisplay "inline-block"),
  ("italic", constant "font-style" (.text "italic")),
  ("left", floatOrOffset "left"),
  ("margin", margin),
  ("minSize", dimensions "min-width" "min-height"),
  ("opacity", fun scope args => declare scope "opacity" (Opacity.fraction (args.get 0))),
  ("opaque", delegate "opacity" (.number 1)),
  ("right", floatOrOffset "right"),
  ("row", row theme true),
  ("rowModify", row theme false),
  ("rowReset", rowReset),
  ("show", delegate "display" (.text "inherit")),
  ("size", dimensions "width" "height"),
  ("spaced", spaced theme),
  ("spacedBlock", spacedBlock),
  ("transparent", delegate "opacity" (.number 0)),
  ("unstyled", constant "list-style" (.text "none")),
  ("vAlign", single "vertical-align"),
  ("visibility", single "visibility"),
  ("visible", delegate "visibility" (.text "visible"))]

/-- The built-in mixins under a theme, each registered under its name. -/
def registry (theme : Theme) : Registry Mixin :=
  (mixins theme).foldl (fun r (name, script) => r.register name ⟨script⟩) .empty

end Mixsheet.Catalog
