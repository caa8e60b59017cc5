import Mixsheet.Catalog.Basic

/-! # Typography

The built-in mixin for fonts. -/

namespace Mixsheet.Catalog

/-- The properties of a font behind its family, in the order in which `font` takes them. -/
def fontProperties : List String := ["font-size", "font-weight", "line-height", "font-style"]

/-- The property that a key of `font` names. -/
def fontProperty (key : String) : String :=
  if key = "lineHeight" then "line-height" else qualified key (some "font") []

/-- `font(family, size, weight, lineHeight, style)`, or keyed. -/
def font (scope : Scope) (args : Args) : Script MixinOutput :=
  match args.entries? with
  | some entries =>
    declarations (entries.map fun (key, value) => scope.declare (fontProperty key) value)
  | none =>
    if args.isEmpty then
      pure .none
    else
      let others := (fontProperties.zip (args.drop 1).values).filter fun (_, value) => value.isTruthy
      declarations (scope.declare "font-family" (args.get 0) ::
        others.map fun (prop, value) => scope.declare prop value)

end Mixsheet.Catalog
