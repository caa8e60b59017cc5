import Mixsheet.Script

/-! # Shapes of mixins

What several built-in mixins have in common: one declaration of a value, and a call of another mixin
with one value. -/

namespace Mixsheet.Catalog

/-- Ends with declarations. -/
def declarations (ds : List Declaration) : Script MixinOutput := pure (.ofDeclarations ds)

/-- Ends with statements. -/
def statements (nodes : List OutputNode) : Script MixinOutput := pure (.many nodes)

/-- Ends with one declaration. -/
def declare (scope : Scope) (prop : String) (value : Value) : Script MixinOutput :=
  pure (.ofDeclaration (scope.declare prop value))

/-- A declaration as a statement. -/
def declaration (scope : Scope) (prop : String) (value : Value) : OutputNode :=
  .declaration (scope.declare prop value)

/-- Calls a mixin with one text. -/
def invokeText (name text : String) : Script MixinOutput := .invoke name (.one (.text text))

/-- Calls a mixin with one entry. -/
def invokeKeyed (name key : String) (value : Value) : Script MixinOutput :=
  .invoke name (.one (.map [(key, value)]))

/-- The first statement that a mixin returned, if there is one. -/
def first (output : MixinOutput) : List OutputNode := output.nodes.take 1

end Mixsheet.Catalog
