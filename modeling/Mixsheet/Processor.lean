import Mixsheet.Catalog
import Mixsheet.Expansion
import Mixsheet.Node.Render

/-! # Processing

A stylesheet is read from its text, its mixin calls are replaced, and the result is written as text. -/

namespace Mixsheet

/-- What a run works with: the mixins, the units, and how deep the calls of mixins may nest. -/
structure Processor where
  registry : Registry Mixin
  units : Units
  depth : Nat

namespace Processor

/-- The depth that the calls of mixins are given. -/
def standardDepth : Nat := 4096

/-- A processor with the mixins of a registry and the standard units. -/
def ofRegistry (registry : Registry Mixin) : Processor := ⟨registry, .standard, standardDepth⟩

/-- The processor with other units. -/
def withUnits (p : Processor) (units : Units) : Processor := { p with units := units }

/-- The processor of the built-in mixins. -/
def standard : Processor := ofRegistry (Catalog.registry .standard)

/-- Calls a mixin by its name. -/
def call? (p : Processor) (name : String) (args : Args) : Option MixinResult :=
  Evaluation.call? p.registry p.units p.depth name args

/-- Evaluates a mixin call of a stylesheet. -/
def evaluate (p : Processor) (call : MixinCall) : Evaluation.Outcome :=
  Evaluation.evaluate p.registry p.units p.depth call

/-- The stylesheet with its mixin calls replaced. -/
def expand (p : Processor) (sheet : Stylesheet) : Except ProcessError Expanded :=
  Expansion.expand p.registry p.units p.depth sheet

/-- The stylesheet of a text with its mixin calls replaced. -/
def process (p : Processor) (text : String) : Except ProcessError Expanded :=
  match Stylesheet.parse text with
  | .ok sheet => p.expand sheet
  | .error e => .error (.parse e)

end Processor

/-- The expanded stylesheet as text. -/
def Expanded.render (e : Expanded) : String := Stylesheet.render ⟨e.nodes⟩

/-- The text of a stylesheet with its calls of built-in mixins replaced, and the warnings. -/
def run (text : String) (units : Units) : Except ProcessError (String × List Warning) :=
  ((Processor.standard.withUnits units).process text).map fun e => (e.render, e.warnings)

/-- The version of the program. -/
def version : String := "0.3.0"

end Mixsheet
