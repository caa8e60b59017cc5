import Mixsheet.Args
import Mixsheet.Output
import Mixsheet.Registry

/-! # Mixins

A mixin is a script: it returns a result, or calls another mixin and goes on with what that one gives.
It sees its arguments and its scope: the names of the registry it runs in, those of the registry that
holds it, and the units of the run. -/

namespace Mixsheet

/-- Why a mixin gives no output. -/
inductive MixinError where
  | notFound (name : String)
  | invalidArgument (mixin message : String)
  | failed (message : String)
  deriving DecidableEq, Repr

/-- The error as it is told. -/
def MixinError.message : MixinError → String
  | .notFound name => "Mixin '" ++ name ++ "' not found"
  | .invalidArgument mixin message => "Invalid argument for '" ++ mixin ++ "': " ++ message
  | .failed message => message

/-- What a mixin ends with. -/
abbrev MixinResult := Except MixinError MixinOutput

/-- What a running mixin sees around it. -/
structure Scope where
  root : Registry Unit
  home : Registry Unit
  units : Units

namespace Scope

/-- A declaration with the units of the run. -/
def declare (s : Scope) (prop : String) (value : Value) : Declaration := .make s.units prop value

/-- Declarations of properties with the units of the run. -/
def declareEach (s : Scope) (props : List String) (value : Value) (group? : Option String) :
    List Declaration :=
  Declaration.each s.units props value group?

/-- A declaration for each entry of a map, with the units of the run. -/
def declareEntries (s : Scope) (entries : List (String × Value)) (group? : Option String)
    (ignored : List String) : List Declaration :=
  Declaration.ofEntries s.units entries group? ignored

/-- A value as text with the unit of the run. -/
def bare (s : Scope) (value : Value) : String := s.units.bare value

end Scope

/-- What a mixin does: it ends with a result, or calls a mixin and goes on with its result. -/
inductive Script (α : Type) where
  | done (result : Except MixinError α)
  | call (name : String) (args : Args) (next : MixinResult → Script α)

namespace Script

variable {α β : Type}

/-- Goes on with the value that a script ends with; an error ends both. -/
def bind : Script α → (α → Script β) → Script β
  | .done (.ok a), f => f a
  | .done (.error e), _ => .done (.error e)
  | .call name args next, f => .call name args fun result => (next result).bind f

instance : Monad Script where
  pure a := .done (.ok a)
  bind := bind

/-- Ends with an error. -/
def fail (e : MixinError) : Script α := .done (.error e)

/-- Calls a mixin and gives its output; an error of it is the error of the script. -/
def invoke (name : String) (args : Args) : Script MixinOutput := .call name args .done

/-- Ends with an error if a computation does. -/
def ofExcept (result : Except MixinError α) : Script α := .done result

/-- Runs a script, where `run?` gives the results of the calls in it; a call without a result leaves
the script without one. -/
def perform? (run? : String → Args → Option MixinResult) : Script α → Option (Except MixinError α)
  | .done result => some result
  | .call name args next =>
    match run? name args with
    | none => none
    | some result => (next result).perform? run?

end Script

/-- A mixin: what it does with a scope and arguments. -/
structure Mixin where
  script : Scope → Args → Script MixinOutput

end Mixsheet
