import Mixsheet.Node
import Mixsheet.Script

/-! # Evaluation

A mixin call is looked up in the registry and run. A mixin that calls another one finds it in the
registry that holds the calling mixin, or else from the root. Mixins may call one another without end,
so a run is given a depth of calls, and has no result if they nest deeper. -/

namespace Mixsheet

/-- What a mixin found in a registry sees. -/
def Resolved.scope (found : Resolved Mixin) (root : Registry Mixin) (units : Units) : Scope :=
  ⟨root.outline, found.home.outline, units⟩

namespace Evaluation

/-- The mixin that a name stands for in a mixin whose home is `home`. -/
def find? (root home : Registry Mixin) (name : String) : Option (Resolved Mixin) :=
  (home.resolve? name).or (root.resolve? name)

/-- Runs a mixin, with at most `depth` mixins running at once. -/
def run? (root : Registry Mixin) (units : Units) :
    (depth : Nat) → Resolved Mixin → Args → Option MixinResult
  | 0, _, _ => none
  | depth + 1, found, args =>
    (found.mixin.script (found.scope root units) args).perform? fun name args =>
      match find? root found.home name with
      | none => some (.error (.notFound name))
      | some next => run? root units depth next args

/-- Calls a mixin by its name from the root, with at most `depth` mixins running at once. -/
def call? (root : Registry Mixin) (units : Units) (depth : Nat) (name : String) (args : Args) :
    Option MixinResult :=
  match find? root root name with
  | none => some (.error (.notFound name))
  | some found => run? root units depth found args

/-- What a mixin call comes to. -/
inductive Outcome where
  | unresolved
  | output (output : MixinOutput)
  | failed (error : MixinError)
  /-- The mixins nest too deeply. -/
  | unfinished

/-- Evaluates a mixin call of a stylesheet. -/
def evaluate (root : Registry Mixin) (units : Units) (depth : Nat) (call : MixinCall) : Outcome :=
  match root.resolve? call.name with
  | none => .unresolved
  | some found =>
    match run? root units depth found (Args.ofArguments call.arguments) with
    | none => .unfinished
    | some (.ok output) => .output output
    | some (.error error) => .failed error

end Evaluation
end Mixsheet
