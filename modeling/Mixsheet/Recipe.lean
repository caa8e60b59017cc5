import Mixsheet.Script

/-! # Recipes

Mixins written as data: each recipe names a shape of mixin and what fills it. -/

namespace Mixsheet

/-- Which value a recipe takes: an argument, or a value of its own if that one is not given. -/
structure Pick where
  index : Nat
  other? : Option Value

/-- What a recipe hands on to another mixin: values of its own, or its arguments behind the first
few. -/
inductive Handed where
  | values (values : List Value)
  | arguments (skipped : Nat)

/-- A mixin written as data. -/
inductive Recipe where
  /-- Declares a property with a value. -/
  | declare (prop : String) (pick : Pick)
  /-- Declares a property with the number of arguments and the arguments as text. -/
  | echo (prop : String)
  /-- Declares a property with a value as text that already has its unit. -/
  | bare (prop : String) (pick : Pick)
  /-- Declares a property with what the mixin sees of its scope. -/
  | scope (prop : String)
  /-- Declares properties of a group with a value, or with all arguments if none is picked. -/
  | each (props : List String) (pick? : Option Pick) (group? : Option String)
  /-- Declares the entries of a keyed call, as properties of a group. -/
  | entries (group? : Option String) (ignored : List String)
  /-- A rule that declares properties with the arguments one after the other. -/
  | rule (selector : String) (props : List String)
  | raw (css : String)
  /-- Calls another mixin and gives what it gives. -/
  | call (name : String) (handed : Handed)
  /-- Performs recipes one after the other and gives all their statements. -/
  | seq (steps : List Recipe)
  /-- Calls another mixin and gives its first statement. -/
  | first (name : String)
  | removed
  | failed (message : String)
  | invalid (mixin message : String)
  | nothing

namespace Recipe

/-- The value that a recipe takes. -/
def picked (args : Args) (pick : Pick) : Value :=
  match pick.other? with
  | some other => args.getOr pick.index other
  | none => args.get pick.index

/-- The arguments that a recipe hands on. -/
def handed (args : Args) : Handed → Args
  | .values values => ⟨values⟩
  | .arguments skipped => args.drop skipped

/-- The number of arguments, and the arguments as text. -/
def echoText (args : Args) : String := s!"{args.size} [{args.toList.render}]"

/-- The names beside the mixin, the number of names at the root, and the units. -/
def scopeText (s : Scope) : String :=
  " ".intercalate s.home.names ++ s!" | {s.root.size} | {s.units.general} {s.units.lineHeight}"

/-- Ends with one declaration. -/
def one (s : Scope) (prop : String) (value : Value) : Script MixinOutput :=
  pure (.ofDeclaration (s.declare prop value))

mutual

/-- What the mixin of a recipe does. -/
def script (s : Scope) (args : Args) : Recipe → Script MixinOutput
  | .declare prop pick => one s prop (picked args pick)
  | .echo prop => one s prop (.text (echoText args))
  | .bare prop pick => one s prop (.text (s.bare (picked args pick)))
  | .scope prop => one s prop (.text (scopeText s))
  | .each props pick? group? =>
    let value := match pick? with
      | some pick => picked args pick
      | none => args.toList
    pure (.ofDeclarations (s.declareEach props value group?))
  | .entries group? ignored =>
    match args.entries? with
    | some es => pure (.ofDeclarations (s.declareEntries es group? ignored))
    | none => pure .none
  | .rule selector props =>
    pure (.one (.rule selector (props.zipIdx.map fun (prop, i) => s.declare prop (args.get i))))
  | .raw css => pure (.one (.raw css))
  | .call name how => .invoke name (handed args how)
  | .seq steps => do
    let nodes ← scripts s args steps
    return .many nodes
  | .first name => do
    let output ← .invoke name args
    match output.nodes with
    | [] => return .none
    | node :: _ => return .one node
  | .removed => pure .removed
  | .failed message => .fail (.failed message)
  | .invalid mixin message => .fail (.invalidArgument mixin message)
  | .nothing => pure .none

/-- What the mixins of recipes do one after the other, with all the statements they give. -/
def scripts (s : Scope) (args : Args) : List Recipe → Script (List OutputNode)
  | [] => pure []
  | step :: rest => do
    let output ← script s args step
    let nodes ← scripts s args rest
    return output.nodes ++ nodes

end

/-- The mixin of a recipe. -/
def mixin (recipe : Recipe) : Mixin := ⟨fun s args => recipe.script s args⟩

end Recipe

/-- What is written under a name of a registry: the mixin of a recipe, or a registry. -/
inductive RecipeEntry where
  | recipe (recipe : Recipe)
  | registry (entries : List (String × RecipeEntry))

namespace RecipeEntry

mutual

/-- The entry of a registry that is written as data. -/
def entry : RecipeEntry → Entry Mixin
  | .recipe r => .mixin r.mixin
  | .registry rs => .registry (Table.ofList (entries rs))

/-- The entries of a registry that is written as data. -/
def entries : List (String × RecipeEntry) → List (String × Entry Mixin)
  | [] => []
  | (name, e) :: rest => (name, e.entry) :: entries rest

end

/-- The registry that is written as data. -/
def toRegistry (rs : List (String × RecipeEntry)) : Registry Mixin := ⟨Table.ofList (entries rs)⟩

end RecipeEntry
end Mixsheet
