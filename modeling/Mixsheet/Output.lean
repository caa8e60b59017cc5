import Mixsheet.Text.DashCase
import Mixsheet.Units

/-! # What mixins return

A mixin returns declarations, rules of declarations, or text of a stylesheet. The values of its
declarations have their units. -/

namespace Mixsheet

/-- The name of a property in a group, as `margin-top` is `top` in `margin`: dashed, behind the name of
the group. A group among the ignored ones puts nothing before, and without a group the name stays as it
is. -/
def qualified (name : String) (group? : Option String) (ignored : List String) : String :=
  match group? with
  | none => name
  | some group =>
    if ignored.contains group then Text.dashCase name else group ++ "-" ++ Text.dashCase name

/-- A property and its value as text. -/
structure Declaration where
  prop : String
  value : String
  deriving DecidableEq, Repr

namespace Declaration

/-- A declaration of a value, with its unit. -/
def make (units : Units) (prop : String) (value : Value) : Declaration :=
  ⟨prop, units.apply value (some prop)⟩

/-- Declarations of properties: of the items of a list one after the other, as far as both go, and of
any other value again and again. -/
def each (units : Units) (props : List String) (value : Value) (group? : Option String) :
    List Declaration :=
  match value with
  | .undefined => []
  | .list items =>
    (props.zip items).map fun (prop, item) => make units (qualified prop group? []) item
  | value => props.map fun prop => make units (qualified prop group? []) value

/-- A declaration for each entry of a map. -/
def ofEntries (units : Units) (entries : List (String × Value)) (group? : Option String)
    (ignored : List String) : List Declaration :=
  entries.map fun (key, value) => make units (qualified key group? ignored) value

end Declaration

/-- A statement that a mixin returns. -/
inductive OutputNode where
  | declaration (declaration : Declaration)
  | rule (selector : String) (declarations : List Declaration)
  /-- Text whose statements take the place of the call. -/
  | raw (css : String)
  deriving DecidableEq, Repr

/-- What a mixin returns. -/
inductive MixinOutput where
  | none
  /-- The call goes and nothing comes in its place. -/
  | removed
  | one (node : OutputNode)
  | many (nodes : List OutputNode)
  deriving DecidableEq, Repr

namespace MixinOutput

/-- The statements that a mixin returns. -/
def nodes : MixinOutput → List OutputNode
  | .none | .removed => []
  | .one node => [node]
  | .many nodes => nodes

/-- One declaration. -/
def ofDeclaration (d : Declaration) : MixinOutput := .one (.declaration d)

/-- Declarations one after the other. -/
def ofDeclarations (ds : List Declaration) : MixinOutput := .many (ds.map .declaration)

end MixinOutput
end Mixsheet
