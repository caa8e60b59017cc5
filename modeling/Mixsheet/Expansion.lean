import Mixsheet.Evaluation
import Mixsheet.Node.OfTokens

/-! # Expansion

Every mixin call of a stylesheet, at any depth, is replaced by the statements that its mixin returns.
They stand where the call stood. A call whose name no mixin has is taken out with a warning; the first
mixin that fails ends the expansion. -/

namespace Mixsheet

/-- Why a stylesheet is not expanded. -/
inductive ProcessError where
  | parse (error : ParseError)
  | mixin (name : String) (position : Position) (cause : MixinError)
  /-- The mixins of a call nest too deeply. -/
  | unfinished (name : String) (position : Position)
  deriving DecidableEq, Repr

/-- The error as it is told. -/
def ProcessError.message : ProcessError → String
  | .parse error => error.message
  | .mixin name position cause =>
    s!"Mixin error at line {position.line}, column {position.column} in '{name}': {cause.message}"
  | .unfinished name position =>
    s!"Mixin error at line {position.line}, column {position.column} in '{name}': calls nest too deeply"

/-- A fault of a stylesheet that does not keep it from being expanded. -/
structure Warning where
  message : String
  mixin : String
  position : Position
  deriving DecidableEq, Repr

namespace Warning

/-- The warning about a call whose name no mixin has. -/
def notFound (call : MixinCall) : Warning := ⟨"Mixin not found.", call.name, call.source.start⟩

/-- A warning in one line, with its place. -/
def render (w : Warning) : String :=
  s!"{w.position.line}:{w.position.column}: {w.message} ({w.mixin})"

end Warning

/-- Expanded statements and the warnings met on the way, both in order. -/
structure Expanded where
  nodes : List Node
  warnings : List Warning

namespace Expansion

/-! ### Output as statements -/

/-- A declaration that a mixin returns, as a statement of the stylesheet. -/
def declarationNode (source : Source) (d : Declaration) : Node := .declaration d.prop d.value source

/-- The statements for one statement that a mixin returns. -/
def nodesOfOutput (source : Source) : OutputNode → Except ParseError (List Node)
  | .declaration d => .ok [declarationNode source d]
  | .rule selector ds => .ok [.rule selector (ds.map (declarationNode source)) source]
  | .raw css => (Stylesheet.parse css).map Stylesheet.nodes

/-- The statements for all that a mixin returns. -/
def nodesOfOutputs (source : Source) : List OutputNode → Except ParseError (List Node)
  | [] => .ok []
  | output :: rest => do
    let nodes ← nodesOfOutput source output
    return nodes ++ (← nodesOfOutputs source rest)

/-- What takes the place of a call that comes to an outcome. -/
def replacement (call : MixinCall) : Evaluation.Outcome → Except ProcessError Expanded
  | .unresolved => .ok ⟨[], [.notFound call]⟩
  | .output output =>
    match nodesOfOutputs call.source output.nodes with
    | .ok nodes => .ok ⟨nodes, []⟩
    | .error e => .error (.parse e)
  | .failed cause => .error (.mixin call.name call.source.start cause)
  | .unfinished => .error (.unfinished call.name call.source.start)

/-! ### Trees -/

mutual

/-- A statement with every call in it replaced. -/
def expandNode (replace : MixinCall → Except ProcessError Expanded) :
    Node → Except ProcessError Expanded
  | .call call => replace call
  | .rule selector nodes source => do
    let inner ← expandNodes replace nodes
    return ⟨[.rule selector inner.nodes source], inner.warnings⟩
  | .atBlock name params nodes source => do
    let inner ← expandNodes replace nodes
    return ⟨[.atBlock name params inner.nodes source], inner.warnings⟩
  | .atStatement name params source => .ok ⟨[.atStatement name params source], []⟩
  | .declaration prop value source => .ok ⟨[.declaration prop value source], []⟩
  | .comment text source => .ok ⟨[.comment text source], []⟩

/-- Statements with every call in them replaced. -/
def expandNodes (replace : MixinCall → Except ProcessError Expanded) :
    List Node → Except ProcessError Expanded
  | [] => .ok ⟨[], []⟩
  | node :: rest => do
    let first ← expandNode replace node
    let others ← expandNodes replace rest
    return ⟨first.nodes ++ others.nodes, first.warnings ++ others.warnings⟩

end

/-- A stylesheet with its mixin calls replaced. -/
def expand (root : Registry Mixin) (units : Units) (depth : Nat) (sheet : Stylesheet) :
    Except ProcessError Expanded :=
  expandNodes (fun call => replacement call (Evaluation.evaluate root units depth call)) sheet.nodes

end Expansion
end Mixsheet
