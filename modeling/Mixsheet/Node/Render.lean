import Mixsheet.Node
import Mixsheet.Text.Blank

/-! # The text of a stylesheet

A stylesheet is written with one statement a line, two spaces of indent for each block around it, and
an empty line between the statements at its top. A mixin call keeps its arguments as written; one
without any written is given its arguments anew. -/

namespace Mixsheet

/-- A mixin call as text, without the semicolon. -/
def MixinCall.render (call : MixinCall) : String :=
  let written := Text.trimmed call.written
  if written = "" then
    call.name ++ "(" ++ ", ".intercalate (call.arguments.map Argument.render) ++ ")"
  else
    call.name ++ written

namespace Node

/-- The white space before a statement with `depth` blocks around it. -/
def indent (depth : Nat) : String := .ofList (List.replicate (2 * depth) ' ')

/-- A block as text, from the text of its statements; an empty block takes one line. -/
def renderBlock (depth : Nat) (empty : Bool) (body : String) : String :=
  if empty then "\x7b\x7d\n" else "\x7b\n" ++ body ++ indent depth ++ "\x7d\n"

/-- The name and parameters of an at-rule as text. -/
def renderAtRule (name params : String) : String :=
  if params = "" then "@" ++ name else "@" ++ name ++ " " ++ params

mutual

/-- A statement as text, with its indentation and the line feed behind it. -/
def render (depth : Nat) : Node → String
  | .rule selector nodes _ =>
    indent depth ++ selector ++ " " ++
      renderBlock depth nodes.isEmpty (renderAll (depth + 1) nodes)
  | .atBlock name params nodes _ =>
    indent depth ++ renderAtRule name params ++ " " ++
      renderBlock depth nodes.isEmpty (renderAll (depth + 1) nodes)
  | .atStatement name params _ => indent depth ++ renderAtRule name params ++ ";\n"
  | .declaration prop value _ => indent depth ++ prop ++ ": " ++ value ++ ";\n"
  | .comment text _ => indent depth ++ "/* " ++ text ++ " */\n"
  | .call c => indent depth ++ c.render ++ ";\n"

/-- The statements of a block as text. -/
def renderAll (depth : Nat) : List Node → String
  | [] => ""
  | node :: rest => node.render depth ++ renderAll depth rest

end

end Node

/-- A stylesheet as text: a blank line between statements at the top. -/
def Stylesheet.render (sheet : Stylesheet) : String :=
  "\n".intercalate (sheet.nodes.map (Node.render 0))

end Mixsheet
