import Mixsheet.Argument
import Mixsheet.Position

/-! # Stylesheets

A stylesheet is a list of statements: rules, at-rules, declarations, comments and mixin calls. Rules
and at-rules with a block hold further statements. -/

namespace Mixsheet

/-- A mixin call `name(arguments);`, with the text before the name and the arguments as written. -/
structure MixinCall where
  /-- Segments with dots between, as in `grid.row`. -/
  name : String
  arguments : List Argument
  before : String
  written : String
  source : Source

/-- A statement. -/
inductive Node where
  /-- `selector { … }` -/
  | rule (selector : String) (nodes : List Node) (source : Source)
  /-- `@name params { … }` -/
  | atBlock (name params : String) (nodes : List Node) (source : Source)
  /-- `@name params;` -/
  | atStatement (name params : String) (source : Source)
  /-- `prop: value;` -/
  | declaration (prop value : String) (source : Source)
  /-- `/* text */` -/
  | comment (text : String) (source : Source)
  /-- `name(arguments);` -/
  | call (call : MixinCall)

/-- Where the statement starts and ends. -/
def Node.source : Node → Source
  | .rule _ _ source | .atBlock _ _ _ source | .atStatement _ _ source | .declaration _ _ source
  | .comment _ source => source
  | .call c => c.source

/-- The statements of a source text. -/
structure Stylesheet where
  nodes : List Node

end Mixsheet
