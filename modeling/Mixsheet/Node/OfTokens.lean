import Mixsheet.Argument.OfTokens
import Mixsheet.Node
import Mixsheet.Node.Segment
import Mixsheet.Text.Blank
import Mixsheet.Token.OfText

/-! # The stylesheet of a text

The segments of a text are read one after the other, with the blocks that are open kept as a stack. A
statement before a `{` is the selector of a rule. Any other statement with a colon outside its brackets
is a declaration. One with brackets and no such colon is a mixin call, and needs its semicolon; one
without brackets is an error. The first fault of a text is its error. -/

namespace Mixsheet

/-- Why a text is no stylesheet. -/
inductive ParseFault where
  | lexical (fault : LexicalFault)
  | unexpectedBrace
  | unclosedBlock
  | unclosedBracket
  | unknownWord
  | missingSemicolon
  deriving DecidableEq, Repr

/-- The fault in words. -/
def ParseFault.message : ParseFault → String
  | .lexical fault => fault.message
  | .unexpectedBrace => "Unexpected \x7d"
  | .unclosedBlock => "Unclosed block"
  | .unclosedBracket => "Unclosed bracket"
  | .unknownWord => "Unknown word"
  | .missingSemicolon => "Missing semicolon"

/-- A text is no stylesheet, and where that shows. -/
structure ParseError where
  fault : ParseFault
  position : Position
  deriving DecidableEq, Repr

/-- The error as it is told, with its place. -/
def ParseError.message (e : ParseError) : String :=
  s!"Parse error at line {e.position.line}, column {e.position.column}: {e.fault.message}"

namespace Node

/-! ### Statements -/

/-- A colon stands outside all brackets of a statement. -/
def hasColon (head : List Token) : Bool := (Segment.outside [] head).any (·.kind == .colon)

/-- There is an opening bracket, or a group in parentheses, in the head. -/
def hasBrackets (head : List Token) : Bool :=
  head.any fun t => t.kind == .leftParen || t.kind == .leftBracket || t.kind == .brackets

/-- The position of the last token of a run, or `start` if the run has none. -/
def lastPosition (start : Position) (run : List Token) : Position :=
  (run.getLast?.map Token.position).getD start

/-- The text of a run of tokens without the white space around it. -/
def trimmedText (run : List Token) : String := Text.trimmed (Token.join run)

/-- The text of a comment without its delimiters and the white space inside them. -/
def commentText (raw : String) : String :=
  .ofList (Text.trim (raw.toList.drop 2).dropLast.dropLast)

/-- The declaration that a statement makes; its first colon ends the property. -/
def declarationOf (start : Position) (run : List Token) : Except ParseError Node :=
  let prop := trimmedText (run.takeWhile (·.kind != .colon))
  if prop = "" then
    .error ⟨.unknownWord, start⟩
  else
    .ok (.declaration prop (trimmedText ((run.dropWhile (·.kind != .colon)).drop 1))
      ⟨start, lastPosition start run⟩)

/-- The mixin call that a statement with the semicolon `stop` makes; its first word is the name. The
white space before the statement is `spaces`. -/
def callOf (spaces : String) (start : Position) (run : List Token) (stop : Position) :
    Except ParseError Node :=
  match run.dropWhile (·.kind != .word) with
  | [] => .error ⟨.unknownWord, start⟩
  | name :: rest =>
    .ok (.call {
      name := name.text
      arguments := Argument.ofTokens rest
      before := spaces ++ Token.join (run.takeWhile (·.kind != .word))
      written := Token.join rest
      source := ⟨name.position, stop⟩ })

/-- The name of an at-rule, without the `@` before it. -/
def atName (word : Token) : String := .ofList (word.text.toList.dropWhile (· == '@'))

/-! ### Blocks -/

/-- What stands before a block. -/
inductive Header where
  | rule (selector : String)
  | atRule (name params : String)

/-- The statement of a header and its block. -/
def Header.node (header : Header) (nodes : List Node) (source : Source) : Node :=
  match header with
  | .rule selector => .rule selector nodes source
  | .atRule name params => .atBlock name params nodes source

/-- A block whose `}` is still to come, and the statements before it, last first. -/
structure OpenBlock where
  header : Header
  start : Position
  brace : Position
  before : List Node

/-- What is read of a stylesheet: the white space since the last statement, the statements of the
innermost open block, last first, and the open blocks, innermost first. -/
structure Progress where
  spaces : String
  nodes : List Node
  blocks : List OpenBlock

namespace Progress

/-- Nothing is read yet. -/
def initial : Progress := ⟨"", [], []⟩

/-- A statement is read. -/
def add (p : Progress) (node : Node) : Progress := { p with spaces := "", nodes := node :: p.nodes }

/-- A block is opened: what was read in the block around it is kept. -/
def opened (p : Progress) (header : Header) (start brace : Position) : Progress :=
  ⟨"", [], ⟨header, start, brace, p.nodes⟩ :: p.blocks⟩

/-- A `}` closes the innermost block. -/
def close (p : Progress) (position : Position) : Except ParseError Progress :=
  match p.blocks with
  | [] => .error ⟨.unexpectedBrace, position⟩
  | block :: blocks =>
    .ok ⟨"", block.header.node p.nodes.reverse ⟨block.start, position⟩ :: block.before, blocks⟩

/-- A head is read with its ending: a block is opened, or a declaration or a mixin call is added. -/
def statement (p : Progress) (start : Position) (head : List Token) :
    Ending → Except ParseError Progress
  | .block brace => .ok (p.opened (.rule (trimmedText head)) start brace)
  | .semicolon stop =>
    if hasColon head then (declarationOf start head).map p.add
    else if hasBrackets head then (callOf p.spaces start head stop).map p.add
    else .error ⟨.unknownWord, start⟩
  | .last =>
    match Segment.unclosed? [] none head with
    | some bracket => .error ⟨.unclosedBracket, bracket.position⟩
    | none =>
      let run := Token.dropTriviaEnd head
      if hasColon head then (declarationOf start run).map p.add
      else if hasBrackets head then .error ⟨.missingSemicolon, lastPosition start run⟩
      else .error ⟨.unknownWord, start⟩

/-- An at-rule is read with its ending. -/
def atRule (p : Progress) (word : Token) (params : List Token) : Ending → Progress
  | .block brace => p.opened (.atRule (atName word) (trimmedText params)) word.position brace
  | _ =>
    p.add (.atStatement (atName word) (trimmedText params)
      ⟨word.position, lastPosition word.position params⟩)

/-- One more segment is read. -/
def step (p : Progress) : Segment → Except ParseError Progress
  | .space text => .ok { p with spaces := p.spaces ++ text }
  | .semicolon => .ok p
  | .comment t => .ok (p.add (.comment (commentText t.text) ⟨t.position, t.position⟩))
  | .close position => p.close position
  | .atRule word params ending => .ok (p.atRule word params ending)
  | .statement start head ending => p.statement start head ending

/-- The statements read, when nothing follows. -/
def finish (p : Progress) : Except ParseError (List Node) :=
  match p.blocks with
  | [] => .ok p.nodes.reverse
  | block :: _ => .error ⟨.unclosedBlock, block.brace⟩

/-- Segments are read one after the other up to the first fault. -/
def run (p : Progress) : List Segment → Except ParseError Progress
  | [] => .ok p
  | s :: rest =>
    match p.step s with
    | .ok p => p.run rest
    | .error e => .error e

end Progress

/-- The statements of a run of tokens. -/
def ofTokens (ts : List Token) : Except ParseError (List Node) :=
  (Progress.initial.run (Segment.ofTokens ts)).bind Progress.finish

end Node

/-- The stylesheet of a text. -/
def Stylesheet.parse (s : String) : Except ParseError Stylesheet :=
  match Token.ofText s with
  | .error e => .error ⟨.lexical e.fault, e.position⟩
  | .ok ts => (Node.ofTokens (ts.takeWhile (·.kind != .eof))).map .mk

end Mixsheet
