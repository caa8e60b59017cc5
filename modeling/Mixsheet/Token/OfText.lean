import Mixsheet.Token.Lexeme

/-! # The tokens of a text

A text is cut into tokens from its start, one lexeme after the other. The last token stands at the end
of the text and is empty. -/

namespace Mixsheet

/-- A text has no tokens, and where that shows. -/
structure LexicalError where
  fault : LexicalFault
  position : Position
  deriving DecidableEq, Repr

/-- The error as it is told, with its place. -/
def LexicalError.message (e : LexicalError) : String :=
  s!"Lexer error at line {e.position.line}, column {e.position.column}: {e.fault.message}"

namespace Token

/-- The number of bytes of a text. -/
def byteSize (cs : List Char) : Nat := cs.foldr (fun c n => c.utf8Size + n) 0

/-- The token is the word `url`, in any case. -/
def isUrl (t : Token) : Bool := t.kind == .word && t.text.toList.map Char.toLower == ['u', 'r', 'l']

/-- The tokens of a text that stands after the token `before?`, from byte `start` and `position` on. -/
def ofCharsFrom (before? : Option Token) (start : Nat) (position : Position) (cs : List Char) :
    Except LexicalError (List Token) :=
  match cs with
  | [] => .ok [⟨.eof, "", start, start, position⟩]
  | c :: rest =>
    match h : Lexeme.read (before?.any isUrl) c rest with
    | .error fault => .error ⟨fault, position⟩
    | .ok lexeme =>
      let text := c :: lexeme.body
      let token : Token := ⟨lexeme.kind, .ofList text, start, start + byteSize text, position⟩
      have : lexeme.rest.length ≤ rest.length := Lexeme.rest_length_le h
      (ofCharsFrom (some token) token.stop (position.after text) lexeme.rest).map (token :: ·)
termination_by cs.length

/-- The tokens of a text, the empty one at its end included. -/
def ofText (s : String) : Except LexicalError (List Token) := ofCharsFrom none 0 .first s.toList

end Token
end Mixsheet
