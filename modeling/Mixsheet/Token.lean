import Mixsheet.Position

/-! # Tokens

A stylesheet is a sequence of tokens that keep their text as written, white space and comments
included, so that any run of them can be put back together. -/

namespace Mixsheet

/-- What a token is. -/
inductive TokenKind where
  | word
  | atWord
  | string
  | space
  | comment
  /-- A `( … )` read whole. -/
  | brackets
  | leftParen
  | rightParen
  | leftBracket
  | rightBracket
  | leftBrace
  | rightBrace
  | colon
  | comma
  | semicolon
  | eof
  deriving DecidableEq, Repr

/-- White space and comments carry no meaning between statements. -/
def TokenKind.isTrivia : TokenKind → Bool
  | .space | .comment => true
  | _ => false

/-- A token: its text as written, the bytes it spans, and the position of its first character. -/
structure Token where
  kind : TokenKind
  text : String
  start : Nat
  stop : Nat
  position : Position
  deriving DecidableEq, Repr

namespace Token

/-- The token is white space or a comment. -/
def isTrivia (t : Token) : Bool := t.kind.isTrivia

/-- The characters of a run of tokens, as written. -/
def chars (ts : List Token) : List Char := ts.flatMap (·.text.toList)

/-- The text of tokens. -/
def join (ts : List Token) : String := .ofList (chars ts)

@[simp] theorem chars_nil : chars [] = [] := rfl

@[simp] theorem chars_cons (t : Token) (ts : List Token) :
    chars (t :: ts) = t.text.toList ++ chars ts := rfl

@[simp] theorem chars_append (ts us : List Token) : chars (ts ++ us) = chars ts ++ chars us := by
  simp [chars]

/-- A run of tokens without the white space and comments it starts with. -/
def dropTrivia (ts : List Token) : List Token := ts.dropWhile isTrivia

/-- A run of tokens without the white space and comments it ends with. -/
def dropTriviaEnd (ts : List Token) : List Token := (ts.reverse.dropWhile isTrivia).reverse

/-- A run of tokens without the white space and comments at its ends. -/
def trimTrivia (ts : List Token) : List Token := dropTriviaEnd (dropTrivia ts)

end Token
end Mixsheet
