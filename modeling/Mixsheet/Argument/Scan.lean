import Mixsheet.Argument.Piece
import Mixsheet.Token

/-! # Scanned calls

The arguments of a call that is not one `( … )` token. The tokens are read from left to right: a word
or a string is an argument, a function call is put together from its tokens, and words that only white
space separates become one argument, a stack such as `'Open Sans', Arial`. Commas only separate, so an
empty part is no argument. A `[ … ]` is a list of the arguments between the brackets. A colon outside
functions and lists makes the call keyed. -/

namespace Mixsheet.Scan

/-- Puts text to the last argument, which starts a new one if it is no text. The last argument comes
first. -/
def append (arguments : List Argument) (s : String) : List Argument :=
  match arguments with
  | .text last :: rest => .text (last ++ s) :: rest
  | _ => .text s :: arguments

/-- How many list brackets are open behind a token, if `depth` are before it. -/
def listsAfter (depth : Nat) : TokenKind → Nat
  | .leftBracket => depth + 1
  | .rightBracket => depth - 1
  | _ => depth

/-- The tokens of a list up to the bracket that closes it, and the tokens from that bracket on, where
`depth` lists are open inside it. -/
def splitList (depth : Nat) : List Token → List Token × List Token
  | [] => ([], [])
  | t :: rest =>
    if t.kind = .rightBracket ∧ depth = 0 then
      ([], t :: rest)
    else
      let parts := splitList (listsAfter depth t.kind) rest
      (t :: parts.1, parts.2)

theorem splitList_append (depth : Nat) (ts : List Token) :
    (splitList depth ts).1 ++ (splitList depth ts).2 = ts := by
  induction ts generalizing depth with
  | nil => rfl
  | cons t ts ih =>
    rw [splitList]
    split <;> simp [ih]

theorem splitList_length (depth : Nat) (ts : List Token) :
    (splitList depth ts).1.length + (splitList depth ts).2.length = ts.length := by
  rw [← List.length_append, splitList_append]

/-- The next word or string continues the last argument: white space alone stands between them, and the
token before that is no separator. The tokens before come nearest first. -/
def continuesStack (before : List Token) (arguments : List Argument) : Bool :=
  match before, arguments with
  | space :: t :: _, .text _ :: _ =>
    space.kind == .space && t.kind != .colon && t.kind != .comma &&
      t.text.toList.getLast? != some ','
  | _, _ => false

/-- How many parentheses of a function are open after a token inside it. -/
def depthAfter (depth : Nat) (t : Token) : Nat :=
  match t.kind with
  | .leftParen => depth + 1
  | .rightParen => depth - 1
  | _ => depth

/-- The arguments of a run of tokens and whether a colon stands among them. The tokens `before` the
run come nearest first and the arguments so far last first; `depth` parentheses of a function are
open. -/
def argumentsFrom (before : List Token) (depth : Nat) (arguments : List Argument) (keyed : Bool)
    (ts : List Token) : List Argument × Bool :=
  match ts with
  | [] => (arguments.reverse, keyed)
  | t :: rest =>
    if depth > 0 then
      argumentsFrom (t :: before) (depthAfter depth t) (append arguments t.text) keyed rest
    else
      match t.kind with
      | .colon => argumentsFrom (t :: before) 0 arguments true rest
      | .word | .string | .atWord =>
        if continuesStack before arguments then
          argumentsFrom (t :: before) 0 (append arguments (", " ++ t.text)) keyed rest
        else
          argumentsFrom (t :: before) 0 (.text t.text :: arguments) keyed rest
      | .leftParen => argumentsFrom (t :: before) 1 (append arguments t.text) keyed rest
      | .rightParen => argumentsFrom (t :: before) 0 (append arguments t.text) keyed rest
      | .brackets =>
        if before.head?.any (·.kind == .word) then
          argumentsFrom (t :: before) 0 (append arguments t.text) keyed rest
        else
          argumentsFrom (t :: before) 0 (.text t.text :: arguments) keyed rest
      | .leftBracket =>
        have := splitList_length 0 rest
        let inner := (splitList 0 rest).1
        let list := Argument.list (argumentsFrom [] 0 [] false inner).1
        match _h : (splitList 0 rest).2 with
        | [] => ((list :: arguments).reverse, keyed)
        | close :: rest' =>
          argumentsFrom (close :: (inner.reverse ++ t :: before)) 0 (list :: arguments) keyed rest'
      | _ => argumentsFrom (t :: before) 0 arguments keyed rest
termination_by ts.length
decreasing_by
  all_goals simp_all only [List.length_cons]
  all_goals omega

/-- The arguments in the tokens between the parentheses of a call. -/
def arguments (ts : List Token) : List Argument :=
  let (arguments, keyed) := argumentsFrom [] 0 [] false ts
  Piece.arguments keyed (arguments.map .single)

end Mixsheet.Scan
