import Mixsheet.Token

/-! # Segments

The tokens of a stylesheet, cut where its statements begin and end. A statement runs to the first `;`,
`{` or `}` outside its brackets, where a bracket is open until its own kind closes it. The parameters of
an at-rule run to the first such token where as many brackets of either kind are closed as opened. A
`}` is a segment of its own. Every run of tokens has segments; whether they make a stylesheet is not
asked here. -/

namespace Mixsheet

/-- How the tokens of a statement end. -/
inductive Ending where
  | semicolon (position : Position)
  /-- A `{` opens a block. -/
  | block (position : Position)
  /-- A `}` follows, or nothing. -/
  | last
  deriving DecidableEq, Repr

/-- A stretch of a stylesheet. -/
inductive Segment where
  | space (text : String)
  | semicolon
  | comment (token : Token)
  | close (position : Position)
  | atRule (word : Token) (params : List Token) (ending : Ending)
  | statement (start : Position) (head : List Token) (ending : Ending)
  deriving DecidableEq, Repr

namespace Segment

/-- The tokens that end a statement outside its brackets. -/
def isStop (t : Token) : Bool :=
  t.kind == .semicolon || t.kind == .leftBrace || t.kind == .rightBrace

/-! ### Brackets -/

/-- The closing brackets that are missing after a token, innermost first. Inside a bracket only an
opening bracket and the closer of the innermost one count. -/
def missing (closers : List TokenKind) (t : Token) : List TokenKind :=
  match t.kind with
  | .leftParen => .rightParen :: closers
  | .leftBracket => .rightBracket :: closers
  | kind =>
    match closers with
    | [] => []
    | closer :: outer => if kind = closer then outer else closers

/-- The tokens outside all brackets, where `closers` are missing before. -/
def outside (closers : List TokenKind) : List Token → List Token
  | [] => []
  | t :: rest =>
    if closers = [] then t :: outside (missing closers t) rest else outside (missing closers t) rest

/-- The bracket that stays open, the outermost one. `opened?` is the outermost one before the run. -/
def unclosed? (closers : List TokenKind) (opened? : Option Token) : List Token → Option Token
  | [] => if closers = [] then none else opened?
  | t :: rest => unclosed? (missing closers t) (if closers = [] then some t else opened?) rest

/-- Splits a run of tokens before the token that ends the statement. -/
def splitHead (closers : List TokenKind) : List Token → List Token × List Token
  | [] => ([], [])
  | t :: rest =>
    if closers = [] ∧ isStop t then
      ([], t :: rest)
    else
      let parts := splitHead (missing closers t) rest
      (t :: parts.1, parts.2)

/-- How many brackets of an at-rule are open after a token. -/
def depthAfter (depth : Nat) (t : Token) : Nat :=
  match t.kind with
  | .leftParen | .leftBracket => depth + 1
  | .rightParen | .rightBracket => depth - 1
  | _ => depth

/-- Splits a run of tokens before the token that ends the parameters of an at-rule. -/
def splitParams (depth : Nat) : List Token → List Token × List Token
  | [] => ([], [])
  | t :: rest =>
    if depth = 0 ∧ isStop t then
      ([], t :: rest)
    else
      let parts := splitParams (depthAfter depth t) rest
      (t :: parts.1, parts.2)

/-- The ending that a run of tokens starts with, and the tokens after it. A `}` is left. -/
def splitEnding : List Token → Ending × List Token
  | [] => (.last, [])
  | t :: rest =>
    match t.kind with
    | .semicolon => (.semicolon t.position, rest)
    | .leftBrace => (.block t.position, rest)
    | _ => (.last, t :: rest)

theorem splitHead_append (closers : List TokenKind) (ts : List Token) :
    (splitHead closers ts).1 ++ (splitHead closers ts).2 = ts := by
  induction ts generalizing closers with
  | nil => rfl
  | cons t ts ih =>
    rw [splitHead]
    split <;> simp [ih]

theorem splitParams_append (depth : Nat) (ts : List Token) :
    (splitParams depth ts).1 ++ (splitParams depth ts).2 = ts := by
  induction ts generalizing depth with
  | nil => rfl
  | cons t ts ih =>
    rw [splitParams]
    split <;> simp [ih]

theorem splitEnding_length_le (ts : List Token) : (splitEnding ts).2.length ≤ ts.length := by
  unfold splitEnding
  split
  · simp
  · split <;> simp

theorem splitEnding_splitHead_length_le (closers : List TokenKind) (ts : List Token) :
    (splitEnding (splitHead closers ts).2).2.length ≤ ts.length := by
  have h := splitEnding_length_le (splitHead closers ts).2
  have h' := congrArg List.length (splitHead_append closers ts)
  simp only [List.length_append] at h'
  omega

theorem splitEnding_splitParams_length_le (depth : Nat) (ts : List Token) :
    (splitEnding (splitParams depth ts).2).2.length ≤ ts.length := by
  have h := splitEnding_length_le (splitParams depth ts).2
  have h' := congrArg List.length (splitParams_append depth ts)
  simp only [List.length_append] at h'
  omega

/-! ### Segments of a run -/

/-- Cuts tokens into segments. -/
def ofTokens (ts : List Token) : List Segment :=
  match ts with
  | [] => []
  | t :: rest =>
    match t.kind with
    | .space => .space t.text :: ofTokens rest
    | .semicolon => .semicolon :: ofTokens rest
    | .comment => .comment t :: ofTokens rest
    | .rightBrace => .close t.position :: ofTokens rest
    | .leftBrace => .statement t.position [] (.block t.position) :: ofTokens rest
    | .atWord =>
      have := splitEnding_splitParams_length_le 0 rest
      let params := splitParams 0 rest
      let ending := splitEnding params.2
      .atRule t params.1 ending.1 :: ofTokens ending.2
    | _ =>
      have := splitEnding_splitHead_length_le (missing [] t) rest
      let head := splitHead (missing [] t) rest
      let ending := splitEnding head.2
      .statement t.position (t :: head.1) ending.1 :: ofTokens ending.2
termination_by ts.length
decreasing_by
  all_goals simp_all only [List.length_cons]
  all_goals omega

end Segment
end Mixsheet
