import Mixsheet.Text.Blank
import Mixsheet.Token

/-! # Lexemes

What stands at the head of a text: the kind of its first token and where that token ends. White space
runs as far as it can, a comment to its `*/`, a string to the quote that closes it, and a word to the
next delimiter. A `( … )` that holds nothing that could hide a parenthesis is one token; after `url` it
is one token whatever it holds, unless it starts with a quote.

Every reader splits its text in two, and the two parts put together are the text again. -/

namespace Mixsheet

/-- Why a text has no first token. -/
inductive LexicalFault where
  | unclosedString
  | unclosedComment
  deriving DecidableEq, Repr

/-- The fault in words. -/
def LexicalFault.message : LexicalFault → String
  | .unclosedString => "Unclosed string"
  | .unclosedComment => "Unclosed comment"

/-- The first token of a text: its kind, its text after the first character, and the text behind it. -/
structure Lexeme where
  kind : TokenKind
  body : List Char
  rest : List Char

namespace Lexeme

/-! ### Comments and strings -/

/-- Splits the text after a `/*` behind the next `*/`. -/
def splitComment? : List Char → Option (List Char × List Char)
  | '*' :: '/' :: rest => some (['*', '/'], rest)
  | c :: rest => (splitComment? rest).map fun (body, rest) => (c :: body, rest)
  | [] => none

/-- Splits the text after an opening quote behind the quote that closes it. A backslash takes the
character after it along. -/
def splitString? (quote : Char) : List Char → Option (List Char × List Char)
  | '\\' :: d :: rest => (splitString? quote rest).map fun (body, rest) => ('\\' :: d :: body, rest)
  | c :: rest =>
    if c = quote then
      some ([c], rest)
    else
      (splitString? quote rest).map fun (body, rest) => (c :: body, rest)
  | [] => none

theorem append_of_splitComment? {cs body rest : List Char} (h : splitComment? cs = some (body, rest)) :
    body ++ rest = cs := by
  fun_induction splitComment? cs generalizing body with
  | case1 =>
    obtain ⟨rfl, rfl⟩ := Prod.mk.inj (Option.some.inj h)
    rfl
  | case2 c cs _ ih =>
    obtain ⟨⟨b, r⟩, hb, he⟩ := Option.map_eq_some_iff.mp h
    obtain ⟨rfl, rfl⟩ := Prod.mk.inj he
    simp [ih hb]
  | case3 => simp at h

theorem append_of_splitString? {q : Char} {cs body rest : List Char}
    (h : splitString? q cs = some (body, rest)) : body ++ rest = cs := by
  fun_induction splitString? q cs generalizing body with
  | case1 d cs ih =>
    obtain ⟨⟨b, r⟩, hb, he⟩ := Option.map_eq_some_iff.mp h
    obtain ⟨rfl, rfl⟩ := Prod.mk.inj he
    simp [ih hb]
  | case2 =>
    obtain ⟨rfl, rfl⟩ := Prod.mk.inj (Option.some.inj h)
    rfl
  | case3 c cs _ _ ih =>
    obtain ⟨⟨b, r⟩, hb, he⟩ := Option.map_eq_some_iff.mp h
    obtain ⟨rfl, rfl⟩ := Prod.mk.inj he
    simp [ih hb]
  | case4 => simp at h

/-! ### Words -/

/-- The tokens of one character. -/
def punctuation? : Char → Option TokenKind
  | ')' => some .rightParen
  | '[' => some .leftBracket
  | ']' => some .rightBracket
  | '\x7b' => some .leftBrace
  | '\x7d' => some .rightBrace
  | ':' => some .colon
  | ';' => some .semicolon
  | ',' => some .comma
  | _ => none

/-- A `/*` stands here. -/
def opensComment (c : Char) (rest : List Char) : Bool := c == '/' && rest.head? == some '*'

/-- The character opens and closes a string. -/
def isQuote (c : Char) : Bool := c == '"' || c == '\''

/-- A word ends before white space, a quote, a parenthesis, a token of one character or a comment. -/
def endsWord (c : Char) (rest : List Char) : Bool :=
  Text.isBlank c || isQuote c || c == '(' || (punctuation? c).isSome || opensComment c rest

/-- Splits a text where the word that it continues ends. -/
def splitWord : List Char → List Char × List Char
  | [] => ([], [])
  | c :: rest =>
    if endsWord c rest then
      ([], c :: rest)
    else
      let parts := splitWord rest
      (c :: parts.1, parts.2)

theorem splitWord_append (cs : List Char) : (splitWord cs).1 ++ (splitWord cs).2 = cs := by
  induction cs with
  | nil => rfl
  | cons c cs ih =>
    rw [splitWord]
    split <;> simp [ih]

/-! ### Parentheses -/

/-- The characters that keep a `( … )` from being one token. -/
def ungroupable : List Char := ['\\', '/', '(', '"', '\'', '\n']

/-- The text between a `(` and the next `)` makes one token with them. -/
def groups (afterUrl : Bool) (inner : List Char) : Bool :=
  if afterUrl then
    !(inner.find? fun c => !Text.isBlank c).any isQuote
  else
    inner.all fun c => !ungroupable.contains c

/-- Splits the text after a `(` behind the next `)`, if the two make one token with what they hold. -/
def splitBrackets? (afterUrl : Bool) (cs : List Char) : Option (List Char × List Char) :=
  match cs.dropWhile (· != ')') with
  | [] => none
  | close :: rest =>
    if groups afterUrl (cs.takeWhile (· != ')')) then
      some (cs.takeWhile (· != ')') ++ [close], rest)
    else
      none

theorem append_of_splitBrackets? {u : Bool} {cs body rest : List Char}
    (h : splitBrackets? u cs = some (body, rest)) : body ++ rest = cs := by
  unfold splitBrackets? at h
  split at h
  · simp at h
  · rename_i close tail hd
    split at h
    · obtain ⟨rfl, rfl⟩ := Prod.mk.inj (Option.some.inj h)
      rw [List.append_assoc, List.singleton_append, ← hd, List.takeWhile_append_dropWhile]
    · simp at h

/-! ### The first token -/

/-- The lexeme of a kind that a splitting gives. -/
def ofSplit (kind : TokenKind) (parts : List Char × List Char) : Lexeme := ⟨kind, parts.1, parts.2⟩

/-- The first token of the text `c :: rest`; `afterUrl` says that the token before it is the word
`url`. -/
def read (afterUrl : Bool) (c : Char) (rest : List Char) : Except LexicalFault Lexeme :=
  if Text.isBlank c then
    .ok ⟨.space, rest.takeWhile Text.isBlank, rest.dropWhile Text.isBlank⟩
  else if opensComment c rest then
    match splitComment? (rest.drop 1) with
    | some (body, rest) => .ok ⟨.comment, '*' :: body, rest⟩
    | none => .error .unclosedComment
  else if isQuote c then
    match splitString? c rest with
    | some parts => .ok (ofSplit .string parts)
    | none => .error .unclosedString
  else if c = '(' then
    match splitBrackets? afterUrl rest with
    | some parts => .ok (ofSplit .brackets parts)
    | none => .ok ⟨.leftParen, [], rest⟩
  else if c = '@' then
    .ok (ofSplit .atWord (splitWord rest))
  else
    match punctuation? c with
    | some kind => .ok ⟨kind, [], rest⟩
    | none => .ok (ofSplit .word (splitWord rest))

/-- The two parts of a text that a lexeme splits it into are the text. -/
theorem append_of_read {u : Bool} {c : Char} {cs : List Char} {l : Lexeme} (h : read u c cs = .ok l) :
    l.body ++ l.rest = cs := by
  unfold read at h
  split at h
  · cases h
    exact List.takeWhile_append_dropWhile
  split at h
  · rename_i hc
    split at h
    · rename_i body rest hs
      cases h
      have := append_of_splitComment? hs
      cases cs with
      | nil => simp [opensComment] at hc
      | cons d ds =>
        simp only [opensComment, List.head?_cons, Bool.and_eq_true, beq_iff_eq, Option.some.injEq] at hc
        simp_all
    · cases h
  split at h
  · split at h
    · rename_i parts hs
      cases h
      exact append_of_splitString? hs
    · cases h
  split at h
  · split at h
    · rename_i parts hs
      cases h
      exact append_of_splitBrackets? hs
    · cases h
      rfl
  split at h
  · cases h
    exact splitWord_append cs
  split at h
  · cases h
    rfl
  · cases h
    exact splitWord_append cs

theorem rest_length_le {u : Bool} {c : Char} {cs : List Char} {l : Lexeme} (h : read u c cs = .ok l) :
    l.rest.length ≤ cs.length := by
  rw [← append_of_read h, List.length_append]
  omega

end Lexeme
end Mixsheet
