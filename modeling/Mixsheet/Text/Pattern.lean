import Mixsheet.Text.Blank
import Mixsheet.Text.DecimalDigit
import Mixsheet.Text.WordChar

/-! # Patterns

Regular patterns over classes of characters. What a pattern leaves to be found after a character is a
finite set of patterns, so a text is searched in one pass with the set of all that is left of matches
begun so far. -/

namespace Mixsheet.Text

/-- A class of characters. -/
inductive CharClass where
  | exactly (c : Char)
  | digit
  | word
  | blank
  deriving DecidableEq, Repr

/-- The class has the character. -/
def CharClass.contains : CharClass → Char → Bool
  | .exactly d, c => c == d
  | .digit, c => isDecimalDigit c
  | .word, c => isWordChar c
  | .blank, c => isBlank c

/-- A regular pattern. -/
inductive Pattern where
  | empty
  | one (cls : CharClass)
  | seq (first second : Pattern)
  | either (first second : Pattern)
  | many (pattern : Pattern)
  deriving DecidableEq, Repr

namespace Pattern

/-! ### Building patterns -/

/-- The pattern of one character. -/
def exactly (c : Char) : Pattern := .one (.exactly c)

/-- The pattern once or more. -/
def some (p : Pattern) : Pattern := .seq p (.many p)

/-- The pattern once or not at all. -/
def optional (p : Pattern) : Pattern := .either p .empty

/-- The patterns one after the other. -/
def all : List Pattern → Pattern
  | [] => .empty
  | [p] => p
  | p :: rest => .seq p (all rest)

/-! ### What is left of a pattern -/

/-- The pattern accepts the empty text. -/
def nullable : Pattern → Bool
  | .empty | .many _ => true
  | .one _ => false
  | .seq p q => p.nullable && q.nullable
  | .either p q => p.nullable || q.nullable

/-- A pattern before another one; the empty one is left out. -/
def before (q : Pattern) : Pattern → Pattern
  | .empty => q
  | p => .seq p q

/-- What is left of a pattern after the character `c`, one pattern for each way to read it. -/
def next (c : Char) : Pattern → List Pattern
  | .empty => []
  | .one cls => if cls.contains c then [.empty] else []
  | .seq p q => (p.next c).map (before q) ++ if p.nullable then q.next c else []
  | .either p q => p.next c ++ q.next c
  | .many p => (p.next c).map (before (.many p))

/-- One of the patterns matches the whole text. -/
def anyMatches (patterns : List Pattern) : List Char → Bool
  | [] => patterns.any nullable
  | c :: rest => anyMatches (patterns.flatMap (next c)).eraseDups rest

/-- The pattern matches the whole text. -/
def matchesText (p : Pattern) (cs : List Char) : Bool := anyMatches [p] cs

/-- The text holds a match of `p`, or starts with a match of one of the patterns. -/
def occursFrom (p : Pattern) (patterns : List Pattern) (cs : List Char) : Bool :=
  (p :: patterns).any nullable ||
    match cs with
    | [] => false
    | c :: rest => occursFrom p ((p :: patterns).flatMap (next c)).eraseDups rest

/-- The text holds a match of the pattern. -/
def occursIn (p : Pattern) (cs : List Char) : Bool := occursFrom p [] cs

end Pattern
end Mixsheet.Text
