/-! # Positions

A place in a source text: the line and the column of a character, both counted from one. Columns count
characters, and only a line feed ends a line. -/

namespace Mixsheet

/-- The line and column of a character. -/
structure Position where
  line : Nat
  column : Nat
  deriving DecidableEq, Repr

namespace Position

/-- The position of no source text. -/
def none : Position := ⟨0, 0⟩

/-- Where a text starts. -/
def first : Position := ⟨1, 1⟩

/-- The place behind a character. -/
def next (p : Position) (c : Char) : Position :=
  if c = '\n' then ⟨p.line + 1, 1⟩ else ⟨p.line, p.column + 1⟩

/-- The position after a text. -/
def after (p : Position) (cs : List Char) : Position := cs.foldl next p

@[simp] theorem after_nil (p : Position) : p.after [] = p := rfl

@[simp] theorem after_cons (p : Position) (c : Char) (cs : List Char) :
    p.after (c :: cs) = (p.next c).after cs := rfl

theorem after_append (p : Position) (cs ds : List Char) :
    p.after (cs ++ ds) = (p.after cs).after ds := by
  simp [after, List.foldl_append]

end Position

/-- The positions of the first and the last token of a statement. -/
structure Source where
  start : Position
  stop : Position
  deriving DecidableEq, Repr

/-- The place of a statement that stands in no source text. -/
def Source.none : Source := ⟨.none, .none⟩

end Mixsheet
