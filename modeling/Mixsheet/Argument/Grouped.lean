import Mixsheet.Argument.Piece
import Mixsheet.Text.Blank

/-! # Grouped calls

The arguments of a call that stands in one `( … )` token. The text between the parentheses is cut at
the commas outside brackets and quotes; a part with a `: ` outside brackets and quotes is a key with
its value; a part in square brackets is a list, cut the same way. Empty parts are kept. -/

namespace Mixsheet

/-- Where a character stands: how many brackets are open, and the quote that is open. -/
structure Nesting where
  depth : Nat
  quote? : Option Char
  deriving DecidableEq, Repr

namespace Nesting

/-- Neither in brackets nor in quotes. -/
def outside : Nesting := ⟨0, none⟩

/-- A separator counts here. -/
def isOutside (n : Nesting) : Bool := n == outside

/-- Where the character after `c` stands. A closing bracket too many is passed over, and so is
everything in quotes but the closing quote. -/
def after (n : Nesting) (c : Char) : Nesting :=
  match n.quote? with
  | some quote => if c = quote then { n with quote? := none } else n
  | none =>
    if c = '"' ∨ c = '\'' then { n with quote? := some c }
    else if c = '(' ∨ c = '[' then { n with depth := n.depth + 1 }
    else if c = ')' ∨ c = ']' then { n with depth := n.depth - 1 }
    else n

end Nesting

namespace Grouped

/-! ### Commas -/

/-- The text up to the first comma outside brackets and quotes, and the text behind it. -/
def splitComma (n : Nesting) : List Char → List Char × Option (List Char)
  | [] => ([], none)
  | c :: rest =>
    if c = ',' ∧ n.isOutside then
      ([], some rest)
    else
      let parts := splitComma (n.after c) rest
      (c :: parts.1, parts.2)

theorem length_of_splitComma {n : Nesting} {cs : List Char} {rest : List Char}
    (h : (splitComma n cs).2 = some rest) : rest.length < cs.length := by
  induction cs generalizing n with
  | nil => simp [splitComma] at h
  | cons c cs ih =>
    rw [splitComma] at h
    split at h
    · cases h
      simp
    · have := ih h
      simp only [List.length_cons]
      omega

/-- The parts of a text between the commas outside brackets and quotes. -/
def splitCommas (cs : List Char) : List (List Char) :=
  match h : (splitComma .outside cs).2 with
  | none => [(splitComma .outside cs).1]
  | some rest =>
    have := length_of_splitComma h
    (splitComma .outside cs).1 :: splitCommas rest
termination_by cs.length

theorem length_splitComma_le (n : Nesting) (cs : List Char) :
    (splitComma n cs).1.length ≤ cs.length := by
  induction cs generalizing n with
  | nil => simp [splitComma]
  | cons c cs ih =>
    rw [splitComma]
    split
    · simp
    · simpa using ih (n.after c)

theorem length_le_of_mem_splitCommas {cs part : List Char} (h : part ∈ splitCommas cs) :
    part.length ≤ cs.length := by
  fun_induction splitCommas cs with
  | case1 cs =>
    obtain rfl := List.mem_singleton.mp h
    exact length_splitComma_le _ cs
  | case2 cs rest hr _ ih =>
    rcases List.mem_cons.mp h with rfl | h
    · exact length_splitComma_le _ cs
    · have := ih h
      have := length_of_splitComma hr
      omega

/-! ### Keys -/

/-- Cuts a part at the first `: ` outside brackets and quotes. -/
def splitPair? (n : Nesting) : List Char → Option (List Char × List Char)
  | [] => none
  | c :: rest =>
    if c = ':' ∧ n.isOutside ∧ rest.head? = some ' ' then some ([], rest.drop 1)
    else (splitPair? (n.after c) rest).map fun (key, value) => (c :: key, value)

/-! ### Lists -/

/-- The text between square brackets that enclose a text. -/
def listBody? : List Char → Option (List Char)
  | '[' :: rest => if rest.getLast? = some ']' then some rest.dropLast else none
  | _ => none

theorem length_of_listBody? {cs body : List Char} (h : listBody? cs = some body) :
    body.length < cs.length := by
  unfold listBody? at h
  split at h
  · split at h
    · cases h
      simp only [List.length_dropLast, List.length_cons]
      omega
    · cases h
  · cases h

/-- A text in square brackets is a list of the parts between them, any other text is itself. -/
def literal (cs : List Char) : Argument :=
  match h : listBody? cs with
  | none => .text (.ofList cs)
  | some body =>
    if (Text.trim body).isEmpty then
      .list []
    else
      .list ((splitCommas body).attach.map fun ⟨part, hp⟩ =>
        have : (Text.trim part).length < cs.length :=
          Nat.lt_of_le_of_lt (Nat.le_trans (Text.length_trim_le part) (length_le_of_mem_splitCommas hp))
            (length_of_listBody? h)
        literal (Text.trim part))
termination_by cs.length

/-! ### Pieces -/

/-- What a part between commas is: a pair if it has a colon with a blank behind it, else an argument. -/
def piece (part : List Char) : Piece :=
  match splitPair? .outside (Text.trim part) with
  | some (key, value) => .pair (.ofList (Text.trim key)) (literal (Text.trim value))
  | none => .single (literal (Text.trim part))

/-- The pieces of the text between the parentheses; a blank text has none. -/
def pieces (inner : List Char) : List Piece :=
  if (Text.trim inner).isEmpty then [] else (splitCommas inner).map piece

/-- The text between the first character and the last one, which are the parentheses of a call. -/
def inside (raw : String) : List Char := (raw.toList.drop 1).dropLast

/-- The arguments of a call in one `( … )`. The call is keyed if a part of it is a key with a value. -/
def arguments (raw : String) : List Argument :=
  let pieces := pieces (inside raw)
  Piece.arguments (pieces.any Piece.isPair) pieces

end Grouped
end Mixsheet
