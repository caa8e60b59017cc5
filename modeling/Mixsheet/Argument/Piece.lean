import Mixsheet.Argument
import Mixsheet.Table

/-! # Pieces of a call

The comma-separated parts of a call, before it is known whether the call is keyed. In a keyed call the
pieces become the entries of one map: a pair is an entry, and of the others every second one, counted
from the first piece on, is a key without a value, and the ones between are values of the piece before
them. -/

namespace Mixsheet

/-- A part of a call: an argument, or a key with its value. -/
inductive Piece where
  | single (argument : Argument)
  | pair (key : String) (value : Argument)

namespace Piece

/-- The key that the piece is in a keyed call: its own, or an argument as text. -/
def keyText : Piece → String
  | .single argument => argument.render
  | .pair key _ => key

/-- The piece has a key of its own. -/
def isPair : Piece → Bool
  | .single _ => false
  | .pair _ _ => true

/-- The piece as an argument: a pair is a map of one entry. -/
def argument : Piece → Argument
  | .single argument => argument
  | .pair key value => .map [(key, value)]

/-- Writes the entries of pieces into a table. At an odd place a single piece is the value of the piece
before it, whose text is `previous`. -/
def entriesFrom (odd : Bool) (previous : String) (table : List (String × Argument)) :
    List Piece → List (String × Argument)
  | [] => table
  | piece :: rest =>
    let table := match piece with
      | .pair key value => Table.insert key value table
      | .single argument =>
        if odd then Table.insert previous argument table
        else Table.insert argument.render (.text "") table
    entriesFrom (!odd) piece.keyText table rest

/-- The arguments of a call: one map if the call is keyed, and one argument for each piece if not. -/
def arguments (keyed : Bool) (pieces : List Piece) : List Argument :=
  if keyed then [.map (entriesFrom false "" [] pieces)] else pieces.map argument

end Piece
end Mixsheet
