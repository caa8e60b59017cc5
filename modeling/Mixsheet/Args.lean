import Mixsheet.Value

/-! # The arguments of a mixin

A mixin is given a list of values. Reading behind the end of the list gives the undefined value, so an
argument left out is an undefined one. -/

namespace Mixsheet

/-- The values that a mixin is given. -/
structure Args where
  values : List Value

namespace Args

/-- No arguments. -/
def none : Args := ⟨[]⟩

/-- One argument. -/
def one (v : Value) : Args := ⟨[v]⟩

/-- The values of the arguments of a call. -/
def ofArguments (arguments : List Argument) : Args := ⟨arguments.map Value.ofArgument⟩

/-- The argument at a place; behind the last one it is undefined. -/
def get (a : Args) (i : Nat) : Value := a.values.getD i .undefined

/-- The argument at a place if it counts as given, and the other value if not. -/
def getOr (a : Args) (i : Nat) (other : Value) : Value := (a.get i).orElse other

/-- How many arguments there are. -/
def size (a : Args) : Nat := a.values.length

/-- No argument was given, or an undefined first one. -/
def isEmpty (a : Args) : Bool := (a.get 0).isUndefined

/-- The entries of a keyed call: those of a map in the first place. -/
def entries? (a : Args) : Option (List (String × Value)) := (a.get 0).entries?

/-- The arguments behind the first few. -/
def drop (a : Args) (n : Nat) : Args := ⟨a.values.drop n⟩

/-- All arguments as one value. -/
def toList (a : Args) : Value := .list a.values

end Args
end Mixsheet
