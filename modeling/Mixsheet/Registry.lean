import Mixsheet.Table

/-! # Registries

A registry holds mixins, and further registries of mixins, under names. A dotted name such as
`grid.row` leads through registries to a mixin. What a registry holds for a mixin is left open here. -/

namespace Mixsheet

/-- What a name in a registry stands for. -/
inductive Entry (μ : Type) where
  | mixin (mixin : μ)
  | registry (entries : List (String × Entry μ))

/-- Mixins and registries under names, in the order in which the names were first written. -/
structure Registry (μ : Type) where
  entries : List (String × Entry μ)

/-- A mixin, and the registry that holds it directly. -/
structure Resolved (μ : Type) where
  mixin : μ
  home : Registry μ

namespace Registry

variable {μ : Type}

/-- The registry without entries. -/
def empty : Registry μ := ⟨[]⟩

/-- Writes an entry under a name; the last one written counts. -/
def write (r : Registry μ) (name : String) (entry : Entry μ) : Registry μ :=
  ⟨Table.insert name entry r.entries⟩

/-- Writes a mixin under a name. -/
def register (r : Registry μ) (name : String) (mixin : μ) : Registry μ := r.write name (.mixin mixin)

/-- Writes a registry under a name. -/
def registerRegistry (r : Registry μ) (name : String) (inner : Registry μ) : Registry μ :=
  r.write name (.registry inner.entries)

/-- Writes entries one after the other. -/
def writeAll (r : Registry μ) (entries : List (String × Entry μ)) : Registry μ :=
  ⟨Table.insertAll r.entries entries⟩

/-- Writes the entries of another registry. -/
def extend (r other : Registry μ) : Registry μ := r.writeAll other.entries

/-- What a name stands for; dots in it have no meaning. -/
def get? (r : Registry μ) (name : String) : Option (Entry μ) := Table.get? name r.entries

/-- There is an entry under the name. -/
def contains (r : Registry μ) (name : String) : Bool := (r.get? name).isSome

/-- The names in the order in which they were first written. -/
def names (r : Registry μ) : List String := Table.keys r.entries

/-- How many names there are. -/
def size (r : Registry μ) : Nat := r.entries.length

/-! ### Dotted names -/

/-- The parts of a text between its dots. -/
def splitDots : List Char → List (List Char)
  | [] => [[]]
  | c :: rest =>
    if c = '.' then
      [] :: splitDots rest
    else
      match splitDots rest with
      | [] => [[c]]
      | part :: parts => (c :: part) :: parts

/-- The segments of a dotted name. -/
def segments (name : String) : List String := (splitDots name.toList).map .ofList

/-- The mixin that segments lead to: all but the last one name registries, and the last one a mixin. -/
def follow? (r : Registry μ) : List String → Option (Resolved μ)
  | [] => none
  | [last] =>
    match r.get? last with
    | some (.mixin mixin) => some ⟨mixin, r⟩
    | _ => none
  | segment :: rest =>
    match r.get? segment with
    | some (.registry entries) => follow? ⟨entries⟩ rest
    | _ => none

/-- The mixin that a dotted name leads to. -/
def resolve? (r : Registry μ) (name : String) : Option (Resolved μ) := r.follow? (segments name)

/-! ### Outlines -/

mutual

/-- An entry without its mixins. -/
def outlineEntry : Entry μ → Entry Unit
  | .mixin _ => .mixin ()
  | .registry entries => .registry (outlineEntries entries)

/-- Entries without their mixins. -/
def outlineEntries : List (String × Entry μ) → List (String × Entry Unit)
  | [] => []
  | (name, entry) :: rest => (name, outlineEntry entry) :: outlineEntries rest

end

/-- The names of a registry and of the registries in it, without the mixins. -/
def outline (r : Registry μ) : Registry Unit := ⟨outlineEntries r.entries⟩

end Registry
end Mixsheet
