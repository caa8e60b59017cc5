import Mixsheet.Decimal.Shortest

/-! # Numbers as text

A number is written with the shortest digits that read back to it, always positionally: no exponent,
and no point behind a whole number. It is read from a sign, digits with at most one point among them,
and an exponent, all of them optional but one digit. -/

namespace Mixsheet.Decimal

/-! ### Writing -/

/-- The decimal digits of a whole number. -/
def digitChars (n : Nat) : List Char := Nat.toDigits 10 n

/-- A scaled number in positional notation. -/
def Scaled.chars (s : Scaled) : List Char :=
  let digits := digitChars s.digits
  if 0 ≤ s.exponent then
    digits ++ List.replicate s.exponent.toNat '0'
  else
    let places := (-s.exponent).toNat
    let digits := List.replicate (places + 1 - digits.length) '0' ++ digits
    digits.take (digits.length - places) ++ '.' :: digits.drop (digits.length - places)

/-- A minus sign before the characters of a negative number. -/
def signed (negative : Bool) (cs : List Char) : List Char := if negative then '-' :: cs else cs

/-- The characters of a number. -/
def Double.chars : Double → List Char
  | .nan => ['N', 'a', 'N']
  | .infinite negative => signed negative ['i', 'n', 'f']
  | .finite f => signed f.negative (if f.units = 0 then ['0'] else f.shortest.chars)

/-- A number as text. -/
def render (x : Float) : String := .ofList (Double.ofFloat x).chars

/-! ### Reading -/

/-- The value of a decimal digit. -/
def digitValue (c : Char) : Nat := c.toNat - '0'.toNat

/-- The whole number of a run of decimal digits. -/
def value (digits : List Char) : Nat := digits.foldl (fun n c => 10 * n + digitValue c) 0

/-- The number `digits · 10 ^ exponent`, rounded to double precision. -/
def scaled (digits : List Char) (exponent : Int) : Float :=
  let n := value digits
  if n = 0 ∨ exponent + digits.length < -330 then nearest 0 1
  else if exponent > 310 then nearest (Nat.pow 10 310) 1
  else nearest (n * Nat.pow 10 exponent.toNat) (Nat.pow 10 (-exponent).toNat)

/-- Whether a minus sign comes first, and the text behind a sign. -/
def takeSign : List Char → Bool × List Char
  | '+' :: rest => (false, rest)
  | '-' :: rest => (true, rest)
  | cs => (false, cs)

/-- The whole number that a text of digits with a sign stands for. -/
def readInt? (cs : List Char) : Option Int :=
  let (negative, digits) := takeSign cs
  if digits.isEmpty || !digits.all Char.isDigit then none
  else if negative then some (-(value digits : Int)) else some (value digits : Int)

/-- The exponent that the text behind a numeral stands for. -/
def readExponent? : List Char → Option Int
  | [] => some 0
  | c :: rest => if c = 'e' ∨ c = 'E' then readInt? rest else none

/-- The number that a text without a sign stands for. -/
def readUnsigned? (cs : List Char) : Option Float :=
  let whole := cs.takeWhile Char.isDigit
  let rest := cs.dropWhile Char.isDigit
  let (fraction, rest) := match rest with
    | '.' :: rest => (rest.takeWhile Char.isDigit, rest.dropWhile Char.isDigit)
    | rest => ([], rest)
  if whole.isEmpty && fraction.isEmpty then none
  else (readExponent? rest).map fun exponent =>
    scaled (whole ++ fraction) (exponent - fraction.length)

/-- The number that a word stands for. -/
def readWord? (cs : List Char) : Option Float :=
  let word := String.ofList (cs.map Char.toLower)
  if word = "inf" ∨ word = "infinity" then some (1 / 0)
  else if word = "nan" then some (0 / 0)
  else none

/-- The number that a text stands for. -/
def read? (s : String) : Option Float :=
  let (negative, cs) := takeSign s.toList
  let magnitude? := (readWord? cs).or (readUnsigned? cs)
  if negative then magnitude?.map (-·) else magnitude?

/-- The finite number of a text that holds digits and points alone. -/
def readPlain? (s : String) : Option Float :=
  if s.toList.all fun c => c.isDigit || c == '.' then (read? s).filter Float.isFinite else none

end Mixsheet.Decimal
