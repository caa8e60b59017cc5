/-! # Double-precision numbers

A finite number of double precision is a whole number of units of 2^-1074, the smallest one. Its sign,
its exponent field and its fraction field give that number of units and the distance to the next one. -/

namespace Mixsheet.Decimal

/-- A finite number: its sign, its exponent field and its fraction field. -/
structure Finite where
  negative : Bool
  exponent : Nat
  fraction : Nat
  deriving DecidableEq, Repr

/-- A number of double precision. -/
inductive Double where
  | nan
  | infinite (negative : Bool)
  | finite (value : Finite)
  deriving DecidableEq, Repr

namespace Finite

/-- The distance to the next larger magnitude, in units. -/
def gap (f : Finite) : Nat := Nat.pow 2 (f.exponent - 1)

/-- The magnitude, in units. -/
def units (f : Finite) : Nat :=
  if f.exponent = 0 then f.fraction else (Nat.pow 2 52 + f.fraction) * f.gap

/-- The next smaller magnitude is at half the distance of the next larger one. -/
def isBinade (f : Finite) : Bool := f.fraction = 0 && 1 < f.exponent

/-- The significand is even. -/
def isEven (f : Finite) : Bool := f.fraction % 2 = 0

end Finite

namespace Double

/-- The number that 64 bits stand for: the sign, eleven bits of exponent and 52 of fraction. -/
def ofBits (bits : Nat) : Double :=
  let negative := bits / Nat.pow 2 63 % 2 == 1
  let exponent := bits / Nat.pow 2 52 % Nat.pow 2 11
  let fraction := bits % Nat.pow 2 52
  if exponent = 2047 then
    if fraction = 0 then .infinite negative else .nan
  else
    .finite ⟨negative, exponent, fraction⟩

/-- What the bits of a number stand for. -/
def ofFloat (x : Float) : Double := ofBits x.toBits.toNat

end Double

/-! ### Rounding -/

/-- The whole number nearest to `num / den`, the even one if two are. -/
def roundHalfEven (num den : Nat) : Nat :=
  let q := num / den
  let twice := 2 * (num % den)
  if twice < den ∨ (twice = den ∧ q % 2 = 0) then q else q + 1

/-- The bits of positive infinity. -/
def infinityBits : Nat := 2047 * Nat.pow 2 52

/-- The bits of the number nearest to `num / den`; beyond the largest finite one it is infinite. A
significand that rounds up to the next power of two carries into the exponent field. -/
def nearestBits (num den : Nat) : Nat :=
  let num := num * Nat.pow 2 1074
  let shift := (num / den).log2 - 52
  min infinityBits (shift * Nat.pow 2 52 + roundHalfEven num (den * Nat.pow 2 shift))

/-- The number nearest to `num / den`. -/
def nearest (num den : Nat) : Float := Float.ofBits (nearestBits num den).toUInt64

end Mixsheet.Decimal
