import Mixsheet.Decimal.Double

/-! # Shortest decimals

The text of a number has the fewest digits that read back to it. The numbers that read back are those
nearer to it than to its neighbours, and those half way if its significand is even. The coarsest
decimal grid with a point among them gives the digits; of two such points the nearer one counts, and of
two as near the larger one. -/

namespace Mixsheet.Decimal

/-- A number `digits · 10 ^ exponent`. -/
structure Scaled where
  digits : Nat
  exponent : Int
  deriving DecidableEq, Repr

namespace Finite

/-! Magnitudes are compared in quarters of the smallest unit, times the power of ten that makes the
points of the grid whole. -/

/-- The grid of the multiples of `10 ^ exponent`: the distance of its points. -/
def step (exponent : Int) : Nat := Nat.pow 10 exponent.toNat * Nat.pow 2 1076

/-- The grid of the multiples of `10 ^ exponent`: what magnitudes are multiplied by. -/
def factor (exponent : Int) : Nat := Nat.pow 10 (-exponent).toNat

/-- The end of the interval of reals that read back to `f` below it, in quarters of a unit. -/
def low (f : Finite) : Nat := 4 * f.units - (if f.isBinade then f.gap else 2 * f.gap)

/-- The end of the interval of reals that read back to `f` above it, in quarters of a unit. -/
def high (f : Finite) : Nat := 4 * f.units + 2 * f.gap

/-- The point `digits · 10 ^ exponent` reads back to `f`. -/
def readsBack (f : Finite) (exponent : Int) (digits : Nat) : Bool :=
  let point := digits * step exponent
  let low := f.low * factor exponent
  let high := f.high * factor exponent
  if f.isEven then low ≤ point && point ≤ high else low < point && point < high

/-- The nearest point of a grid that reads back to `f`, the larger one of two as near. -/
def nearestOn? (f : Finite) (exponent : Int) : Option Scaled :=
  let value := 4 * f.units * factor exponent
  let below := value / step exponent
  let down := f.readsBack exponent below
  let up := f.readsBack exponent (below + 1)
  if down && (!up || 2 * (value % step exponent) < step exponent) then
    some ⟨below, exponent⟩
  else if up then
    some ⟨below + 1, exponent⟩
  else
    none

/-- The exponent of a grid that is coarser than the magnitude of `f`: `f` is below `2 ^ bits`, and a
power of two is below `10 ^ (bits / 3)`, or `10 ^ (bits / 4)` if `bits` is negative, times ten. -/
def coarsest (f : Finite) : Int :=
  let bits : Int := f.units.log2 + 1 - 1074
  max (bits / 3) (bits / 4) + 1

/-- The shortest decimal that reads back to `f`, up to its sign. -/
def shortest (f : Finite) : Scaled :=
  ((List.range 400).findSome? fun (i : Nat) => f.nearestOn? (f.coarsest - (i : Int))).getD ⟨0, 0⟩

end Finite
end Mixsheet.Decimal
