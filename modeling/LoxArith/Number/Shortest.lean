import LoxArith.Number.Double

set_option autoImplicit false

/-! # The shortest decimal that reads back

A finite double is a whole number of units of `10 ^ (-1074)` as well, because
`2 ^ (-1074) = 5 ^ 1074 * 10 ^ (-1074)`. Its exact decimal expansion is therefore one
natural number, and a coarser decimal grid is given by a power of ten that divides it out.

`shortestDecimal` walks the grids from the coarsest one on which the value has a digit to
the finest. On each it looks at the two neighbours of the value and asks the reader,
`rankOfRatio`, whether they read back as the same double. The first grid with a hit has
the fewest digits. On the finest grid the value itself is a grid point, so the walk always
ends with a decimal that reads back.
-/

namespace LoxArith

/-- How many digits behind the point the finest grid has. -/
def finestPlace : Nat := 1074

/-- The decimal number `coefficient * 10 ^ place` in units of `10 ^ (-1074)`. -/
structure Decimal where
  coefficient : Nat
  place : Nat
  deriving DecidableEq, Repr

/-- The exact value of the finite double of this rank, in units of `10 ^ (-1074)`. -/
def exactDecimal (rank : Nat) : Nat :=
  unitsOfRank rank * 5 ^ finestPlace

/-- Which of two equally near neighbours is taken. -/
inductive HalfwayRule
  /-- The one of larger magnitude. -/
  | larger
  /-- The one whose last digit is even. -/
  | even
  deriving DecidableEq, Repr

/-- The choice between `below` and `below + 1` when the value lies halfway. -/
def HalfwayRule.choose (rule : HalfwayRule) (below : Nat) : Nat :=
  match rule with
  | .larger => below + 1
  | .even => if below % 2 = 0 then below else below + 1

namespace Decimal

/-- The digits of the decimal without its point, as a number. -/
def numerator (d : Decimal) : Nat := d.coefficient * 10 ^ (d.place - finestPlace)

/-- What the point divides by: ten for each digit behind it. -/
def denominator (d : Decimal) : Nat := 10 ^ (finestPlace - d.place)

/-- Whether the decimal is read as the double of this rank. -/
def readsAs (d : Decimal) (rank : Nat) : Bool :=
  rankOfRatio d.numerator d.denominator == rank

/-- The neighbour of the value on the grid of step `10 ^ place` that reads back; of two,
the nearer one. A grid on which the value has no digit offers none. `exact` is the exact
value of the double. -/
def neighbour? (rule : HalfwayRule) (rank exact place : Nat) : Option Decimal :=
  let step := 10 ^ place
  let below := exact / step
  if below = 0 then none
  else
    match readsAs ⟨below, place⟩ rank, readsAs ⟨below + 1, place⟩ rank with
    | false, false => none
    | true, false => some ⟨below, place⟩
    | false, true => some ⟨below + 1, place⟩
    | true, true =>
      let rest := exact - below * step
      if 2 * rest < step then some ⟨below, place⟩
      else if step < 2 * rest then some ⟨below + 1, place⟩
      else some ⟨rule.choose below, place⟩

/-- The first hit on the grids from `10 ^ place` down; the finest grid holds the value. -/
def searchFrom (rule : HalfwayRule) (rank exact : Nat) : Nat → Decimal
  | 0 => ⟨exact, 0⟩
  | place + 1 =>
    (neighbour? rule rank exact (place + 1)).getD (searchFrom rule rank exact place)

/-- A grid on which the value has at most one digit. The logarithm is taken from the binary
one, with `0.30103` for the logarithm of two. -/
def coarsestPlace (exact : Nat) : Nat :=
  exact.log2 * 30103 / 100000 + 1

/-- The same number without zeros at the end of the coefficient. -/
def withoutTrailingZeros (d : Decimal) : Decimal :=
  if d.coefficient = 0 then d
  else if d.coefficient % 10 = 0 then withoutTrailingZeros ⟨d.coefficient / 10, d.place + 1⟩
  else d
  termination_by d.coefficient
  decreasing_by omega

end Decimal

/-- The decimal with the fewest digits that reads back as the double of this rank, and of
those the nearest to it. -/
def shortestDecimal (rule : HalfwayRule) (rank : Nat) : Decimal :=
  let exact := exactDecimal rank
  (Decimal.searchFrom rule rank exact (Decimal.coarsestPlace exact)).withoutTrailingZeros

end LoxArith
