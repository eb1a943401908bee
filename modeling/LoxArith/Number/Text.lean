import LoxArith.Number.Shortest

set_option autoImplicit false

/-! # The two texts of a number

`display` is what a program's result is printed as: the shortest digits that read back,
never in exponent form, and no point in an integer. `fixedSix` is what a listing shows:
six places, rounded from the exact value. Both write the sign of zero and no sign for the
value that is not a number.
-/

namespace LoxArith

/-- The decimal digits of a natural number. -/
def digitsOf (n : Nat) : List Char :=
  Nat.toDigits 10 n

/-- A natural number of units of `10 ^ (-places)`, with its point. -/
def withPoint (places n : Nat) : List Char :=
  let digits := (digitsOf n).leftpad (places + 1) '0'
  let whole := digits.length - places
  digits.take whole ++ '.' :: digits.drop whole

/-- A decimal in positional form: zeros up to the point of an integer, and otherwise a
point with at least one digit before it. -/
def Decimal.positional (d : Decimal) : List Char :=
  if finestPlace ≤ d.place then
    digitsOf d.coefficient ++ List.replicate (d.place - finestPlace) '0'
  else withPoint (finestPlace - d.place) d.coefficient

/-- The sign of a negative number. -/
def signChars (x : Float) : List Char :=
  if isNegative x then ['-'] else []

/-- The text a result is printed as. Of two equally near shortest decimals it shows the
larger one. -/
def display (x : Float) : String :=
  match magnitudeOf x with
  | .notANumber => "NaN"
  | .infinite => String.ofList (signChars x ++ ['i', 'n', 'f'])
  | .finite rank =>
    if rank = 0 then String.ofList (signChars x ++ ['0'])
    else String.ofList (signChars x ++ (shortestDecimal .larger rank).positional)

/-- The exact value rounded to six places, halfway cases to the even last place. -/
def fixedSix (x : Float) : String :=
  match magnitudeOf x with
  | .notANumber => "NaN"
  | .infinite => String.ofList (signChars x ++ ['i', 'n', 'f'])
  | .finite rank =>
    let millionths := roundHalfEven (unitsOfRank rank * 10 ^ 6) unitsPerOne
    String.ofList (signChars x ++ withPoint 6 millionths)

end LoxArith
