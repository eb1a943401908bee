import LoxArith.Json
import LoxArith.Number.Text

set_option autoImplicit false

/-! # Doubles in JSON

A double is written with the shortest digits that read back, of two equally near ones the
even one; from `10 ^ 16` on and below `10 ^ (-5)` in exponent form, and with at least one
digit on both sides of the point otherwise. What is infinite or not a number is written as
null.

Reading is done in doubles and is not always to the nearest: the digits are collected into
an integer of 64 bits, digits that no longer fit are dropped, and the integer is multiplied
or divided by a power of ten. A value beyond the range is refused; one that is too small
gives zero.
-/

namespace LoxArith

/-! ## Writing -/

/-- The written form of a decimal that is not zero. `point` is how many digits stand before
the point of the number, negative if zeros follow the point. -/
def Decimal.numberText (negative : Bool) (d : Decimal) : NumberText :=
  let digits := digitsOf d.coefficient
  let point : Int := digits.length + d.place - finestPlace
  if digits.length ≤ point ∧ point ≤ 16 then
    ⟨negative, digits ++ List.replicate (point.toNat - digits.length) '0', ['0'], none⟩
  else if 0 < point ∧ point ≤ 16 then
    ⟨negative, digits.take point.toNat, digits.drop point.toNat, none⟩
  else if -5 < point ∧ point ≤ 0 then
    ⟨negative, ['0'], List.replicate (-point).toNat '0' ++ digits, none⟩
  else
    let exponent := point - 1
    ⟨negative, digits.take 1, digits.drop 1,
      some (decide (exponent < 0), digitsOf exponent.natAbs)⟩

/-- The document of a double. -/
def Json.double (x : Float) : Json :=
  match magnitudeOf x with
  | .finite rank =>
    if rank = 0 then .number ⟨isNegative x, ['0'], ['0'], none⟩
    else .number ((shortestDecimal .even rank).numberText (isNegative x))
  | _ => .null

/-! ## Reading -/

/-- Appends digits to an integer while it stays below `2 ^ 64`. Returns the integer and the
digits that were left. -/
def absorbDigits (significand : Nat) : List Char → Nat × List Char
  | [] => (significand, [])
  | digit :: rest =>
    let longer := significand * 10 + (digit.toNat - '0'.toNat)
    if longer < 2 ^ 64 then absorbDigits longer rest else (significand, digit :: rest)

/-- The double nearest to a power of ten. -/
def powerOfTen (n : Nat) : Float := nearestDouble (10 ^ n) 1

/-- A double times a power of ten, by one multiplication or division, after divisions by
`10 ^ 308` as long as the exponent is too small for the table. None if the result is
infinite. -/
def scaleByTen? (x : Float) (exponent : Int) : Option Float :=
  if exponent.natAbs ≤ 308 then
    if 0 ≤ exponent then
      let scaled := x * powerOfTen exponent.natAbs
      if scaled.isInf then none else some scaled
    else some (x / powerOfTen exponent.natAbs)
  else if x == 0 then some x
  else if 0 ≤ exponent then none
  else scaleByTen? (x / powerOfTen 308) (exponent + 308)
  termination_by exponent.natAbs

/-- The exponent of a number as written. -/
def NumberText.exponentValue (n : NumberText) : Int :=
  match n.exponent with
  | none => 0
  | some (false, digits) => (Nat.ofDigitChars 10 digits 0 : Int)
  | some (true, digits) => -(Nat.ofDigitChars 10 digits 0 : Int)

/-- The double that a number is read as. -/
def NumberText.double? (n : NumberText) : Option Float := do
  let (whole, dropped) := absorbDigits 0 n.whole
  let (significand, unread) := absorbDigits whole n.fraction
  let places := n.fraction.length - unread.length
  let exponent := n.exponentValue + dropped.length - places
  let magnitude ← scaleByTen? (UInt64.ofNat significand).toFloat exponent
  return if n.negative then -magnitude else magnitude

/-- The double of a document. -/
def Json.double? : Json → Option Float
  | .number n => n.double?
  | _ => none

end LoxArith
