import LoxArith.Number.Double
import LoxArith.Text.Character

set_option autoImplicit false

/-! # Number literals

A literal is digits with an optional fraction. It denotes the double nearest to its exact
value, however many digits it has.
-/

namespace LoxArith

/-- The double nearest to digits before and after a point. -/
def doubleOfDigits (whole fraction : List Char) : Float :=
  nearestDouble (Nat.ofDigitChars 10 (whole ++ fraction) 0) (10 ^ fraction.length)

/-- The value of a number literal. -/
def literalValue (text : String) : Float :=
  let chars := text.toList
  doubleOfDigits (chars.takeWhile isDecimalDigit) ((chars.dropWhile isDecimalDigit).drop 1)

end LoxArith
