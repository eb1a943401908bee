set_option autoImplicit false

/-! # JSON documents

A document is a tree. Numbers are kept as they are written, because what a number means
depends on the type it is read as. Strings are kept as text, or as `none` where escapes of
surrogates do not pair up to a character: such a string is good JSON but has no text, which
matters only to a reader that looks at it.
-/

namespace LoxArith

/-- A number as written: sign, digits before the point, digits behind it (none if there is
no point), and the sign and digits of the exponent. -/
structure NumberText where
  negative : Bool := false
  whole : List Char
  fraction : List Char := []
  exponent : Option (Bool × List Char) := none
  deriving DecidableEq, Repr

/-- A JSON document. Objects keep their members in order, repeated names included. -/
inductive Json
  | null
  | bool (value : Bool)
  | number (text : NumberText)
  | string (text : Option String)
  | array (items : List Json)
  | object (members : List (Option String × Json))
  deriving Repr

namespace Json

/-- An object with the given names. -/
def record (members : List (String × Json)) : Json :=
  .object (members.map fun member => (some member.1, member.2))

/-- A string with the given text. -/
def text (value : String) : Json := .string (some value)

/-- A number without point and exponent. -/
def nat (n : Nat) : Json := .number { whole := Nat.toDigits 10 n }

end Json

end LoxArith
