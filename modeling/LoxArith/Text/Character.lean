set_option autoImplicit false

/-! # Classes of characters

The classes that the scanners ask about. All of them are ASCII: a digit or a letter beyond
ASCII starts no lexeme.
-/

namespace LoxArith

/-- What separates lexemes beside comments, and the tokens of a document. -/
def isSpace (c : Char) : Bool :=
  c == ' ' || c == '\t' || c == '\r' || c == '\n'

/-- The ten ASCII digits. -/
def isDecimalDigit (c : Char) : Bool :=
  '0' ≤ c && c ≤ '9'

/-- What a word may start with: an ASCII letter or an underscore. -/
def isWordStart (c : Char) : Bool :=
  ('a' ≤ c && c ≤ 'z') || ('A' ≤ c && c ≤ 'Z') || c == '_'

/-- What a word may go on with. -/
def isWordPart (c : Char) : Bool :=
  isWordStart c || isDecimalDigit c

end LoxArith
