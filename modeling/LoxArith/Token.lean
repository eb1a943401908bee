set_option autoImplicit false

/-! # Tokens

The scanner turns a text into tokens: lexemes, each a stretch of the text with its kind and
place, and faults, which have a line but no stretch to show. The kinds are those of the
whole language. Only few of them occur in arithmetic, but all are scanned, so that a
diagnostic can name what was found.
-/

namespace LoxArith

/-- What a lexeme is. The order of the kinds is the order of their numbers. -/
inductive Kind
  | leftParen
  | rightParen
  | leftBrace
  | rightBrace
  | comma
  | dot
  | minus
  | plus
  | semicolon
  | slash
  | star
  | bang
  | bangEqual
  | equal
  | equalEqual
  | greater
  | greaterEqual
  | less
  | lessEqual
  | identifier
  | string
  | number
  | andWord
  | classWord
  | elseWord
  | falseWord
  | funWord
  | forWord
  | ifWord
  | nilWord
  | orWord
  | printWord
  | returnWord
  | superWord
  | thisWord
  | trueWord
  | varWord
  | whileWord
  | fault
  | endOfText
  deriving DecidableEq, Repr

/-- A stretch of the text. `start` counts bytes from the beginning of the text; `line` is
the line on which the stretch ends. -/
structure Lexeme where
  kind : Kind
  text : String
  start : Nat
  line : Nat
  deriving DecidableEq, Repr

/-- The number of bytes of the stretch. -/
def Lexeme.length (lexeme : Lexeme) : Nat := lexeme.text.utf8ByteSize

/-- Why a stretch of the text is no lexeme. -/
inductive ScanFault
  | unexpectedCharacter
  | unterminatedString
  deriving DecidableEq, Repr

/-- The wording of a scanner fault. -/
def ScanFault.message : ScanFault → String
  | .unexpectedCharacter => "Unexpected character"
  | .unterminatedString => "Unterminated string."

/-- A lexeme, or a fault with the line the scanner had reached. -/
inductive Token
  | lexeme (l : Lexeme)
  | fault (f : ScanFault) (line : Nat)
  deriving DecidableEq, Repr

end LoxArith
