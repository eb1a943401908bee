import LoxArith.Json

set_option autoImplicit false

/-! # Writing JSON

A document is written in one of two layouts: compact, without any blank, or with every item
and member on a line of its own, indented by two spaces for each level. The layout is the
level of indentation, or `none` for the compact one.

Strings escape the quote, the backslash and the characters below the space, and nothing
else. A string without text is written as a surrogate that stands alone, which reads back
as such.
-/

namespace LoxArith

/-- The number with its sign, its point if there are places, and its exponent, whose sign is
always written. -/
def NumberText.chars (n : NumberText) : List Char :=
  let sign := if n.negative then ['-'] else []
  let fraction := if n.fraction.isEmpty then [] else '.' :: n.fraction
  let exponent := match n.exponent with
    | none => []
    | some (negative, digits) => 'e' :: (if negative then '-' else '+') :: digits
  sign ++ n.whole ++ fraction ++ exponent

namespace Json

/-- A character inside a string. -/
def escape (c : Char) : List Char :=
  match c with
  | '"' => ['\\', '"']
  | '\\' => ['\\', '\\']
  | '\x08' => ['\\', 'b']
  | '\t' => ['\\', 't']
  | '\n' => ['\\', 'n']
  | '\x0c' => ['\\', 'f']
  | '\r' => ['\\', 'r']
  | c =>
    if c.toNat < 0x20 then
      ['\\', 'u', '0', '0', Nat.digitChar (c.toNat / 16), Nat.digitChar (c.toNat % 16)]
    else [c]

/-- A string with its quotes. -/
def quoted : Option String → List Char
  | some text => '"' :: text.toList.flatMap escape ++ ['"']
  | none => ['"', '\\', 'u', 'd', '8', '0', '0', '"']

/-- The break before an item, a member or a closing bracket. -/
def lineBreak : Option Nat → String
  | none => ""
  | some level => String.ofList ('\n' :: List.replicate (2 * level) ' ')

/-- What stands between the name of a member and its value. -/
def nameEnd : Option Nat → String
  | none => ":"
  | some _ => ": "

mutual

/-- Writes a document behind the given text. -/
def writeAt (level : Option Nat) (text : String) : Json → String
  | .null => text ++ "null"
  | .bool true => text ++ "true"
  | .bool false => text ++ "false"
  | .number n => text ++ String.ofList n.chars
  | .string s => text ++ String.ofList (quoted s)
  | .array [] => text ++ "[]"
  | .array (item :: items) =>
    let inner := level.map (· + 1)
    let text := writeItems inner (writeAt inner (text ++ "[" ++ lineBreak inner) item) items
    text ++ lineBreak level ++ "]"
  | .object [] => text ++ "\x7b\x7d"
  | .object ((name, value) :: members) =>
    let inner := level.map (· + 1)
    let text := text ++ "\x7b" ++ lineBreak inner ++ String.ofList (quoted name) ++ nameEnd level
    let text := writeMembers inner (writeAt inner text value) members
    text ++ lineBreak level ++ "\x7d"

/-- Writes the items behind the first one. -/
def writeItems (level : Option Nat) (text : String) : List Json → String
  | [] => text
  | item :: items =>
    writeItems level (writeAt level (text ++ "," ++ lineBreak level) item) items

/-- Writes the members behind the first one. -/
def writeMembers (level : Option Nat) (text : String) : List (Option String × Json) → String
  | [] => text
  | (name, value) :: members =>
    let text := text ++ "," ++ lineBreak level ++ String.ofList (quoted name) ++ nameEnd level
    writeMembers level (writeAt level text value) members

end

/-- The document without any blank. -/
def compact (document : Json) : String := writeAt none "" document

/-- The document with one item or member on a line. -/
def pretty (document : Json) : String := writeAt (some 0) "" document

end Json

end LoxArith
