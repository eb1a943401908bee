import LoxArith.Json.Token

set_option autoImplicit false

/-! # Reading JSON

The reader is a machine that takes the tokens one by one. Its frames are the arrays and
objects that are still open, innermost first, each with what it holds so far. A value that
is complete is delivered to the innermost frame; without a frame it is the document. So the
depth of a document costs frames and nothing else.
-/

namespace LoxArith

namespace Json

/-- An open array, or an open object that waits for the value of a name. What they hold is
kept last first. -/
inductive Frame
  | array (items : List Json)
  | object (members : List (Option String × Json)) (name : Option String)

/-- What the machine waits for. -/
inductive Reader
  /-- A value. -/
  | value (frames : List Frame)
  /-- The first item of an array, or its end. -/
  | firstItem (frames : List Frame)
  /-- The first name of an object, or its end. -/
  | firstName (frames : List Frame)
  /-- A name behind a comma. -/
  | name (members : List (Option String × Json)) (frames : List Frame)
  /-- The colon behind a name. -/
  | colon (members : List (Option String × Json)) (name : Option String) (frames : List Frame)
  /-- A comma behind an item, or the end of the array. -/
  | itemEnd (items : List Json) (frames : List Frame)
  /-- A comma behind a member, or the end of the object. -/
  | memberEnd (members : List (Option String × Json)) (frames : List Frame)
  /-- Nothing: the document is complete. -/
  | finished (document : Json)

namespace Reader

/-- Hands a complete value to the innermost frame. -/
def deliver (document : Json) : List Frame → Reader
  | [] => finished document
  | .array items :: frames => itemEnd (document :: items) frames
  | .object members text :: frames => memberEnd ((text, document) :: members) frames

/-- Begins a value. -/
def begin? (frames : List Frame) : Token → Option Reader
  | .openArray => some (firstItem frames)
  | .openObject => some (firstName frames)
  | .scalar document => some (deliver document frames)
  | _ => none

/-- Takes one token. -/
def take? : Reader → Token → Option Reader
  | value frames, token => begin? frames token
  | firstItem frames, .closeArray => some (deliver (.array []) frames)
  | firstItem frames, token => begin? (.array [] :: frames) token
  | firstName frames, .closeObject => some (deliver (.object []) frames)
  | firstName frames, .scalar (.string text) => some (colon [] text frames)
  | name members frames, .scalar (.string text) => some (colon members text frames)
  | colon members text frames, .colon => some (value (.object members text :: frames))
  | itemEnd items frames, .comma => some (value (.array items :: frames))
  | itemEnd items frames, .closeArray => some (deliver (.array items.reverse) frames)
  | memberEnd members frames, .comma => some (name members frames)
  | memberEnd members frames, .closeObject => some (deliver (.object members.reverse) frames)
  | _, _ => none

/-- The document, if it is complete. -/
def document? : Reader → Option Json
  | finished document => some document
  | _ => none

end Reader

/-- The document that some tokens make. -/
def ofTokens? (tokens : List Token) : Option Json := do
  let reader ← tokens.foldlM Reader.take? (.value [])
  reader.document?

/-- The document of a text, if the whole text is one. -/
def ofText? (text : String) : Option Json := do
  ofTokens? (← tokens? text.toList)

/-! ## Looking into a document -/

/-- A truth value. -/
def bool? : Json → Option Bool
  | .bool value => some value
  | _ => none

/-- The text of a string. -/
def text? : Json → Option String
  | .string text => text
  | _ => none

/-- The items of an array. -/
def items? : Json → Option (List Json)
  | .array items => some items
  | _ => none

/-- An integer from zero up to, but not including, `bound`. A sign, a point or an exponent
is refused even where the value is such an integer. -/
def natBelow? (bound : Nat) : Json → Option Nat
  | .number ⟨false, whole, [], none⟩ =>
    let value := Nat.ofDigitChars 10 whole 0
    if value < bound then some value else none
  | _ => none

/-- The value of the only member with this name; an inner `none` if there is no such member,
and an outer one if there are several. -/
def member? (members : List (Option String × Json)) (name : String) : Option (Option Json) :=
  match members.filter (·.1 == some name) with
  | [] => some none
  | [member] => some (some member.2)
  | _ => none

/-- The fields of a record in the order of `names`, each there or missing. A record is an
object, in which other names are of no account, or an array of the fields in their order,
which may end early. -/
def fields? (names : List String) : Json → Option (List (Option Json))
  | .array items =>
    if items.length ≤ names.length then
      some (items.map some ++ List.replicate (names.length - items.length) none)
    else none
  | .object members =>
    if members.any (·.1.isNone) then none else names.mapM (member? members)
  | _ => none

end Json

end LoxArith
