import LoxArith.Chunk
import LoxArith.Json.Double
import LoxArith.Json.Read
import LoxArith.Json.Write

set_option autoImplicit false

/-! # Chunks as JSON documents

The document of a chunk has its bytes, its constants and its lines, the lines as runs. A
chunk that is read need not make sense: the lines may cover more or less than the code, and
the bytes may be anything.
-/

namespace LoxArith

/-- The bound of lines and counts. -/
def wordBound : Nat := 2 ^ 64

/-- The document of a constant. -/
def constantJson (x : Float) : Json := .record [("Number", .double x)]

/-- The constant of a document: an object with one member. -/
def constantOfJson? : Json → Option Float
  | .object [(some "Number", value)] => value.double?
  | _ => none

/-- A byte. -/
def byteOfJson? (document : Json) : Option UInt8 :=
  (document.natBelow? 256).map UInt8.ofNat

namespace LineRun

/-- The document of a run. -/
def toJson (run : LineRun) : Json :=
  .record [("line", .nat run.line), ("count", .nat run.count)]

/-- The run of a document. -/
def ofJson? (document : Json) : Option LineRun := do
  match ← document.fields? ["line", "count"] with
  | [some line, some count] => return ⟨← line.natBelow? wordBound, ← count.natBelow? wordBound⟩
  | _ => none

end LineRun

namespace LineTable

/-- The document of a line table. -/
def toJson (table : LineTable) : Json :=
  .record [("runs", .array (table.runs.toList.map LineRun.toJson))]

/-- The line table of a document. -/
def ofJson? (document : Json) : Option LineTable := do
  match ← document.fields? ["runs"] with
  | [some runs] => return ⟨(← (← runs.items?).mapM LineRun.ofJson?).toArray⟩
  | _ => none

end LineTable

namespace Chunk

/-- The document of a chunk. -/
def toJson (chunk : Chunk) : Json :=
  .record [("code", .array (chunk.code.toList.map fun byte => .nat byte.toNat)),
    ("constants", .array (chunk.constants.toList.map constantJson)),
    ("lines", chunk.lines.toJson)]

/-- The chunk of a document. -/
def ofJson? (document : Json) : Option Chunk := do
  match ← document.fields? ["code", "constants", "lines"] with
  | [some code, some constants, some lines] =>
    let code ← (← code.items?).mapM byteOfJson?
    let constants ← (← constants.items?).mapM constantOfJson?
    return ⟨code.toArray, constants.toArray, ← LineTable.ofJson? lines⟩
  | _ => none

end Chunk

end LoxArith
