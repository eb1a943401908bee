import LoxArith.Chunk
import LoxArith.Number.Text

set_option autoImplicit false

/-! # Listings

A listing shows a chunk one instruction a line: the offset, the source line, the name of the
instruction, and for a constant its index and value. The source line is given where it
changes; a bar stands where the byte before came from the same line.

Listings are made of any chunk, so an operand may be missing, a constant index may lie
outside the pool, and a byte may be no opcode. Each has its own text.
-/

namespace LoxArith

/-- The digits of a number, moved to the right end of a column. -/
def column (fill : Char) (width n : Nat) : String :=
  String.ofList ((digitsOf n).leftpad width fill)

namespace Chunk

/-- The column of source lines. -/
def lineColumn (chunk : Chunk) (offset : Nat) : String :=
  match chunk.line? offset with
  | none => "   ? "
  | some line =>
    if 0 < offset ∧ chunk.line? (offset - 1) = some line then "   | "
    else column ' ' 4 line ++ " "

/-- What a listing shows of the constant at an index. -/
def constantText (chunk : Chunk) (index : Nat) : String :=
  match chunk.constants[index]? with
  | some value => "'" ++ fixedSix value ++ "'"
  | none => "<missing>"

/-- The instruction that loads a constant, with its operand. -/
def constantInstructionText (chunk : Chunk) (offset : Nat) : String :=
  let name := String.ofList (OpCode.constant.name.toList.rightpad 12 ' ')
  match chunk.code[offset + 1]? with
  | none => name ++ " <truncated>"
  | some index =>
    let value := (chunk.constantText index.toNat).toList.leftpad 8 ' '
    name ++ " (" ++ column '0' 2 index.toNat ++ ") " ++ String.ofList value

/-- The instruction at an offset. -/
def instructionText (chunk : Chunk) (offset : Nat) : String :=
  match chunk.code[offset]? with
  | none => "<end>"
  | some byte =>
    match OpCode.ofByte? byte with
    | none => "Unknown opcode " ++ toString byte.toNat
    | some .constant => chunk.constantInstructionText offset
    | some op => op.name

/-- The line of a listing for the instruction at an offset. -/
def listingLine (chunk : Chunk) (offset : Nat) : String :=
  column '0' 4 offset ++ " " ++ chunk.lineColumn offset ++ chunk.instructionText offset ++ "\n"

/-- The lines of the instructions from an offset on, behind the given text. -/
def listFrom (chunk : Chunk) (offset : Nat) (text : String) : String :=
  if offset < chunk.size then
    chunk.listFrom (chunk.nextOffset offset) (text ++ chunk.listingLine offset)
  else text
  termination_by chunk.size - offset
  decreasing_by
    have := chunk.lt_nextOffset offset
    omega

/-- The listing of the chunk under a name. -/
def listing (chunk : Chunk) (name : String) : String :=
  chunk.listFrom 0 ("== " ++ name ++ " ==\n")

end Chunk

end LoxArith
