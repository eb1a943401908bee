import LoxArith.LineTable
import LoxArith.OpCode

set_option autoImplicit false

/-! # Chunks

A chunk is compiled code: its bytes, the pool of constants that the code refers to by
index, and the line each byte came from. Chunks are built by writing bytes at the end and
by asking for the index of a constant.

The pool keeps one entry for equal numbers. Equality is that of doubles, so the two zeros
share an entry, and what is not a number never finds one.
-/

namespace LoxArith

/-- Code with its constants and lines. Two chunks are equal if their constants are equal as
numbers. -/
structure Chunk where
  code : Array UInt8 := #[]
  constants : Array Float := #[]
  lines : LineTable := {}
  deriving BEq

namespace Chunk

/-- Writes one byte that arose on `line`. -/
def write (chunk : Chunk) (byte : UInt8) (line : Nat) : Chunk :=
  { chunk with code := chunk.code.push byte, lines := chunk.lines.append line }

/-- Writes the byte of an instruction. -/
def writeOp (chunk : Chunk) (op : OpCode) (line : Nat) : Chunk :=
  chunk.write op.toByte line

/-- The index of a number in the pool, which it joins if no equal number is there. -/
def addConstant (chunk : Chunk) (value : Float) : Nat × Chunk :=
  match chunk.constants.findIdx? (· == value) with
  | some index => (index, chunk)
  | none => (chunk.constants.size, { chunk with constants := chunk.constants.push value })

/-- The line of the byte at an offset. -/
def line? (chunk : Chunk) (offset : Nat) : Option Nat :=
  chunk.lines.line? offset

/-- The number of bytes of code. -/
def size (chunk : Chunk) : Nat := chunk.code.size

/-- Where the instruction after the one at `offset` starts. Bytes that are no opcode count
as instructions of one byte. -/
def nextOffset (chunk : Chunk) (offset : Nat) : Nat :=
  match chunk.code[offset]?.bind OpCode.ofByte? with
  | some op => offset + op.width
  | none => offset + 1

theorem lt_nextOffset (chunk : Chunk) (offset : Nat) : offset < chunk.nextOffset offset := by
  unfold nextOffset
  split
  · rename_i op _
    cases op <;> simp [OpCode.width]
  · omega

end Chunk

end LoxArith
