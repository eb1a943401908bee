import LoxArith.Proofs.Grammar
import LoxArith.Proofs.Pool

set_option autoImplicit false

/-! # The code of a phrase

`Expr.instructions` is the code of an expression, given the index of each double in the pool;
`assemble` turns instructions into bytes. The parser writes this code without having the
expression: `Phrase.emit` is what it does to the chunk while it reads a phrase, and asks for
the indices while the pool still grows.

The two agree (`Phrase.emit_code`), with the indices of the pool at the end, since an index
that was given out stays the same. The lines of the bytes are `Phrase.lines`.
-/

namespace LoxArith

/-! ## Instructions -/

/-- An instruction with its operand. -/
inductive Instruction
  | load (index : UInt8)
  | negate
  | binary (operator : Operator)
  | finish
  deriving DecidableEq, Repr

namespace Instruction

/-- The opcode of an instruction. -/
def opCode : Instruction → OpCode
  | load _ => .constant
  | negate => .negate
  | binary operator => operator.opCode
  | finish => .return

/-- The bytes of an instruction. -/
def bytes : Instruction → List UInt8
  | load index => [OpCode.constant.toByte, index]
  | negate => [OpCode.negate.toByte]
  | binary operator => [operator.opCode.toByte]
  | finish => [OpCode.return.toByte]

end Instruction

/-- The bytes of instructions in a row. -/
def assemble (instructions : List Instruction) : List UInt8 :=
  instructions.flatMap Instruction.bytes

@[simp] theorem assemble_nil : assemble [] = [] := rfl

theorem assemble_cons (i : Instruction) (is : List Instruction) :
    assemble (i :: is) = i.bytes ++ assemble is := by
  simp [assemble, List.flatMap_cons]

@[simp] theorem assemble_append (is js : List Instruction) :
    assemble (is ++ js) = assemble is ++ assemble js := by
  simp [assemble]

@[simp] theorem assemble_singleton (i : Instruction) : assemble [i] = i.bytes := by
  simp [assemble]

/-- The code of an expression: operands first, the left one before the right one. `index`
gives the place of a double in the pool. -/
def Expr.instructions (index : Float → UInt8) : Expr → List Instruction
  | number literal => [.load (index (literalValue literal.text))]
  | negate operand => operand.instructions index ++ [.negate]
  | binary left operator right =>
    left.instructions index ++ right.instructions index ++ [.binary operator]

/-! ## Writing the code of a phrase -/

/-- Writes the instruction that loads a double. -/
def Chunk.load (c : Chunk) (value : Float) (line : Nat) : Chunk :=
  ((c.addConstant value).2.writeOp .constant line).write
    (UInt8.ofNat (c.addConstant value).1) line

/-- The byte that stands for a double in code with the pool of `xs`. -/
def poolByte (xs : List Float) (v : Float) : UInt8 := UInt8.ofNat (bitsIndex xs v)

theorem Chunk.load_code (c : Chunk) (value : Float) (line : Nat) :
    (c.load value line).code.toList
      = c.code.toList ++ [OpCode.constant.toByte, UInt8.ofNat (c.addConstant value).1] := by
  simp [load, writeOp, write, addConstant_code]

theorem Chunk.load_lines (c : Chunk) (value : Float) (line : Nat) :
    (c.load value line).lines.decoded = c.lines.decoded ++ [line, line] := by
  simp [load, writeOp, write, LineTable.decoded_append, addConstant_lines]

theorem Chunk.writeOp_code (c : Chunk) (op : OpCode) (line : Nat) :
    (c.writeOp op line).code.toList = c.code.toList ++ [op.toByte] := by
  simp [writeOp, write]

theorem Chunk.writeOp_lines (c : Chunk) (op : OpCode) (line : Nat) :
    (c.writeOp op line).lines.decoded = c.lines.decoded ++ [line] := by
  simp [writeOp, write, LineTable.decoded_append]

namespace Phrase

/-- What reading a phrase does to the chunk. An instruction has the line of the lexeme that
was passed last when it is written. -/
def emit : Phrase → Chunk → Chunk
  | number literal, c => c.load (literalValue literal.text) literal.line
  | group inner _, c => inner.emit c
  | negate operand, c => (operand.emit c).writeOp .negate operand.last.line
  | binary left operator right, c =>
    (right.emit (left.emit c)).writeOp operator.opCode right.last.line

/-- The lines of the bytes that are written. -/
def lines : Phrase → List Nat
  | number literal => [literal.line, literal.line]
  | group inner _ => inner.lines
  | negate operand => operand.lines ++ [operand.last.line]
  | binary left _ right => left.lines ++ right.lines ++ [right.last.line]

theorem constants_binary (left right : Phrase) (operator : Operator) :
    (binary left operator right).expr.constants
      = left.expr.constants ++ right.expr.constants :=
  List.map_append

theorem emit_pools (s : Phrase) {c : Chunk} {xs : List Float} (h : c.Pools xs) :
    (s.emit c).Pools (xs ++ s.expr.constants) := by
  induction s generalizing c xs with
  | number literal =>
      have hpools := (h.addConstant (isMagnitude_literalValue literal.text)).1
      exact ⟨hpools.bits, hpools.magnitudes⟩
  | group inner close ih => exact ih h
  | negate operand ih => exact ⟨(ih h).bits, (ih h).magnitudes⟩
  | binary left operator right ihleft ihright =>
      have hpools := ihright (ihleft h)
      rw [constants_binary, ← List.append_assoc]
      exact ⟨hpools.bits, hpools.magnitudes⟩

/-- **Reading a phrase writes the code of its expression.** The indices are those of the
pool at any later time, here after `ys` have been asked for as well. -/
theorem emit_code (s : Phrase) {c : Chunk} {xs : List Float} (h : c.Pools xs)
    (ys : List Float) :
    (s.emit c).code.toList = c.code.toList
      ++ assemble (s.expr.instructions (poolByte (xs ++ s.expr.constants ++ ys))) := by
  induction s generalizing c xs ys with
  | number literal =>
      -- the index given out now is the one in the pool at the end
      have hindex := (h.addConstant (isMagnitude_literalValue literal.text)).2
      have hstays : bitsIndex (xs ++ [literalValue literal.text] ++ ys) (literalValue literal.text)
          = bitsIndex (xs ++ [literalValue literal.text]) (literalValue literal.text) :=
        bitsIndex_append (by simp) ys
      rw [emit, Chunk.load_code, hindex, ← hstays]
      simp [expr, Expr.instructions, Instruction.bytes, poolByte, Expr.constants, Expr.literals]
  | group inner close ih => exact ih h ys
  | negate operand ih =>
      rw [emit, Chunk.writeOp_code, ih h ys]
      simp [expr, Expr.instructions, Instruction.bytes, Expr.constants, Expr.literals]
  | binary left operator right ihleft ihright =>
      -- for the left operand, the doubles of the right one come later as well
      have hleft := ihleft h (right.expr.constants ++ ys)
      have hright := ihright (left.emit_pools h) ys
      rw [emit, Chunk.writeOp_code, hright, hleft, constants_binary]
      simp [expr, Expr.instructions, Instruction.bytes]

theorem emit_lines (s : Phrase) (c : Chunk) :
    (s.emit c).lines.decoded = c.lines.decoded ++ s.lines := by
  induction s generalizing c with
  | number literal => exact c.load_lines _ _
  | group inner close ih => exact ih c
  | negate operand ih => rw [emit, Chunk.writeOp_lines, ih, lines, List.append_assoc]
  | binary left operator right ihleft ihright =>
      rw [emit, Chunk.writeOp_lines, ihright, ihleft, lines]
      simp only [List.append_assoc]

/-- The pool does not shrink. -/
theorem size_le_emit (s : Phrase) (c : Chunk) :
    c.constants.size ≤ (s.emit c).constants.size := by
  induction s generalizing c with
  | number literal => exact c.size_le_addConstant _
  | group inner close ih => exact ih c
  | negate operand ih => exact ih c
  | binary left operator right ihleft ihright =>
      exact Nat.le_trans (ihleft c) (ihright (left.emit c))

/-- Each byte has a line. -/
theorem length_lines (s : Phrase) (index : Float → UInt8) :
    s.lines.length = (assemble (s.expr.instructions index)).length := by
  induction s with
  | number literal => rfl
  | group inner close ih => exact ih
  | negate operand ih => simp [lines, expr, Expr.instructions, Instruction.bytes, ih]
  | binary left operator right ihleft ihright =>
      simp [lines, expr, Expr.instructions, Instruction.bytes, ihleft, ihright]

end Phrase

end LoxArith
