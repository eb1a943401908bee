set_option autoImplicit false

/-! # Instructions

An instruction is one byte, its opcode; only `constant` is followed by a second byte, the
index of a constant in the pool. Seven of the 256 bytes are opcodes.
-/

namespace LoxArith

/-- The instructions. The order of the constructors is the order of their bytes. -/
inductive OpCode
  | constant
  | return
  | negate
  | add
  | subtract
  | multiply
  | divide
  deriving DecidableEq, Repr

namespace OpCode

/-- The byte that stands for the instruction. -/
def toByte : OpCode → UInt8
  | constant => 0
  | .return => 1
  | negate => 2
  | add => 3
  | subtract => 4
  | multiply => 5
  | divide => 6

/-- The instruction a byte stands for. -/
def ofByte? : UInt8 → Option OpCode
  | 0 => some constant
  | 1 => some .return
  | 2 => some negate
  | 3 => some add
  | 4 => some subtract
  | 5 => some multiply
  | 6 => some divide
  | _ => none

/-- The name in a listing. -/
def name : OpCode → String
  | constant => "OP_CONSTANT"
  | .return => "OP_RETURN"
  | negate => "OP_NEGATE"
  | add => "OP_ADD"
  | subtract => "OP_SUBTRACT"
  | multiply => "OP_MULTIPLY"
  | divide => "OP_DIVIDE"

/-- The number of bytes the instruction takes. -/
def width : OpCode → Nat
  | constant => 2
  | _ => 1

@[simp] theorem ofByte?_toByte (op : OpCode) : ofByte? op.toByte = some op := by
  cases op <;> rfl

end OpCode

end LoxArith
