import LoxArith.Proofs.Emission

set_option autoImplicit false

/-! # Where instructions start

The bytes of a chunk do not say by themselves which of them are opcodes. A walk from the
first byte that skips the operand of each instruction finds them (`Chunk.Starts`). If the
bytes are assembled from instructions, the walk finds exactly these instructions
(`Chunk.starts_iff`), each with its opcode and its operand.
-/

namespace LoxArith

namespace Instruction

/-- Instructions of different kinds have different opcodes. -/
theorem opCode_eq_constant {i : Instruction} (h : i.opCode = .constant) :
    ∃ index, i = load index := by
  cases i with
  | load index => exact ⟨index, rfl⟩
  | binary operator => cases operator <;> cases h
  | _ => cases h

theorem opCode_eq_return {i : Instruction} (h : i.opCode = .return) : i = finish := by
  cases i with
  | finish => rfl
  | binary operator => cases operator <;> cases h
  | _ => cases h

theorem length_bytes (i : Instruction) : i.bytes.length = i.opCode.width := by
  cases i with
  | binary operator => cases operator <;> rfl
  | _ => rfl

/-- The opcode comes first. -/
theorem bytes_eq_cons (i : Instruction) : ∃ operands, i.bytes = i.opCode.toByte :: operands := by
  cases i with
  | load index => exact ⟨[index], rfl⟩
  | _ => exact ⟨[], rfl⟩

end Instruction

namespace Chunk

/-- The offsets at which instructions start. -/
inductive Starts (c : Chunk) : Nat → Prop
  | zero : Starts c 0
  | next {offset : Nat} (start : Starts c offset) (hlt : offset < c.size) :
      Starts c (c.nextOffset offset)

section

variable {c : Chunk} {before behind : List Instruction} {i : Instruction}

/-- An instruction stands behind the bytes of those before it. -/
theorem code_opCode (hcode : c.code.toList = assemble (before ++ i :: behind)) :
    c.code[(assemble before).length]? = some i.opCode.toByte := by
  rcases i.bytes_eq_cons with ⟨operands, hbytes⟩
  rw [← Array.getElem?_toList, hcode, assemble_append, assemble_cons, hbytes]
  simp

/-- The operand stands behind the opcode. -/
theorem code_operand {index : UInt8}
    (hcode : c.code.toList = assemble (before ++ .load index :: behind)) :
    c.code[(assemble before).length + 1]? = some index := by
  rw [← Array.getElem?_toList, hcode, assemble_append, assemble_cons, Instruction.bytes]
  simp

theorem size_eq (hcode : c.code.toList = assemble (before ++ behind)) :
    c.size = (assemble before).length + (assemble behind).length := by
  rw [size, ← Array.length_toList, hcode, assemble_append, List.length_append]

/-- The walk goes from one instruction to the next. -/
theorem nextOffset_eq (hcode : c.code.toList = assemble (before ++ i :: behind)) :
    c.nextOffset (assemble before).length = (assemble (before ++ [i])).length := by
  rw [nextOffset, code_opCode hcode]
  simp [i.length_bytes]

end

/-- **The walk finds the instructions that were assembled.** -/
theorem starts_iff {c : Chunk} {is : List Instruction} (hcode : c.code.toList = assemble is)
    (offset : Nat) :
    c.Starts offset ↔
      ∃ before behind, is = before ++ behind ∧ offset = (assemble before).length := by
  constructor
  · intro h
    induction h with
    | zero => exact ⟨[], is, rfl, rfl⟩
    | next _ hlt ih =>
        rcases ih with ⟨before, behind, rfl, rfl⟩
        cases behind with
        | nil =>
            -- the walk does not go on at the end
            rw [size_eq hcode] at hlt
            simp at hlt
        | cons i behind =>
            exact ⟨before ++ [i], behind, by simp, nextOffset_eq hcode⟩
  · rintro ⟨before, behind, rfl, rfl⟩
    induction before using List.reverseRecOn generalizing behind with
    | nil => exact .zero
    | append_singleton before i ih =>
        rw [List.append_assoc, List.singleton_append] at hcode
        rw [← nextOffset_eq hcode]
        refine .next (ih (i :: behind) hcode) ?_
        have hsize := size_eq hcode
        rcases i.bytes_eq_cons with ⟨operands, hbytes⟩
        rw [assemble_cons, hbytes] at hsize
        simp only [List.cons_append, List.length_cons] at hsize
        omega

/-- The instruction that starts at an offset inside the code. -/
theorem Starts.exists_instruction {c : Chunk} {is : List Instruction} {offset : Nat} {op : OpCode}
    (hcode : c.code.toList = assemble is) (hstart : c.Starts offset)
    (hbyte : c.code[offset]? = some op.toByte) :
    ∃ before i behind, is = before ++ i :: behind ∧ offset = (assemble before).length ∧
      i.opCode = op := by
  rcases (starts_iff hcode offset).1 hstart with ⟨before, behind, rfl, rfl⟩
  cases behind with
  | nil =>
      -- there is no byte behind the last instruction
      have hsize : c.code.size = (assemble before).length := size_eq hcode
      rw [Array.getElem?_eq_none (Nat.le_of_eq hsize)] at hbyte
      cases hbyte
  | cons i behind =>
      refine ⟨before, i, behind, rfl, rfl, ?_⟩
      have heq : i.opCode.toByte = op.toByte :=
        Option.some.inj ((code_opCode hcode).symm.trans hbyte)
      -- no two opcodes have the same byte
      have hdecoded := congrArg OpCode.ofByte? heq
      simpa using hdecoded

end Chunk

end LoxArith
