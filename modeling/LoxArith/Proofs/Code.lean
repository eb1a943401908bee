import LoxArith.Proofs.Boundaries
import LoxArith.Proofs.Language

set_option autoImplicit false

/-! # The code of a text

The code of a text that compiles is that of its expression, and a return. The pool holds the
distinct doubles of the literals in the order of the text, and each instruction that loads a
double refers to the entry that is identical with it.
-/

namespace LoxArith

/-! ## The instructions of an expression -/

namespace Expr

variable {e : Expr} {index : Float → UInt8}

/-- Each load is that of a double of the expression. -/
theorem exists_of_load_mem {b : UInt8} (h : .load b ∈ e.instructions index) :
    ∃ v ∈ e.constants, b = index v := by
  induction e with
  | number literal =>
      simp only [instructions, List.mem_singleton, Instruction.load.injEq] at h
      exact ⟨literalValue literal.text, by simp [constants, literals], h⟩
  | negate operand ih =>
      simp only [instructions, List.mem_append, List.mem_singleton, reduceCtorEq, or_false] at h
      exact ih h
  | binary left operator right ihleft ihright =>
      simp only [instructions, List.mem_append, List.mem_singleton, reduceCtorEq, or_false] at h
      rw [constants, literals, List.map_append]
      rcases h with h | h
      · obtain ⟨v, hv, hb⟩ := ihleft h
        exact ⟨v, List.mem_append_left _ hv, hb⟩
      · obtain ⟨v, hv, hb⟩ := ihright h
        exact ⟨v, List.mem_append_right _ hv, hb⟩

/-- Each double of the expression is loaded. -/
theorem load_mem {v : Float} (h : v ∈ e.constants) : .load (index v) ∈ e.instructions index := by
  induction e with
  | number literal =>
      have hv : v = literalValue literal.text := by simpa [constants, literals] using h
      simp [instructions, hv]
  | negate operand ih => exact List.mem_append_left _ (ih h)
  | binary left operator right ihleft ihright =>
      rw [constants, literals, List.map_append] at h
      refine List.mem_append_left _ (List.mem_append.2 ?_)
      exact (List.mem_append.1 h).imp ihleft ihright

/-- Nothing returns inside an expression. -/
theorem finish_notMem : .finish ∉ e.instructions index := by
  induction e with
  | number literal => simp [instructions]
  | negate operand ih => simp [instructions, ih]
  | binary left operator right ihleft ihright => simp [instructions, ihleft, ihright]

end Expr

/-! ## The pool -/

/-- The position of a double lies in the pool, and the entry is the double itself. -/
theorem Chunk.Pools.getElem?_bitsIndex {c : Chunk} {xs : List Float} (h : c.Pools xs) {v : Float}
    (hv : v ∈ xs) : bitsIndex xs v < c.constants.size ∧ c.constants[bitsIndex xs v]? = some v := by
  have hlt : bitsIndex xs v < (distinctBits xs).length :=
    List.idxOf_lt_length_iff.2 (mem_distinctBits.2 hv)
  have hsize : bitsIndex xs v < c.constants.size := h.size_constants.symm ▸ hlt
  refine ⟨hsize, ?_⟩
  rw [Array.getElem?_eq_getElem hsize]
  refine congrArg some (toBits_injective ?_)
  have hentry : (c.constants.toList.map Float.toBits)[bitsIndex xs v]? = some v.toBits := by
    rw [h.bits, List.getElem?_eq_getElem hlt]
    exact congrArg some (List.getElem_idxOf hlt)
  rw [List.getElem?_map, Array.getElem?_toList, Array.getElem?_eq_getElem hsize] at hentry
  exact Option.some.inj hentry

/-- Each entry is at the position of its double. -/
theorem Chunk.Pools.exists_bitsIndex {c : Chunk} {xs : List Float} (h : c.Pools xs) {i : Nat}
    (hi : i < c.constants.size) : ∃ v ∈ xs, bitsIndex xs v = i := by
  refine ⟨c.constants[i], h.mem.1 (Array.getElem_mem hi), ?_⟩
  have hlt : i < (distinctBits xs).length := h.size_constants ▸ hi
  have hentry : (distinctBits xs)[i] = c.constants[i].toBits := by
    have hbits := List.getElem_of_eq h.bits.symm hlt
    simpa using hbits
  rw [bitsIndex, ← hentry]
  exact List.Nodup.idxOf_getElem (nodup_distinctBits xs) i hlt

/-! ## The code of an expression -/

/-- The chunk is the code of the expression and a return, with the doubles of the expression
in a pool that one-byte indices can reach. -/
structure Chunk.CodeOf (c : Chunk) (e : Expr) : Prop where
  code : c.code.toList = assemble (e.instructions (poolByte e.constants) ++ [.finish])
  pools : c.Pools e.constants
  small : c.constants.size ≤ 256

theorem Phrase.codeOf_program {s : Phrase} (hsmall : (distinctBits s.expr.constants).length ≤ 256)
    (line : Nat) : (s.program line).CodeOf s.expr := by
  refine ⟨?_, s.program_pools line, ?_⟩
  · have hcode := s.emit_code Chunk.pools_nil []
    rw [List.append_nil, List.nil_append] at hcode
    rw [program, Chunk.writeOp_code, hcode, assemble_append]
    rfl
  · rw [(s.program_pools line).size_constants]
    exact hsmall

namespace Chunk.CodeOf

variable {c : Chunk} {e : Expr}

/-- The position of a double fits into a byte, and the entry there is the double itself. -/
theorem entry (h : c.CodeOf e) {v : Float} (hv : v ∈ e.constants) :
    bitsIndex e.constants v < 256 ∧ (poolByte e.constants v).toNat = bitsIndex e.constants v ∧
      c.constants[bitsIndex e.constants v]? = some v := by
  rcases h.pools.getElem?_bitsIndex hv with ⟨hlt, hentry⟩
  have hbyte : bitsIndex e.constants v < 256 := Nat.lt_of_lt_of_le hlt h.small
  refine ⟨hbyte, ?_, hentry⟩
  rw [poolByte, UInt8.toNat_ofNat']
  exact Nat.mod_eq_of_lt hbyte

/-- The operand of each load is in range. -/
theorem exists_operand (h : c.CodeOf e) {offset : Nat} (hstart : c.Starts offset)
    (hload : c.code[offset]? = some OpCode.constant.toByte) :
    ∃ index, c.code[offset + 1]? = some index ∧ index.toNat < c.constants.size := by
  rcases hstart.exists_instruction h.code hload with ⟨before, i, behind, his, rfl, hop⟩
  obtain ⟨index, rfl⟩ := Instruction.opCode_eq_constant hop
  have hmem : .load index ∈ e.instructions (poolByte e.constants) := by
    have hin : Instruction.load index ∈ before ++ .load index :: behind := by simp
    simpa [← his] using hin
  obtain ⟨v, hv, rfl⟩ := Expr.exists_of_load_mem hmem
  refine ⟨_, code_operand (his ▸ h.code), ?_⟩
  rw [(h.entry hv).2.1]
  exact (h.pools.getElem?_bitsIndex hv).1

/-- Each entry of the pool is loaded. -/
theorem exists_load (h : c.CodeOf e) {i : Nat} (hi : i < c.constants.size) :
    ∃ offset index, c.Starts offset ∧ c.code[offset]? = some OpCode.constant.toByte ∧
      c.code[offset + 1]? = some index ∧ index.toNat = i := by
  rcases h.pools.exists_bitsIndex hi with ⟨v, hv, rfl⟩
  have hmem : .load (poolByte e.constants v)
      ∈ e.instructions (poolByte e.constants) ++ [.finish] :=
    List.mem_append_left _ (Expr.load_mem hv)
  -- the load stands somewhere in the code, and the walk finds it there
  rcases List.append_of_mem hmem with ⟨before, behind, his⟩
  have hcode := h.code
  rw [his] at hcode
  exact ⟨_, _, (starts_iff hcode _).2 ⟨before, _, rfl, rfl⟩, code_opCode hcode,
    code_operand hcode, (h.entry hv).2.1⟩

/-- Only the last instruction returns. -/
theorem return_last (h : c.CodeOf e) {offset : Nat} (hstart : c.Starts offset)
    (hreturn : c.code[offset]? = some OpCode.return.toByte) : offset + 1 = c.size := by
  rcases hstart.exists_instruction h.code hreturn with ⟨before, i, behind, his, rfl, hop⟩
  obtain rfl := Instruction.opCode_eq_return hop
  -- an earlier return would stand inside the expression
  have hlast : behind = [] := by
    rcases List.eq_nil_or_concat behind with rfl | ⟨front, j, rfl⟩
    · rfl
    · have hcat : e.instructions (poolByte e.constants) ++ [.finish]
          = (before ++ .finish :: front) ++ [j] := by simpa using his
      rcases List.append_inj' hcat rfl with ⟨hinside, -⟩
      have hmem : .finish ∈ before ++ .finish :: front := by simp
      exact absurd (hinside ▸ hmem) Expr.finish_notMem
  subst hlast
  have hcode := h.code
  rw [his] at hcode
  rw [size_eq hcode]
  rfl

end Chunk.CodeOf

/-- **The code of a text that compiles.** The text is a sentence of one phrase. Its code is
that of the expression, with the positions of the doubles in the pool, and a return. The pool
holds the distinct doubles of the literals in the order of the text; positions fit into a
byte, and the entries are the doubles themselves. Therefore each load refers into the pool,
each entry of the pool is loaded, and only the last instruction returns. -/
theorem compiled_code {source : String} {chunk : Chunk} (h : compile source = .ok chunk) :
    ∃ s, (∀ other, IsSentence source other ↔ other = s) ∧
      s.expr.literals = (tokensOf source).items.filterMap Token.number? ∧
      chunk.constants.toList.map Float.toBits = distinctBits s.expr.constants ∧
      chunk.code.toList
        = assemble (s.expr.instructions fun v => UInt8.ofNat (bitsIndex s.expr.constants v))
          ++ [OpCode.return.toByte] ∧
      (∀ v ∈ s.expr.constants, bitsIndex s.expr.constants v < 256 ∧
        chunk.constants[bitsIndex s.expr.constants v]? = some v) ∧
      (∀ offset, chunk.Starts offset → chunk.code[offset]? = some OpCode.constant.toByte →
        ∃ index, chunk.code[offset + 1]? = some index ∧ index.toNat < chunk.constants.size) ∧
      (∀ i < chunk.constants.size, ∃ offset index, chunk.Starts offset ∧
        chunk.code[offset]? = some OpCode.constant.toByte ∧
        chunk.code[offset + 1]? = some index ∧ index.toNat = i) ∧
      ∀ offset, chunk.Starts offset → chunk.code[offset]? = some OpCode.return.toByte →
        offset + 1 = chunk.size := by
  obtain ⟨s, hs, -, hsmall, rfl⟩ := compile_eq_ok_iff.1 h
  have hcode := s.codeOf_program hsmall (tokensOf source).last.line
  refine ⟨s, hs.iff_eq, hs.literals, hcode.pools.bits, ?_, ?_, ?_, ?_, ?_⟩
  · rw [hcode.code, assemble_append]
    rfl
  · intro v hv
    rcases hcode.entry hv with ⟨hbyte, -, hentry⟩
    exact ⟨hbyte, hentry⟩
  · intro offset hstart hload
    exact hcode.exists_operand hstart hload
  · intro i hi
    exact hcode.exists_load hi
  · intro offset hstart hreturn
    exact hcode.return_last hstart hreturn

theorem compiled_code_difference :
    compile "8-2" = .ok (Phrase.difference.program 1) ∧
      (Phrase.difference.program 1).code.toList = [0, 0, 0, 1, 4, 1] ∧
      (Phrase.difference.program 1).constants.toList.map Float.toBits
        = [0x4020000000000000, 0x4000000000000000] := by
  obtain ⟨s, hs, -, hpool, hcode, -⟩ := compiled_code compile_difference
  obtain rfl : Phrase.difference = s := (hs _).1 isSentence_difference
  exact ⟨compile_difference, hcode.trans (by decide +kernel), hpool.trans (by decide +kernel)⟩

end LoxArith
