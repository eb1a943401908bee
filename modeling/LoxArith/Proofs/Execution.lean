import LoxArith.Machine
import LoxArith.Proofs.Code

set_option autoImplicit false

/-! # Running the code of a phrase

The code of a phrase, wherever it stands in a chunk (`Chunk.Embeds`), leaves the stack below
as it is and puts the value of the expression on top (`Chunk.Embeds.run`), if there is room
for the values that are live meanwhile. If there is not, the run stops at the first literal
that finds the stack full (`Chunk.Embeds.run_overflow`).

Both are inductions on the phrase. The second one uses the first: an operand before the one
that does not fit has been computed.
-/

namespace LoxArith

/-! ## Values on the stack -/

namespace Stack

theorem exists_push? {stack : Stack} (value : Float) (h : stack.height < stackCapacity) :
    ∃ after, stack.push? value = some after ∧ after.live = stack.live ++ [value] := by
  cases hpush : stack.push? value with
  | none =>
      have hfull := (stack.push?_eq_none_iff value).1 hpush
      omega
  | some after => exact ⟨after, rfl, live_push? hpush⟩

theorem exists_pop? {stack : Stack} {values : List Float} {value : Float}
    (h : stack.live = values ++ [value]) :
    ∃ after, stack.pop? = some (value, after) ∧ after.live = values := by
  cases hpop : stack.pop? with
  | none =>
      have hempty := stack.pop?_eq_none_iff.1 hpop
      simp [hempty] at h
  | some popped =>
      rcases popped with ⟨top, after⟩
      have hlive : after.live ++ [top] = values ++ [value] := (live_pop? hpop).symm.trans h
      rcases List.append_inj' hlive rfl with ⟨hafter, htop⟩
      obtain rfl := (List.cons.inj htop).1
      exact ⟨after, rfl, hafter⟩

theorem height_eq {stack : Stack} {values : List Float} (h : stack.live = values) :
    stack.height = values.length := h ▸ stack.length_live.symm

end Stack

/-! ## The first push that does not fit -/

namespace Expr

/-- The literals in the order in which they are pushed, each with the number of values that
are live after its push, if `live` are live before the first one. -/
def pushes (live : Nat) : Expr → List (Lexeme × Nat)
  | number literal => [(literal, live + 1)]
  | negate operand => operand.pushes live
  | binary left _ right => left.pushes live ++ right.pushes (live + 1)

/-- The first literal whose push would exceed the capacity of the stack. -/
def firstOver (live : Nat) (e : Expr) : Option Lexeme :=
  ((e.pushes live).find? fun push => push.2 = stackCapacity + 1).map Prod.fst

/-- The order of the pushes is that of the text. -/
theorem pushes_map_fst (live : Nat) (e : Expr) : (e.pushes live).map Prod.fst = e.literals := by
  induction e generalizing live with
  | number literal => rfl
  | negate operand ih => exact ih live
  | binary left operator right ihleft ihright =>
      rw [pushes, List.map_append, ihleft, ihright, literals]

/-- No push exceeds what the expression needs. -/
theorem le_of_mem_pushes {live : Nat} {e : Expr} {push : Lexeme × Nat}
    (h : push ∈ e.pushes live) : push.2 ≤ live + e.need := by
  induction e generalizing live with
  | number literal =>
      obtain rfl := List.mem_singleton.1 h
      exact Nat.le_refl _
  | negate operand ih => exact ih h
  | binary left operator right ihleft ihright =>
      simp only [need]
      rcases List.mem_append.1 h with h | h
      · have hle := ihleft h
        omega
      · have hle := ihright h
        omega

theorem firstOver_of_le {live : Nat} {e : Expr} (h : live + e.need ≤ stackCapacity) :
    e.firstOver live = none := by
  rw [firstOver, Option.map_eq_none_iff, List.find?_eq_none]
  intro push hpush
  have hle := le_of_mem_pushes hpush
  simp only [decide_eq_true_eq]
  omega

theorem firstOver_binary (live : Nat) (left right : Expr) (operator : Operator) :
    (binary left operator right).firstOver live
      = (left.firstOver live).or (right.firstOver (live + 1)) := by
  simp only [firstOver, pushes, List.find?_append]
  cases (left.pushes live).find? fun push => push.2 = stackCapacity + 1 <;> rfl

end Expr

namespace Chunk

/-! ## Runs from an offset -/

/-- The outcome of a run that starts at an offset. -/
def runAt (c : Chunk) (offset : Nat) (stack : Stack) : Outcome :=
  (c.runFrom (fun _ _ seen => seen) offset stack ()).1

variable {c : Chunk} {before behind : List Instruction} {stack : Stack}

theorem runAt_goOn {offset next : Nat} {after : Stack}
    (h : c.step offset stack = .goOn next after) : c.runAt offset stack = c.runAt next after := by
  rw [runAt, runFrom]
  split
  · rename_i result stopped hstop
    rw [h] at hstop
    cases hstop
  · rename_i next' after' hgo
    rw [h] at hgo
    cases hgo
    rfl

theorem runAt_stop {offset : Nat} {result : Except RuntimeError Float} {after : Stack}
    (h : c.step offset stack = .stop result after) : c.runAt offset stack = ⟨result, after⟩ := by
  rw [runAt, runFrom]
  split
  · rename_i result' stopped hstop
    rw [h] at hstop
    cases hstop
    rfl
  · rename_i next' after' hgo
    rw [h] at hgo
    cases hgo

/-! ## One instruction -/

/-- Pushing goes on if there is room. -/
theorem pushThen_of_lt (c : Chunk) (offset next : Nat) (value : Float)
    (h : stack.height < stackCapacity) :
    ∃ after, after.live = stack.live ++ [value] ∧
      c.pushThen offset next value stack = .goOn next after := by
  obtain ⟨after, hpush, hlive⟩ := Stack.exists_push? value h
  exact ⟨after, hlive, by rw [pushThen, hpush]⟩

theorem step_load {index : UInt8} {value : Float}
    (hcode : c.code.toList = assemble (before ++ .load index :: behind))
    (hentry : c.constants[index.toNat]? = some value) :
    c.step (assemble before).length stack
      = c.pushThen (assemble before).length (assemble (before ++ [.load index])).length value
          stack := by
  have hlength : (assemble (before ++ [.load index])).length = (assemble before).length + 2 := by
    simp [Instruction.bytes]
  simp only [step, code_opCode hcode, Instruction.opCode, OpCode.ofByte?_toByte, constantStep,
    code_operand hcode, hentry, hlength]

theorem step_negate {values : List Float} {value : Float}
    (hcode : c.code.toList = assemble (before ++ .negate :: behind))
    (hlive : stack.live = values ++ [value]) :
    ∃ after, after.live = values ++ [-value] ∧
      c.step (assemble before).length stack
        = .goOn (assemble (before ++ [.negate])).length after := by
  obtain ⟨popped, hpop, hpopped⟩ := Stack.exists_pop? hlive
  have hroom : popped.height < stackCapacity := by
    have hheight := Stack.height_eq hlive
    have hle := stack.height_le
    rw [Stack.height_eq hpopped]
    rw [List.length_append, List.length_singleton] at hheight
    omega
  have hlength : (assemble (before ++ [.negate])).length = (assemble before).length + 1 := by
    simp [Instruction.bytes]
  obtain ⟨after, hafter, hpush⟩ :=
    c.pushThen_of_lt (assemble before).length ((assemble before).length + 1) (-value) hroom
  refine ⟨after, hpopped ▸ hafter, ?_⟩
  rw [hlength, ← hpush]
  simp only [step, code_opCode hcode, Instruction.opCode, OpCode.ofByte?_toByte, negateStep, hpop]

/-- The right operand is on top. -/
theorem step_binary {operator : Operator} {values : List Float} {left right : Float}
    (hcode : c.code.toList = assemble (before ++ .binary operator :: behind))
    (hlive : stack.live = values ++ [left, right]) :
    ∃ after, after.live = values ++ [operator.apply left right] ∧
      c.step (assemble before).length stack
        = .goOn (assemble (before ++ [.binary operator])).length after := by
  -- popping takes the right operand first
  have hsplit : stack.live = (values ++ [left]) ++ [right] := by simp [hlive]
  obtain ⟨popped, hpop, hpopped⟩ := Stack.exists_pop? hsplit
  obtain ⟨popped', hpop', hpopped'⟩ := Stack.exists_pop? hpopped
  have hroom : popped'.height < stackCapacity := by
    have hheight := Stack.height_eq hlive
    have hle := stack.height_le
    rw [Stack.height_eq hpopped']
    simp only [List.length_append, List.length_cons] at hheight
    omega
  have hlength : (assemble (before ++ [.binary operator])).length
      = (assemble before).length + 1 := by
    simp [Instruction.bytes]
  obtain ⟨after, hafter, hpush⟩ := c.pushThen_of_lt (assemble before).length
    ((assemble before).length + 1) (operator.apply left right) hroom
  refine ⟨after, hpopped' ▸ hafter, ?_⟩
  rw [hlength, ← hpush]
  cases operator <;>
    simp only [step, code_opCode hcode, Instruction.opCode, Operator.opCode, OpCode.ofByte?_toByte,
      binaryStep, hpop, hpop', Operator.apply]

theorem step_finish {values : List Float} {value : Float}
    (hcode : c.code.toList = assemble (before ++ .finish :: behind))
    (hlive : stack.live = values ++ [value]) :
    ∃ after, after.live = values ∧
      c.step (assemble before).length stack = .stop (.ok value) after := by
  obtain ⟨after, hpop, hafter⟩ := Stack.exists_pop? hlive
  refine ⟨after, hafter, ?_⟩
  simp only [step, code_opCode hcode, Instruction.opCode, OpCode.ofByte?_toByte, returnStep, hpop]

/-! ## The code of a phrase -/

/-- The code of a phrase stands in the chunk behind the instructions `before`, with its lines
and with the entries it loads. -/
structure Embeds (c : Chunk) (before : List Instruction) (s : Phrase) (index : Float → UInt8) :
    Prop where
  code : ∃ behind, c.code.toList = assemble (before ++ s.expr.instructions index ++ behind)
  lines : ∃ front back, c.lines.decoded = front ++ s.lines ++ back ∧
    front.length = (assemble before).length
  entries : ∀ v ∈ s.expr.constants, c.constants[(index v).toNat]? = some v

namespace Embeds

variable {index : Float → UInt8}

theorem number {literal : Lexeme} (h : c.Embeds before (.number literal) index) :
    (∃ behind, c.code.toList
      = assemble (before ++ .load (index (literalValue literal.text)) :: behind)) ∧
    c.constants[(index (literalValue literal.text)).toNat]? = some (literalValue literal.text) ∧
    c.line? (assemble before).length = some literal.line := by
  rcases h.code with ⟨behind, hcode⟩
  rcases h.lines with ⟨front, back, hlines, hfront⟩
  refine ⟨⟨behind, by simpa [Phrase.expr, Expr.instructions] using hcode⟩, h.entries _ ?_, ?_⟩
  · simp [Phrase.expr, Expr.constants, Expr.literals]
  · rw [Chunk.line?, LineTable.line?_eq, hlines, ← hfront]
    simp [Phrase.lines]

theorem group {inner : Phrase} {close : Lexeme} (h : c.Embeds before (.group inner close) index) :
    c.Embeds before inner index :=
  ⟨h.code, h.lines, h.entries⟩

theorem negate {operand : Phrase} (h : c.Embeds before (.negate operand) index) :
    c.Embeds before operand index ∧ ∃ behind, c.code.toList
      = assemble (before ++ operand.expr.instructions index ++ .negate :: behind) := by
  rcases h.code with ⟨behind, hcode⟩
  rcases h.lines with ⟨front, back, hlines, hfront⟩
  simp only [Phrase.expr, Expr.instructions, Phrase.lines] at hcode hlines
  refine ⟨⟨⟨.negate :: behind, ?_⟩, ⟨front, [operand.last.line] ++ back, ?_, hfront⟩, h.entries⟩,
    behind, ?_⟩
  · simpa using hcode
  · simpa using hlines
  · simpa using hcode

theorem left {left right : Phrase} {operator : Operator}
    (h : c.Embeds before (.binary left operator right) index) : c.Embeds before left index := by
  rcases h.code with ⟨behind, hcode⟩
  rcases h.lines with ⟨front, back, hlines, hfront⟩
  simp only [Phrase.expr, Expr.instructions, Phrase.lines] at hcode hlines
  refine ⟨⟨right.expr.instructions index ++ [.binary operator] ++ behind, ?_⟩,
    ⟨front, right.lines ++ [right.last.line] ++ back, ?_, hfront⟩, fun v hv => h.entries v ?_⟩
  · simpa using hcode
  · simpa using hlines
  · exact Phrase.constants_binary left right operator ▸ List.mem_append_left _ hv

theorem right {left right : Phrase} {operator : Operator}
    (h : c.Embeds before (.binary left operator right) index) :
    c.Embeds (before ++ left.expr.instructions index) right index ∧ ∃ behind, c.code.toList
      = assemble (before ++ left.expr.instructions index ++ right.expr.instructions index
        ++ .binary operator :: behind) := by
  rcases h.code with ⟨behind, hcode⟩
  rcases h.lines with ⟨front, back, hlines, hfront⟩
  simp only [Phrase.expr, Expr.instructions, Phrase.lines] at hcode hlines
  refine ⟨⟨⟨.binary operator :: behind, ?_⟩,
    ⟨front ++ left.lines, [right.last.line] ++ back, ?_, ?_⟩, fun v hv => h.entries v ?_⟩,
    behind, ?_⟩
  · simpa using hcode
  · simpa using hlines
  · rw [List.length_append, assemble_append, List.length_append, hfront, left.length_lines index]
  · exact Phrase.constants_binary left right operator ▸ List.mem_append_right _ hv
  · simpa using hcode

/-- **The code of a phrase computes its value.** The stack has room for what is live
meanwhile; then the value is on top, and the run goes on behind the code. -/
theorem run {s : Phrase} (h : c.Embeds before s index)
    (hroom : stack.height + s.expr.need ≤ stackCapacity) :
    ∃ after, after.live = stack.live ++ [s.expr.value] ∧
      c.runAt (assemble before).length stack
        = c.runAt (assemble (before ++ s.expr.instructions index)).length after := by
  induction s generalizing before stack with
  | number literal =>
      rcases h.number with ⟨⟨behind, hcode⟩, hentry, -⟩
      have hlt : stack.height < stackCapacity := hroom
      obtain ⟨after, hlive, hpush⟩ := c.pushThen_of_lt (assemble before).length
        (assemble (before ++ [.load (index (literalValue literal.text))])).length
        (literalValue literal.text) hlt
      exact ⟨after, hlive, runAt_goOn ((step_load hcode hentry).trans hpush)⟩
  | group inner close ih => exact ih h.group hroom
  | negate operand ih =>
      rcases h.negate with ⟨hoperand, behind, hcode⟩
      obtain ⟨middle, hmiddle, hrun⟩ := ih hoperand hroom
      obtain ⟨after, hafter, hstep⟩ := step_negate hcode hmiddle
      refine ⟨after, hafter, ?_⟩
      rw [hrun, runAt_goOn hstep]
      simp [Phrase.expr, Expr.instructions]
  | binary left operator right ihleft ihright =>
      have hneed : stack.height + max left.expr.need (1 + right.expr.need) ≤ stackCapacity := hroom
      rcases h.right with ⟨hright, behind, hcode⟩
      have hroomleft : stack.height + left.expr.need ≤ stackCapacity := by omega
      obtain ⟨middle, hmiddle, hrunleft⟩ := ihleft h.left hroomleft
      -- the left value is below while the right operand is computed
      have hheight : middle.height = stack.height + 1 := by
        rw [Stack.height_eq hmiddle, List.length_append, stack.length_live]
        rfl
      have hroomright : middle.height + right.expr.need ≤ stackCapacity := by omega
      obtain ⟨middle', hmiddle', hrunright⟩ := ihright hright hroomright
      rw [hmiddle, List.append_assoc] at hmiddle'
      obtain ⟨after, hafter, hstep⟩ := step_binary hcode hmiddle'
      refine ⟨after, hafter, ?_⟩
      calc c.runAt (assemble before).length stack
          = c.runAt (assemble (before ++ left.expr.instructions index)).length middle := hrunleft
        _ = c.runAt (assemble (before ++ left.expr.instructions index
              ++ right.expr.instructions index)).length middle' := hrunright
        _ = c.runAt (assemble (before ++ left.expr.instructions index
              ++ right.expr.instructions index ++ [.binary operator])).length after :=
            runAt_goOn hstep
        _ = _ := by simp [Phrase.expr, Expr.instructions]

/-- **Without room, the run stops at the first literal that does not fit.** -/
theorem run_overflow {s : Phrase} (h : c.Embeds before s index)
    (hover : stackCapacity < stack.height + s.expr.need) :
    ∃ literal after, s.expr.firstOver stack.height = some literal ∧
      c.runAt (assemble before).length stack
        = ⟨.error ⟨some literal.line, .stackOverflow⟩, after⟩ := by
  induction s generalizing before stack with
  | number literal =>
      rcases h.number with ⟨⟨behind, hcode⟩, hentry, hline⟩
      have hover' : stackCapacity < stack.height + 1 := hover
      have hfull : stack.height = stackCapacity := by
        have hle := stack.height_le
        omega
      refine ⟨literal, stack, ?_, runAt_stop ?_⟩
      · simp [Phrase.expr, Expr.firstOver, Expr.pushes, hfull]
      · rw [step_load hcode hentry, pushThen, (stack.push?_eq_none_iff _).2 hfull]
        simp only [faultAt, hline]
  | group inner close ih => exact ih h.group hover
  | negate operand ih => exact ih h.negate.1 hover
  | binary left operator right ihleft ihright =>
      have hneed : stackCapacity < stack.height + max left.expr.need (1 + right.expr.need) := hover
      rw [Phrase.expr, Expr.firstOver_binary]
      by_cases hleft : stackCapacity < stack.height + left.expr.need
      · -- the run never gets to the right operand
        obtain ⟨literal, after, hfirst, hrun⟩ := ihleft h.left hleft
        exact ⟨literal, after, by rw [hfirst, Option.some_or], hrun⟩
      · -- the left operand is computed, and the right one finds one value more
        rcases h.left.run (Nat.le_of_not_lt hleft) with ⟨middle, hmiddle, hrunleft⟩
        have hheight : middle.height = stack.height + 1 := by
          rw [Stack.height_eq hmiddle, List.length_append, stack.length_live]
          rfl
        have hright : stackCapacity < middle.height + right.expr.need := by omega
        obtain ⟨literal, after, hfirst, hrun⟩ := ihright h.right.1 hright
        refine ⟨literal, after, ?_, hrunleft.trans hrun⟩
        rw [Expr.firstOver_of_le (Nat.le_of_not_lt hleft), Option.none_or, ← hheight, hfirst]

end Embeds

end Chunk

/-! ## Programs -/

theorem Phrase.program_lines (s : Phrase) (line : Nat) :
    (s.program line).lines.decoded = s.lines ++ [line] := by
  rw [program, Chunk.writeOp_lines, s.emit_lines]
  rfl

/-- The code of a sentence stands at the beginning of its program. -/
theorem Phrase.embeds_program {s : Phrase}
    (hsmall : (distinctBits s.expr.constants).length ≤ 256) (line : Nat) :
    (s.program line).Embeds [] s (poolByte s.expr.constants) := by
  have hcode := s.codeOf_program hsmall line
  refine ⟨⟨[.finish], ?_⟩, ⟨[], [line], ?_, rfl⟩, ?_⟩
  · rw [hcode.code, List.nil_append]
  · rw [s.program_lines, List.nil_append]
  · intro v hv
    rw [(hcode.entry hv).2.1]
    exact (hcode.entry hv).2.2

/-- A program that has room returns the value of its expression. -/
theorem Phrase.run_program {s : Phrase} (hsmall : (distinctBits s.expr.constants).length ≤ 256)
    (line : Nat) (stack : Stack) (hroom : s.expr.need ≤ stackCapacity) :
    ∃ after, after.live = [] ∧ (s.program line).run stack = ⟨.ok s.expr.value, after⟩ := by
  have hheight : stack.cleared.height + s.expr.need ≤ stackCapacity := by
    rw [Stack.cleared, Nat.zero_add]
    exact hroom
  obtain ⟨middle, hmiddle, hrun⟩ := (s.embeds_program hsmall line).run hheight
  rw [Stack.live_cleared] at hmiddle
  obtain ⟨after, hafter, hstep⟩ := Chunk.step_finish (s.codeOf_program hsmall line).code hmiddle
  refine ⟨after, hafter, ?_⟩
  calc (s.program line).run stack
      = (s.program line).runAt (assemble (s.expr.instructions (poolByte s.expr.constants))).length
          middle := hrun
    _ = ⟨.ok s.expr.value, after⟩ := Chunk.runAt_stop hstep

/-- A program that has no room overflows the stack. -/
theorem Phrase.run_program_overflow {s : Phrase}
    (hsmall : (distinctBits s.expr.constants).length ≤ 256) (line : Nat) (stack : Stack)
    (hover : stackCapacity < s.expr.need) :
    ∃ literal after, s.expr.firstOver 0 = some literal ∧
      (s.program line).run stack = ⟨.error ⟨some literal.line, .stackOverflow⟩, after⟩ := by
  have hheight : stackCapacity < stack.cleared.height + s.expr.need := by
    rw [Stack.cleared, Nat.zero_add]
    exact hover
  exact (s.embeds_program hsmall line).run_overflow hheight

/-- **Interpreting a text that compiles.** If the stack has room for the expression, the
result is its value, and no value stays live. If it has not, the result is a stack overflow on
the line of the first literal that does not fit. Both hold whatever the stack was used for
before. -/
theorem interpret_of_compiles {source : String} {chunk : Chunk} (h : compile source = .ok chunk)
    (stack : Stack) :
    ∃ s, (∀ other, IsSentence source other ↔ other = s) ∧
      (s.expr.pushes 0).map Prod.fst = (tokensOf source).items.filterMap Token.number? ∧
      (s.expr.need ≤ stackCapacity →
        (interpret source stack).result = .ok s.expr.value ∧
          (interpret source stack).stack.live = []) ∧
      (stackCapacity < s.expr.need →
        ∃ literal, s.expr.firstOver 0 = some literal ∧ (interpret source stack).result
          = .error (.runtime ⟨some literal.line, .stackOverflow⟩)) := by
  obtain ⟨s, hs, -, hsmall, rfl⟩ := compile_eq_ok_iff.1 h
  refine ⟨s, hs.iff_eq, (s.expr.pushes_map_fst 0).trans hs.literals, ?_, ?_⟩
  · intro hroom
    obtain ⟨after, hafter, hrun⟩ := s.run_program hsmall (tokensOf source).last.line stack hroom
    simp only [interpret, h, hrun]
    exact ⟨rfl, hafter⟩
  · intro hover
    obtain ⟨literal, after, hfirst, hrun⟩ :=
      s.run_program_overflow hsmall (tokensOf source).last.line stack hover
    refine ⟨literal, hfirst, ?_⟩
    simp only [interpret, h, hrun]
    rfl

theorem interpret_difference :
    compile "8-2" = .ok (Phrase.difference.program 1) ∧
      (interpret "8-2" .empty).result = .ok (literalValue "8" - literalValue "2") ∧
      (interpret "8-2" .empty).stack.live = [] := by
  obtain ⟨s, hs, -, hroom, -⟩ := interpret_of_compiles compile_difference .empty
  obtain rfl : Phrase.difference = s := (hs _).1 isSentence_difference
  exact ⟨compile_difference, hroom (by decide)⟩

end LoxArith
