import LoxArith.Proofs.Execution

set_option autoImplicit false

/-! # Where a run ends

Whether an instruction ends a run can be told without running anything: from the bytes, the
size of the pool, and the number of values that the instructions before it leave live. That
number depends on the opcodes alone (`depth`), since loading a constant adds a value, an
operator with two operands takes one away, and a negation leaves as many as there were.

A walk over any code therefore finds the place where a run ends, and how it ends there
(`run_ends_at_firstEnd`). The code may be anything: bytes that are no opcode, operands outside the
pool or cut off, code without a return, operators that find too few values.
-/

namespace LoxArith

/-! ## Counting values -/

namespace OpCode

theorem eq_toByte_of_ofByte? {byte : UInt8} {op : OpCode} (h : ofByte? byte = some op) :
    byte = op.toByte := by
  unfold ofByte? at h
  split at h <;> cases h <;> rfl

/-- The bytes that are no opcode are those beyond the last one. -/
theorem ofByte?_eq_none_iff {byte : UInt8} : ofByte? byte = none ↔ 6 < byte.toNat := by
  constructor
  · intro hnone
    by_contra hsmall
    have hbyte : byte = UInt8.ofNat byte.toNat := UInt8.ofNat_toNat.symm
    generalize byte.toNat = n at hbyte hsmall
    subst hbyte
    interval_cases n <;> cases hnone
  · intro hlarge
    by_contra hsome
    obtain ⟨op, hop⟩ := Option.ne_none_iff_exists'.1 hsome
    obtain rfl := eq_toByte_of_ofByte? hop
    revert hlarge
    cases op <;> decide

/-- The instructions that put one value in the place of two. -/
def isBinary : OpCode → Bool
  | add | subtract | multiply | divide => true
  | _ => false

end OpCode

/-- How many values the instructions leave, if each of them finds its operands. -/
def depth (passed : List OpCode) : Int :=
  (passed.count .constant : Int) - (passed.countP OpCode.isBinary : Int)

@[simp] theorem depth_nil : depth [] = 0 := rfl

theorem depth_cons (op : OpCode) (ops : List OpCode) :
    depth (op :: ops) = depth [op] + depth ops := by
  simp only [depth, List.count_cons, List.countP_cons, List.count_nil, List.countP_nil]
  omega

/-! ## The top of the stack -/

namespace Stack

/-- If a value is live, a pop takes the one on top. -/
theorem exists_top {stack : Stack} (h : 0 < stack.height) :
    ∃ below top after, stack.live = below ++ [top] ∧ stack.pop? = some (top, after) ∧
      after.live = below ∧ after.height + 1 = stack.height := by
  have hlength := stack.length_live
  rcases List.eq_nil_or_concat' stack.live with hnil | ⟨below, top, hlive⟩
  · rw [hnil, List.length_nil] at hlength
    omega
  · obtain ⟨after, hpop, hafter⟩ := exists_pop? hlive
    refine ⟨below, top, after, hlive, hpop, hafter, ?_⟩
    rw [height_eq hafter, height_eq hlive, List.length_append, List.length_singleton]

theorem pop?_of_height_eq_zero {stack : Stack} (h : stack.height = 0) :
    stack.pop? = none ∧ stack.live = [] := by
  have hlive : stack.live = [] := List.length_eq_zero_iff.1 (stack.length_live.trans h)
  exact ⟨stack.pop?_eq_none_iff.2 hlive, hlive⟩

end Stack

namespace Chunk

/-! ## The walk over the code -/

/-- From the first offset, the instructions `passed` lead to the second one. -/
def Walks (c : Chunk) : Nat → List OpCode → Nat → Prop
  | start, [], offset => offset = start
  | start, op :: ops, offset =>
    c.code[start]? = some op.toByte ∧ c.Walks (start + op.width) ops offset

variable {c : Chunk}

/-- No two opcodes have the same byte. -/
theorem opCode_unique {op op' : OpCode} {offset : Nat} (h : c.code[offset]? = some op.toByte)
    (h' : c.code[offset]? = some op'.toByte) : op = op' := by
  have hbyte : op.toByte = op'.toByte := Option.some.inj (h.symm.trans h')
  have hdecoded := congrArg OpCode.ofByte? hbyte
  simpa using hdecoded

theorem Walks.le {start offset : Nat} {passed : List OpCode} (h : c.Walks start passed offset) :
    start ≤ offset ∧ (passed ≠ [] → start < offset) := by
  induction passed generalizing start with
  | nil => exact ⟨Nat.le_of_eq h.symm, fun hne => absurd rfl hne⟩
  | cons op ops ih =>
      have hwidth : 0 < op.width := by cases op <;> decide
      have hrest := (ih h.2).1
      exact ⟨by omega, fun _ => by omega⟩

/-- An offset is reached over the same instructions always. -/
theorem Walks.unique {start offset : Nat} {passed passed' : List OpCode}
    (h : c.Walks start passed offset) (h' : c.Walks start passed' offset) : passed = passed' := by
  induction passed generalizing start passed' with
  | nil =>
      by_contra hne
      have hlt := h'.le.2 (Ne.symm hne)
      have heq : offset = start := h
      omega
  | cons op ops ih =>
      cases passed' with
      | nil =>
          have hlt := h.le.2 (by simp)
          have heq : offset = start := h'
          omega
      | cons op' ops' =>
          obtain rfl := opCode_unique h.1 h'.1
          rw [ih h.2 h'.2]

/-! ## Endings -/

/-- What a run ends with: the value on top, or a fault. -/
inductive Ending
  | value
  | fault (f : RuntimeFault)

/-- The run ends at an offset that it reaches with `depth` values. -/
inductive EndsAt (c : Chunk) (offset : Nat) (depth : Int) : Ending → Prop
  /-- A return finds a value. -/
  | returned (hop : c.code[offset]? = some OpCode.return.toByte) (hdepth : 1 ≤ depth) :
      EndsAt c offset depth .value
  /-- A return or a negation finds no value. -/
  | noValue {op : OpCode} (hop : c.code[offset]? = some op.toByte)
      (hunary : op = .return ∨ op = .negate) (hdepth : depth = 0) :
      EndsAt c offset depth (.fault .stackUnderflow)
  /-- An operator with two operands finds less than two values. -/
  | noOperands {op : OpCode} (hop : c.code[offset]? = some op.toByte) (hbinary : op.isBinary)
      (hdepth : depth < 2) : EndsAt c offset depth (.fault .stackUnderflow)
  /-- The byte is no opcode. -/
  | unknown {byte : UInt8} (hbyte : c.code[offset]? = some byte) (hlarge : 6 < byte.toNat) :
      EndsAt c offset depth (.fault (.unknownOpcode byte))
  /-- The operand of a load is outside the pool, whether there is room for a value or not. -/
  | noConstant {index : UInt8} (hop : c.code[offset]? = some OpCode.constant.toByte)
      (hindex : c.code[offset + 1]? = some index) (hout : c.constants.size ≤ index.toNat) :
      EndsAt c offset depth (.fault (.invalidConstant index.toNat))
  /-- A load finds no room. -/
  | noRoom {index : UInt8} (hop : c.code[offset]? = some OpCode.constant.toByte)
      (hindex : c.code[offset + 1]? = some index) (hin : index.toNat < c.constants.size)
      (hdepth : depth = 256) : EndsAt c offset depth (.fault .stackOverflow)
  /-- The code ends in front of an instruction. -/
  | noInstruction (hend : offset = c.size) : EndsAt c offset depth (.fault .missingReturn)
  /-- The code ends inside a load. -/
  | noOperand (hop : c.code[offset]? = some OpCode.constant.toByte) (hend : offset + 1 = c.size) :
      EndsAt c offset depth (.fault .missingReturn)

/-- The first offset of the walk at which a run ends, behind the instructions `passed`. -/
structure FirstEnd (c : Chunk) (passed : List OpCode) (offset : Nat) : Prop where
  walks : c.Walks 0 passed offset
  ends : ∃ ending, c.EndsAt offset (depth passed) ending
  first : ∀ passed' offset' ending, c.Walks 0 passed' offset' → offset' < offset →
    ¬ c.EndsAt offset' (depth passed') ending

/-- There is one first offset only. -/
theorem FirstEnd.unique {passed passed' : List OpCode} {offset offset' : Nat}
    (h : c.FirstEnd passed offset) (h' : c.FirstEnd passed' offset') :
    passed' = passed ∧ offset' = offset := by
  obtain ⟨ending, hends⟩ := h.ends
  obtain ⟨ending', hends'⟩ := h'.ends
  have hge : ¬ offset' < offset := fun hlt => h.first _ _ _ h'.walks hlt hends'
  have hle : ¬ offset < offset' := fun hlt => h'.first _ _ _ h.walks hlt hends
  obtain rfl : offset' = offset := by omega
  exact ⟨h'.walks.unique h.walks, rfl⟩

/-- What an ending at an offset makes of the values that were live before it. A return leaves
the values below the one it takes, an operator that finds too few of them takes what there is,
and any other fault leaves all of them. The line is that of the offset, but if the code ended
it is that of its last byte. -/
def Ending.Leaves (c : Chunk) (offset : Nat) (before : List Float) : Ending → Outcome → Prop
  | .value, outcome => ∃ below top, before = below ++ [top] ∧ outcome.result = .ok top ∧
      outcome.stack.live = below
  | .fault .stackUnderflow, outcome =>
      outcome.result = .error ⟨c.line? offset, .stackUnderflow⟩ ∧ outcome.stack.live = []
  | .fault .missingReturn, outcome =>
      outcome.result = .error ⟨c.line? (c.size - 1), .missingReturn⟩ ∧ outcome.stack.live = before
  | .fault f, outcome =>
      outcome.result = .error ⟨c.line? offset, f⟩ ∧ outcome.stack.live = before

/-! ## One step -/

section

variable {offset : Nat} {stack : Stack}

theorem step_of_opCode {op : OpCode} (hop : c.code[offset]? = some op.toByte) :
    c.step offset stack = match op with
      | .constant => c.constantStep offset stack
      | .negate => c.negateStep offset stack
      | .add => c.binaryStep offset (· + ·) stack
      | .subtract => c.binaryStep offset (· - ·) stack
      | .multiply => c.binaryStep offset (· * ·) stack
      | .divide => c.binaryStep offset (· / ·) stack
      | .return => c.returnStep offset stack := by
  simp only [step, hop, OpCode.ofByte?_toByte]
  cases op <;> rfl

/-- An operator with two operands does its work with some operation. -/
theorem step_of_isBinary (stack : Stack) {op : OpCode} (hop : c.code[offset]? = some op.toByte)
    (hbinary : op.isBinary) :
    op.width = 1 ∧ depth [op] = -1 ∧
      ∃ operation, c.step offset stack = c.binaryStep offset operation stack := by
  rw [step_of_opCode hop]
  cases op with
  | add => exact ⟨rfl, rfl, _, rfl⟩
  | subtract => exact ⟨rfl, rfl, _, rfl⟩
  | multiply => exact ⟨rfl, rfl, _, rfl⟩
  | divide => exact ⟨rfl, rfl, _, rfl⟩
  | _ => cases hbinary

/-- **Where an ending stands, the step stops with it.** -/
theorem EndsAt.step_eq_stop {ending : Ending} (h : c.EndsAt offset stack.height ending) :
    ∃ result after, c.step offset stack = .stop result after ∧
      ending.Leaves c offset stack.live ⟨result, after⟩ := by
  cases h with
  | returned hop hdepth =>
      have hpos : 0 < stack.height := by omega
      obtain ⟨below, top, after, hlive, hpop, hafter, -⟩ := Stack.exists_top hpos
      refine ⟨.ok top, after, ?_, below, top, hlive, rfl, hafter⟩
      rw [step_of_opCode hop]
      simp only [returnStep, hpop]
  | noValue hop hunary hdepth =>
      have hzero : stack.height = 0 := by omega
      obtain ⟨hpop, hlive⟩ := Stack.pop?_of_height_eq_zero hzero
      refine ⟨_, stack, ?_, rfl, hlive⟩
      rw [step_of_opCode hop]
      rcases hunary with rfl | rfl
      · simp only [returnStep, hpop, faultAt]
      · simp only [negateStep, hpop, faultAt]
  | noOperands hop hbinary hdepth =>
      obtain ⟨-, -, operation, hstep⟩ := step_of_isBinary stack hop hbinary
      rw [hstep]
      rcases Nat.eq_zero_or_pos stack.height with hzero | hpos
      · obtain ⟨hpop, hlive⟩ := Stack.pop?_of_height_eq_zero hzero
        exact ⟨_, stack, by simp only [binaryStep, hpop, faultAt], rfl, hlive⟩
      · -- the right operand is taken before the left one is missed
        obtain ⟨_, _, after, -, hpop, -, hheight⟩ := Stack.exists_top hpos
        have hafter : after.height = 0 := by omega
        obtain ⟨hpop', hlive⟩ := Stack.pop?_of_height_eq_zero hafter
        exact ⟨_, after, by simp only [binaryStep, hpop, hpop', faultAt], rfl, hlive⟩
  | unknown hbyte hlarge =>
      refine ⟨_, stack, ?_, rfl, rfl⟩
      simp only [step, hbyte, OpCode.ofByte?_eq_none_iff.2 hlarge, faultAt]
  | noConstant hop hindex hout =>
      refine ⟨_, stack, ?_, rfl, rfl⟩
      rw [step_of_opCode hop]
      simp only [constantStep, hindex, Array.getElem?_eq_none hout, faultAt]
  | noRoom hop hindex hin hdepth =>
      have hfull : ∀ value, stack.push? value = none := fun value =>
        (stack.push?_eq_none_iff value).2 (show stack.height = 256 by omega)
      refine ⟨_, stack, ?_, rfl, rfl⟩
      rw [step_of_opCode hop]
      simp only [constantStep, hindex, Array.getElem?_eq_getElem hin, pushThen, hfull, faultAt]
  | noInstruction hend =>
      have hnone : c.code[offset]? = none := Array.getElem?_eq_none (Nat.le_of_eq hend.symm)
      refine ⟨_, stack, ?_, rfl, rfl⟩
      simp only [step, hnone, faultAt, ← hend]
  | noOperand hop hend =>
      have hnone : c.code[offset + 1]? = none := Array.getElem?_eq_none (Nat.le_of_eq hend.symm)
      have hline : c.size - 1 = offset := by omega
      refine ⟨_, stack, ?_, rfl, rfl⟩
      rw [step_of_opCode hop]
      simp only [constantStep, hnone, faultAt, hline]

/-- A push that has room leaves one value more. -/
theorem pushThen_eq_goOn_of_lt (c : Chunk) (offset next : Nat) (value : Float)
    (h : stack.height < stackCapacity) :
    ∃ after, c.pushThen offset next value stack = .goOn next after ∧
      after.height = stack.height + 1 := by
  obtain ⟨after, hlive, hpush⟩ := c.pushThen_of_lt offset next value h
  refine ⟨after, hpush, ?_⟩
  rw [Stack.height_eq hlive, List.length_append, stack.length_live, List.length_singleton]

/-- An operator with two operands puts one value in the place of two. -/
theorem binaryStep_eq_goOn_of_le (c : Chunk) (offset : Nat) (operation : Float → Float → Float)
    (h : 2 ≤ stack.height) :
    ∃ after, c.binaryStep offset operation stack = .goOn (offset + 1) after ∧
      after.height + 1 = stack.height := by
  have hle := stack.height_le
  have hpos : 0 < stack.height := by omega
  obtain ⟨-, right, popped, -, hpop, -, hheight⟩ := Stack.exists_top hpos
  have hpos' : 0 < popped.height := by omega
  obtain ⟨-, left, popped', -, hpop', -, hheight'⟩ := Stack.exists_top hpos'
  have hroom : popped'.height < stackCapacity := by omega
  obtain ⟨after, hpush, hafter⟩ :=
    c.pushThen_eq_goOn_of_lt offset (offset + 1) (operation left right) hroom
  exact ⟨after, by simp only [binaryStep, hpop, hpop', hpush], by omega⟩

theorem negateStep_eq_goOn_of_pos (c : Chunk) (offset : Nat) (h : 0 < stack.height) :
    ∃ after, c.negateStep offset stack = .goOn (offset + 1) after ∧
      after.height = stack.height := by
  have hle := stack.height_le
  obtain ⟨-, top, popped, -, hpop, -, hheight⟩ := Stack.exists_top h
  have hroom : popped.height < stackCapacity := by omega
  obtain ⟨after, hpush, hafter⟩ := c.pushThen_eq_goOn_of_lt offset (offset + 1) (-top) hroom
  exact ⟨after, by simp only [negateStep, hpop, hpush], by omega⟩

/-- **Where no ending stands, the step goes on behind an instruction**, with as many values as
the instruction leaves. -/
theorem exists_goOn (hin : offset ≤ c.size)
    (h : ∀ ending, ¬ c.EndsAt offset stack.height ending) :
    ∃ op after, c.code[offset]? = some op.toByte ∧
      c.step offset stack = .goOn (offset + op.width) after ∧
      (after.height : Int) = stack.height + depth [op] := by
  have hlt : offset < c.code.size :=
    Nat.lt_of_le_of_ne hin fun hend => h _ (.noInstruction hend)
  have hbyte : c.code[offset]? = some c.code[offset] := Array.getElem?_eq_getElem hlt
  cases hdecode : OpCode.ofByte? c.code[offset] with
  | none => exact absurd (.unknown hbyte (OpCode.ofByte?_eq_none_iff.1 hdecode)) (h _)
  | some op =>
      have hop : c.code[offset]? = some op.toByte :=
        hbyte.trans (congrArg some (OpCode.eq_toByte_of_ofByte? hdecode))
      refine ⟨op, ?_⟩
      by_cases hbinary : op.isBinary
      · obtain ⟨hwidth, hdepth, operation, hstep⟩ := step_of_isBinary stack hop hbinary
        have htwo : 2 ≤ stack.height := by
          by_contra hfew
          exact h _ (.noOperands hop hbinary (by omega))
        obtain ⟨after, hgo, hafter⟩ := c.binaryStep_eq_goOn_of_le offset operation htwo
        exact ⟨after, hop, by rw [hstep, hwidth, hgo], by omega⟩
      · rw [step_of_opCode hop]
        cases op with
        | constant =>
            -- the operand is there, in the pool, and there is room
            have hlt' : offset + 1 < c.code.size :=
              Nat.lt_of_le_of_ne hlt fun hend => h _ (.noOperand hop hend)
            have hindex := Array.getElem?_eq_getElem hlt'
            have hin' : c.code[offset + 1].toNat < c.constants.size := by
              by_contra hout
              exact h _ (.noConstant hop hindex (Nat.le_of_not_lt hout))
            have hroom : stack.height < stackCapacity := by
              refine Nat.lt_of_le_of_ne stack.height_le fun hfull => ?_
              refine h _ (.noRoom hop hindex hin' ?_)
              exact congrArg Nat.cast hfull
            obtain ⟨after, hgo, hafter⟩ := c.pushThen_eq_goOn_of_lt offset (offset + 2)
              c.constants[c.code[offset + 1].toNat] hroom
            refine ⟨after, hop, ?_, congrArg Nat.cast hafter⟩
            simp only [constantStep, hindex, Array.getElem?_eq_getElem hin', hgo, OpCode.width]
        | negate =>
            have hpos : 0 < stack.height := by
              by_contra hzero
              exact h _ (.noValue hop (Or.inr rfl) (by omega))
            obtain ⟨after, hgo, hafter⟩ := c.negateStep_eq_goOn_of_pos offset hpos
            refine ⟨after, hop, hgo, ?_⟩
            rw [hafter]
            rfl
        | «return» =>
            -- a return always ends a run
            by_cases hpos : 0 < stack.height
            · exact absurd (.returned hop (by omega)) (h _)
            · exact absurd (.noValue hop (Or.inl rfl) (by omega)) (h _)
        | _ => exact absurd rfl hbinary

end

/-! ## Runs -/

/-- The steps that go on lead from one offset and stack to another. -/
inductive Arrives (c : Chunk) : Nat → Stack → Nat → Stack → Prop
  | here {offset : Nat} {stack : Stack} : Arrives c offset stack offset stack
  | step {offset next target : Nat} {stack after before : Stack}
      (hstep : c.step offset stack = .goOn next after) (h : Arrives c next after target before) :
      Arrives c offset stack target before

/-- The run arrives where its steps lead. -/
theorem Arrives.runAt_eq {offset target : Nat} {stack before : Stack}
    (h : c.Arrives offset stack target before) : c.runAt offset stack = c.runAt target before := by
  induction h with
  | here => rfl
  | step hstep _ ih => exact (runAt_goOn hstep).trans ih

/-- From any offset a run arrives at the first ending behind it, with the values that the
instructions before it leave. -/
theorem exists_arrives (c : Chunk) (offset : Nat) (stack : Stack) (hin : offset ≤ c.size) :
    ∃ passed target before, c.Walks offset passed target ∧
      c.Arrives offset stack target before ∧
      (before.height : Int) = stack.height + depth passed ∧
      (∃ ending, c.EndsAt target before.height ending) ∧
      ∀ passed' offset' ending, c.Walks offset passed' offset' → offset' < target →
        ¬ c.EndsAt offset' (stack.height + depth passed') ending := by
  by_cases hends : ∃ ending, c.EndsAt offset stack.height ending
  · refine ⟨[], offset, stack, rfl, .here, by simp, hends, ?_⟩
    intro passed' offset' ending' hwalks hlt
    have hle := hwalks.le.1
    omega
  · have hno := not_exists.1 hends
    obtain ⟨op, after, hop, hstep, hheight⟩ := exists_goOn hin hno
    have hnext := lt_of_step_eq_goOn hstep
    obtain ⟨passed, target, before, hwalks, harrives, hbefore, hending, hfirst⟩ :=
      exists_arrives c (offset + op.width) after hnext.2
    refine ⟨op :: passed, target, before, ⟨hop, hwalks⟩, .step hstep harrives, ?_, hending, ?_⟩
    · rw [depth_cons]
      omega
    · -- any other walk passes this instruction first
      intro passed' offset' ending hwalks' hlt
      cases passed' with
      | nil =>
          obtain rfl : offset' = offset := hwalks'
          rw [depth_nil, Int.add_zero]
          exact hno ending
      | cons op' passed' =>
          obtain rfl := opCode_unique hop hwalks'.1
          rw [depth_cons, ← Int.add_assoc, ← hheight]
          exact hfirst passed' offset' ending hwalks'.2 hlt
  termination_by c.size - offset

/-- **Where a run ends, and how.** On every chunk there is one first offset of the walk at which
an ending stands. The run arrives there, with as many values as the instructions before it
leave, and ends as the ending says, whatever the stack was used for before. -/
theorem run_ends_at_firstEnd (c : Chunk) (stack : Stack) :
    ∃ passed offset before,
      (∀ passed' offset', c.FirstEnd passed' offset' ↔ passed' = passed ∧ offset' = offset) ∧
      c.Arrives 0 stack.cleared offset before ∧ (before.live.length : Int) = depth passed ∧
      ∀ ending, c.EndsAt offset (depth passed) ending →
        ending.Leaves c offset before.live (c.run stack) := by
  obtain ⟨passed, offset, before, hwalks, harrives, hheight, ⟨ending, hends⟩, hfirst⟩ :=
    c.exists_arrives 0 stack.cleared (Nat.zero_le _)
  -- no value is live at the beginning
  have hzero : (stack.cleared.height : Int) = 0 := rfl
  simp only [hzero, Int.zero_add] at hheight hfirst
  rw [hheight] at hends
  have hfirstEnd : c.FirstEnd passed offset := ⟨hwalks, ⟨ending, hends⟩, hfirst⟩
  refine ⟨passed, offset, before, ?_, harrives, before.length_live ▸ hheight, ?_⟩
  · intro passed' offset'
    constructor
    · intro h
      exact hfirstEnd.unique h
    · rintro ⟨rfl, rfl⟩
      exact hfirstEnd
  · intro ending' hends'
    rw [← hheight] at hends'
    obtain ⟨result, after, hstep, hleaves⟩ := hends'.step_eq_stop
    have hrun : c.run stack = c.runAt offset before := harrives.runAt_eq
    rw [hrun, runAt_stop hstep]
    exact hleaves

end Chunk

end LoxArith
