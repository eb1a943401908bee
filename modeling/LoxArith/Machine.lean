import LoxArith.Machine.Stack

set_option autoImplicit false

/-! # The machine

The machine runs a chunk from its first byte. A step reads the instruction at an offset and
either moves on to a later offset or stops, with a value or with an error. There are no
jumps, so offsets only grow and every run ends.

A run can be watched: before each step the watcher sees the offset and the stack. Printing
a trace and counting steps are both watchers (`Chunk.runWatched`). Between runs only the
slots of the stack are kept.
-/

namespace LoxArith

/-- What one step leads to. -/
inductive Step
  | goOn (offset : Nat) (stack : Stack)
  | stop (result : Except RuntimeError Float) (stack : Stack)

/-- The end of a run: its result, and the stack that is left. -/
structure Outcome where
  result : Except RuntimeError Float
  stack : Stack

namespace Chunk

/-- The step that stops with a fault of the instruction at `offset`. -/
def faultAt (chunk : Chunk) (offset : Nat) (fault : RuntimeFault) (stack : Stack) : Step :=
  .stop (.error ⟨chunk.line? offset, fault⟩) stack

/-- Pushes the value of the instruction at `offset` and goes on. -/
def pushThen (chunk : Chunk) (offset next : Nat) (value : Float) (stack : Stack) : Step :=
  match stack.push? value with
  | some stack => .goOn next stack
  | none => chunk.faultAt offset .stackOverflow stack

/-- Replaces the two values on top by one. The right operand is on top. -/
def binaryStep (chunk : Chunk) (offset : Nat) (operation : Float → Float → Float)
    (stack : Stack) : Step :=
  match stack.pop? with
  | none => chunk.faultAt offset .stackUnderflow stack
  | some (right, stack) =>
    match stack.pop? with
    | none => chunk.faultAt offset .stackUnderflow stack
    | some (left, stack) => chunk.pushThen offset (offset + 1) (operation left right) stack

/-- Loads the constant whose index follows the instruction. -/
def constantStep (chunk : Chunk) (offset : Nat) (stack : Stack) : Step :=
  match chunk.code[offset + 1]? with
  | none => chunk.faultAt offset .missingReturn stack
  | some index =>
    match chunk.constants[index.toNat]? with
    | none => chunk.faultAt offset (.invalidConstant index.toNat) stack
    | some value => chunk.pushThen offset (offset + 2) value stack

/-- Negates the value on top. -/
def negateStep (chunk : Chunk) (offset : Nat) (stack : Stack) : Step :=
  match stack.pop? with
  | none => chunk.faultAt offset .stackUnderflow stack
  | some (value, stack) => chunk.pushThen offset (offset + 1) (-value) stack

/-- Takes the value on top as the result. -/
def returnStep (chunk : Chunk) (offset : Nat) (stack : Stack) : Step :=
  match stack.pop? with
  | none => chunk.faultAt offset .stackUnderflow stack
  | some (value, stack) => .stop (.ok value) stack

/-- One step at an offset. Behind the code there is no instruction, and the fault is that of
its last byte. -/
def step (chunk : Chunk) (offset : Nat) (stack : Stack) : Step :=
  match chunk.code[offset]? with
  | none => chunk.faultAt (offset - 1) .missingReturn stack
  | some byte =>
    match OpCode.ofByte? byte with
    | none => chunk.faultAt offset (.unknownOpcode byte) stack
    | some .constant => chunk.constantStep offset stack
    | some .negate => chunk.negateStep offset stack
    | some .add => chunk.binaryStep offset (· + ·) stack
    | some .subtract => chunk.binaryStep offset (· - ·) stack
    | some .multiply => chunk.binaryStep offset (· * ·) stack
    | some .divide => chunk.binaryStep offset (· / ·) stack
    | some .return => chunk.returnStep offset stack

theorem faultAt_ne_goOn (chunk : Chunk) (offset next : Nat) (fault : RuntimeFault)
    (stack after : Stack) : chunk.faultAt offset fault stack ≠ .goOn next after := by
  simp [faultAt]

theorem pushThen_eq_goOn {chunk : Chunk} {offset target next : Nat} {value : Float}
    {stack after : Stack} (h : chunk.pushThen offset target value stack = .goOn next after) :
    next = target := by
  unfold pushThen at h
  split at h
  · cases h; rfl
  · exact absurd h (faultAt_ne_goOn _ _ _ _ _ _)

theorem binaryStep_eq_goOn {chunk : Chunk} {offset next : Nat}
    {operation : Float → Float → Float} {stack after : Stack}
    (h : chunk.binaryStep offset operation stack = .goOn next after) : next = offset + 1 := by
  unfold binaryStep at h
  split at h
  · exact absurd h (faultAt_ne_goOn _ _ _ _ _ _)
  split at h
  · exact absurd h (faultAt_ne_goOn _ _ _ _ _ _)
  · exact pushThen_eq_goOn h

theorem constantStep_eq_goOn {chunk : Chunk} {offset next : Nat} {stack after : Stack}
    (h : chunk.constantStep offset stack = .goOn next after) :
    next = offset + 2 ∧ next ≤ chunk.size := by
  unfold constantStep at h
  split at h
  · exact absurd h (faultAt_ne_goOn _ _ _ _ _ _)
  rename_i hc
  have hlt : offset + 1 < chunk.code.size := by
    rcases Array.getElem?_eq_some_iff.1 hc with ⟨hlt, _⟩
    exact hlt
  split at h
  · exact absurd h (faultAt_ne_goOn _ _ _ _ _ _)
  · have hn := pushThen_eq_goOn h
    exact ⟨hn, by subst hn; exact hlt⟩

theorem negateStep_eq_goOn {chunk : Chunk} {offset next : Nat} {stack after : Stack}
    (h : chunk.negateStep offset stack = .goOn next after) : next = offset + 1 := by
  unfold negateStep at h
  split at h
  · exact absurd h (faultAt_ne_goOn _ _ _ _ _ _)
  · exact pushThen_eq_goOn h

theorem returnStep_ne_goOn (chunk : Chunk) (offset next : Nat) (stack after : Stack) :
    chunk.returnStep offset stack ≠ .goOn next after := by
  unfold returnStep
  split
  · exact faultAt_ne_goOn _ _ _ _ _ _
  · simp

/-- A step that goes on does so at a later offset, at most the end of the code. -/
theorem lt_of_step_eq_goOn {chunk : Chunk} {offset next : Nat} {stack after : Stack}
    (h : chunk.step offset stack = .goOn next after) :
    offset < next ∧ next ≤ chunk.size := by
  unfold step at h
  split at h
  · exact absurd h (faultAt_ne_goOn _ _ _ _ _ _)
  rename_i hc
  have hlt : offset < chunk.size := by
    rcases Array.getElem?_eq_some_iff.1 hc with ⟨hlt, _⟩
    exact hlt
  split at h
  · exact absurd h (faultAt_ne_goOn _ _ _ _ _ _)
  · have := constantStep_eq_goOn h; omega
  · have := negateStep_eq_goOn h; omega
  · have := binaryStep_eq_goOn h; omega
  · have := binaryStep_eq_goOn h; omega
  · have := binaryStep_eq_goOn h; omega
  · have := binaryStep_eq_goOn h; omega
  · exact absurd h (returnStep_ne_goOn _ _ _ _ _)

/-- Runs from an offset on. Before each step, the watcher turns what it has seen so far into
what it has seen now. -/
def runFrom {Seen : Type} (chunk : Chunk) (watch : Nat → Stack → Seen → Seen)
    (offset : Nat) (stack : Stack) (seen : Seen) : Outcome × Seen :=
  let seen := watch offset stack seen
  match _h : chunk.step offset stack with
  | .stop result stack => (⟨result, stack⟩, seen)
  | .goOn next stack => chunk.runFrom watch next stack seen
  termination_by chunk.size - offset
  decreasing_by
    have := lt_of_step_eq_goOn _h
    omega

/-- Runs the chunk, watched, on the slots of a stack that may have been used before. -/
def runWatched {Seen : Type} (chunk : Chunk) (watch : Nat → Stack → Seen → Seen)
    (stack : Stack) (seen : Seen) : Outcome × Seen :=
  chunk.runFrom watch 0 stack.cleared seen

/-- Runs the chunk. -/
def run (chunk : Chunk) (stack : Stack) : Outcome :=
  (chunk.runWatched (fun _ _ seen => seen) stack ()).1

end Chunk

/-- What became of a text: its value or why it has none, and the stack that is left. -/
structure Interpretation where
  result : Except Failure Float
  stack : Stack

/-- Compiles a text and runs it on the slots of a stack that may have been used before. A
text that does not compile leaves no value live. -/
def interpret (source : String) (stack : Stack) : Interpretation :=
  match compile source with
  | .error error => ⟨.error (.compile error), stack.cleared⟩
  | .ok chunk =>
    let outcome := chunk.run stack
    ⟨outcome.result.mapError .runtime, outcome.stack⟩

end LoxArith
