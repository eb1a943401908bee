import LoxArith.Proofs.LineTable
import LoxArith.Proofs.Machine.Visits

set_option autoImplicit false

/-! # The registers of the machine

The machine in its parts: the offset of the next byte, the slots, and the number of live ones.
Here nothing says that this number fits the slots, as it does in a `Stack`. A slot is read and
written at an index, the live slots are cut out for the watcher at the mark, and the runs of a
line table are added up in words; each of these breaks the machine where a program would be
aborted, with an index behind the array or a sum that is no word. The code and the pool are
asked for what they hold at an index, and what they do not hold is a fault. The offset is not
checked: it never passes the number of the bytes of the code, which is a word.

If the line table fits into a word, the machine in registers does in each instruction what
`Chunk.step` does (`Registers.agrees`), and so it never breaks and makes the visits of the run
(`Registers.runs_of_runs`).
-/

namespace LoxArith

/-- The registers between two accesses. -/
structure Registers where
  /-- Where the next byte is read. -/
  offset : Nat
  slots : Vector Float stackCapacity
  /-- How many slots are live. -/
  height : Nat

/-- What comes of an action: an answer, an error, or the machine breaks. -/
inductive Attempt (α : Type)
  | done (answer : α) (m : Registers)
  | failed (error : RuntimeError) (m : Registers)
  | broken

/-- What the machine does with its registers. -/
structure Action (α : Type) where
  run : Registers → Attempt α

namespace Action

/-- An action and what follows it, if it is done. -/
def andThen {α β : Type} (action : Action α) (more : α → Action β) : Action β where
  run m :=
    match action.run m with
    | .done answer m => (more answer).run m
    | .failed error m => .failed error m
    | .broken => .broken

instance : Monad Action where
  pure answer := ⟨fun m => .done answer m⟩
  bind := andThen

variable {α β : Type} {action : Action α} {more : α → Action β} {m m' : Registers}

theorem bind_done {answer : α} (h : action.run m = .done answer m') :
    (action >>= more).run m = (more answer).run m' := by
  show (action.andThen more).run m = _
  simp only [andThen, h]

theorem bind_failed {error : RuntimeError} (h : action.run m = .failed error m') :
    (action >>= more).run m = .failed error m' := by
  show (action.andThen more).run m = _
  simp only [andThen, h]

theorem bind_bind {γ : Type} {last : β → Action γ} :
    (action >>= more >>= last).run m = (action >>= fun answer => more answer >>= last).run m := by
  show ((action.andThen more).andThen last).run m
    = (action.andThen fun answer => (more answer).andThen last).run m
  simp only [andThen]
  cases action.run m <;> rfl

end Action

/-! ## Accesses -/

namespace Registers

/-- The slot at an index. -/
def slot (index : Nat) : Action Float where
  run m := if h : index < stackCapacity then .done m.slots[index] m else .broken

/-- Puts a value into the slot at an index. -/
def setSlot (index : Nat) (value : Float) : Action Unit where
  run m :=
    if h : index < stackCapacity then .done () { m with slots := m.slots.set index value }
    else .broken

def current : Action Registers where
  run m := .done m m

def setHeight (height : Nat) : Action Unit where
  run m := .done () { m with height := height }

/-- What the watcher is shown: the offset and the slots up to the mark. -/
def sight : Action (Nat × List Float) where
  run m :=
    if m.height ≤ stackCapacity then .done (m.offset, m.slots.toList.take m.height) m else .broken

/-- Fails with the line that the chunk has for an offset. -/
def fail {α : Type} (c : Chunk) (offset : Nat) (fault : RuntimeFault) : Action α where
  run m :=
    match LineTable.resolve? offset 0 c.lines.runs.toList with
    | some line => .failed ⟨line, fault⟩ m
    | none => .broken

/-- The byte at the offset, which moves on behind it. -/
def readByte (c : Chunk) : Action UInt8 where
  run m :=
    match c.code[m.offset]? with
    | some byte => .done byte { m with offset := m.offset + 1 }
    | none => (fail c (m.offset - 1) .missingReturn).run m

/-! ## Instructions -/

def push (c : Chunk) (offset : Nat) (value : Float) : Action Unit := do
  let m ← current
  if stackCapacity ≤ m.height then fail c offset .stackOverflow
  else
    setSlot m.height value
    setHeight (m.height + 1)

def pop (c : Chunk) (offset : Nat) : Action Float := do
  let m ← current
  if m.height = 0 then fail c offset .stackUnderflow
  else
    setHeight (m.height - 1)
    slot (m.height - 1)

def binary (c : Chunk) (offset : Nat) (operation : Float → Float → Float) : Action Unit := do
  let right ← pop c offset
  let left ← pop c offset
  push c offset (operation left right)

/-- Loads the constant whose index is the next byte. -/
def load (c : Chunk) (offset : Nat) : Action (Option Float) := do
  let index ← readByte c
  match c.constants[index.toNat]? with
  | none => fail c offset (.invalidConstant index.toNat)
  | some value => do
    push c offset value
    return none

/-- One instruction. It answers with the value that is returned, or with nothing if the run goes
on. -/
def instruction (c : Chunk) : Action (Option Float) := do
  let offset := (← current).offset
  let byte ← readByte c
  match OpCode.ofByte? byte with
  | none => fail c offset (.unknownOpcode byte)
  | some .constant => load c offset
  | some .negate => do
    let value ← pop c offset
    push c offset (-value)
    return none
  | some .add => do binary c offset (· + ·); return none
  | some .subtract => do binary c offset (· - ·); return none
  | some .multiply => do binary c offset (· * ·); return none
  | some .divide => do binary c offset (· / ·); return none
  | some .return => do return some (← pop c offset)

/-- From some registers on, the run shows these sights, ends with this result and leaves these
registers, and nothing breaks on the way. -/
inductive Runs (c : Chunk) : Registers → List (Nat × List Float) → Except RuntimeError Float →
    Registers → Prop
  | returned {m after : Registers} {shown : Nat × List Float} {value : Float}
      (hsight : sight.run m = .done shown m)
      (hstep : (instruction c).run m = .done (some value) after) :
      Runs c m [shown] (.ok value) after
  | failed {m after : Registers} {shown : Nat × List Float} {error : RuntimeError}
      (hsight : sight.run m = .done shown m) (hstep : (instruction c).run m = .failed error after) :
      Runs c m [shown] (.error error) after
  | goOn {m next after : Registers} {shown : Nat × List Float} {seen : List (Nat × List Float)}
      {result : Except RuntimeError Float} (hsight : sight.run m = .done shown m)
      (hstep : (instruction c).run m = .done none next) (more : Runs c next seen result after) :
      Runs c m (shown :: seen) result after

/-- The registers with which a run begins: only the slots are kept. -/
def reset (m : Registers) : Registers := ⟨0, m.slots, 0⟩

/-! ## Agreement with the steps of the machine -/

/-- The registers of a stack. -/
def of (offset : Nat) (stack : Stack) : Registers := ⟨offset, stack.slots, stack.height⟩

theorem reset_eq (m : Registers) (stack : Stack) (h : stack.slots = m.slots) :
    m.reset = of 0 stack.cleared := by
  rw [reset, ← h]
  rfl

theorem sight_of (offset : Nat) (stack : Stack) :
    sight.run (of offset stack) = .done (offset, stack.live) (of offset stack) :=
  if_pos stack.height_le

section

variable {c : Chunk} (hlines : c.lines.length < wordCount)

include hlines

theorem fail_run {α : Type} (offset : Nat) (fault : RuntimeFault) (m : Registers) :
    (fail c offset fault : Action α).run m = .failed ⟨c.line? offset, fault⟩ m := by
  have hlength : 0 + (LineTable.expand c.lines.runs.toList).length < wordCount := by
    rw [LineTable.length_eq] at hlines
    rwa [Nat.zero_add]
  have hresolve := LineTable.resolve?_eq offset hlength
  rw [Nat.zero_add] at hresolve
  simp only [fail, hresolve, Chunk.line?, LineTable.line?_eq, LineTable.decoded]

theorem readByte_of (offset : Nat) (stack : Stack) :
    (readByte c).run (of offset stack) = match c.code[offset]? with
      | some byte => .done byte (of (offset + 1) stack)
      | none => .failed ⟨c.line? (offset - 1), .missingReturn⟩ (of offset stack) := by
  simp only [readByte, fail_run hlines, of]

theorem push_of (offset next : Nat) (value : Float) (stack : Stack) :
    (push c offset value).run (of next stack) = match stack.push? value with
      | some after => .done () (of next after)
      | none => .failed ⟨c.line? offset, .stackOverflow⟩ (of next stack) := by
  unfold push Stack.push?
  rw [Action.bind_done (rfl : current.run _ = .done _ _)]
  by_cases hroom : stack.height < stackCapacity
  · have hguard : ¬stackCapacity ≤ (of next stack).height := Nat.not_le.2 hroom
    rw [if_neg hguard, dif_pos hroom, Action.bind_done (dif_pos hroom)]
    rfl
  · have hguard : stackCapacity ≤ (of next stack).height := Nat.le_of_not_lt hroom
    rw [if_pos hguard, dif_neg hroom, fail_run hlines]

theorem pop_of (offset next : Nat) (stack : Stack) :
    (pop c offset).run (of next stack) = match stack.pop? with
      | some (value, after) => .done value (of next after)
      | none => .failed ⟨c.line? offset, .stackUnderflow⟩ (of next stack) := by
  have hle := stack.height_le
  unfold pop Stack.pop?
  rw [Action.bind_done (rfl : current.run _ = .done _ _)]
  by_cases hpos : 0 < stack.height
  · have hguard : ¬(of next stack).height = 0 := Nat.ne_of_gt hpos
    have hindex : stack.height - 1 < stackCapacity := by omega
    rw [if_neg hguard, dif_pos hpos, Action.bind_done (rfl : (setHeight _).run _ = .done _ _)]
    exact dif_pos hindex
  · have hguard : (of next stack).height = 0 := Nat.eq_zero_of_not_pos hpos
    rw [if_pos hguard, dif_neg hpos, fail_run hlines]

end

/-- A step of the machine and an instruction in registers come to the same. The offset in the
registers is of no account when the run has ended. -/
inductive Agrees : Step → Attempt (Option Float) → Prop
  | goOn (next : Nat) (after : Stack) : Agrees (.goOn next after) (.done none (of next after))
  | value (v : Float) (offset : Nat) (after : Stack) :
      Agrees (.stop (.ok v) after) (.done (some v) (of offset after))
  | fault (error : RuntimeError) (offset : Nat) (after : Stack) :
      Agrees (.stop (.error error) after) (.failed error (of offset after))

section

variable {c : Chunk} (hlines : c.lines.length < wordCount)

include hlines

theorem agrees_push (offset next : Nat) (value : Float) (stack : Stack) :
    Agrees (c.pushThen offset next value stack)
      ((do push c offset value; return none : Action (Option Float)).run (of next stack)) := by
  have hpush := push_of hlines offset next value stack
  unfold Chunk.pushThen
  cases hroom : stack.push? value with
  | some after =>
      rw [hroom] at hpush
      rw [Action.bind_done hpush]
      exact .goOn next after
  | none =>
      rw [hroom] at hpush
      rw [Action.bind_failed hpush]
      exact .fault _ _ _

theorem agrees_binary (offset : Nat) (operation : Float → Float → Float) (stack : Stack) :
    Agrees (c.binaryStep offset operation stack)
      ((do binary c offset operation; return none : Action (Option Float)).run
        (of (offset + 1) stack)) := by
  have hright := pop_of hlines offset (offset + 1) stack
  unfold Chunk.binaryStep binary
  rw [Action.bind_bind]
  cases htop : stack.pop? with
  | none =>
      rw [htop] at hright
      rw [Action.bind_failed hright]
      exact .fault _ _ _
  | some popped =>
      obtain ⟨right, below⟩ := popped
      rw [htop] at hright
      rw [Action.bind_done hright, Action.bind_bind]
      have hleft := pop_of hlines offset (offset + 1) below
      dsimp only
      cases hnext : below.pop? with
      | none =>
          rw [hnext] at hleft
          rw [Action.bind_failed hleft]
          exact .fault _ _ _
      | some popped =>
          obtain ⟨left, below'⟩ := popped
          rw [hnext] at hleft
          rw [Action.bind_done hleft]
          exact agrees_push hlines offset (offset + 1) _ below'

theorem agrees_negate (offset : Nat) (stack : Stack) :
    Agrees (c.negateStep offset stack)
      ((do let value ← pop c offset; push c offset (-value); return none :
        Action (Option Float)).run (of (offset + 1) stack)) := by
  have hpop := pop_of hlines offset (offset + 1) stack
  unfold Chunk.negateStep
  cases htop : stack.pop? with
  | none =>
      rw [htop] at hpop
      rw [Action.bind_failed hpop]
      exact .fault _ _ _
  | some popped =>
      rw [htop] at hpop
      rw [Action.bind_done hpop]
      exact agrees_push hlines offset (offset + 1) _ popped.2

theorem agrees_return (offset : Nat) (stack : Stack) :
    Agrees (c.returnStep offset stack)
      ((do return some (← pop c offset) : Action (Option Float)).run (of (offset + 1) stack)) := by
  have hpop := pop_of hlines offset (offset + 1) stack
  unfold Chunk.returnStep
  cases htop : stack.pop? with
  | none =>
      rw [htop] at hpop
      rw [Action.bind_failed hpop]
      exact .fault _ _ _
  | some popped =>
      rw [htop] at hpop
      rw [Action.bind_done hpop]
      exact .value _ _ _

theorem agrees_constant (offset : Nat) (stack : Stack) :
    Agrees (c.constantStep offset stack) ((load c offset).run (of (offset + 1) stack)) := by
  have hbyte := readByte_of hlines (offset + 1) stack
  unfold Chunk.constantStep load
  cases hindex : c.code[offset + 1]? with
  | none =>
      rw [hindex] at hbyte
      rw [Action.bind_failed hbyte]
      exact .fault _ _ _
  | some index =>
      rw [hindex] at hbyte
      rw [Action.bind_done hbyte]
      dsimp only
      cases c.constants[index.toNat]? with
      | none =>
          dsimp only
          rw [fail_run hlines]
          exact .fault _ _ _
      | some value => exact agrees_push hlines offset (offset + 2) value stack

/-- **An instruction in registers does what the step does.** -/
theorem agrees (offset : Nat) (stack : Stack) :
    Agrees (c.step offset stack) ((instruction c).run (of offset stack)) := by
  have hbyte := readByte_of hlines offset stack
  unfold Chunk.step instruction
  rw [Action.bind_done (rfl : current.run _ = .done _ _)]
  cases hcode : c.code[offset]? with
  | none =>
      rw [hcode] at hbyte
      rw [Action.bind_failed hbyte]
      exact .fault _ _ _
  | some byte =>
      rw [hcode] at hbyte
      rw [Action.bind_done hbyte]
      dsimp only
      cases OpCode.ofByte? byte with
      | none =>
          dsimp only
          rw [fail_run hlines]
          exact .fault _ _ _
      | some op =>
          cases op with
          | constant => exact agrees_constant hlines offset stack
          | negate => exact agrees_negate hlines offset stack
          | add => exact agrees_binary hlines offset _ stack
          | subtract => exact agrees_binary hlines offset _ stack
          | multiply => exact agrees_binary hlines offset _ stack
          | divide => exact agrees_binary hlines offset _ stack
          | «return» => exact agrees_return hlines offset stack

/-- **The machine in registers makes the run.** -/
theorem runs_of_runs {offset : Nat} {stack : Stack} {visits : List Chunk.Visit}
    {outcome : Outcome} (h : c.Runs offset stack visits outcome) :
    ∃ last, Runs c (of offset stack) (visits.map fun visit => (visit.1, visit.2.live))
      outcome.result (of last outcome.stack) := by
  induction h with
  | @stop offset stack after result hstep =>
      have hagrees := agrees hlines offset stack
      rw [hstep] at hagrees
      generalize hrun : (instruction c).run (of offset stack) = attempt at hagrees
      cases hagrees with
      | value v last after => exact ⟨last, .returned (sight_of offset stack) hrun⟩
      | fault error last after => exact ⟨last, .failed (sight_of offset stack) hrun⟩
  | @goOn offset next stack after visits outcome hstep _ ih =>
      have hagrees := agrees hlines offset stack
      rw [hstep] at hagrees
      generalize hrun : (instruction c).run (of offset stack) = attempt at hagrees
      cases hagrees with
      | goOn next after =>
          obtain ⟨last, hmore⟩ := ih
          exact ⟨last, .goOn (sight_of offset stack) hrun hmore⟩

end

/-- The machine in registers has one run only. -/
theorem Runs.unique {c : Chunk} {m after after' : Registers} {seen seen' : List (Nat × List Float)}
    {result result' : Except RuntimeError Float} (h : Runs c m seen result after)
    (h' : Runs c m seen' result' after') : seen' = seen ∧ result' = result ∧ after' = after := by
  induction h generalizing seen' with
  | returned hsight hstep =>
      cases h' with
      | returned hsight' hstep' =>
          cases hsight.symm.trans hsight'
          cases hstep.symm.trans hstep'
          exact ⟨rfl, rfl, rfl⟩
      | failed hsight' hstep' => cases hstep.symm.trans hstep'
      | goOn hsight' hstep' more' => cases hstep.symm.trans hstep'
  | failed hsight hstep =>
      cases h' with
      | returned hsight' hstep' => cases hstep.symm.trans hstep'
      | failed hsight' hstep' =>
          cases hsight.symm.trans hsight'
          cases hstep.symm.trans hstep'
          exact ⟨rfl, rfl, rfl⟩
      | goOn hsight' hstep' more' => cases hstep.symm.trans hstep'
  | goOn hsight hstep more ih =>
      cases h' with
      | returned hsight' hstep' => cases hstep.symm.trans hstep'
      | failed hsight' hstep' => cases hstep.symm.trans hstep'
      | goOn hsight' hstep' more' =>
          cases hsight.symm.trans hsight'
          cases hstep.symm.trans hstep'
          obtain ⟨rfl, rfl, rfl⟩ := ih more'
          exact ⟨rfl, rfl, rfl⟩

end Registers

end LoxArith
