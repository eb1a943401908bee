import LoxArith.Proofs.Language
import LoxArith.Proofs.LineTable

set_option autoImplicit false

/-! # How a chunk was built

A chunk is built by three kinds of calls: a byte is written, an instruction is written, a constant
is asked for (`Edit`). Whatever the calls were, the bytes and their lines are those that were
written, in their order (`edited_code`, `edited_lines`), and asking for constants does not touch
them. So the line of a byte is the one it was written with (`lines_of_history`).

The line table of such a chunk is built by appending (`canonical_edited`). Compiled chunks are
chunks that were built by calls (`exists_edits_of_compile`).
-/

namespace LoxArith

namespace Chunk

/-- A call that changes a chunk. -/
inductive Edit
  | write (byte : UInt8) (line : Nat)
  | writeOp (op : OpCode) (line : Nat)
  | addConstant (value : Float)

namespace Edit

/-- The chunk after a call. -/
def perform (c : Chunk) : Edit → Chunk
  | write byte line => c.write byte line
  | writeOp op line => c.writeOp op line
  | addConstant value => (c.addConstant value).2

/-- The byte that a call writes, and its line. -/
def written? : Edit → Option (UInt8 × Nat)
  | write byte line => some (byte, line)
  | writeOp op line => some (op.toByte, line)
  | addConstant _ => none

/-- The constant that a call asks for. -/
def asked? : Edit → Option Float
  | addConstant value => some value
  | _ => none

/-- **What a call does.** It writes a byte, or it asks for a constant. -/
theorem perform_cases (c : Chunk) (edit : Edit) :
    (∃ byte line, edit.written? = some (byte, line) ∧ edit.asked? = none ∧
      edit.perform c = c.write byte line) ∨
    ∃ value, edit.written? = none ∧ edit.asked? = some value ∧
      edit.perform c = (c.addConstant value).2 := by
  cases edit with
  | write byte line => exact Or.inl ⟨byte, line, rfl, rfl, rfl⟩
  | writeOp op line => exact Or.inl ⟨op.toByte, line, rfl, rfl, rfl⟩
  | addConstant value => exact Or.inr ⟨value, rfl, rfl, rfl⟩

end Edit

/-- The chunk after some calls. -/
def edited (c : Chunk) (edits : List Edit) : Chunk := edits.foldl Edit.perform c

/-- The bytes that some calls write, with their lines. -/
def written (edits : List Edit) : List (UInt8 × Nat) := edits.filterMap Edit.written?

/-- The constants that some calls ask for. -/
def asked (edits : List Edit) : List Float := edits.filterMap Edit.asked?

theorem edited_cons (c : Chunk) (edit : Edit) (edits : List Edit) :
    c.edited (edit :: edits) = (edit.perform c).edited edits := rfl

theorem edited_append (c : Chunk) (edits later : List Edit) :
    c.edited (edits ++ later) = (c.edited edits).edited later :=
  List.foldl_append

theorem written_cons (edit : Edit) (edits : List Edit) :
    written (edit :: edits) = edit.written?.toList ++ written edits := by
  rw [written, List.filterMap_cons]
  cases edit.written? <;> rfl

theorem asked_cons (edit : Edit) (edits : List Edit) :
    asked (edit :: edits) = edit.asked?.toList ++ asked edits := by
  rw [asked, List.filterMap_cons]
  cases edit.asked? <;> rfl

/-! ## Code and lines -/

/-- The code grows by the bytes that are written. -/
theorem edited_code (c : Chunk) (edits : List Edit) :
    (c.edited edits).code.toList = c.code.toList ++ (written edits).map Prod.fst := by
  induction edits generalizing c with
  | nil => simp [edited, written]
  | cons edit edits ih =>
      rw [edited_cons, ih, written_cons]
      rcases edit.perform_cases c with ⟨byte, line, hwritten, -, hperform⟩ |
        ⟨value, hwritten, -, hperform⟩
      · simp [hwritten, hperform, write]
      · simp [hwritten, hperform, addConstant_code]

/-- The line table grows by their lines. -/
theorem edited_lines (c : Chunk) (edits : List Edit) :
    (c.edited edits).lines = ((written edits).map Prod.snd).foldl LineTable.append c.lines := by
  induction edits generalizing c with
  | nil => rfl
  | cons edit edits ih =>
      rw [edited_cons, ih, written_cons]
      rcases edit.perform_cases c with ⟨byte, line, hwritten, -, hperform⟩ |
        ⟨value, hwritten, -, hperform⟩
      · simp [hwritten, hperform, write]
      · simp [hwritten, hperform, addConstant_lines]

/-- The line table of a chunk that was built by calls is built by appending. -/
theorem lines_edited_empty (edits : List Edit) :
    (edited {} edits).lines = LineTable.ofLines ((written edits).map Prod.snd) :=
  edited_lines {} edits

theorem canonical_edited (edits : List Edit) : (edited {} edits).lines.Canonical := by
  rw [lines_edited_empty]
  exact LineTable.canonical_ofLines _

theorem code_edited_empty (edits : List Edit) :
    (edited {} edits).code.toList = (written edits).map Prod.fst := by
  rw [edited_code]
  rfl

theorem size_edited_empty (edits : List Edit) :
    (edited {} edits).size = (written edits).length := by
  rw [size, ← Array.length_toList, code_edited_empty, List.length_map]

/-- The line of a byte is the one it was written with. -/
theorem line?_edited_empty (edits : List Edit) (offset : Nat) :
    (edited {} edits).line? offset = (written edits)[offset]?.map Prod.snd := by
  rw [line?, LineTable.line?_eq, lines_edited_empty, LineTable.decoded_ofLines, List.getElem?_map]

end Chunk

/-! ## Compiled chunks -/

/-- What reading a phrase does to the chunk is done by calls. -/
theorem Phrase.exists_edits_emit (s : Phrase) (c : Chunk) : ∃ edits, s.emit c = c.edited edits := by
  induction s generalizing c with
  | number literal =>
      exact ⟨[.addConstant (literalValue literal.text), .writeOp .constant literal.line,
        .write (UInt8.ofNat (c.addConstant (literalValue literal.text)).1) literal.line], rfl⟩
  | group inner close ih => exact ih c
  | negate operand ih =>
      obtain ⟨edits, hoperand⟩ := ih c
      refine ⟨edits ++ [.writeOp .negate operand.last.line], ?_⟩
      rw [emit, hoperand, Chunk.edited_append]
      rfl
  | binary left operator right ihleft ihright =>
      obtain ⟨edits, hleft⟩ := ihleft c
      obtain ⟨edits', hright⟩ := ihright (c.edited edits)
      refine ⟨edits ++ edits' ++ [.writeOp operator.opCode right.last.line], ?_⟩
      rw [emit, hleft, hright, Chunk.edited_append, Chunk.edited_append]
      rfl

theorem Phrase.exists_edits_program (s : Phrase) (line : Nat) :
    ∃ edits, s.program line = Chunk.edited {} edits := by
  obtain ⟨edits, hemit⟩ := s.exists_edits_emit {}
  refine ⟨edits ++ [.writeOp .return line], ?_⟩
  rw [program, hemit, Chunk.edited_append]
  rfl

/-- A compiled chunk was built by calls. -/
theorem exists_edits_of_compile {source : String} {chunk : Chunk} (h : compile source = .ok chunk) :
    ∃ edits, chunk = Chunk.edited {} edits := by
  obtain ⟨s, -, -, -, rfl⟩ := compile_eq_ok_iff.1 h
  exact s.exists_edits_program _

namespace Chunk

/-! ## The lines of a history -/

/-- **A line table is a list of lines.** Appending puts a line at its end, a lookup looks into it,
and the length is its length; as long as that is a word, and the next number too, all of this is
done in words. In a chunk that was built by calls, there is a line for each byte, and it is the one
that the byte was written with: what writes a byte does not touch the constants, and what asks for
a constant does not touch code and lines. -/
theorem lines_of_history :
    (∀ (table : LineTable) (line offset : Nat),
      (table.append line).decoded = table.decoded ++ [line] ∧
      table.line? offset = table.decoded[offset]? ∧
      (table.line? offset = none ↔ table.decoded.length ≤ offset) ∧
      table.length = table.decoded.length ∧
      (table.length < 2 ^ 64 - 1 →
        table.append? line = some (table.append line) ∧
        LineTable.resolve? offset 0 table.runs.toList = some (table.line? offset) ∧
        LineTable.sum? 0 table.runs.toList = some table.length)) ∧
    (∀ edits : List Edit,
      (edited {} edits).lines.decoded.length = (edited {} edits).size ∧
      ∀ i, (edited {} edits).code[i]? = (written edits)[i]?.map Prod.fst ∧
        (edited {} edits).line? i = (written edits)[i]?.map Prod.snd) ∧
    ∀ (c : Chunk) (byte : UInt8) (op : OpCode) (line : Nat) (value : Float),
      (c.write byte line).constants = c.constants ∧ (c.writeOp op line).constants = c.constants ∧
      (c.addConstant value).2.code = c.code ∧ (c.addConstant value).2.lines = c.lines := by
  refine ⟨?_, ?_, ?_⟩
  · intro table line offset
    have hline := table.line?_eq offset
    refine ⟨table.decoded_append line, hline, ?_, table.length_eq, ?_⟩
    · rw [hline, List.getElem?_eq_none_iff]
    · intro hlength
      have hwords : table.length + 1 < wordCount := by
        unfold wordCount
        omega
      exact LineTable.in_words hwords line offset
  · intro edits
    constructor
    · rw [lines_edited_empty, LineTable.decoded_ofLines, List.length_map, size_edited_empty]
    · intro i
      constructor
      · rw [← Array.getElem?_toList, code_edited_empty, List.getElem?_map]
      · exact line?_edited_empty edits i
  · intro c byte op line value
    exact ⟨rfl, rfl, c.addConstant_code value, c.addConstant_lines value⟩

/-- A table with empty runs, at the end as well. -/
def emptyRuns : LineTable := ⟨#[⟨7, 0⟩, ⟨3, 2⟩, ⟨3, 0⟩]⟩

/-- An empty run at the end grows as any other run does. -/
theorem lines_of_history_emptyRuns :
    emptyRuns.length < 2 ^ 64 - 1 ∧ (emptyRuns.append 3).runs = #[⟨7, 0⟩, ⟨3, 2⟩, ⟨3, 1⟩] ∧
      emptyRuns.append? 3 = some (emptyRuns.append 3) ∧
      LineTable.resolve? 1 0 emptyRuns.runs.toList = some (some 3) := by
  have hline : emptyRuns.line? 1 = some 3 := by
    rw [LineTable.line?_eq]
    rfl
  obtain ⟨-, -, -, -, hwords⟩ := lines_of_history.1 emptyRuns 3 1
  obtain ⟨happend, hresolve, -⟩ := hwords (by decide)
  exact ⟨by decide, by decide, happend, hresolve.trans (congrArg some hline)⟩

end Chunk

end LoxArith
