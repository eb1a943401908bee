import LoxArith.Proofs.Chunk.History

set_option autoImplicit false

/-! # Chunks that are equal

Equality of chunks compares the runs of the line tables and not the lines they stand for. For chunks
that were built by calls this is no difference, since their tables are canonical: two of them are
equal if and only if they have the same bytes, the same line for each byte and equal constants
(`canonical_encoding`). Constants are equal as numbers, so a chunk with a constant that is no number
is not equal to itself.
-/

namespace LoxArith

namespace Chunk

/-- Constants are compared one by one. -/
theorem constants_beq_iff (xs ys : List Float) :
    (xs == ys) = true ↔ List.Forall₂ (fun x y => (x == y) = true) xs ys := by
  induction xs generalizing ys with
  | nil => cases ys <;> simp
  | cons x xs ih =>
      cases ys with
      | nil => simp
      | cons y ys => simp [ih]

theorem beq_iff (c c' : Chunk) :
    (c == c') = true ↔ c.code = c'.code ∧ c.lines = c'.lines ∧
      List.Forall₂ (fun x y => (x == y) = true) c.constants.toList c'.constants.toList := by
  obtain ⟨code, ⟨constants⟩, lines⟩ := c
  obtain ⟨code', ⟨constants'⟩, lines'⟩ := c'
  show (code == code' && (constants.toArray == constants'.toArray && lines == lines')) = true ↔ _
  simp only [Bool.and_eq_true, beq_iff_eq, List.beq_toArray, constants_beq_iff]
  exact and_congr_right fun _ => and_comm

/-- The lines of chunks that were built by calls are the same if each byte has the same one. -/
theorem lines_edited_empty_eq_iff {edits edits' : List Edit}
    (hsize : (edited {} edits).size = (edited {} edits').size) :
    (edited {} edits).lines = (edited {} edits').lines ↔
      ∀ i < (edited {} edits).size, (edited {} edits).line? i = (edited {} edits').line? i := by
  constructor
  · intro hlines i _
    rw [line?, line?, hlines]
  · intro hline
    rw [size_edited_empty, size_edited_empty] at hsize
    rw [lines_edited_empty, lines_edited_empty]
    refine congrArg LineTable.ofLines (List.ext_getElem? fun i => ?_)
    rw [List.getElem?_map, List.getElem?_map]
    by_cases hi : i < (written edits).length
    · rw [← line?_edited_empty, ← line?_edited_empty]
      apply hline
      rwa [size_edited_empty]
    · -- behind the bytes there are no lines
      rw [List.getElem?_eq_none (Nat.le_of_not_lt hi),
        List.getElem?_eq_none (hsize ▸ Nat.le_of_not_lt hi)]

end Chunk

/-- **Lines have one encoding.** A table that is built by appending has no empty run and no two
neighbouring runs of one line, and every table without both is built so; it has no runs if and only
if it covers no byte, and two of them are equal if and only if they decode to the same lines. The
table of a compiled chunk is one of them, and so is that of any chunk that was built by calls. Two
such chunks are therefore equal if and only if they have the same bytes, the same line for each
byte, and equal constants. -/
theorem canonical_encoding :
    (∀ table : LineTable, table.Canonical ↔ ∃ lines, table = LineTable.ofLines lines) ∧
    (∀ table : LineTable, table.Canonical → (table.isEmpty = true ↔ table.length = 0)) ∧
    (∀ table table' : LineTable, table.Canonical → table'.Canonical →
      ((table == table') = true ↔ table.decoded = table'.decoded)) ∧
    (∀ source chunk, compile source = .ok chunk →
      chunk.lines.Canonical ∧ ∃ edits, chunk = Chunk.edited {} edits) ∧
    ∀ edits edits' : List Chunk.Edit,
      (Chunk.edited {} edits).lines.Canonical ∧
      ((Chunk.edited {} edits == Chunk.edited {} edits') = true ↔
        (Chunk.edited {} edits).code = (Chunk.edited {} edits').code ∧
        (∀ i < (Chunk.edited {} edits).size,
          (Chunk.edited {} edits).line? i = (Chunk.edited {} edits').line? i) ∧
        List.Forall₂ (fun x y => (x == y) = true) (Chunk.edited {} edits).constants.toList
          (Chunk.edited {} edits').constants.toList) := by
  refine ⟨LineTable.canonical_iff, fun table h => h.isEmpty_iff, ?_, ?_, ?_⟩
  · intro table table' h h'
    rw [beq_iff_eq]
    exact h.eq_iff h'
  · intro source chunk h
    obtain ⟨edits, rfl⟩ := exists_edits_of_compile h
    exact ⟨Chunk.canonical_edited edits, edits, rfl⟩
  · intro edits edits'
    refine ⟨Chunk.canonical_edited edits, ?_⟩
    rw [Chunk.beq_iff]
    refine and_congr_right fun hcode => ?_
    have hsize : (Chunk.edited {} edits).size = (Chunk.edited {} edits').size :=
      congrArg Array.size hcode
    rw [Chunk.lines_edited_empty_eq_iff hsize]

/-- The two zeros are equal constants, and the order of calls that do not touch each other is of no
account. -/
theorem canonical_encoding_zeros :
    compile "8-2" = .ok (Phrase.difference.program 1) ∧
      (Phrase.difference.program 1).lines.Canonical ∧
      (Chunk.edited {} [.addConstant 0.0, .write 1 7]
        == Chunk.edited {} [.writeOp .return 7, .addConstant (-0.0)]) = true := by
  obtain ⟨-, -, -, hcompiled, hbuilt⟩ := canonical_encoding
  refine ⟨compile_difference, (hcompiled _ _ compile_difference).1, (hbuilt _ _).2.2 ?_⟩
  refine ⟨?_, fun i _ => ?_, ?_⟩
  · rw [← Array.toList_inj, Chunk.code_edited_empty, Chunk.code_edited_empty]
    rfl
  · rw [Chunk.line?_edited_empty, Chunk.line?_edited_empty]
    rfl
  · have hzeros : ((0.0 : Float) == -0.0) = true := by decide +kernel
    simpa [Chunk.edited, Chunk.Edit.perform, Chunk.addConstant, Chunk.write, Chunk.writeOp]
      using hzeros

end LoxArith
