import LoxArith.Proofs.Execution
import LoxArith.Proofs.Token.Place

set_option autoImplicit false

/-! # The lines of compiled code

An instruction belongs to the line of the lexeme that was passed last when it was written: a
load to the line of its number, an operator to the line on which its operand ends, which is the
line of a closing parenthesis if the operand is a group (`Phrase.attributed`). The return
belongs to the last line of the text. The line table says this for each byte
(`compiled_lines`), and since lines grow along a text, they grow along its code.
-/

namespace LoxArith

/-! ## Instructions with their lines -/

/-- The lines of the bytes of instructions, each of which has a line. -/
def linesOf (attributed : List (Instruction × Nat)) : List Nat :=
  attributed.flatMap fun i => List.replicate i.1.bytes.length i.2

theorem linesOf_append (is js : List (Instruction × Nat)) :
    linesOf (is ++ js) = linesOf is ++ linesOf js := by
  simp [linesOf]

/-- If the lines of the instructions grow, those of the bytes do. -/
theorem pairwise_linesOf {attributed : List (Instruction × Nat)}
    (h : attributed.Pairwise fun i j => i.2 ≤ j.2) : (linesOf attributed).Pairwise (· ≤ ·) := by
  apply List.pairwise_flatMap.2
  constructor
  · intro i _
    exact List.pairwise_replicate.2 (Or.inr (Nat.le_refl _))
  · apply h.imp
    intro i j hle x hx y hy
    rw [(List.mem_replicate.1 hx).2, (List.mem_replicate.1 hy).2]
    exact hle

namespace Phrase

/-- The instructions of a phrase with their lines. A load has the line of its number. An
operator has the line on which its operand ends, or its right one. -/
def attributed (index : Float → UInt8) : Phrase → List (Instruction × Nat)
  | number literal => [(.load (index (literalValue literal.text)), literal.line)]
  | group inner _ => inner.attributed index
  | negate operand => operand.attributed index ++ [(.negate, operand.last.line)]
  | binary left operator right =>
    left.attributed index ++ right.attributed index ++ [(.binary operator, right.last.line)]

theorem attributed_map_fst (index : Float → UInt8) (s : Phrase) :
    (s.attributed index).map Prod.fst = s.expr.instructions index := by
  induction s with
  | number literal => rfl
  | group inner close ih => exact ih
  | negate operand ih =>
      rw [attributed, List.map_append, ih]
      rfl
  | binary left operator right ihleft ihright =>
      rw [attributed, List.map_append, List.map_append, ihleft, ihright]
      rfl

/-- These are the lines of the bytes that are written. -/
theorem linesOf_attributed (index : Float → UInt8) (s : Phrase) :
    linesOf (s.attributed index) = s.lines := by
  induction s with
  | number literal => rfl
  | group inner close ih => exact ih
  | negate operand ih =>
      rw [attributed, linesOf_append, ih]
      rfl
  | binary left operator right ihleft ihright =>
      rw [attributed, linesOf_append, linesOf_append, ihleft, ihright]
      rfl

/-! ## Lines grow -/

/-- The lexemes of a phrase at which something ends: its numbers and closing parentheses, in
the order of the text. -/
def marks : Phrase → List Lexeme
  | number literal => [literal]
  | group inner close => inner.marks ++ [close]
  | negate operand => operand.marks
  | binary left _ right => left.marks ++ right.marks

theorem last_mem_marks (s : Phrase) : s.last ∈ s.marks := by
  induction s with
  | number literal => simp [last, marks]
  | group inner close _ => simp [last, marks]
  | negate operand ih => exact ih
  | binary left operator right _ ihright => exact List.mem_append_right _ ihright

/-- Each instruction has the line of a mark. -/
theorem exists_mark {index : Float → UInt8} {s : Phrase} {i : Instruction × Nat}
    (h : i ∈ s.attributed index) : ∃ l ∈ s.marks, i.2 = l.line := by
  induction s with
  | number literal =>
      obtain rfl := List.mem_singleton.1 h
      exact ⟨literal, by simp [marks], rfl⟩
  | group inner close ih =>
      obtain ⟨l, hl, heq⟩ := ih h
      exact ⟨l, List.mem_append_left _ hl, heq⟩
  | negate operand ih =>
      rcases List.mem_append.1 h with h | h
      · exact ih h
      · obtain rfl := List.mem_singleton.1 h
        exact ⟨operand.last, operand.last_mem_marks, rfl⟩
  | binary left operator right ihleft ihright =>
      rcases List.mem_append.1 h with h | h
      · rcases List.mem_append.1 h with h | h
        · obtain ⟨l, hl, heq⟩ := ihleft h
          exact ⟨l, List.mem_append_left _ hl, heq⟩
        · obtain ⟨l, hl, heq⟩ := ihright h
          exact ⟨l, List.mem_append_right _ hl, heq⟩
      · obtain rfl := List.mem_singleton.1 h
        exact ⟨right.last, List.mem_append_right _ right.last_mem_marks, rfl⟩

/-- No mark is on a later line than the last lexeme. -/
theorem line_le_last {s : Phrase} (h : s.marks.Pairwise fun l l' => l.line ≤ l'.line) :
    ∀ l ∈ s.marks, l.line ≤ s.last.line := by
  induction s with
  | number literal => simp [marks, last]
  | group inner close _ =>
      rw [marks, List.pairwise_append] at h
      intro l hl
      rcases List.mem_append.1 hl with hl | hl
      · exact h.2.2 l hl close (by simp)
      · rw [List.mem_singleton.1 hl]
        exact Nat.le_refl _
  | negate operand ih => exact ih h
  | binary left operator right _ ihright =>
      rw [marks, List.pairwise_append] at h
      intro l hl
      rcases List.mem_append.1 hl with hl | hl
      · exact h.2.2 l hl right.last right.last_mem_marks
      · exact ihright h.2.1 l hl

theorem attributed_le_last {index : Float → UInt8} {s : Phrase}
    (h : s.marks.Pairwise fun l l' => l.line ≤ l'.line) {i : Instruction × Nat}
    (hi : i ∈ s.attributed index) : i.2 ≤ s.last.line := by
  obtain ⟨l, hl, heq⟩ := exists_mark hi
  rw [heq]
  exact line_le_last h l hl

/-- Where the lines of the lexemes grow, those of the instructions do. -/
theorem pairwise_attributed (index : Float → UInt8) {s : Phrase}
    (h : s.marks.Pairwise fun l l' => l.line ≤ l'.line) :
    (s.attributed index).Pairwise fun i j => i.2 ≤ j.2 := by
  induction s with
  | number literal => exact List.pairwise_singleton _ _
  | group inner close ih => exact ih (List.pairwise_append.1 h).1
  | negate operand ih =>
      refine List.pairwise_append.2 ⟨ih h, List.pairwise_singleton _ _, ?_⟩
      intro i hi j hj
      rw [List.mem_singleton.1 hj]
      exact attributed_le_last (s := operand) h hi
  | binary left operator right ihleft ihright =>
      rw [marks, List.pairwise_append] at h
      rw [attributed, List.pairwise_append, List.pairwise_append]
      refine ⟨⟨ihleft h.1, ihright h.2.1, ?_⟩, List.pairwise_singleton _ _, ?_⟩
      · intro i hi j hj
        obtain ⟨l, hl, hleft⟩ := exists_mark hi
        obtain ⟨l', hl', hright⟩ := exists_mark hj
        rw [hleft, hright]
        exact h.2.2 l hl l' hl'
      · intro i hi j hj
        rw [List.mem_singleton.1 hj]
        rcases List.mem_append.1 hi with hi | hi
        · obtain ⟨l, hl, hleft⟩ := exists_mark hi
          rw [hleft]
          exact h.2.2 l hl right.last right.last_mem_marks
        · exact attributed_le_last h.2.1 hi

end Phrase

/-- The marks that a goal starts with: those of the beginning of the chain. -/
def Goal.marks : Goal → List Lexeme
  | .more _ left => left.marks
  | _ => []

/-- The marks of a phrase are lexemes of the text, in their order. -/
theorem Derives.marks_sublist {goal : Goal} {ls : List Lexeme} {s : Phrase}
    (h : Derives goal ls s) : s.marks.Sublist (goal.marks ++ ls) := by
  have hnil : ∀ tier : Tier, tier.operand.marks = [] := by
    intro tier
    cases tier <;> rfl
  induction h with
  | number _ => exact List.Sublist.refl _
  | negate _ _ ih => exact ih.cons _
  | group _ _ _ ih => exact (ih.append_right _).cons _
  | @chain tier _ _ _ _ _ _ ih ihothers =>
      rw [hnil, List.nil_append] at ih
      exact ihothers.trans (ih.append_right _)
  | stop => simp [Goal.marks]
  | @more tier _ joint ls ks left right _ _ _ _ _ ih ihothers =>
      rw [hnil, List.nil_append] at ih
      refine ihothers.trans ?_
      show ((left.marks ++ right.marks) ++ ks).Sublist (left.marks ++ joint :: (ls ++ ks))
      rw [List.append_assoc]
      exact ((ih.append_right ks).cons joint).append_left _

/-! ## The lines of a program -/

/-- Each byte of an instruction has a line. -/
theorem length_linesOf (is : List (Instruction × Nat)) :
    (linesOf is).length = (assemble (is.map Prod.fst)).length := by
  simp [linesOf, assemble, List.length_flatMap, List.map_map, Function.comp_def]

/-- The marks of a sentence and the end of the text follow each other. -/
theorem IsSentence.pairwise_marks {source : String} {s : Phrase} (h : IsSentence source s) :
    (s.marks ++ [(tokensOf source).last]).Pairwise fun l l' => l.line ≤ l'.line := by
  obtain ⟨ls, hitems, hs⟩ := h
  have hlexemes : (tokensOf source).lexemes = ls := by
    rw [Tokens.lexemes, hitems, List.filterMap_map]
    exact List.filterMap_some
  have hsublist : s.marks.Sublist ls := hs.marks_sublist
  have hpairwise := pairwise_lexemes source
  rw [hlexemes] at hpairwise
  exact (hpairwise.imp And.right).sublist (hsublist.append_right _)

/-- **The lines of compiled code.** The instructions of a text that compiles are those of its
one phrase, on the lines of `Phrase.attributed`, and a return on the last line of the text. The
line table has these lines for their bytes, and none behind the code. From one byte to a later
one the line does not fall. -/
theorem compiled_lines {source : String} {chunk : Chunk} (h : compile source = .ok chunk) :
    ∃ s is, (∀ other, IsSentence source other ↔ other = s) ∧
      is = s.attributed (fun v => UInt8.ofNat (bitsIndex s.expr.constants v))
        ++ [(.finish, 1 + lineFeeds source)] ∧
      chunk.code.toList = assemble (is.map Prod.fst) ∧
      (∀ offset, chunk.line? offset = (linesOf is)[offset]?) ∧
      chunk.lines.length = chunk.size ∧
      (∀ offset later line line', offset ≤ later → chunk.line? offset = some line →
        chunk.line? later = some line' → line ≤ line') ∧
      chunk.line? chunk.size = none := by
  obtain ⟨s, hs, -, hsmall, rfl⟩ := compile_eq_ok_iff.1 h
  have hlast := last_line_tokensOf source
  have hcodeOf := s.codeOf_program hsmall (tokensOf source).last.line
  generalize his :
    s.attributed (poolByte s.expr.constants) ++ [(.finish, 1 + lineFeeds source)] = is
  have hcode : (s.program (tokensOf source).last.line).code.toList
      = assemble (is.map Prod.fst) := by
    rw [hcodeOf.code, ← his, List.map_append, s.attributed_map_fst]
    rfl
  have hdecoded : (s.program (tokensOf source).last.line).lines.decoded = linesOf is := by
    rw [s.program_lines, ← his, linesOf_append, s.linesOf_attributed, hlast]
    rfl
  have hline : ∀ offset, (s.program (tokensOf source).last.line).line? offset
      = (linesOf is)[offset]? := by
    intro offset
    rw [Chunk.line?, LineTable.line?_eq, hdecoded]
  have hsize : (s.program (tokensOf source).last.line).size = (linesOf is).length := by
    rw [Chunk.size, ← Array.length_toList, hcode, length_linesOf]
  -- the return is behind all marks
  have hsorted : is.Pairwise fun i j => i.2 ≤ j.2 := by
    rw [← his]
    obtain ⟨hmarks, -, hbehind⟩ := List.pairwise_append.1 hs.pairwise_marks
    refine List.pairwise_append.2 ⟨s.pairwise_attributed _ hmarks, List.pairwise_singleton _ _, ?_⟩
    intro i hi j hj
    obtain ⟨l, hl, heq⟩ := Phrase.exists_mark hi
    rw [List.mem_singleton.1 hj, heq, ← hlast]
    exact hbehind l hl _ (List.mem_singleton_self _)
  refine ⟨s, is, hs.iff_eq, his.symm, hcode, hline, ?_, ?_, ?_⟩
  · rw [LineTable.length_eq, hdecoded, hsize]
  · intro offset later line line' hle hoffset hlater
    rw [hline] at hoffset hlater
    obtain ⟨hlt, rfl⟩ := List.getElem?_eq_some_iff.1 hoffset
    obtain ⟨hlt', rfl⟩ := List.getElem?_eq_some_iff.1 hlater
    rcases Nat.eq_or_lt_of_le hle with rfl | hlt''
    · exact Nat.le_refl _
    · exact List.pairwise_iff_getElem.1 (pairwise_linesOf hsorted) _ _ hlt hlt' hlt''
  · rw [hline, hsize]
    exact List.getElem?_eq_none (Nat.le_refl _)

/-- The phrase of an operator with its right operand on the next line. -/
def Phrase.broken : Phrase :=
  .binary (.number ⟨.number, "8", 0, 1⟩) .subtract (.group (.number ⟨.number, "2", 4, 2⟩)
    ⟨.rightParen, ")", 6, 3⟩)

theorem isSentence_broken : IsSentence "8-(\n2\n)\n" .broken := by
  refine ⟨[⟨.number, "8", 0, 1⟩, ⟨.minus, "-", 1, 1⟩, ⟨.leftParen, "(", 2, 1⟩,
    ⟨.number, "2", 4, 2⟩, ⟨.rightParen, ")", 6, 3⟩], by decide +kernel, ?_⟩
  exact Derives.pair .subtract (.single .product (.number rfl)) rfl
    (.single .product (.group rfl (.single .sum (.single .product (.number rfl))) rfl))

theorem compile_broken : compile "8-(\n2\n)\n" = .ok (Phrase.broken.program 4) := by
  have hline : (tokensOf "8-(\n2\n)\n").last.line = 4 := by decide +kernel
  exact compile_eq_ok_iff.2 ⟨_, isSentence_broken, by decide, by decide +kernel, by rw [hline]⟩

/-- The operator is on the line of the closing parenthesis. -/
theorem compiled_lines_broken :
    compile "8-(\n2\n)\n" = .ok (Phrase.broken.program 4) ∧
      (Phrase.broken.program 4).line? 4 = some 3 ∧
      (Phrase.broken.program 4).lines.length = (Phrase.broken.program 4).size ∧
      (Phrase.broken.program 4).line? (Phrase.broken.program 4).size = none := by
  obtain ⟨s, is, hs, rfl, -, hline, hlength, -, hnone⟩ := compiled_lines compile_broken
  obtain rfl : Phrase.broken = s := (hs _).1 isSentence_broken
  exact ⟨compile_broken, (hline 4).trans rfl, hlength, hnone⟩

end LoxArith
