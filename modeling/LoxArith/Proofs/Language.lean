import LoxArith.Proofs.Parser.Completeness
import LoxArith.Proofs.Parser.Soundness
import LoxArith.Proofs.Scanner

set_option autoImplicit false

/-! # The texts that compile

A text compiles if and only if it is a sentence that keeps within two limits, one on the
levels of its phrase and one on the distinct doubles of its literals. What it compiles to is
the code of the phrase, followed by the instruction that returns its value
(`compile_eq_ok_iff`).
-/

namespace LoxArith

/-- The chunk of a sentence: its code, and the return on the line of the end of the text. -/
def Phrase.program (s : Phrase) (line : Nat) : Chunk := (s.emit {}).writeOp .return line

/-! ## The pool of a program -/

theorem Phrase.program_pools (s : Phrase) (line : Nat) :
    (s.program line).Pools s.expr.constants := by
  have hpools := s.emit_pools Chunk.pools_nil
  exact ⟨hpools.bits, hpools.magnitudes⟩

theorem Chunk.Pools.size_constants {c : Chunk} {xs : List Float} (h : c.Pools xs) :
    c.constants.size = (distinctBits xs).length := by
  rw [← h.bits, List.length_map, Array.length_toList]

theorem Phrase.size_emit_nil (s : Phrase) :
    (s.emit {}).constants.size = (distinctBits s.expr.constants).length :=
  (s.program_pools 0).size_constants

namespace Parser

/-! ## The beginning and the end -/

/-- Without faults among the tokens, the parser starts in front of all lexemes. -/
theorem faces_start {tokens : Tokens} {ls : List Lexeme}
    (hitems : tokens.items = ls.map Token.lexeme) (hlast : tokens.last.kind = .endOfText) :
    (start tokens).Faces ls ∧ (start tokens).chunk = {} := by
  unfold start advance
  rw [hitems]
  cases ls with
  | nil => exact ⟨⟨rfl, rfl, rfl, hlast⟩, rfl⟩
  | cons l ls => exact ⟨⟨rfl, rfl, rfl, hlast⟩, rfl⟩

/-- A kind that was expected without a complaint is there. -/
theorem kind_of_expect {p : Parser} {kind : Kind} {fault : SyntaxFault}
    (h : (p.expect kind fault).complaint = none) :
    p.current.kind = kind ∧ p.expect kind fault = p.advance := by
  by_cases hkind : p.current.kind = kind
  · exact ⟨hkind, if_pos hkind⟩
  · have hspoilt : p.expect kind fault = p.complainAtCurrent fault := if_neg hkind
    rw [hspoilt] at h
    exact absurd h (complaint_complain _ _)

/-- The operand that a whole text is. -/
def wholeOperand (tokens : Tokens) : Parser :=
  compileOperand tokens.items.length maxNesting .assignment (start tokens)

/-- Without a complaint, the end of the text is behind the operand. -/
theorem parseTokens_eq {tokens : Tokens} (h : (parseTokens tokens).complaint = none) :
    (wholeOperand tokens).complaint = none ∧ (wholeOperand tokens).current.kind = .endOfText ∧
      parseTokens tokens = (wholeOperand tokens).advance.emit .return := by
  obtain ⟨hkind, hexpect⟩ := kind_of_expect h
  refine ⟨?_, hkind, congrArg (fun p => p.emit .return) hexpect⟩
  have hadvance : (wholeOperand tokens).advance.complaint = none := hexpect ▸ h
  exact (clean_advance hadvance).complaint

/-- If the whole text is parsed without a complaint, no token is a fault. -/
theorem items_eq_map {tokens : Tokens}
    (hkinds : ∀ l, Token.lexeme l ∈ tokens.items → l.kind ≠ .endOfText)
    (h : (parseTokens tokens).complaint = none) :
    ∃ ls : List Lexeme, tokens.items = ls.map Token.lexeme := by
  obtain ⟨-, hend, heq⟩ := parseTokens_eq h
  -- the text is used up at the end
  have hrest : (parseTokens tokens).rest = [] := by
    have hplaced : (wholeOperand tokens).rest = [] :=
      (respected_placed.compileOperand _ _ _ _ (placed_read hkinds)).current hend
    rw [heq]
    show (read (wholeOperand tokens).rest _).rest = []
    rw [hplaced]
    rfl
  have hclean := respected_clean.parseTokens tokens h
  rcases hclean.passed with ⟨ls, hls⟩
  rw [hrest, List.append_nil] at hls
  rcases read_of_complaint hclean.complaint with ⟨hitems, -⟩ | ⟨l, rest, hitems, hstart⟩
  · exact ⟨[], hitems⟩
  · have hfirst : start tokens = _ := hstart
    rw [hfirst] at hls
    obtain rfl : rest = ls.map Token.lexeme := hls
    exact ⟨l :: ls, hitems⟩

/-! ## The whole text -/

/-- A text that is parsed without a complaint is a sentence, and was parsed as one. -/
theorem sentence_of_parseTokens {tokens : Tokens}
    (hkinds : ∀ l, Token.lexeme l ∈ tokens.items → l.kind ≠ .endOfText)
    (hlast : tokens.last.kind = .endOfText) (h : (parseTokens tokens).complaint = none) :
    ∃ ls s, tokens.items = ls.map Token.lexeme ∧ Derives (.chain .sum) ls s ∧
      s.levels ≤ maxNesting ∧ (wholeOperand tokens).Behind s {} [] := by
  obtain ⟨ls, hitems⟩ := items_eq_map hkinds h
  obtain ⟨hfaces, hchunk⟩ := faces_start hitems hlast
  obtain ⟨hcomplaint, hend, -⟩ := parseTokens_eq h
  have hlength : ls.length ≤ tokens.items.length := by simp [hitems]
  obtain ⟨ks, -, reads, s, rfl, hs, hlevels, hbehind⟩ :=
    @FindsOperands.finds _ _ _ (findsOperands tokens.items.length maxNesting) (.chain .sum)
      (start tokens) ls (Or.inr ⟨.sum, rfl⟩) hfaces hlength hcomplaint
  rw [hchunk] at hbehind
  cases ks with
  | nil => exact ⟨reads, s, by simpa using hitems, hs, hlevels, hbehind⟩
  | cons k ks =>
      have hcurrent : (wholeOperand tokens).current = k := hbehind.faces.current_cons
      exact absurd (hcurrent ▸ hend) (hkinds k (by simp [hitems]))

/-- A sentence that keeps within the limits is parsed as one. -/
theorem behind_wholeOperand {tokens : Tokens} {ls : List Lexeme} {s : Phrase}
    (hitems : tokens.items = ls.map Token.lexeme) (hlast : tokens.last.kind = .endOfText)
    (hs : Derives (.chain .sum) ls s) (hlevels : s.levels ≤ maxNesting)
    (hsize : (s.emit {}).constants.size ≤ 256) : (wholeOperand tokens).Behind s {} [] := by
  obtain ⟨hfaces, hchunk⟩ := faces_start hitems hlast
  have hlength : ls.length ≤ tokens.items.length := by simp [hitems]
  have hcomplete : CompletesOperand tokens.items.length (.chain .sum) ls s := completes _ hs
  rw [← hchunk] at hsize ⊢
  exact ResumesOperand.behind (Goal.stopsAt_nil _) (hcomplete (Nat.le_refl _) (Goal.stopsAt_nil _)
    hlevels hsize (by simpa using hfaces) (by simpa using hlength))

/-- Behind the operand of a whole text the return is written. -/
theorem parseTokens_of_behind {tokens : Tokens} {s : Phrase}
    (hlast : tokens.last.kind = .endOfText) (h : (wholeOperand tokens).Behind s {} []) :
    (parseTokens tokens).complaint = none ∧
      (parseTokens tokens).chunk = s.program tokens.last.line := by
  have hlast' : (wholeOperand tokens).last = tokens.last :=
    (respected_last.compileOperand _ _ _ _).trans (last_read _ _)
  have hcurrent : (wholeOperand tokens).current = tokens.last := h.faces.current.trans hlast'
  have hrest : (wholeOperand tokens).rest = [] := h.faces.rest
  have hparse : parseTokens tokens = (wholeOperand tokens).advance.emit .return :=
    congrArg (fun p : Parser => p.emit .return) (if_pos (hcurrent ▸ hlast))
  rw [hparse, Parser.advance, hrest]
  refine ⟨h.faces.complaint, ?_⟩
  show (wholeOperand tokens).chunk.writeOp .return (wholeOperand tokens).current.line = _
  rw [h.chunk, hcurrent, Phrase.program]

end Parser

/-! ## Compiling -/

theorem compileTokens_eq_ok_iff {tokens : Tokens} {chunk : Chunk} :
    compileTokens tokens = .ok chunk ↔
      (parseTokens tokens).complaint = none ∧ (parseTokens tokens).chunk = chunk := by
  unfold compileTokens
  dsimp only
  split
  · rename_i hnone
    simp [hnone]
  · rename_i d hsome
    simp [hsome]

/-- **The texts that compile, and what they compile to.** -/
theorem compile_eq_ok_iff {source : String} {chunk : Chunk} :
    compile source = .ok chunk ↔
      ∃ s, IsSentence source s ∧ s.levels ≤ maxNesting ∧
        (distinctBits s.expr.constants).length ≤ 256 ∧
        chunk = s.program (tokensOf source).last.line := by
  have hlast := kind_last_tokensOf source
  rw [compile, compileTokens_eq_ok_iff]
  constructor
  · rintro ⟨hcomplaint, rfl⟩
    obtain ⟨ls, s, hitems, hs, hlevels, hbehind⟩ :=
      Parser.sentence_of_parseTokens (fun l hl => ne_endOfText_of_mem_tokensOf hl) hlast hcomplaint
    have hsmall : (Parser.start (tokensOf source)).chunk.constants.size ≤ 256 := by
      rw [(Parser.faces_start hitems hlast).2]
      exact Nat.zero_le _
    obtain ⟨-, hchunk⟩ := Parser.parseTokens_of_behind hlast hbehind
    have hsize := (Parser.respected_clean.parseTokens _ hcomplaint).small hsmall
    rw [hchunk, (s.program_pools _).size_constants] at hsize
    exact ⟨s, ⟨ls, hitems, hs⟩, hlevels, hsize, hchunk⟩
  · rintro ⟨s, ⟨ls, hitems, hs⟩, hlevels, hsize, rfl⟩
    rw [← s.size_emit_nil] at hsize
    exact Parser.parseTokens_of_behind hlast
      (Parser.behind_wholeOperand hitems hlast hs hlevels hsize)

/-- **The language of the compiler.** A text compiles if and only if no token is a fault, the
lexemes form exactly one phrase, at most 512 of its levels are open at a time, and its
literals denote at most 256 doubles. -/
theorem compiles_iff (source : String) :
    (∃ chunk, compile source = .ok chunk) ↔
      ∃ lexemes : List Lexeme, (tokensOf source).items = lexemes.map Token.lexeme ∧
        ∃ s, (∀ other, Derives (.chain .sum) lexemes other ↔ other = s) ∧ s.levels ≤ 512 ∧
          (distinctBits s.expr.constants).length ≤ 256 := by
  constructor
  · rintro ⟨chunk, h⟩
    obtain ⟨s, ⟨ls, hitems, hs⟩, hlevels, hsize, -⟩ := compile_eq_ok_iff.1 h
    refine ⟨ls, hitems, s, ?_, hlevels, hsize⟩
    intro other
    constructor
    · intro hother
      exact (hother.unique hs rfl (Goal.ends_nil _) (Goal.ends_nil _)).2
    · rintro rfl
      exact hs
  · rintro ⟨ls, hitems, s, hunique, hlevels, hsize⟩
    exact ⟨_, compile_eq_ok_iff.2 ⟨s, ⟨ls, hitems, (hunique s).2 rfl⟩, hlevels, hsize, rfl⟩⟩

/-! ## A small sentence -/

/-- The phrase of `8-2`. -/
def Phrase.difference : Phrase :=
  .binary (.number ⟨.number, "8", 0, 1⟩) .subtract (.number ⟨.number, "2", 2, 1⟩)

theorem isSentence_difference : IsSentence "8-2" .difference := by
  refine ⟨[⟨.number, "8", 0, 1⟩, ⟨.minus, "-", 1, 1⟩, ⟨.number, "2", 2, 1⟩], by decide +kernel, ?_⟩
  exact Derives.pair .subtract (.single .product (.number rfl)) rfl
    (.single .product (.number rfl))

theorem compile_difference : compile "8-2" = .ok (Phrase.difference.program 1) := by
  have hline : (tokensOf "8-2").last.line = 1 := by decide +kernel
  exact compile_eq_ok_iff.2
    ⟨_, isSentence_difference, by decide, by decide +kernel, by rw [hline]⟩

end LoxArith
