import LoxArith.Compile

set_option autoImplicit false

/-! # The moves of the parser

Compiling is made of five elementary moves: complaining, passing a lexeme, writing a byte,
asking for the index of a constant, and counting effort. `Respected R` says that a relation
`R` between states holds across each of them; `Respected.parseTokens` is the induction over
the recursion, done once: `R` then holds across the whole of it.

Two relations are used everywhere. Across any moves that end without a complaint, there was
no complaint before, only lexemes were passed and the pool stayed small enough for one-byte
indices (`Parser.Clean`). And the end of the text is the current lexeme only when nothing is
left (`Parser.Placed`).
-/

namespace LoxArith

namespace Parser

/-! ## Relations that hold across every move -/

/-- A relation between states that every elementary move respects. -/
structure Respected (R : Parser → Parser → Prop) : Prop where
  refl : ∀ p, R p p
  trans : ∀ {p q r}, R p q → R q r → R p r
  complain : ∀ p d, R p (p.complain d)
  advance : ∀ p, R p p.advance
  emitByte : ∀ p byte, R p (p.emitByte byte)
  poolIndex : ∀ p value, R p (p.poolIndex value).2
  effort : ∀ p effort, R p { p with effort := effort }

namespace Respected

variable {R : Parser → Parser → Prop} {operand : Precedence → Parser → Parser}

theorem expect (h : Respected R) (p : Parser) (kind : Kind) (fault : SyntaxFault) :
    R p (p.expect kind fault) := by
  unfold Parser.expect
  split
  · exact h.advance p
  · exact h.complain p _

theorem emitConstant (h : Respected R) (p : Parser) (value : Float) :
    R p (p.emitConstant value) :=
  h.trans (h.poolIndex p value) (h.trans (h.emitByte _ _) (h.emitByte _ _))

theorem compileHandler (h : Respected R) (hoperand : ∀ bound p, R p (operand bound p))
    (handler : Handler) (p : Parser) : R p (handler.compile operand p) := by
  cases handler with
  | grouping => exact h.trans (hoperand _ p) (h.expect _ _ _)
  | unary => exact h.trans (hoperand _ p) (h.emitByte _ _)
  | number => exact h.emitConstant p _
  | binary =>
      unfold Handler.compile
      dsimp only
      split
      · exact h.trans (hoperand _ p) (h.emitByte _ _)
      · exact hoperand _ p

theorem compileOperators (h : Respected R) (hoperand : ∀ bound p, R p (operand bound p))
    (bound : Precedence) (steps : Nat) (p : Parser) :
    R p (LoxArith.compileOperators operand bound steps p) := by
  induction steps generalizing p with
  | zero => exact h.refl p
  | succ steps ih =>
      rw [LoxArith.compileOperators]
      -- one more operator, one that is not supported, or none
      split
      · dsimp only
        split
        · exact h.trans (h.advance p) (h.complain _ _)
        · exact h.trans (h.advance p) (h.trans (h.compileHandler hoperand _ _) (ih _))
      · exact h.refl p

theorem compileOperand (h : Respected R) (steps levels : Nat) (bound : Precedence) (p : Parser) :
    R p (LoxArith.compileOperand steps levels bound p) := by
  induction levels generalizing bound p with
  | zero => exact h.trans (h.effort p _) (h.complain _ _)
  | succ levels ih =>
      rw [LoxArith.compileOperand]
      have hopened : R p p.openLevel.advance := h.trans (h.effort p _) (h.advance p.openLevel)
      refine h.trans (h.trans hopened ?_) (h.effort _ _)
      split
      · exact h.complain _ _
      · exact h.trans (h.compileHandler ih _ _) (h.compileOperators ih _ _ _)

/-- **What holds across every move holds across the whole of parsing.** -/
theorem parseTokens (h : Respected R) (tokens : Tokens) :
    R (Parser.start tokens) (LoxArith.parseTokens tokens) :=
  h.trans (h.compileOperand _ _ _ _) (h.trans (h.expect _ _ _) (h.emitByte _ _))

end Respected

/-! ## Parsing without a complaint -/

theorem complaint_complain (p : Parser) (d : Diagnostic) : (p.complain d).complaint ≠ none := by
  unfold complain
  split
  · simp
  · simp_all

theorem complain_of_complaint {p : Parser} (h : p.complaint ≠ none) (d : Diagnostic) :
    p.complain d = p := by
  unfold complain
  split
  · contradiction
  · rfl

theorem complaint_read {tokens : List Token} {p : Parser} (h : p.complaint ≠ none) :
    (read tokens p).complaint ≠ none := by
  induction tokens generalizing p with
  | nil => exact h
  | cons token tokens ih =>
      cases token with
      | lexeme l => exact h
      | fault f line => exact ih (by rw [complain_of_complaint h]; exact h)

/-- Reading without a complaint finds a lexeme or the end, but no fault. -/
theorem read_of_complaint {tokens : List Token} {p : Parser}
    (h : (read tokens p).complaint = none) :
    (tokens = [] ∧ read tokens p = { p with current := p.last, rest := [] }) ∨
      ∃ l rest, tokens = .lexeme l :: rest ∧
        read tokens p = { p with current := l, rest := rest } := by
  cases tokens with
  | nil => exact Or.inl ⟨rfl, rfl⟩
  | cons token rest =>
      cases token with
      | lexeme l => exact Or.inr ⟨l, rest, rfl, rfl⟩
      | fault f line =>
          -- a complaint about the fault would have stayed
          have hspoilt : (read rest (p.complain ⟨line, .unknown, f.message⟩)).complaint ≠ none :=
            complaint_read (complaint_complain p _)
          exact absurd h hspoilt

/-- From `p` to `q` no fault was passed, if `q` has no complaint. -/
structure Clean (p q : Parser) : Prop where
  complaint : p.complaint = none
  passed : ∃ ls : List Lexeme, p.rest = ls.map Token.lexeme ++ q.rest
  small : p.chunk.constants.size ≤ 256 → q.chunk.constants.size ≤ 256

theorem Clean.trans {p q r : Parser} (h : Clean p q) (h' : Clean q r) : Clean p r := by
  rcases h.passed with ⟨ls, hls⟩
  rcases h'.passed with ⟨ks, hks⟩
  refine ⟨h.complaint, ⟨ls ++ ks, ?_⟩, fun hp => h'.small (h.small hp)⟩
  rw [hls, hks, List.map_append, List.append_assoc]

/-- Nothing was passed if only the chunk changed, without a new constant. -/
theorem Clean.of_rest {p q : Parser} (hcomplaint : p.complaint = none) (hrest : p.rest = q.rest)
    (hconstants : p.chunk.constants = q.chunk.constants) : Clean p q :=
  ⟨hcomplaint, ⟨[], hrest⟩, fun hp => hconstants ▸ hp⟩

theorem clean_advance {p : Parser} (h : p.advance.complaint = none) : Clean p p.advance := by
  rcases read_of_complaint h with ⟨hrest, heq⟩ | ⟨l, rest, hrest, heq⟩
  · have hadv : p.advance = _ := heq
    rw [hadv] at h ⊢
    exact .of_rest h hrest rfl
  · have hadv : p.advance = _ := heq
    rw [hadv] at h ⊢
    exact ⟨h, ⟨[l], hrest⟩, id⟩

/-- An index that fits into a byte leaves a pool of at most 256 constants. -/
theorem size_addConstant_le {c : Chunk} {value : Float} (hsize : c.constants.size ≤ 256)
    (hindex : (c.addConstant value).1 < 256) : (c.addConstant value).2.constants.size ≤ 256 := by
  unfold Chunk.addConstant at hindex ⊢
  split
  · exact hsize
  · rename_i hnone
    simp only [hnone] at hindex
    simp only [Array.size_push]
    omega

theorem clean_poolIndex {p : Parser} {value : Float}
    (h : (p.poolIndex value).2.complaint = none) : Clean p (p.poolIndex value).2 := by
  unfold poolIndex at h ⊢
  dsimp only at h ⊢
  split at h
  · rename_i hindex
    rw [if_pos hindex]
    exact ⟨h, ⟨[], by rfl⟩, fun hp => size_addConstant_le hp hindex⟩
  · exact absurd h (complaint_complain _ _)

theorem respected_clean : Respected fun p q => q.complaint = none → Clean p q where
  refl _ h := .of_rest h rfl rfl
  trans h h' hr := (h (h' hr).complaint).trans (h' hr)
  complain p d h := absurd h (complaint_complain p d)
  advance _ h := clean_advance h
  emitByte _ _ h := .of_rest h rfl rfl
  poolIndex _ _ h := clean_poolIndex h
  effort _ _ h := .of_rest h rfl rfl

/-! ## The end of the text -/

/-- The end of the text is the current lexeme only when nothing is left. -/
structure Placed (p : Parser) : Prop where
  rest : ∀ l, Token.lexeme l ∈ p.rest → l.kind ≠ .endOfText
  current : p.current.kind = .endOfText → p.rest = []

theorem placed_read {tokens : List Token} {p : Parser}
    (h : ∀ l, Token.lexeme l ∈ tokens → l.kind ≠ .endOfText) : Placed (read tokens p) := by
  induction tokens generalizing p with
  | nil => exact ⟨by simp [read], fun _ => rfl⟩
  | cons token rest ih =>
      have hrest : ∀ l, Token.lexeme l ∈ rest → l.kind ≠ .endOfText :=
        fun l hl => h l (List.mem_cons_of_mem _ hl)
      cases token with
      | lexeme l => exact ⟨hrest, fun hend => absurd hend (h l List.mem_cons_self)⟩
      | fault f line => exact ih hrest

theorem respected_placed : Respected fun p q => Placed p → Placed q where
  refl _ h := h
  trans h h' hp := h' (h hp)
  complain _ _ h := by
    unfold complain
    split
    · exact ⟨h.rest, h.current⟩
    · exact h
  advance _ h := placed_read h.rest
  emitByte _ _ h := ⟨h.rest, h.current⟩
  poolIndex _ _ h := by
    unfold poolIndex complainAtPrevious complain
    dsimp only
    split
    · exact ⟨h.rest, h.current⟩
    · split
      · exact ⟨h.rest, h.current⟩
      · exact ⟨h.rest, h.current⟩
  effort _ _ h := ⟨h.rest, h.current⟩

/-! ## What no move changes -/

theorem last_complain (p : Parser) (d : Diagnostic) : (p.complain d).last = p.last := by
  unfold complain
  split <;> rfl

theorem last_read (tokens : List Token) (p : Parser) : (read tokens p).last = p.last := by
  induction tokens generalizing p with
  | nil => rfl
  | cons token tokens ih =>
      cases token with
      | lexeme l => rfl
      | fault f line => exact (ih _).trans (last_complain p _)

/-- The lexeme behind all others stays the same. -/
theorem respected_last : Respected fun p q => q.last = p.last where
  refl _ := rfl
  trans h h' := h'.trans h
  complain := last_complain
  advance _ := last_read _ _
  emitByte _ _ := rfl
  poolIndex p value := by
    unfold poolIndex complainAtPrevious
    dsimp only
    split
    · rfl
    · exact last_complain _ _
  effort _ _ := rfl

end Parser

end LoxArith
