import LoxArith.Proofs.Emission
import LoxArith.Proofs.Parser.Moves

set_option autoImplicit false

/-! # Reading a phrase

The grammar and the parser meet in two notions. A parser *faces* lexemes if they are what is
left of the text (`Parser.Faces`). It is *behind* a phrase if the phrase is what it has just
read, and its code is what was written meanwhile (`Parser.Behind`). Each rule of the grammar
is a move from one to the other.

Precedences take the place of goals: an operand of a goal is compiled with the bound
`Goal.bound`, and an operator of a tier binds as tightly as `Tier.precedence`.
-/

namespace LoxArith

/-! ## Goals and precedences -/

/-- How tightly the operators of a tier bind. -/
def Tier.precedence : Tier → Precedence
  | .sum => .term
  | .product => .factor

/-- The bound that the chains of a tier are compiled with. An expression takes whatever is
an operator at all. -/
def Tier.bound : Tier → Precedence
  | .sum => .assignment
  | .product => .factor

/-- The bound that an operand of a goal is compiled with. -/
def Goal.bound : Goal → Precedence
  | .unary => .unary
  | .chain tier | .more tier _ => tier.bound

theorem rule_kind (operator : Operator) :
    operator.kind.rule.following = some .binary ∧
      operator.kind.rule.precedence = operator.tier.precedence := by
  cases operator <;> exact ⟨rfl, rfl⟩

/-- The right operand of an operator is an operand of its chain. -/
theorem next_precedence (operator : Operator) :
    operator.kind.rule.precedence.next = operator.tier.operand.bound := by
  cases operator <;> rfl

theorem binaryOp?_kind (operator : Operator) :
    operator.kind.binaryOp? = some operator.opCode := by
  cases operator <;> rfl

/-- Three kinds of lexemes start an operand. -/
theorem leading_eq_some {kind : Kind} {handler : Handler}
    (h : kind.rule.leading = some handler) :
    (kind = .number ∧ handler = .number) ∨ (kind = .minus ∧ handler = .unary) ∨
      (kind = .leftParen ∧ handler = .grouping) := by
  cases kind <;> simp_all [Kind.rule, Rule.inert, Rule.unsupported]

/-- Only operators continue an operand. -/
theorem following_eq_some {kind : Kind} {handler : Handler}
    (h : kind.rule.following = some handler) :
    handler = .binary ∧ ∃ operator : Operator, kind = operator.kind := by
  cases kind with
  | plus => exact ⟨(Option.some.inj h).symm, .add, rfl⟩
  | minus => exact ⟨(Option.some.inj h).symm, .subtract, rfl⟩
  | star => exact ⟨(Option.some.inj h).symm, .multiply, rfl⟩
  | slash => exact ⟨(Option.some.inj h).symm, .divide, rfl⟩
  | _ => cases h

/-- The end of the text continues nothing. -/
theorem Goal.not_bound_le_none (goal : Goal) : ¬ goal.bound ≤ Precedence.none := by
  have htier : ∀ tier : Tier, ¬ tier.bound ≤ Precedence.none := by
    intro tier
    cases tier <;> decide
  cases goal with
  | unary => decide
  | chain tier => exact htier tier
  | more tier left => exact htier tier

/-- What follows does not bind as tightly as the goal asks for. -/
def Goal.StopsAt (goal : Goal) (ks : List Lexeme) : Prop :=
  ∀ l ∈ ks.head?, ¬ goal.bound ≤ l.kind.rule.precedence

namespace Parser

/-! ## What is left of the text -/

theorem read_previous (tokens : List Token) (p : Parser) :
    (read tokens p).previous = p.previous := by
  induction tokens generalizing p with
  | nil => rfl
  | cons token tokens ih =>
      cases token with
      | lexeme l => rfl
      | fault f line =>
          rw [read, ih]
          unfold complain
          split <;> rfl

/-- What is passed is the current lexeme. -/
theorem advance_previous (p : Parser) : p.advance.previous = p.current := read_previous _ _

/-- The parser has no complaint and the lexemes `ls` are left, the current one first. -/
structure Faces (p : Parser) (ls : List Lexeme) : Prop where
  complaint : p.complaint = none
  current : p.current = ls.headD p.last
  rest : p.rest = ls.tail.map Token.lexeme
  last : p.last.kind = .endOfText

namespace Faces

variable {p : Parser} {l : Lexeme} {ls : List Lexeme}

theorem of_eq {q : Parser} (h : p.Faces ls) (hcomplaint : q.complaint = p.complaint)
    (hcurrent : q.current = p.current) (hrest : q.rest = p.rest) (hlast : q.last = p.last) :
    q.Faces ls := by
  refine ⟨hcomplaint.trans h.complaint, ?_, hrest.trans h.rest, hlast ▸ h.last⟩
  rw [hcurrent, hlast, h.current]

theorem current_cons (h : p.Faces (l :: ls)) : p.current = l := h.current

/-- Passing a lexeme. -/
theorem advance (h : p.Faces (l :: ls)) :
    p.advance.Faces ls ∧ p.advance.previous = l ∧ p.advance.chunk = p.chunk := by
  have hrest : p.rest = ls.map Token.lexeme := h.rest
  cases ls with
  | nil =>
      have hadv : p.advance = { p with previous := p.current, current := p.last, rest := [] } := by
        rw [Parser.advance, hrest, List.map_nil, read]
      rw [hadv]
      exact ⟨⟨h.complaint, rfl, rfl, h.last⟩, h.current, rfl⟩
  | cons k ks =>
      have hadv : p.advance
          = { p with previous := p.current, current := k, rest := ks.map Token.lexeme } := by
        rw [Parser.advance, hrest, List.map_cons, read]
      rw [hadv]
      exact ⟨⟨h.complaint, rfl, rfl, h.last⟩, h.current, rfl⟩

/-- Passing the first lexeme of an operand, on a level of its own. -/
theorem openLevel_advance (h : p.Faces (l :: ls)) :
    p.openLevel.advance.Faces ls ∧ p.openLevel.advance.previous = l ∧
      p.openLevel.advance.chunk = p.chunk := by
  have hopened : p.openLevel.Faces (l :: ls) := h.of_eq rfl rfl rfl rfl
  exact hopened.advance

/-- A lexeme of another kind than the end of the text is a lexeme of the text. -/
theorem eq_cons {kind : Kind} (h : p.Faces ls) (hkind : p.current.kind = kind)
    (hend : kind ≠ .endOfText) : ∃ l ks, ls = l :: ks ∧ l.kind = kind := by
  cases ls with
  | nil =>
      have hlast : p.current = p.last := h.current
      exact absurd (hkind.symm.trans (hlast ▸ h.last)) hend
  | cons l ks => exact ⟨l, ks, rfl, h.current_cons ▸ hkind⟩

end Faces

/-- Loading a number whose index fits into a byte. -/
theorem emitConstant_eq {p : Parser} {value : Float}
    (hindex : (p.chunk.addConstant value).1 < 256) :
    p.emitConstant value = { p with chunk := p.chunk.load value p.previous.line } := by
  have hpool : p.poolIndex value = (UInt8.ofNat (p.chunk.addConstant value).1,
      { p with chunk := (p.chunk.addConstant value).2 }) :=
    if_pos hindex
  rw [emitConstant, hpool]
  rfl

/-- An index that does not fit into a byte is complained about. -/
theorem poolIndex_of_not_lt {p : Parser} {value : Float}
    (hindex : ¬ (p.chunk.addConstant value).1 < 256) :
    p.poolIndex value = (0, Parser.complainAtPrevious
      { p with chunk := (p.chunk.addConstant value).2 } .tooManyConstants) :=
  if_neg hindex

/-- An index that was given out without a complaint fits into a byte. -/
theorem lt_of_emitConstant {p : Parser} {value : Float}
    (h : (p.emitConstant value).complaint = none) : (p.chunk.addConstant value).1 < 256 := by
  by_contra hge
  have hspoilt : (p.emitConstant value).complaint = (p.poolIndex value).2.complaint := rfl
  rw [hspoilt, poolIndex_of_not_lt hge] at h
  exact complaint_complain _ _ h

/-- Compiling an operator that was just passed. -/
theorem compile_binary {operand : Precedence → Parser → Parser} {p : Parser} {operator : Operator}
    (hprevious : p.previous.kind = operator.kind) :
    Handler.binary.compile operand p
      = (operand operator.tier.operand.bound p).emit operator.opCode := by
  simp only [Handler.compile, hprevious, binaryOp?_kind, next_precedence]

/-! ## What has been read -/

/-- The parser is right behind the phrase `s`, which it began to read with the chunk `c`, and
the lexemes `ls` are left. -/
structure Behind (p : Parser) (s : Phrase) (c : Chunk) (ls : List Lexeme) : Prop where
  faces : p.Faces ls
  previous : p.previous = s.last
  chunk : p.chunk = s.emit c

namespace Behind

variable {operand : Precedence → Parser → Parser} {p : Parser} {s : Phrase} {c : Chunk}
  {ls : List Lexeme}

theorem closeLevel (h : p.Behind s c ls) : p.closeLevel.Behind s c ls :=
  ⟨h.faces.of_eq rfl rfl rfl rfl, h.previous, h.chunk⟩

/-- Behind a number: its index fits into a byte. -/
theorem number {literal : Lexeme} (hfaces : p.Faces ls) (hprevious : p.previous = literal)
    (hindex : (p.chunk.addConstant (literalValue literal.text)).1 < 256) :
    (Handler.number.compile operand p).Behind (.number literal) p.chunk ls := by
  subst hprevious
  have hcompile : Handler.number.compile operand p = _ := emitConstant_eq hindex
  rw [hcompile]
  exact ⟨hfaces.of_eq rfl rfl rfl rfl, rfl, rfl⟩

/-- Behind a negation. -/
theorem negate (h : (operand .unary p).Behind s p.chunk ls) :
    (Handler.unary.compile operand p).Behind (.negate s) p.chunk ls := by
  refine ⟨h.faces.of_eq rfl rfl rfl rfl, h.previous, ?_⟩
  show (operand .unary p).chunk.writeOp .negate (operand .unary p).previous.line
    = (s.emit p.chunk).writeOp .negate s.last.line
  rw [h.chunk, h.previous]

/-- Behind a group: its parenthesis is closed. -/
theorem group {close : Lexeme} (h : (operand .assignment p).Behind s p.chunk (close :: ls))
    (hclose : close.kind = .rightParen) :
    (Handler.grouping.compile operand p).Behind (.group s close) p.chunk ls := by
  have hcompile : Handler.grouping.compile operand p = (operand .assignment p).advance :=
    if_pos (h.faces.current_cons ▸ hclose)
  rcases h.faces.advance with ⟨hfaces, hprevious, hchunk⟩
  rw [hcompile]
  exact ⟨hfaces, hprevious, hchunk.trans h.chunk⟩

/-- Behind a binary operation: the operator was passed behind its left operand. -/
theorem binary {left : Phrase} {operator : Operator} (hprevious : p.previous.kind = operator.kind)
    (hchunk : p.chunk = left.emit c)
    (h : (operand operator.tier.operand.bound p).Behind s p.chunk ls) :
    (Handler.binary.compile operand p).Behind (.binary left operator s) c ls := by
  rw [compile_binary hprevious]
  refine ⟨h.faces.of_eq rfl rfl rfl rfl, h.previous, ?_⟩
  show (operand _ p).chunk.writeOp operator.opCode (operand _ p).previous.line
    = (s.emit (left.emit c)).writeOp operator.opCode s.last.line
  rw [h.chunk, h.previous, hchunk]

end Behind

/-! ## Going on behind an operand -/

section

variable {operand : Precedence → Parser → Parser} {bound : Precedence} {p : Parser}

/-- An operator that binds tightly enough is compiled. -/
theorem compileOperators_kind {operator : Operator} {joint : Lexeme} {ls : List Lexeme}
    (h : p.Faces (joint :: ls)) (hjoint : joint.kind = operator.kind)
    (hbound : bound ≤ operator.tier.precedence) (steps : Nat) :
    compileOperators operand bound (steps + 1) p
      = compileOperators operand bound steps (Handler.binary.compile operand p.advance) := by
  obtain ⟨hfollowing, hprecedence⟩ := rule_kind operator
  have hkind : p.current.kind = operator.kind := h.current_cons ▸ hjoint
  have hprevious : p.advance.previous.kind = operator.kind := h.advance.2.1 ▸ hjoint
  rw [compileOperators, hkind, hprecedence, if_pos hbound]
  simp only [hprevious, hfollowing]

/-- Anything that does not bind tightly enough is left. -/
theorem compileOperators_of_not_le (h : ¬ bound ≤ p.current.kind.rule.precedence)
    (steps : Nat) : compileOperators operand bound steps p = p := by
  cases steps with
  | zero => rfl
  | succ steps => rw [compileOperators, if_neg h]

/-- An operand begins with the handler of its first lexeme. -/
theorem compileOperand_leading {l : Lexeme} {ls : List Lexeme} {handler : Handler}
    (h : p.Faces (l :: ls)) (hleading : l.kind.rule.leading = some handler)
    (limit levels : Nat) (bound : Precedence) :
    compileOperand limit (levels + 1) bound p
      = (compileOperators (compileOperand limit levels) bound limit
          (handler.compile (compileOperand limit levels) p.openLevel.advance)).closeLevel := by
  rw [compileOperand]
  simp only [h.openLevel_advance.2.1, hleading]

end

/-- All that is still to be done for `result` is to go on behind the phrase `s`, with a step
for each of the lexemes `ks` that are left. -/
def Resumes (operand : Precedence → Parser → Parser) (bound : Precedence) (limit : Nat)
    (s : Phrase) (c : Chunk) (ks : List Lexeme) (result : Parser) : Prop :=
  ∃ q steps, q.Behind s c ks ∧ ks.length ≤ steps ∧ steps ≤ limit ∧
    result = compileOperators operand bound steps q

/-- An operand that was read to its end is behind its phrase. -/
theorem Resumes.behind {operand : Precedence → Parser → Parser} {goal : Goal} {limit : Nat}
    {s : Phrase} {c : Chunk} {ks : List Lexeme} {result : Parser} (hstops : goal.StopsAt ks)
    (h : Resumes operand goal.bound limit s c ks result) : result.Behind s c ks := by
  rcases h with ⟨q, steps, hbehind, -, -, rfl⟩
  have hstop : ¬ goal.bound ≤ q.current.kind.rule.precedence := by
    rw [hbehind.faces.current]
    cases ks with
    | nil =>
        rw [List.headD_nil, hbehind.faces.last]
        exact goal.not_bound_le_none
    | cons l ks => exact hstops l rfl
  rw [compileOperators_of_not_le hstop]
  exact hbehind

end Parser

end LoxArith
