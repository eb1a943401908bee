import LoxArith.Compile
import LoxArith.Proofs.Token.Spacing

set_option autoImplicit false

/-! # Parsing tokens that say the same

Two texts whose tokens say the same, each at its own places, are parsed alike: the states of
the two parsers differ in nothing but places (`Parser.Alike`). Each move of the parser keeps
them alike, and so does the recursion over the moves (`Parser.alike_compileOperand`). So both texts
compile or neither does; the code and the constants are the same, or the complaint is.

Lines go into the line table and into diagnostics, and nothing else looks at them.
-/

namespace LoxArith

/-- What a diagnostic says, whatever its line. -/
def Diagnostic.content (d : Diagnostic) : Location × String := (d.location, d.message)

namespace Parser

/-- The states differ in nothing but places, and in what they cost. -/
structure Alike (p q : Parser) : Prop where
  previous : p.previous.content = q.previous.content
  current : p.current.content = q.current.content
  rest : p.rest.map Token.content = q.rest.map Token.content
  last : p.last.content = q.last.content
  code : p.chunk.code = q.chunk.code
  constants : p.chunk.constants = q.chunk.constants
  complaint : p.complaint.map Diagnostic.content = q.complaint.map Diagnostic.content

theorem kind_eq_of_content {l l' : Lexeme} (h : l.content = l'.content) : l.kind = l'.kind :=
  congrArg Prod.fst h

theorem locationOf_eq {l l' : Lexeme} (h : l.content = l'.content) :
    locationOf l = locationOf l' := by
  have htext : l.text = l'.text := congrArg Prod.snd h
  rw [locationOf, locationOf, kind_eq_of_content h, htext]

namespace Alike

variable {p q : Parser}

/-! ## Moves -/

theorem complain (h : Alike p q) {d d' : Diagnostic} (hd : d.content = d'.content) :
    Alike (p.complain d) (q.complain d') := by
  have hcomplaint := h.complaint
  unfold Parser.complain
  cases hp : p.complaint with
  | none =>
      rw [hp, Option.map_none, eq_comm, Option.map_eq_none_iff] at hcomplaint
      rw [hcomplaint]
      exact { h with complaint := congrArg some hd }
  | some e =>
      rw [hp, Option.map_some, eq_comm] at hcomplaint
      obtain ⟨e', hq, -⟩ := Option.map_eq_some_iff.1 hcomplaint
      rw [hq]
      exact h

theorem complainAtPrevious (h : Alike p q) (fault : SyntaxFault) :
    Alike (p.complainAtPrevious fault) (q.complainAtPrevious fault) := by
  refine h.complain ?_
  show (_, _) = (_, _)
  rw [locationOf_eq h.previous]

theorem complainAtCurrent (h : Alike p q) (fault : SyntaxFault) :
    Alike (p.complainAtCurrent fault) (q.complainAtCurrent fault) := by
  refine h.complain ?_
  show (_, _) = (_, _)
  rw [locationOf_eq h.current]

/-- Reading on in tokens that say the same. -/
theorem read {tokens tokens' : List Token}
    (htokens : tokens.map Token.content = tokens'.map Token.content) (h : Alike p q) :
    Alike (Parser.read tokens p) (Parser.read tokens' q) := by
  induction tokens generalizing tokens' p q with
  | nil =>
      obtain rfl : tokens' = [] := List.map_eq_nil_iff.1 htokens.symm
      exact { h with current := h.last, rest := rfl }
  | cons token tokens ih =>
      cases tokens' with
      | nil => cases htokens
      | cons token' tokens' =>
          obtain ⟨htoken, hrest⟩ := List.cons.inj htokens
          cases token with
          | lexeme l =>
              cases token' with
              | fault f' line' => cases htoken
              | lexeme l' => exact { h with current := Except.ok.inj htoken, rest := hrest }
          | fault f line =>
              cases token' with
              | lexeme l' => cases htoken
              | fault f' line' =>
                  obtain rfl : f = f' := Except.error.inj htoken
                  show Alike (Parser.read tokens _) (Parser.read tokens' _)
                  exact ih hrest (h.complain rfl)

theorem advance (h : Alike p q) : Alike p.advance q.advance :=
  read h.rest { h with previous := h.current }

theorem expect (h : Alike p q) (kind : Kind) (fault : SyntaxFault) :
    Alike (p.expect kind fault) (q.expect kind fault) := by
  unfold Parser.expect
  rw [kind_eq_of_content h.current]
  split
  · exact h.advance
  · exact h.complainAtCurrent fault

theorem emitByte (h : Alike p q) (byte : UInt8) : Alike (p.emitByte byte) (q.emitByte byte) :=
  { h with code := congrArg (Array.push · byte) h.code }

theorem emit (h : Alike p q) (op : OpCode) : Alike (p.emit op) (q.emit op) :=
  h.emitByte op.toByte

/-- The pools are the same, so they give the same index. -/
theorem poolIndex (h : Alike p q) (value : Float) :
    (p.poolIndex value).1 = (q.poolIndex value).1 ∧
      Alike (p.poolIndex value).2 (q.poolIndex value).2 := by
  unfold Parser.poolIndex Chunk.addConstant
  dsimp only
  rw [h.constants]
  cases q.chunk.constants.findIdx? (· == value) with
  | some index =>
      dsimp only
      split
      · exact ⟨rfl, { h with constants := h.constants }⟩
      · exact ⟨rfl, complainAtPrevious { h with constants := h.constants } .tooManyConstants⟩
  | none =>
      have hpushed : Alike
          { p with chunk := { p.chunk with constants := q.chunk.constants.push value } }
          { q with chunk := { q.chunk with constants := q.chunk.constants.push value } } :=
        { h with constants := rfl }
      dsimp only
      split
      · exact ⟨rfl, hpushed⟩
      · exact ⟨rfl, hpushed.complainAtPrevious .tooManyConstants⟩

theorem emitConstant (h : Alike p q) (value : Float) :
    Alike (p.emitConstant value) (q.emitConstant value) := by
  obtain ⟨hindex, hpooled⟩ := h.poolIndex value
  unfold Parser.emitConstant
  dsimp only
  rw [hindex]
  exact (hpooled.emit .constant).emitByte _

theorem refuseLevel (h : Alike p q) : Alike p.refuseLevel q.refuseLevel := { h with }

theorem openLevel (h : Alike p q) : Alike p.openLevel q.openLevel := { h with }

theorem closeLevel (h : Alike p q) : Alike p.closeLevel q.closeLevel := { h with }

/-! ## The recursion -/

variable {operand operand' : Precedence → Parser → Parser}

theorem compileHandler
    (hoperand : ∀ {p q}, Alike p q → ∀ bound, Alike (operand bound p) (operand' bound q))
    (handler : Handler) (h : Alike p q) :
    Alike (handler.compile operand p) (handler.compile operand' q) := by
  cases handler with
  | grouping => exact (hoperand h _).expect _ _
  | unary => exact (hoperand h _).emit _
  | number =>
      have htext : p.previous.text = q.previous.text := congrArg Prod.snd h.previous
      show Alike (p.emitConstant (literalValue p.previous.text))
        (q.emitConstant (literalValue q.previous.text))
      rw [htext]
      exact h.emitConstant _
  | binary =>
      unfold Handler.compile
      dsimp only
      rw [kind_eq_of_content h.previous]
      split
      · exact (hoperand h _).emit _
      · exact hoperand h _

theorem compileOperators
    (hoperand : ∀ {p q}, Alike p q → ∀ bound, Alike (operand bound p) (operand' bound q))
    (bound : Precedence) (steps : Nat) (h : Alike p q) :
    Alike (LoxArith.compileOperators operand bound steps p)
      (LoxArith.compileOperators operand' bound steps q) := by
  induction steps generalizing p q with
  | zero => exact h
  | succ steps ih =>
      rw [LoxArith.compileOperators, LoxArith.compileOperators, kind_eq_of_content h.current]
      split
      · dsimp only
        rw [kind_eq_of_content h.advance.previous]
        split
        · exact h.advance.complainAtPrevious _
        · exact ih (compileHandler hoperand _ h.advance)
      · exact h

theorem compileOperand (steps levels : Nat) (bound : Precedence) (h : Alike p q) :
    Alike (LoxArith.compileOperand steps levels bound p)
      (LoxArith.compileOperand steps levels bound q) := by
  induction levels generalizing bound p q with
  | zero => exact h.refuseLevel.complainAtCurrent _
  | succ levels ih =>
      have hopened := h.openLevel.advance
      rw [LoxArith.compileOperand, LoxArith.compileOperand]
      rw [kind_eq_of_content hopened.previous]
      have hoperand : ∀ {p q}, Alike p q → ∀ bound,
          Alike (LoxArith.compileOperand steps levels bound p)
            (LoxArith.compileOperand steps levels bound q) := fun h bound => ih bound h
      refine closeLevel ?_
      split
      · exact hopened.complainAtPrevious _
      · exact compileOperators hoperand _ _ (compileHandler hoperand _ hopened)

/-- **Tokens that say the same are parsed alike.** -/
theorem parseTokens {tokens tokens' : Tokens}
    (hitems : tokens.items.map Token.content = tokens'.items.map Token.content)
    (hlast : tokens.last.content = tokens'.last.content) :
    Alike (LoxArith.parseTokens tokens) (LoxArith.parseTokens tokens') := by
  have hstart : Alike (Parser.start tokens) (Parser.start tokens') :=
    advance ⟨hlast, hlast, hitems, hlast, rfl, rfl, rfl⟩
  have hsteps : tokens.items.length = tokens'.items.length := by
    simpa using congrArg List.length hitems
  unfold LoxArith.parseTokens
  dsimp only
  rw [hsteps]
  exact ((hstart.compileOperand _ _ _).expect _ _).emit _

end Alike

end Parser

end LoxArith
