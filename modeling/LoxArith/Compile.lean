import LoxArith.Parser

set_option autoImplicit false

/-! # Compiling an expression

The compiler reads a text once and builds no tree. Where an operand must start it looks up
the leading handler of the lexeme; behind an operand it goes on as long as the next lexeme
binds at least as tightly as asked for, and uses the following handler. A handler may ask
for further operands, one level deeper.

At most `maxNesting` levels are open at a time. The level is what the recursion runs on; in
a level, every further operator passes a lexeme, so the number of tokens bounds the loop.
-/

namespace LoxArith

/-- The capacity of the operand stack. -/
def stackCapacity : Nat := 256

/-- How many operand levels may be open at a time. -/
def maxNesting : Nat := 2 * stackCapacity

/-- The instruction of a binary operator. -/
def Kind.binaryOp? : Kind → Option OpCode
  | .plus => some .add
  | .minus => some .subtract
  | .star => some .multiply
  | .slash => some .divide
  | _ => none

/-- Compiles what a lexeme that was just passed begins or continues; `operand` compiles an
operand one level deeper. The right operand of an operator must bind tighter than it, and
its instruction follows the code of both operands. -/
def Handler.compile (operand : Precedence → Parser → Parser) : Handler → Parser → Parser
  | .grouping, p => (operand .assignment p).expect .rightParen .expectedRightParen
  | .unary, p => (operand .unary p).emit .negate
  | .binary, p =>
    let operator := p.previous.kind
    let p := operand operator.rule.precedence.next p
    match operator.binaryOp? with
    | some op => p.emit op
    | none => p
  | .number, p => p.emitConstant (literalValue p.previous.text)

/-- Goes on behind an operand: compiles operators that bind at least as tightly as `bound`,
at most `steps` of them. -/
def compileOperators (operand : Precedence → Parser → Parser) (bound : Precedence) :
    Nat → Parser → Parser
  | 0, p => p
  | steps + 1, p =>
    if bound ≤ p.current.kind.rule.precedence then
      let p := p.advance
      match p.previous.kind.rule.following with
      | none => p.complainAtPrevious .unsupportedOperator
      | some handler => compileOperators operand bound steps (handler.compile operand p)
    else p

/-- Compiles an expression whose operators bind at least as tightly as the given level,
while `levels` more operand levels may be opened. `steps` bounds the operators in a row; the
number of tokens is always enough. -/
def compileOperand (steps : Nat) : Nat → Precedence → Parser → Parser
  | 0, _, p => p.refuseLevel.complainAtCurrent .nestedTooDeeply
  | levels + 1, bound, p =>
    let p := p.openLevel.advance
    let p := match p.previous.kind.rule.leading with
      | none => p.complainAtPrevious .expectedExpression
      | some handler =>
        compileOperators (compileOperand steps levels) bound steps
          (handler.compile (compileOperand steps levels) p)
    p.closeLevel

/-- The parser at the end of a text: the expression, nothing behind it, and the instruction
that returns its value. -/
def parseTokens (tokens : Tokens) : Parser :=
  let p := compileOperand tokens.items.length maxNesting .assignment (Parser.start tokens)
  (p.expect .endOfText .expectedEnd).emit .return

/-- Compiles the scanned text. -/
def compileTokens (tokens : Tokens) : Except CompileError Chunk :=
  let p := parseTokens tokens
  match p.complaint with
  | none => .ok p.chunk
  | some d => .error ⟨[d]⟩

/-- Compiles a text that holds one expression. -/
def compile (source : String) : Except CompileError Chunk :=
  compileTokens (tokensOf source)

end LoxArith
