import LoxArith.Precedence
import LoxArith.Token

set_option autoImplicit false

/-! # The table of rules

For each kind of lexeme the table says how it is compiled where an operand must start, how
it is compiled after an operand, and how tightly it binds there. Several kinds have a
precedence without a handler: they are operators of the whole language that arithmetic does
not support, and the precedence is what lets the parser recognise them as operators.
-/

namespace LoxArith

/-- The ways of compiling that the table refers to. -/
inductive Handler
  | grouping
  | unary
  | binary
  | number
  deriving DecidableEq, Repr

/-- The row of one kind: `leading` is used where an operand must start, `following` after an
operand, and `precedence` is the level of the operator after an operand. -/
structure Rule where
  leading : Option Handler
  following : Option Handler
  precedence : Precedence
  deriving DecidableEq, Repr

/-- The row of a kind that neither starts nor continues an expression. -/
def Rule.inert : Rule := ⟨none, none, .none⟩

/-- An operator that is recognised but not supported. -/
def Rule.unsupported (precedence : Precedence) : Rule := ⟨none, none, precedence⟩

/-- The table. -/
def Kind.rule : Kind → Rule
  | .leftParen => ⟨some .grouping, none, .call⟩
  | .dot => .unsupported .call
  | .minus => ⟨some .unary, some .binary, .term⟩
  | .plus => ⟨none, some .binary, .term⟩
  | .slash => ⟨none, some .binary, .factor⟩
  | .star => ⟨none, some .binary, .factor⟩
  | .bangEqual => .unsupported .equality
  | .equalEqual => .unsupported .equality
  | .greater => .unsupported .comparison
  | .greaterEqual => .unsupported .comparison
  | .less => .unsupported .comparison
  | .lessEqual => .unsupported .comparison
  | .number => ⟨some .number, none, .none⟩
  | .andWord => .unsupported .and
  | .orWord => .unsupported .or
  | _ => .inert

end LoxArith
