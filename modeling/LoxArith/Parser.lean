import LoxArith.Chunk
import LoxArith.Failure
import LoxArith.Number.Literal
import LoxArith.Rule
import LoxArith.Token.Scan

set_option autoImplicit false

/-! # The state of the parser

The parser looks at two lexemes, the one it has just passed (`previous`) and the one that
comes next (`current`). It writes code as it goes and keeps the first complaint it has;
later ones are dropped, since after a fault the parser no longer knows where it stands.
Parsing goes on nevertheless, in silence.

Faults of the scanner are not lexemes. They are complained about when the parser moves past
them, that is, before the lexeme behind them is looked at.
-/

namespace LoxArith

/-- What parsing costs: how many operands were begun, how many levels are open, and the most
that were open at one time. It has no influence on the code. -/
structure Effort where
  operands : Nat := 0
  depth : Nat := 0
  deepest : Nat := 0
  deriving DecidableEq, Repr

/-- The state of the parser between two lexemes. -/
structure Parser where
  /-- The lexeme passed last. -/
  previous : Lexeme
  /-- The lexeme that comes next. -/
  current : Lexeme
  /-- The tokens behind it. -/
  rest : List Token
  /-- What comes when the tokens are used up. -/
  last : Lexeme
  /-- The code written so far. -/
  chunk : Chunk := {}
  /-- The first complaint. -/
  complaint : Option Diagnostic := none
  effort : Effort := {}

namespace Parser

/-! ## Complaints -/

/-- Records a complaint if there is none yet. -/
def complain (p : Parser) (d : Diagnostic) : Parser :=
  match p.complaint with
  | none => { p with complaint := some d }
  | some _ => p

/-- Where a lexeme stands: the end of the text has a name of its own. -/
def locationOf (lexeme : Lexeme) : Location :=
  if lexeme.kind = .endOfText then .endOfText else .lexeme lexeme.text

/-- Complains about the lexeme passed last. -/
def complainAtPrevious (p : Parser) (fault : SyntaxFault) : Parser :=
  p.complain ⟨p.previous.line, locationOf p.previous, fault.message⟩

/-- Complains about the lexeme that comes next. -/
def complainAtCurrent (p : Parser) (fault : SyntaxFault) : Parser :=
  p.complain ⟨p.current.line, locationOf p.current, fault.message⟩

/-! ## Moving on -/

/-- Makes the first lexeme among the tokens the current one, with a complaint about each
scanner fault before it. -/
def read : List Token → Parser → Parser
  | [], p => { p with current := p.last, rest := [] }
  | .lexeme l :: rest, p => { p with current := l, rest := rest }
  | .fault f line :: rest, p => read rest (p.complain ⟨line, .unknown, f.message⟩)

/-- Passes the current lexeme. The end of the text can be passed any number of times. -/
def advance (p : Parser) : Parser :=
  read p.rest { p with previous := p.current }

/-- Passes a lexeme of the given kind, or complains about what stands in its place. -/
def expect (p : Parser) (kind : Kind) (fault : SyntaxFault) : Parser :=
  if p.current.kind = kind then p.advance else p.complainAtCurrent fault

/-- The parser before the first lexeme of a text. -/
def start (tokens : Tokens) : Parser :=
  advance { previous := tokens.last, current := tokens.last, rest := tokens.items,
            last := tokens.last }

/-! ## Writing code -/

/-- Writes a byte on the line of the lexeme passed last. -/
def emitByte (p : Parser) (byte : UInt8) : Parser :=
  { p with chunk := p.chunk.write byte p.previous.line }

/-- Writes an instruction on the line of the lexeme passed last. -/
def emit (p : Parser) (op : OpCode) : Parser :=
  p.emitByte op.toByte

/-- Puts a number into the pool. An index that does not fit into a byte is a fault, and
zero stands in for it. -/
def poolIndex (p : Parser) (value : Float) : UInt8 × Parser :=
  let (index, chunk) := p.chunk.addConstant value
  let p := { p with chunk := chunk }
  if index < 256 then (UInt8.ofNat index, p) else (0, p.complainAtPrevious .tooManyConstants)

/-- Writes the instruction that loads a number. -/
def emitConstant (p : Parser) (value : Float) : Parser :=
  let (index, p) := p.poolIndex value
  (p.emit .constant).emitByte index

/-! ## Levels -/

/-- Begins an operand that is refused its level. -/
def refuseLevel (p : Parser) : Parser :=
  { p with effort := { p.effort with operands := p.effort.operands + 1 } }

/-- Begins an operand on a level of its own. -/
def openLevel (p : Parser) : Parser :=
  let depth := p.effort.depth + 1
  { p with effort := ⟨p.effort.operands + 1, depth, max p.effort.deepest depth⟩ }

/-- Leaves the level of an operand. -/
def closeLevel (p : Parser) : Parser :=
  { p with effort := { p.effort with depth := p.effort.depth - 1 } }

end Parser

end LoxArith
