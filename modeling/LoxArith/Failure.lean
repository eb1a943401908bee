set_option autoImplicit false

/-! # What can go wrong

A text that does not compile gives diagnostics, each with a line, a location and a message.
A chunk that does not run to its end gives a runtime error, a kind with the line of the
instruction. Both are values; their wording is fixed here and nowhere else.
-/

namespace LoxArith

/-! ## Compiling -/

/-- Where a diagnostic points: at a lexeme, at the end of the text, or nowhere, when what
was found is no lexeme. -/
inductive Location
  | lexeme (text : String)
  | endOfText
  | unknown
  deriving DecidableEq, Repr

/-- The faults the parser finds. -/
inductive SyntaxFault
  | nestedTooDeeply
  | expectedExpression
  | unsupportedOperator
  | expectedRightParen
  | expectedEnd
  | tooManyConstants
  deriving DecidableEq, Repr

/-- The wording of a parser fault. -/
def SyntaxFault.message : SyntaxFault → String
  | nestedTooDeeply => "Expression nested too deeply."
  | expectedExpression => "Expected expression."
  | unsupportedOperator => "Unsupported operator."
  | expectedRightParen => "Expected ')' after expression."
  | expectedEnd => "Expect end of expression."
  | tooManyConstants => "Too many constants in one chunk."

/-- One complaint about a text. -/
structure Diagnostic where
  line : Nat
  location : Location
  message : String
  deriving DecidableEq, Repr

/-- The text of a location, as it stands behind the word for an error. -/
def Location.text : Location → String
  | lexeme text => " at '" ++ text ++ "'"
  | endOfText => " at end"
  | unknown => ""

/-- The text of a line, as it stands before a message. -/
def lineTag (line : Nat) : String := "[line " ++ toString line ++ "] "

/-- The text of a diagnostic. -/
def Diagnostic.text (d : Diagnostic) : String :=
  lineTag d.line ++ "Error" ++ d.location.text ++ ": " ++ d.message

/-- The complaints about a text that does not compile. -/
structure CompileError where
  diagnostics : List Diagnostic
  deriving DecidableEq, Repr

/-- The text of a compile error, one line for each diagnostic. -/
def CompileError.text (e : CompileError) : String :=
  "\n".intercalate (e.diagnostics.map Diagnostic.text)

/-! ## Running -/

/-- Why a run stopped without a result. -/
inductive RuntimeFault
  | unknownOpcode (byte : UInt8)
  | invalidConstant (index : Nat)
  | missingReturn
  | stackOverflow
  | stackUnderflow
  deriving DecidableEq, Repr

/-- The wording of a runtime fault. -/
def RuntimeFault.message : RuntimeFault → String
  | unknownOpcode byte => "Unknown opcode " ++ toString byte.toNat
  | invalidConstant index => "Constant index " ++ toString index ++ " out of range"
  | missingReturn => "Instruction stream ended without a return"
  | stackOverflow => "Stack overflow"
  | stackUnderflow => "Stack underflow"

/-- A fault with the line of the instruction, if the chunk knows it. -/
structure RuntimeError where
  line : Option Nat
  fault : RuntimeFault
  deriving DecidableEq, Repr

/-- The text of a runtime error. -/
def RuntimeError.text (e : RuntimeError) : String :=
  match e.line with
  | some line => lineTag line ++ e.fault.message
  | none => e.fault.message

/-! ## Both -/

/-- Why a text has no value. -/
inductive Failure
  | compile (error : CompileError)
  | runtime (error : RuntimeError)
  deriving DecidableEq, Repr

/-- The text of a failure. -/
def Failure.text : Failure → String
  | compile error => error.text
  | runtime error => error.text

end LoxArith
