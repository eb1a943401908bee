import LoxArith.Json.Read
import LoxArith.Json.Write
import LoxArith.Text.Blank

set_option autoImplicit false

/-! # Settings

Settings are the name of an environment, two switches, and the prompt of the interactive
session. They come from a file whose place the environment variables determine. A file that
cannot be read, or does not hold settings, stands for the default settings. Whatever the
file says, a variable that is set decides its switch.

No log is kept of what is loaded: the variable `RUST_LOG`, which would ask for one on the error
output, is taken for not set.
-/

namespace LoxArith

/-- The environment variables that the settings depend on, as the program finds them: `none` for a
variable in which it finds no text. This is one that is not set, and also one that is set to bytes
that are no text: the program does not tell the two apart, and takes both for not set. -/
structure Environment where
  home : Option String := none
  name : Option String := none
  printCode : Option String := none
  trace : Option String := none
  deriving DecidableEq, Repr

/-- What the program finds in a process; `lookup` gives the bytes of each variable that is set. -/
def Environment.ofLookup (lookup : String → Option ByteArray) : Environment :=
  let find := fun name => (lookup name).bind String.fromUTF8?
  ⟨find "HOME", find "LOX_ENV", find "LOX_PRINT_CODE", find "LOX_TRACE"⟩

/-- The name of the environment. -/
def Environment.nameOrDefault (env : Environment) : String := env.name.getD "default"

/-- A path inside another; an absolute path stands for itself. -/
def joinPath (base part : String) : String :=
  if part.startsWith "/" then part
  else if base.isEmpty || base.endsWith "/" then base ++ part
  else base ++ "/" ++ part

/-- The settings. -/
structure Settings where
  /-- The name of the environment that the settings were made for. -/
  name : String
  /-- Whether to show the listing of every chunk that compiles. -/
  printCode : Bool := false
  /-- Whether to show the trace of every run. -/
  trace : Bool := false
  /-- What the interactive session shows before it reads a line. -/
  prompt : String := "> "
  deriving DecidableEq, Repr

namespace Settings

/-- The path of the settings file. -/
def path (env : Environment) : String :=
  joinPath (joinPath (joinPath (env.home.getD ".") ".lox") env.nameOrDefault) "config.json"

/-- The settings without a file. -/
def default (env : Environment) : Settings := { name := env.nameOrDefault }

/-! ## The file -/

/-- The document of the settings. -/
def toJson (s : Settings) : Json :=
  .record [("env_name", .text s.name), ("print_code", .bool s.printCode),
    ("trace_execution", .bool s.trace), ("prompt", .text s.prompt)]

/-- A field that may be missing, and what it means then. -/
def optionalField {α : Type} (read : Json → Option α) (missing : α) :
    Option Json → Option α
  | some document => read document
  | none => some missing

/-- The settings of a document. Only the name is required. -/
def ofJson? (document : Json) : Option Settings := do
  match ← document.fields? ["env_name", "print_code", "trace_execution", "prompt"] with
  | [some name, printCode, trace, prompt] =>
    return {
      name := ← name.text?
      printCode := ← optionalField Json.bool? false printCode
      trace := ← optionalField Json.bool? false trace
      prompt := ← optionalField Json.text? "> " prompt }
  | _ => none

/-- The text of the settings file. -/
def fileText (s : Settings) : String := s.toJson.pretty

/-! ## Loading -/

/-- Whether the value of a variable turns a switch on: `1`, `true`, `yes` or `on`, in any
case of the ASCII letters and with any blanks around. -/
def isTruthy (value : String) : Bool :=
  ["1", "true", "yes", "on"].contains (trimBlanks value).toLower

/-- A switch: its variable decides if it is set. -/
def overridden (value : Option String) (setting : Bool) : Bool :=
  match value with
  | some text => isTruthy text
  | none => setting

/-- The settings with the variables applied. -/
def withOverrides (s : Settings) (env : Environment) : Settings :=
  { s with printCode := overridden env.printCode s.printCode,
           trace := overridden env.trace s.trace }

/-- The settings of an environment, given the text of the settings file if it has one. -/
def load (env : Environment) (contents : Option String) : Settings :=
  let settings := do ofJson? (← Json.ofText? (← contents))
  (settings.getD (default env)).withOverrides env

end Settings

end LoxArith
