import LoxArith.CommandLine.Arguments
import LoxArith.CommandLine.Session

set_option autoImplicit false

/-! # The command line

The program reads its arguments, loads the settings, and performs the command. What it needs
of its surroundings is a `Host`: reading a file, asking whether a path leads anywhere, and
saving a file. The same program runs on a file tree, as a function, and on a real machine.
-/

namespace LoxArith

/-- The surroundings of the program. `session` holds the interactive session. -/
structure Host (m : Type → Type) where
  readText : String → m (Except FileError String)
  pathExists : String → m Bool
  save : String → String → m (Except FileError Unit)
  session : Settings → m Report

namespace Host

variable {m : Type → Type} [Monad m]

/-- The settings of an environment. -/
def loadSettings (host : Host m) (env : Environment) : m Settings := do
  let contents ← host.readText (Settings.path env)
  return Settings.load env contents.toOption

/-- Writes the default settings, unless there is a settings file. -/
def initSettings (host : Host m) (env : Environment) : m Report := do
  let path := Settings.path env
  if ← host.pathExists path then
    return { out := "Config file already exists at: " ++ path ++ "\n" }
  else
    match ← host.save path (Settings.default env).fileText with
    | .ok _ => return { out := "Initialized new config file at: " ++ path ++ "\n" }
    | .error error => return .ofFileError error

/-- Performs a command under the given settings. -/
def perform (host : Host m) (env : Environment) (settings : Settings) : Command → m Report
  | .run path => do return runFile settings path (← host.readText path)
  | .repl => host.session settings
  | .disassemble path asJson => do return disassembleFile path asJson (← host.readText path)
  | .showSettings => return showSettings settings
  | .initSettings => host.initSettings env

/-- Performs what the arguments ask for. The flags turn on what the settings leave off. -/
def performArguments (host : Host m) (env : Environment) (arguments : List String) : m Report := do
  match Invocation.ofArguments? arguments with
  | .error .help => return {}
  | .error .usage => return { status := Status.usage }
  | .ok invocation =>
    let settings ← host.loadSettings env
    let settings := { settings with
      printCode := settings.printCode || invocation.printCode,
      trace := settings.trace || invocation.trace }
    host.perform env settings invocation.command

/-- A file tree as the surroundings, with an input for the session. -/
def ofTree (input : ByteArray) : Host (StateM FileTree) where
  readText path := do return (← get).readText path
  pathExists path := do return (← get).pathExists path
  save path text := do
    match (← get).save path text.toUTF8 with
    | .ok tree => set tree; return .ok ()
    | .error error => return .error error
  session settings := return Session.report settings input

end Host

/-- Performs what the arguments ask for on a file tree. -/
def performOn (tree : FileTree) (env : Environment) (input : ByteArray)
    (arguments : List String) : Report × FileTree :=
  ((Host.ofTree input).performArguments env arguments).run tree

end LoxArith
