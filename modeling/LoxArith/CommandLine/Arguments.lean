set_option autoImplicit false

/-! # Arguments

The arguments name a command, with flags among them. Two flags are allowed everywhere,
`--print-code` and `--trace`; `--json` belongs to one command. A command's own arguments
follow its name, and each of these stretches (before the command, behind it, behind the
second word of `config`) is a *level* on which a flag may stand once. Behind two hyphens
nothing is a flag or a command any more.

What is not understood is refused as a whole. Asking for help ends the reading at once, as
does the first mistake, so of the two the earlier one counts.
-/

namespace LoxArith

/-- What is to be done. -/
inductive Command
  | run (path : String)
  | repl
  | disassemble (path : String) (asJson : Bool)
  | showSettings
  | initSettings
  deriving DecidableEq, Repr

/-- A command with the switches that flags turn on. -/
structure Invocation where
  printCode : Bool
  trace : Bool
  command : Command
  deriving DecidableEq, Repr

/-- Why the arguments give no command. -/
inductive Refusal
  /-- They ask for help or for the version. -/
  | help
  /-- They are not understood. -/
  | usage
  deriving DecidableEq, Repr

/-- The flags. -/
inductive Flag
  | printCode
  | trace
  | json
  deriving DecidableEq, Repr

/-- What may stand on a level: whether it is the outermost one, which knows the version, and
whether the flag of the listing command is allowed. -/
structure Level where
  outermost : Bool := false
  json : Bool := false

/-- What an argument is, as long as flags are recognised. -/
inductive ArgumentKind
  | separator
  | flag (f : Flag)
  | refused (r : Refusal)
  | word

/-- Looks at one argument. A hyphen alone is a word. Of letters behind one hyphen the first
one decides. -/
def Level.classify (level : Level) (argument : String) : ArgumentKind :=
  match argument with
  | "--" => .separator
  | "--print-code" => .flag .printCode
  | "--trace" => .flag .trace
  | "--json" => if level.json then .flag .json else .refused .usage
  | "--help" => .refused .help
  | "--version" => .refused (if level.outermost then .help else .usage)
  | _ =>
    match argument.toList with
    | '-' :: '-' :: _ => .refused .usage
    | '-' :: 'h' :: _ => .refused .help
    | '-' :: 'V' :: _ => .refused (if level.outermost then .help else .usage)
    | '-' :: _ :: _ => .refused .usage
    | _ => .word

/-- The first word of a level, if there is one, and the arguments behind it; `flags` are those
of the level, and `separated` tells that two hyphens came before the word. -/
structure FirstWord where
  flags : List Flag
  separated : Bool
  rest : Option (String × List String)

/-- Reads up to the first word of a level. -/
def Level.firstWord (level : Level) (flags : List Flag) :
    List String → Except Refusal FirstWord
  | [] => .ok ⟨flags, false, none⟩
  | argument :: rest =>
    match level.classify argument with
    | .separator =>
      match rest with
      | [] => .ok ⟨flags, true, none⟩
      | word :: rest => .ok ⟨flags, true, some (word, rest)⟩
    | .flag f => if f ∈ flags then .error .usage else level.firstWord (f :: flags) rest
    | .refused r => .error r
    | .word => .ok ⟨flags, false, some (argument, rest)⟩

/-- Reads the arguments of a command that takes paths: the flags of the level and the paths,
of which there may be at most `limit`. A path must not be empty. -/
def Level.paths (level : Level) (limit : Nat) (separated : Bool) (flags : List Flag)
    (found : List String) : List String → Except Refusal (List Flag × List String)
  | [] => .ok (flags, found.reverse)
  | argument :: rest =>
    let kind := if separated then .word else level.classify argument
    match kind with
    | .separator => level.paths limit true flags found rest
    | .flag f =>
      if f ∈ flags then .error .usage else level.paths limit separated (f :: flags) found rest
    | .refused r => .error r
    | .word =>
      if argument.isEmpty || limit ≤ found.length then .error .usage
      else level.paths limit separated flags (argument :: found) rest

/-- The words that help may be asked about, with those that may follow each. -/
def isHelpTopic : List String → Bool
  | [] => true
  | ["run"] | ["repl"] | ["disassemble"] | ["help"] => true
  | "config" :: rest => rest == [] || rest == ["show"] || rest == ["init"] || rest == ["help"]
  | _ => false

/-- The command of two words, and the flags behind its first word. -/
def configCommand (arguments : List String) : Except Refusal (List Flag × Command) := do
  let ⟨flags, separated, rest⟩ ← Level.firstWord {} [] arguments
  match rest with
  | none => throw .usage
  | some (word, rest) =>
    if separated then throw .usage
    else
      let command ← match word with
        | "show" => pure Command.showSettings
        | "init" => pure Command.initSettings
        | "help" => throw (if isHelpTopic ("config" :: rest) then .help else .usage)
        | _ => throw .usage
      let (inner, _) ← Level.paths {} 0 false [] [] rest
      return (flags ++ inner, command)

/-- The command of a word and what follows it, and the flags there. -/
def commandOf (word : String) (rest : List String) : Except Refusal (List Flag × Command) :=
  match word with
  | "run" => do
    match ← Level.paths {} 1 false [] [] rest with
    | (flags, [path]) => return (flags, .run path)
    | _ => throw .usage
  | "repl" => do
    let (flags, _) ← Level.paths {} 0 false [] [] rest
    return (flags, .repl)
  | "disassemble" => do
    match ← Level.paths { json := true } 1 false [] [] rest with
    | (flags, [path]) => return (flags, .disassemble path (decide (Flag.json ∈ flags)))
    | _ => throw .usage
  | "config" => configCommand rest
  | "help" => throw (if isHelpTopic rest then .help else .usage)
  | _ => throw .usage

/-- Reads the arguments. Without a command they ask for the interactive session. -/
def Invocation.ofArguments? (arguments : List String) : Except Refusal Invocation := do
  let ⟨outer, separated, rest⟩ ← Level.firstWord { outermost := true } [] arguments
  let (inner, command) ← match rest with
    | none => pure ([], Command.repl)
    | some (word, rest) => if separated then throw .usage else commandOf word rest
  let flags := outer ++ inner
  return ⟨decide (Flag.printCode ∈ flags), decide (Flag.trace ∈ flags), command⟩

end LoxArith
