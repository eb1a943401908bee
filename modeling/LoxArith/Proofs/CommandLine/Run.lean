import LoxArith.CommandLine
import LoxArith.Proofs.CommandLine.Flags
import LoxArith.Proofs.Parser.Diagnosis
import LoxArith.Proofs.Trace

set_option autoImplicit false

/-! # Running a file

What the program reports of a file is put together from three things that do not know of each
other: what the file says or why it cannot be read, what interpreting its text gives, and which of
the two switches are in effect. The switches come from the flags, the variables and the settings
file (`InEffect`), and decide only what is shown in front of the value (`shownOf`). The status and
the error output are those of `interpret`, although the program runs the chunk itself, with a
watcher if there is a trace (`execute_eq`).
-/

namespace LoxArith

/-! ## Executing a text -/

/-- What is shown of a text in front of its value: its code and the trace of its run, each if it
is asked for. A text that does not compile has neither. -/
def shownOf (printCode trace : Bool) (source : String) : String :=
  match compile source with
  | .error _ => ""
  | .ok chunk =>
    (if printCode then chunk.listing "code" else "") ++
      if trace then
        "== VM TRACE ==\n" ++
          String.join ((chunk.visits .empty).map fun visit => chunk.traceEntry visit.1 visit.2)
      else ""

/-- The line with the value, if there is one. -/
def valueLine : Except Failure Float → String
  | .ok value => display value ++ "\n"
  | .error _ => ""

/-- The line with the failure, if there is one. -/
def failureLine : Except Failure Float → String
  | .ok _ => ""
  | .error failure => failure.text ++ "\n"

/-- The status of a value or a failure. -/
def statusOf : Except Failure Float → Nat
  | .ok _ => 0
  | .error failure => failure.status

/-- **Executing a text is interpreting it**, whether or not the run is watched. -/
theorem execute_eq (settings : Settings) (source : String) :
    execute settings source
      = ⟨shownOf settings.printCode settings.trace source, (interpret source .empty).result⟩ := by
  unfold execute shownOf interpret
  cases compile source with
  | error error => rfl
  | ok chunk =>
      obtain ⟨hrun, htrace⟩ := chunk.runTraced_eq .empty
      dsimp only
      cases settings.trace with
      | false => simp
      | true => simp only [if_true, hrun, htrace, String.append_assoc]

theorem Execution.report_eq (execution : Execution) :
    execution.report = ⟨statusOf execution.result,
      execution.shown ++ valueLine execution.result, failureLine execution.result⟩ := by
  unfold report
  cases execution.result with
  | ok value => simp [statusOf, valueLine, failureLine, String.append_assoc]
  | error failure => simp [statusOf, valueLine, failureLine]

/-- A switch is in effect: its flag is given, or its variable is set and truthy, or the variable is
not set and the settings file says so. A variable is set if the program finds a text in it; one that
is set to bytes that are no text counts as one that is not set (`Environment.ofLookup`). -/
def InEffect (f : Flag) (arguments : List String) (setting : Option String)
    (stored : Option Bool) : Prop :=
  f.Given arguments ∨ (∃ value ∈ setting, Settings.isTruthy value = true) ∨
    (setting = none ∧ stored = some true)

instance (f : Flag) (arguments : List String) (setting : Option String) (stored : Option Bool) :
    Decidable (InEffect f arguments setting stored) :=
  inferInstanceAs (Decidable (_ ∨ _ ∨ _))

/-- The settings of the settings file, if there is one that holds settings. -/
def storedSettings (tree : FileTree) (env : Environment) : Option Settings :=
  (tree.readText (Settings.path env)).toOption.bind fun contents =>
    (Json.ofText? contents).bind Settings.ofJson?

/-- The code is shown. -/
def PrintsCode (tree : FileTree) (env : Environment) (arguments : List String) : Prop :=
  InEffect .printCode arguments env.printCode ((storedSettings tree env).map Settings.printCode)

/-- The trace is shown. -/
def Traces (tree : FileTree) (env : Environment) (arguments : List String) : Prop :=
  InEffect .trace arguments env.trace ((storedSettings tree env).map Settings.trace)

instance (tree : FileTree) (env : Environment) (arguments : List String) :
    Decidable (PrintsCode tree env arguments) :=
  inferInstanceAs (Decidable (InEffect _ _ _ _))

instance (tree : FileTree) (env : Environment) (arguments : List String) :
    Decidable (Traces tree env arguments) :=
  inferInstanceAs (Decidable (InEffect _ _ _ _))

/-- A switch that is off by default is on if it is in effect. -/
theorem inEffect_iff {f : Flag} {arguments : List String} {given : Bool}
    (hgiven : given = true ↔ f.Given arguments) (setting : Option String)
    (stored : Option Settings) (field : Settings → Bool) {env : Environment}
    (hdefault : field (.default env) = false) :
    (Settings.overridden setting (field (stored.getD (.default env))) || given) = true ↔
      InEffect f arguments setting (stored.map field) := by
  rw [Bool.or_eq_true, or_comm, hgiven, InEffect]
  cases setting with
  | some value => simp [Settings.overridden]
  | none =>
      cases stored with
      | some settings => simp [Settings.overridden]
      | none => simp [Settings.overridden, hdefault]

-- A variable whose bytes are no text leaves the switch to the settings file.
example : InEffect .trace ["run", "a"]
    (Environment.ofLookup fun name => if name = "LOX_TRACE" then some ⟨#[255]⟩ else none).trace
    (some true) := by decide +kernel

/-- What the prompt is: what the settings file says, if there is one. -/
def promptOf (tree : FileTree) (env : Environment) : String :=
  ((storedSettings tree env).map Settings.prompt).getD "> "

/-- A command is performed under the settings that are in effect. -/
theorem performOn_command {arguments : List String} {invocation : Invocation}
    (h : Invocation.ofArguments? arguments = .ok invocation) (tree : FileTree) (env : Environment)
    (input : ByteArray) :
    ∃ settings : Settings,
      settings.printCode = decide (PrintsCode tree env arguments) ∧
      settings.trace = decide (Traces tree env arguments) ∧
      settings.prompt = promptOf tree env ∧
      performOn tree env input arguments
        = ((Host.ofTree input).perform env settings invocation.command).run tree := by
  obtain ⟨hprint, htrace⟩ := ofArguments?_given h
  let loaded := Settings.load env (tree.readText (Settings.path env)).toOption
  refine ⟨{ loaded with printCode := loaded.printCode || invocation.printCode,
                        trace := loaded.trace || invocation.trace }, ?_, ?_, ?_, ?_⟩
  · rw [Bool.eq_iff_iff, decide_eq_true_iff]
    exact inEffect_iff hprint env.printCode (storedSettings tree env) Settings.printCode rfl
  · rw [Bool.eq_iff_iff, decide_eq_true_iff]
    exact inEffect_iff htrace env.trace (storedSettings tree env) Settings.trace rfl
  · show ((storedSettings tree env).getD (.default env)).prompt = promptOf tree env
    unfold promptOf
    cases storedSettings tree env <;> rfl
  · unfold performOn Host.performArguments
    rw [h]
    rfl

/-! ## Running a file -/

theorem runFile_eq (settings : Settings) (path : String) (source : Except FileError String) :
    runFile settings path source = match source with
      | .error error =>
        ⟨Status.fileError, "", "Could not read " ++ path ++ ": " ++ error.text ++ "\n"⟩
      | .ok text =>
        ⟨statusOf (interpret text .empty).result,
          shownOf settings.printCode settings.trace text
            ++ valueLine (interpret text .empty).result,
          failureLine (interpret text .empty).result⟩ := by
  unfold runFile
  cases source with
  | error error => rfl
  | ok text =>
      dsimp only
      rw [Execution.report_eq, execute_eq]

end LoxArith
