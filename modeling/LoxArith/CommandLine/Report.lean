import LoxArith.Chunk.Json
import LoxArith.FileTree
import LoxArith.Settings
import LoxArith.Trace

set_option autoImplicit false

/-! # What a command reports

A command ends with a status and with texts for the two outputs. Here the commands work on
what was already read: the text of a file or the error of reading it. The status tells a
text that does not compile from one that fails when it is run, and both from a file that
cannot be read. The outputs are taken to accept what is written to them; there is no status for one
that was closed.
-/

namespace LoxArith

/-- How a command ended. -/
structure Report where
  status : Nat := 0
  out : String := ""
  err : String := ""
  deriving DecidableEq, Repr

namespace Status

/-- The arguments were not understood. -/
def usage : Nat := 64

/-- The text does not compile. -/
def badText : Nat := 65

/-- The run failed. -/
def failedRun : Nat := 70

/-- Reading or writing failed. -/
def fileError : Nat := 74

end Status

/-- The status of a failure. -/
def Failure.status : Failure → Nat
  | compile _ => Status.badText
  | runtime _ => Status.failedRun

/-- The report of a file that could not be read. -/
def Report.unreadable (path : String) (error : FileError) : Report :=
  { status := Status.fileError, err := "Could not read " ++ path ++ ": " ++ error.text ++ "\n" }

/-- The report of any other file error. -/
def Report.ofFileError (error : FileError) : Report :=
  { status := Status.fileError, err := "IOError: " ++ error.text ++ "\n" }

/-- What executing a text shows, and its value or failure. -/
structure Execution where
  shown : String
  result : Except Failure Float

/-- Compiles and runs a text. What is shown before the value is the listing and the trace,
each if the settings ask for it. -/
def execute (settings : Settings) (source : String) : Execution :=
  match compile source with
  | .error error => ⟨"", .error (.compile error)⟩
  | .ok chunk =>
    let code := if settings.printCode then chunk.listing "code" else ""
    if settings.trace then
      let (outcome, trace) := chunk.runTraced Stack.empty
      ⟨code ++ "== VM TRACE ==\n" ++ trace, outcome.result.mapError .runtime⟩
    else ⟨code, (chunk.run Stack.empty).result.mapError .runtime⟩

/-- The report of executing a text; the status of a failure is that of its kind. -/
def Execution.report (execution : Execution) : Report :=
  match execution.result with
  | .ok value => { out := execution.shown ++ display value ++ "\n" }
  | .error failure =>
    { status := failure.status, out := execution.shown, err := failure.text ++ "\n" }

/-- Compiles and runs the file at a path. -/
def runFile (settings : Settings) (path : String) (source : Except FileError String) : Report :=
  match source with
  | .error error => .unreadable path error
  | .ok text => (execute settings text).report

/-- Compiles the file at a path and shows its code, as a listing under the path or as a
document. -/
def disassembleFile (path : String) (asJson : Bool) (source : Except FileError String) :
    Report :=
  match source with
  | .error error => .unreadable path error
  | .ok text =>
    match compile text with
    | .error error => (Execution.mk "" (.error (.compile error))).report
    | .ok chunk =>
      { out := if asJson then chunk.toJson.pretty ++ "\n" else chunk.listing path }

/-- Shows the settings that are in effect. -/
def showSettings (settings : Settings) : Report :=
  { out := settings.fileText ++ "\n" }

end LoxArith
