import LoxArith.CommandLine.Report

set_option autoImplicit false

/-! # The interactive session

The session shows its prompt, reads a line and answers it, until the input ends. A line
that fails costs nothing but its error; the next line is answered as if it were the first.
A line that is no text ends the session, since what follows it cannot be trusted.
-/

namespace LoxArith

namespace Session

/-- The input cut behind each line feed, the rest of it as a last line if there is one. The
lines before `current`, and its bytes, are collected last first. -/
def linesInto (lines : List (List UInt8)) (current : List UInt8) :
    List UInt8 → List (List UInt8)
  | [] => (if current.isEmpty then lines else current.reverse :: lines).reverse
  | byte :: rest =>
    if byte = 10 then linesInto ((byte :: current).reverse :: lines) [] rest
    else linesInto lines (byte :: current) rest

/-- The lines of the input, each with its line feed. -/
def linesOf (input : ByteArray) : List (List UInt8) :=
  linesInto [] [] input.data.toList

/-- The text of a line, if it is one. -/
def lineText? (line : List UInt8) : Option String :=
  String.fromUTF8? ⟨line.toArray⟩

/-- What the session answers to a line: nothing to a blank one. The status of the report is
of no account. -/
def answer (settings : Settings) (line : String) : Report :=
  let text := trimBlanks line
  if text.isEmpty then {} else (execute settings text).report

/-- Shows what is given behind what was shown before. -/
def showing (shown : Report) (out err : String) : Report :=
  { shown with out := shown.out ++ out, err := shown.err ++ err }

/-- The session on the remaining lines. Each time the prompt comes first; at the end of the
input a line feed follows it. -/
def continueWith (settings : Settings) (shown : Report) : List (List UInt8) → Report
  | [] => showing shown (settings.prompt ++ "\n") ""
  | line :: lines =>
    match lineText? line with
    | none =>
      let failed := Report.ofFileError .notText
      { showing shown settings.prompt failed.err with status := failed.status }
    | some text =>
      let answer := answer settings text
      continueWith settings (showing shown (settings.prompt ++ answer.out) answer.err) lines

/-- The report of a session on the whole input. -/
def report (settings : Settings) (input : ByteArray) : Report :=
  continueWith settings {} (linesOf input)

end Session

end LoxArith
