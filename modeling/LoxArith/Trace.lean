import LoxArith.Listing
import LoxArith.Machine

set_option autoImplicit false

/-! # Traces

A trace shows a run step by step: before each step the live stack, bottom first, and the
listing line of the instruction that comes next. Behind the last instruction there is no
listing line, only the stack.
-/

namespace LoxArith

/-- The text of some values, bottom of the stack first. -/
def stackText (values : List Float) : String :=
  let cells := if values.isEmpty then "[]"
    else String.join (values.map fun value => "[ " ++ display value ++ " ]")
  "          " ++ cells

namespace Chunk

/-- What the trace shows before the step at an offset. -/
def traceEntry (chunk : Chunk) (offset : Nat) (stack : Stack) : String :=
  let instruction := if offset < chunk.size then chunk.listingLine offset else ""
  stackText stack.live ++ "\n" ++ instruction

/-- Runs the chunk and writes down the trace. -/
def runTraced (chunk : Chunk) (stack : Stack) : Outcome × String :=
  chunk.runWatched (fun offset stack text => text ++ chunk.traceEntry offset stack) stack ""

end Chunk

end LoxArith
