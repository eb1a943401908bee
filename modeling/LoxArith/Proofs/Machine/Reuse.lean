import LoxArith.Proofs.Machine.Lockstep
import LoxArith.Proofs.Parser.Diagnosis

set_option autoImplicit false

/-! # Using a stack again

Between two calls the machine keeps the slots of its stack, with whatever the first call left in
them, whether it returned a value, was refused as a text, or stopped in the middle of a run. A
run begins with no live value, and a slot comes to life only by the push that fills it. So what
was left in the slots is never seen: after any calls, the next one is answered as on a stack that
was never used (`answer_after`).

Two chunks that differ in their lines only have the same runs, and an error is all that shows
the lines.
-/

namespace LoxArith

namespace Stack

theorem Related.live_eq {s s' : Stack} (h : Related Eq s s') : s.live = s'.live := by
  rwa [Related, List.forall₂_eq_eq_eq] at h

end Stack

/-- Within one chunk the fault of an instruction has one line. -/
theorem SameResult.eq {c : Chunk} {result result' : Except RuntimeError Float}
    (h : SameResult Eq c c result result') : result = result' := by
  cases h with
  | value hvalue => rw [hvalue]
  | fault offset f => rfl

namespace Chunk

variable {c c' : Chunk}

/-- What a watcher can see of a run: before each step the offset and the live values. -/
def sights (c : Chunk) (stack : Stack) : List (Nat × List Float) :=
  (c.visits stack).map fun visit => (visit.1, visit.2.live)

/-- Visits with the same live values look the same. -/
theorem sights_eq_of_sameVisit {visits visits' : List Visit}
    (h : List.Forall₂ (SameVisit Eq) visits visits') :
    visits.map (fun visit => (visit.1, visit.2.live))
      = visits'.map fun visit => (visit.1, visit.2.live) := by
  induction h with
  | nil => rfl
  | cons hvisit _ ih => rw [List.map_cons, List.map_cons, ih, hvisit.1, hvisit.2.live_eq]

/-- **Runs of chunks that differ in their lines only.** They are seen alike, leave the same
values, and stop with the same value or with the same fault of the same instruction. -/
theorem Matches.run_eq (h : Matches Eq c c') (s s' : Stack) :
    SameResult Eq c c' (c.run s).result (c'.run s').result ∧ c.sights s = c'.sights s' ∧
      (c.run s).stack.live = (c'.run s').stack.live := by
  obtain ⟨hvisits, hresult, hstack⟩ := h.run respects_eq s s'
  exact ⟨hresult, sights_eq_of_sameVisit hvisits, hstack.live_eq⟩

/-- The runs of one chunk have the same result, whatever the stacks were used for before. -/
theorem result_run_eq (c : Chunk) (s s' : Stack) : (c.run s).result = (c.run s').result :=
  ((matches_of_eq rfl rfl).run_eq s s').1.eq

end Chunk

/-! ## Calls -/

/-- What a machine can be asked for. -/
inductive Call
  | interpret (source : String)
  | run (chunk : Chunk)

/-- The answer to a call: its result, what a watcher has seen, and the values that stay live. -/
structure Answer where
  result : Except Failure Float
  seen : List (Nat × List Float)
  live : List Float

namespace Call

/-- The answer to a call. A text is watched as the chunk it compiles to, and if it does not
compile there is nothing to see. -/
def answer (stack : Stack) : Call → Answer
  | interpret source =>
    let seen := match compile source with
      | .ok chunk => chunk.sights stack
      | .error _ => []
    ⟨(LoxArith.interpret source stack).result, seen, (LoxArith.interpret source stack).stack.live⟩
  | run chunk =>
    ⟨(chunk.run stack).result.mapError .runtime, chunk.sights stack, (chunk.run stack).stack.live⟩

/-- The stack that a call leaves. -/
def leave (stack : Stack) : Call → Stack
  | interpret source => (LoxArith.interpret source stack).stack
  | run chunk => (chunk.run stack).stack

/-- A call has one answer, whatever the stack was used for before. -/
theorem answer_eq (call : Call) (s s' : Stack) : call.answer s = call.answer s' := by
  have hrun : ∀ c : Chunk, (run c).answer s = (run c).answer s' := by
    intro c
    obtain ⟨hresult, hseen, hlive⟩ := (Chunk.matches_of_eq (c := c) rfl rfl).run_eq s s'
    rw [answer, answer, hresult.eq, hseen, hlive]
  cases call with
  | run c => exact hrun c
  | interpret source =>
      cases hcompile : compile source with
      | error error => simp only [answer, LoxArith.interpret, hcompile, Stack.live_cleared]
      | ok c =>
          have hchunk := hrun c
          simp only [answer, LoxArith.interpret, hcompile] at hchunk ⊢
          exact hchunk

end Call

/-- The stack of a machine after some calls. -/
def stackAfter (calls : List Call) : Stack := calls.foldl Call.leave .empty

/-- **Nothing is carried from one call to the next.** After any calls, the next one has the
answer that it has on a stack that was never used: the same result, the same offsets and live
values before each step, and the same values that stay live. A text that does not compile leaves
no value live. And after any calls, chunks with the same code and the same constants have the
same runs, whatever their lines are; if they stop with a fault, it is that of the same instruction,
on the line that each of the chunks has for it. -/
theorem answer_after (calls : List Call) :
    (∀ next : Call, next.answer (stackAfter calls) = next.answer .empty) ∧
    (∀ source error, compile source = .error error →
      (interpret source (stackAfter calls)).stack.live = []) ∧
    ∀ (others : List Call) (c c' : Chunk), c.code = c'.code → c.constants = c'.constants →
      SameResult Eq c c' (c.run (stackAfter calls)).result
        (c'.run (stackAfter others)).result ∧
      c.sights (stackAfter calls) = c'.sights (stackAfter others) ∧
      (c.run (stackAfter calls)).stack.live = (c'.run (stackAfter others)).stack.live := by
  refine ⟨fun next => next.answer_eq _ _, ?_, ?_⟩
  · intro source error herror
    simp only [interpret, herror, Stack.live_cleared]
  · intro others c c' hcode hconstants
    exact (Chunk.matches_of_eq hcode hconstants).run_eq _ _

/-- A text that does not compile, an operator that finds one value only, and code that ends
behind a value. -/
def failedCalls : List Call :=
  [.interpret "(", .run ⟨#[0, 0, 3], #[7.0], {}⟩, .run ⟨#[0, 0], #[7.0], {}⟩]

theorem answer_after_failed :
    (Call.interpret "8-2").answer (stackAfter failedCalls)
        = (Call.interpret "8-2").answer .empty ∧
      compile "(" = .error ⟨[⟨1, .endOfText, "Expected expression."⟩]⟩ ∧
      (interpret "(" (stackAfter failedCalls)).stack.live = [] ∧
      SameResult Eq ⟨#[3], #[], ⟨#[⟨5, 1⟩]⟩⟩ ⟨#[3], #[], {}⟩
        (Chunk.run ⟨#[3], #[], ⟨#[⟨5, 1⟩]⟩⟩ (stackAfter failedCalls)).result
        (Chunk.run ⟨#[3], #[], {}⟩ (stackAfter [])).result := by
  have herror : compile "(" = .error ⟨[⟨1, .endOfText, "Expected expression."⟩]⟩ :=
    compileTokens_eq_error_iff.2 ⟨_, by decide +kernel, rfl⟩
  obtain ⟨hanswer, hrefused, hlines⟩ := answer_after failedCalls
  exact ⟨hanswer _, herror, hrefused _ _ herror,
    (hlines [] ⟨#[3], #[], ⟨#[⟨5, 1⟩]⟩⟩ ⟨#[3], #[], {}⟩ rfl rfl).1⟩

-- the value that was computed is still in its slot
example : (stackAfter failedCalls).live = [7.0] ∧
    (stackAfter [.interpret "7"]).live = [] ∧
    (stackAfter [.interpret "7"]).slots[0].toBits = (7.0 : Float).toBits := by decide +kernel

end LoxArith
