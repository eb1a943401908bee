import LoxArith.Machine

set_option autoImplicit false

/-! # The steps of a run

A run visits one offset after the other, each with a stack, and stops at the last one
(`Chunk.Runs`). Every run is of this kind, and what a watcher has seen of it is determined by
the visits (`Chunk.Runs.runFrom_eq`). So a fact about watched runs is a fact about their
visits, `Chunk.visits`.
-/

namespace LoxArith

namespace Chunk

/-- What a watcher sees before a step: the offset and the stack. -/
abbrev Visit := Nat × Stack

/-- From an offset and a stack on, the run makes these visits and has this outcome. -/
inductive Runs (c : Chunk) : Nat → Stack → List Visit → Outcome → Prop
  | stop {offset : Nat} {stack after : Stack} {result : Except RuntimeError Float}
      (hstep : c.step offset stack = .stop result after) :
      Runs c offset stack [(offset, stack)] ⟨result, after⟩
  | goOn {offset next : Nat} {stack after : Stack} {visits : List Visit} {outcome : Outcome}
      (hstep : c.step offset stack = .goOn next after) (more : Runs c next after visits outcome) :
      Runs c offset stack ((offset, stack) :: visits) outcome

/-- The visits of a run from the first offset on, on the slots of a stack that may have been
used before. -/
def visits (c : Chunk) (stack : Stack) : List Visit :=
  (c.runWatched (fun offset stack seen => seen ++ [(offset, stack)]) stack []).2

variable {c : Chunk}

theorem exists_runs (c : Chunk) (offset : Nat) (stack : Stack) :
    ∃ visits outcome, c.Runs offset stack visits outcome := by
  cases hstep : c.step offset stack with
  | stop result after => exact ⟨_, _, .stop hstep⟩
  | goOn next after =>
      have hnext := lt_of_step_eq_goOn hstep
      obtain ⟨visits, outcome, hruns⟩ := exists_runs c next after
      exact ⟨_, _, .goOn hstep hruns⟩
  termination_by c.size - offset

/-- **What a watcher sees of a run is a function of the visits.** -/
theorem Runs.runFrom_eq {Seen : Type} {offset : Nat} {stack : Stack} {visits : List Visit}
    {outcome : Outcome} (h : c.Runs offset stack visits outcome)
    (watch : Nat → Stack → Seen → Seen) (seen : Seen) :
    c.runFrom watch offset stack seen
      = (outcome, visits.foldl (fun seen visit => watch visit.1 visit.2 seen) seen) := by
  induction h generalizing seen with
  | stop hstep =>
      rw [runFrom]
      split
      · rename_i result after hstop
        rw [hstep] at hstop
        cases hstop
        rfl
      · rename_i next after hgo
        rw [hstep] at hgo
        cases hgo
  | goOn hstep _ ih =>
      rw [runFrom]
      split
      · rename_i result after hstop
        rw [hstep] at hstop
        cases hstop
      · rename_i next after hgo
        rw [hstep] at hgo
        cases hgo
        rw [ih, List.foldl_cons]

/-- The visits of a run and its outcome. -/
theorem Runs.visits_eq {stack : Stack} {visits : List Visit} {outcome : Outcome}
    (h : c.Runs 0 stack.cleared visits outcome) :
    c.visits stack = visits ∧ c.run stack = outcome := by
  constructor
  · rw [Chunk.visits, runWatched, h.runFrom_eq, List.foldl_append_eq_append, ← List.flatMap_def,
      List.flatMap_singleton', List.nil_append]
  · rw [run, runWatched, h.runFrom_eq]

/-- Every run has its visits. -/
theorem runs_visits (c : Chunk) (stack : Stack) :
    c.Runs 0 stack.cleared (c.visits stack) (c.run stack) := by
  obtain ⟨visits, outcome, h⟩ := c.exists_runs 0 stack.cleared
  obtain ⟨rfl, rfl⟩ := h.visits_eq
  exact h

/-- Watching a run is going over its visits. -/
theorem runWatched_eq {Seen : Type} (c : Chunk) (watch : Nat → Stack → Seen → Seen)
    (stack : Stack) (seen : Seen) :
    c.runWatched watch stack seen = (c.run stack,
      (c.visits stack).foldl (fun seen visit => watch visit.1 visit.2 seen) seen) :=
  (c.runs_visits stack).runFrom_eq watch seen

end Chunk

end LoxArith
