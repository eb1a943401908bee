import LoxArith.Proofs.Faults
import LoxArith.Proofs.Machine.Registers
import LoxArith.Proofs.Machine.Reuse

set_option autoImplicit false

/-! # Any code is safe to run

A run of any chunk ends, whatever its bytes are and however little its lines have to do with
them. A step that goes on does so at a later offset inside the code or at its end, with at most
one value more or less; everything that is said of a whole run follows from that
(`Chunk.Runs.visits_spec`). No access on the way breaks the machine (`run_safely`).
-/

namespace LoxArith

namespace Chunk

variable {c : Chunk}

/-- How the number of values changes in a step that goes on. -/
theorem height_of_step {offset next : Nat} {stack after : Stack}
    (h : c.step offset stack = .goOn next after) :
    after.height ≤ stack.height + 1 ∧ stack.height ≤ after.height + 1 := by
  have hnext := lt_of_step_eq_goOn h
  have hno : ∀ ending, ¬ c.EndsAt offset stack.height ending := by
    intro ending hends
    obtain ⟨result, stopped, hstop, -⟩ := hends.step_eq_stop
    cases h.symm.trans hstop
  obtain ⟨op, after', -, hstep, hheight⟩ := exists_goOn (by omega) hno
  cases h.symm.trans hstep
  have hdepth : -1 ≤ depth [op] ∧ depth [op] ≤ 1 := by cases op <;> decide
  omega

/-- A run begins where it is said to, each visit is followed by the one that its step leads to,
and no visit is behind the end of the code. -/
theorem Runs.visits_spec {offset : Nat} {stack : Stack} {visits : List Visit} {outcome : Outcome}
    (h : c.Runs offset stack visits outcome) (hin : offset ≤ c.size) :
    visits.head? = some (offset, stack) ∧
      visits.IsChain (fun visit next => c.step visit.1 visit.2 = .goOn next.1 next.2) ∧
      (∀ visit ∈ visits, visit.1 ≤ c.size) ∧ visits.length + offset ≤ c.size + 1 := by
  induction h with
  | stop hstep =>
      refine ⟨rfl, .singleton _, ?_, ?_⟩
      · intro visit hvisit
        rw [List.mem_singleton.1 hvisit]
        exact hin
      · rw [List.length_singleton]
        omega
  | @goOn offset next _ _ visits _ hstep _ ih =>
      have hnext := lt_of_step_eq_goOn hstep
      obtain ⟨hhead, hchain, hinside, hlength⟩ := ih hnext.2
      refine ⟨rfl, ?_, ?_, ?_⟩
      · cases visits with
        | nil => exact .singleton _
        | cons visit visits =>
            obtain rfl := Option.some.inj hhead
            exact .cons_cons hstep hchain
      · intro visit hvisit
        rcases List.mem_cons.1 hvisit with rfl | hvisit
        · exact hin
        · exact hinside visit hvisit
      · rw [List.length_cons]
        omega

end Chunk

/-- **Running any code is safe and ends.** Take any chunk whose line counts add up to less than
`2 ^ 64`, and registers with any offset, any slots and any mark. From there the run, with every
index and sum checked, comes to an end without breaking; it is the run of the chunk on any
stack. It takes at most one step more than the code has bytes. The offsets before its steps
begin at zero and grow, and none is behind the end of the code. At most 256 values are live
before each step and at the end, and from one step to the next their number changes by at most
one. -/
theorem run_safely (c : Chunk) (hlines : c.lines.length < 2 ^ 64) (m : Registers) :
    ∃ seen result after, Registers.Runs c m.reset seen result after ∧
      (∀ seen' result' after', Registers.Runs c m.reset seen' result' after' →
        seen' = seen ∧ result' = result ∧ after' = after) ∧
      (∀ stack, c.sights stack = seen ∧ (c.run stack).result = result ∧
        (c.run stack).stack.live = after.slots.toList.take after.height) ∧
      seen.length ≤ c.size + 1 ∧
      (seen.map Prod.fst).head? = some 0 ∧ (seen.map Prod.fst).Pairwise (· < ·) ∧
      (∀ sight ∈ seen, sight.1 ≤ c.size ∧ sight.2.length ≤ 256) ∧
      seen.IsChain (fun sight next =>
        next.2.length ≤ sight.2.length + 1 ∧ sight.2.length ≤ next.2.length + 1) ∧
      after.height ≤ 256 := by
  have hruns := c.runs_visits ⟨m.slots, 0, Nat.zero_le _⟩
  obtain ⟨hhead, hchain, hinside, hlength⟩ := hruns.visits_spec (Nat.zero_le _)
  obtain ⟨last, hregisters⟩ := Registers.runs_of_runs hlines hruns
  rw [← m.reset_eq ⟨m.slots, 0, Nat.zero_le _⟩ rfl] at hregisters
  refine ⟨_, _, _, hregisters, fun _ _ _ h => hregisters.unique h, ?_, ?_, ?_, ?_, ?_, ?_, ?_⟩
  · intro stack
    obtain ⟨hresult, hsights, hlive⟩ := (Chunk.matches_of_eq (c := c) rfl rfl).run_eq stack _
    exact ⟨hsights, hresult.eq, hlive⟩
  · rw [List.length_map]
    exact hlength
  · rw [List.head?_map, List.head?_map, hhead]
    rfl
  · rw [List.map_map]
    refine List.IsChain.pairwise (List.isChain_map_of_isChain _ ?_ hchain)
    intro visit next hstep
    exact (Chunk.lt_of_step_eq_goOn hstep).1
  · intro sight hsight
    obtain ⟨visit, hvisit, rfl⟩ := List.mem_map.1 hsight
    exact ⟨hinside visit hvisit, visit.2.length_live ▸ visit.2.height_le⟩
  · refine List.isChain_map_of_isChain _ ?_ hchain
    intro visit next hstep
    rw [Stack.length_live, Stack.length_live]
    exact Chunk.height_of_step hstep
  · exact (c.run _).stack.height_le

/-- A load, a load outside the pool, and lines of which the first run is empty and the second one
far longer than the code. -/
def misfit : Chunk := ⟨#[0, 0, 0, 9], #[7.0], ⟨#[⟨3, 0⟩, ⟨5, 2 ^ 63⟩]⟩⟩

/-- Registers whose mark is behind the slots. -/
def misfitRegisters : Registers := ⟨77, Stack.empty.slots, 1000⟩

theorem run_safely_misfit :
    misfit.lines.length < 2 ^ 64 ∧
      ∃ seen result after, Registers.Runs misfit misfitRegisters.reset seen result after ∧
        seen.length ≤ misfit.size + 1 := by
  have hlines : misfit.lines.length < 2 ^ 64 := by decide
  obtain ⟨seen, result, after, hruns, -, -, hlength, -⟩ := run_safely misfit hlines misfitRegisters
  exact ⟨hlines, seen, result, after, hruns, hlength⟩

end LoxArith
