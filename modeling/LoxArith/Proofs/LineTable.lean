import LoxArith.LineTable
import Mathlib.Data.List.Chain
import Mathlib.Data.List.Induction

set_option autoImplicit false

/-! # Tables that are built by appending

What appending does to the runs is said once (`append_cases`): either the last run has the line
and grows, or there is no such run and a new one begins. So a table that is built by appending has
no empty run and no two neighbouring runs of one line; it is `Canonical`. Conversely, appending the
lines that a canonical table decodes to, one after the other, builds this table again
(`Canonical.ofLines_decoded`). Canonical tables are therefore those that are built by appending,
and they are told apart by the lines they decode to.

A table that was read from a file need not be canonical. What it decodes to, and whether its counts
add up to a word, is all that the operations on it depend on.
-/

namespace LoxArith

/-- The number of words. -/
def wordCount : Nat := 2 ^ 64

namespace LineTable

/-- The table that is built by appending these lines. -/
def ofLines (lines : List Nat) : LineTable := lines.foldl append {}

theorem eq_of_runs {table table' : LineTable} (h : table.runs.toList = table'.runs.toList) :
    table = table' := by
  cases table
  cases table'
  exact congrArg mk (Array.toList_inj.1 h)

/-- **What appending does to the runs.** -/
theorem append_cases (table : LineTable) (line : Nat) :
    (∃ front count, table.runs.toList = front ++ [⟨line, count⟩] ∧
      (table.append line).runs.toList = front ++ [⟨line, count + 1⟩]) ∨
    (∀ run ∈ table.runs.toList.getLast?, run.line ≠ line) ∧
      (table.append line).runs.toList = table.runs.toList ++ [⟨line, 1⟩] := by
  obtain ⟨⟨runs⟩⟩ := table
  unfold append
  rcases List.eq_nil_or_concat runs with rfl | ⟨front, last, rfl⟩
  · exact Or.inr ⟨by simp, by simp⟩
  · by_cases hline : last.line = line
    · subst hline
      exact Or.inl ⟨front, last.count, by simp, by simp⟩
    · exact Or.inr ⟨by simpa using hline, by simp [hline]⟩

/-! ## The lines of a table that is built -/

theorem decoded_foldl_append (lines : List Nat) (table : LineTable) :
    (lines.foldl append table).decoded = table.decoded ++ lines := by
  induction lines generalizing table with
  | nil => simp
  | cons line lines ih => simp [ih, decoded_append]

/-- A table decodes to the lines it was built from. -/
@[simp] theorem decoded_ofLines (lines : List Nat) : (ofLines lines).decoded = lines := by
  rw [ofLines, decoded_foldl_append]
  rfl

/-- No run is longer than all lines. -/
theorem count_le_length {runs : List LineRun} {run : LineRun} (h : run ∈ runs) :
    run.count ≤ (expand runs).length := by
  obtain ⟨front, back, rfl⟩ := List.append_of_mem h
  simp only [expand_append, expand_cons, List.length_append, List.length_replicate]
  omega

/-! ## Runs without empty ones -/

/-- No run is empty. -/
def Solid (table : LineTable) : Prop := ∀ run ∈ table.runs.toList, 0 < run.count

namespace Solid

variable {table : LineTable}

theorem append (h : table.Solid) (line : Nat) : (table.append line).Solid := by
  intro run hrun
  rcases table.append_cases line with ⟨front, count, hruns, happend⟩ | ⟨-, happend⟩
  · rw [happend, List.mem_append, List.mem_singleton] at hrun
    rcases hrun with hrun | rfl
    · apply h run
      rw [hruns]
      exact List.mem_append_left _ hrun
    · exact Nat.succ_pos count
  · rw [happend, List.mem_append, List.mem_singleton] at hrun
    rcases hrun with hrun | rfl
    · exact h run hrun
    · exact Nat.one_pos

/-- A run stands for a byte of its line. -/
theorem line_mem (h : table.Solid) {run : LineRun} (hrun : run ∈ table.runs.toList) :
    run.line ∈ table.decoded := by
  apply List.mem_flatMap.2
  exact ⟨run, hrun, List.mem_replicate.2 ⟨Nat.ne_of_gt (h run hrun), rfl⟩⟩

end Solid

/-! ## Canonical tables -/

/-- No run is empty, and no two neighbouring runs have the same line. -/
structure Canonical (table : LineTable) : Prop where
  solid : table.Solid
  apart : table.runs.toList.IsChain fun run next => run.line ≠ next.line

theorem canonical_empty : ({} : LineTable).Canonical := by
  constructor
  · intro run hrun
    cases hrun
  · exact List.IsChain.nil

namespace Canonical

variable {table : LineTable}

/-- Appending keeps a table canonical. -/
theorem append (h : table.Canonical) (line : Nat) : (table.append line).Canonical := by
  refine ⟨h.solid.append line, ?_⟩
  have hapart := h.apart
  rcases table.append_cases line with ⟨front, count, hruns, happend⟩ | ⟨hlast, happend⟩
  · -- the last run has grown, and its line is what its neighbour looks at
    rw [hruns, List.isChain_append] at hapart
    obtain ⟨hfront, -, hjoint⟩ := hapart
    rw [happend, List.isChain_append]
    refine ⟨hfront, List.isChain_singleton _, ?_⟩
    simpa using hjoint
  · rw [happend, List.isChain_append]
    refine ⟨hapart, List.isChain_singleton _, ?_⟩
    simpa using hlast

/-- A canonical table without lines has no runs. -/
theorem isEmpty_iff (h : table.Canonical) : table.isEmpty = true ↔ table.length = 0 := by
  rw [length_eq, List.length_eq_zero_iff, isEmpty, Array.isEmpty_iff, ← Array.toList_eq_nil_iff]
  constructor
  · intro hruns
    rw [decoded, hruns]
    rfl
  · intro hdecoded
    apply List.eq_nil_iff_forall_not_mem.2
    intro run hrun
    have hmem := h.solid.line_mem hrun
    rw [hdecoded] at hmem
    cases hmem

end Canonical

theorem canonical_foldl_append {table : LineTable} (h : table.Canonical) (lines : List Nat) :
    (lines.foldl append table).Canonical := by
  induction lines generalizing table with
  | nil => exact h
  | cons line lines ih => exact ih (h.append line)

/-- A table that is built by appending is canonical. -/
theorem canonical_ofLines (lines : List Nat) : (ofLines lines).Canonical :=
  canonical_foldl_append canonical_empty lines

/-! ## A canonical table is built from its lines -/

/-- Equal lines make one run, if the run before them has another line. -/
theorem runs_foldl_append_replicate {table : LineTable} {line : Nat}
    (h : ∀ run ∈ table.runs.toList.getLast?, run.line ≠ line) (count : Nat) :
    ((List.replicate (count + 1) line).foldl append table).runs.toList
      = table.runs.toList ++ [⟨line, count + 1⟩] := by
  induction count with
  | zero =>
      show (table.append line).runs.toList = _
      rcases table.append_cases line with ⟨front, count, hruns, -⟩ | ⟨-, happend⟩
      · exact absurd rfl (h ⟨line, count⟩ (by simp [hruns]))
      · exact happend
  | succ count ih =>
      rw [List.replicate_succ', List.foldl_append, List.foldl_cons, List.foldl_nil]
      generalize (List.replicate (count + 1) line).foldl append table = built at ih
      rcases built.append_cases line with ⟨front, count', hruns, happend⟩ | ⟨hlast, -⟩
      · obtain ⟨rfl, hrun⟩ := List.append_inj' (hruns.symm.trans ih) rfl
        obtain ⟨-, rfl⟩ := LineRun.mk.inj (List.singleton_inj.1 hrun)
        exact happend
      · exact absurd rfl (hlast ⟨line, count + 1⟩ (by simp [ih]))

/-- **The lines that a canonical table decodes to build it again.** -/
theorem Canonical.ofLines_decoded {table : LineTable} (h : table.Canonical) :
    ofLines table.decoded = table := by
  obtain ⟨⟨runs⟩⟩ := table
  apply eq_of_runs
  show (ofLines (expand runs)).runs.toList = runs
  -- the runs are added one by one, the last one behind all others
  induction runs using List.reverseRecOn with
  | nil => rfl
  | append_singleton front last ih =>
      obtain ⟨hfront, -, hjoint⟩ := List.isChain_append.1 h.apart
      have hsolid : Solid ⟨front.toArray⟩ := fun run hrun =>
        h.solid run (List.mem_append_left _ hrun)
      have hbuilt := ih ⟨hsolid, hfront⟩
      have hpos : 0 < last.count := h.solid last (by simp)
      obtain ⟨count, hcount⟩ : ∃ count, last.count = count + 1 := ⟨last.count - 1, by omega⟩
      have hexpand : expand (front ++ [last])
          = expand front ++ List.replicate (count + 1) last.line := by
        simp [expand, hcount]
      have hlast : ∀ run ∈ (ofLines (expand front)).runs.toList.getLast?, run.line ≠ last.line := by
        rw [hbuilt]
        intro run hrun
        exact hjoint run hrun last (by simp)
      calc (ofLines (expand (front ++ [last]))).runs.toList
          = ((List.replicate (count + 1) last.line).foldl LineTable.append
              (ofLines (expand front))).runs.toList := by
            rw [hexpand, ofLines, List.foldl_append]
            rfl
        _ = (ofLines (expand front)).runs.toList ++ [⟨last.line, count + 1⟩] :=
            runs_foldl_append_replicate hlast count
        _ = front ++ [last] := by rw [hbuilt, ← hcount]

/-- The canonical tables are those that are built by appending. -/
theorem canonical_iff (table : LineTable) :
    table.Canonical ↔ ∃ lines, table = ofLines lines := by
  constructor
  · intro h
    exact ⟨table.decoded, h.ofLines_decoded.symm⟩
  · rintro ⟨lines, rfl⟩
    exact canonical_ofLines lines

/-- Canonical tables are told apart by the lines they decode to. -/
theorem Canonical.eq_iff {table table' : LineTable} (h : table.Canonical) (h' : table'.Canonical) :
    table = table' ↔ table.decoded = table'.decoded := by
  constructor
  · intro heq
    rw [heq]
  · intro hdecoded
    rw [← h.ofLines_decoded, ← h'.ofLines_decoded, hdecoded]

/-! ## Tables in words

The counts are words, and so must be the count that a run grows to, and the sums that a lookup and
the length form. Each of these is checked here, and nothing comes of what is no word. If the number
of lines is a word, and the next number too, every check passes. -/

/-- Adds one byte, if the count of its run is a word. -/
def append? (table : LineTable) (line : Nat) : Option LineTable :=
  match table.runs.back? with
  | some run =>
    if run.line = line then
      if wordCount ≤ run.count + 1 then none
      else some ⟨table.runs.pop.push ⟨line, run.count + 1⟩⟩
    else some ⟨table.runs.push ⟨line, 1⟩⟩
  | none => some ⟨table.runs.push ⟨line, 1⟩⟩

/-- Looks an offset up in some runs, behind `seen` bytes. The counts are added up, and it is
nothing if a sum is no word. -/
def resolve? (offset : Nat) : Nat → List LineRun → Option (Option Nat)
  | _, [] => some none
  | seen, run :: runs =>
    if wordCount ≤ seen + run.count then none
    else if offset < seen + run.count then some (some run.line)
    else resolve? offset (seen + run.count) runs

/-- Adds the counts of some runs to `seen`, if each sum is a word. -/
def sum? : Nat → List LineRun → Option Nat
  | seen, [] => some seen
  | seen, run :: runs =>
    if wordCount ≤ seen + run.count then none else sum? (seen + run.count) runs

theorem append?_eq {table : LineTable} (h : table.decoded.length + 1 < wordCount) (line : Nat) :
    table.append? line = some (table.append line) := by
  unfold append? append
  cases hlast : table.runs.back? with
  | none => rfl
  | some run =>
      have hmem : run ∈ table.runs.toList :=
        Array.mem_toList_iff.2 (Array.mem_of_back? hlast)
      have hcount : run.count ≤ table.decoded.length := count_le_length hmem
      have hword : ¬wordCount ≤ run.count + 1 := by omega
      by_cases hline : run.line = line
      · simp only [if_pos hline, if_neg hword]
      · simp only [if_neg hline]

/-- In words, the lookup is the one in the decoded list. -/
theorem resolve?_eq {runs : List LineRun} {seen : Nat} (past : Nat)
    (h : seen + (expand runs).length < wordCount) :
    resolve? (seen + past) seen runs = some (expand runs)[past]? := by
  induction runs generalizing seen past with
  | nil => rfl
  | cons run runs ih =>
      rw [expand_cons, List.length_append, List.length_replicate] at h
      rw [resolve?, if_neg (by omega), expand_cons]
      split
      · have hin : past < run.count := by omega
        rw [List.getElem?_append_left (by simpa using hin), List.getElem?_replicate, if_pos hin]
      · have hout : run.count ≤ past := by omega
        have hrest := @ih (seen + run.count) (past - run.count) (by omega)
        rw [show seen + run.count + (past - run.count) = seen + past by omega] at hrest
        rw [hrest, List.getElem?_append_right (by simpa using hout), List.length_replicate]

theorem sum?_eq {runs : List LineRun} {seen : Nat} (h : seen + (expand runs).length < wordCount) :
    sum? seen runs = some (seen + (expand runs).length) := by
  induction runs generalizing seen with
  | nil => rfl
  | cons run runs ih =>
      rw [expand_cons, List.length_append, List.length_replicate] at h ⊢
      rw [sum?, if_neg (by omega), ih (by omega), Nat.add_assoc]

/-- **In words, every operation does what it does in numbers.** -/
theorem in_words {table : LineTable} (h : table.length + 1 < wordCount) (line offset : Nat) :
    table.append? line = some (table.append line) ∧
      resolve? offset 0 table.runs.toList = some (table.line? offset) ∧
      sum? 0 table.runs.toList = some table.length := by
  rw [length_eq] at h
  have hsum : 0 + (expand table.runs.toList).length < wordCount := by
    rw [Nat.zero_add]
    exact Nat.lt_of_succ_lt h
  have hresolve := resolve?_eq offset hsum
  have hlength := sum?_eq hsum
  rw [Nat.zero_add] at hresolve hlength
  refine ⟨append?_eq h line, ?_, ?_⟩
  · rw [hresolve, line?_eq]
    rfl
  · rw [hlength, length_eq]
    rfl

end LineTable

end LoxArith
