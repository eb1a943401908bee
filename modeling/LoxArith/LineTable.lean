set_option autoImplicit false

/-! # Line tables

A line table says for every byte of code on which line of the source it arose. It is stored
as runs, each a line and how many bytes in a row belong to it. What a table means is its
decoded list, `LineTable.decoded`: looking up an offset is looking into that list, and
appending a line puts it at the end of the list.

Tables that are built by appending have no empty run and no two neighbouring runs of one
line. A table that was read from a file may have both, and the operations allow for it.
-/

namespace LoxArith

/-- `count` bytes in a row that belong to `line`. -/
structure LineRun where
  line : Nat
  count : Nat
  deriving DecidableEq, Repr

/-- The lines of the bytes of a chunk. -/
structure LineTable where
  runs : Array LineRun := #[]
  deriving DecidableEq, Repr

namespace LineTable

/-- The lines of some runs, one entry for each byte. -/
def expand (runs : List LineRun) : List Nat :=
  runs.flatMap fun run => List.replicate run.count run.line

/-- The line of each byte. -/
def decoded (table : LineTable) : List Nat := expand table.runs.toList

/-- Adds one byte: the last run grows if it has the same line. -/
def append (table : LineTable) (line : Nat) : LineTable :=
  match table.runs.back? with
  | some run =>
    if run.line = line then ⟨table.runs.pop.push ⟨line, run.count + 1⟩⟩
    else ⟨table.runs.push ⟨line, 1⟩⟩
  | none => ⟨table.runs.push ⟨line, 1⟩⟩

/-- The line at an offset that counts from the beginning of run `i`. -/
def lineFrom? (runs : Array LineRun) (i offset : Nat) : Option Nat :=
  if h : i < runs.size then
    if offset < runs[i].count then some runs[i].line
    else lineFrom? runs (i + 1) (offset - runs[i].count)
  else none
  termination_by runs.size - i

/-- The line of the byte at an offset. -/
def line? (table : LineTable) (offset : Nat) : Option Nat :=
  lineFrom? table.runs 0 offset

/-- How many bytes the table covers. -/
def length (table : LineTable) : Nat :=
  table.runs.foldl (fun sum run => sum + run.count) 0

/-- Whether the table has no runs. A table of empty runs covers no byte, yet has runs. -/
def isEmpty (table : LineTable) : Bool := table.runs.isEmpty

/-! ## The decoded list -/

theorem expand_append (front back : List LineRun) :
    expand (front ++ back) = expand front ++ expand back := by
  simp [expand]

theorem expand_cons (run : LineRun) (runs : List LineRun) :
    expand (run :: runs) = List.replicate run.count run.line ++ expand runs := by
  simp [expand]

/-- Appending a line puts it at the end of the decoded list. -/
theorem decoded_append (table : LineTable) (line : Nat) :
    (table.append line).decoded = table.decoded ++ [line] := by
  obtain ⟨⟨runs⟩⟩ := table
  unfold append decoded
  rcases List.eq_nil_or_concat runs with rfl | ⟨front, last, rfl⟩
  · simp [expand]
  · by_cases h : last.line = line
    · simp [h, expand, List.replicate_succ']
    · simp [h, expand]

theorem lineFrom?_eq (runs : Array LineRun) (i offset : Nat) :
    lineFrom? runs i offset = (expand (runs.toList.drop i))[offset]? := by
  fun_induction lineFrom? runs i offset with
  | case1 i offset h hlt =>
    rw [List.drop_eq_getElem_cons (by simpa using h), expand_cons,
      List.getElem?_append_left (by simpa using hlt)]
    simp [hlt]
  | case2 i offset h hle ih =>
    have hd : runs.toList.drop i = runs[i] :: runs.toList.drop (i + 1) := by
      rw [List.drop_eq_getElem_cons (by simpa using h), Array.getElem_toList]
    rw [ih, hd, expand_cons, List.getElem?_append_right (by simpa using hle)]
    simp
  | case3 i offset h =>
    rw [List.drop_eq_nil_of_le (by simpa using h)]
    simp [expand]

/-- Looking up an offset is looking into the decoded list. -/
theorem line?_eq (table : LineTable) (offset : Nat) :
    table.line? offset = table.decoded[offset]? := by
  simp [line?, decoded, lineFrom?_eq]

/-- The length of a table is that of the decoded list. -/
theorem length_eq (table : LineTable) : table.length = table.decoded.length := by
  obtain ⟨⟨runs⟩⟩ := table
  have fold : ∀ (runs : List LineRun) (sum : Nat),
      runs.foldl (fun sum run => sum + run.count) sum = sum + (expand runs).length := by
    intro runs
    induction runs with
    | nil => simp [expand]
    | cons run runs ih =>
      intro sum
      rw [List.foldl_cons, ih, expand_cons]
      simp
      omega
  simpa [length, decoded] using fold runs 0

end LineTable

end LoxArith
