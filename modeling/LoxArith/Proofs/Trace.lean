import LoxArith.Proofs.Listing
import LoxArith.Trace

set_option autoImplicit false

/-! # What a trace shows

A trace has an entry for each visit of the run: a line with the stack, which starts with
blanks, and the line that the listing has for the instruction. Since no line holds a line
break, the lines can be told apart in the text, and the text without the lines of the stack
(`instructionLines`) is the beginning of the listing (`Chunk.trace_follows_listing`); for a program
that returns a value it is the whole of it.
-/

namespace LoxArith

/-- The lines of a text that do not start with a blank. -/
def instructionLines (text : String) : String :=
  String.ofList (['\n'].intercalate
    ((List.splitOn '\n' text.toList).filter fun line => line.head? != some ' '))

/-! ## Texts without line breaks -/

theorem lineFeed_notMem_digitsOf (n : Nat) : '\n' ∉ digitsOf n := by
  intro h
  have hdigit := Nat.isDigit_of_mem_toDigits (by decide) (by decide) h
  exact absurd hdigit (by decide)

theorem lineFeed_notMem_leftpad {fill : Char} {chars : List Char} (width : Nat)
    (hfill : fill ≠ '\n') (h : '\n' ∉ chars) : '\n' ∉ chars.leftpad width fill := by
  rw [List.leftpad, List.mem_append]
  rintro (hpad | hchars)
  · exact hfill (List.eq_of_mem_replicate hpad).symm
  · exact h hchars

theorem lineFeed_notMem_withPoint (places n : Nat) : '\n' ∉ withPoint places n := by
  have hdigits : '\n' ∉ (digitsOf n).leftpad (places + 1) '0' :=
    lineFeed_notMem_leftpad (places + 1) (by decide) (lineFeed_notMem_digitsOf n)
  unfold withPoint
  simp only [List.mem_append, List.mem_cons, not_or]
  exact ⟨fun h => hdigits (List.mem_of_mem_take h), by decide,
    fun h => hdigits (List.mem_of_mem_drop h)⟩

theorem lineFeed_notMem_signChars (x : Float) : '\n' ∉ signChars x := by
  unfold signChars
  split <;> decide

theorem lineFeed_notMem_positional (d : Decimal) : '\n' ∉ d.positional := by
  unfold Decimal.positional
  split
  · rw [List.mem_append, not_or]
    exact ⟨lineFeed_notMem_digitsOf _, fun h => absurd (List.eq_of_mem_replicate h) (by decide)⟩
  · exact lineFeed_notMem_withPoint _ _

theorem lineFeed_notMem_display (x : Float) : '\n' ∉ (display x).toList := by
  have hsign := lineFeed_notMem_signChars x
  unfold display
  split
  · decide
  · simpa using hsign
  · split
    · simpa using hsign
    · simpa using ⟨hsign, lineFeed_notMem_positional _⟩

theorem lineFeed_notMem_fixedSix (x : Float) : '\n' ∉ (fixedSix x).toList := by
  have hsign := lineFeed_notMem_signChars x
  unfold fixedSix
  split
  · decide
  · simpa using hsign
  · simpa using ⟨hsign, lineFeed_notMem_withPoint _ _⟩

theorem lineFeed_notMem_column {fill : Char} (width n : Nat) (hfill : fill ≠ '\n') :
    '\n' ∉ (column fill width n).toList := by
  rw [column, String.toList_ofList]
  exact lineFeed_notMem_leftpad width hfill (lineFeed_notMem_digitsOf n)

/-- The line of the stack is one line, and it starts with a blank. -/
theorem stackText_line (values : List Float) :
    '\n' ∉ (stackText values).toList ∧ (stackText values).toList.head? = some ' ' := by
  have hcells :
      '\n' ∉ (String.join (values.map fun value => "[ " ++ display value ++ " ]")).toList := by
    rw [String.toList_join, List.mem_flatMap]
    rintro ⟨cell, hcell, hmem⟩
    obtain ⟨value, -, rfl⟩ := List.mem_map.1 hcell
    simp only [String.toList_append, List.mem_append] at hmem
    rcases hmem with (hmem | hmem) | hmem
    · exact absurd hmem (by decide)
    · exact lineFeed_notMem_display value hmem
    · exact absurd hmem (by decide)
  unfold stackText
  dsimp only
  rw [String.toList_append]
  refine ⟨?_, rfl⟩
  rw [List.mem_append, not_or]
  refine ⟨by decide, ?_⟩
  split
  · decide
  · exact hcells

namespace Chunk

variable {c : Chunk}

theorem lineFeed_notMem_lineColumn (c : Chunk) (offset : Nat) :
    '\n' ∉ (c.lineColumn offset).toList := by
  unfold lineColumn
  split
  · decide
  split
  · decide
  · rw [String.toList_append, List.mem_append, not_or]
    exact ⟨lineFeed_notMem_column 4 _ (by decide), by decide⟩

theorem lineFeed_notMem_constantText (c : Chunk) (index : Nat) :
    '\n' ∉ (c.constantText index).toList := by
  unfold constantText
  split
  · simp only [String.toList_append, List.mem_append, not_or]
    exact ⟨⟨by decide, lineFeed_notMem_fixedSix _⟩, by decide⟩
  · decide

theorem lineFeed_notMem_instructionText (c : Chunk) (offset : Nat) :
    '\n' ∉ (c.instructionText offset).toList := by
  unfold instructionText
  split
  · decide
  split
  · rw [String.toList_append, List.mem_append, not_or]
    refine ⟨by decide, ?_⟩
    show '\n' ∉ (Nat.repr _).toList
    rw [Nat.repr, String.toList_ofList]
    exact lineFeed_notMem_digitsOf _
  · unfold constantInstructionText
    dsimp only
    split
    · decide
    · simp only [String.toList_append, List.mem_append, not_or]
      refine ⟨⟨⟨⟨by decide, by decide⟩, lineFeed_notMem_column 2 _ (by decide)⟩, by decide⟩, ?_⟩
      rw [String.toList_ofList]
      exact lineFeed_notMem_leftpad 8 (by decide) (c.lineFeed_notMem_constantText _)
  · rename_i op _ _
    cases op <;> decide

/-- The line of an instruction without its line break. -/
def lineOf (c : Chunk) (offset : Nat) : String :=
  column '0' 4 offset ++ " " ++ c.lineColumn offset ++ c.instructionText offset

/-- The line of an instruction is one line, and it starts with a digit. -/
theorem lineOf_line (c : Chunk) (offset : Nat) :
    '\n' ∉ (c.lineOf offset).toList ∧ (c.lineOf offset).toList.head? ≠ some ' ' := by
  constructor
  · unfold lineOf
    simp only [String.toList_append, List.mem_append, not_or]
    exact ⟨⟨⟨lineFeed_notMem_column 4 _ (by decide), by decide⟩, c.lineFeed_notMem_lineColumn _⟩,
      c.lineFeed_notMem_instructionText _⟩
  · have hdigits : ∀ d ∈ (column '0' 4 offset).toList, d.isDigit := by
      rw [column, String.toList_ofList, List.leftpad]
      intro d hd
      rcases List.mem_append.1 hd with hd | hd
      · rw [List.eq_of_mem_replicate hd]
        rfl
      · exact Nat.isDigit_of_mem_toDigits (by decide) (by decide) hd
    have hlength : 4 ≤ (column '0' 4 offset).toList.length := by
      rw [column, String.toList_ofList, List.length_leftpad]
      exact Nat.le_max_left _ _
    obtain ⟨d, ds, hcolumn⟩ :=
      List.exists_cons_of_length_pos (Nat.lt_of_lt_of_le (by decide) hlength)
    have hd := hdigits d (hcolumn ▸ List.mem_cons_self)
    unfold lineOf
    simp only [String.toList_append, hcolumn, List.cons_append, List.head?_cons]
    intro h
    rw [Option.some.inj h] at hd
    exact absurd hd (by decide)

/-! ## The lines of a trace -/

/-- The lines that the trace shows before the step of a visit. -/
def visitLines (c : Chunk) (visit : Visit) : List String :=
  stackText visit.2.live :: if visit.1 < c.size then [c.lineOf visit.1] else []

theorem listingLine_toList (c : Chunk) (offset : Nat) :
    (c.listingLine offset).toList = (c.lineOf offset).toList ++ ['\n'] :=
  String.toList_append

theorem traceEntry_toList (c : Chunk) (visit : Visit) :
    (c.traceEntry visit.1 visit.2).toList
      = (c.visitLines visit).flatMap fun line => line.toList ++ ['\n'] := by
  have hstack : (stackText visit.2.live ++ "\n").toList
      = (stackText visit.2.live).toList ++ ['\n'] := String.toList_append
  unfold traceEntry visitLines
  dsimp only
  rw [String.toList_append, hstack, List.flatMap_cons]
  split
  · rw [listingLine_toList, List.flatMap_cons, List.flatMap_nil, List.append_nil]
  · rw [List.flatMap_nil]
    rfl

end Chunk

/-- Lines with their line breaks are lines between line breaks, and nothing behind the last
one. -/
theorem flatMap_lines (lines : List String) :
    (lines.flatMap fun line => line.toList ++ ['\n'])
      = ['\n'].intercalate (lines.map String.toList ++ [[]]) := by
  induction lines with
  | nil => rfl
  | cons line lines ih =>
      rw [List.flatMap_cons, ih, List.map_cons, List.cons_append]
      cases lines with
      | nil => simp
      | cons next lines => rw [List.map_cons, List.cons_append, List.intercalate_cons_cons]

/-- Lines can be told apart by their line breaks. -/
theorem splitOn_lines {lines : List String} (h : ∀ line ∈ lines, '\n' ∉ line.toList) :
    List.splitOn '\n' (lines.flatMap fun line => line.toList ++ ['\n'])
      = lines.map String.toList ++ [[]] := by
  rw [flatMap_lines]
  refine List.splitOn_intercalate '\n' ?_ (by simp)
  intro chars hchars
  rcases List.mem_append.1 hchars with hline | hlast
  · obtain ⟨line, hmem, rfl⟩ := List.mem_map.1 hline
    exact h line hmem
  · rw [List.mem_singleton.1 hlast]
    exact List.not_mem_nil

/-- Among lines, those that do not start with a blank are kept. -/
theorem instructionLines_eq {lines : List String} (h : ∀ line ∈ lines, '\n' ∉ line.toList) :
    (instructionLines (String.ofList (lines.flatMap fun line => line.toList ++ ['\n']))).toList
      = (lines.filter fun line => line.toList.head? != some ' ').flatMap
          fun line => line.toList ++ ['\n'] := by
  rw [instructionLines, String.toList_ofList, String.toList_ofList, splitOn_lines h,
    List.filter_append, List.filter_map, flatMap_lines]
  rfl

namespace Chunk

variable {c : Chunk}

/-- The trace is the entries of the visits in a row. -/
theorem runTraced_eq (c : Chunk) (stack : Stack) :
    (c.runTraced stack).1 = c.run stack ∧ (c.runTraced stack).2
      = String.join ((c.visits stack).map fun visit => c.traceEntry visit.1 visit.2) := by
  rw [runTraced, c.runWatched_eq]
  refine ⟨rfl, ?_⟩
  show _ = List.foldl _ _ _
  rw [List.foldl_map]

/-- Without the lines of the stack, the trace shows the instructions of the visits. -/
theorem instructionLines_trace (c : Chunk) (stack : Stack) :
    (instructionLines (c.runTraced stack).2).toList
      = (((c.visits stack).map Prod.fst).filter (· < c.size)).flatMap
          fun offset => (c.listingLine offset).toList := by
  have htrace : (c.runTraced stack).2 = String.ofList
      (((c.visits stack).flatMap c.visitLines).flatMap fun line => line.toList ++ ['\n']) := by
    rw [← String.toList_inj, (c.runTraced_eq stack).2, String.toList_join, String.toList_ofList,
      List.flatMap_map, List.flatMap_assoc]
    exact congrArg (fun f => List.flatMap f _) (funext c.traceEntry_toList)
  rw [htrace, instructionLines_eq]
  · -- of each visit, the line of its instruction is kept
    rw [List.filter_flatMap, List.flatMap_assoc]
    induction c.visits stack with
    | nil => rfl
    | cons visit visits ih =>
        rw [List.flatMap_cons, ih, List.map_cons, List.filter_cons]
        have hstack := (stackText_line visit.2.live).2
        have hline := (c.lineOf_line visit.1).2
        unfold visitLines
        by_cases hin : visit.1 < c.size
        · simp [hstack, hline, hin, listingLine_toList]
        · simp [hstack, hin]
  · intro line hline
    obtain ⟨visit, -, hmem⟩ := List.mem_flatMap.1 hline
    unfold visitLines at hmem
    rcases List.mem_cons.1 hmem with rfl | hmem
    · exact (stackText_line _).1
    · split at hmem
      · rw [List.mem_singleton.1 hmem]
        exact (c.lineOf_line _).1
      · cases hmem

/-! ## The trace and the listing -/

/-- The visits inside the code, and at most one behind it. -/
theorem Tiles.visits_inside {offsets : List Nat} (h : c.Tiles 0 offsets) (stack : Stack) :
    ((c.visits stack).map Prod.fst).filter (· < c.size) <+: offsets ∧
      ((c.visits stack).map Prod.fst = ((c.visits stack).map Prod.fst).filter (· < c.size) ∨
        (c.visits stack).map Prod.fst
          = ((c.visits stack).map Prod.fst).filter (· < c.size) ++ [c.size]) := by
  have hinside : ∀ {ps : List Nat}, ps <+: offsets → ps.filter (· < c.size) = ps := by
    intro ps hps
    rw [List.filter_eq_self]
    intro p hp
    exact decide_eq_true (h.bounds p (hps.subset hp)).2
  rcases h.visits (c.runs_visits stack) (Nat.zero_le _) with hvisits | hvisits
  · rw [hinside hvisits]
    exact ⟨hvisits, Or.inl rfl⟩
  · rw [hvisits, List.filter_append, hinside (List.prefix_refl offsets)]
    have hend : [c.size].filter (· < c.size) = [] := by simp
    rw [hend, List.append_nil]
    exact ⟨List.prefix_refl _, Or.inr rfl⟩

/-- A program that returns a value visits all of its instructions. -/
theorem Tiles.visits_of_ok {offsets : List Nat} (h : c.Tiles 0 offsets) {source : String}
    (hcompile : compile source = .ok c) {stack : Stack} {value : Float}
    (hvalue : (c.run stack).result = .ok value) : (c.visits stack).map Prod.fst = offsets := by
  obtain ⟨s, -, -, hsmall, hchunk⟩ := compile_eq_ok_iff.1 hcompile
  have hcode := s.codeOf_program hsmall (tokensOf source).last.line
  rw [← hchunk] at hcode
  obtain ⟨front, last, hvisits, hlast⟩ := (c.runs_visits stack).last_return hvalue
  have hlt : last < c.size := (Array.getElem?_eq_some_iff.1 hlast).1
  rcases h.visits (c.runs_visits stack) (Nat.zero_le _) with hall | hall
  · obtain ⟨back, hback⟩ := hall
    rw [hvisits] at hback ⊢
    have hmem : last ∈ offsets := hback ▸ by simp
    have hend := hcode.return_last (h.starts .zero last hmem) hlast
    -- no instruction stands behind the return
    cases back with
    | nil => rw [← hback, List.append_nil]
    | cons o back =>
        have hordered := h.pairwise
        rw [← hback, List.append_assoc, List.pairwise_append] at hordered
        have hafter : last < o := (List.pairwise_cons.1 hordered.2.1).1 o (by simp)
        have ho := (h.bounds o (hback ▸ by simp)).2
        omega
  · -- a visit behind the code is no visit to a return
    rw [hvisits] at hall
    have heq := (List.append_inj' hall rfl).2
    rw [(List.cons.inj heq).1] at hlt
    exact absurd hlt (Nat.lt_irrefl _)

/-- **The trace follows the listing.** The offsets of a listing tile the code: they start at
zero, each follows the one before it by the byte length of the instruction there, and only the
last instruction may lack its operand. The machine visits the first of them in their order, and
at most one offset more, the end of the code. The trace shows for each visit the stack and the
line of the listing, if the visit is inside the code, so that without the lines of the stack it
is the beginning of the listing behind its title; if the chunk was compiled and returns a value,
it is the whole of it. -/
theorem trace_follows_listing (c : Chunk) (stack : Stack) :
    ∃ offsets : List Nat,
      (∀ name, c.listing name
        = "== " ++ name ++ " ==\n" ++ String.join (offsets.map c.listingLine)) ∧
      (0 < c.size → offsets.head? = some 0) ∧
      offsets.Pairwise (· < ·) ∧ (∀ o ∈ offsets, o < c.size) ∧
      (∀ front o back, offsets = front ++ o :: back →
        (∀ o', back.head? = some o' → o' = o + c.widthAt o) ∧
        (back = [] → o + c.widthAt o = c.size ∨ (c.widthAt o = 2 ∧ o + 1 = c.size))) ∧
      ((c.visits stack).map Prod.fst).filter (· < c.size) <+: offsets ∧
      ((c.visits stack).map Prod.fst = ((c.visits stack).map Prod.fst).filter (· < c.size) ∨
        (c.visits stack).map Prod.fst
          = ((c.visits stack).map Prod.fst).filter (· < c.size) ++ [c.size]) ∧
      (c.runTraced stack).1 = c.run stack ∧
      (c.runTraced stack).2 = String.join ((c.visits stack).map fun visit =>
        stackText visit.2.live ++ "\n"
          ++ if visit.1 < c.size then c.listingLine visit.1 else "") ∧
      (∃ rest, String.join (offsets.map c.listingLine)
        = instructionLines (c.runTraced stack).2 ++ rest) ∧
      (∀ source value, compile source = .ok c → (c.run stack).result = .ok value →
        (c.visits stack).map Prod.fst = offsets ∧
          instructionLines (c.runTraced stack).2 = String.join (offsets.map c.listingLine)) := by
  obtain ⟨offsets, htiles, hlist⟩ := c.exists_tiles 0
  obtain ⟨hinside, hbeyond⟩ := htiles.visits_inside stack
  obtain ⟨hrun, htrace⟩ := c.runTraced_eq stack
  have hlines := c.instructionLines_trace stack
  refine ⟨offsets, fun name => hlist _, ?_, htiles.pairwise, fun o ho => (htiles.bounds o ho).2,
    fun front o back h => htiles.ends h, hinside, hbeyond, hrun, htrace, ?_, ?_⟩
  · intro hpos
    cases htiles with
    | finish hend => exact absurd hpos (Nat.not_lt_of_le hend)
    | next _ _ => rfl
  · obtain ⟨back, hback⟩ := hinside
    refine ⟨String.join (back.map c.listingLine), ?_⟩
    rw [← String.toList_inj, String.toList_append, hlines, String.toList_join, String.toList_join,
      List.flatMap_map, List.flatMap_map, ← List.flatMap_append, hback]
  · intro source value hcompile hvalue
    have hvisits := htiles.visits_of_ok hcompile hvalue
    refine ⟨hvisits, ?_⟩
    have hall : offsets.filter (· < c.size) = offsets := by
      rw [List.filter_eq_self]
      intro o ho
      exact decide_eq_true (htiles.bounds o ho).2
    rw [← String.toList_inj, hlines, hvisits, hall, String.toList_join, List.flatMap_map]

end Chunk

end LoxArith
