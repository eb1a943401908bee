import LoxArith.Proofs.Lines
import LoxArith.Proofs.Number.Display
import LoxArith.Proofs.Trace

set_option autoImplicit false

/-! # What a listing tells of a chunk

A chunk is *legible* if its code is a row of complete instructions and its line table gives each of
them one line, and nothing else (`Chunk.Legible`). Compiled chunks are legible. The listing of a
legible chunk has a row for each instruction, which shows a bar if the instruction before it is on
the same line, and else the line (`Chunk.Spells.listing_eq`).

From the listing the code and the lines can be told (`Chunk.rows_inj`), row by row from the first
one on. Two rows for the same offset, behind the same line, begin with the same digits. The next
column is a bar or a number, and either way it tells the line. Of an instruction, the fourth letter
of the name tells which it is; the index of a constant is a number between brackets. The columns may
be wider than usual: what ends a number is the first character that is no digit.
-/

namespace LoxArith

/-! ## Numbers in columns -/

/-- The number behind some blanks, and what follows its digits; none if there are no digits. -/
def readColumn? (chars : List Char) : Option (Nat × List Char) :=
  (Json.takeDigits? (chars.dropWhile (· == ' '))).map fun (digits, rest) =>
    (Nat.ofDigitChars 10 digits 0, rest)

theorem readColumn?_digits (blanks : Nat) {digits rest : List Char} (hne : digits ≠ [])
    (hdigits : AllDigits digits) (hrest : ∀ c ∈ rest.head?, isDecimalDigit c = false) :
    readColumn? (List.replicate blanks ' ' ++ (digits ++ rest))
      = some (Nat.ofDigitChars 10 digits 0, rest) := by
  have hdrop : (List.replicate blanks ' ' ++ (digits ++ rest)).dropWhile (· == ' ')
      = digits ++ rest := by
    rw [List.dropWhile_append_of_pos]
    · obtain ⟨digit, more, rfl⟩ := List.exists_cons_of_ne_nil hne
      have hdigit : isDecimalDigit digit = true := hdigits digit List.mem_cons_self
      refine List.dropWhile_cons_of_neg ?_
      rw [beq_iff_eq]
      rintro rfl
      exact absurd hdigit (by decide)
    · intro c hc
      rw [List.eq_of_mem_replicate hc]
      rfl
  rw [readColumn?, hdrop, Json.takeDigits?_append hne hdigits hrest]
  rfl

/-- The number of a column is read back, if no digit follows. -/
theorem readColumn?_column {fill : Char} (hfill : fill = ' ' ∨ fill = '0') (width n : Nat)
    {rest : List Char} (hrest : ∀ c ∈ rest.head?, isDecimalDigit c = false) :
    readColumn? ((column fill width n).toList ++ rest) = some (n, rest) := by
  rw [column, String.toList_ofList]
  rcases hfill with rfl | rfl
  · rw [List.leftpad, List.append_assoc,
      readColumn?_digits _ (digitsOf_ne_nil n) (allDigits_digitsOf n) hrest, digitsOf,
      Nat.ofDigitChars_ten_toDigits]
  · -- the zeros in front belong to the digits
    have hne : (digitsOf n).leftpad width '0' ≠ [] := by simp [List.leftpad, digitsOf_ne_nil]
    have hread := readColumn?_digits 0 hne (allDigits_leftpad width n) hrest
    rwa [ofDigitChars_leftpad] at hread

theorem column_inj {fill : Char} (hfill : fill = ' ' ∨ fill = '0') {width n m : Nat} {c : Char}
    (hc : isDecimalDigit c = false) {rest rest' : List Char}
    (h : (column fill width n).toList ++ c :: rest = (column fill width m).toList ++ c :: rest') :
    n = m ∧ rest = rest' := by
  have hend : ∀ {tail : List Char}, ∀ d ∈ (c :: tail).head?, isDecimalDigit d = false := by
    intro tail d hd
    rwa [← Option.some.inj hd]
  have hread := congrArg readColumn? h
  rw [readColumn?_column hfill width n hend, readColumn?_column hfill width m hend] at hread
  obtain ⟨hn, htail⟩ := Prod.mk.inj (Option.some.inj hread)
  exact ⟨hn, (List.cons.inj htail).2⟩

/-! ## The column of lines -/

/-- What stands in the column of lines at an instruction of a line, behind one of another line: a
bar if it is the same line, and else the number. -/
def lineMark (before : Option Nat) (line : Nat) : String :=
  if before = some line then "   | " else column ' ' 4 line ++ " "

theorem lineMark_inj {before : Option Nat} {line line' : Nat} {rest rest' : List Char}
    (h : (lineMark before line).toList ++ rest = (lineMark before line').toList ++ rest') :
    line = line' ∧ rest = rest' := by
  have hnumber : ∀ (line : Nat) (rest : List Char),
      readColumn? ((column ' ' 4 line ++ " ").toList ++ rest) = some (line, ' ' :: rest) := by
    intro line rest
    rw [String.toList_append, List.append_assoc]
    exact readColumn?_column (Or.inl rfl) 4 line (by simp; decide)
  have hbar : ∀ rest : List Char, readColumn? ("   | ".toList ++ rest) = none := fun _ => rfl
  have hread := congrArg readColumn? h
  unfold lineMark at h hread
  split at hread
  · rename_i hline
    split at hread
    · rename_i hline'
      rw [if_pos hline, if_pos hline'] at h
      exact ⟨Option.some.inj (hline.symm.trans hline'), List.append_cancel_left h⟩
    · rw [hbar, hnumber] at hread
      cases hread
  · split at hread
    · rw [hbar, hnumber] at hread
      cases hread
    · rw [hnumber, hnumber] at hread
      obtain ⟨hline, hrest⟩ := Prod.mk.inj (Option.some.inj hread)
      exact ⟨hline, (List.cons.inj hrest).2⟩

/-- A bar stands where the line is the same, and nowhere else. -/
theorem bar_mem_lineMark_iff (before : Option Nat) (line : Nat) :
    '|' ∈ (lineMark before line).toList ↔ before = some line := by
  unfold lineMark
  split
  · rename_i hline
    exact iff_of_true (by decide) hline
  · rename_i hline
    refine iff_of_false ?_ hline
    rw [String.toList_append, List.mem_append, column, String.toList_ofList, List.leftpad,
      List.mem_append]
    rintro ((hfill | hdigit) | hend)
    · exact absurd (List.eq_of_mem_replicate hfill) (by decide)
    · exact absurd (allDigits_digitsOf line _ hdigit) (by decide)
    · exact absurd hend (by decide)

/-! ## The column of instructions -/

namespace Chunk

variable {c c' : Chunk}

/-- What a listing of the chunk shows of an instruction. -/
def textOf (c : Chunk) : Instruction → String
  | .load index =>
      String.ofList (OpCode.constant.name.toList.rightpad 12 ' ') ++ " (" ++
        column '0' 2 index.toNat ++ ") " ++
        String.ofList ((c.constantText index.toNat).toList.leftpad 8 ' ')
  | i => i.opCode.name

theorem textOf_of_ne {i : Instruction} (h : i.opCode ≠ .constant) : c.textOf i = i.opCode.name := by
  cases i with
  | load index => exact absurd rfl h
  | _ => rfl

theorem exists_textOf (c : Chunk) (i : Instruction) :
    ∃ operand, (c.textOf i).toList = i.opCode.name.toList ++ operand := by
  by_cases hload : i.opCode = .constant
  · obtain ⟨index, rfl⟩ := Instruction.opCode_eq_constant hload
    simp only [textOf, String.toList_append, String.toList_ofList, List.rightpad, List.append_assoc]
    exact ⟨_, rfl⟩
  · rw [textOf_of_ne hload]
    exact ⟨[], (List.append_nil _).symm⟩

/-- The fourth letter of a name tells the instruction. -/
theorem opCode_eq_of_textOf {i j : Instruction} (h : c.textOf i = c'.textOf j) :
    i.opCode = j.opCode := by
  have hnames : ∀ op op' : OpCode, 3 < op.name.toList.length ∧
      (op.name.toList[3]? = op'.name.toList[3]? → op = op') := by
    intro op op'
    cases op <;> cases op' <;> decide
  have hletter : ∀ (c : Chunk) (i : Instruction),
      (c.textOf i).toList[3]? = i.opCode.name.toList[3]? := by
    intro c i
    obtain ⟨operand, htext⟩ := c.exists_textOf i
    rw [htext, List.getElem?_append_left (hnames i.opCode i.opCode).1]
  apply (hnames _ _).2
  rw [← hletter c i, ← hletter c' j, h]

/-- The text of an instruction tells the instruction, whatever the pools hold. -/
theorem textOf_inj {i j : Instruction} (h : c.textOf i = c'.textOf j) : i = j := by
  have hop := opCode_eq_of_textOf h
  cases i with
  | load index =>
      obtain ⟨index', rfl⟩ := Instruction.opCode_eq_constant hop.symm
      have hchars := congrArg String.toList h
      simp only [textOf, String.toList_append, List.append_assoc] at hchars
      have hindex := (column_inj (Or.inr rfl) (by decide)
        (List.append_cancel_left (List.append_cancel_left hchars))).1
      rw [UInt8.toNat_inj.1 hindex]
  | negate =>
      cases j with
      | negate => rfl
      | binary operator => cases operator <;> cases hop
      | _ => cases hop
  | binary operator =>
      cases j with
      | binary operator' => cases operator <;> cases operator' <;> first | rfl | cases hop
      | _ => cases operator <;> cases hop
  | finish => exact (Instruction.opCode_eq_return hop.symm).symm

/-! ## Legible chunks -/

/-- The code is a row of complete instructions, the line table covers exactly the code, and both
bytes of a load are on the same line. -/
structure Legible (c : Chunk) : Prop where
  complete : ∃ is, c.code.toList = assemble is
  covered : c.lines.length = c.size
  together : ∀ offset, c.Starts offset → c.code[offset]? = some OpCode.constant.toByte →
    c.line? (offset + 1) = c.line? offset

/-- The chunk is these instructions, each on its line. -/
structure Spells (c : Chunk) (is : List (Instruction × Nat)) : Prop where
  code : c.code.toList = assemble (is.map Prod.fst)
  lines : c.lines.decoded = linesOf is

end Chunk

theorem Instruction.bytes_pos (i : Instruction) : 0 < i.bytes.length := by
  rw [i.length_bytes]
  cases i.opCode <;> decide

/-- The bytes of an instruction have one line, if both bytes of a load have the same one. -/
theorem Instruction.exists_line (i : Instruction) {lines : List Nat}
    (hlength : i.bytes.length ≤ lines.length)
    (htogether : i.opCode = .constant → lines[1]? = lines[0]?) :
    ∃ line others, lines = List.replicate i.bytes.length line ++ others := by
  rw [i.length_bytes] at hlength ⊢
  by_cases hload : i.opCode = .constant
  · rw [hload] at hlength ⊢
    match lines, hlength, htogether hload with
    | line :: next :: others, _, hsame =>
        obtain rfl : next = line := Option.some.inj hsame
        exact ⟨next, others, rfl⟩
  · have hwidth : i.opCode.width = 1 := by
      cases hop : i.opCode with
      | constant => exact absurd hop hload
      | _ => rfl
    rw [hwidth] at hlength ⊢
    obtain ⟨line, others, rfl⟩ := List.exists_cons_of_length_pos hlength
    exact ⟨line, others, rfl⟩

/-- Instructions can be given lines, if both bytes of each load have the same one. -/
theorem exists_attributed (is : List Instruction) {lines : List Nat}
    (hlength : lines.length = (assemble is).length)
    (htogether : ∀ before i behind, is = before ++ i :: behind → i.opCode = .constant →
      lines[(assemble before).length + 1]? = lines[(assemble before).length]?) :
    ∃ attributed : List (Instruction × Nat),
      attributed.map Prod.fst = is ∧ linesOf attributed = lines := by
  induction is generalizing lines with
  | nil => exact ⟨[], rfl, (List.length_eq_zero_iff.1 hlength).symm⟩
  | cons i is ih =>
      rw [assemble_cons, List.length_append] at hlength
      obtain ⟨line, others, rfl⟩ := i.exists_line (by omega) (htogether [] i is rfl)
      have hbehind : ∀ before j behind, is = before ++ j :: behind → j.opCode = .constant →
          others[(assemble before).length + 1]? = others[(assemble before).length]? := by
        intro before j behind his hload
        have hlines := htogether (i :: before) j behind (by rw [his, List.cons_append]) hload
        rw [assemble_cons, List.length_append, Nat.add_assoc] at hlines
        simpa [List.getElem?_append_right] using hlines
      obtain ⟨attributed, rfl, rfl⟩ := ih (by simpa using hlength) hbehind
      exact ⟨(i, line) :: attributed, rfl, List.flatMap_cons⟩

namespace Chunk

variable {c c' : Chunk}

theorem Legible.exists_spells (h : c.Legible) : ∃ is, c.Spells is := by
  obtain ⟨is, hcode⟩ := h.complete
  have hcovered := h.covered
  rw [LineTable.length_eq, size, ← Array.length_toList, hcode] at hcovered
  have htogether : ∀ before i behind, is = before ++ i :: behind → i.opCode = .constant →
      c.lines.decoded[(assemble before).length + 1]?
        = c.lines.decoded[(assemble before).length]? := by
    intro before i behind his hload
    rw [his] at hcode
    have hlines := h.together _ ((starts_iff hcode _).2 ⟨before, _, rfl, rfl⟩)
      (hload ▸ code_opCode hcode)
    rwa [line?, line?, LineTable.line?_eq, LineTable.line?_eq] at hlines
  obtain ⟨attributed, rfl, hlines⟩ := exists_attributed is hcovered htogether
  exact ⟨attributed, hcode, hlines.symm⟩

namespace Spells

variable {before behind : List (Instruction × Nat)} {i : Instruction} {line : Nat}

theorem size_eq (h : c.Spells (before ++ behind)) :
    c.size = (linesOf before).length + (linesOf behind).length := by
  rw [size, ← Array.length_toList, h.code, ← length_linesOf, linesOf_append, List.length_append]

/-- Each byte of an instruction is on its line. -/
theorem line?_eq (h : c.Spells (before ++ (i, line) :: behind)) {byte : Nat}
    (hbyte : byte < i.bytes.length) : c.line? ((linesOf before).length + byte) = some line := by
  have hlines : linesOf ((i, line) :: behind)
      = List.replicate i.bytes.length line ++ linesOf behind := List.flatMap_cons
  rw [line?, LineTable.line?_eq, h.lines, linesOf_append, hlines,
    List.getElem?_append_right (Nat.le_add_right _ _), Nat.add_sub_cancel_left,
    List.getElem?_append_left (by simpa using hbyte), List.getElem?_replicate, if_pos hbyte]

theorem legible {is : List (Instruction × Nat)} (h : c.Spells is) : c.Legible := by
  refine ⟨⟨_, h.code⟩, ?_, ?_⟩
  · rw [LineTable.length_eq, h.lines, length_linesOf, size, ← Array.length_toList, h.code]
  · intro offset hstart hload
    obtain ⟨before, i, behind, his, rfl, hop⟩ := hstart.exists_instruction h.code hload
    obtain ⟨index, rfl⟩ := Instruction.opCode_eq_constant hop
    obtain ⟨front, rest, rfl, rfl, hrest⟩ := List.map_eq_append_iff.1 his
    obtain ⟨⟨_, line⟩, back, rfl, rfl, -⟩ := List.map_eq_cons_iff.1 hrest
    rw [← length_linesOf]
    exact (h.line?_eq Nat.one_lt_two).trans (h.line?_eq Nat.two_pos).symm

end Spells

/-! ## The rows of a listing -/

/-- The rows of a listing from an offset on, behind an instruction of a line. -/
def rows (c : Chunk) (offset : Nat) (before : Option Nat) : List (Instruction × Nat) → List String
  | [] => []
  | (i, line) :: is =>
      (column '0' 4 offset ++ " " ++ lineMark before line ++ c.textOf i) ::
        c.rows (offset + i.bytes.length) (some line) is

namespace Spells

variable {before behind : List (Instruction × Nat)} {i : Instruction} {line : Nat}

/-- The column of lines looks at the byte before, which belongs to the instruction before. -/
theorem lineColumn_eq (h : c.Spells (before ++ (i, line) :: behind)) :
    c.lineColumn (linesOf before).length = lineMark (before.getLast?.map Prod.snd) line := by
  have hline : c.line? (linesOf before).length = some line := h.line?_eq (i.bytes_pos)
  unfold lineColumn lineMark
  rw [hline]
  rcases List.eq_nil_or_concat before with rfl | ⟨front, ⟨j, line'⟩, rfl⟩
  · rfl
  · have hbytes := j.bytes_pos
    have hlength : (linesOf (front ++ [(j, line')])).length
        = (linesOf front).length + j.bytes.length := by simp [linesOf]
    rw [List.concat_eq_append] at h hline ⊢
    rw [List.append_assoc, List.singleton_append] at h
    have hbefore : c.line? ((linesOf (front ++ [(j, line')])).length - 1) = some line' := by
      rw [hlength, Nat.add_sub_assoc hbytes]
      exact h.line?_eq (Nat.sub_lt hbytes Nat.one_pos)
    have hpos : 0 < (linesOf (front ++ [(j, line')])).length := by omega
    rw [hbefore]
    simp [hpos]

theorem instructionText_eq (h : c.Spells (before ++ (i, line) :: behind)) :
    c.instructionText (linesOf before).length = c.textOf i := by
  have hcode := h.code
  rw [List.map_append, List.map_cons] at hcode
  unfold instructionText
  rw [length_linesOf, code_opCode hcode]
  dsimp only
  rw [OpCode.ofByte?_toByte]
  cases i with
  | load index =>
      dsimp only [Instruction.opCode]
      rw [constantInstructionText, code_operand hcode]
      rfl
  | binary operator => cases operator <;> rfl
  | _ => rfl

theorem widthAt_eq (h : c.Spells (before ++ (i, line) :: behind)) :
    c.widthAt (linesOf before).length = i.bytes.length := by
  have hcode := h.code
  rw [List.map_append, List.map_cons] at hcode
  rw [length_linesOf, widthAt_of_opCode (code_opCode hcode), i.length_bytes]

/-- The rows are the lines of the instructions that are left. -/
theorem rows_eq (h : c.Spells (before ++ behind)) {offsets : List Nat}
    (htiles : c.Tiles (linesOf before).length offsets) :
    c.rows (linesOf before).length (before.getLast?.map Prod.snd) behind
      = offsets.map c.lineOf := by
  have hsize := h.size_eq
  induction behind generalizing before offsets with
  | nil =>
      cases htiles with
      | finish _ => rfl
      | next hin _ => exact absurd hin (by simp [hsize, linesOf])
  | cons row behind ih =>
      obtain ⟨i, line⟩ := row
      have hbytes := i.bytes_pos
      have hlength : (linesOf (before ++ [(i, line)])).length
          = (linesOf before).length + i.bytes.length := by simp [linesOf]
      have hlast : (before ++ [(i, line)]).getLast?.map Prod.snd = some line := by simp
      cases htiles with
      | finish hend =>
          have hpos : 0 < (linesOf ((i, line) :: behind)).length := by simp [linesOf, hbytes]
          omega
      | next hin more =>
          rw [h.widthAt_eq, ← hlength] at more
          have hafter : c.Spells ((before ++ [(i, line)]) ++ behind) := by simpa using h
          have hrows := ih hafter more hafter.size_eq
          rw [hlast, hlength] at hrows
          rw [rows, hrows, List.map_cons, lineOf, h.lineColumn_eq, h.instructionText_eq]

variable {is : List (Instruction × Nat)}

/-- **The listing of a legible chunk** has a row for each instruction. -/
theorem listing_eq (h : c.Spells is) (name : String) :
    c.listing name = "== " ++ name ++ " ==\n"
      ++ String.join ((c.rows 0 none is).map (· ++ "\n")) := by
  obtain ⟨offsets, htiles, hlist⟩ := c.exists_tiles 0
  have hrows : c.rows 0 none is = offsets.map c.lineOf := @rows_eq _ [] is h _ htiles
  rw [listing, hlist, hrows, List.map_map]
  rfl

theorem lineFeed_notMem_rows (h : c.Spells is) : ∀ row ∈ c.rows 0 none is, '\n' ∉ row.toList := by
  obtain ⟨offsets, htiles, -⟩ := c.exists_tiles 0
  have hrows : c.rows 0 none is = offsets.map c.lineOf := @rows_eq _ [] is h _ htiles
  rw [hrows]
  intro row hrow
  obtain ⟨offset, -, rfl⟩ := List.mem_map.1 hrow
  exact (c.lineOf_line offset).1

end Spells

/-! ## From the listing to the chunk -/

/-- Rows that begin at the same offset, behind the same line, tell the instructions and their
lines, whatever the pools hold. -/
theorem rows_inj {offset : Nat} {before : Option Nat} {is js : List (Instruction × Nat)}
    (h : c.rows offset before is = c'.rows offset before js) : is = js := by
  induction is generalizing offset before js with
  | nil =>
      cases js with
      | nil => rfl
      | cons j js => cases h
  | cons i is ih =>
      cases js with
      | nil => cases h
      | cons j js =>
          obtain ⟨hrow, hrows⟩ := List.cons.inj h
          have hchars := congrArg String.toList hrow
          simp only [String.toList_append, List.append_assoc] at hchars
          obtain ⟨hline, htext⟩ :=
            lineMark_inj (List.append_cancel_left (List.append_cancel_left hchars))
          have hinstruction : i.1 = j.1 := textOf_inj (String.toList_inj.1 htext)
          obtain rfl : i = j := Prod.ext hinstruction hline
          rw [ih hrows]

end Chunk

/-- Lines can be told from the text that they make. -/
theorem lines_inj {lines lines' : List String} (h : ∀ line ∈ lines, '\n' ∉ line.toList)
    (h' : ∀ line ∈ lines', '\n' ∉ line.toList)
    (heq : String.join (lines.map (· ++ "\n")) = String.join (lines'.map (· ++ "\n"))) :
    lines = lines' := by
  have hchars : ∀ lines : List String, (String.join (lines.map (· ++ "\n"))).toList
      = lines.flatMap fun line => line.toList ++ ['\n'] := by
    intro lines
    rw [String.toList_join, List.flatMap_map]
    exact congrArg (List.flatMap · lines) (funext fun line => String.toList_append)
  have hsplit := congrArg (List.splitOn '\n' ·.toList) heq
  rw [hchars, hchars, splitOn_lines h, splitOn_lines h'] at hsplit
  have hlines := List.append_cancel_right hsplit
  exact List.map_injective_iff.2 (fun _ _ => String.toList_inj.1) hlines

namespace Chunk

/-- **From the listing of a legible chunk its code and its lines can be told.** -/
theorem Spells.listing_inj {c c' : Chunk} {is js : List (Instruction × Nat)} {name : String}
    (h : c.Spells is) (h' : c'.Spells js) (heq : c.listing name = c'.listing name) : is = js := by
  rw [h.listing_eq, h'.listing_eq] at heq
  have hrows := (String.append_right_inj _).1 heq
  exact rows_inj (lines_inj h.lineFeed_notMem_rows h'.lineFeed_notMem_rows hrows)

/-- The code and the lines are those of the instructions. -/
theorem Spells.same {c c' : Chunk} {is : List (Instruction × Nat)} (h : c.Spells is)
    (h' : c'.Spells is) : c.code = c'.code ∧ ∀ offset, c.line? offset = c'.line? offset := by
  constructor
  · exact Array.toList_inj.1 (h.code.trans h'.code.symm)
  · intro offset
    rw [line?, line?, LineTable.line?_eq, LineTable.line?_eq, h.lines, h'.lines]

end Chunk

/-- A compiled chunk is its instructions, each on its line. -/
theorem spells_of_compile {source : String} {chunk : Chunk} (h : compile source = .ok chunk) :
    ∃ is, chunk.Spells is := by
  obtain ⟨s, -, -, hsmall, rfl⟩ := compile_eq_ok_iff.1 h
  refine ⟨s.attributed (poolByte s.expr.constants) ++ [(.finish, (tokensOf source).last.line)],
    ?_, ?_⟩
  · rw [(s.codeOf_program hsmall _).code, List.map_append, s.attributed_map_fst]
    rfl
  · rw [s.program_lines, linesOf_append, s.linesOf_attributed]
    rfl

/-- **A listing loses neither code nor lines.** Two legible chunks that have the same listing under
the same name have the same code and the same line for every byte, whatever their pools and the
runs of their line tables are. Every compiled chunk is legible. It is some instructions, each on its
line, and its listing has a row for each of them: the offset, a bar or a line, and the text of the
instruction. The bar stands where the instruction before is on the same line, and nowhere else;
otherwise it is the line of the instruction itself that stands there. -/
theorem told_by_listing :
    (∀ (c c' : Chunk) (name : String), c.Legible → c'.Legible →
      c.listing name = c'.listing name →
      c.code = c'.code ∧ ∀ offset, c.line? offset = c'.line? offset) ∧
    ∀ (source : String) (chunk : Chunk), compile source = .ok chunk →
      chunk.Legible ∧ ∃ is : List (Instruction × Nat),
        chunk.code.toList = assemble (is.map Prod.fst) ∧
        (∀ offset, chunk.line? offset = (linesOf is)[offset]?) ∧
        (∀ name, chunk.listing name = "== " ++ name ++ " ==\n"
          ++ String.join ((chunk.rows 0 none is).map (· ++ "\n"))) ∧
        ∀ before line, ('|' ∈ (lineMark before line).toList ↔ before = some line) ∧
          (before ≠ some line → lineMark before line = column ' ' 4 line ++ " ") := by
  constructor
  · intro c c' name h h' heq
    obtain ⟨is, his⟩ := h.exists_spells
    obtain ⟨js, hjs⟩ := h'.exists_spells
    obtain rfl := his.listing_inj hjs heq
    exact his.same hjs
  · intro source chunk hcompile
    obtain ⟨is, his⟩ := spells_of_compile hcompile
    refine ⟨his.legible, is, his.code, ?_, his.listing_eq, ?_⟩
    · intro offset
      rw [Chunk.line?, LineTable.line?_eq, his.lines]
    · intro before line
      exact ⟨bar_mem_lineMark_iff before line, fun hother => if_neg hother⟩

/-- A chunk with more in its pool than it loads, and with runs that could be fewer. -/
def Chunk.untidy : Chunk where
  code := #[0, 0, 1]
  constants := #[1, 2]
  lines := ⟨#[⟨1, 2⟩, ⟨7, 0⟩, ⟨1, 1⟩]⟩

/-- The same chunk with only what is needed. -/
def Chunk.tidy : Chunk where
  code := #[0, 0, 1]
  constants := #[1]
  lines := ⟨#[⟨1, 3⟩]⟩

theorem told_by_listing_untidy :
    Chunk.untidy.Legible ∧ Chunk.tidy.Legible ∧
      Chunk.untidy.listing "code" = Chunk.tidy.listing "code" ∧
      Chunk.untidy.code = Chunk.tidy.code ∧ Chunk.untidy.line? 2 = Chunk.tidy.line? 2 ∧
      (Phrase.broken.program 4).Legible := by
  have huntidy : Chunk.untidy.Spells [(.load 0, 1), (.finish, 1)] := ⟨rfl, rfl⟩
  have htidy : Chunk.tidy.Spells [(.load 0, 1), (.finish, 1)] := ⟨rfl, rfl⟩
  have hlisting : Chunk.untidy.listing "code" = Chunk.tidy.listing "code" := by
    rw [huntidy.listing_eq, htidy.listing_eq]
    rfl
  obtain ⟨hcode, hlines⟩ :=
    told_by_listing.1 _ _ "code" huntidy.legible htidy.legible hlisting
  exact ⟨huntidy.legible, htidy.legible, hlisting, hcode, hlines 2,
    (told_by_listing.2 _ _ compile_broken).1⟩

end LoxArith
