import LoxArith.Proofs.Chunk.History
import LoxArith.Proofs.Lines
import LoxArith.Proofs.Token.Spacing

set_option autoImplicit false

/-! # How far compiled code extends

A text has no more lexemes than characters, a lexeme costs at most two bytes of code
(`Derives.length_lines_le`), and no line is further down than there are characters. So the code of a
text is at most twice as long as the text, with one byte more for the return (`compiled_extent`),
and for any text that a machine of 64 bits can hold, all lines and counts of its line table are
words.
-/

namespace LoxArith

/-! ## Two bytes for a lexeme -/

/-- The bytes that a goal starts with: those of the beginning of the chain. -/
def Goal.lines : Goal → List Nat
  | .more _ left => left.lines
  | _ => []

theorem Derives.length_lines_le {goal : Goal} {ls : List Lexeme} {s : Phrase}
    (h : Derives goal ls s) : s.lines.length ≤ goal.lines.length + 2 * ls.length := by
  have hnil : ∀ tier : Tier, tier.operand.lines = [] := by
    intro tier
    cases tier <;> rfl
  induction h with
  | number hkind => exact Nat.le_refl 2
  | negate hsign operand ih =>
      simp only [Goal.lines, Phrase.lines, List.length_append, List.length_cons, List.length_nil]
        at ih ⊢
      omega
  | group hopening inner hclose ih =>
      simp only [Phrase.lines, Goal.lines, List.length_cons, List.length_append] at ih ⊢
      omega
  | @chain tier _ _ _ _ first others ih ihothers =>
      rw [hnil] at ih
      simp only [Goal.lines, List.length_append, List.length_nil] at ih ihothers ⊢
      omega
  | stop => exact Nat.le_add_right _ _
  | @more tier _ _ _ _ _ _ _ hjoint htier operand others ih ihothers =>
      rw [hnil] at ih
      simp only [Goal.lines, Phrase.lines, List.length_append, List.length_cons, List.length_nil]
        at ih ihothers ⊢
      omega

/-! ## A character for a lexeme -/

theorem Takes.ne_gap {text : List Char} {s : Stretch} (h : Takes text s) (chars : List Char) :
    s ≠ .gap chars := by
  intro heq
  cases h <;> cases heq

theorem Cuts.length_tokensBehind_le {text : List Char} {ss : List Stretch} (h : Cuts text ss)
    (before : List Char) : (tokensBehind before ss).length ≤ text.length := by
  induction h generalizing before with
  | finish h => exact Nat.zero_le _
  | @take gap rest s ss hgap hstop htakes more ih =>
      have hchars := List.length_pos_iff.2 htakes.chars_ne_nil
      have hrest := ih (before ++ gap ++ s.chars)
      rw [List.length_append, List.length_append]
      cases s with
      | gap chars => exact absurd rfl (htakes.ne_gap chars)
      | lexeme kind chars =>
          show (tokensBehind (before ++ gap ++ chars) ss).length + 1 ≤ _
          simp only [Stretch.chars] at hchars hrest ⊢
          omega
      | fault f chars =>
          show (tokensBehind (before ++ gap ++ chars) ss).length + 1 ≤ _
          simp only [Stretch.chars] at hchars hrest ⊢
          omega

theorem length_items_tokensOf (source : String) :
    (tokensOf source).items.length ≤ source.length := by
  obtain ⟨ss, hcuts, hitems, -⟩ := cuts_tokensOf source
  rw [hitems, ← String.length_toList]
  exact hcuts.length_tokensBehind_le []

theorem lineFeeds_le_length (source : String) : lineFeeds source ≤ source.length := by
  rw [← String.ofList_toList (s := source), lineFeeds_ofList, String.length_ofList]
  exact List.count_le_length

/-! ## The extent of compiled code -/

/-- The bytes of a sentence are on lines of its text. -/
theorem IsSentence.line_le {source : String} {s : Phrase} (h : IsSentence source s) :
    ∀ line ∈ s.lines, line ≤ (tokensOf source).last.line := by
  intro line hline
  rw [← s.linesOf_attributed fun _ => 0] at hline
  obtain ⟨i, hi, hbytes⟩ := List.mem_flatMap.1 hline
  obtain ⟨l, hl, hmark⟩ := Phrase.exists_mark hi
  rw [(List.mem_replicate.1 hbytes).2, hmark]
  exact (List.pairwise_append.1 h.pairwise_marks).2.2 l hl _ (List.mem_singleton_self _)

/-- **Code is at most twice as long as its text**, with the return behind it, and no line is further
down than there are characters. -/
theorem compiled_extent {source : String} {chunk : Chunk} (h : compile source = .ok chunk) :
    ∀ run ∈ chunk.lines.runs.toList,
      run.line ≤ source.length + 1 ∧ run.count ≤ 2 * source.length + 1 := by
  obtain ⟨s, hs, -, -, rfl⟩ := compile_eq_ok_iff.1 h
  have hlast : (tokensOf source).last.line ≤ source.length + 1 := by
    have hfeeds := lineFeeds_le_length source
    rw [last_line_tokensOf]
    omega
  have hdecoded := s.program_lines (tokensOf source).last.line
  have hbytes : s.lines.length ≤ 2 * source.length := by
    obtain ⟨ls, hitems, hderives⟩ := hs
    have hle := hderives.length_lines_le
    have hitemsLe := length_items_tokensOf source
    rw [hitems, List.length_map] at hitemsLe
    simp only [Goal.lines, List.length_nil] at hle
    omega
  have hlines : ∀ line ∈ s.lines ++ [(tokensOf source).last.line], line ≤ source.length + 1 := by
    intro line hline
    rcases List.mem_append.1 hline with hline | hline
    · exact Nat.le_trans (hs.line_le line hline) hlast
    · exact List.mem_singleton.1 hline ▸ hlast
  intro run hrun
  obtain ⟨edits, hedits⟩ := s.exists_edits_program (tokensOf source).last.line
  have hsolid : (s.program (tokensOf source).last.line).lines.Solid := by
    rw [hedits]
    exact (Chunk.canonical_edited edits).solid
  have hline := hsolid.line_mem hrun
  have hcount : run.count ≤ (s.program (tokensOf source).last.line).lines.decoded.length :=
    LineTable.count_le_length hrun
  rw [hdecoded] at hline hcount
  rw [List.length_append, List.length_singleton] at hcount
  exact ⟨hlines _ hline, by omega⟩

end LoxArith
