import LoxArith.Proofs.Complaint
import LoxArith.Proofs.Language

set_option autoImplicit false

/-! # Following a text up to the first complaint

Up to its first complaint the parser follows the text: it knows the slot behind the lexemes it
has passed, and none of them was a violation (`Parser.Follows`). At the next lexeme it either
follows on or makes the first complaint, and then nothing changes that any more
(`Parser.Blamed`). A violation is complained about at the lexeme itself or behind it; in the
second case a fault of the scanner may come first.
-/

namespace LoxArith

namespace Parser

/-! ## Complaints stay -/

theorem complaint_read_eq {d : Diagnostic} {tokens : List Token} {p : Parser}
    (h : p.complaint = some d) : (read tokens p).complaint = some d := by
  induction tokens generalizing p with
  | nil => exact h
  | cons token tokens ih =>
      cases token with
      | lexeme l => exact h
      | fault f line =>
          apply ih
          rw [complain_of_complaint (by simp [h])]
          exact h

/-- The first complaint is kept across every move. -/
theorem respected_complaint :
    Respected fun p q => ∀ d, p.complaint = some d → q.complaint = some d where
  refl _ _ h := h
  trans h h' d hp := h' d (h d hp)
  complain p d _ h := by
    rw [complain_of_complaint (by simp [h])]
    exact h
  advance _ _ h := complaint_read_eq h
  emitByte _ _ _ h := h
  poolIndex p value d h := by
    unfold poolIndex complainAtPrevious
    dsimp only
    split
    · exact h
    · rw [complain_of_complaint (by simp [h])]
      exact h
  effort _ _ _ h := h

/-- The parser has made the first complaint about the text. -/
def Blamed (tokens : Tokens) (p : Parser) : Prop :=
  ∃ d, p.complaint = some d ∧ tokens.FirstComplaint d

theorem Blamed.kept {tokens : Tokens} {p q : Parser} (h : p.Blamed tokens)
    (hkept : ∀ d, p.complaint = some d → q.complaint = some d) : q.Blamed tokens := by
  obtain ⟨d, hcomplaint, hfirst⟩ := h
  exact ⟨d, hkept d hcomplaint, hfirst⟩

theorem complain_of_none {p : Parser} (h : p.complaint = none) (d : Diagnostic) :
    (p.complain d).complaint = some d := by
  unfold complain
  rw [h]

/-! ## Standing in a text -/

/-- The parser has passed the lexemes `passed` without a complaint, and looks at the next one
or at the end of the text. -/
structure Stands (tokens : Tokens) (passed : List Lexeme) (p : Parser) : Prop where
  complaint : p.complaint = none
  last : p.last = tokens.last
  items : tokens.items = passed.map Token.lexeme ++ .lexeme p.current :: p.rest ∨
    tokens.items = passed.map Token.lexeme ∧ p.current = tokens.last ∧ p.rest = []

section

variable {tokens : Tokens} {passed : List Lexeme} {p : Parser}

namespace Stands

theorem of_eq {q : Parser} (h : p.Stands tokens passed) (hcomplaint : q.complaint = p.complaint)
    (hlast : q.last = p.last) (hcurrent : q.current = p.current) (hrest : q.rest = p.rest) :
    q.Stands tokens passed := by
  refine ⟨hcomplaint.trans h.complaint, hlast.trans h.last, ?_⟩
  rw [hcurrent, hrest]
  exact h.items

/-- What is passed are the first lexemes of the text, and the current one comes next. -/
theorem exists_lexemes (h : p.Stands tokens passed) :
    ∃ ls, tokens.lexemes = passed ++ ls ∧ ls.headD tokens.last = p.current := by
  have hpassed : ∀ items, (passed.map Token.lexeme ++ items).filterMap Token.lexeme?
      = passed ++ items.filterMap Token.lexeme? := by
    intro items
    rw [List.filterMap_append, List.filterMap_map]
    congr 1
    exact List.filterMap_some
  rcases h.items with hitems | ⟨hitems, hcurrent, -⟩
  · exact ⟨_, by rw [Tokens.lexemes, hitems, hpassed], rfl⟩
  · refine ⟨[], ?_, hcurrent.symm⟩
    have hnil := hpassed []
    rw [List.append_nil] at hnil
    rw [Tokens.lexemes, hitems, hnil]
    rfl

theorem take_lexemes (h : p.Stands tokens passed) :
    tokens.lexemes.take passed.length = passed := by
  obtain ⟨ls, hls, -⟩ := h.exists_lexemes
  rw [hls, List.take_left]

theorem lexemeAt (h : p.Stands tokens passed) : tokens.lexemeAt passed.length = p.current := by
  obtain ⟨ls, hls, hcurrent⟩ := h.exists_lexemes
  rw [Tokens.lexemeAt, hls, List.getD_append_right _ _ _ _ (Nat.le_refl _), Nat.sub_self,
    ← hcurrent]
  cases ls <;> rfl

theorem length_le (h : p.Stands tokens passed) : passed.length ≤ tokens.lexemes.length := by
  obtain ⟨ls, hls, -⟩ := h.exists_lexemes
  simp [hls]

theorem violatesAt_iff (h : p.Stands tokens passed) :
    tokens.ViolatesAt passed.length ↔ Violates passed p.current := by
  rw [Tokens.ViolatesAt, h.take_lexemes, h.lexemeAt]

/-- The faults of the text are further behind. -/
theorem lt_of_firstFault (h : p.Stands tokens passed) {count line : Nat} {fault : ScanFault}
    (hfault : tokens.FirstFault count fault line) : passed.length < count := by
  rcases h.items with hitems | ⟨hitems, -, -⟩
  · have hsplit : tokens.items = (passed ++ [p.current]).map Token.lexeme ++ p.rest := by
      simp [hitems]
    have hle := hfault.length_le hsplit
    rw [List.length_append, List.length_singleton] at hle
    omega
  · exact absurd hfault (Tokens.not_firstFault hitems)

/-- Passing a lexeme leads to the next one, or to a fault behind it. -/
theorem advance (h : p.Stands tokens passed) (hclosed : tokens.Closed)
    (hend : p.current.kind ≠ .endOfText) :
    p.advance.Stands tokens (passed ++ [p.current]) ∨
      ∃ fault line, tokens.FirstFault (passed.length + 1) fault line ∧
        p.advance.complaint = some ⟨line, .unknown, fault.message⟩ := by
  rcases h.items with hitems | ⟨-, hcurrent, -⟩
  · cases hrest : p.rest with
    | nil =>
        have hadvance : p.advance
            = { p with previous := p.current, current := p.last, rest := [] } := by
          rw [Parser.advance, hrest, read]
        rw [hadvance]
        exact Or.inl ⟨h.complaint, h.last, Or.inr ⟨by simp [hitems, hrest], h.last, rfl⟩⟩
    | cons token rest =>
        cases token with
        | lexeme l =>
            have hadvance : p.advance
                = { p with previous := p.current, current := l, rest := rest } := by
              rw [Parser.advance, hrest, read]
            rw [hadvance]
            exact Or.inl ⟨h.complaint, h.last, Or.inl (by simp [hitems, hrest])⟩
        | fault f line =>
            refine Or.inr ⟨f, line, ⟨passed ++ [p.current], rest, by simp, ?_⟩, ?_⟩
            · simp [hitems, hrest]
            · rw [Parser.advance, hrest, read]
              refine complaint_read_eq (complain_of_none ?_ _)
              exact h.complaint
  · exact absurd (hcurrent ▸ hclosed.last) hend

/-- The end of the text is passed without a change, and the text has no fault. -/
theorem advance_end (h : p.Stands tokens passed) (hclosed : tokens.Closed)
    (hend : p.current.kind = .endOfText) :
    p.advance.complaint = none ∧ tokens.items = passed.map Token.lexeme := by
  rcases h.items with hitems | ⟨hitems, -, hrest⟩
  · exact absurd hend (hclosed.items _ (by simp [hitems]))
  · refine ⟨?_, hitems⟩
    rw [Parser.advance, hrest]
    exact h.complaint

end Stands

theorem read_chunk (tokens : List Token) (p : Parser) : (read tokens p).chunk = p.chunk := by
  induction tokens generalizing p with
  | nil => rfl
  | cons token tokens ih =>
      cases token with
      | lexeme l => rfl
      | fault f line =>
          rw [read, ih]
          unfold complain
          split <;> rfl

theorem advance_chunk (p : Parser) : p.advance.chunk = p.chunk := read_chunk _ _

/-! ## Following a text -/

/-- The parser stands behind lexemes that are the beginning of a sentence and keep within the
limits. Its pool holds their constants. -/
structure Follows (tokens : Tokens) (passed : List Lexeme) (slot : Slot) (p : Parser) :
    Prop where
  stands : p.Stands tokens passed
  clear : ∀ i < passed.length, ¬ tokens.ViolatesAt i
  slot : slotBehind passed = some slot
  pools : p.chunk.Pools (constantsOf passed)
  small : p.chunk.constants.size ≤ 256

namespace Follows

variable {slot next : Slot} {fault : SyntaxFault}

theorem of_eq {q : Parser} (h : p.Follows tokens passed slot)
    (hcomplaint : q.complaint = p.complaint) (hlast : q.last = p.last)
    (hcurrent : q.current = p.current) (hrest : q.rest = p.rest)
    (hconstants : q.chunk.constants = p.chunk.constants) : q.Follows tokens passed slot :=
  ⟨h.stands.of_eq hcomplaint hlast hcurrent hrest, h.clear, h.slot,
    ⟨hconstants ▸ h.pools.bits, h.pools.magnitudes⟩, hconstants ▸ h.small⟩

theorem firstViolation (h : p.Follows tokens passed slot) (hviolates : Violates passed p.current)
    (hfault : slot.fault p.current.kind = fault) : tokens.FirstViolation passed.length fault := by
  refine ⟨h.stands.length_le, h.stands.violatesAt_iff.2 hviolates, h.clear, slot, ?_, ?_⟩
  · rw [h.stands.take_lexemes]
    exact h.slot
  · rw [h.stands.lexemeAt]
    exact hfault

/-- A violation that is noticed at the lexeme itself. -/
theorem blamed_current (h : p.Follows tokens passed slot) (hviolates : Violates passed p.current)
    (hfault : slot.fault p.current.kind = fault)
    (hreach : fault.reach passed.length = passed.length) :
    (p.complainAtCurrent fault).Blamed tokens := by
  refine ⟨_, complain_of_none h.stands.complaint _, ?_⟩
  have hfirst := Tokens.FirstComplaint.violation (h.firstViolation hviolates hfault) (by
    intro count scanFault line hscan
    rw [hreach]
    exact h.stands.lt_of_firstFault hscan)
  rw [h.stands.lexemeAt] at hfirst
  exact hfirst

/-- A violation that is noticed behind the lexeme. A fault right behind it comes first. -/
theorem blamed_passed (h : p.Follows tokens passed slot) (hclosed : tokens.Closed)
    (hviolates : Violates passed p.current) (hfault : slot.fault p.current.kind = fault)
    (hreach : fault.reach passed.length = passed.length + 1) {q : Parser}
    (hcomplaint : q.complaint = p.advance.complaint) (hprevious : q.previous = p.current) :
    (q.complainAtPrevious fault).Blamed tokens := by
  have hviolation := h.firstViolation hviolates hfault
  have hblamed : q.complaint = none →
      (∀ count scanFault line, tokens.FirstFault count scanFault line →
        passed.length + 1 < count) → (q.complainAtPrevious fault).Blamed tokens := by
    intro hnone hfar
    refine ⟨_, complain_of_none hnone _, ?_⟩
    have hfirst := Tokens.FirstComplaint.violation hviolation (hreach ▸ hfar)
    rw [h.stands.lexemeAt, ← hprevious] at hfirst
    exact hfirst
  by_cases hend : p.current.kind = .endOfText
  · obtain ⟨hnone, hitems⟩ := h.stands.advance_end hclosed hend
    apply hblamed (hcomplaint.trans hnone)
    intro count scanFault line hscan
    exact absurd hscan (Tokens.not_firstFault hitems)
  · rcases h.stands.advance hclosed hend with hstands | ⟨scanFault, line, hscan, hsome⟩
    · apply hblamed (hcomplaint.trans hstands.complaint)
      intro count scanFault line hscan
      have hlt := hstands.lt_of_firstFault hscan
      simpa using hlt
    · -- the fault is met before the violation is noticed
      refine Blamed.kept ⟨_, hcomplaint.trans hsome, .fault hscan ?_⟩
        (respected_complaint.complain q _)
      intro i violation hviolation'
      obtain ⟨rfl, rfl⟩ := hviolation.unique hviolation'
      exact Nat.le_of_eq hreach.symm

/-- A lexeme that is no violation is passed, unless a fault is right behind it. -/
theorem passes (h : p.Follows tokens passed slot) (hclosed : tokens.Closed)
    (hend : p.current.kind ≠ .endOfText) (hfine : ¬ Violates passed p.current) :
    p.advance.Blamed tokens ∨ p.advance.Stands tokens (passed ++ [p.current]) ∧
      ∀ i < (passed ++ [p.current]).length, ¬ tokens.ViolatesAt i := by
  have hclear : ∀ i < passed.length + 1, ¬ tokens.ViolatesAt i := by
    intro i hi
    rcases Nat.lt_succ_iff_lt_or_eq.1 hi with hlt | rfl
    · exact h.clear i hlt
    · rw [h.stands.violatesAt_iff]
      exact hfine
  rcases h.stands.advance hclosed hend with hstands | ⟨scanFault, line, hscan, hsome⟩
  · refine Or.inr ⟨hstands, ?_⟩
    simpa using hclear
  · exact Or.inl ⟨_, hsome, hscan.firstComplaint hclear⟩

/-- A lexeme that leads on is passed. A number is more work. -/
theorem advance (h : p.Follows tokens passed slot) (hclosed : tokens.Closed)
    (hstep : slot.step p.current.kind = some next) (hdeep : ¬ TooDeep passed)
    (hnumber : p.current.kind ≠ .number) :
    p.advance.Blamed tokens ∨ p.advance.Follows tokens (passed ++ [p.current]) next := by
  have hend : p.current.kind ≠ .endOfText := by
    intro hend
    rw [hend] at hstep
    cases slot <;> cases hstep
  have hfine := not_violates_of_step h.slot hstep hdeep fun hoverfills => hnumber hoverfills.1
  rcases h.passes hclosed hend hfine with hblamed | ⟨hstands, hclear⟩
  · exact Or.inl hblamed
  · refine Or.inr ⟨hstands, hclear, slotBehind_concat h.slot hstep, ?_, ?_⟩
    · rw [advance_chunk, constantsOf_concat_other hnumber]
      exact h.pools
    · rw [advance_chunk]
      exact h.small

/-- The pool with the constant of a number holds the constants up to the number. -/
theorem pools_number (h : p.Follows tokens passed slot) (hkind : p.current.kind = .number) :
    (p.chunk.addConstant (literalValue p.current.text)).2.Pools
      (constantsOf (passed ++ [p.current])) := by
  rw [constantsOf_concat_number hkind]
  exact (h.pools.addConstant (isMagnitude_literalValue p.current.text)).1

/-- A number whose constant fits into the pool is passed and loaded. -/
theorem load {frames : List Frame} (h : p.Follows tokens passed (.before frames))
    (hclosed : tokens.Closed) (hkind : p.current.kind = .number)
    (hlt : frames.length < maxNesting)
    (hindex : (p.chunk.addConstant (literalValue p.current.text)).1 < 256) :
    (p.advance.emitConstant (literalValue p.current.text)).Blamed tokens ∨
      (p.advance.emitConstant (literalValue p.current.text)).Follows tokens
        (passed ++ [p.current]) (.behind frames) := by
  have hpools := h.pools_number hkind
  have hsmall := size_addConstant_le h.small hindex
  have hstep : (Slot.before frames).step p.current.kind = some (.behind frames) := by
    rw [hkind]
    rfl
  have hroom : ¬ Overfills passed p.current := by
    rintro ⟨-, hmany⟩
    rw [← hpools.size_constants] at hmany
    omega
  have hfine := not_violates_of_step h.slot hstep (not_tooDeep_before h.slot hlt) hroom
  rcases h.passes hclosed (by simp [hkind]) hfine with hblamed | ⟨hstands, hclear⟩
  · exact Or.inl (hblamed.kept (respected_complaint.emitConstant _ _))
  · rw [← advance_chunk] at hindex hpools hsmall
    rw [emitConstant_eq hindex]
    exact Or.inr ⟨hstands.of_eq rfl rfl rfl rfl, hclear, slotBehind_concat h.slot hstep,
      ⟨hpools.bits, hpools.magnitudes⟩, hsmall⟩

/-- A number whose constant does not fit is a violation. -/
theorem blamed_number {frames : List Frame} (h : p.Follows tokens passed (.before frames))
    (hclosed : tokens.Closed) (hkind : p.current.kind = .number)
    (hlt : frames.length < maxNesting)
    (hindex : ¬ (p.chunk.addConstant (literalValue p.current.text)).1 < 256) :
    (p.advance.emitConstant (literalValue p.current.text)).Blamed tokens := by
  have hviolates : Violates passed p.current := by
    have hin := p.chunk.addConstant_lt (literalValue p.current.text)
    rw [(h.pools_number hkind).size_constants] at hin
    exact Or.inr (Or.inr ⟨hkind, by omega⟩)
  have hfault : (Slot.before frames).fault p.current.kind = .tooManyConstants := by
    simp only [Slot.fault, if_neg (Nat.not_le.2 hlt), hkind]
    rfl
  have hblamed : (p.advance.poolIndex (literalValue p.current.text)).2.Blamed tokens := by
    rw [← advance_chunk] at hindex
    rw [poolIndex_of_not_lt hindex]
    exact h.blamed_passed hclosed hviolates hfault rfl rfl (advance_previous p)
  exact hblamed

/-- A text that is followed to its end has nothing to complain about. -/
theorem not_firstComplaint {inner : List Frame}
    (h : p.Follows tokens passed (.behind inner)) (hclosed : tokens.Closed)
    (hgroup : Frame.group ∉ inner) (hend : p.current.kind = .endOfText) (d : Diagnostic) :
    ¬ tokens.FirstComplaint d := by
  intro hfirst
  obtain ⟨-, hitems⟩ := h.stands.advance_end hclosed hend
  have hlength : tokens.lexemes.length ≤ passed.length := by
    have hle := List.length_filterMap_le Token.lexeme? tokens.items
    rw [hitems, List.length_map] at hle
    rw [Tokens.lexemes, hitems]
    exact hle
  rcases hclosed.exists_firstComplaint_iff.1 ⟨d, hfirst⟩ with
    ⟨count, fault, line, hfault⟩ | ⟨i, hle, hviolates⟩
  · exact Tokens.not_firstFault hitems hfault
  · have hi : i = passed.length := by
      by_contra hne
      exact h.clear i (by omega) hviolates
    rw [hi, h.stands.violatesAt_iff] at hviolates
    rcases hviolates with hno | hdeep | hoverfills
    · exact hno ((continues_iff_ended h.slot hend).2 ⟨inner, rfl, hgroup⟩)
    · exact not_tooDeep_behind h.slot hdeep
    · exact absurd (hend.symm.trans hoverfills.1) (by decide)

end Follows

end

/-- The parser starts in front of all lexemes, or with a complaint about a fault before them. -/
theorem follows_start (tokens : Tokens) :
    (start tokens).Blamed tokens ∨ (start tokens).Follows tokens [] (.before []) := by
  have hfollows : ∀ p : Parser, p.Stands tokens [] → p.chunk = {} →
      p.Follows tokens [] (.before []) := by
    intro p hstands hchunk
    refine ⟨hstands, by simp, rfl, ?_, ?_⟩
    · rw [hchunk]
      exact Chunk.pools_nil
    · rw [hchunk]
      exact Nat.zero_le _
  unfold start advance
  cases hitems : tokens.items with
  | nil => exact Or.inr (hfollows _ ⟨rfl, rfl, Or.inr ⟨hitems, rfl, rfl⟩⟩ rfl)
  | cons token rest =>
      cases token with
      | lexeme l => exact Or.inr (hfollows _ ⟨rfl, rfl, Or.inl hitems⟩ rfl)
      | fault f line =>
          have hfault : tokens.FirstFault 0 f line := ⟨[], rest, rfl, hitems⟩
          refine Or.inl ⟨_, ?_, hfault.firstComplaint (by simp)⟩
          rw [read]
          exact complaint_read_eq (complain_of_none rfl _)

end Parser

end LoxArith
