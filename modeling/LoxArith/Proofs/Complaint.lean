import LoxArith.Compile
import LoxArith.Proofs.Grammar.Beginning
import LoxArith.Proofs.Pool
import LoxArith.Proofs.Token.Lexical

set_option autoImplicit false

/-! # The first complaint about a text

What is to be said about a text that does not compile, in terms of its tokens. A lexeme is a
violation if no sentence goes on with it, or if it breaks the limit on levels or on constants
(`Violates`). What is wrong about it follows from its kind and its slot (`Slot.fault`).

The scanner's faults stand between the lexemes. The first of them is complained about if it
is met before the first violation is. It need not stand in front of it: some violations are
noticed only when the lexeme has been passed, and passing it means to look at what is behind it
(`SyntaxFault.reach`).
-/

namespace LoxArith

/-! ## Violations -/

/-- The doubles of the number lexemes. -/
def constantsOf (ls : List Lexeme) : List Float :=
  (ls.filter fun l => l.kind = .number).map fun l => literalValue l.text

theorem constantsOf_concat_number {ls : List Lexeme} {l : Lexeme} (h : l.kind = .number) :
    constantsOf (ls ++ [l]) = constantsOf ls ++ [literalValue l.text] := by
  simp [constantsOf, h]

theorem constantsOf_concat_other {ls : List Lexeme} {l : Lexeme} (h : l.kind ≠ .number) :
    constantsOf (ls ++ [l]) = constantsOf ls := by
  simp [constantsOf, h]

/-- An operand must start behind these lexemes, but all levels are taken. -/
def TooDeep (before : List Lexeme) : Prop :=
  ∃ frames, slotBehind before = some (.before frames) ∧ maxNesting ≤ frames.length

/-- The lexeme is a number, and with it there are more constants than a pool can hold. -/
def Overfills (before : List Lexeme) (next : Lexeme) : Prop :=
  next.kind = .number ∧ 256 < (distinctBits (constantsOf (before ++ [next]))).length

/-- The lexeme cannot stand behind the others: no sentence goes on with it, or it breaks a
limit. -/
def Violates (before : List Lexeme) (next : Lexeme) : Prop :=
  ¬ Continues before next ∨ TooDeep before ∨ Overfills before next

/-- The kinds that are operators of the whole language, but not of arithmetic. -/
def unsupportedKinds : List Kind :=
  [.leftParen, .dot, .bangEqual, .equalEqual, .greater, .greaterEqual, .less, .lessEqual,
    .andWord, .orWord]

/-- What is wrong about a violation of the given kind. Where an operand must start, the limit
on levels comes first; a lexeme that can start an operand is wrong only as a constant too
many. A number behind an operand needs no constant. -/
def Slot.fault : Slot → Kind → SyntaxFault
  | before frames, kind =>
    if maxNesting ≤ frames.length then .nestedTooDeeply
    else if kind ≠ .number ∧ kind ≠ .minus ∧ kind ≠ .leftParen then .expectedExpression
    else .tooManyConstants
  | behind frames, kind =>
    if kind ∈ unsupportedKinds then .unsupportedOperator
    else if .group ∈ frames then .expectedRightParen
    else .expectedEnd

/-! ## The violations of a text -/

namespace Tokens

/-- The lexeme at a position. Behind all others stands the end of the text, again and again. -/
def lexemeAt (tokens : Tokens) (i : Nat) : Lexeme := tokens.lexemes.getD i tokens.last

/-- The lexeme at the position is a violation, behind those before it. -/
def ViolatesAt (tokens : Tokens) (i : Nat) : Prop :=
  Violates (tokens.lexemes.take i) (tokens.lexemeAt i)

/-- The first violation of a text is the lexeme at position `i`, and this is what is wrong
about it. -/
structure FirstViolation (tokens : Tokens) (i : Nat) (fault : SyntaxFault) : Prop where
  le : i ≤ tokens.lexemes.length
  violates : tokens.ViolatesAt i
  clear : ∀ j < i, ¬ tokens.ViolatesAt j
  reason : ∃ slot, slotBehind (tokens.lexemes.take i) = some slot ∧
    slot.fault (tokens.lexemeAt i).kind = fault

/-- The first fault of the scanner, with its line. It stands behind `count` lexemes. -/
def FirstFault (tokens : Tokens) (count : Nat) (fault : ScanFault) (line : Nat) : Prop :=
  ∃ (ls : List Lexeme) (back : List Token), ls.length = count ∧
    tokens.items = ls.map Token.lexeme ++ .fault fault line :: back

end Tokens

/-- The position up to which a text has been read when the violation at position `i` is
noticed. A missing level, parenthesis or end is noticed at the lexeme itself. The other
violations are noticed behind the lexeme, with the next one in view. -/
def SyntaxFault.reach (i : Nat) : SyntaxFault → Nat
  | nestedTooDeeply | expectedRightParen | expectedEnd => i
  | expectedExpression | tooManyConstants | unsupportedOperator => i + 1

theorem SyntaxFault.le_reach (i : Nat) (fault : SyntaxFault) : i ≤ fault.reach i := by
  cases fault <;> simp [reach]

/-- **The first complaint about a text.** It is about the first fault of the scanner, unless the
first violation is noticed before the fault is met, and about the first violation, unless the
fault is met by then. A violation is shown with its line and its lexeme. -/
inductive Tokens.FirstComplaint (tokens : Tokens) : Diagnostic → Prop
  | fault {count line : Nat} {fault : ScanFault} (hfault : tokens.FirstFault count fault line)
      (hfirst : ∀ i violation, tokens.FirstViolation i violation → count ≤ violation.reach i) :
      tokens.FirstComplaint ⟨line, .unknown, fault.message⟩
  | violation {i : Nat} {violation : SyntaxFault} (hviolation : tokens.FirstViolation i violation)
      (hfirst : ∀ count fault line, tokens.FirstFault count fault line →
        violation.reach i < count) :
      tokens.FirstComplaint ⟨(tokens.lexemeAt i).line, Parser.locationOf (tokens.lexemeAt i),
        violation.message⟩

/-! ## There is one first complaint -/

namespace Tokens

variable {tokens : Tokens}

/-- The lexemes that a text begins with stand in front of its first fault. -/
theorem FirstFault.length_le {count line : Nat} {fault : ScanFault}
    (h : tokens.FirstFault count fault line) {ls : List Lexeme} {back : List Token}
    (hitems : tokens.items = ls.map Token.lexeme ++ back) : ls.length ≤ count := by
  obtain ⟨ks, rest, rfl, hitems'⟩ := h
  by_contra hlt
  have hlexeme : tokens.items[ks.length]? = (ls.map Token.lexeme)[ks.length]? := by
    rw [hitems, List.getElem?_append_left (by simpa using hlt)]
  have hfault : tokens.items[ks.length]? = some (.fault fault line) := by
    rw [hitems', List.getElem?_append_right (by simp)]
    simp
  rw [hfault, List.getElem?_map] at hlexeme
  cases hget : ls[ks.length]? with
  | none => simp [hget] at hlexeme
  | some l => simp [hget] at hlexeme

/-- A text of lexemes only has no fault. -/
theorem not_firstFault {ls : List Lexeme} (hitems : tokens.items = ls.map Token.lexeme)
    {count line : Nat} {fault : ScanFault} : ¬ tokens.FirstFault count fault line := by
  rintro ⟨ks, back, -, hitems'⟩
  have hmem : Token.fault fault line ∈ ls.map Token.lexeme := by
    rw [← hitems, hitems']
    simp
  simp at hmem

theorem FirstFault.unique {count count' line line' : Nat} {fault fault' : ScanFault}
    (h : tokens.FirstFault count fault line) (h' : tokens.FirstFault count' fault' line') :
    count = count' ∧ fault = fault' ∧ line = line' := by
  obtain ⟨ls, back, hcount, hitems⟩ := id h
  obtain ⟨ks, back', hcount', hitems'⟩ := id h'
  have hle := h'.length_le hitems
  have hle' := h.length_le hitems'
  have hlength : (ls.map Token.lexeme).length = (ks.map Token.lexeme).length := by
    simp only [List.length_map]
    omega
  obtain ⟨-, htail⟩ := List.append_inj (hitems.symm.trans hitems') hlength
  simp only [List.cons.injEq, Token.fault.injEq] at htail
  exact ⟨by omega, htail.1⟩

theorem FirstViolation.unique {i i' : Nat} {fault fault' : SyntaxFault}
    (h : tokens.FirstViolation i fault) (h' : tokens.FirstViolation i' fault') :
    i = i' ∧ fault = fault' := by
  obtain rfl : i = i' := by
    rcases Nat.lt_trichotomy i i' with hlt | heq | hlt
    · exact absurd h.violates (h'.clear i hlt)
    · exact heq
    · exact absurd h'.violates (h.clear i' hlt)
  obtain ⟨slot, hslot, rfl⟩ := h.reason
  obtain ⟨slot', hslot', rfl⟩ := h'.reason
  obtain rfl : slot = slot' := Option.some.inj (hslot.symm.trans hslot')
  exact ⟨rfl, rfl⟩

theorem FirstComplaint.unique {d d' : Diagnostic} (h : tokens.FirstComplaint d)
    (h' : tokens.FirstComplaint d') : d = d' := by
  cases h with
  | fault hfault hfirst =>
      cases h' with
      | fault hfault' _ =>
          obtain ⟨-, rfl, rfl⟩ := hfault.unique hfault'
          rfl
      | violation hviolation hfirst' =>
          exact absurd (hfirst _ _ hviolation) (Nat.not_le.2 (hfirst' _ _ _ hfault))
  | violation hviolation hfirst =>
      cases h' with
      | fault hfault hfirst' =>
          exact absurd (hfirst' _ _ hviolation) (Nat.not_le.2 (hfirst _ _ _ hfault))
      | violation hviolation' _ =>
          obtain ⟨rfl, rfl⟩ := hviolation.unique hviolation'
          rfl

/-- If everything in front of the first fault is fine, the fault is complained about. -/
theorem FirstFault.firstComplaint {count line : Nat} {fault : ScanFault}
    (h : tokens.FirstFault count fault line) (hclear : ∀ i < count, ¬ tokens.ViolatesAt i) :
    tokens.FirstComplaint ⟨line, .unknown, fault.message⟩ := by
  refine .fault h ?_
  intro i violation hviolation
  have hle : count ≤ i := by
    by_contra hlt
    exact hclear i (Nat.not_le.1 hlt) hviolation.violates
  exact Nat.le_trans hle (violation.le_reach i)

end Tokens

/-! ## Violations and slots -/

section

variable {before : List Lexeme} {slot next : Slot} {l : Lexeme}

/-- A lexeme that leads nowhere is a violation, unless the text may end there. -/
theorem violates_of_step (h : slotBehind before = some slot) (hstep : slot.step l.kind = none)
    (hended : l.kind = .endOfText → ∀ frames, slot = .behind frames → .group ∈ frames) :
    Violates before l := by
  refine Or.inl fun hcontinues => ?_
  by_cases hend : l.kind = .endOfText
  · obtain ⟨frames, rfl, hgroup⟩ := (continues_iff_ended h hend).1 hcontinues
    exact hgroup (hended hend frames rfl)
  · obtain ⟨further, hfurther⟩ := (continues_iff_step h hend).1 hcontinues
    exact absurd (hstep.symm.trans hfurther) (by simp)

/-- A lexeme that leads on is no violation, if it keeps within the limits. -/
theorem not_violates_of_step (h : slotBehind before = some slot)
    (hstep : slot.step l.kind = some next) (hdeep : ¬ TooDeep before)
    (hpool : ¬ Overfills before l) : ¬ Violates before l := by
  have hend : l.kind ≠ .endOfText := by
    intro hend
    rw [hend] at hstep
    cases slot <;> cases hstep
  rintro (hcontinues | hdeep' | hpool')
  · exact hcontinues ((continues_iff_step h hend).2 ⟨next, hstep⟩)
  · exact hdeep hdeep'
  · exact hpool hpool'

theorem not_tooDeep_behind {frames : List Frame} (h : slotBehind before = some (.behind frames)) :
    ¬ TooDeep before := by
  rintro ⟨frames', hframes', -⟩
  exact absurd (h.symm.trans hframes') (by simp)

theorem not_tooDeep_before {frames : List Frame} (h : slotBehind before = some (.before frames))
    (hlt : frames.length < maxNesting) : ¬ TooDeep before := by
  rintro ⟨frames', hframes', hle⟩
  cases h.symm.trans hframes'
  omega

end

/-! ## Each faulty text has a first complaint -/

namespace Tokens

/-- The end of the text stands behind the lexemes and nowhere else. -/
structure Closed (tokens : Tokens) : Prop where
  items : ∀ l, .lexeme l ∈ tokens.items → l.kind ≠ .endOfText
  last : tokens.last.kind = .endOfText

variable {tokens : Tokens}

/-- What has no violation can be followed. -/
theorem Closed.exists_slotBehind (hclosed : tokens.Closed) {i : Nat}
    (hle : i ≤ tokens.lexemes.length) (hclear : ∀ j < i, ¬ tokens.ViolatesAt j) :
    ∃ slot, slotBehind (tokens.lexemes.take i) = some slot := by
  induction i with
  | zero => exact ⟨.before [], rfl⟩
  | succ i ih =>
      obtain ⟨slot, hslot⟩ := ih (by omega) fun j hj => hclear j (by omega)
      have hget : tokens.lexemes[i]? = some (tokens.lexemeAt i) := by
        rw [lexemeAt, List.getD_eq_getElem?_getD, List.getElem?_eq_getElem hle, Option.getD_some]
      have hend : (tokens.lexemeAt i).kind ≠ .endOfText :=
        hclosed.items _ (mem_lexemes.1 (List.mem_of_getElem? hget))
      have hcontinues : Continues (tokens.lexemes.take i) (tokens.lexemeAt i) := by
        by_contra hno
        exact hclear i (by omega) (Or.inl hno)
      obtain ⟨next, hstep⟩ := (continues_iff_step hslot hend).1 hcontinues
      refine ⟨next, ?_⟩
      rw [List.take_add_one, hget, Option.toList_some]
      exact slotBehind_concat hslot hstep

/-- Where there is a violation there is a first one. -/
theorem Closed.exists_firstViolation (hclosed : tokens.Closed) {i : Nat}
    (hle : i ≤ tokens.lexemes.length) (h : tokens.ViolatesAt i) :
    ∃ j fault, tokens.FirstViolation j fault := by
  classical
  have hexists : ∃ j, tokens.ViolatesAt j := ⟨i, h⟩
  have hfirst : Nat.find hexists ≤ tokens.lexemes.length :=
    Nat.le_trans (Nat.find_le h) hle
  have hclear : ∀ j < Nat.find hexists, ¬ tokens.ViolatesAt j := fun j hj =>
    Nat.find_min hexists hj
  obtain ⟨slot, hslot⟩ := hclosed.exists_slotBehind hfirst hclear
  exact ⟨_, _, hfirst, Nat.find_spec hexists, hclear, slot, hslot, rfl⟩

/-- **There is a first complaint about each text that has a fault or a violation.** -/
theorem Closed.exists_firstComplaint_iff (hclosed : tokens.Closed) :
    (∃ d, tokens.FirstComplaint d) ↔
      (∃ count fault line, tokens.FirstFault count fault line) ∨
        ∃ i ≤ tokens.lexemes.length, tokens.ViolatesAt i := by
  constructor
  · rintro ⟨d, h⟩
    cases h with
    | fault hfault _ => exact Or.inl ⟨_, _, _, hfault⟩
    | violation hviolation _ => exact Or.inr ⟨_, hviolation.le, hviolation.violates⟩
  · intro h
    by_cases hfaulty : ∃ count fault line, tokens.FirstFault count fault line
    · obtain ⟨count, fault, line, hfault⟩ := hfaulty
      by_cases hfirst : ∀ i violation, tokens.FirstViolation i violation →
          count ≤ violation.reach i
      · exact ⟨_, .fault hfault hfirst⟩
      · simp only [not_forall] at hfirst
        obtain ⟨i, violation, hviolation, hlt⟩ := hfirst
        refine ⟨_, .violation hviolation ?_⟩
        intro count' fault' line' hfault'
        obtain ⟨rfl, -, -⟩ := hfault.unique hfault'
        omega
    · obtain ⟨i, hle, hviolates⟩ := h.resolve_left hfaulty
      obtain ⟨j, violation, hviolation⟩ := hclosed.exists_firstViolation hle hviolates
      refine ⟨_, .violation hviolation ?_⟩
      intro count fault line hfault
      exact absurd ⟨count, fault, line, hfault⟩ hfaulty

end Tokens

end LoxArith
