import LoxArith.Proofs.Parser.Reading

set_option autoImplicit false

/-! # Each phrase is read

A phrase that keeps within the limits of levels and constants is compiled without a
complaint, and the parser ends up behind it (`Parser.completes`). The induction is on the
derivation. A chain is read inside the level of its first operand, so that the statement for
a part of a chain is about the loop over operators, and the one for an operand says how far
the loop has come (`Parser.Completes`).
-/

namespace LoxArith

/-! ## Where operands end -/

theorem Goal.stopsAt_nil (goal : Goal) : goal.StopsAt [] := by simp [Goal.StopsAt]

theorem Goal.stopsAt_of_rightParen {goal : Goal} {close : Lexeme} {ks : List Lexeme}
    (hclose : close.kind = .rightParen) : goal.StopsAt (close :: ks) := by
  intro l hl
  obtain rfl : close = l := by simpa using hl
  rw [hclose]
  exact goal.not_bound_le_none

/-- Where a chain ends, its operands end; and they end at the next operator. -/
theorem Derives.stopsAt_operand {tier : Tier} {left s : Phrase} {ks rest : List Lexeme}
    (h : Derives (.more tier left) ks s) (hrest : (Goal.chain tier).StopsAt rest) :
    tier.operand.StopsAt (ks ++ rest) := by
  intro l hl hle
  cases h with
  | stop =>
      refine hrest l hl ?_
      have htighter : (Goal.chain tier).bound ≤ tier.operand.bound := by cases tier <;> decide
      exact Nat.le_trans htighter hle
  | @more _ operator joint _ _ _ _ _ hjoint htier operand others =>
      obtain rfl : joint = l := by simpa using hl
      rw [hjoint, (rule_kind operator).2, htier] at hle
      revert hle
      cases tier <;> decide

/-! ## Limits -/

/-- A chain opens at least the levels of its beginning, and needs at least its constants. -/
theorem Derives.beginning_le {tier : Tier} {left s : Phrase} {ks : List Lexeme}
    (h : Derives (.more tier left) ks s) :
    left.levels ≤ s.levels ∧
      ∀ c, (left.emit c).constants.size ≤ (s.emit c).constants.size := by
  generalize hgoal : Goal.more tier left = goal at h
  induction h generalizing left with
  | stop =>
      cases hgoal
      exact ⟨Nat.le_refl _, fun _ => Nat.le_refl _⟩
  | @more _ operator _ _ _ _ right _ _ _ _ _ _ ih =>
      cases hgoal
      obtain ⟨hlevels, hsize⟩ := ih rfl
      constructor
      · exact Nat.le_trans (Nat.le_max_left _ _) hlevels
      · intro c
        exact Nat.le_trans (right.size_le_emit _) (hsize c)
  | _ => cases hgoal

namespace Parser

/-- Reading an operand has come so far that it goes on behind the phrase. -/
def ResumesOperand (limit levels : Nat) (bound : Precedence) (s : Phrase) (p : Parser)
    (ks : List Lexeme) : Prop :=
  ∃ result, compileOperand limit (levels + 1) bound p = result.closeLevel ∧
    Resumes (compileOperand limit levels) bound limit s p.chunk ks result

/-- The lexemes are read as the phrase, as far as an operand of the goal goes, if the levels
can be opened and the constants fit into the pool. -/
def CompletesOperand (limit : Nat) (goal : Goal) (ls : List Lexeme) (s : Phrase) : Prop :=
  ∀ {levels : Nat} {bound : Precedence} {p : Parser} {ks : List Lexeme}, bound ≤ goal.bound →
    goal.StopsAt ks → s.levels ≤ levels + 1 → (s.emit p.chunk).constants.size ≤ 256 →
    p.Faces (ls ++ ks) → (ls ++ ks).length ≤ limit →
    ResumesOperand limit levels bound s p ks

/-- The lexemes are read as the phrase: as an operand, or behind the beginning of a chain. -/
def Completes (limit : Nat) : Goal → List Lexeme → Phrase → Prop
  | .more tier left, ls, s => ∀ {levels : Nat} {bound : Precedence} {c : Chunk}
      {ks : List Lexeme} {result : Parser}, bound ≤ tier.precedence →
      (Goal.chain tier).StopsAt ks → s.levels ≤ levels + 1 → (s.emit c).constants.size ≤ 256 →
      Resumes (compileOperand limit levels) bound limit left c (ls ++ ks) result →
      Resumes (compileOperand limit levels) bound limit s c ks result
  | goal, ls, s => CompletesOperand limit goal ls s

theorem Completes.operand {limit : Nat} {tier : Tier} {ls : List Lexeme} {s : Phrase}
    (h : Completes limit tier.operand ls s) : CompletesOperand limit tier.operand ls s := by
  cases tier with
  | sum => exact h
  | product => exact h

/-- The phrases of a unary goal begin with a lexeme of their own. -/
theorem resumes_first {l : Lexeme} {ls ks : List Lexeme} {p : Parser} {handler : Handler}
    {limit levels : Nat} {bound : Precedence} {s : Phrase} (hfaces : p.Faces (l :: ls))
    (hleading : l.kind.rule.leading = some handler)
    (hbehind : (handler.compile (compileOperand limit levels) p.openLevel.advance).Behind
      s p.chunk ks)
    (hks : ks.length ≤ limit) : ResumesOperand limit levels bound s p ks :=
  ⟨_, compileOperand_leading hfaces hleading limit levels bound,
    _, limit, hbehind, hks, Nat.le_refl _, rfl⟩

/-- An operand whose bound stops at what follows ends behind its phrase. -/
theorem ResumesOperand.behind {goal : Goal} {limit levels : Nat} {p : Parser} {s : Phrase}
    {ks : List Lexeme} (hstops : goal.StopsAt ks)
    (h : ResumesOperand limit levels goal.bound s p ks) :
    (compileOperand limit (levels + 1) goal.bound p).Behind s p.chunk ks := by
  rcases h with ⟨result, heq, hresumes⟩
  rw [heq]
  exact (hresumes.behind hstops).closeLevel

/-- **A phrase that keeps within the limits is read.** -/
theorem completes {goal : Goal} {ls : List Lexeme} {s : Phrase} (limit : Nat)
    (h : Derives goal ls s) : Completes limit goal ls s := by
  induction h with
  | @number literal hkind =>
      intro levels bound p ks _ _ _ hsize hfaces hlimit
      have hleading : literal.kind.rule.leading = some .number := by rw [hkind]; rfl
      rcases hfaces.openLevel_advance with ⟨hopened, hprevious, hchunk⟩
      have hindex := Nat.lt_of_lt_of_le
        (p.openLevel.advance.chunk.addConstant_lt (literalValue literal.text)) (hchunk ▸ hsize)
      refine resumes_first hfaces hleading ?_ ?_
      · exact hchunk ▸ Behind.number hopened hprevious hindex
      · simp at hlimit
        omega
  | @negate sign ls s hsign operand ih =>
      intro levels bound p ks _ hstops hlevels hsize hfaces hlimit
      have hleading : sign.kind.rule.leading = some .unary := by rw [hsign]; rfl
      rcases hfaces.openLevel_advance with ⟨hopened, -, hchunk⟩
      obtain ⟨levels, rfl, hinner⟩ := s.exists_levels hlevels
      simp only [List.cons_append, List.length_cons] at hlimit
      have hoperand : (compileOperand limit (levels + 1) .unary p.openLevel.advance).Behind s
          p.openLevel.advance.chunk ks := ResumesOperand.behind hstops
        (ih (Nat.le_refl _) hstops hinner (hchunk ▸ hsize) hopened (by omega))
      refine resumes_first hfaces hleading (hchunk ▸ hoperand.negate) ?_
      simp only [List.length_append] at hlimit
      omega
  | @group opening close ls s hopening inner hclose ih =>
      intro levels bound p ks _ _ hlevels hsize hfaces hlimit
      have hleading : opening.kind.rule.leading = some .grouping := by rw [hopening]; rfl
      simp only [List.cons_append, List.append_assoc, List.nil_append] at hfaces hlimit
      rcases hfaces.openLevel_advance with ⟨hopened, -, hchunk⟩
      obtain ⟨levels, rfl, hinner⟩ := s.exists_levels hlevels
      simp only [List.length_cons] at hlimit
      -- the closing parenthesis ends the expression inside
      have hclosed : (Goal.chain .sum).StopsAt (close :: ks) := Goal.stopsAt_of_rightParen hclose
      have hoperand : (compileOperand limit (levels + 1) .assignment p.openLevel.advance).Behind s
          p.openLevel.advance.chunk (close :: ks) := ResumesOperand.behind hclosed
        (ih (Nat.le_refl _) hclosed hinner (hchunk ▸ hsize) hopened (by omega))
      refine resumes_first hfaces hleading (hchunk ▸ hoperand.group hclose) ?_
      simp only [List.length_append, List.length_cons] at hlimit
      omega
  | @chain tier ls ls' left s first others ih ihothers =>
      intro levels bound p ks hbound hstops hlevels hsize hfaces hlimit
      have hbound' : bound ≤ tier.bound := hbound
      have htighter : tier.bound ≤ tier.operand.bound := by cases tier <;> decide
      have htier : tier.bound ≤ tier.precedence := by cases tier <;> decide
      rcases others.beginning_le with ⟨hlevelsleft, hsizeleft⟩
      rw [List.append_assoc] at hfaces hlimit
      have hfirst := ih.operand (Nat.le_trans hbound' htighter)
        (others.stopsAt_operand hstops) (Nat.le_trans hlevelsleft hlevels)
        (Nat.le_trans (hsizeleft _) hsize) hfaces hlimit
      -- the first operand has opened the level, and the chain goes on inside it
      rcases hfirst with ⟨result, heq, hresumes⟩
      exact ⟨result, heq, ihothers (Nat.le_trans hbound' htier) hstops hlevels hsize hresumes⟩
  | stop =>
      intro levels bound c ks result _ _ _ _ hresumes
      exact hresumes
  | @more tier operator joint ls ls' left right s hjoint htier operand others ih ihothers =>
      subst htier
      intro levels bound c ks result hbound hstops hlevels hsize hresumes
      rcases hresumes with ⟨q, steps, hbehind, hsteps, hlimit, rfl⟩
      rcases others.beginning_le with ⟨hlevelsboth, hsizeboth⟩
      simp only [List.cons_append, List.append_assoc, List.length_cons] at hbehind hsteps
      obtain ⟨steps, rfl⟩ : ∃ n, steps = n + 1 := ⟨steps - 1, by omega⟩
      rcases hbehind.faces.advance with ⟨hfaces, hprevious, hchunk⟩
      have hchunk' : q.advance.chunk = left.emit c := hchunk.trans hbehind.chunk
      obtain ⟨levels, rfl, hright⟩ := right.exists_levels
        (Nat.le_trans (Nat.le_max_right _ _) (Nat.le_trans hlevelsboth hlevels))
      have hsizeright : (right.emit q.advance.chunk).constants.size ≤ 256 :=
        hchunk' ▸ Nat.le_trans (hsizeboth c) hsize
      -- the right operand is read on a level of its own
      have hends := others.stopsAt_operand hstops
      have hoperand : (compileOperand limit (levels + 1) operator.tier.operand.bound
          q.advance).Behind right q.advance.chunk (_ ++ ks) := ResumesOperand.behind hends
        (ih.operand (Nat.le_refl _) hends hright hsizeright hfaces (by omega))
      have hboth := hoperand.binary (hprevious ▸ hjoint) hchunk'
      refine ihothers hbound hstops hlevels hsize ⟨_, steps, hboth, ?_, by omega,
        compileOperators_kind hbehind.faces hjoint hbound steps⟩
      simp only [List.length_append] at hsteps ⊢
      omega

end Parser

end LoxArith
