import LoxArith.Proofs.Parser.Reading

set_option autoImplicit false

/-! # What the parser reads is a phrase

An operand that is compiled without a complaint is a phrase of its goal, and the parser ends
up behind it (`Parser.findsOperands`). The induction is on the levels that are left. Inside a
level the loop over operators is split by tiers: first the operators of a term are compiled,
then those of an expression, and each part is an induction on the steps (`ResumesGoal.chain`).

What carries the loop from one operator to the next is that an operand is read to its end:
behind a term no operator of a term is left (`Goal.Ends`).
-/

namespace LoxArith

/-- The goals of operands. -/
def Goal.IsOperand (goal : Goal) : Prop := goal = .unary ∨ ∃ tier, goal = .chain tier

theorem Tier.isOperand_operand (tier : Tier) : tier.operand.IsOperand := by
  cases tier with
  | sum => exact Or.inr ⟨.product, rfl⟩
  | product => exact Or.inl rfl

/-- Behind an operand that was read to its end, the chain goes on with an operator of its own
tier or not at all. -/
theorem Goal.Ends.exists_operator {tier : Tier} {left : Phrase} {ls : List Lexeme}
    (h : tier.operand.Ends ls) (hmore : ¬ (Goal.more tier left).Ends ls) :
    ∃ joint ks operator, ls = joint :: ks ∧ joint.kind = Operator.kind operator ∧
      operator.tier = tier := by
  cases ls with
  | nil => exact absurd (Goal.ends_nil _) hmore
  | cons joint ks =>
      simp only [Goal.Ends, List.head?_cons, Option.mem_def, Option.some.injEq, forall_eq',
        not_forall] at hmore
      rcases hmore with ⟨operator, hjoint, hno⟩
      refine ⟨joint, ks, operator, rfl, hjoint, ?_⟩
      cases tier with
      | sum => exact (h joint rfl operator hjoint).2
      | product =>
          rcases operator with _ | _ | _ | _
          · exact absurd ⟨rfl, rfl⟩ hno
          · exact absurd ⟨rfl, rfl⟩ hno
          · rfl
          · rfl

namespace Parser

/-- Of the lexemes `ls` the parser has read a phrase of the goal, as far as it goes and with
at most so many levels. -/
def Finds (goal : Goal) (levels : Nat) (c : Chunk) (ls ks : List Lexeme) (q : Parser) : Prop :=
  goal.Ends ks ∧ ∃ reads s, ls = reads ++ ks ∧ Derives goal reads s ∧ s.levels ≤ levels ∧
    q.Behind s c ks

/-- Compiling an operand without a complaint finds a phrase of its goal, and there was no
complaint before. -/
structure FindsOperands (limit levels : Nat) (operand : Precedence → Parser → Parser) :
    Prop where
  clean : ∀ bound p, (operand bound p).complaint = none → Clean p (operand bound p)
  finds : ∀ {goal : Goal} {p : Parser} {ls : List Lexeme}, goal.IsOperand → p.Faces ls →
    ls.length ≤ limit → (operand goal.bound p).complaint = none →
      ∃ ks, Finds goal levels p.chunk ls ks (operand goal.bound p)

/-- All that is still to be done for `result` is to go on behind a phrase of the goal. -/
def ResumesGoal (operand : Precedence → Parser → Parser) (bound : Precedence)
    (limit levels : Nat) (goal : Goal) (c : Chunk) (ls : List Lexeme) (result : Parser) : Prop :=
  ∃ ks reads s, goal.Ends ks ∧ ls = reads ++ ks ∧ Derives goal reads s ∧ s.levels ≤ levels ∧
    Resumes operand bound limit s c ks result

section

variable {operand : Precedence → Parser → Parser} {limit levels : Nat}

/-! ## The first phrase of an operand -/

/-- The lexeme that starts an operand is the beginning of a unary phrase. -/
theorem FindsOperands.first (hoperand : FindsOperands limit levels operand)
    {p : Parser} {l : Lexeme} {ls : List Lexeme} {handler : Handler} (hfaces : p.Faces ls)
    (hprevious : p.previous = l) (hlimit : ls.length ≤ limit)
    (hleading : l.kind.rule.leading = some handler)
    (hcomplaint : (handler.compile operand p).complaint = none) :
    ∃ ks, Finds .unary (levels + 1) p.chunk (l :: ls) ks (handler.compile operand p) := by
  rcases leading_eq_some hleading with ⟨hkind, rfl⟩ | ⟨hkind, rfl⟩ | ⟨hkind, rfl⟩
  · have hindex := lt_of_emitConstant hcomplaint
    rw [hprevious] at hindex
    exact ⟨ls, trivial, [l], .number l, rfl, .number hkind, by simp [Phrase.levels],
      .number hfaces hprevious hindex⟩
  · have hbefore : (operand .unary p).complaint = none := hcomplaint
    obtain ⟨ks, -, reads, s, rfl, hs, hlevels, hbehind⟩ :=
      @FindsOperands.finds _ _ _ hoperand .unary p ls (Or.inl rfl) hfaces hlimit hbefore
    refine ⟨ks, trivial, l :: reads, .negate s, rfl, .negate hkind hs, ?_, hbehind.negate⟩
    simp only [Phrase.levels]
    omega
  · have hbefore : (operand .assignment p).complaint = none :=
      (respected_clean.expect _ _ _ hcomplaint).complaint
    obtain ⟨ks, -, reads, s, rfl, hs, hlevels, hbehind⟩ :=
      @FindsOperands.finds _ _ _ hoperand (.chain .sum) p ls (Or.inr ⟨.sum, rfl⟩) hfaces hlimit
        hbefore
    -- without a complaint the group is closed
    have hclosed : (operand .assignment p).current.kind = .rightParen := by
      by_contra hne
      have hspoilt : Handler.grouping.compile operand p
          = (operand .assignment p).complainAtCurrent .expectedRightParen := if_neg hne
      rw [hspoilt] at hcomplaint
      exact complaint_complain _ _ hcomplaint
    obtain ⟨close, ks, rfl, hclose⟩ := hbehind.faces.eq_cons hclosed (by decide)
    refine ⟨ks, trivial, l :: (reads ++ [close]), .group s close, by simp,
      .group hkind hs hclose, ?_, hbehind.group hclose⟩
    simp only [Phrase.levels]
    omega

/-! ## The operators behind it -/

/-- The operators of a tier, in a row behind an operand. -/
theorem FindsOperands.more (hoperand : FindsOperands limit levels operand)
    {tier : Tier} {bound : Precedence} (hbound : bound ≤ tier.precedence) {c : Chunk}
    {result : Parser} (hcomplaint : result.complaint = none) (steps : Nat)
    {q : Parser} {left : Phrase} {ls : List Lexeme} (hbehind : q.Behind left c ls)
    (hends : tier.operand.Ends ls) (hlevels : left.levels ≤ levels + 1)
    (hsteps : ls.length ≤ steps) (hlimit : steps ≤ limit)
    (hresult : result = compileOperators operand bound steps q) :
    ResumesGoal operand bound limit (levels + 1) (.more tier left) c ls result := by
  induction steps generalizing q left ls with
  | zero =>
      obtain rfl : ls = [] := List.length_eq_zero_iff.1 (Nat.le_zero.1 hsteps)
      exact ⟨[], [], left, Goal.ends_nil _, rfl, .stop, hlevels, q, 0, hbehind, hsteps, hlimit,
        hresult⟩
  | succ steps ih =>
      by_cases hmore : (Goal.more tier left).Ends ls
      · exact ⟨ls, [], left, hmore, rfl, .stop, hlevels, q, steps + 1, hbehind, hsteps, hlimit,
          hresult⟩
      · -- an operator of the tier follows
        obtain ⟨joint, ls, operator, rfl, hjoint, rfl⟩ := hends.exists_operator hmore
        rw [compileOperators_kind hbehind.faces hjoint hbound] at hresult
        rcases hbehind.faces.advance with ⟨hfaces, hprevious, hchunk⟩
        rw [List.length_cons] at hsteps
        -- nothing was complained about in its right operand
        have hcompiled : (Handler.binary.compile operand q.advance).complaint = none :=
          (respected_clean.compileOperators hoperand.clean _ _ _ (hresult ▸ hcomplaint)).complaint
        rw [compile_binary (hprevious ▸ hjoint)] at hcompiled
        obtain ⟨ks, hends', reads, right, rfl, hright, hlevels', hbehind'⟩ :=
          hoperand.finds operator.tier.isOperand_operand hfaces (by omega) hcompiled
        rw [List.length_append] at hsteps
        have hboth := hbehind'.binary (hprevious ▸ hjoint) (hchunk.trans hbehind.chunk)
        have hlevelsboth : (Phrase.binary left operator right).levels ≤ levels + 1 := by
          simp only [Phrase.levels]
          omega
        obtain ⟨ks', reads', s, hends'', rfl, hs, hlevels'', hresumes⟩ :=
          ih hboth hends' hlevelsboth (by omega) (by omega) hresult
        refine ⟨ks', joint :: (reads ++ reads'), s, hends'', by simp, ?_, hlevels'', hresumes⟩
        exact .more hjoint rfl hright hs

/-- Behind an operand of a chain the rest of the chain is compiled. -/
theorem ResumesGoal.chain (hoperand : FindsOperands limit levels operand)
    {tier : Tier} {bound : Precedence} (hbound : bound ≤ tier.precedence) {c : Chunk}
    {ls : List Lexeme} {result : Parser} (hcomplaint : result.complaint = none)
    (h : ResumesGoal operand bound limit (levels + 1) tier.operand c ls result) :
    ResumesGoal operand bound limit (levels + 1) (.chain tier) c ls result := by
  obtain ⟨ks, reads, left, hends, rfl, hleft, hlevels, q, steps, hbehind, hsteps, hlimit,
    hresult⟩ := h
  obtain ⟨ks', reads', s, hends', rfl, hs, hlevels', hresumes⟩ :=
    hoperand.more hbound hcomplaint steps hbehind hends hlevels hsteps hlimit hresult
  exact ⟨ks', reads ++ reads', s, hends', by simp, .chain hleft hs, hlevels', hresumes⟩

/-- Behind a phrase that was read to its end nothing is left to be done. -/
theorem ResumesGoal.finds {goal : Goal} (hgoal : goal.IsOperand) {c : Chunk} {ls : List Lexeme}
    {result : Parser} (hcomplaint : result.complaint = none)
    (h : ResumesGoal operand goal.bound limit levels goal c ls result) :
    ∃ ks, Finds goal levels c ls ks result := by
  rcases h with ⟨ks, reads, s, hends, rfl, hs, hlevels, hresumes⟩
  refine ⟨ks, hends, reads, s, rfl, hs, hlevels, hresumes.behind ?_⟩
  intro l hl hle
  rcases List.head?_eq_some_iff.1 hl with ⟨ks, rfl⟩
  rcases hresumes with ⟨q, steps, hbehind, hsteps, -, rfl⟩
  rw [List.length_cons] at hsteps
  obtain ⟨steps, rfl⟩ : ∃ n, steps = n + 1 := ⟨steps - 1, by omega⟩
  cases hfollowing : l.kind.rule.following with
  | none =>
      -- the lexeme is complained about
      rw [compileOperators, hbehind.faces.current_cons, if_pos hle] at hcomplaint
      simp only [hbehind.faces.advance.2.1, hfollowing] at hcomplaint
      exact complaint_complain _ _ hcomplaint
  | some handler =>
      -- it is an operator, and no operator follows that is tight enough
      rcases following_eq_some hfollowing with ⟨-, operator, hkind⟩
      rw [hkind, (rule_kind operator).2] at hle
      rcases hgoal with rfl | ⟨tier, rfl⟩
      · revert hle
        cases operator.tier <;> decide
      · obtain ⟨rfl, hsum⟩ := hends l rfl operator hkind
        rw [hsum] at hle
        exact absurd hle (by decide)

/-- Behind a unary phrase the operators of terms come first, then those of expressions. -/
theorem FindsOperands.goOn (hoperand : FindsOperands limit levels operand)
    {goal : Goal} (hgoal : goal.IsOperand) {c : Chunk} {ls ks : List Lexeme} {q : Parser}
    (hunary : Finds .unary (levels + 1) c ls ks q) (hlimit : ks.length ≤ limit)
    (hcomplaint : (compileOperators operand goal.bound limit q).complaint = none) :
    ∃ ks, Finds goal (levels + 1) c ls ks (compileOperators operand goal.bound limit q) := by
  have hresumes : ∀ bound, ResumesGoal operand bound limit (levels + 1) .unary c ls
      (compileOperators operand bound limit q) := by
    intro bound
    rcases hunary with ⟨hends, reads, s, hreads, hs, hlevels, hbehind⟩
    exact ⟨ks, reads, s, hends, hreads, hs, hlevels, q, limit, hbehind, hlimit, Nat.le_refl _, rfl⟩
  rcases hgoal with rfl | ⟨_ | _, rfl⟩
  · exact (hresumes _).finds (Or.inl rfl) hcomplaint
  · have hproduct : Tier.sum.bound ≤ Tier.product.precedence := by decide
    have hsum : Tier.sum.bound ≤ Tier.sum.precedence := by decide
    have hterm := ResumesGoal.chain hoperand hproduct hcomplaint (hresumes _)
    have hexpression := ResumesGoal.chain hoperand hsum hcomplaint hterm
    exact hexpression.finds (Or.inr ⟨_, rfl⟩) hcomplaint
  · have hproduct : Tier.product.bound ≤ Tier.product.precedence := by decide
    have hterm := ResumesGoal.chain hoperand hproduct hcomplaint (hresumes _)
    exact hterm.finds (Or.inr ⟨_, rfl⟩) hcomplaint

end

/-! ## Operands -/

/-- **An operand that is compiled without a complaint is a phrase of its goal.** -/
theorem findsOperands (limit levels : Nat) :
    FindsOperands limit levels (compileOperand limit levels) := by
  refine ⟨fun bound p => respected_clean.compileOperand limit levels bound p, ?_⟩
  induction levels with
  | zero =>
      intro goal p ls _ _ _ hcomplaint
      exact absurd hcomplaint (complaint_complain _ _)
  | succ levels ih =>
      intro goal p ls hgoal hfaces hlimit hcomplaint
      have hoperand : FindsOperands limit levels (compileOperand limit levels) :=
        ⟨fun bound p => respected_clean.compileOperand limit levels bound p, ih⟩
      cases hleading : p.current.kind.rule.leading with
      | none =>
          rw [compileOperand] at hcomplaint
          simp only [advance_previous, show p.openLevel.current = p.current from rfl, hleading]
            at hcomplaint
          exact absurd hcomplaint (complaint_complain _ _)
      | some handler =>
          -- the end of the text starts no operand
          have hend : p.current.kind ≠ .endOfText := by
            intro hend
            have hnone : p.current.kind.rule.leading = none := by rw [hend]; rfl
            exact absurd (hnone.symm.trans hleading) (by simp)
          obtain ⟨l, ls, rfl, hkind⟩ := hfaces.eq_cons rfl hend
          rw [← hkind] at hleading
          rw [compileOperand_leading hfaces hleading] at hcomplaint ⊢
          rcases hfaces.openLevel_advance with ⟨hopened, hprevious, hchunk⟩
          rw [List.length_cons] at hlimit
          have hfirst : (handler.compile (compileOperand limit levels)
              p.openLevel.advance).complaint = none :=
            (respected_clean.compileOperators hoperand.clean _ _ _ hcomplaint).complaint
          obtain ⟨ks, hunary⟩ := hoperand.first hopened hprevious (by omega) hleading hfirst
          have hks : ks.length ≤ limit := by
            rcases hunary with ⟨-, reads, s, hreads, -⟩
            have hlength := congrArg List.length hreads
            simp only [List.length_cons, List.length_append] at hlength
            omega
          rw [hchunk] at hunary
          obtain ⟨ks, hends, reads, s, hreads, hs, hlevels, hbehind⟩ :=
            hoperand.goOn hgoal hunary hks hcomplaint
          exact ⟨ks, hends, reads, s, hreads, hs, hlevels, hbehind.closeLevel⟩

end Parser

end LoxArith
