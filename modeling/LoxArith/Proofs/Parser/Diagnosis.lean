import LoxArith.Proofs.Parser.Following

set_option autoImplicit false

/-! # What the parser complains about

The parser complains about a text exactly as `Tokens.FirstComplaint` says
(`compile_eq_error_iff`). The induction is on the levels that are left, and inside a level on
the steps of the loop. What carries the loop is how an operand leaves the slot: apart from
operands that the next operator ends anyway, the same ones are open as before (`Settles`).
-/

namespace LoxArith

/-! ## Precedences and slots -/

/-- The kinds that have a precedence but no handler behind an operand. -/
theorem mem_unsupportedKinds_iff {kind : Kind} :
    kind ∈ unsupportedKinds ↔
      kind.rule.following = none ∧ kind.rule.precedence ≠ .none := by
  cases kind <;> decide

theorem precedence_eq_none {precedence : Precedence} (h : ¬ Precedence.assignment ≤ precedence) :
    precedence = .none := by
  cases precedence with
  | none => rfl
  | _ => exact absurd (by decide) h

/-- No kind binds as tightly as a primary. -/
theorem not_primary_le (kind : Kind) : ¬ Precedence.primary ≤ kind.rule.precedence := by
  cases kind <;> decide

/-- No operator binds as tightly as a sign. -/
theorem not_unary_le (tier : Tier) : ¬ Precedence.unary ≤ tier.precedence := by
  cases tier <;> decide

/-- Where no operand can start, nothing leads on. -/
theorem Slot.step_before_eq_none {kind : Kind} (h : kind.rule.leading = none)
    (frames : List Frame) : (Slot.before frames).step kind = none := by
  cases hstep : (Slot.before frames).step kind with
  | none => rfl
  | some next =>
      rcases step_before hstep with ⟨rfl, -⟩ | ⟨rfl, -⟩ | ⟨rfl, -⟩
      · cases h
      · cases h
      · cases h

/-- Behind an operand nothing leads on but an operator and the end of a group. -/
theorem Slot.step_behind_eq_none {kind : Kind} (hfollowing : kind.rule.following = none)
    {frames : List Frame} (hclose : kind = .rightParen → Frame.group ∉ frames) :
    (Slot.behind frames).step kind = none := by
  cases hstep : (Slot.behind frames).step kind with
  | none => rfl
  | some next =>
      rcases step_behind hstep with ⟨operator, rfl, -⟩ | ⟨hkind, outer, houter, -⟩
      · rw [(rule_kind operator).1] at hfollowing
        cases hfollowing
      · rw [unwind_sum_eq_nil_iff.2 (hclose hkind)] at houter
        cases houter

/-- What has no precedence is no operator. -/
theorem following_eq_none {kind : Kind} (h : kind.rule.precedence = .none) :
    kind.rule.following = none := by
  cases hfollowing : kind.rule.following with
  | none => rfl
  | some handler =>
      obtain ⟨-, operator, rfl⟩ := following_eq_some hfollowing
      rw [(rule_kind operator).2] at h
      cases htier : operator.tier <;> simp [htier, Tier.precedence] at h

/-- At an operator that the bound excludes, and at the end of a group, the same operands end
as if only `frames` were open. -/
def Settles (bound : Precedence) (inner frames : List Frame) : Prop :=
  ∀ tier : Tier, ¬ bound ≤ tier.precedence ∨ tier = .sum → unwind tier inner = unwind tier frames

theorem Settles.mono {bound tighter : Precedence} {inner frames : List Frame}
    (h : Settles tighter inner frames) (hle : bound ≤ tighter) : Settles bound inner frames := by
  intro tier htier
  refine h tier (htier.imp_left fun hno hle' => hno ?_)
  exact Nat.le_trans hle hle'

/-- The operand of a sign ends at any operator. -/
theorem Settles.sign {bound : Precedence} {inner frames : List Frame}
    (h : Settles .unary inner (.sign :: frames)) : Settles bound inner frames := by
  intro tier _
  rw [h tier (Or.inl (not_unary_le tier))]
  cases tier <;> rfl

/-- The right operand of an operator ends at whatever its bound excludes. -/
theorem Settles.joint {operator : Operator} {inner frames : List Frame}
    (h : Settles operator.tier.operand.bound inner (.joint operator.tier :: frames)) :
    Settles operator.tier.operand.bound inner frames := by
  intro tier htier
  rw [h tier htier]
  have hends : (Frame.joint operator.tier).endsAt tier := by
    cases hop : operator.tier with
    | product => cases tier <;> rfl
    | sum =>
        cases tier with
        | sum => rfl
        | product =>
            rcases htier with hno | hsum
            · rw [hop] at hno
              exact absurd (by decide) hno
            · cases hsum
  exact List.dropWhile_cons_of_pos hends

/-- An operator that binds tightly enough for its right operand goes on inside of it. -/
theorem unwind_joint {operator : Operator} {tier : Tier} {frames : List Frame}
    (h : operator.tier.operand.bound ≤ tier.precedence) :
    unwind tier (.joint operator.tier :: frames) = .joint operator.tier :: frames := by
  have hends : ¬ (Frame.joint operator.tier).endsAt tier := by
    cases hop : operator.tier with
    | sum =>
        rw [hop] at h
        cases tier with
        | sum => exact absurd h (by decide)
        | product => decide
    | product =>
        rw [hop] at h
        exact absurd h (not_unary_le tier)
  exact List.dropWhile_cons_of_neg hends

namespace Parser

/-! ## Operands -/

/-- What comes of an operand that was begun behind `passed`, inside of `frames`: the first
complaint, or the parser follows the text behind the operand, up to something that does not
bind as tightly as the bound. -/
def Outcome (tokens : Tokens) (passed : List Lexeme) (frames : List Frame) (bound : Precedence)
    (q : Parser) : Prop :=
  q.Blamed tokens ∨ ∃ reads inner, q.Follows tokens reads (.behind inner) ∧
    passed.length < reads.length ∧ Settles bound inner frames ∧
    ¬ bound ≤ q.current.kind.rule.precedence

/-- Compiling an operand has such an outcome, if the levels are counted by the open operands
and each operator that belongs to the operand stays inside of it. -/
structure Explains (tokens : Tokens) (levels : Nat) (operand : Precedence → Parser → Parser) :
    Prop where
  kept : ∀ bound p d, p.complaint = some d → (operand bound p).complaint = some d
  outcome : ∀ (bound : Precedence) {passed : List Lexeme} {frames : List Frame} {p : Parser},
    ¬ bound ≤ Precedence.none → p.Follows tokens passed (.before frames) →
    levels + frames.length = maxNesting →
    (∀ tier : Tier, bound ≤ tier.precedence → unwind tier frames = frames) →
    Outcome tokens passed frames bound (operand bound p)

section

variable {tokens : Tokens} {passed : List Lexeme} {frames : List Frame} {p : Parser}
  {operand : Precedence → Parser → Parser} {levels : Nat} {bound : Precedence}

theorem Outcome.of_blamed (h : p.Blamed tokens) : Outcome tokens passed frames bound p :=
  Or.inl h

theorem Outcome.of_eq {q : Parser} (h : Outcome tokens passed frames bound p)
    (hcomplaint : q.complaint = p.complaint) (hlast : q.last = p.last)
    (hcurrent : q.current = p.current) (hrest : q.rest = p.rest)
    (hconstants : q.chunk.constants = p.chunk.constants) :
    Outcome tokens passed frames bound q := by
  rcases h with hblamed | ⟨reads, inner, hfollows, hlt, hsettles, hstop⟩
  · exact .of_blamed (hblamed.kept fun d hd => hcomplaint.trans hd)
  · exact Or.inr ⟨reads, inner, hfollows.of_eq hcomplaint hlast hcurrent hrest hconstants, hlt,
      hsettles, hcurrent ▸ hstop⟩

/-- An operand may be said to begin earlier. -/
theorem Outcome.of_le {later : List Lexeme} (h : Outcome tokens later frames bound p)
    (hle : passed.length ≤ later.length) : Outcome tokens passed frames bound p := by
  rcases h with hblamed | ⟨reads, inner, hfollows, hlt, hrest⟩
  · exact .of_blamed hblamed
  · exact Or.inr ⟨reads, inner, hfollows, Nat.lt_of_le_of_lt hle hlt, hrest⟩

theorem Outcome.imp {frames' : List Frame} {bound' : Precedence}
    (h : Outcome tokens passed frames bound p)
    (hsettles : ∀ inner, Settles bound inner frames → Settles bound' inner frames')
    (hstop : ¬ bound ≤ p.current.kind.rule.precedence →
      ¬ bound' ≤ p.current.kind.rule.precedence) :
    Outcome tokens passed frames' bound' p := by
  rcases h with hblamed | ⟨reads, inner, hfollows, hlt, hinner, hcurrent⟩
  · exact .of_blamed hblamed
  · exact Or.inr ⟨reads, inner, hfollows, hlt, hsettles inner hinner, hstop hcurrent⟩

/-- Behind a phrase that left nothing open, any operator may follow. -/
theorem Follows.outcome {reads : List Lexeme} (h : p.Follows tokens reads (.behind frames))
    (hlt : passed.length < reads.length) : Outcome tokens passed frames .primary p :=
  Or.inr ⟨reads, frames, h, hlt, fun _ _ => rfl, not_primary_le _⟩

/-- Where an operand ends, the end of the innermost group or of the text is missing if
something else stands there. -/
theorem Follows.blamed_missing {inner : List Frame} (h : p.Follows tokens passed (.behind inner))
    (hstop : ¬ Precedence.assignment ≤ p.current.kind.rule.precedence)
    (hclose : p.current.kind = .rightParen → Frame.group ∉ inner)
    (hend : p.current.kind = .endOfText → Frame.group ∈ inner) :
    (p.complainAtCurrent
      (if Frame.group ∈ inner then .expectedRightParen else .expectedEnd)).Blamed tokens := by
  have hnone := precedence_eq_none hstop
  have hviolates : Violates passed p.current := by
    apply violates_of_step h.slot (Slot.step_behind_eq_none (following_eq_none hnone) hclose)
    rintro hkind frames ⟨rfl⟩
    exact hend hkind
  have hsupported : p.current.kind ∉ unsupportedKinds := fun hmem =>
    (mem_unsupportedKinds_iff.1 hmem).2 hnone
  refine h.blamed_current hviolates (if_neg hsupported) ?_
  split
  · rfl
  · rfl

/-- The end of the operand inside of a group is the end of the group, or a complaint. -/
theorem Outcome.closed (hclosed : tokens.Closed)
    (h : Outcome tokens passed (.group :: frames) .assignment p) :
    Outcome tokens passed frames .primary
      (p.expect .rightParen .expectedRightParen) := by
  rcases h with hblamed | ⟨reads, inner, hfollows, hlt, hsettles, hstop⟩
  · exact .of_blamed (hblamed.kept (respected_complaint.expect _ _ _))
  have hunwind : unwind .sum inner = .group :: frames := hsettles .sum (Or.inr rfl)
  have hgroup : Frame.group ∈ inner := by
    by_contra hno
    rw [unwind_sum_eq_nil_iff.2 hno] at hunwind
    cases hunwind
  by_cases hclose : p.current.kind = .rightParen
  · have hstep : (Slot.behind inner).step p.current.kind = some (.behind frames) := by
      rw [hclose]
      exact Slot.step_rightParen hunwind
    have hexpect : p.expect .rightParen .expectedRightParen = p.advance := if_pos hclose
    rw [hexpect]
    rcases hfollows.advance hclosed hstep (not_tooDeep_behind hfollows.slot) (by simp [hclose])
      with hblamed | hfollows'
    · exact .of_blamed hblamed
    · apply hfollows'.outcome
      rw [List.length_append]
      omega
  · have hexpect : p.expect .rightParen .expectedRightParen
        = p.complainAtCurrent .expectedRightParen := if_neg hclose
    have hblamed := hfollows.blamed_missing hstop (fun hkind => absurd hkind hclose)
      fun _ => hgroup
    rw [if_pos hgroup, ← hexpect] at hblamed
    exact .of_blamed hblamed

/-- The first phrase of an operand. Behind it any operator may follow. -/
theorem Explains.first (hoperand : Explains tokens levels operand) (hclosed : tokens.Closed)
    (h : p.Follows tokens passed (.before frames))
    (hlevels : levels + 1 + frames.length = maxNesting) {handler : Handler}
    (hleading : p.current.kind.rule.leading = some handler) :
    Outcome tokens passed frames .primary (handler.compile operand p.advance) := by
  have hlt : frames.length < maxNesting := by omega
  have hdeep := not_tooDeep_before h.slot hlt
  have hle : passed.length ≤ (passed ++ [p.current]).length := by simp
  rcases leading_eq_some hleading with ⟨hkind, rfl⟩ | ⟨hkind, rfl⟩ | ⟨hkind, rfl⟩
  · have hcompile : Handler.number.compile operand p.advance
        = p.advance.emitConstant (literalValue p.current.text) := by
      rw [← advance_previous p]
      rfl
    rw [hcompile]
    by_cases hindex : (p.chunk.addConstant (literalValue p.current.text)).1 < 256
    · rcases h.load hclosed hkind hlt hindex with hblamed | hfollows
      · exact .of_blamed hblamed
      · exact hfollows.outcome (by simp)
    · exact .of_blamed (h.blamed_number hclosed hkind hlt hindex)
  · have hstep : (Slot.before frames).step p.current.kind = some (.before (.sign :: frames)) := by
      rw [hkind]
      rfl
    rcases h.advance hclosed hstep hdeep (by simp [hkind]) with hblamed | hfollows
    · exact .of_blamed (hblamed.kept (respected_complaint.compileHandler hoperand.kept _ _))
    · have houtcome := hoperand.outcome .unary (by decide) hfollows
        (by rw [List.length_cons]; omega) fun tier htighter => absurd htighter (not_unary_le tier)
      have hsigned : Outcome tokens passed frames .primary (operand .unary p.advance) :=
        (houtcome.of_le hle).imp (fun _ hinner => hinner.sign) fun _ => not_primary_le _
      exact hsigned.of_eq rfl rfl rfl rfl rfl
  · have hstep : (Slot.before frames).step p.current.kind = some (.before (.group :: frames)) := by
      rw [hkind]
      rfl
    rcases h.advance hclosed hstep hdeep (by simp [hkind]) with hblamed | hfollows
    · exact .of_blamed (hblamed.kept (respected_complaint.compileHandler hoperand.kept _ _))
    · have houtcome := hoperand.outcome .assignment (by decide) hfollows
        (by rw [List.length_cons]; omega) fun tier _ => by cases tier <;> rfl
      exact (houtcome.of_le hle).closed hclosed

/-- An operator with its right operand. -/
theorem Explains.joint (hoperand : Explains tokens levels operand) (hclosed : tokens.Closed)
    {inner : List Frame} (h : p.Follows tokens passed (.behind inner))
    (hlevels : levels + 1 + frames.length = maxNesting) {operator : Operator}
    (hkind : p.current.kind = operator.kind) (hunwind : unwind operator.tier inner = frames) :
    Outcome tokens passed frames operator.tier.operand.bound
      (Handler.binary.compile operand p.advance) := by
  have hstep := Slot.step_kind operator inner
  rw [hunwind, ← hkind] at hstep
  have hnumber : p.current.kind ≠ .number := by
    rw [hkind]
    cases operator <;> decide
  rcases h.advance hclosed hstep (not_tooDeep_behind h.slot) hnumber with hblamed | hfollows
  · exact .of_blamed (hblamed.kept (respected_complaint.compileHandler hoperand.kept _ _))
  · have hprevious : p.advance.previous.kind = operator.kind := by
      rw [advance_previous, hkind]
    have houtcome := hoperand.outcome operator.tier.operand.bound (Goal.not_bound_le_none _)
      hfollows (by rw [List.length_cons]; omega) fun tier htighter => unwind_joint htighter
    have hle : passed.length ≤ (passed ++ [p.current]).length := by simp
    have hjoined := (houtcome.of_le hle).imp (fun _ hinner => Settles.joint hinner) id
    rw [compile_binary hprevious]
    exact hjoined.of_eq rfl rfl rfl rfl rfl

/-- An operator that arithmetic does not have. -/
theorem Follows.blamed_unsupported {inner : List Frame}
    (h : p.Follows tokens passed (.behind inner)) (hclosed : tokens.Closed)
    (hfollowing : p.current.kind.rule.following = none)
    (hprecedence : p.current.kind.rule.precedence ≠ .none) :
    (p.advance.complainAtPrevious .unsupportedOperator).Blamed tokens := by
  have hstep : (Slot.behind inner).step p.current.kind = none := by
    apply Slot.step_behind_eq_none hfollowing
    intro hclose
    rw [hclose] at hprecedence
    exact absurd rfl hprecedence
  have hviolates : Violates passed p.current := by
    apply violates_of_step h.slot hstep
    intro hend
    rw [hend] at hprecedence
    exact absurd rfl hprecedence
  have hfault : (Slot.behind inner).fault p.current.kind = .unsupportedOperator := by
    rw [Slot.fault, if_pos (mem_unsupportedKinds_iff.2 ⟨hfollowing, hprecedence⟩)]
  exact h.blamed_passed hclosed hviolates hfault rfl rfl (advance_previous p)

/-- The operators behind the first phrase. The text before them was read up to something that
does not bind as tightly as `tighter`. -/
theorem Explains.operators (hoperand : Explains tokens levels operand) (hclosed : tokens.Closed)
    (hbound : ¬ bound ≤ Precedence.none) (hlevels : levels + 1 + frames.length = maxNesting)
    (hframes : ∀ tier : Tier, bound ≤ tier.precedence → unwind tier frames = frames)
    {tighter : Precedence} (hle : bound ≤ tighter) {steps : Nat}
    (h : Outcome tokens passed frames tighter p)
    (hsteps : tokens.items.length ≤ passed.length + 1 + steps) :
    Outcome tokens passed frames bound (compileOperators operand bound steps p) := by
  induction steps generalizing tighter passed p with
  | zero =>
      rcases h with hblamed | ⟨reads, inner, hreads, hlt, hsettles, -⟩
      · exact .of_blamed hblamed
      · -- no lexeme is left, and the end of the text continues nothing
        have hnone : p.current.kind.rule.precedence = .none := by
          rcases hreads.stands.items with hitems | ⟨-, hcurrent, -⟩
          · rw [hitems, List.length_append, List.length_map, List.length_cons] at hsteps
            omega
          · rw [hcurrent, hclosed.last]
            rfl
        exact Or.inr ⟨reads, inner, hreads, hlt, hsettles.mono hle, hnone ▸ hbound⟩
  | succ steps ih =>
      rcases h with hblamed | ⟨reads, inner, hreads, hlt, hsettles, hstop⟩
      · exact .of_blamed (hblamed.kept
          (respected_complaint.compileOperators hoperand.kept _ _ _))
      by_cases hmore : bound ≤ p.current.kind.rule.precedence
      · rw [compileOperators, if_pos hmore]
        simp only [advance_previous]
        split
        · rename_i hfollowing
          refine .of_blamed (hreads.blamed_unsupported hclosed hfollowing ?_)
          intro hnone
          exact hbound (hnone ▸ hmore)
        · rename_i handler hfollowing
          obtain ⟨rfl, operator, hkind⟩ := following_eq_some hfollowing
          rw [hkind, (rule_kind operator).2] at hmore hstop
          -- the operands that the operator ends are those of this operand
          have hunwind : unwind operator.tier inner = frames :=
            (hsettles operator.tier (Or.inl hstop)).trans (hframes operator.tier hmore)
          have hjoined := hoperand.joint hclosed hreads hlevels hkind hunwind
          have hle' : bound ≤ operator.tier.operand.bound := by
            have htighter : operator.tier.precedence ≤ operator.tier.operand.bound := by
              cases operator.tier <;> decide
            exact Nat.le_trans hmore htighter
          have hrest := ih hle' hjoined (by omega)
          exact hrest.of_le (Nat.le_of_lt hlt)
      · rw [compileOperators_of_not_le hmore]
        exact Or.inr ⟨reads, inner, hreads, hlt, hsettles.mono hle, hmore⟩

/-- **An operand ends with the first complaint, or the parser follows the text behind it.** -/
theorem explains (hclosed : tokens.Closed) (levels : Nat) :
    Explains tokens levels (compileOperand tokens.items.length levels) := by
  refine ⟨fun bound p => respected_complaint.compileOperand _ levels bound p, ?_⟩
  induction levels with
  | zero =>
      intro bound passed frames p _ hfollows hlevels _
      have hfull : maxNesting ≤ frames.length := by omega
      have hfault : (Slot.before frames).fault p.current.kind = .nestedTooDeeply := by
        rw [Slot.fault, if_pos hfull]
      have hrefused : p.refuseLevel.Follows tokens passed (.before frames) :=
        hfollows.of_eq rfl rfl rfl rfl rfl
      exact .of_blamed
        (hrefused.blamed_current (Or.inr (Or.inl ⟨frames, hfollows.slot, hfull⟩)) hfault rfl)
  | succ levels ih =>
      intro bound passed frames p hbound hfollows hlevels hframes
      have hoperand : Explains tokens levels (compileOperand tokens.items.length levels) :=
        ⟨fun bound p => respected_complaint.compileOperand _ levels bound p, ih⟩
      have hopened : p.openLevel.Follows tokens passed (.before frames) :=
        hfollows.of_eq rfl rfl rfl rfl rfl
      rw [compileOperand]
      simp only [advance_previous]
      cases hleading : p.openLevel.current.kind.rule.leading with
      | none =>
          have hviolates : Violates passed p.openLevel.current :=
            violates_of_step hfollows.slot (Slot.step_before_eq_none hleading frames)
              fun _ _ heq => by cases heq
          have hfault : (Slot.before frames).fault p.openLevel.current.kind
              = .expectedExpression := by
            have hlt : ¬ maxNesting ≤ frames.length := by omega
            rw [Slot.fault, if_neg hlt, if_pos]
            refine ⟨?_, ?_, ?_⟩
            · intro hkind
              simp [hkind, Kind.rule] at hleading
            · intro hkind
              simp [hkind, Kind.rule] at hleading
            · intro hkind
              simp [hkind, Kind.rule] at hleading
          exact .of_blamed
            (hopened.blamed_passed hclosed hviolates hfault rfl rfl (advance_previous _))
      | some handler =>
          have hfirst := hoperand.first hclosed hopened (by omega) hleading
          have hle : bound ≤ Precedence.primary := by cases bound <;> decide
          have houtcome := hoperand.operators hclosed hbound (by omega) hframes hle hfirst
            (Nat.le_add_left tokens.items.length _)
          exact houtcome.of_eq rfl rfl rfl rfl rfl

/-! ## The whole text -/

/-- **The parser makes the first complaint about a text, or there is none to make.** -/
theorem parseTokens_blamed_or (hclosed : tokens.Closed) :
    (parseTokens tokens).Blamed tokens ∨
      (parseTokens tokens).complaint = none ∧ ∀ d, ¬ tokens.FirstComplaint d := by
  have hwhole : Outcome tokens [] [] .assignment (wholeOperand tokens) := by
    rcases follows_start tokens with hblamed | hfollows
    · exact .of_blamed (hblamed.kept (respected_complaint.compileOperand _ _ _ _))
    · exact (explains hclosed maxNesting).outcome .assignment (by decide) hfollows rfl
        fun _ _ => rfl
  rcases hwhole with hblamed | ⟨reads, inner, hreads, -, hsettles, hstop⟩
  · exact Or.inl (hblamed.kept (respected_complaint.expect _ _ _))
  have hgroup : Frame.group ∉ inner := unwind_sum_eq_nil_iff.1 (hsettles .sum (Or.inr rfl))
  by_cases hend : (wholeOperand tokens).current.kind = .endOfText
  · have hexpect : (wholeOperand tokens).expect .endOfText .expectedEnd
        = (wholeOperand tokens).advance := if_pos hend
    obtain ⟨hcomplaint, -⟩ := hreads.stands.advance_end hclosed hend
    exact Or.inr ⟨(congrArg complaint hexpect).trans hcomplaint,
      hreads.not_firstComplaint hclosed hgroup hend⟩
  · have hexpect : (wholeOperand tokens).expect .endOfText .expectedEnd
        = (wholeOperand tokens).complainAtCurrent .expectedEnd := if_neg hend
    have hblamed := hreads.blamed_missing hstop (fun _ => hgroup) fun hkind => absurd hkind hend
    rw [if_neg hgroup, ← hexpect] at hblamed
    exact Or.inl hblamed

end

end Parser

/-! ## Compiling -/

theorem closed_tokensOf (source : String) : (tokensOf source).Closed :=
  ⟨fun _ hl => ne_endOfText_of_mem_tokensOf hl, kind_last_tokensOf source⟩

theorem compileTokens_eq_error_iff {tokens : Tokens} {error : CompileError} :
    compileTokens tokens = .error error ↔
      ∃ d, (parseTokens tokens).complaint = some d ∧ error = ⟨[d]⟩ := by
  unfold compileTokens
  dsimp only
  split
  · rename_i hnone
    simp [hnone]
  · rename_i d hsome
    simp [hsome, eq_comm]

/-- **The one diagnostic of a text that does not compile.** It is the first complaint about the
text: about the first lexeme with which no sentence goes on or which breaks a limit, with its
line and its location, or about the first fault of the scanner if that is met earlier. There is
one for each text that has a fault or a violation. -/
theorem compile_eq_error_iff (source : String) :
    (∀ error, compile source = .error error ↔
      ∃ d, error = ⟨[d]⟩ ∧ (tokensOf source).FirstComplaint d) ∧
    ((∃ d, (tokensOf source).FirstComplaint d) ↔
      (∃ count fault line, (tokensOf source).FirstFault count fault line) ∨
        ∃ i ≤ (tokensOf source).lexemes.length, (tokensOf source).ViolatesAt i) ∧
    [SyntaxFault.nestedTooDeeply, .expectedExpression, .tooManyConstants, .unsupportedOperator,
        .expectedRightParen, .expectedEnd].map SyntaxFault.message
      = ["Expression nested too deeply.", "Expected expression.",
        "Too many constants in one chunk.", "Unsupported operator.",
        "Expected ')' after expression.", "Expect end of expression."] := by
  have hclosed := closed_tokensOf source
  refine ⟨?_, hclosed.exists_firstComplaint_iff, rfl⟩
  intro error
  rw [compile, compileTokens_eq_error_iff]
  rcases Parser.parseTokens_blamed_or hclosed with ⟨d, hcomplaint, hfirst⟩ | ⟨hnone, hno⟩
  · constructor
    · rintro ⟨d', hcomplaint', rfl⟩
      obtain rfl : d = d' := Option.some.inj (hcomplaint.symm.trans hcomplaint')
      exact ⟨d, rfl, hfirst⟩
    · rintro ⟨d', rfl, hfirst'⟩
      obtain rfl := hfirst.unique hfirst'
      exact ⟨d, hcomplaint, rfl⟩
  · constructor
    · rintro ⟨d, hcomplaint, -⟩
      exact absurd (hnone.symm.trans hcomplaint) (by simp)
    · rintro ⟨d, -, hfirst⟩
      exact absurd hfirst (hno d)

-- the parenthesis is a violation, but the fault behind it is met first
example : (parseTokens (tokensOf "1+)@")).complaint
    = some ⟨1, .unknown, "Unexpected character"⟩ := by decide +kernel

-- here the number is complained about before it is passed
example : (parseTokens (tokensOf "(1 2@")).complaint
    = some ⟨1, .lexeme "2", "Expected ')' after expression."⟩ := by decide +kernel

end LoxArith
