import LoxArith.Proofs.Parser.Moves
import LoxArith.Proofs.Parser.Reading
import LoxArith.Proofs.Token.Lexical

set_option autoImplicit false

/-! # The recursion of the parser

The parser bounds its recursion by numbers that are given to it, the levels that may still be
opened and the operators that may still follow. `Parser.Performs` is the same recursion
without them: operands, handlers and loops call each other as the table says, and the only
bound is the counter of open levels in the state. It comes with a log of what happens on the
way. There is no reason in the rules why a parse should ever end; after a refused level the
loops of all open levels go on with the lexeme at which the operand was refused, and the end of
the text can be passed any number of times.

It does end, with the state that `compileOperand` computes (`Parser.exists_performs`). What makes it
end are the lexemes that are left, `Parser.ahead`: a loop goes on only past one of them.
-/

namespace LoxArith

namespace Parser

/-! ## The rules -/

/-- What happens in a parse. -/
inductive Event
  /-- An operand is called for, and gets a level. -/
  | opened
  /-- An operand is called for, and is refused its level. -/
  | refused
  /-- The operand that was given its level last returns. -/
  | closed
  /-- A loop goes on behind an operand and passes a lexeme. -/
  | passed (l : Lexeme)
  deriving DecidableEq, Repr

/-- What a parser is busy with: an operand, what a lexeme begins or continues, or the loop behind
an operand. -/
inductive Task
  | operand (bound : Precedence)
  | handler (h : Handler)
  | operators (bound : Precedence)

/-- From one state to another a task is performed, with a log of what happened. -/
inductive Performs : Task → Parser → List Event → Parser → Prop
  | refused {bound : Precedence} {p : Parser} (hfull : maxNesting ≤ p.effort.depth) :
      Performs (.operand bound) p [.refused] (p.refuseLevel.complainAtCurrent .nestedTooDeeply)
  | nothing {bound : Precedence} {p : Parser} (hroom : p.effort.depth < maxNesting)
      (hleading : p.openLevel.advance.previous.kind.rule.leading = none) :
      Performs (.operand bound) p [.opened, .closed]
        (p.openLevel.advance.complainAtPrevious .expectedExpression).closeLevel
  | operand {bound : Precedence} {p q r : Parser} {handler : Handler} {log log' : List Event}
      (hroom : p.effort.depth < maxNesting)
      (hleading : p.openLevel.advance.previous.kind.rule.leading = some handler)
      (hfirst : Performs (.handler handler) p.openLevel.advance log q)
      (hmore : Performs (.operators bound) q log' r) :
      Performs (.operand bound) p (.opened :: (log ++ log' ++ [.closed])) r.closeLevel
  | grouping {p q : Parser} {log : List Event} (h : Performs (.operand .assignment) p log q) :
      Performs (.handler .grouping) p log (q.expect .rightParen .expectedRightParen)
  | unary {p q : Parser} {log : List Event} (h : Performs (.operand .unary) p log q) :
      Performs (.handler .unary) p log (q.emit .negate)
  | binary {p q : Parser} {log : List Event}
      (h : Performs (.operand p.previous.kind.rule.precedence.next) p log q) :
      Performs (.handler .binary) p log
        (match p.previous.kind.binaryOp? with
          | some op => q.emit op
          | none => q)
  | number {p : Parser} :
      Performs (.handler .number) p [] (p.emitConstant (literalValue p.previous.text))
  | stop {bound : Precedence} {p : Parser} (hstop : ¬ bound ≤ p.current.kind.rule.precedence) :
      Performs (.operators bound) p [] p
  | unsupported {bound : Precedence} {p : Parser} (hgo : bound ≤ p.current.kind.rule.precedence)
      (hfollowing : p.advance.previous.kind.rule.following = none) :
      Performs (.operators bound) p [.passed p.current]
        (p.advance.complainAtPrevious .unsupportedOperator)
  | goOn {bound : Precedence} {p q r : Parser} {handler : Handler} {log log' : List Event}
      (hgo : bound ≤ p.current.kind.rule.precedence)
      (hfollowing : p.advance.previous.kind.rule.following = some handler)
      (hnext : Performs (.handler handler) p.advance log q)
      (hmore : Performs (.operators bound) q log' r) :
      Performs (.operators bound) p (.passed p.current :: (log ++ log')) r

variable {task : Task} {p q r : Parser} {log log' : List Event}

/-- What holds across every move holds across every task. -/
theorem Performs.respects {R : Parser → Parser → Prop} (hR : Respected R)
    (h : Performs task p log q) : R p q := by
  induction h with
  | refused => exact hR.trans (hR.effort _ _) (hR.complain _ _)
  | nothing =>
      exact hR.trans (hR.effort _ _) (hR.trans (hR.advance _)
        (hR.trans (hR.complain _ _) (hR.effort _ _)))
  | operand _ _ _ _ ihfirst ihmore =>
      exact hR.trans (hR.effort _ _) (hR.trans (hR.advance _)
        (hR.trans ihfirst (hR.trans ihmore (hR.effort _ _))))
  | grouping _ ih => exact hR.trans ih (hR.expect _ _ _)
  | unary _ ih => exact hR.trans ih (hR.emitByte _ _)
  | binary _ ih =>
      split
      · exact hR.trans ih (hR.emitByte _ _)
      · exact ih
  | number => exact hR.emitConstant _ _
  | stop => exact hR.refl _
  | unsupported => exact hR.trans (hR.advance _) (hR.complain _ _)
  | goOn _ _ _ _ ihnext ihmore => exact hR.trans (hR.advance _) (hR.trans ihnext ihmore)

/-- A task is performed in one way. -/
theorem Performs.unique (h : Performs task p log q) (h' : Performs task p log' r) :
    log' = log ∧ r = q := by
  induction h generalizing log' r with
  | refused hfull =>
      cases h' with
      | refused => exact ⟨rfl, rfl⟩
      | nothing hroom => exact absurd hroom (Nat.not_lt.2 hfull)
      | operand hroom => exact absurd hroom (Nat.not_lt.2 hfull)
  | nothing hroom hleading =>
      cases h' with
      | refused hfull => exact absurd hroom (Nat.not_lt.2 hfull)
      | nothing => exact ⟨rfl, rfl⟩
      | operand _ hleading' => cases hleading.symm.trans hleading'
  | operand hroom hleading _ _ ihfirst ihmore =>
      cases h' with
      | refused hfull => exact absurd hroom (Nat.not_lt.2 hfull)
      | nothing _ hleading' => cases hleading.symm.trans hleading'
      | operand _ hleading' hfirst' hmore' =>
          cases hleading.symm.trans hleading'
          obtain ⟨rfl, rfl⟩ := ihfirst hfirst'
          obtain ⟨rfl, rfl⟩ := ihmore hmore'
          exact ⟨rfl, rfl⟩
  | grouping _ ih =>
      cases h' with
      | grouping h' =>
          obtain ⟨rfl, rfl⟩ := ih h'
          exact ⟨rfl, rfl⟩
  | unary _ ih =>
      cases h' with
      | unary h' =>
          obtain ⟨rfl, rfl⟩ := ih h'
          exact ⟨rfl, rfl⟩
  | binary _ ih =>
      cases h' with
      | binary h' =>
          obtain ⟨rfl, rfl⟩ := ih h'
          exact ⟨rfl, rfl⟩
  | number =>
      cases h' with
      | number => exact ⟨rfl, rfl⟩
  | stop hstop =>
      cases h' with
      | stop => exact ⟨rfl, rfl⟩
      | unsupported hgo => exact absurd hgo hstop
      | goOn hgo => exact absurd hgo hstop
  | unsupported hgo hfollowing =>
      cases h' with
      | stop hstop => exact absurd hgo hstop
      | unsupported => exact ⟨rfl, rfl⟩
      | goOn _ hfollowing' => cases hfollowing.symm.trans hfollowing'
  | goOn hgo hfollowing _ _ ihnext ihmore =>
      cases h' with
      | stop hstop => exact absurd hgo hstop
      | unsupported _ hfollowing' => cases hfollowing.symm.trans hfollowing'
      | goOn _ hfollowing' hnext' hmore' =>
          cases hfollowing.symm.trans hfollowing'
          obtain ⟨rfl, rfl⟩ := ihnext hnext'
          obtain ⟨rfl, rfl⟩ := ihmore hmore'
          exact ⟨rfl, rfl⟩

/-! ## What is still ahead -/

/-- The lexemes of the text that are still to be passed, the current one first. -/
def ahead (p : Parser) : List Lexeme :=
  (if p.current.kind = .endOfText then [] else [p.current]) ++ p.rest.filterMap Token.lexeme?

theorem ahead_cons (h : p.current.kind ≠ .endOfText) :
    p.ahead = p.current :: p.rest.filterMap Token.lexeme? := by
  rw [ahead, if_neg h, List.singleton_append]

/-- In front of the end of the text nothing binds. -/
theorem current_ne_endOfText {bound : Precedence} (hbinds : ¬ bound ≤ .none)
    (hgo : bound ≤ p.current.kind.rule.precedence) : p.current.kind ≠ .endOfText := by
  intro hend
  rw [hend] at hgo
  exact hbinds hgo

theorem ahead_read {tokens : List Token} {p : Parser} (h : p.last.kind = .endOfText) :
    (read tokens p).ahead.Sublist (tokens.filterMap Token.lexeme?) := by
  induction tokens generalizing p with
  | nil =>
      have hnone : (read [] p).ahead = [] := by simp [ahead, read, h]
      rw [hnone]
      exact List.nil_sublist _
  | cons token tokens ih =>
      cases token with
      | lexeme l =>
          show ((if l.kind = .endOfText then [] else [l]) ++ tokens.filterMap Token.lexeme?).Sublist
            (l :: tokens.filterMap Token.lexeme?)
          split
          · exact List.sublist_cons_self _ _
          · exact List.Sublist.refl _
      | fault f line => exact ih (by rw [last_complain, h])

/-- Behind the lexeme that is passed there is nothing that was not there before. -/
theorem ahead_advance (h : p.last.kind = .endOfText) :
    p.advance.ahead.Sublist (p.rest.filterMap Token.lexeme?) :=
  ahead_read h

/-- A lexeme that is passed is not ahead any more. -/
theorem cons_ahead_advance (h : p.last.kind = .endOfText) (hkind : p.current.kind ≠ .endOfText) :
    (p.current :: p.advance.ahead).Sublist p.ahead := by
  rw [ahead_cons hkind]
  exact (ahead_advance h).cons_cons _

@[simp] theorem ahead_complain (p : Parser) (d : Diagnostic) : (p.complain d).ahead = p.ahead := by
  unfold complain
  split <;> rfl

theorem ahead_poolIndex (p : Parser) (value : Float) :
    (p.poolIndex value).2.ahead = p.ahead := by
  unfold poolIndex
  dsimp only
  split
  · rfl
  · exact ahead_complain _ _

@[simp] theorem ahead_emitConstant (p : Parser) (value : Float) :
    (p.emitConstant value).ahead = p.ahead :=
  ahead_poolIndex p value

/-- The text ends with the end of the text, and no more of it is ahead than before. -/
structure Passes (p q : Parser) : Prop where
  last : q.last.kind = .endOfText
  ahead : q.ahead.Sublist p.ahead

theorem respected_passes : Respected fun p q => p.last.kind = .endOfText → Passes p q where
  refl _ h := ⟨h, List.Sublist.refl _⟩
  trans h h' hp := ⟨(h' (h hp).last).last, (h' (h hp).last).ahead.trans (h hp).ahead⟩
  complain p d h := ⟨(last_complain p d).symm ▸ h, (ahead_complain p d).symm ▸ List.Sublist.refl _⟩
  advance _ h :=
    ⟨(last_read _ _).symm ▸ h, (ahead_advance h).trans (List.sublist_append_right _ _)⟩
  emitByte _ _ h := ⟨h, List.Sublist.refl _⟩
  poolIndex p value h :=
    ⟨(respected_last.poolIndex p value).symm ▸ h,
      (ahead_poolIndex p value).symm ▸ List.Sublist.refl _⟩
  effort _ _ h := ⟨h, List.Sublist.refl _⟩

theorem Performs.passes (h : Performs task p log q) (hlast : p.last.kind = .endOfText) :
    Passes p q :=
  h.respects respected_passes hlast

/-! ## The counters -/

@[simp] theorem effort_complain (p : Parser) (d : Diagnostic) :
    (p.complain d).effort = p.effort := by
  unfold complain
  split <;> rfl

@[simp] theorem effort_read (tokens : List Token) (p : Parser) :
    (read tokens p).effort = p.effort := by
  induction tokens generalizing p with
  | nil => rfl
  | cons token tokens ih =>
      cases token with
      | lexeme l => rfl
      | fault f line => exact (ih _).trans (effort_complain p _)

@[simp] theorem effort_advance (p : Parser) : p.advance.effort = p.effort := effort_read _ _

@[simp] theorem effort_expect (p : Parser) (kind : Kind) (fault : SyntaxFault) :
    (p.expect kind fault).effort = p.effort := by
  unfold expect
  split
  · exact effort_advance p
  · exact effort_complain p _

@[simp] theorem effort_emit (p : Parser) (op : OpCode) : (p.emit op).effort = p.effort := rfl

@[simp] theorem effort_emitConstant (p : Parser) (value : Float) :
    (p.emitConstant value).effort = p.effort := by
  show (p.poolIndex value).2.effort = p.effort
  unfold poolIndex
  dsimp only
  split
  · rfl
  · exact effort_complain _ _

/-- **Whatever is performed, the counter of open levels is afterwards what it was before.** -/
theorem Performs.depth (h : Performs task p log q) : q.effort.depth = p.effort.depth := by
  induction h with
  | refused => simp [refuseLevel, complainAtCurrent]
  | nothing => simp [closeLevel, complainAtPrevious, openLevel]
  | operand _ _ _ _ ihfirst ihmore => simp [closeLevel, ihmore, ihfirst, openLevel]
  | grouping _ ih => simpa using ih
  | unary _ ih => simpa using ih
  | binary _ ih =>
      split
      · simpa using ih
      · exact ih
  | number => simp
  | stop => rfl
  | unsupported => simp [complainAtPrevious]
  | goOn _ _ _ _ ihnext ihmore => simpa [ihnext] using ihmore

/-! ## Every task comes to an end -/

theorem not_next_le_none (bound : Precedence) : ¬ bound.next ≤ .none := by
  cases bound <;> decide

/-- In this state there are steps for everything that is ahead, and levels up to the limit. -/
structure Ready (steps levels : Nat) (p : Parser) : Prop where
  last : p.last.kind = .endOfText
  steps : p.ahead.length ≤ steps
  levels : levels + p.effort.depth = maxNesting

namespace Ready

variable {steps levels : Nat}

theorem of_passes (h : Ready steps levels p) (hpasses : Passes p q)
    (hdepth : q.effort.depth = p.effort.depth) : Ready steps levels q :=
  ⟨hpasses.last, hpasses.ahead.length_le.trans h.steps, hdepth ▸ h.levels⟩

theorem of_performs (h : Ready steps levels p) (hperforms : Performs task p log q) :
    Ready steps levels q :=
  h.of_passes (hperforms.passes h.last) hperforms.depth

theorem advance (h : Ready steps levels p) : Ready steps levels p.advance :=
  h.of_passes (respected_passes.advance p h.last) (by rw [effort_advance])

theorem openLevel (h : Ready steps (levels + 1) p) : Ready steps levels p.openLevel := by
  refine ⟨h.last, h.steps, ?_⟩
  have hlevels := h.levels
  show levels + (p.effort.depth + 1) = maxNesting
  omega

end Ready

/-- With these numbers an operand is compiled as the rules say. -/
def Conforms (operand : Precedence → Parser → Parser) (steps levels : Nat) : Prop :=
  ∀ bound p, ¬ bound ≤ Precedence.none → Ready steps levels p →
    ∃ log, Performs (.operand bound) p log (operand bound p)

section

variable {operand : Precedence → Parser → Parser} {steps levels : Nat}

theorem Conforms.handler (hoperand : Conforms operand steps levels) (handler : Handler)
    (h : Ready steps levels p) :
    ∃ log, Performs (.handler handler) p log (handler.compile operand p) := by
  cases handler with
  | grouping =>
      obtain ⟨log, hlog⟩ := hoperand .assignment p (by decide) h
      exact ⟨log, .grouping hlog⟩
  | unary =>
      obtain ⟨log, hlog⟩ := hoperand .unary p (by decide) h
      exact ⟨log, .unary hlog⟩
  | binary =>
      obtain ⟨log, hlog⟩ := hoperand _ p (not_next_le_none _) h
      exact ⟨log, .binary hlog⟩
  | number => exact ⟨[], .number⟩

/-- As many rounds as there are lexemes ahead are enough for the loop. -/
theorem Conforms.operators (hoperand : Conforms operand steps levels) {bound : Precedence}
    (hbinds : ¬ bound ≤ .none) (rounds : Nat) (h : Ready steps levels p)
    (hrounds : p.ahead.length ≤ rounds) :
    ∃ log, Performs (.operators bound) p log (compileOperators operand bound rounds p) := by
  induction rounds generalizing p with
  | zero =>
      -- nothing is ahead but the end of the text, which no loop takes
      refine ⟨[], .stop fun hgo => ?_⟩
      rw [ahead_cons (current_ne_endOfText hbinds hgo)] at hrounds
      exact absurd hrounds (by simp)
  | succ rounds ih =>
      rw [compileOperators]
      split
      · rename_i hgo
        dsimp only
        split
        · rename_i hfollowing
          exact ⟨_, .unsupported hgo hfollowing⟩
        · rename_i handler hfollowing
          obtain ⟨log, hlog⟩ := hoperand.handler handler h.advance
          have hready := h.advance.of_performs hlog
          -- the round has passed a lexeme, and the others suffice for what is ahead now
          have hfewer : (handler.compile operand p.advance).ahead.length ≤ rounds := by
            have hpassed := (cons_ahead_advance h.last
              (current_ne_endOfText hbinds hgo)).length_le
            have hafter := (hlog.passes h.advance.last).ahead.length_le
            rw [List.length_cons] at hpassed
            omega
          obtain ⟨log', hlog'⟩ := ih hready hfewer
          exact ⟨_, .goOn hgo hfollowing hlog hlog'⟩
      · rename_i hstop
        exact ⟨[], .stop hstop⟩

end

/-- **What the parser computes for an operand is what the rules perform.** The levels are those
that are left up to the limit, and there must be steps for the lexemes ahead. -/
theorem exists_performs (steps levels : Nat) :
    Conforms (compileOperand steps levels) steps levels := by
  induction levels with
  | zero =>
      -- no level is left up to the limit, so that the counter is at the limit
      intro bound p _ h
      exact ⟨_, .refused (Nat.zero_add p.effort.depth ▸ h.levels).ge⟩
  | succ levels ih =>
      intro bound p hbinds h
      have hroom : p.effort.depth < maxNesting := by
        have hlevels := h.levels
        omega
      rw [compileOperand]
      split
      · rename_i hleading
        exact ⟨_, .nothing hroom hleading⟩
      · rename_i handler hleading
        obtain ⟨log, hlog⟩ := ih.handler handler h.openLevel.advance
        have hready := h.openLevel.advance.of_performs hlog
        obtain ⟨log', hlog'⟩ := ih.operators hbinds steps hready hready.steps
        exact ⟨_, .operand hroom hleading hlog hlog'⟩

end Parser

end LoxArith
