import LoxArith.Proofs.Parser.Recursion
import LoxArith.Proofs.Scanner

set_option autoImplicit false

/-! # What parsing a text costs

Each operand that is called for is paid for with a lexeme. An operand that begins with a handler
has passed the lexeme the handler was found for, a loop has passed an operator before it
calls for the next operand, and an operand that finds nothing to begin with, or no level, calls
for none. Only the operand that the text itself is has no lexeme in front of it, so that there is
at most one operand more than there are lexemes (`Parser.Performs.calls_le`).

This holds whether or not there was a complaint. After a refused level nothing has been passed,
and the loops of up to `maxNesting` open levels go on with the same lexeme; but the one that
takes it has passed it, and no other can take it again.
-/

namespace LoxArith

namespace Parser

variable {task : Task} {p q r : Parser} {log log' : List Event} {base : Nat}

/-! ## Levels -/

/-- At every moment of the log at most `maxNesting` operands are open, `base` of them from
before, and behind it they are those from before. -/
structure Nested (base : Nat) (log : List Event) : Prop where
  balanced : log.count .opened = log.count .closed
  limit : ∀ front, front <+: log → front.count .closed ≤ front.count .opened ∧
    base + front.count .opened ≤ front.count .closed + maxNesting

theorem Nested.nil (h : base ≤ maxNesting) : Nested base [] := by
  refine ⟨rfl, fun front hfront => ?_⟩
  rw [List.prefix_nil.1 hfront]
  exact ⟨Nat.le_refl 0, by simpa using h⟩

theorem Nested.append (h : Nested base log) (h' : Nested base log') :
    Nested base (log ++ log') := by
  refine ⟨by rw [List.count_append, List.count_append, h.balanced, h'.balanced], ?_⟩
  rintro front ⟨back, hback⟩
  rcases List.append_eq_append_iff.1 hback with ⟨rest, rfl, -⟩ | ⟨more, rfl, rfl⟩
  · exact h.limit front (List.prefix_append front rest)
  · have hmore := h'.limit more (List.prefix_append more back)
    have hbalanced := h.balanced
    simp only [List.count_append]
    omega

/-- An event that neither opens nor closes an operand. -/
theorem Nested.single {event : Event} (hopened : event ≠ .opened) (hclosed : event ≠ .closed)
    (h : base ≤ maxNesting) : Nested base [event] := by
  refine ⟨by simp [hopened, hclosed], fun front hfront => ?_⟩
  rcases List.prefix_cons_iff.1 hfront with rfl | ⟨front, rfl, hnil⟩
  · exact (Nested.nil h).limit [] List.nil_prefix
  · rw [List.prefix_nil.1 hnil]
    simpa [hopened, hclosed] using h

/-- What happens while one more operand is open. -/
theorem Nested.enclose (h : Nested (base + 1) log) (hroom : base < maxNesting) :
    Nested base (.opened :: (log ++ [.closed])) := by
  have hbalanced := h.balanced
  refine ⟨by simp [hbalanced], fun front hfront => ?_⟩
  rcases List.prefix_cons_iff.1 hfront with rfl | ⟨front, rfl, hinside⟩
  · exact (Nested.nil hroom.le).limit [] List.nil_prefix
  · rcases List.prefix_concat_iff.1 hinside with rfl | hbefore
    · simp [hbalanced]
      omega
    · have hlimit := h.limit front hbefore
      simp
      omega

/-- **At every moment of a task at most `maxNesting` operands are open**, those counted before it
included. -/
theorem Performs.nested (h : Performs task p log q) (hdepth : p.effort.depth ≤ maxNesting) :
    Nested p.effort.depth log := by
  induction h with
  | refused => exact .single (by simp) (by simp) hdepth
  | nothing hroom => exact (Nested.nil hroom).enclose hroom
  | @operand _ p q r _ log log' hroom _ hfirst _ ihfirst ihmore =>
      have hopened : p.openLevel.advance.effort.depth = p.effort.depth + 1 := by
        rw [effort_advance]
        rfl
      have hinside : Nested (p.effort.depth + 1) log := hopened ▸ ihfirst (hopened ▸ hroom)
      -- the handler leaves the counter as it found it, so the loop starts on the same level
      have hbehind : q.effort.depth = p.effort.depth + 1 := hfirst.depth.trans hopened
      have hmore : Nested (p.effort.depth + 1) log' := hbehind ▸ ihmore (hbehind ▸ hroom)
      exact (hinside.append hmore).enclose hroom
  | grouping _ ih => exact ih hdepth
  | unary _ ih => exact ih hdepth
  | binary _ ih => exact ih hdepth
  | number => exact .nil hdepth
  | stop => exact .nil hdepth
  | unsupported => exact .single (by simp) (by simp) hdepth
  | @goOn _ p q r _ log log' _ _ hnext _ ihnext ihmore =>
      have hpassed : p.advance.effort.depth = p.effort.depth := by rw [effort_advance]
      have hfirst : Nested p.effort.depth log := hpassed ▸ ihnext (hpassed ▸ hdepth)
      have hbehind : q.effort.depth = p.effort.depth := hnext.depth.trans hpassed
      have hmore : Nested p.effort.depth log' := hbehind ▸ ihmore (hbehind ▸ hdepth)
      exact (Nested.single (by simp) (by simp) hdepth).append (hfirst.append hmore)

/-! ## Lexemes -/

/-- The lexeme with which a loop went on. -/
def Event.passed? : Event → Option Lexeme
  | .passed l => some l
  | _ => none

/-- The lexemes with which the loops went on. -/
def passedIn (log : List Event) : List Lexeme := log.filterMap Event.passed?

/-- The operands that were called for, with or without a level. -/
def callsIn (log : List Event) : Nat := log.count .opened + log.count .refused

@[simp] theorem passedIn_append (log log' : List Event) :
    passedIn (log ++ log') = passedIn log ++ passedIn log' :=
  List.filterMap_append

@[simp] theorem callsIn_append (log log' : List Event) :
    callsIn (log ++ log') = callsIn log + callsIn log' := by
  simp only [callsIn, List.count_append]
  omega

@[simp] theorem callsIn_passed (l : Lexeme) (log : List Event) :
    callsIn (.passed l :: log) = callsIn log := by
  simp [callsIn]

@[simp] theorem callsIn_opened (log : List Event) :
    callsIn (.opened :: (log ++ [.closed])) = callsIn log + 1 := by
  simp only [callsIn, List.count_cons, List.count_append]
  simp
  omega

/-- The task does not take what binds nothing, that is, it stops at the end of the text. -/
def Task.Binds : Task → Prop
  | .operand bound | .operators bound => ¬ bound ≤ .none
  | .handler _ => True

theorem passes_openLevel (h : p.last.kind = .endOfText) : Passes p p.openLevel.advance :=
  (respected_passes.trans (respected_passes.effort p _) (respected_passes.advance p.openLevel)) h

/-- **The loops go on with lexemes of the text, each of them passed once.** -/
theorem Performs.passed (h : Performs task p log q) (hbinds : task.Binds)
    (hlast : p.last.kind = .endOfText) : (passedIn log ++ q.ahead).Sublist p.ahead := by
  induction h with
  | refused => exact (ahead_complain (refuseLevel _) _).symm ▸ List.Sublist.refl _
  | nothing => exact (ahead_complain _ _).symm ▸ (passes_openLevel hlast).ahead
  | number => exact (ahead_emitConstant _ _).symm ▸ List.Sublist.refl _
  | stop => exact List.Sublist.refl _
  | @operand _ p q r _ log log' _ _ hfirst _ ihfirst ihmore =>
      have hopened := passes_openLevel hlast
      have hbefore := (ihfirst trivial hopened.last).trans hopened.ahead
      have hbehind := ihmore hbinds (hfirst.passes hopened.last).last
      show (passedIn (log ++ log' ++ [.closed]) ++ r.ahead).Sublist p.ahead
      rw [passedIn_append, passedIn_append, List.append_assoc, List.append_assoc]
      exact (hbehind.append_left _).trans hbefore
  | grouping h ih =>
      have hbefore := ih (by decide : ¬ Precedence.assignment ≤ .none) hlast
      have hexpect := respected_passes.expect _ .rightParen .expectedRightParen
        (h.passes hlast).last
      exact (hexpect.ahead.append_left _).trans hbefore
  | unary _ ih => exact ih (by decide : ¬ Precedence.unary ≤ .none) hlast
  | binary _ ih =>
      have hbefore := ih (not_next_le_none _) hlast
      split
      · exact hbefore
      · exact hbefore
  | @unsupported _ p hgo _ =>
      show (p.current :: (p.advance.complainAtPrevious .unsupportedOperator).ahead).Sublist p.ahead
      rw [complainAtPrevious, ahead_complain]
      exact cons_ahead_advance hlast (current_ne_endOfText hbinds hgo)
  | @goOn _ p q r _ log log' hgo _ hnext _ ihnext ihmore =>
      have hpassed := cons_ahead_advance hlast (current_ne_endOfText hbinds hgo)
      have hlast' := (respected_passes.advance p hlast).last
      have hbehind := ihmore hbinds (hnext.passes hlast').last
      show (p.current :: (passedIn (log ++ log') ++ r.ahead)).Sublist p.ahead
      rw [passedIn_append, List.append_assoc]
      exact (((hbehind.append_left _).trans (ihnext trivial hlast')).cons_cons _).trans hpassed

/-! ## Operands -/

/-- What a task may call for without a lexeme: one operand, if it is not a loop. -/
def Task.credit : Task → Nat
  | .operand _ | .handler _ => 1
  | .operators _ => 0

/-- An operand that begins with a handler begins with a lexeme of the text. -/
theorem length_ahead_openLevel {handler : Handler} (hlast : p.last.kind = .endOfText)
    (hleading : p.openLevel.advance.previous.kind.rule.leading = some handler) :
    p.openLevel.advance.ahead.length < p.ahead.length := by
  have hkind : p.openLevel.current.kind ≠ .endOfText := by
    intro hend
    rw [advance_previous, hend] at hleading
    cases hleading
  exact (cons_ahead_advance (p := p.openLevel) hlast hkind).length_le

/-- A loop that goes on passes a lexeme of the text. -/
theorem length_ahead_advance {bound : Precedence} (hlast : p.last.kind = .endOfText)
    (hbinds : ¬ bound ≤ .none) (hgo : bound ≤ p.current.kind.rule.precedence) :
    p.advance.ahead.length < p.ahead.length :=
  (cons_ahead_advance hlast (current_ne_endOfText hbinds hgo)).length_le

/-- **The operands that are called for are paid for with the lexemes that are passed.** -/
theorem Performs.calls_le (h : Performs task p log q) (hbinds : task.Binds)
    (hlast : p.last.kind = .endOfText) :
    callsIn log + q.ahead.length ≤ p.ahead.length + task.credit := by
  induction h with
  | @refused _ p =>
      have hsame : (p.refuseLevel.complainAtCurrent .nestedTooDeeply).ahead = p.ahead :=
        ahead_complain _ _
      rw [hsame]
      exact (Nat.add_comm _ _).le
  | @nothing _ p =>
      have hsame : (p.openLevel.advance.complainAtPrevious .expectedExpression).closeLevel.ahead
          = p.openLevel.advance.ahead := ahead_complain _ _
      rw [hsame]
      exact (Nat.add_comm _ _).trans_le
        (Nat.add_le_add_right (passes_openLevel hlast).ahead.length_le 1)
  | @operand _ p q r _ log log' _ hleading hfirst _ ihfirst ihmore =>
      -- the lexeme that the handler was found for pays for this operand
      have hlast' := (passes_openLevel hlast).last
      have hpassed := length_ahead_openLevel hlast hleading
      have hbefore := ihfirst trivial hlast'
      have hbehind := ihmore hbinds (hfirst.passes hlast').last
      have hclosed : r.closeLevel.ahead = r.ahead := rfl
      rw [callsIn_opened, callsIn_append, hclosed]
      simp only [Task.credit] at hbefore hbehind ⊢
      omega
  | grouping h ih =>
      have hbefore := ih (by decide : ¬ Precedence.assignment ≤ .none) hlast
      have hexpect := (respected_passes.expect _ .rightParen .expectedRightParen
        (h.passes hlast).last).ahead.length_le
      exact (Nat.add_le_add_left hexpect _).trans hbefore
  | unary _ ih => exact ih (by decide : ¬ Precedence.unary ≤ .none) hlast
  | binary _ ih =>
      have hbefore := ih (not_next_le_none _) hlast
      split
      · exact hbefore
      · exact hbefore
  | number =>
      rw [ahead_emitConstant]
      exact (Nat.zero_add _).trans_le (Nat.le_succ _)
  | stop => exact (Nat.zero_add _).le
  | @unsupported _ p hgo _ =>
      rw [complainAtPrevious, ahead_complain, callsIn_passed]
      exact (Nat.zero_add _).trans_le (length_ahead_advance hlast hbinds hgo).le
  | @goOn _ p q r _ log log' hgo _ hnext _ ihnext ihmore =>
      -- the lexeme that the loop passes pays for the operand of the handler
      have hlast' := (respected_passes.advance p hlast).last
      have hpassed := length_ahead_advance hlast hbinds hgo
      have hbefore := ihnext trivial hlast'
      have hbehind := ihmore hbinds (hnext.passes hlast').last
      rw [callsIn_passed, callsIn_append]
      simp only [Task.credit] at hbefore hbehind ⊢
      omega

/-! ## What is counted -/

/-- The counter of operands counts the operands that were called for. -/
theorem Performs.operands (h : Performs task p log q) :
    q.effort.operands = p.effort.operands + callsIn log := by
  induction h with
  | refused => simp [refuseLevel, complainAtCurrent, callsIn]
  | nothing => simp [closeLevel, complainAtPrevious, openLevel, callsIn]
  | @operand _ p q r _ log log' _ _ _ _ ihfirst ihmore =>
      have hopened : p.openLevel.advance.effort.operands = p.effort.operands + 1 := by
        rw [effort_advance]
        rfl
      show r.effort.operands = _
      rw [ihmore, ihfirst, hopened, callsIn_opened, callsIn_append]
      omega
  | grouping _ ih => rw [effort_expect, ih]
  | unary _ ih => rw [effort_emit, ih]
  | binary _ ih =>
      split
      · rw [effort_emit, ih]
      · exact ih
  | number => rw [effort_emitConstant]; rfl
  | stop => rfl
  | unsupported => simp [complainAtPrevious, callsIn]
  | goOn _ _ _ _ ihnext ihmore =>
      rw [ihmore, ihnext, effort_advance, callsIn_passed, callsIn_append]
      omega

/-- The counter of open levels never passes the limit. -/
theorem Performs.deepest (h : Performs task p log q) (hdeepest : p.effort.deepest ≤ maxNesting) :
    q.effort.deepest ≤ maxNesting := by
  induction h with
  | refused => simpa [refuseLevel, complainAtCurrent] using hdeepest
  | nothing hroom =>
      simp only [closeLevel, complainAtPrevious, effort_complain, effort_advance]
      exact max_le hdeepest hroom
  | operand hroom _ _ _ ihfirst ihmore =>
      exact ihmore (ihfirst (by rw [effort_advance]; exact max_le hdeepest hroom))
  | grouping _ ih => simpa using ih hdeepest
  | unary _ ih => exact ih hdeepest
  | binary _ ih =>
      split
      · exact ih hdeepest
      · exact ih hdeepest
  | number => simpa using hdeepest
  | stop => exact hdeepest
  | unsupported => simpa [complainAtPrevious] using hdeepest
  | goOn _ _ _ _ ihnext ihmore => exact ihmore (ihnext (by simpa using hdeepest))

/-! ## A whole text -/

/-- The log of parsing a text. -/
structure Bounded (tokens : Tokens) (log : List Event) : Prop where
  /-- At every moment at most 512 operands are open. -/
  levels : ∀ front, front <+: log → front.count .opened ≤ front.count .closed + 512
  /-- Every operand that is opened returns. -/
  balanced : log.count .opened = log.count .closed
  /-- The loops go on with lexemes of the text, in their order and each of them once. -/
  passed : (passedIn log).Sublist tokens.lexemes
  /-- They do not go on with the end of the text. -/
  text : ∀ l ∈ passedIn log, l.kind ≠ .endOfText
  /-- Apart from the first, there is a lexeme for each operand that is called for. -/
  calls : callsIn log ≤ 1 + tokens.lexemes.length

section

variable (source : String)

theorem last_start : (start (tokensOf source)).last.kind = .endOfText :=
  (congrArg Lexeme.kind (last_read _ _)).trans (kind_last_tokensOf source)

theorem effort_start (tokens : Tokens) : (start tokens).effort = {} := effort_advance _

theorem ahead_start : (start (tokensOf source)).ahead.Sublist (tokensOf source).lexemes :=
  ahead_read (kind_last_tokensOf source)

theorem ready_start :
    Ready (tokensOf source).items.length maxNesting (start (tokensOf source)) := by
  refine ⟨last_start source, ?_, by rw [effort_start]; rfl⟩
  exact (ahead_start source).length_le.trans (List.length_filterMap_le _ _)

end

theorem Performs.bounded {source : String}
    (h : Performs (.operand .assignment) (start (tokensOf source)) log q) :
    Bounded (tokensOf source) log := by
  have hlast := last_start source
  have hbinds : (Task.operand .assignment).Binds := (by decide : ¬ Precedence.assignment ≤ .none)
  have hnested := h.nested (by rw [effort_start]; exact Nat.zero_le _)
  have hpassed := ((List.sublist_append_left _ _).trans (h.passed hbinds hlast)).trans
    (ahead_start source)
  refine ⟨fun front hfront => ?_, hnested.balanced, hpassed, fun l hl => ?_, ?_⟩
  · have hlimit := (hnested.limit front hfront).2
    rw [effort_start] at hlimit
    exact (Nat.zero_add _).symm.trans_le hlimit
  · exact ne_endOfText_of_mem_tokensOf (Tokens.mem_lexemes.1 (hpassed.subset hl))
  · have hcalls := h.calls_le hbinds hlast
    have hahead := (ahead_start source).length_le
    simp only [Task.credit] at hcalls
    omega

end Parser

/-- **Compiling ends, and its recursion is bounded.** For every text the recursion of the parser,
with no bound but its own limit on levels, comes to an end in exactly one way, and the parser is
then in the state from which the result of compiling is taken. The log of it is bounded in levels,
lexemes and operands. The counters agree: operands as in the log, the most levels within the limit,
and every operand that returns, whether it was compiled or complained about, leaves the counter of
open levels as it was. -/
theorem parse_bounded (source : String) :
    ∃ log q, Parser.Performs (.operand .assignment) (Parser.start (tokensOf source)) log q ∧
      (∀ log' q', Parser.Performs (.operand .assignment) (Parser.start (tokensOf source)) log' q' →
        log' = log ∧ q' = q) ∧
      parseTokens (tokensOf source) = (q.expect .endOfText .expectedEnd).emit .return ∧
      compile source = (match (parseTokens (tokensOf source)).complaint with
        | none => .ok (parseTokens (tokensOf source)).chunk
        | some d => .error ⟨[d]⟩) ∧
      Parser.Bounded (tokensOf source) log ∧
      (parseTokens (tokensOf source)).effort.operands = Parser.callsIn log ∧
      (parseTokens (tokensOf source)).effort.deepest ≤ 512 ∧
      (parseTokens (tokensOf source)).effort.depth = 0 ∧
      ∀ bound p log q, Parser.Performs (.operand bound) p log q →
        q.effort.depth = p.effort.depth := by
  obtain ⟨log, hlog⟩ := Parser.exists_performs (tokensOf source).items.length maxNesting
    .assignment (Parser.start (tokensOf source)) (by decide) (Parser.ready_start source)
  have heffort : ∀ q : Parser, ((q.expect .endOfText .expectedEnd).emit .return).effort
      = q.effort := fun q => Parser.effort_expect q _ _
  have hstart := Parser.effort_start (tokensOf source)
  refine ⟨log, _, hlog, fun _ _ h => hlog.unique h, rfl, rfl, hlog.bounded, ?_, ?_, ?_,
    fun _ _ _ _ h => h.depth⟩
  · have hoperands := hlog.operands
    rw [hstart] at hoperands
    exact (congrArg Effort.operands (heffort _)).trans (hoperands.trans (Nat.zero_add _))
  · have hdeepest := hlog.deepest (by rw [hstart]; exact Nat.zero_le _)
    exact (congrArg Effort.deepest (heffort _)).trans_le hdeepest
  · have hdepth := hlog.depth
    rw [hstart] at hdepth
    exact (congrArg Effort.depth (heffort _)).trans hdepth

-- one lexeme and two operands, the second of which finds only the end of the text
example : (parseTokens (tokensOf "-")).effort = ⟨2, 0, 2⟩ := by decide +kernel

end LoxArith
