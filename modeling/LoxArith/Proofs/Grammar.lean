import LoxArith.Number.Literal
import LoxArith.OpCode
import LoxArith.Token.Scan

set_option autoImplicit false

/-! # The grammar of expressions

The sentences of the language are those of

    expression := term (('+' | '-') term)*
    term       := unary (('*' | '/') unary)*
    unary      := '-' unary | NUMBER | '(' expression ')'

where both kinds of chains are read from the left. `Derives` is this grammar: it relates
lexemes to the *phrase* they form, which is the sentence with its parentheses. What a phrase
means does not depend on them; `Phrase.expr` is the expression tree without them.

The grammar is unambiguous (`Derives.unique`): the lexemes of a sentence form one phrase.
-/

namespace LoxArith

/-! ## Operators -/

/-- The tiers of binary operators, looser first. -/
inductive Tier
  | sum
  | product
  deriving DecidableEq, Repr

/-- The binary operators. -/
inductive Operator
  | add
  | subtract
  | multiply
  | divide
  deriving DecidableEq, Repr

namespace Operator

/-- The tier of an operator. -/
def tier : Operator → Tier
  | add | subtract => .sum
  | multiply | divide => .product

/-- The kind of lexeme that stands for an operator between two operands. -/
def kind : Operator → Kind
  | add => .plus
  | subtract => .minus
  | multiply => .star
  | divide => .slash

/-- The instruction of an operator. -/
def opCode : Operator → OpCode
  | add => .add
  | subtract => .subtract
  | multiply => .multiply
  | divide => .divide

/-- What an operator does to its left and its right operand. -/
def apply : Operator → Float → Float → Float
  | add, left, right => left + right
  | subtract, left, right => left - right
  | multiply, left, right => left * right
  | divide, left, right => left / right

theorem kind_inj {a b : Operator} (h : a.kind = b.kind) : a = b := by
  cases a <;> cases b <;> simp_all [kind]

end Operator

/-! ## Expression trees -/

/-- An expression. A number is kept as the lexeme that denotes it. -/
inductive Expr
  | number (literal : Lexeme)
  | negate (operand : Expr)
  | binary (left : Expr) (operator : Operator) (right : Expr)
  deriving DecidableEq, Repr

namespace Expr

/-- The value of an expression, in the arithmetic of doubles. -/
def value : Expr → Float
  | number literal => literalValue literal.text
  | negate operand => -operand.value
  | binary left operator right => operator.apply left.value right.value

/-- The number lexemes of an expression, in the order of the text. -/
def literals : Expr → List Lexeme
  | number literal => [literal]
  | negate operand => operand.literals
  | binary left _ right => left.literals ++ right.literals

/-- The doubles that the number lexemes denote, in the order of the text. -/
def constants (e : Expr) : List Float :=
  e.literals.map fun literal => literalValue literal.text

/-- How many values are live at most while the expression is evaluated: the left operand is
kept while the right one is computed. -/
def need : Expr → Nat
  | number _ => 1
  | negate operand => operand.need
  | binary left _ right => max left.need (1 + right.need)

end Expr

/-! ## Phrases -/

/-- What a sentence consists of. Unlike an expression, a phrase has its parentheses; the
closing one is kept, since a group ends with it. -/
inductive Phrase
  | number (literal : Lexeme)
  | group (inner : Phrase) (close : Lexeme)
  | negate (operand : Phrase)
  | binary (left : Phrase) (operator : Operator) (right : Phrase)
  deriving DecidableEq, Repr

namespace Phrase

/-- The expression of a phrase. Parentheses leave no trace. -/
def expr : Phrase → Expr
  | number literal => .number literal
  | group inner _ => inner.expr
  | negate operand => .negate operand.expr
  | binary left operator right => .binary left.expr operator right.expr

/-- How many operands are open at most while the phrase is read. A left operand is complete
before the right one is begun. -/
def levels : Phrase → Nat
  | number _ => 1
  | group inner _ => 1 + inner.levels
  | negate operand => 1 + operand.levels
  | binary left _ right => max left.levels (1 + right.levels)

/-- The last lexeme of a phrase. -/
def last : Phrase → Lexeme
  | number literal => literal
  | group _ close => close
  | negate operand => operand.last
  | binary _ _ right => right.last

theorem levels_pos (s : Phrase) : 0 < s.levels := by
  induction s with
  | number _ => exact Nat.one_pos
  | group _ _ _ => simp only [levels]; omega
  | negate _ _ => simp only [levels]; omega
  | binary _ _ _ _ _ => simp only [levels]; omega

/-- A phrase that is read one level deeper finds a level that is left. -/
theorem exists_levels (s : Phrase) {levels : Nat} (h : 1 + s.levels ≤ levels + 1) :
    ∃ left, levels = left + 1 ∧ s.levels ≤ left + 1 := by
  have hpos := s.levels_pos
  exact ⟨levels - 1, by omega, by omega⟩

end Phrase

/-! ## Sentences -/

/-- What the grammar derives: a unary phrase, a chain of the operators of a tier, or the part
of such a chain that follows the operand `left`. -/
inductive Goal
  | unary
  | chain (tier : Tier)
  | more (tier : Tier) (left : Phrase)

/-- The operands of a chain: terms in an expression, unary phrases in a term. -/
def Tier.operand : Tier → Goal
  | .sum => .chain .product
  | .product => .unary

/-- The grammar: the lexemes are what the goal asks for and form the phrase. The phrase of
`more tier left` has `left` as the first operand of its chain. -/
inductive Derives : Goal → List Lexeme → Phrase → Prop
  | number {literal : Lexeme} (hkind : literal.kind = .number) :
      Derives .unary [literal] (.number literal)
  | negate {sign : Lexeme} {ls : List Lexeme} {s : Phrase} (hsign : sign.kind = .minus)
      (operand : Derives .unary ls s) :
      Derives .unary (sign :: ls) (.negate s)
  | group {opening close : Lexeme} {ls : List Lexeme} {s : Phrase}
      (hopening : opening.kind = .leftParen) (inner : Derives (.chain .sum) ls s)
      (hclose : close.kind = .rightParen) :
      Derives .unary (opening :: (ls ++ [close])) (.group s close)
  | chain {tier : Tier} {ls ks : List Lexeme} {left s : Phrase}
      (first : Derives tier.operand ls left) (others : Derives (.more tier left) ks s) :
      Derives (.chain tier) (ls ++ ks) s
  | stop {tier : Tier} {left : Phrase} :
      Derives (.more tier left) [] left
  | more {tier : Tier} {operator : Operator} {joint : Lexeme} {ls ks : List Lexeme}
      {left right s : Phrase} (hjoint : joint.kind = operator.kind) (htier : operator.tier = tier)
      (operand : Derives tier.operand ls right)
      (others : Derives (.more tier (.binary left operator right)) ks s) :
      Derives (.more tier left) (joint :: (ls ++ ks)) s

/-- The text is a sentence: none of its tokens is a fault, and its lexemes form the
expression `s`. -/
def IsSentence (source : String) (s : Phrase) : Prop :=
  ∃ lexemes : List Lexeme, (tokensOf source).items = lexemes.map Token.lexeme ∧
    Derives (.chain .sum) lexemes s

/-- A chain of one operand. -/
theorem Derives.single (tier : Tier) {ls : List Lexeme} {s : Phrase}
    (h : Derives tier.operand ls s) : Derives (.chain tier) ls s := by
  have hchain := Derives.chain h .stop
  simpa using hchain

/-- A chain of two operands. -/
theorem Derives.pair (operator : Operator) {joint : Lexeme} {ls ks : List Lexeme}
    {left right : Phrase} (hleft : Derives operator.tier.operand ls left)
    (hjoint : joint.kind = operator.kind) (hright : Derives operator.tier.operand ks right) :
    Derives (.chain operator.tier) (ls ++ joint :: ks) (.binary left operator right) := by
  have hchain := Derives.chain hleft (.more hjoint rfl hright .stop)
  simpa using hchain

/-! ## The grammar is unambiguous

A derivation is not determined by where it starts, since a chain may be cut off early. It is
determined if no operator follows that would continue it. -/

/-- What follows does not continue a phrase of the goal. Behind a term there may be an
operator of the looser tier, and behind a unary phrase anything. -/
def Goal.Ends : Goal → List Lexeme → Prop
  | .unary, _ => True
  | .chain tier, ks | .more tier _, ks =>
    ∀ l ∈ ks.head?, ∀ operator : Operator, l.kind = operator.kind →
      tier = .product ∧ operator.tier = .sum

theorem Goal.ends_nil (goal : Goal) : goal.Ends [] := by
  cases goal <;> simp [Goal.Ends]

theorem Goal.ends_of_rightParen {goal : Goal} {close : Lexeme} {ks : List Lexeme}
    (hclose : close.kind = .rightParen) : goal.Ends (close :: ks) := by
  have hne : ∀ operator : Operator, close.kind ≠ operator.kind := by
    intro operator
    cases operator <;> simp [hclose, Operator.kind]
  cases goal <;> simp [Goal.Ends, hne]

/-- Where a chain ends, no operator of its tier follows. -/
theorem Goal.Ends.ne_tier {tier : Tier} {left : Phrase} {operator : Operator} {joint : Lexeme}
    {ks : List Lexeme} (h : (Goal.more tier left).Ends (joint :: ks))
    (hjoint : joint.kind = operator.kind) : operator.tier ≠ tier := by
  obtain ⟨rfl, hsum⟩ := h joint rfl operator hjoint
  simp [hsum]

/-- An operand of a chain ends where the chain goes on, and where the chain ends. -/
theorem Derives.ends_operand {tier : Tier} {ks rest : List Lexeme} {left s : Phrase}
    (h : Derives (.more tier left) ks s) (hends : (Goal.chain tier).Ends rest) :
    tier.operand.Ends (ks ++ rest) := by
  cases tier with
  | product => exact trivial
  | sum =>
      cases h with
      | stop =>
          intro l hl operator hkind
          exact absurd (hends l hl operator hkind).1 (by decide)
      | @more _ operator joint _ _ _ _ _ hjoint htier operand others =>
          intro l hl other hkind
          obtain rfl : joint = l := by simpa using hl
          obtain rfl := Operator.kind_inj (hjoint.symm.trans hkind)
          exact ⟨rfl, htier⟩

/-- **The grammar is unambiguous.** Two derivations that start at the same place and end
where nothing continues them read the same lexemes and find the same phrase. -/
theorem Derives.unique {goal : Goal} {ls : List Lexeme} {s : Phrase} (h : Derives goal ls s) :
    ∀ {ls' : List Lexeme} {s' : Phrase} {rest rest' : List Lexeme}, Derives goal ls' s' →
      ls ++ rest = ls' ++ rest' → goal.Ends rest → goal.Ends rest' → ls = ls' ∧ s = s' := by
  -- the first lexeme tells unary phrases apart; a chain goes on as long as an operator follows
  induction h with
  | number hkind =>
      intro ls' s' rest rest' h' heq _ _
      cases h' with
      | number hkind' =>
          rcases List.cons.inj heq with ⟨rfl, -⟩
          exact ⟨rfl, rfl⟩
      | negate hsign' _ =>
          rcases List.cons.inj heq with ⟨rfl, -⟩
          exact absurd (hkind.symm.trans hsign') (by decide)
      | group hopening' _ _ =>
          rcases List.cons.inj heq with ⟨rfl, -⟩
          exact absurd (hkind.symm.trans hopening') (by decide)
  | negate hsign _ ih =>
      intro ls' s' rest rest' h' heq _ _
      cases h' with
      | number hkind' =>
          rcases List.cons.inj heq with ⟨rfl, -⟩
          exact absurd (hsign.symm.trans hkind') (by decide)
      | negate hsign' operand' =>
          rcases List.cons.inj heq with ⟨rfl, heq'⟩
          obtain ⟨rfl, rfl⟩ := ih operand' heq' trivial trivial
          exact ⟨rfl, rfl⟩
      | group hopening' _ _ =>
          rcases List.cons.inj heq with ⟨rfl, -⟩
          exact absurd (hsign.symm.trans hopening') (by decide)
  | group hopening _ hclose ih =>
      intro ls' s' rest rest' h' heq _ _
      cases h' with
      | number hkind' =>
          rcases List.cons.inj heq with ⟨rfl, -⟩
          exact absurd (hopening.symm.trans hkind') (by decide)
      | negate hsign' _ =>
          rcases List.cons.inj heq with ⟨rfl, -⟩
          exact absurd (hopening.symm.trans hsign') (by decide)
      | group hopening' inner' hclose' =>
          simp only [List.cons_append, List.append_assoc, List.cons.injEq] at heq
          rcases heq with ⟨rfl, heq'⟩
          obtain ⟨rfl, rfl⟩ := ih inner' heq' (Goal.ends_of_rightParen hclose)
            (Goal.ends_of_rightParen hclose')
          rcases List.cons.inj (List.append_cancel_left heq') with ⟨rfl, -⟩
          exact ⟨rfl, rfl⟩
  | chain first others ih ihothers =>
      intro ls' s' rest rest' h' heq hends hends'
      cases h' with
      | chain first' others' =>
          simp only [List.append_assoc] at heq
          obtain ⟨rfl, rfl⟩ := ih first' heq (others.ends_operand hends)
            (others'.ends_operand hends')
          obtain ⟨rfl, rfl⟩ := ihothers others' (List.append_cancel_left heq) hends hends'
          exact ⟨rfl, rfl⟩
  | stop =>
      intro ls' s' rest rest' h' heq hends _
      cases h' with
      | stop => exact ⟨rfl, rfl⟩
      | more hjoint' htier' _ _ =>
          -- the second chain goes on where the first one ends
          subst heq
          exact absurd htier' (hends.ne_tier hjoint')
  | more hjoint htier operand others ih ihothers =>
      intro ls' s' rest rest' h' heq hends hends'
      cases h' with
      | stop =>
          subst heq
          exact absurd htier (hends'.ne_tier hjoint)
      | more hjoint' htier' operand' others' =>
          simp only [List.cons_append, List.append_assoc, List.cons.injEq] at heq
          rcases heq with ⟨rfl, heq'⟩
          obtain rfl := Operator.kind_inj (hjoint.symm.trans hjoint')
          obtain ⟨rfl, rfl⟩ := ih operand' heq' (others.ends_operand hends)
            (others'.ends_operand hends')
          obtain ⟨rfl, rfl⟩ := ihothers others' (List.append_cancel_left heq') hends hends'
          exact ⟨rfl, rfl⟩

/-- The lexemes of a sentence form one phrase. -/
theorem IsSentence.unique {source : String} {s s' : Phrase} (h : IsSentence source s)
    (h' : IsSentence source s') : s = s' := by
  rcases h with ⟨ls, hls, hs⟩
  rcases h' with ⟨ls', hls', hs'⟩
  have hmap : ls.map Token.lexeme = ls'.map Token.lexeme := hls.symm.trans hls'
  obtain rfl : ls = ls' :=
    (List.map_inj_right fun _ _ h => Token.lexeme.inj h).1 hmap
  exact (hs.unique hs' rfl (Goal.ends_nil _) (Goal.ends_nil _)).2

/-- A sentence is that of one phrase. -/
theorem IsSentence.iff_eq {source : String} {s : Phrase} (h : IsSentence source s)
    (other : Phrase) : IsSentence source other ↔ other = s := by
  constructor
  · intro hother
    exact hother.unique h
  · rintro rfl
    exact h

/-! ## The numbers of a sentence

The literals of an expression are the number lexemes of the text, in their order. -/

/-- A token that is a number. -/
def Token.number? : Token → Option Lexeme
  | .lexeme l => if l.kind = .number then some l else none
  | .fault _ _ => none

/-- The literals that a goal starts with: those of the beginning of the chain. -/
def Goal.literals : Goal → List Lexeme
  | .more _ left => left.expr.literals
  | _ => []

theorem Derives.literals {goal : Goal} {ls : List Lexeme} {s : Phrase} (h : Derives goal ls s) :
    s.expr.literals = goal.literals ++ (ls.map Token.lexeme).filterMap Token.number? := by
  induction h with
  | number hkind => simp [Phrase.expr, Expr.literals, Goal.literals, Token.number?, hkind]
  | negate hsign operand ih =>
      rw [Phrase.expr, Expr.literals, ih]
      simp [Goal.literals, Token.number?, hsign]
  | group hopening inner hclose ih =>
      rw [Phrase.expr, ih]
      simp [Goal.literals, Token.number?, hopening, hclose]
  | @chain tier _ _ _ _ first others ih ihothers =>
      have hnil : tier.operand.literals = [] := by cases tier <;> rfl
      rw [ihothers, Goal.literals, ih, hnil]
      simp [Goal.literals]
  | stop => simp [Goal.literals]
  | @more tier operator joint _ _ _ _ _ hjoint htier operand others ih ihothers =>
      have hnil : tier.operand.literals = [] := by cases tier <;> rfl
      have hkind : joint.kind ≠ .number := by
        rw [hjoint]
        cases operator <;> decide
      rw [ihothers, Goal.literals, Phrase.expr, Expr.literals, ih, hnil]
      simp [Goal.literals, Token.number?, hkind]

/-- **The literals of a sentence are its number lexemes, in the order of the text.** -/
theorem IsSentence.literals {source : String} {s : Phrase} (h : IsSentence source s) :
    s.expr.literals = (tokensOf source).items.filterMap Token.number? := by
  rcases h with ⟨ls, hls, hs⟩
  rw [hs.literals, hls]
  rfl

end LoxArith
