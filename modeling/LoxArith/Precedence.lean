set_option autoImplicit false

/-! # Precedence

How tightly an operator binds, from `none`, which no expression may reach, to `primary`.
The order is that of the list; `next` is the level that binds one step tighter, which is
what the right operand of a left-associative operator has to reach.
-/

namespace LoxArith

/-- The levels of binding, loosest first. -/
inductive Precedence
  | none
  | assignment
  | or
  | and
  | equality
  | comparison
  | term
  | factor
  | unary
  | call
  | primary
  deriving DecidableEq, Repr

namespace Precedence

/-- The position among the levels. -/
def rank (p : Precedence) : Nat := p.ctorIdx

instance : LE Precedence := ⟨fun a b => a.rank ≤ b.rank⟩

instance (a b : Precedence) : Decidable (a ≤ b) :=
  inferInstanceAs (Decidable (a.rank ≤ b.rank))

instance : Ord Precedence := ⟨fun a b => compare a.rank b.rank⟩

/-- The level that binds one step tighter; nothing binds tighter than a primary. -/
def next : Precedence → Precedence
  | none => assignment
  | assignment => or
  | or => and
  | and => equality
  | equality => comparison
  | comparison => term
  | term => factor
  | factor => unary
  | unary => call
  | call => primary
  | primary => primary

end Precedence

end LoxArith
