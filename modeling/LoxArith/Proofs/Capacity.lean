import LoxArith.Proofs.Execution

set_option autoImplicit false

/-! # When the stack is large enough

A level that is opened for a right operand holds one value below it, but a level that is
opened for a parenthesis or a sign holds none. Two operators, one of each tier, can be open
in front of a parenthesis, so that three levels hold two values, and no better is possible:
the values that are needed are at most two thirds of the levels, and one
(`IsSentence.need_le`).

The compiler allows 512 levels, the stack holds 256 values. Programs of up to 383 levels
therefore run. Beyond, whether a program runs depends on what it needs
(`run_ok_iff_need_le`), and 384 levels can need 257 values (`nestedText_overflows`).
-/

namespace LoxArith

/-! ## Values and levels -/

/-- By how much two thirds of the levels can be exceeded, in thirds. -/
def Goal.slack : Goal → Nat
  | .unary => 1
  | .chain .product | .more .product _ => 2
  | .chain .sum | .more .sum _ => 3

/-- The beginning of a chain needs no more than the chain may. -/
def Goal.Bounded : Goal → Prop
  | .more tier left => 3 * left.expr.need ≤ 2 * left.levels + (Goal.chain tier).slack
  | _ => True

/-- Three levels hold at most two values. -/
theorem Derives.need_le {goal : Goal} {ls : List Lexeme} {s : Phrase} (h : Derives goal ls s)
    (hgoal : goal.Bounded) : 3 * s.expr.need ≤ 2 * s.levels + goal.slack := by
  induction h with
  | number hkind => exact Nat.le_refl 3
  | negate hsign operand ih =>
      -- a level without a value
      have hoperand := ih trivial
      simp only [Phrase.expr, Expr.need, Phrase.levels, Goal.slack] at hoperand ⊢
      omega
  | group hopening inner hclose ih =>
      have hinner := ih trivial
      simp only [Phrase.expr, Phrase.levels, Goal.slack] at hinner ⊢
      omega
  | @chain tier ls ks left s first others ih ihothers =>
      have hfirst : 3 * left.expr.need ≤ 2 * left.levels + tier.operand.slack :=
        ih (by cases tier <;> trivial)
      have hslack : tier.operand.slack ≤ (Goal.chain tier).slack := by cases tier <;> decide
      have hleft : (Goal.more tier left).Bounded := Nat.le_trans hfirst (by omega)
      have hs := ihothers hleft
      cases tier <;> exact hs
  | @stop tier left => cases tier <;> exact hgoal
  | @more tier operator joint ls ks left right s hjoint htier operand others ih ihothers =>
      have hright : 3 * right.expr.need ≤ 2 * right.levels + tier.operand.slack :=
        ih (by cases tier <;> trivial)
      -- a right operand has one slack less than its chain, and one value below it
      have hslack : tier.operand.slack + 1 = (Goal.chain tier).slack := by cases tier <;> rfl
      have hleft : 3 * left.expr.need ≤ 2 * left.levels + (Goal.chain tier).slack := hgoal
      have hboth : (Goal.more tier (.binary left operator right)).Bounded := by
        simp only [Goal.Bounded, Phrase.expr, Expr.need, Phrase.levels]
        omega
      have hs := ihothers hboth
      cases tier <;> exact hs

/-- **A sentence needs at most two thirds of its levels, and one.** -/
theorem IsSentence.need_le {source : String} {s : Phrase} (h : IsSentence source s) :
    3 * s.expr.need ≤ 2 * s.levels + 3 := by
  rcases h with ⟨ls, -, hs⟩
  exact hs.need_le trivial

/-! ## Programs that run -/

/-- **Which programs run.** A program that was compiled returns a value if and only if its
expression needs no more values than the stack holds, whatever the stack was used for before;
otherwise it overflows the stack. Up to 383 levels it always returns. -/
theorem run_ok_iff_need_le {source : String} {chunk : Chunk} (h : compile source = .ok chunk)
    (stack : Stack) :
    ∃ s, (∀ other, IsSentence source other ↔ other = s) ∧
      ((∃ value, (chunk.run stack).result = .ok value) ↔ s.expr.need ≤ stackCapacity) ∧
      (stackCapacity < s.expr.need →
        ∃ line, (chunk.run stack).result = .error ⟨some line, .stackOverflow⟩) ∧
      (s.levels ≤ 383 → ∃ value, (chunk.run stack).result = .ok value) := by
  obtain ⟨s, hs, -, hsmall, rfl⟩ := compile_eq_ok_iff.1 h
  have hruns : s.expr.need ≤ stackCapacity →
      ∃ value, ((s.program (tokensOf source).last.line).run stack).result = .ok value := by
    intro hroom
    obtain ⟨after, -, hrun⟩ := s.run_program hsmall (tokensOf source).last.line stack hroom
    exact ⟨s.expr.value, by rw [hrun]⟩
  have hfails : stackCapacity < s.expr.need → ∃ line,
      ((s.program (tokensOf source).last.line).run stack).result
        = .error ⟨some line, .stackOverflow⟩ := by
    intro hover
    obtain ⟨literal, after, -, hrun⟩ :=
      s.run_program_overflow hsmall (tokensOf source).last.line stack hover
    exact ⟨literal.line, by rw [hrun]⟩
  refine ⟨s, hs.iff_eq, ⟨?_, hruns⟩, hfails, ?_⟩
  · -- a run that overflows has no value
    rintro ⟨value, hvalue⟩
    by_contra hover
    obtain ⟨line, herror⟩ := hfails (Nat.lt_of_not_le hover)
    rw [hvalue] at herror
    cases herror
  · intro hlevels
    apply hruns
    have hneed := hs.need_le
    show s.expr.need ≤ 256
    omega

theorem run_difference :
    compile "8-2" = .ok (Phrase.difference.program 1) ∧
      ∃ value, ((Phrase.difference.program 1).run .empty).result = .ok value := by
  obtain ⟨s, hs, -, -, hlevels⟩ := run_ok_iff_need_le compile_difference .empty
  obtain rfl : Phrase.difference = s := (hs _).1 isSentence_difference
  exact ⟨compile_difference, hlevels (by decide)⟩

/-! ## Programs that do not run

The bound is reached by a sum in front of a product in front of a group, nested in itself.
With 128 groups of zeros the program opens 384 levels, is compiled, and overflows the
stack. -/

namespace Cursor

/-- Scanning goes through the lexemes from one place to the other. -/
def Passes (place : Cursor) (ls : List Lexeme) (after : Cursor) : Prop :=
  ∀ collected, place.scanInto collected
    = after.scanInto ((ls.map Token.lexeme).reverse ++ collected)

theorem Passes.nil (place : Cursor) : place.Passes [] place := fun _ => rfl

theorem Passes.cons {place next after : Cursor} {l : Lexeme} {ls : List Lexeme}
    (h : place.scan? = some (.lexeme l, next)) (hrest : next.Passes ls after) :
    place.Passes (l :: ls) after := by
  intro collected
  have hstep : place.scanInto collected = next.scanInto (.lexeme l :: collected) := by
    rw [scanInto]
    split
    · rename_i hnone
      rw [h] at hnone
      cases hnone
    · rename_i token next' hsome
      rw [h] at hsome
      cases hsome
      rfl
  rw [hstep, hrest]
  simp

theorem Passes.append {place middle after : Cursor} {ls ks : List Lexeme}
    (h : place.Passes ls middle) (h' : middle.Passes ks after) :
    place.Passes (ls ++ ks) after := by
  intro collected
  rw [h, h']
  simp

end Cursor

/-- The characters of zeros in groups, `n` of them around `0+0*0`. -/
def nestedZeros : Nat → List Char
  | 0 => ['0', '+', '0', '*', '0']
  | n + 1 => '0' :: '+' :: '0' :: '*' :: '(' :: (nestedZeros n ++ [')'])

/-- What a phrase of nested zeros takes. -/
structure TakesNested (n : Nat) (s : Phrase) : Prop where
  levels : s.levels = 3 * n + 3
  need : s.expr.need = 2 * n + 3
  constants : ∀ v ∈ s.expr.constants, v = literalValue (String.ofList ['0'])

/-- The lexeme of one character on the first line. -/
def characterAt (kind : Kind) (c : Char) (offset : Nat) : Lexeme :=
  ⟨kind, String.ofList [c], offset, 1⟩

/-- The lexemes of `0+0*`. -/
def zerosBefore (offset : Nat) : List Lexeme :=
  [characterAt .number '0' offset, characterAt .plus '+' (offset + 1),
    characterAt .number '0' (offset + 2), characterAt .star '*' (offset + 3)]

theorem passes_zerosBefore (offset : Nat) (rest : List Char) :
    (Cursor.mk ('0' :: '+' :: '0' :: '*' :: rest) offset 1).Passes (zerosBefore offset)
      ⟨rest, offset + 4, 1⟩ :=
  .cons rfl (.cons rfl (.cons rfl (.cons rfl (.nil _))))

/-- The phrase of `0+0*` in front of a unary phrase. -/
def Phrase.behindZeros (offset : Nat) (u : Phrase) : Phrase :=
  .binary (.number (characterAt .number '0' offset)) .add
    (.binary (.number (characterAt .number '0' (offset + 2))) .multiply u)

theorem Phrase.levels_behindZeros (offset : Nat) (u : Phrase) :
    (u.behindZeros offset).levels = u.levels + 2 := by
  simp only [behindZeros, levels]
  omega

theorem Phrase.need_behindZeros (offset : Nat) (u : Phrase) :
    (u.behindZeros offset).expr.need = u.expr.need + 2 := by
  simp only [behindZeros, expr, Expr.need]
  omega

theorem Derives.behindZeros {us : List Lexeme} {u : Phrase} (offset : Nat)
    (hu : Derives .unary us u) :
    Derives (.chain .sum) (zerosBefore offset ++ us) (u.behindZeros offset) := by
  have hproduct : Derives (.chain .product)
      ([characterAt .number '0' (offset + 2)] ++ characterAt .star '*' (offset + 3) :: us)
      (.binary (.number (characterAt .number '0' (offset + 2))) .multiply u) :=
    .pair .multiply (.number rfl) rfl hu
  exact Derives.pair .add (.single .product (.number rfl)) rfl hproduct

/-- **Nested zeros are a sentence that needs all that its levels allow.** -/
theorem passes_nestedZeros (n offset : Nat) {rest : List Char}
    (hrest : rest = [] ∨ ∃ more, rest = ')' :: more) :
    ∃ ls s offset', (Cursor.mk (nestedZeros n ++ rest) offset 1).Passes ls ⟨rest, offset', 1⟩ ∧
      Derives (.chain .sum) ls s ∧ TakesNested n s := by
  induction n generalizing offset rest with
  | zero =>
      have hlast : (Cursor.mk ('0' :: rest) (offset + 4) 1).scan?
          = some (.lexeme (characterAt .number '0' (offset + 4)), ⟨rest, offset + 5, 1⟩) := by
        rcases hrest with rfl | ⟨more, rfl⟩ <;> rfl
      refine ⟨_, _, offset + 5, (passes_zerosBefore offset ('0' :: rest)).append
        (.cons hlast (.nil _)), .behindZeros offset (.number rfl), rfl, rfl, ?_⟩
      intro v hv
      rcases hv with _ | ⟨_, hv⟩
      · rfl
      rcases hv with _ | ⟨_, hv⟩
      · rfl
      exact List.mem_singleton.1 hv
  | succ n ih =>
      obtain ⟨ls, s, offset', hpasses, hs, htakes⟩ :=
        @ih (offset + 5) (')' :: rest) (Or.inr ⟨rest, rfl⟩)
      have hgroup : (Cursor.mk ('(' :: (nestedZeros n ++ ')' :: rest)) (offset + 4) 1).Passes
          (characterAt .leftParen '(' (offset + 4) :: (ls ++ [characterAt .rightParen ')' offset']))
          ⟨rest, offset' + 1, 1⟩ :=
        .cons rfl (hpasses.append (.cons rfl (.nil _)))
      have hpassesall := (passes_zerosBefore offset _).append hgroup
      have hopening : (characterAt .leftParen '(' (offset + 4)).kind = .leftParen := rfl
      have hclose : (characterAt .rightParen ')' offset').kind = .rightParen := rfl
      refine ⟨_, _, offset' + 1, ?_, .behindZeros offset (.group hopening hs hclose), ?_, ?_, ?_⟩
      · simpa [nestedZeros] using hpassesall
      · rw [Phrase.levels_behindZeros, Phrase.levels, htakes.levels]
        omega
      · rw [Phrase.need_behindZeros, Phrase.expr, htakes.need]
        omega
      · intro v hv
        rcases hv with _ | ⟨_, hv⟩
        · rfl
        rcases hv with _ | ⟨_, hv⟩
        · rfl
        exact htakes.constants v hv

/-- The program of nested zeros. -/
def nestedText (n : Nat) : String := String.ofList (nestedZeros n)

theorem isSentence_nestedText (n : Nat) : ∃ s, IsSentence (nestedText n) s ∧ TakesNested n s := by
  obtain ⟨ls, s, offset', hpasses, hs, htakes⟩ := passes_nestedZeros n 0 (Or.inl rfl)
  refine ⟨s, ⟨ls, ?_, hs⟩, htakes⟩
  have hend : (Cursor.mk [] offset' 1).scan? = none := rfl
  have hscan : tokensOf (nestedText n)
      = (Cursor.mk [] offset' 1).scanInto ((ls.map Token.lexeme).reverse ++ []) := by
    rw [tokensOf, nestedText, String.toList_ofList, Cursor.start, ← List.append_nil (nestedZeros n)]
    exact hpasses []
  rw [hscan, List.append_nil, Cursor.scanInto]
  split
  · exact List.reverse_reverse _
  · rename_i token next hsome
    rw [hend] at hsome
    cases hsome

/-- **The compiler accepts programs that overflow the stack.** Nested zeros compile up to 512
levels, and from 384 levels on they need more values than the stack holds. -/
theorem nestedText_overflows {n : Nat} (hlow : 127 ≤ n) (hhigh : n ≤ 169) (stack : Stack) :
    ∃ chunk line, compile (nestedText n) = .ok chunk ∧
      (chunk.run stack).result = .error ⟨some line, .stackOverflow⟩ := by
  obtain ⟨s, hs, htakes⟩ := isSentence_nestedText n
  have hlevels : s.levels ≤ maxNesting := by
    show s.levels ≤ 512
    have h := htakes.levels
    omega
  have hover : stackCapacity < s.expr.need := by
    show 256 < s.expr.need
    have h := htakes.need
    omega
  have hsmall : (distinctBits s.expr.constants).length ≤ 256 := by
    have hone := @length_distinctBits_le s.expr.constants [literalValue (String.ofList ['0'])]
      fun v hv => List.mem_singleton.2 (htakes.constants v hv)
    exact Nat.le_trans hone (by decide)
  obtain ⟨literal, after, -, hrun⟩ :=
    s.run_program_overflow hsmall (tokensOf (nestedText n)).last.line stack hover
  exact ⟨_, literal.line, compile_eq_ok_iff.2 ⟨s, hs, hlevels, hsmall, rfl⟩, by rw [hrun]⟩

end LoxArith
