import LoxArith.Proofs.Token.LongestMatch

set_option autoImplicit false

/-! # The lexemes of a text

No lexeme of a text has the kind of its end, and the lexeme behind all of them has it. So the
parser is at the end of the text exactly when it looks at a lexeme of that kind.
-/

namespace LoxArith

/-! ## One lexeme -/

theorem bite_ne_endOfText {first : Char} {rest : List Char} {kind : Kind}
    (h : (bite first rest).outcome = .ok kind) : kind ≠ .endOfText := by
  have htakes := (correct_bite first rest).takes
  rw [Bite.stretch, h] at htakes
  cases htakes with
  | lexeme hlongest => exact hlongest.lexeme.ne_endOfText

/-! ## All lexemes -/

/-- A step takes no lexeme that stands for the end of the text. -/
theorem Cursor.scan?_ne_endOfText {cursor next : Cursor} {l : Lexeme}
    (h : cursor.scan? = some (.lexeme l, next)) : l.kind ≠ .endOfText := by
  unfold scan? at h
  dsimp only at h
  split at h
  · cases h
  · split at h
    · rename_i kind hkind
      simp only [Option.some.injEq, Prod.mk.injEq, Token.lexeme.injEq] at h
      rw [← h.1]
      exact bite_ne_endOfText hkind
    · simp at h

theorem Cursor.scanInto_ne_endOfText (collected : List Token) (cursor : Cursor)
    (h : ∀ l, Token.lexeme l ∈ collected → l.kind ≠ .endOfText) :
    ∀ l, Token.lexeme l ∈ (cursor.scanInto collected).items → l.kind ≠ .endOfText := by
  -- tokens are collected last first, so that the new one is in front
  fun_induction Cursor.scanInto collected cursor with
  | case1 => simpa using h
  | case2 collected cursor token next hscan ih =>
      apply ih
      intro l hl
      rcases List.mem_cons.1 hl with rfl | hl
      · exact scan?_ne_endOfText hscan
      · exact h l hl

theorem Cursor.scanInto_last (collected : List Token) (cursor : Cursor) :
    (cursor.scanInto collected).last.kind = .endOfText := by
  fun_induction Cursor.scanInto collected cursor with
  | case1 => rfl
  | case2 _ _ _ _ _ ih => exact ih

/-- **No lexeme of a text stands for its end.** -/
theorem ne_endOfText_of_mem_tokensOf {source : String} {l : Lexeme}
    (h : Token.lexeme l ∈ (tokensOf source).items) : l.kind ≠ .endOfText :=
  Cursor.scanInto_ne_endOfText [] _ (by simp) l h

/-- The lexeme behind all others stands for the end of the text. -/
theorem kind_last_tokensOf (source : String) : (tokensOf source).last.kind = .endOfText :=
  Cursor.scanInto_last [] _

end LoxArith
