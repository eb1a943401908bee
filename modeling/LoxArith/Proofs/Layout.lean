import LoxArith.Proofs.Machine.Lockstep
import LoxArith.Proofs.Parser.Alike

set_option autoImplicit false

/-! # The layout of a text

The layout of a text has no influence on what it computes. Where a lexeme starts or ends,
blanks and closed comments can be inserted, the first of them a blank (`insert_spacing`): the
text has the same tokens, compiles to the same code with the same constants or is refused with
the same complaint, and gives the same value or the same kind of error. Only lines change.
-/

namespace LoxArith

/-- Answers that differ at most in lines. -/
inductive SameAnswer : Except Failure Float → Except Failure Float → Prop
  | value (v : Float) : SameAnswer (.ok v) (.ok v)
  | runtime (line line' : Option Nat) (f : RuntimeFault) :
      SameAnswer (.error (.runtime ⟨line, f⟩)) (.error (.runtime ⟨line', f⟩))
  | compile (line line' : Nat) (location : Location) (message : String) :
      SameAnswer (.error (.compile ⟨[⟨line, location, message⟩]⟩))
        (.error (.compile ⟨[⟨line', location, message⟩]⟩))

/-- Both texts compile, to the same code and the same constants, or both are refused with the
same complaint. -/
inductive SameProgram : Except CompileError Chunk → Except CompileError Chunk → Prop
  | accepted {c c' : Chunk} (hcode : c.code = c'.code) (hconstants : c.constants = c'.constants) :
      SameProgram (.ok c) (.ok c')
  | refused (line line' : Nat) (location : Location) (message : String) :
      SameProgram (.error ⟨[⟨line, location, message⟩]⟩) (.error ⟨[⟨line', location, message⟩]⟩)

/-- Tokens that say the same make the same program. -/
theorem sameProgram_of_content {tokens tokens' : Tokens}
    (hitems : tokens.items.map Token.content = tokens'.items.map Token.content)
    (hlast : tokens.last.content = tokens'.last.content) :
    SameProgram (compileTokens tokens) (compileTokens tokens') := by
  have halike := Parser.Alike.parseTokens hitems hlast
  have hcomplaint := halike.complaint
  unfold compileTokens
  dsimp only
  cases hp : (parseTokens tokens).complaint with
  | none =>
      rw [hp, Option.map_none, eq_comm, Option.map_eq_none_iff] at hcomplaint
      rw [hcomplaint]
      exact .accepted halike.code halike.constants
  | some d =>
      rw [hp, Option.map_some, eq_comm] at hcomplaint
      obtain ⟨d', hq, hcontent⟩ := Option.map_eq_some_iff.1 hcomplaint
      rw [hq]
      obtain ⟨line, location, message⟩ := d
      obtain ⟨line', location', message'⟩ := d'
      cases hcontent
      exact .refused line line' location message

/-- The same program gives the same answer, whatever the stacks were used for before. -/
theorem SameProgram.answer {source source' : String}
    (h : SameProgram (compile source) (compile source')) (stack stack' : Stack) :
    SameAnswer (interpret source stack).result (interpret source' stack').result := by
  unfold interpret
  generalize compile source = compiled at *
  generalize compile source' = compiled' at *
  cases h with
  | refused line line' location message => exact .compile line line' location message
  | @accepted c c' hcode hconstants =>
      obtain ⟨-, hresult, -⟩ :=
        (Chunk.matches_of_eq hcode hconstants).run respects_eq stack stack'
      dsimp only
      generalize (c.run stack).result = result at *
      generalize (c'.run stack').result = result' at *
      cases hresult with
      | value heq =>
          subst heq
          exact .value _
      | fault offset f => exact .runtime _ _ f

/-- **Layout is immaterial.** Take a text without an open quote, and a place in it where a
lexeme starts or ends, the empty lexeme at the end of the text included. What is inserted there
consists of blanks and closed comments and begins with a blank. Then both texts have the same
kinds and texts of lexemes with the same faults between them. Both compile to the same code with
the same constants, or both are refused at the same location with the same message, and they give
the same value or the same kind of error. -/
theorem insert_spacing {before after inserted : String} {l : Lexeme}
    (hl : l ∈ (tokensOf (before ++ after)).lexemes ++ [(tokensOf (before ++ after)).last])
    (hplace : before.utf8ByteSize = l.start ∨ before.utf8ByteSize = l.start + l.length)
    (hclosed : ∀ line, .fault .unterminatedString line ∉ (tokensOf (before ++ after)).items)
    (hinserted : IsSpacing inserted.toList) :
    (tokensOf (before ++ inserted ++ after)).items.map Token.content
        = (tokensOf (before ++ after)).items.map Token.content ∧
      (tokensOf (before ++ inserted ++ after)).last.content
        = (tokensOf (before ++ after)).last.content ∧
      SameProgram (compile (before ++ after)) (compile (before ++ inserted ++ after)) ∧
      ∀ stack stack', SameAnswer (interpret (before ++ after) stack).result
        (interpret (before ++ inserted ++ after) stack').result := by
  obtain ⟨hitems, hlast⟩ := content_tokensOf_insert hl hplace hclosed hinserted
  have hprogram : SameProgram (compile (before ++ after)) (compile (before ++ inserted ++ after)) :=
    sameProgram_of_content hitems.symm hlast.symm
  exact ⟨hitems, hlast, hprogram, hprogram.answer⟩

/-- A comment may stand behind a slash if there is a blank in front of it. -/
theorem insert_spacing_slash :
    (⟨.slash, "/", 1, 1⟩ ∈ (tokensOf ("8/" ++ "2")).lexemes ++ [(tokensOf ("8/" ++ "2")).last]) ∧
      (∀ line, .fault .unterminatedString line ∉ (tokensOf ("8/" ++ "2")).items) ∧
      IsSpacing " //\n".toList ∧
      ∀ stack stack', SameAnswer (interpret ("8/" ++ "2") stack).result
        (interpret ("8/" ++ " //\n" ++ "2") stack').result := by
  have hl : (⟨.slash, "/", 1, 1⟩ : Lexeme)
      ∈ (tokensOf ("8/" ++ "2")).lexemes ++ [(tokensOf ("8/" ++ "2")).last] := by
    decide +kernel
  have hitems : (tokensOf ("8/" ++ "2")).items = [.lexeme ⟨.number, "8", 0, 1⟩,
      .lexeme ⟨.slash, "/", 1, 1⟩, .lexeme ⟨.number, "2", 2, 1⟩] := by decide +kernel
  have hclosed : ∀ line, .fault .unterminatedString line ∉ (tokensOf ("8/" ++ "2")).items := by
    intro line
    rw [hitems]
    simp
  have hcomment : Filler ('/' :: '/' :: ([] ++ ['\n'])) := .comment (by simp) .nil
  have hinserted : IsSpacing " //\n".toList := ⟨' ', ['/', '/', '\n'], rfl, rfl, hcomment⟩
  exact ⟨hl, hclosed, hinserted, (insert_spacing hl (Or.inr (by decide)) hclosed hinserted).2.2.2⟩

end LoxArith
