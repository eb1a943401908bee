import LoxArith.Proofs.Execution
import LoxArith.Proofs.Number.Display
import LoxArith.Proofs.Token.Spacing

set_option autoImplicit false

/-! # Texts that are one number

The simplest texts are a number and a negated number. They are cut into one lexeme or two
(`tokensOf_numeral`), whatever the length of the number, they always compile (`compile_numeral`),
and their value is that of the number, negated if there is a sign (`run_numeral`).
-/

namespace LoxArith

variable {word : List Char}

/-! ## Cutting -/

/-- A number is made of digits and a point. -/
theorem IsNumber.digit_or_point (h : IsNumber word) {c : Char} (hc : c ∈ word) :
    IsDigit c ∨ c = '.' := by
  cases h with
  | integer h => exact Or.inl (h.2 c hc)
  | decimal h h' =>
      rcases List.mem_append.1 hc with hc | hc
      · exact Or.inl (h.2 c hc)
      · rcases List.mem_cons.1 hc with rfl | hc
        · exact Or.inr rfl
        · exact Or.inl (h'.2 c hc)

theorem IsNumber.not_startsTrivia (h : IsNumber word) : ¬ StartsTrivia word := by
  rintro (⟨c, rest, rfl, hc⟩ | ⟨rest, rfl⟩)
  · have hdigit := h.first
    rcases hc with rfl | rfl | rfl | rfl <;> exact absurd hdigit (by decide)
  · exact absurd h.first (by decide)

/-- A number that is the whole text is its longest lexeme. -/
theorem IsNumber.cuts (h : IsNumber word) : Cuts word [.gap [], .lexeme .number word, .gap []] := by
  have hlongest : IsLongest word word .number :=
    ⟨List.prefix_refl _, .number h, fun _ _ hother _ => hother.length_le⟩
  have htake := @Cuts.take [] [] (.lexeme .number word) [.gap []] .nil
  rw [Stretch.chars, List.append_nil] at htake
  exact htake h.not_startsTrivia (.lexeme hlongest) (.finish .nil)

/-- A sign in front of a text is a lexeme of its own. -/
theorem Cuts.minus {text : List Char} {ss : List Stretch} (h : Cuts text ss) :
    Cuts ('-' :: text) (.gap [] :: .lexeme .minus ['-'] :: ss) := by
  have hstop : ¬ StartsTrivia ('-' :: text) := by
    rintro (⟨c, rest, heq, hc⟩ | ⟨rest, heq⟩)
    · obtain rfl := (List.cons.inj heq).1
      exact absurd hc (by decide)
    · exact absurd (List.cons.inj heq).1 (by decide)
  have hlongest : IsLongest ('-' :: text) ['-'] .minus := by
    refine ⟨⟨text, rfl⟩, .symbol (by decide), fun other otherKind hstarts hother => ?_⟩
    obtain ⟨c, more, rfl⟩ := List.exists_cons_of_ne_nil hother.ne_nil
    obtain ⟨rfl, -⟩ := List.cons_prefix_cons.1 hstarts
    -- a lexeme that starts with this sign is a symbol, and no longer one does
    have hsymbol := hother.of_sign (by decide) (by decide) (by decide)
    rcases symbols_more hsymbol with rfl | ⟨-, hsign⟩
    · exact Nat.le_refl _
    · exact absurd hsign (by decide)
  exact @Cuts.take [] text (.lexeme .minus ['-']) ss .nil hstop (.lexeme hlongest) h

/-! ## Tokens -/

theorem lineBehind_of_notMem {chars : List Char} (h : '\n' ∉ chars) : lineBehind chars = 1 := by
  rw [lineBehind, lineFeeds_ofList, List.count_eq_zero.2 h]

/-- A text without a line feed ends on the first line. -/
theorem Cuts.tokensOf_eq {chars : List Char} {ss : List Stretch} (h : Cuts chars ss)
    (hfeed : '\n' ∉ chars) :
    tokensOf (String.ofList chars) = ⟨tokensBehind [] ss,
      ⟨.endOfText, "", (String.ofList chars).utf8ByteSize, 1⟩⟩ := by
  refine ((tokenizes_iff _ _).1 ⟨ss, ?_, rfl, ?_⟩).symm
  · rw [String.toList_ofList]
    exact h
  · rw [String.toList_ofList, lineBehind_of_notMem hfeed]

/-- The lexemes of a number, with a sign in front of it or not. -/
def numeralLexemes (negative : Bool) (word : List Char) : List Lexeme :=
  if negative then [⟨.minus, "-", 0, 1⟩, ⟨.number, String.ofList word, 1, 1⟩]
  else [⟨.number, String.ofList word, 0, 1⟩]

theorem tokensOf_numeral (negative : Bool) (h : IsNumber word) :
    tokensOf (String.ofList (signOf negative ++ word))
      = ⟨(numeralLexemes negative word).map Token.lexeme,
        ⟨.endOfText, "", (String.ofList (signOf negative ++ word)).utf8ByteSize, 1⟩⟩ := by
  have hfeed : '\n' ∉ word := fun hc => absurd (h.digit_or_point hc) (by decide)
  cases negative with
  | false =>
      have htokens : tokensBehind [] [.gap [], .lexeme .number word, .gap []]
          = [.lexeme ⟨.number, String.ofList word, 0, lineBehind word⟩] := rfl
      rw [lineBehind_of_notMem hfeed] at htokens
      exact (h.cuts.tokensOf_eq hfeed).trans (congrArg (Tokens.mk · _) htokens)
  | true =>
      have hsign : '\n' ∉ ['-'] := by decide
      have hfeed' : '\n' ∉ '-' :: word := by
        rw [List.mem_cons, not_or]
        exact ⟨by decide, hfeed⟩
      have htokens : tokensBehind []
            [.gap [], .lexeme .minus ['-'], .gap [], .lexeme .number word, .gap []]
          = [.lexeme ⟨.minus, "-", 0, lineBehind ['-']⟩,
            .lexeme ⟨.number, String.ofList word, 1, lineBehind ('-' :: word)⟩] := rfl
      rw [lineBehind_of_notMem hsign, lineBehind_of_notMem hfeed'] at htokens
      exact (h.cuts.minus.tokensOf_eq hfeed').trans (congrArg (Tokens.mk · _) htokens)

/-! ## Programs -/

/-- The phrase of a number, with a sign in front of it or not. -/
def Phrase.numeral (negative : Bool) (word : List Char) : Phrase :=
  if negative then .negate (.number ⟨.number, String.ofList word, 1, 1⟩)
  else .number ⟨.number, String.ofList word, 0, 1⟩

theorem isSentence_numeral (negative : Bool) (h : IsNumber word) :
    IsSentence (String.ofList (signOf negative ++ word)) (.numeral negative word) := by
  refine ⟨numeralLexemes negative word, by rw [tokensOf_numeral negative h], ?_⟩
  cases negative with
  | false => exact .single .sum (.single .product (.number rfl))
  | true => exact .single .sum (.single .product (.negate rfl (.number rfl)))

/-- There is one constant. -/
theorem Phrase.constants_numeral (negative : Bool) (word : List Char) :
    (Phrase.numeral negative word).expr.constants = [literalValue (String.ofList word)] := by
  cases negative <;> rfl

theorem Phrase.length_distinctBits_numeral (negative : Bool) (word : List Char) :
    (distinctBits (Phrase.numeral negative word).expr.constants).length ≤ 256 := by
  rw [constants_numeral]
  have hone := @length_distinctBits_le [literalValue (String.ofList word)] _ fun _ hv => hv
  exact Nat.le_trans hone (show 1 ≤ 256 by decide)

/-- A number compiles, with a sign in front of it or not. -/
theorem compile_numeral (negative : Bool) (h : IsNumber word) :
    compile (String.ofList (signOf negative ++ word))
      = .ok ((Phrase.numeral negative word).program 1) := by
  refine compile_eq_ok_iff.2 ⟨_, isSentence_numeral negative h, ?_,
    Phrase.length_distinctBits_numeral negative word, ?_⟩
  · cases negative with
    | false => exact show 1 ≤ maxNesting by decide
    | true => exact show 2 ≤ maxNesting by decide
  · rw [tokensOf_numeral negative h]

theorem run_numeral (negative : Bool) (word : List Char) (s : Stack) :
    (((Phrase.numeral negative word).program 1).run s).result
      = .ok (if negative then -literalValue (String.ofList word)
          else literalValue (String.ofList word)) := by
  have hroom : (Phrase.numeral negative word).expr.need ≤ stackCapacity := by
    cases negative <;> exact show 1 ≤ stackCapacity by decide
  obtain ⟨after, -, hrun⟩ := (Phrase.numeral negative word).run_program
    (Phrase.length_distinctBits_numeral negative word) 1 s hroom
  rw [hrun]
  cases negative <;> rfl

/-- **Interpreting a number gives its value**, negated if there is a sign. -/
theorem interpret_numeral (negative : Bool) (h : IsNumber word) (s : Stack) :
    (interpret (String.ofList (signOf negative ++ word)) s).result
      = .ok (if negative then -literalValue (String.ofList word)
          else literalValue (String.ofList word)) := by
  simp only [interpret, compile_numeral negative h, run_numeral negative word s]
  rfl

end LoxArith
