import LoxArith.Json.Token
import LoxArith.Json.Write

set_option autoImplicit false

/-! # Scalars read as they are written

A number that is well formed is read back from its text, if what follows does not go on with it
(`takeNumber?_chars`). A string is read back from between its quotes, whatever characters it has
(`takeString?_quoted`): each character becomes one piece, and the pieces of escaped characters join
to the characters themselves, because none of them is half of a pair.
-/

namespace LoxArith

/-! ## Digits -/

/-- Decimal digits and nothing else. -/
def AllDigits (chars : List Char) : Prop := ∀ c ∈ chars, isDecimalDigit c = true

/-- What may follow a number: nothing that would go on with it. -/
def EndsNumber (rest : List Char) : Prop :=
  ∀ c ∈ rest.head?, isDecimalDigit c = false ∧ c ≠ '.' ∧ c ≠ 'e' ∧ c ≠ 'E'

theorem endsNumber_cons {c : Char} {rest : List Char}
    (h : isDecimalDigit c = false ∧ c ≠ '.' ∧ c ≠ 'e' ∧ c ≠ 'E') : EndsNumber (c :: rest) := by
  intro c' hc'
  obtain rfl := Option.some.inj hc'
  exact h

namespace Json

theorem takeDigits?_append {digits rest : List Char} (hne : digits ≠ [])
    (hdigits : AllDigits digits) (hrest : ∀ c ∈ rest.head?, isDecimalDigit c = false) :
    takeDigits? (digits ++ rest) = some (digits, rest) := by
  have hstop : rest.takeWhile isDecimalDigit = [] ∧ rest.dropWhile isDecimalDigit = rest := by
    cases rest with
    | nil => exact ⟨rfl, rfl⟩
    | cons c rest =>
        have hc : ¬isDecimalDigit c = true := ne_true_of_eq_false (hrest c rfl)
        exact ⟨List.takeWhile_cons_of_neg hc, List.dropWhile_cons_of_neg hc⟩
  unfold takeDigits?
  dsimp only
  rw [List.takeWhile_append_of_pos hdigits, List.dropWhile_append_of_pos hdigits, hstop.1, hstop.2,
    List.append_nil]
  exact if_neg (by simpa using hne)

end Json

/-! ## Numbers -/

/-- A number that the grammar allows: digits on both sides of the point, no zero in front of other
digits, and digits in the exponent. -/
structure NumberText.WellFormed (n : NumberText) : Prop where
  whole_ne : n.whole ≠ []
  whole : AllDigits n.whole
  leading : n.whole.head? = some '0' → n.whole.length = 1
  fraction : AllDigits n.fraction
  exponent_ne : ∀ e ∈ n.exponent, e.2 ≠ []
  exponent : ∀ e ∈ n.exponent, AllDigits e.2

namespace NumberText

/-- The point and the digits behind it, if there are any. -/
def fractionChars (n : NumberText) : List Char :=
  if n.fraction.isEmpty then [] else '.' :: n.fraction

/-- The exponent with its sign, if there is one. -/
def exponentChars (n : NumberText) : List Char :=
  match n.exponent with
  | none => []
  | some (negative, digits) => 'e' :: (if negative then '-' else '+') :: digits

theorem chars_eq (n : NumberText) :
    n.chars = (if n.negative then ['-'] else []) ++
      (n.whole ++ (n.fractionChars ++ n.exponentChars)) := by
  show ((if n.negative then ['-'] else []) ++ n.whole ++ n.fractionChars) ++ n.exponentChars = _
  simp only [List.append_assoc]

theorem WellFormed.exists_digit {n : NumberText} (h : n.WellFormed) :
    ∃ digit more, n.whole = digit :: more ∧ isDecimalDigit digit = true := by
  obtain ⟨digit, more, hwhole⟩ := List.exists_cons_of_ne_nil h.whole_ne
  exact ⟨digit, more, hwhole, h.whole digit (hwhole ▸ List.mem_cons_self)⟩

variable {n : NumberText} {rest : List Char}

theorem endsNumber_exponentChars (hrest : EndsNumber rest) :
    ∀ c ∈ (n.exponentChars ++ rest).head?, isDecimalDigit c = false ∧ c ≠ '.' := by
  unfold exponentChars
  split
  · exact fun c hc => ⟨(hrest c hc).1, (hrest c hc).2.1⟩
  · intro c hc
    obtain rfl := Option.some.inj hc
    decide

theorem takeExponent?_exponentChars (h : n.WellFormed) (hrest : EndsNumber rest) :
    Json.takeExponent? (n.exponentChars ++ rest) = some (n.exponent, rest) := by
  unfold exponentChars
  cases hexponent : n.exponent with
  | none =>
      show Json.takeExponent? rest = some (none, rest)
      unfold Json.takeExponent?
      split
      · exact absurd rfl (hrest _ rfl).2.2.1
      · exact absurd rfl (hrest _ rfl).2.2.2
      · rfl
  | some exponent =>
      obtain ⟨negative, digits⟩ := exponent
      have hdigits : Json.takeDigits? (digits ++ rest) = some (digits, rest) :=
        Json.takeDigits?_append (h.exponent_ne _ hexponent) (h.exponent _ hexponent)
          fun c hc => (hrest c hc).1
      cases negative
      all_goals
        show ((Json.takeDigits? (digits ++ rest)).map _).map _ = _
        rw [hdigits]
        rfl

theorem takeFraction?_fractionChars (h : n.WellFormed)
    (hrest : ∀ c ∈ rest.head?, isDecimalDigit c = false ∧ c ≠ '.') :
    Json.takeFraction? (n.fractionChars ++ rest) = some (n.fraction, rest) := by
  unfold fractionChars
  split
  · rename_i hempty
    rw [List.isEmpty_iff.1 hempty, List.nil_append]
    unfold Json.takeFraction?
    split
    · exact absurd rfl (hrest _ rfl).2
    · rfl
  · rename_i hne
    exact Json.takeDigits?_append (fun h => hne (List.isEmpty_iff.2 h)) h.fraction
      fun c hc => (hrest c hc).1

theorem endsDigits_fractionChars
    (hrest : ∀ c ∈ rest.head?, isDecimalDigit c = false ∧ c ≠ '.') :
    ∀ c ∈ (n.fractionChars ++ rest).head?, isDecimalDigit c = false := by
  unfold fractionChars
  split
  · exact fun c hc => (hrest c hc).1
  · intro c hc
    obtain rfl := Option.some.inj hc
    decide

theorem takeUnsigned?_chars (h : n.WellFormed) (hrest : EndsNumber rest) :
    Json.takeUnsigned? n.negative (n.whole ++ (n.fractionChars ++ (n.exponentChars ++ rest)))
      = some (n, rest) := by
  have hexponent := endsNumber_exponentChars (n := n) hrest
  have hleading : ¬(n.whole.head? == some '0' && n.whole.length != 1) = true := by
    intro hzero
    rw [Bool.and_eq_true, beq_iff_eq, bne_iff_ne] at hzero
    exact hzero.2 (h.leading hzero.1)
  unfold Json.takeUnsigned?
  rw [Json.takeDigits?_append h.whole_ne h.whole (endsDigits_fractionChars hexponent)]
  dsimp only [Option.bind_eq_bind, Option.bind_some]
  rw [if_neg hleading, takeFraction?_fractionChars h hexponent]
  dsimp only [Option.bind_some]
  rw [takeExponent?_exponentChars h hrest]
  rfl

/-- **A number is read as it is written.** -/
theorem takeNumber?_chars (h : n.WellFormed) (hrest : EndsNumber rest) :
    Json.takeNumber? (n.chars ++ rest) = some (n, rest) := by
  have hunsigned := takeUnsigned?_chars h hrest
  rw [chars_eq, List.append_assoc, List.append_assoc, List.append_assoc]
  cases hsign : n.negative with
  | true =>
      rw [hsign] at hunsigned
      exact hunsigned
  | false =>
      rw [hsign] at hunsigned
      rw [if_neg Bool.false_ne_true, List.nil_append]
      unfold Json.takeNumber?
      split
      · rename_i heq
        obtain ⟨digit, more, hwhole, hdigit⟩ := h.exists_digit
        rw [hwhole] at heq
        obtain rfl : digit = '-' := List.head_eq_of_cons_eq heq
        exact absurd hdigit (by decide)
      · exact hunsigned

end NumberText

/-! ## Strings -/

namespace Json

theorem hexValue?_digitChar : ∀ d < 16, hexValue? (Nat.digitChar d) = some d := by
  decide

/-- An escaped character below the space is the unit of its code. -/
theorem unitValue?_digitChar {code : Nat} (h : code < 0x20) :
    unitValue? '0' '0' (Nat.digitChar (code / 16)) (Nat.digitChar (code % 16)) = some code := by
  have hzero : hexValue? '0' = some 0 := rfl
  have hvalue : ((0 * 16 + 0) * 16 + code / 16) * 16 + code % 16 = code := by omega
  unfold unitValue?
  rw [hzero, hexValue?_digitChar (code / 16) (by omega), hexValue?_digitChar (code % 16) (by omega)]
  exact congrArg some hvalue

/-- The piece that a written character is read as. -/
structure PieceOf (c : Char) (piece : Piece) : Prop where
  takes : ∀ collected rest,
    takePieces? collected (escape c ++ rest) = takePieces? (piece :: collected) rest
  joins : ∀ collected pieces,
    joinPieces? collected (piece :: pieces) = joinPieces? (c :: collected) pieces

/-- A unit that is no half of a pair is a character of its own. -/
theorem joinPieces?_unit {unit : Nat} (hhigh : isHighSurrogate unit = false)
    (hlow : isLowSurrogate unit = false) (collected : List Char) (pieces : List Piece) :
    joinPieces? collected (.unit unit :: pieces)
      = joinPieces? (Char.ofNat unit :: collected) pieces := by
  have hself : ¬(isHighSurrogate unit || isLowSurrogate unit) = true := by
    rw [hhigh, hlow]
    exact Bool.false_ne_true
  rcases pieces with _ | ⟨_ | next, pieces⟩
  · exact if_neg hself
  · exact if_neg hself
  · exact (if_neg (ne_true_of_eq_false hhigh)).trans (if_neg (ne_true_of_eq_false hlow))

theorem pieceOf_unit {c : Char} (hescape : escape c =
      ['\\', 'u', '0', '0', Nat.digitChar (c.toNat / 16), Nat.digitChar (c.toNat % 16)])
    (hcode : c.toNat < 0x20) : PieceOf c (.unit c.toNat) := by
  have hhigh : isHighSurrogate c.toNat = false := by
    rw [isHighSurrogate, Bool.and_eq_false_iff]
    exact Or.inl (decide_eq_false (by omega))
  have hlow : isLowSurrogate c.toNat = false := by
    rw [isLowSurrogate, Bool.and_eq_false_iff]
    exact Or.inl (decide_eq_false (by omega))
  refine ⟨?_, ?_⟩
  · intro collected rest
    rw [hescape]
    show takePieces? collected ('\\' :: 'u' :: '0' :: '0' :: _ :: _ :: rest) = _
    rw [takePieces?, unitValue?_digitChar hcode]
  · intro collected pieces
    rw [joinPieces?_unit hhigh hlow, Char.ofNat_toNat]

theorem pieceOf_escaped {c letter : Char} (hescape : escape c = ['\\', letter])
    (hletter : unescape? letter = some c) : PieceOf c (.char c) := by
  have hne : letter ≠ 'u' := by
    rintro rfl
    cases hletter
  refine ⟨?_, fun _ _ => rfl⟩
  intro collected rest
  rw [hescape]
  show takePieces? collected ('\\' :: letter :: rest) = _
  rw [takePieces?]
  · rw [hletter]
  · intro _ _ _ _ _ heq
    exact absurd heq hne

theorem pieceOf_plain {c : Char} (hescape : escape c = [c]) (hquote : c ≠ '"')
    (hslash : c ≠ '\\') (hcode : ¬c.toNat < 0x20) : PieceOf c (.char c) := by
  refine ⟨?_, fun _ _ => rfl⟩
  intro collected rest
  rw [hescape]
  show takePieces? collected (c :: rest) = _
  rw [takePieces?]
  · have hwritten : ¬(decide (c.toNat < 0x20) || c == '\\') = true := by
      simp [hcode, hslash]
    exact if_neg hwritten
  all_goals simp_all

/-- A character is written as an escape with a letter or with its code, or as it is. -/
theorem exists_pieceOf (c : Char) : ∃ piece, PieceOf c piece := by
  generalize hescape : escape c = text
  have htext := hescape
  unfold escape at htext
  split at htext
  case h_8 _ hquote hslash _ _ _ _ _ =>
    split at htext
    · rename_i hcode
      exact ⟨_, pieceOf_unit (hescape.trans htext.symm) hcode⟩
    · rename_i hcode
      exact ⟨_, pieceOf_plain (hescape.trans htext.symm) hquote hslash hcode⟩
  all_goals exact ⟨_, pieceOf_escaped rfl rfl⟩

/-- The characters of a string become pieces that join to them. -/
theorem exists_pieces (text : List Char) : ∃ pieces,
    (∀ collected rest, takePieces? collected (text.flatMap escape ++ '"' :: rest)
      = some (collected.reverse ++ pieces, rest)) ∧
    ∀ collected, joinPieces? collected pieces = some (collected.reverse ++ text) := by
  induction text with
  | nil =>
      refine ⟨[], ?_, ?_⟩
      · intro collected rest
        rw [List.append_nil]
        rfl
      · intro collected
        rw [List.append_nil]
        rfl
  | cons c text ih =>
      obtain ⟨pieces, htakes, hjoins⟩ := ih
      obtain ⟨piece, hpiece⟩ := exists_pieceOf c
      refine ⟨piece :: pieces, ?_, ?_⟩
      · intro collected rest
        rw [List.flatMap_cons, List.append_assoc, hpiece.takes, htakes, List.reverse_cons,
          List.append_assoc]
        rfl
      · intro collected
        rw [hpiece.joins, hjoins, List.reverse_cons, List.append_assoc]
        rfl

/-- **A string is read as it is written**, also one that has no text. -/
theorem takeString?_quoted (text : Option String) (rest : List Char) :
    ∃ behind, quoted text ++ rest = '"' :: behind ∧ takeString? behind = some (text, rest) := by
  cases text with
  | none => exact ⟨_, rfl, rfl⟩
  | some text =>
      obtain ⟨pieces, htakes, hjoins⟩ := exists_pieces text.toList
      refine ⟨text.toList.flatMap escape ++ '"' :: rest, ?_, ?_⟩
      · rw [quoted, List.cons_append, List.cons_append, List.append_assoc]
        rfl
      · rw [takeString?, htakes]
        show some ((joinPieces? [] pieces).map String.ofList, rest) = _
        rw [hjoins]
        show some (some (String.ofList text.toList), rest) = _
        rw [String.ofList_toList]

/-! ## Tokens -/

theorem takeToken?_quoted (text : Option String) (rest : List Char) :
    ∃ behind, quoted text ++ rest = '"' :: behind ∧
      takeToken? '"' behind = some (.scalar (.string text), rest) := by
  obtain ⟨behind, hquoted, hstring⟩ := takeString?_quoted text rest
  refine ⟨behind, hquoted, ?_⟩
  show (takeString? behind).map _ = _
  rw [hstring]
  rfl

/-- A character that is neither a mark nor the first of a word begins a number. -/
theorem takeToken?_number {first : Char} (hfirst : first = '-' ∨ isDecimalDigit first = true)
    (behind : List Char) :
    takeToken? first behind
      = (takeNumber? (first :: behind)).map fun (n, rest) => (.scalar (.number n), rest) := by
  have hno : ∀ {c : Char}, first = c → ¬(c = '-' ∨ isDecimalDigit c = true) → False := by
    rintro c rfl hc
    exact hc hfirst
  unfold takeToken?
  split
  case h_8 =>
    split
    case h_4 => rfl
    all_goals
      rename_i heq
      exact (hno (List.head_eq_of_cons_eq heq) (by decide)).elim
  all_goals exact absurd hfirst (by decide)

theorem isSpace_of_first {first : Char} (hfirst : first = '-' ∨ isDecimalDigit first = true) :
    isSpace first = false := by
  refine Bool.eq_false_iff.2 fun hspace => ?_
  simp only [isSpace, Bool.or_eq_true, beq_iff_eq] at hspace
  rcases hspace with ((rfl | rfl) | rfl) | rfl
  all_goals exact absurd hfirst (by decide)

theorem takeToken?_chars {n : NumberText} (h : n.WellFormed) {rest : List Char}
    (hrest : EndsNumber rest) :
    ∃ first behind, n.chars ++ rest = first :: behind ∧ isSpace first = false ∧
      takeToken? first behind = some (.scalar (.number n), rest) := by
  have hfirst : ∃ first behind, n.chars ++ rest = first :: behind ∧
      (first = '-' ∨ isDecimalDigit first = true) := by
    obtain ⟨digit, more, hwhole, hdigit⟩ := h.exists_digit
    rw [NumberText.chars_eq, hwhole]
    cases n.negative with
    | true => exact ⟨_, _, rfl, Or.inl rfl⟩
    | false => exact ⟨_, _, rfl, Or.inr hdigit⟩
  obtain ⟨first, behind, hchars, hfirst⟩ := hfirst
  refine ⟨first, behind, hchars, isSpace_of_first hfirst, ?_⟩
  rw [takeToken?_number hfirst, ← hchars, NumberText.takeNumber?_chars h hrest]
  rfl

end Json

end LoxArith
