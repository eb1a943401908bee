import LoxArith.Json
import LoxArith.Text.Character

set_option autoImplicit false

/-! # The tokens of JSON

A JSON text is a row of brackets, commas, colons and scalars with blanks between them.
Scalars are read here: numbers and strings by their grammar, and the three words.
-/

namespace LoxArith

namespace Json

/-- A token. Strings, numbers and words are the scalars. -/
inductive Token
  | openArray
  | closeArray
  | openObject
  | closeObject
  | comma
  | colon
  | scalar (value : Json)

/-! ## Strings -/

/-- A piece of a string: a character, or a 16-bit unit given by an escape. -/
inductive Piece
  | char (c : Char)
  | unit (value : Nat)

/-- The value of a hexadecimal digit. -/
def hexValue? (c : Char) : Option Nat :=
  if '0' ≤ c && c ≤ '9' then some (c.toNat - '0'.toNat)
  else if 'a' ≤ c && c ≤ 'f' then some (c.toNat - 'a'.toNat + 10)
  else if 'A' ≤ c && c ≤ 'F' then some (c.toNat - 'A'.toNat + 10)
  else none

/-- The unit that four hexadecimal digits stand for. -/
def unitValue? (a b c d : Char) : Option Nat := do
  let a ← hexValue? a
  let b ← hexValue? b
  let c ← hexValue? c
  let d ← hexValue? d
  return ((a * 16 + b) * 16 + c) * 16 + d

/-- What a backslash and a letter stand for. -/
def unescape? : Char → Option Char
  | '"' => some '"'
  | '\\' => some '\\'
  | '/' => some '/'
  | 'b' => some '\x08'
  | 'f' => some '\x0c'
  | 'n' => some '\n'
  | 'r' => some '\r'
  | 't' => some '\t'
  | _ => none

/-- The pieces of a string up to its closing quote, collected last first, and what stands
behind the quote. Characters below the space must be escaped. -/
def takePieces? (collected : List Piece) : List Char → Option (List Piece × List Char)
  | [] => none
  | '"' :: rest => some (collected.reverse, rest)
  | '\\' :: 'u' :: a :: b :: c :: d :: rest =>
    match unitValue? a b c d with
    | some unit => takePieces? (.unit unit :: collected) rest
    | none => none
  | '\\' :: letter :: rest =>
    match unescape? letter with
    | some c => takePieces? (.char c :: collected) rest
    | none => none
  | c :: rest =>
    if c.toNat < 0x20 || c == '\\' then none else takePieces? (.char c :: collected) rest

/-- Whether a unit is the first half of a pair. -/
def isHighSurrogate (unit : Nat) : Bool := 0xd800 ≤ unit && unit < 0xdc00

/-- Whether a unit is the second half of a pair. -/
def isLowSurrogate (unit : Nat) : Bool := 0xdc00 ≤ unit && unit < 0xe000

/-- The characters of some pieces, collected last first. Two halves next to each other make
one character; a half that stands alone makes none, and the whole has no text. -/
def joinPieces? (collected : List Char) : List Piece → Option (List Char)
  | [] => some collected.reverse
  | .char c :: rest => joinPieces? (c :: collected) rest
  | .unit high :: .unit low :: rest =>
    if isHighSurrogate high then
      if isLowSurrogate low then
        let code := 0x10000 + (high - 0xd800) * 0x400 + (low - 0xdc00)
        joinPieces? (Char.ofNat code :: collected) rest
      else none
    else if isLowSurrogate high then none
    else joinPieces? (Char.ofNat high :: collected) (.unit low :: rest)
  | .unit unit :: rest =>
    if isHighSurrogate unit || isLowSurrogate unit then none
    else joinPieces? (Char.ofNat unit :: collected) rest

/-- The text of a string behind its opening quote, if it has one, and what follows. -/
def takeString? (chars : List Char) : Option (Option String × List Char) :=
  (takePieces? [] chars).map fun (pieces, rest) =>
    ((joinPieces? [] pieces).map String.ofList, rest)

/-! ## Numbers -/

/-- Digits, at least one. -/
def takeDigits? (chars : List Char) : Option (List Char × List Char) :=
  let digits := chars.takeWhile isDecimalDigit
  if digits.isEmpty then none else some (digits, chars.dropWhile isDecimalDigit)

/-- A point and digits, or nothing. -/
def takeFraction? : List Char → Option (List Char × List Char)
  | '.' :: rest => takeDigits? rest
  | rest => some ([], rest)

/-- The digits of an exponent behind its sign, which may be missing. -/
def takeSigned? : List Char → Option ((Bool × List Char) × List Char)
  | '-' :: rest => (takeDigits? rest).map fun (digits, rest) => ((true, digits), rest)
  | '+' :: rest => (takeDigits? rest).map fun (digits, rest) => ((false, digits), rest)
  | rest => (takeDigits? rest).map fun (digits, rest) => ((false, digits), rest)

/-- An exponent, or nothing. -/
def takeExponent? : List Char → Option (Option (Bool × List Char) × List Char)
  | 'e' :: rest => (takeSigned? rest).map fun (exponent, rest) => (some exponent, rest)
  | 'E' :: rest => (takeSigned? rest).map fun (exponent, rest) => (some exponent, rest)
  | rest => some (none, rest)

/-- A number behind its sign. A zero in front allows no further digit before the point. -/
def takeUnsigned? (negative : Bool) (chars : List Char) : Option (NumberText × List Char) := do
  let (whole, rest) ← takeDigits? chars
  if whole.head? == some '0' && whole.length != 1 then none
  else
    let (fraction, rest) ← takeFraction? rest
    let (exponent, rest) ← takeExponent? rest
    return (⟨negative, whole, fraction, exponent⟩, rest)

/-- A number. -/
def takeNumber? : List Char → Option (NumberText × List Char)
  | '-' :: rest => takeUnsigned? true rest
  | chars => takeUnsigned? false chars

/-! ## Tokens -/

/-- The token that starts with the first character, which is no blank. -/
def takeToken? (first : Char) (rest : List Char) : Option (Token × List Char) :=
  match first with
  | '[' => some (.openArray, rest)
  | ']' => some (.closeArray, rest)
  | '\x7b' => some (.openObject, rest)
  | '\x7d' => some (.closeObject, rest)
  | ',' => some (.comma, rest)
  | ':' => some (.colon, rest)
  | '"' => (takeString? rest).map fun (text, rest) => (.scalar (.string text), rest)
  | _ =>
    match first :: rest with
    | 'n' :: 'u' :: 'l' :: 'l' :: rest => some (.scalar .null, rest)
    | 't' :: 'r' :: 'u' :: 'e' :: rest => some (.scalar (.bool true), rest)
    | 'f' :: 'a' :: 'l' :: 's' :: 'e' :: rest => some (.scalar (.bool false), rest)
    | chars => (takeNumber? chars).map fun (n, rest) => (.scalar (.number n), rest)

/-! ## Every token leaves less to read -/

theorem length_takePieces? {collected pieces : List Piece} {chars rest : List Char}
    (h : takePieces? collected chars = some (pieces, rest)) : rest.length < chars.length := by
  fun_induction takePieces? collected chars with
  | case1 => simp at h
  | case2 => simp only [Option.some.injEq, Prod.mk.injEq] at h; simp [h.2]
  | case3 _ _ _ _ _ _ _ _ ih => have := ih h; simp only [List.length_cons]; omega
  | case4 => simp at h
  | case5 _ _ _ _ _ _ ih => have := ih h; simp only [List.length_cons]; omega
  | case6 => simp at h
  | case7 => simp at h
  | case8 _ _ _ _ _ _ _ ih => have := ih h; simp only [List.length_cons]; omega

theorem length_takeString? {chars rest : List Char} {text : Option String}
    (h : takeString? chars = some (text, rest)) : rest.length < chars.length := by
  unfold takeString? at h
  obtain ⟨⟨pieces, rest'⟩, hp, he⟩ := Option.map_eq_some_iff.1 h
  simp only [Prod.mk.injEq] at he
  exact he.2 ▸ length_takePieces? hp

theorem length_takeDigits? {chars digits rest : List Char}
    (h : takeDigits? chars = some (digits, rest)) : rest.length < chars.length := by
  unfold takeDigits? at h
  dsimp only at h
  split at h
  · simp at h
  · rename_i hne
    simp only [Option.some.injEq, Prod.mk.injEq] at h
    rw [← h.2]
    have hs := congrArg List.length (List.takeWhile_append_dropWhile
      (p := isDecimalDigit) (l := chars))
    have : 0 < (chars.takeWhile isDecimalDigit).length := by
      rw [List.length_pos_iff]
      simpa using hne
    simp only [List.length_append] at hs
    omega

theorem length_takeFraction? {chars fraction rest : List Char}
    (h : takeFraction? chars = some (fraction, rest)) : rest.length ≤ chars.length := by
  unfold takeFraction? at h
  split at h
  · have := length_takeDigits? h
    simp only [List.length_cons]
    omega
  · simp only [Option.some.injEq, Prod.mk.injEq] at h
    simp [h.2]

theorem length_takeSigned? {chars rest : List Char} {exponent : Bool × List Char}
    (h : takeSigned? chars = some (exponent, rest)) : rest.length < chars.length := by
  unfold takeSigned? at h
  split at h <;>
  · obtain ⟨⟨digits, rest'⟩, hd, he⟩ := Option.map_eq_some_iff.1 h
    simp only [Prod.mk.injEq] at he
    have := length_takeDigits? hd
    rw [← he.2]
    try simp only [List.length_cons]
    omega

theorem length_takeExponent? {chars rest : List Char} {exponent : Option (Bool × List Char)}
    (h : takeExponent? chars = some (exponent, rest)) : rest.length ≤ chars.length := by
  unfold takeExponent? at h
  split at h
  · obtain ⟨⟨exponent', rest'⟩, hd, he⟩ := Option.map_eq_some_iff.1 h
    simp only [Prod.mk.injEq] at he
    have := length_takeSigned? hd
    rw [← he.2]
    simp only [List.length_cons]
    omega
  · obtain ⟨⟨exponent', rest'⟩, hd, he⟩ := Option.map_eq_some_iff.1 h
    simp only [Prod.mk.injEq] at he
    have := length_takeSigned? hd
    rw [← he.2]
    simp only [List.length_cons]
    omega
  · simp only [Option.some.injEq, Prod.mk.injEq] at h
    simp [h.2]

theorem length_takeUnsigned? {negative : Bool} {chars rest : List Char} {number : NumberText}
    (h : takeUnsigned? negative chars = some (number, rest)) : rest.length < chars.length := by
  simp only [takeUnsigned?, Option.bind_eq_bind, Option.bind_eq_some_iff] at h
  obtain ⟨⟨whole, rest₁⟩, h₁, h⟩ := h
  dsimp only at h
  split at h
  · simp at h
  · simp only [Option.bind_eq_some_iff] at h
    obtain ⟨⟨fraction, rest₂⟩, h₂, ⟨exponent, rest₃⟩, h₃, h⟩ := h
    obtain rfl : rest₃ = rest := congrArg Prod.snd (Option.some.inj h)
    have := length_takeDigits? h₁
    have := length_takeFraction? h₂
    have := length_takeExponent? h₃
    dsimp only at *
    omega

theorem length_takeNumber? {chars rest : List Char} {number : NumberText}
    (h : takeNumber? chars = some (number, rest)) : rest.length < chars.length := by
  unfold takeNumber? at h
  split at h
  · have := length_takeUnsigned? h
    simp only [List.length_cons]
    omega
  · exact length_takeUnsigned? h

/-- A token leaves no more than what stood behind its first character. -/
theorem length_takeToken? {first : Char} {chars rest : List Char} {token : Token}
    (h : takeToken? first chars = some (token, rest)) : rest.length ≤ chars.length := by
  unfold takeToken? at h
  split at h
  case h_7 =>
    obtain ⟨⟨text, rest'⟩, hs, he⟩ := Option.map_eq_some_iff.1 h
    simp only [Prod.mk.injEq] at he
    have := length_takeString? hs
    rw [← he.2]
    omega
  case h_8 =>
    split at h
    case h_4 =>
      obtain ⟨⟨number, rest'⟩, hs, he⟩ := Option.map_eq_some_iff.1 h
      simp only [Prod.mk.injEq] at he
      have := length_takeNumber? hs
      rw [← he.2]
      simp only [List.length_cons] at this
      omega
    all_goals
      rename_i heq
      simp only [List.cons.injEq] at heq
      simp only [Option.some.injEq, Prod.mk.injEq] at h
      rw [heq.2, ← h.2]
      simp only [List.length_cons]
      omega
  all_goals
    simp only [Option.some.injEq, Prod.mk.injEq] at h
    simp [h.2]

/-- The tokens of a text behind those collected so far, last first; none if some stretch of
the text is no token. -/
def tokensInto? (collected : List Token) (chars : List Char) : Option (List Token) :=
  match chars with
  | [] => some collected.reverse
  | c :: rest =>
    if isSpace c then tokensInto? collected rest
    else
      match _h : takeToken? c rest with
      | none => none
      | some (token, rest') => tokensInto? (token :: collected) rest'
  termination_by chars.length
  decreasing_by
    · simp
    · have := length_takeToken? _h
      simp only [List.length_cons]
      omega

/-- The tokens of a text. -/
def tokens? (chars : List Char) : Option (List Token) := tokensInto? [] chars

end Json

end LoxArith
