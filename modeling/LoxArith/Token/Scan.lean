import LoxArith.Text.Character
import LoxArith.Token.Word

set_option autoImplicit false

/-! # Scanning a text

The scanner moves a cursor over the characters of the text. One step skips what separates
lexemes (blanks and comments) and then takes the longest lexeme that starts there. A step
always takes at least one character, so a text has finitely many tokens, and the whole text
is scanned by repeating the step (`tokensOf`).

Offsets count bytes of the UTF-8 form, lines start at `1` and grow with each line feed, one
inside a string included.
-/

namespace LoxArith

/-! ## The cursor -/

/-- The number of bytes of the UTF-8 form. -/
def byteLength : List Char → Nat
  | [] => 0
  | c :: rest => c.utf8Size + byteLength rest

/-- A place in the text: what is left of it, the bytes passed, and the current line. -/
structure Cursor where
  rest : List Char
  offset : Nat
  line : Nat
  deriving DecidableEq, Repr

/-- The beginning of a text. -/
def Cursor.start (text : List Char) : Cursor :=
  ⟨text, 0, 1⟩

/-- Skips spaces and comments from the given place; inside a comment everything up to the
line feed is skipped. -/
def skipTrivia (comment : Bool) (offset line : Nat) : List Char → Cursor
  | [] => ⟨[], offset, line⟩
  | '\n' :: rest => skipTrivia false (offset + 1) (line + 1) rest
  | '/' :: '/' :: rest => skipTrivia true (offset + 2) line rest
  | c :: rest =>
    if comment || isSpace c then skipTrivia comment (offset + c.utf8Size) line rest
    else ⟨c :: rest, offset, line⟩

/-- The next place where a lexeme starts, or the end of the text. -/
def Cursor.toLexeme (cursor : Cursor) : Cursor :=
  skipTrivia false cursor.offset cursor.line cursor.rest

/-! ## The longest lexeme at a place -/

/-- What the scanner took: its kind or fault, the characters after the first one, and what
is left. -/
structure Bite where
  outcome : Except ScanFault Kind
  taken : List Char
  rest : List Char

/-- A word, and whether it is a keyword. -/
def biteWord (first : Char) (rest : List Char) : Bite :=
  let taken := rest.takeWhile isWordPart
  let kind := (wordKind? (first :: taken)).get (isSome_wordKind? first taken)
  ⟨.ok kind, taken, rest.dropWhile isWordPart⟩

/-- Digits, and a fraction if the point has a digit behind it. -/
def biteNumber (rest : List Char) : Bite :=
  let whole := rest.takeWhile isDecimalDigit
  match rest.dropWhile isDecimalDigit with
  | '.' :: digit :: more =>
    if isDecimalDigit digit then
      ⟨.ok .number, whole ++ '.' :: digit :: more.takeWhile isDecimalDigit,
        more.dropWhile isDecimalDigit⟩
    else ⟨.ok .number, whole, '.' :: digit :: more⟩
  | rest => ⟨.ok .number, whole, rest⟩

/-- Everything up to the closing quote. -/
def biteString (rest : List Char) : Bite :=
  let body := rest.takeWhile (· != '"')
  match rest.dropWhile (· != '"') with
  | [] => ⟨.error .unterminatedString, body, []⟩
  | quote :: more => ⟨.ok .string, body ++ [quote], more⟩

/-- One character that may be followed by an equals sign. -/
def biteEqual (alone withEqual : Kind) : List Char → Bite
  | '=' :: more => ⟨.ok withEqual, ['='], more⟩
  | rest => ⟨.ok alone, [], rest⟩

/-- The kinds of one character. -/
def punctuation : List (Char × Kind) :=
  [('(', .leftParen), (')', .rightParen), ('\x7b', .leftBrace), ('\x7d', .rightBrace),
   (';', .semicolon), (',', .comma), ('.', .dot), ('-', .minus), ('+', .plus),
   ('/', .slash), ('*', .star)]

/-- The longest lexeme that starts with `first`; a character that starts none is a fault of
its own. -/
def bite (first : Char) (rest : List Char) : Bite :=
  if isWordStart first then biteWord first rest
  else if isDecimalDigit first then biteNumber rest
  else
    match first with
    | '"' => biteString rest
    | '!' => biteEqual .bang .bangEqual rest
    | '=' => biteEqual .equal .equalEqual rest
    | '<' => biteEqual .less .lessEqual rest
    | '>' => biteEqual .greater .greaterEqual rest
    | _ =>
      match punctuation.lookup first with
      | some kind => ⟨.ok kind, [], rest⟩
      | none => ⟨.error .unexpectedCharacter, [], rest⟩

theorem length_dropWhile_le (p : Char → Bool) (chars : List Char) :
    (chars.dropWhile p).length ≤ chars.length :=
  (List.dropWhile_sublist p).length_le

theorem length_rest_biteNumber (chars : List Char) :
    (biteNumber chars).rest.length ≤ chars.length := by
  have hd := length_dropWhile_le isDecimalDigit chars
  unfold biteNumber
  split
  · rename_i digit more h
    have hm := length_dropWhile_le isDecimalDigit more
    rw [h] at hd
    simp only [List.length_cons] at hd
    split <;> simp only [List.length_cons] <;> omega
  · exact hd

theorem length_rest_biteString (chars : List Char) :
    (biteString chars).rest.length ≤ chars.length := by
  have hd := length_dropWhile_le (· != '"') chars
  unfold biteString
  split
  · simp
  · rename_i quote more h
    rw [h] at hd
    simp only [List.length_cons] at hd
    simp only
    omega

theorem length_rest_biteEqual (alone withEqual : Kind) (chars : List Char) :
    (biteEqual alone withEqual chars).rest.length ≤ chars.length := by
  unfold biteEqual
  split <;> simp

/-- What a bite leaves is no longer than what stood after the first character. -/
theorem length_rest_bite (first : Char) (chars : List Char) :
    (bite first chars).rest.length ≤ chars.length := by
  unfold bite
  split
  · exact length_dropWhile_le isWordPart chars
  split
  · exact length_rest_biteNumber chars
  split
  · exact length_rest_biteString chars
  · exact length_rest_biteEqual _ _ chars
  · exact length_rest_biteEqual _ _ chars
  · exact length_rest_biteEqual _ _ chars
  · exact length_rest_biteEqual _ _ chars
  · split <;> exact Nat.le_refl _

theorem length_rest_skipTrivia (comment : Bool) (offset line : Nat) (chars : List Char) :
    (skipTrivia comment offset line chars).rest.length ≤ chars.length := by
  fun_induction skipTrivia comment offset line chars with
  | case1 => simp
  | case2 _ _ _ _ ih => simp only [List.length_cons]; omega
  | case3 _ _ _ _ ih => simp only [List.length_cons]; omega
  | case4 _ _ _ _ _ _ _ _ ih => simp only [List.length_cons]; omega
  | case5 => simp

/-! ## Steps -/

/-- The next token and the place behind it, or nothing at the end of the text. -/
def Cursor.scan? (cursor : Cursor) : Option (Token × Cursor) :=
  let here := cursor.toLexeme
  match here.rest with
  | [] => none
  | first :: rest =>
    let bite := bite first rest
    let line := here.line + bite.taken.count '\n'
    let next := ⟨bite.rest, here.offset + byteLength (first :: bite.taken), line⟩
    match bite.outcome with
    | .ok kind =>
      some (.lexeme ⟨kind, String.ofList (first :: bite.taken), here.offset, line⟩, next)
    | .error fault => some (.fault fault line, next)

/-- A step leaves less of the text. -/
theorem Cursor.length_rest_scan? {cursor next : Cursor} {token : Token}
    (h : cursor.scan? = some (token, next)) : next.rest.length < cursor.rest.length := by
  have ht := length_rest_skipTrivia false cursor.offset cursor.line cursor.rest
  unfold scan? toLexeme at h
  dsimp only at h
  split at h
  · simp at h
  · rename_i first rest hrest
    rw [hrest] at ht
    simp only [List.length_cons] at ht
    have hb := length_rest_bite first rest
    split at h <;>
    · simp only [Option.some.injEq, Prod.mk.injEq] at h
      rw [← h.2]
      simp only
      omega

/-- The lexeme that stands for the end of the text: empty, and on the last line. -/
def Cursor.endLexeme (cursor : Cursor) : Lexeme :=
  let here := cursor.toLexeme
  ⟨.endOfText, "", here.offset, here.line⟩

/-- A scanned text: its tokens in order, and the lexeme that follows the last of them as
often as it is asked for. -/
structure Tokens where
  items : List Token
  last : Lexeme
  deriving DecidableEq, Repr

/-- Scans from a place on, behind tokens that were collected last first. -/
def Cursor.scanInto (collected : List Token) (cursor : Cursor) : Tokens :=
  match _h : cursor.scan? with
  | none => ⟨collected.reverse, cursor.endLexeme⟩
  | some (token, next) => next.scanInto (token :: collected)
  termination_by cursor.rest.length
  decreasing_by exact length_rest_scan? _h

/-- All tokens of a text. -/
def tokensOf (source : String) : Tokens :=
  (Cursor.start source.toList).scanInto []

end LoxArith
