import LoxArith.Token.Scan
import Mathlib.Data.List.Infix
import Mathlib.Data.List.TakeWhile

set_option autoImplicit false

/-! # The lexical grammar

What the tokens of a text are, said without a scanner. The words that are lexemes fall into
classes (`IsLexeme`). A text is cut into stretches (`Cuts`): first all blanks and comments that
stand there are dropped, then the longest lexeme is taken, or, where no lexeme starts, an
erroneous character, or everything behind a quote that is never closed. A stretch is placed by
the characters before it: it starts behind their bytes, and its line is counted by the line
feeds up to its end (`Tokenizes`).

The grammar has classes of characters and tables of signs and keywords of its own. Nothing in it is
said with a test or a table of the scanner.

Both the cuts and the tokens are determined by the text (`Cuts.unique`).
-/

namespace LoxArith

/-! ## Classes of characters -/

/-- A blank: a space, a tab, a carriage return or a line feed. -/
def IsSpace (c : Char) : Prop := c = ' ' ∨ c = '\t' ∨ c = '\r' ∨ c = '\n'

/-- A digit, `[0-9]`. -/
def IsDigit (c : Char) : Prop := '0' ≤ c ∧ c ≤ '9'

/-- A letter or an underscore, `[A-Za-z_]`. -/
def IsLetter (c : Char) : Prop := ('a' ≤ c ∧ c ≤ 'z') ∨ ('A' ≤ c ∧ c ≤ 'Z') ∨ c = '_'

instance : DecidablePred IsSpace := fun _ => inferInstanceAs (Decidable (_ ∨ _))

instance : DecidablePred IsDigit := fun _ => inferInstanceAs (Decidable (_ ∧ _))

instance : DecidablePred IsLetter := fun _ => inferInstanceAs (Decidable (_ ∨ _))

/-! ## Lexemes -/

/-- The lexemes that are spelled with signs. -/
def symbols : List (List Char × Kind) :=
  [(['('], .leftParen), ([')'], .rightParen), (['\x7b'], .leftBrace), (['\x7d'], .rightBrace),
   ([';'], .semicolon), ([','], .comma), (['.'], .dot), (['-'], .minus), (['+'], .plus),
   (['/'], .slash), (['*'], .star), (['!'], .bang), (['!', '='], .bangEqual), (['='], .equal),
   (['=', '='], .equalEqual), (['<'], .less), (['<', '='], .lessEqual), (['>'], .greater),
   (['>', '='], .greaterEqual)]

/-- The words that are not identifiers. -/
def keywords : List (String × Kind) :=
  [("and", .andWord), ("class", .classWord), ("else", .elseWord), ("false", .falseWord),
   ("for", .forWord), ("fun", .funWord), ("if", .ifWord), ("nil", .nilWord), ("or", .orWord),
   ("print", .printWord), ("return", .returnWord), ("super", .superWord), ("this", .thisWord),
   ("true", .trueWord), ("var", .varWord), ("while", .whileWord)]

/-- The kind of a word: that of the keyword if the word stands in their table as a whole. -/
def tableKind (word : List Char) : Kind :=
  (keywords.lookup (String.ofList word)).getD .identifier

/-- One digit or more. -/
def IsDigits (word : List Char) : Prop :=
  word ≠ [] ∧ ∀ c ∈ word, IsDigit c

/-- Digits, `[0-9]+`, or digits with a fraction, `[0-9]+\.[0-9]+`. -/
inductive IsNumber : List Char → Prop
  | integer {digits : List Char} (h : IsDigits digits) : IsNumber digits
  | decimal {digits fraction : List Char} (h : IsDigits digits) (h' : IsDigits fraction) :
      IsNumber (digits ++ '.' :: fraction)

/-- The words that are lexemes, and their kinds. -/
inductive IsLexeme : List Char → Kind → Prop
  | symbol {word : List Char} {kind : Kind} (h : (word, kind) ∈ symbols) : IsLexeme word kind
  | number {word : List Char} (h : IsNumber word) : IsLexeme word .number
  /-- Anything between two quotes, `"[^"]*"`. -/
  | string {body : List Char} (h : '"' ∉ body) : IsLexeme ('"' :: (body ++ ['"'])) .string
  /-- A word, `[A-Za-z_][A-Za-z0-9_]*`, which may be a keyword. -/
  | word {first : Char} {more : List Char} (h : IsLetter first)
      (h' : ∀ c ∈ more, IsLetter c ∨ IsDigit c) :
      IsLexeme (first :: more) (tableKind (first :: more))

/-- The longest lexeme at the beginning of a text. -/
structure IsLongest (text word : List Char) (kind : Kind) : Prop where
  starts : word <+: text
  lexeme : IsLexeme word kind
  longest : ∀ other otherKind, other <+: text → IsLexeme other otherKind →
    other.length ≤ word.length

/-! ## Blanks and comments -/

/-- The text begins with a blank or a comment. -/
def StartsTrivia (text : List Char) : Prop :=
  (∃ c rest, text = c :: rest ∧ IsSpace c) ∨ ∃ rest, text = '/' :: '/' :: rest

/-- The characters `gap` in front of `rest` are blanks and comments. A comment goes up to the
next line feed or to the end of the text. -/
inductive Gap : List Char → List Char → Prop
  | nil {rest : List Char} : Gap [] rest
  | blank {c : Char} {gap rest : List Char} (h : IsSpace c) (more : Gap gap rest) :
      Gap (c :: gap) rest
  | comment {body gap rest : List Char} (h : '\n' ∉ body)
      (hend : gap ++ rest = [] ∨ ∃ later, gap ++ rest = '\n' :: later) (more : Gap gap rest) :
      Gap ('/' :: '/' :: (body ++ gap)) rest

/-! ## Stretches -/

/-- A part of a text. -/
inductive Stretch
  | gap (chars : List Char)
  | lexeme (kind : Kind) (chars : List Char)
  | fault (f : ScanFault) (chars : List Char)

/-- The characters of a stretch. -/
def Stretch.chars : Stretch → List Char
  | gap chars | lexeme _ chars | fault _ chars => chars

/-- The stretch that is taken from a text which does not begin with a blank or a comment. -/
inductive Takes : List Char → Stretch → Prop
  | lexeme {text word : List Char} {kind : Kind} (h : IsLongest text word kind) :
      Takes text (.lexeme kind word)
  /-- A quote that is not closed spoils the rest of the text. -/
  | unterminated {body : List Char} (h : '"' ∉ body) :
      Takes ('"' :: body) (.fault .unterminatedString ('"' :: body))
  /-- A character that starts no lexeme is erroneous, whatever its number of bytes. -/
  | unexpected {c : Char} {rest : List Char} (hquote : c ≠ '"')
      (h : ∀ word kind, word <+: c :: rest → ¬ IsLexeme word kind) :
      Takes (c :: rest) (.fault .unexpectedCharacter [c])

/-- The text is cut into these stretches. -/
inductive Cuts : List Char → List Stretch → Prop
  | finish {gap : List Char} (h : Gap gap []) : Cuts gap [.gap gap]
  | take {gap rest : List Char} {s : Stretch} {ss : List Stretch} (hgap : Gap gap (s.chars ++ rest))
      (hstop : ¬ StartsTrivia (s.chars ++ rest)) (htakes : Takes (s.chars ++ rest) s)
      (more : Cuts rest ss) : Cuts (gap ++ (s.chars ++ rest)) (.gap gap :: s :: ss)

/-! ## Tokens -/

/-- The number of line feeds, as bytes. -/
def lineFeeds (text : String) : Nat := text.toUTF8.data.toList.count 10

/-- The line that is reached behind some characters. -/
def lineBehind (chars : List Char) : Nat := 1 + lineFeeds (String.ofList chars)

/-- The tokens of stretches that stand behind the characters `before`. -/
def tokensBehind (before : List Char) : List Stretch → List Token
  | [] => []
  | .gap chars :: ss => tokensBehind (before ++ chars) ss
  | .lexeme kind chars :: ss =>
    .lexeme ⟨kind, String.ofList chars, (String.ofList before).utf8ByteSize,
      lineBehind (before ++ chars)⟩ :: tokensBehind (before ++ chars) ss
  | .fault f chars :: ss =>
    .fault f (lineBehind (before ++ chars)) :: tokensBehind (before ++ chars) ss

/-- A token that is no fault. -/
def Token.lexeme? : Token → Option Lexeme
  | .lexeme l => some l
  | .fault _ _ => none

/-- The lexemes of a text in their order. -/
def Tokens.lexemes (tokens : Tokens) : List Lexeme := tokens.items.filterMap Token.lexeme?

theorem Tokens.mem_lexemes {tokens : Tokens} {l : Lexeme} :
    l ∈ tokens.lexemes ↔ .lexeme l ∈ tokens.items := by
  constructor
  · intro h
    obtain ⟨token, hmem, htoken⟩ := List.mem_filterMap.1 h
    cases token with
    | fault f line => cases htoken
    | lexeme k =>
        cases htoken
        exact hmem
  · intro h
    exact List.mem_filterMap.2 ⟨_, h, rfl⟩

/-- The tokens of a text: those of the stretches it is cut into, and an empty lexeme at its
end. -/
def Tokenizes (source : String) (tokens : Tokens) : Prop :=
  ∃ ss, Cuts source.toList ss ∧ tokens.items = tokensBehind [] ss ∧
    tokens.last = ⟨.endOfText, "", source.utf8ByteSize, lineBehind source.toList⟩

/-- What a table gives for a key stands in the table. -/
theorem mem_of_lookup_eq_some {α β : Type} [BEq α] [LawfulBEq α] {table : List (α × β)} {key : α}
    {value : β} (h : table.lookup key = some value) : (key, value) ∈ table := by
  obtain ⟨front, back, rfl, -⟩ := List.lookup_eq_some_iff.1 h
  exact List.mem_append_right front List.mem_cons_self

/-! ## The first character of a lexeme -/

theorem IsLetter.not_isDigit {c : Char} (h : IsLetter c) : ¬ IsDigit c := by
  rintro ⟨-, hle⟩
  rw [Char.le_def, UInt32.le_iff_toNat_le] at hle
  rcases h with ⟨h, -⟩ | ⟨h, -⟩ | rfl
  · rw [Char.le_def, UInt32.le_iff_toNat_le] at h
    exact absurd (Nat.le_trans h hle) (by decide)
  · rw [Char.le_def, UInt32.le_iff_toNat_le] at h
    exact absurd (Nat.le_trans h hle) (by decide)
  · exact absurd hle (by decide)

/-- Signs are neither letters nor digits nor quotes. -/
theorem symbols_first {c : Char} {more : List Char} {kind : Kind}
    (h : (c :: more, kind) ∈ symbols) : ¬ IsLetter c ∧ ¬ IsDigit c ∧ c ≠ '"' := by
  have hall : ∀ entry ∈ symbols, ¬ IsLetter (entry.1.headD ' ') ∧
      ¬ IsDigit (entry.1.headD ' ') ∧ entry.1.headD ' ' ≠ '"' := by decide
  exact hall _ h

theorem IsNumber.first {c : Char} {more : List Char} (h : IsNumber (c :: more)) : IsDigit c := by
  generalize hword : c :: more = word at h
  cases h with
  | integer h =>
      subst hword
      exact h.2 c List.mem_cons_self
  | @decimal digits fraction h _ =>
      obtain ⟨d, ds, rfl⟩ := List.exists_cons_of_ne_nil h.1
      obtain rfl : c = d := (List.cons.inj hword).1
      exact h.2 c List.mem_cons_self

theorem IsLexeme.ne_nil {word : List Char} {kind : Kind} (h : IsLexeme word kind) : word ≠ [] := by
  rintro rfl
  generalize hword : ([] : List Char) = word at h
  cases h with
  | symbol h =>
      subst hword
      revert h
      cases kind <;> decide
  | number h =>
      cases h with
      | integer h => exact h.1 hword.symm
      | decimal _ _ => simp at hword
  | string _ => cases hword
  | word _ _ => cases hword

namespace IsLexeme

variable {c : Char} {more : List Char} {kind : Kind}

/-- The classes differ in their first characters. -/
theorem of_cons (h : IsLexeme (c :: more) kind) :
    (IsLetter c ∧ (∀ d ∈ more, IsLetter d ∨ IsDigit d) ∧ kind = tableKind (c :: more)) ∨
      (IsDigit c ∧ IsNumber (c :: more) ∧ kind = .number) ∨
      (c = '"' ∧ (∃ body, '"' ∉ body ∧ more = body ++ ['"']) ∧ kind = .string) ∨
      (c :: more, kind) ∈ symbols := by
  cases h with
  | symbol h => exact Or.inr (Or.inr (Or.inr h))
  | number h => exact Or.inr (Or.inl ⟨h.first, h, rfl⟩)
  | string h => exact Or.inr (Or.inr (Or.inl ⟨rfl, ⟨_, h, rfl⟩, rfl⟩))
  | word h h' => exact Or.inl ⟨h, h', rfl⟩

theorem of_letter (h : IsLexeme (c :: more) kind) (hc : IsLetter c) :
    (∀ d ∈ more, IsLetter d ∨ IsDigit d) ∧ kind = tableKind (c :: more) := by
  rcases h.of_cons with ⟨-, h⟩ | ⟨hdigit, -⟩ | ⟨rfl, -⟩ | hsymbol
  · exact h
  · exact absurd hdigit hc.not_isDigit
  · exact absurd hc (by decide)
  · exact absurd hc (symbols_first hsymbol).1

theorem of_digit (h : IsLexeme (c :: more) kind) (hc : IsDigit c) :
    IsNumber (c :: more) ∧ kind = .number := by
  rcases h.of_cons with ⟨hletter, -⟩ | ⟨-, h⟩ | ⟨rfl, -⟩ | hsymbol
  · exact absurd hc hletter.not_isDigit
  · exact h
  · exact absurd hc (by decide)
  · exact absurd hc (symbols_first hsymbol).2.1

theorem of_quote (h : IsLexeme ('"' :: more) kind) :
    (∃ body, '"' ∉ body ∧ more = body ++ ['"']) ∧ kind = .string := by
  rcases h.of_cons with ⟨hletter, -⟩ | ⟨hdigit, -⟩ | ⟨-, h⟩ | hsymbol
  · exact absurd hletter (by decide)
  · exact absurd hdigit (by decide)
  · exact h
  · exact absurd rfl (symbols_first hsymbol).2.2

theorem of_sign (h : IsLexeme (c :: more) kind) (hletter : ¬ IsLetter c) (hdigit : ¬ IsDigit c)
    (hquote : c ≠ '"') : (c :: more, kind) ∈ symbols := by
  rcases h.of_cons with ⟨h, -⟩ | ⟨h, -⟩ | ⟨h, -⟩ | h
  · exact absurd h hletter
  · exact absurd h hdigit
  · exact absurd h hquote
  · exact h

/-- A lexeme has one kind. -/
theorem unique {word : List Char} {kind' : Kind} (h : IsLexeme word kind)
    (h' : IsLexeme word kind') : kind = kind' := by
  obtain ⟨c, more, rfl⟩ := List.exists_cons_of_ne_nil h.ne_nil
  by_cases hletter : IsLetter c
  · exact (h.of_letter hletter).2.trans (h'.of_letter hletter).2.symm
  by_cases hdigit : IsDigit c
  · exact (h.of_digit hdigit).2.trans (h'.of_digit hdigit).2.symm
  by_cases hquote : c = '"'
  · subst hquote
    exact h.of_quote.2.trans h'.of_quote.2.symm
  · have hall : ∀ entry ∈ symbols, ∀ entry' ∈ symbols, entry.1 = entry'.1 →
        entry.2 = entry'.2 := by decide
    exact hall _ (h.of_sign hletter hdigit hquote) _ (h'.of_sign hletter hdigit hquote) rfl

end IsLexeme

/-- No lexeme stands for the end of a text. -/
theorem IsLexeme.ne_endOfText {word : List Char} {kind : Kind} (h : IsLexeme word kind) :
    kind ≠ .endOfText := by
  cases h with
  | symbol h =>
      have hall : ∀ entry ∈ symbols, entry.2 ≠ .endOfText := by decide
      exact hall _ h
  | number _ => decide
  | string _ => decide
  | @word first more _ _ =>
      have hall : ∀ entry ∈ keywords, entry.2 ≠ .endOfText := by decide
      unfold tableKind
      cases hlookup : keywords.lookup (String.ofList (first :: more)) with
      | none => decide
      | some kind => exact hall _ (mem_of_lookup_eq_some hlookup)

/-! ## There is one way to cut a text -/

theorem Takes.ne_nil {text : List Char} {s : Stretch} (h : Takes text s) : text ≠ [] := by
  cases h with
  | lexeme h =>
      rintro rfl
      exact h.lexeme.ne_nil (List.prefix_nil.1 h.starts)
  | unterminated _ => simp
  | unexpected _ _ => simp

/-- An open quote starts no lexeme. -/
theorem not_isLexeme_of_open {body word : List Char} {kind : Kind} (hbody : '"' ∉ body)
    (hstarts : word <+: '"' :: body) : ¬ IsLexeme word kind := by
  intro h
  obtain ⟨c, more, rfl⟩ := List.exists_cons_of_ne_nil h.ne_nil
  obtain ⟨rfl, hmore⟩ := List.cons_prefix_cons.1 hstarts
  obtain ⟨⟨inner, -, rfl⟩, -⟩ := h.of_quote
  exact hbody (hmore.subset (by simp))

theorem IsLongest.unique {text word word' : List Char} {kind kind' : Kind}
    (h : IsLongest text word kind) (h' : IsLongest text word' kind') :
    word = word' ∧ kind = kind' := by
  have hle := h.longest _ _ h'.starts h'.lexeme
  have hge := h'.longest _ _ h.starts h.lexeme
  obtain rfl : word = word' :=
    (List.prefix_of_prefix_length_le h.starts h'.starts hge).eq_of_length (Nat.le_antisymm hge hle)
  exact ⟨rfl, h.lexeme.unique h'.lexeme⟩

theorem Takes.unique {text : List Char} {s s' : Stretch} (h : Takes text s) (h' : Takes text s') :
    s = s' := by
  cases h with
  | lexeme h =>
      cases h' with
      | lexeme h' =>
          obtain ⟨rfl, rfl⟩ := h.unique h'
          rfl
      | unterminated hbody => exact absurd h.lexeme (not_isLexeme_of_open hbody h.starts)
      | unexpected _ hnone => exact absurd h.lexeme (hnone _ _ h.starts)
  | unterminated hbody =>
      cases h' with
      | lexeme h' => exact absurd h'.lexeme (not_isLexeme_of_open hbody h'.starts)
      | unterminated _ => rfl
      | unexpected hquote _ => exact absurd rfl hquote
  | unexpected hquote hnone =>
      cases h' with
      | lexeme h' => exact absurd h'.lexeme (hnone _ _ h'.starts)
      | unterminated _ => exact absurd rfl hquote
      | unexpected _ _ => rfl

/-- A comment ends at the first line feed. -/
theorem takeWhile_comment {body later : List Char} (hbody : '\n' ∉ body)
    (hend : later = [] ∨ ∃ more, later = '\n' :: more) :
    (body ++ later).takeWhile (· != '\n') = body := by
  have hlater : later.takeWhile (· != '\n') = [] := by
    rcases hend with rfl | ⟨more, rfl⟩ <;> rfl
  rw [List.takeWhile_append_of_pos, hlater, List.append_nil]
  intro c hc
  have hne : c ≠ '\n' := fun h => hbody (h ▸ hc)
  simpa using hne

theorem Gap.startsTrivia_of_cons {c : Char} {gap rest : List Char} (h : Gap (c :: gap) rest) :
    StartsTrivia (c :: gap ++ rest) := by
  cases h with
  | blank h _ => exact Or.inl ⟨c, _, rfl, h⟩
  | comment _ _ _ => exact Or.inr ⟨_, rfl⟩

theorem Gap.unique {gap gap' rest rest' : List Char} (h : Gap gap rest) (h' : Gap gap' rest')
    (hstop : ¬ StartsTrivia rest) (hstop' : ¬ StartsTrivia rest')
    (heq : gap ++ rest = gap' ++ rest') : gap = gap' := by
  induction h generalizing gap' with
  | nil =>
      cases gap' with
      | nil => rfl
      | cons c gap' =>
          rw [List.nil_append] at heq
          exact absurd (heq ▸ h'.startsTrivia_of_cons) hstop
  | @blank c gap rest hc more ih =>
      cases h' with
      | nil =>
          rw [List.nil_append] at heq
          exact absurd (heq ▸ (Gap.blank hc more).startsTrivia_of_cons) hstop'
      | blank _ more' =>
          obtain ⟨rfl, htail⟩ := List.cons.inj heq
          rw [ih more' hstop htail]
      | comment _ _ _ =>
          obtain rfl : c = '/' := (List.cons.inj heq).1
          exact absurd hc (by decide)
  | @comment body gap rest hbody hend more ih =>
      cases h' with
      | nil =>
          rw [List.nil_append] at heq
          exact absurd (heq ▸ (Gap.comment hbody hend more).startsTrivia_of_cons) hstop'
      | @blank c _ _ hc _ =>
          obtain rfl : '/' = c := (List.cons.inj heq).1
          exact absurd hc (by decide)
      | @comment body' gap' _ hbody' hend' more' =>
          simp only [List.cons_append, List.append_assoc, List.cons.injEq, true_and] at heq
          have hsame : body = body' := by
            rw [← takeWhile_comment hbody hend, heq, takeWhile_comment hbody' hend']
          subst hsame
          rw [ih more' hstop (List.append_cancel_left heq)]

theorem not_startsTrivia_nil : ¬ StartsTrivia [] := by
  rintro (⟨c, rest, h, -⟩ | ⟨rest, h⟩) <;> cases h

/-- **A text is cut in one way.** -/
theorem Cuts.unique {text : List Char} {ss ss' : List Stretch} (h : Cuts text ss)
    (h' : Cuts text ss') : ss = ss' := by
  induction h generalizing ss' with
  | @finish gap hgap =>
      generalize htext : gap = text at h'
      cases h' with
      | finish _ => rfl
      | @take gap' rest s _ hgap' hstop htakes _ =>
          have heq : gap ++ [] = gap' ++ (s.chars ++ rest) := by rw [List.append_nil, htext]
          obtain rfl := hgap.unique hgap' not_startsTrivia_nil hstop heq
          exact absurd (List.append_cancel_left heq).symm htakes.ne_nil
  | @take gap rest s ss hgap hstop htakes more ih =>
      generalize htext : gap ++ (s.chars ++ rest) = text at h'
      cases h' with
      | finish hgap' =>
          have heq : text ++ [] = gap ++ (s.chars ++ rest) := by rw [List.append_nil, htext]
          obtain rfl := hgap'.unique hgap not_startsTrivia_nil hstop heq
          exact absurd (List.append_cancel_left heq).symm htakes.ne_nil
      | @take gap' rest' s' ss' hgap' hstop' htakes' more' =>
          obtain rfl := hgap.unique hgap' hstop hstop' htext
          have hrest := List.append_cancel_left htext
          rw [← hrest] at htakes'
          obtain rfl := htakes.unique htakes'
          obtain rfl := List.append_cancel_left hrest
          rw [ih more']

/-- A cut loses nothing. -/
theorem Cuts.flatMap_chars {text : List Char} {ss : List Stretch} (h : Cuts text ss) :
    ss.flatMap Stretch.chars = text := by
  induction h with
  | finish _ => simp [Stretch.chars]
  | take _ _ _ _ ih => simp [Stretch.chars, ih]

end LoxArith
