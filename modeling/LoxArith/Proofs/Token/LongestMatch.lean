import LoxArith.Proofs.Token.Word

set_option autoImplicit false

/-! # The scanner takes the longest lexeme

A bite at the first character of a text takes what the lexical grammar takes there
(`correct_bite`). The tests of the scanner decide the classes of characters. The first character
decides which class of lexemes can follow, and in each class the bite goes on as long as the class
allows.
-/

namespace LoxArith

/-! ## Classes of characters -/

theorem isSpace_iff {c : Char} : isSpace c ↔ IsSpace c := by
  simp only [isSpace, IsSpace, Bool.or_eq_true, beq_iff_eq, or_assoc]

theorem isDecimalDigit_iff {c : Char} : isDecimalDigit c ↔ IsDigit c := by
  simp only [isDecimalDigit, IsDigit, Bool.and_eq_true, decide_eq_true_eq]

theorem isWordStart_iff {c : Char} : isWordStart c ↔ IsLetter c := by
  simp only [isWordStart, IsLetter, Bool.or_eq_true, Bool.and_eq_true, decide_eq_true_eq,
    beq_iff_eq, or_assoc]

theorem isWordPart_iff {c : Char} : isWordPart c ↔ IsLetter c ∨ IsDigit c := by
  rw [isWordPart, Bool.or_eq_true, isWordStart_iff, isDecimalDigit_iff]

theorem isDigits_iff {word : List Char} :
    IsDigits word ↔ word ≠ [] ∧ ∀ c ∈ word, isDecimalDigit c := by
  simp only [IsDigits, isDecimalDigit_iff]

/-! ## Runs of characters -/

/-- A beginning that has only characters of a class is part of the run of that class. -/
theorem length_le_takeWhile {p : Char → Bool} {word text : List Char} (h : word <+: text)
    (hall : ∀ c ∈ word, p c) : word.length ≤ (text.takeWhile p).length := by
  obtain ⟨rest, rfl⟩ := h
  rw [List.takeWhile_append_of_pos hall, List.length_append]
  exact Nat.le_add_right _ _

/-- A run ends at the first character of another class. -/
theorem takeWhile_of_stop {p : Char → Bool} {run : List Char} {stop : Char} (rest : List Char)
    (hall : ∀ c ∈ run, p c) (hstop : p stop = false) :
    (run ++ stop :: rest).takeWhile p = run ∧ (run ++ stop :: rest).dropWhile p = stop :: rest := by
  constructor
  · rw [List.takeWhile_append_of_pos hall, List.takeWhile_cons_of_neg (by simp [hstop]),
      List.append_nil]
  · rw [List.dropWhile_append_of_pos hall, List.dropWhile_cons_of_neg (by simp [hstop])]

theorem mem_takeWhile_imp {p : Char → Bool} {text : List Char} {c : Char}
    (h : c ∈ text.takeWhile p) : p c :=
  List.all_eq_true.1 List.all_takeWhile c h

/-! ## What a bite takes -/

/-- The stretch of a bite at a character. -/
def Bite.stretch (first : Char) (b : Bite) : Stretch :=
  match b.outcome with
  | .ok kind => .lexeme kind (first :: b.taken)
  | .error f => .fault f (first :: b.taken)

/-- The bite takes a stretch of the text and leaves what is behind it. -/
structure Bite.Correct (first : Char) (text : List Char) (b : Bite) : Prop where
  takes : Takes (first :: text) (b.stretch first)
  taken : b.taken ++ b.rest = text

/-- A bite that takes a lexeme is correct if no lexeme with the same first character is
longer. -/
theorem Bite.Correct.of_lexeme {first : Char} {text : List Char} {b : Bite} {kind : Kind}
    (houtcome : b.outcome = .ok kind) (htaken : b.taken ++ b.rest = text)
    (hlexeme : IsLexeme (first :: b.taken) kind)
    (hlongest : ∀ more otherKind, more <+: text → IsLexeme (first :: more) otherKind →
      more.length ≤ b.taken.length) : b.Correct first text := by
  refine ⟨?_, htaken⟩
  rw [stretch, houtcome]
  refine .lexeme ⟨?_, hlexeme, ?_⟩
  · rw [← htaken]
    exact List.prefix_append (first :: b.taken) b.rest
  · intro other otherKind hstarts hother
    obtain ⟨c, more, rfl⟩ := List.exists_cons_of_ne_nil hother.ne_nil
    obtain ⟨rfl, hmore⟩ := List.cons_prefix_cons.1 hstarts
    exact Nat.succ_le_succ (hlongest more otherKind hmore hother)

/-! ## Words -/

theorem correct_biteWord {first : Char} (hfirst : IsLetter first) (text : List Char) :
    (biteWord first text).Correct first text := by
  have houtcome : (biteWord first text).outcome
      = .ok (tableKind (first :: text.takeWhile isWordPart)) :=
    congrArg Except.ok (Option.get_of_eq_some _ (wordKind?_eq first _))
  refine .of_lexeme houtcome List.takeWhile_append_dropWhile
    (.word hfirst fun c hc => isWordPart_iff.1 (mem_takeWhile_imp hc)) ?_
  intro more otherKind hstarts hother
  refine length_le_takeWhile hstarts fun c hc => ?_
  exact isWordPart_iff.2 ((hother.of_letter hfirst).1 c hc)

/-! ## Numbers -/

/-- Behind the first digit of a number there are digits, or digits with a fraction. -/
theorem IsNumber.of_cons {c : Char} {more : List Char} (h : IsNumber (c :: more)) :
    (∀ d ∈ more, IsDigit d) ∨
      ∃ whole digit fraction, more = whole ++ '.' :: digit :: fraction ∧
        (∀ d ∈ whole, IsDigit d) ∧ IsDigit digit ∧
        ∀ d ∈ fraction, IsDigit d := by
  generalize hword : c :: more = word at h
  cases h with
  | integer h =>
      subst hword
      exact Or.inl fun d hd => h.2 d (List.mem_cons_of_mem _ hd)
  | @decimal digits fraction h h' =>
      obtain ⟨d, ds, rfl⟩ := List.exists_cons_of_ne_nil h.1
      obtain ⟨e, es, rfl⟩ := List.exists_cons_of_ne_nil h'.1
      obtain ⟨-, rfl⟩ := List.cons.inj hword
      exact Or.inr ⟨ds, e, es, rfl, fun d hd => h.2 d (List.mem_cons_of_mem _ hd),
        h'.2 e List.mem_cons_self, fun d hd => h'.2 d (List.mem_cons_of_mem _ hd)⟩

theorem isDigits_cons {c : Char} {more : List Char} (hc : IsDigit c)
    (hmore : ∀ d ∈ more, IsDigit d) : IsDigits (c :: more) := by
  refine ⟨by simp, ?_⟩
  intro d hd
  rcases List.mem_cons.1 hd with rfl | hd
  · exact hc
  · exact hmore d hd

/-- The digits of a bite go as far as digits go. -/
theorem length_takeWhile_le_biteNumber (text : List Char) :
    (text.takeWhile isDecimalDigit).length ≤ (biteNumber text).taken.length := by
  unfold biteNumber
  split
  · split
    · simp only [List.length_append]
      omega
    · exact Nat.le_refl _
  · exact Nat.le_refl _

/-- A fraction is taken as far as it goes. -/
theorem biteNumber_of_fraction {whole fraction : List Char} {digit : Char}
    (hwhole : ∀ d ∈ whole, isDecimalDigit d) (hdigit : isDecimalDigit digit) :
    (biteNumber (whole ++ '.' :: digit :: fraction)).taken
      = whole ++ '.' :: digit :: fraction.takeWhile isDecimalDigit := by
  obtain ⟨htake, hdrop⟩ := takeWhile_of_stop (digit :: fraction) hwhole
    (show isDecimalDigit '.' = false by decide)
  simp only [biteNumber, htake, hdrop, if_pos hdigit]

theorem correct_biteNumber {first : Char} (hfirst : IsDigit first) (text : List Char) :
    (biteNumber text).Correct first text := by
  have hsplit := List.takeWhile_append_dropWhile (p := isDecimalDigit) (l := text)
  have hrun : ∀ {chars : List Char}, ∀ d ∈ chars.takeWhile isDecimalDigit, IsDigit d :=
    fun d hd => isDecimalDigit_iff.1 (mem_takeWhile_imp hd)
  have hparts : (biteNumber text).outcome = .ok .number ∧
      (biteNumber text).taken ++ (biteNumber text).rest = text ∧
      IsNumber (first :: (biteNumber text).taken) := by
    unfold biteNumber
    split
    · rename_i digit more hdrop
      rw [hdrop] at hsplit
      split
      · rename_i hdigit
        refine ⟨rfl, ?_, ?_⟩
        · simpa [List.append_assoc, List.takeWhile_append_dropWhile] using hsplit
        · exact .decimal (isDigits_cons hfirst hrun)
            (isDigits_cons (isDecimalDigit_iff.1 hdigit) hrun)
      · exact ⟨rfl, hsplit, .integer (isDigits_cons hfirst hrun)⟩
    · exact ⟨rfl, hsplit, .integer (isDigits_cons hfirst hrun)⟩
  obtain ⟨houtcome, htaken, hnumber⟩ := hparts
  refine .of_lexeme houtcome htaken (.number hnumber) ?_
  intro more otherKind hstarts hother
  rcases (hother.of_digit hfirst).1.of_cons with hdigits | hdecimal
  · refine Nat.le_trans (length_le_takeWhile hstarts fun d hd => ?_)
      (length_takeWhile_le_biteNumber text)
    exact isDecimalDigit_iff.2 (hdigits d hd)
  · obtain ⟨whole, digit, fraction, rfl, hall, hdigit, hfraction⟩ := hdecimal
    obtain ⟨rest, rfl⟩ := hstarts
    simp only [← isDecimalDigit_iff] at hall hdigit hfraction
    simp only [List.append_assoc, List.cons_append]
    rw [biteNumber_of_fraction hall hdigit, List.takeWhile_append_of_pos hfraction]
    simp only [List.length_append, List.length_cons]
    omega

/-! ## Strings -/

theorem correct_biteString (text : List Char) : (biteString text).Correct '"' text := by
  have hsplit := List.takeWhile_append_dropWhile (p := (· != '"')) (l := text)
  have hbody : '"' ∉ text.takeWhile (· != '"') := by
    intro hmem
    simpa using mem_takeWhile_imp hmem
  unfold biteString
  split
  · rename_i hdrop
    rw [hdrop, List.append_nil] at hsplit
    refine ⟨?_, by simpa using hsplit⟩
    rw [hsplit] at hbody ⊢
    exact .unterminated hbody
  · rename_i quote more hdrop
    obtain rfl : quote = '"' := by
      have hquote := List.head?_dropWhile_not (· != '"') text
      rw [hdrop] at hquote
      simpa using hquote
    rw [hdrop] at hsplit
    refine .of_lexeme rfl (by simpa using hsplit) (.string hbody) ?_
    intro other otherKind hstarts hother
    obtain ⟨⟨body, hclosed, rfl⟩, -⟩ := hother.of_quote
    have hopen : ∀ c ∈ body, (c != '"') = true := by
      intro c hc
      have hne : c ≠ '"' := fun h => hclosed (h ▸ hc)
      simpa using hne
    have hle := length_le_takeWhile ((List.prefix_append body ['"']).trans hstarts) hopen
    simp only [List.length_append, List.length_singleton]
    omega

/-! ## Signs -/

/-- Only four signs can be followed by another one. -/
theorem symbols_more {c : Char} {more : List Char} {kind : Kind}
    (h : (c :: more, kind) ∈ symbols) :
    more = [] ∨ (more = ['='] ∧ c ∈ ['!', '=', '<', '>']) := by
  have hall : ∀ entry ∈ symbols, entry.1.tail = [] ∨
      (entry.1.tail = ['='] ∧ entry.1.headD ' ' ∈ ['!', '=', '<', '>']) := by decide
  exact hall _ h

theorem correct_biteEqual {first : Char} {alone withEqual : Kind}
    (halone : ([first], alone) ∈ symbols) (hequal : ([first, '='], withEqual) ∈ symbols)
    (text : List Char) : (biteEqual alone withEqual text).Correct first text := by
  obtain ⟨hletter, hdigit, hquote⟩ := symbols_first halone
  have hmore : ∀ more otherKind, IsLexeme (first :: more) otherKind → more = [] ∨ more = ['='] := by
    intro more otherKind hother
    exact (symbols_more (hother.of_sign hletter hdigit hquote)).imp_right And.left
  unfold biteEqual
  split
  · refine .of_lexeme rfl rfl (.symbol hequal) ?_
    intro more otherKind _ hother
    rcases hmore more otherKind hother with rfl | rfl <;> simp
  · rename_i hnot
    refine .of_lexeme rfl rfl (.symbol halone) ?_
    intro more otherKind hstarts hother
    rcases hmore more otherKind hother with rfl | rfl
    · simp
    · obtain ⟨rest, rfl⟩ := hstarts
      exact absurd rfl (hnot rest)

/-! ## All first characters -/

/-- **A bite takes the longest lexeme, or an erroneous character, or an open quote.** -/
theorem correct_bite (first : Char) (text : List Char) : (bite first text).Correct first text := by
  unfold bite
  split
  · rename_i hletter
    exact correct_biteWord (isWordStart_iff.1 hletter) text
  rename_i hletter
  rw [isWordStart_iff] at hletter
  split
  · rename_i hdigit
    exact correct_biteNumber (isDecimalDigit_iff.1 hdigit) text
  rename_i hdigit
  rw [isDecimalDigit_iff] at hdigit
  split
  · exact correct_biteString text
  · exact correct_biteEqual (by decide) (by decide) text
  · exact correct_biteEqual (by decide) (by decide) text
  · exact correct_biteEqual (by decide) (by decide) text
  · exact correct_biteEqual (by decide) (by decide) text
  · rename_i hquote hbang hequal hless hgreater
    have hsigns : first ∉ ['!', '=', '<', '>'] := by
      simp only [List.mem_cons, List.not_mem_nil, or_false, not_or]
      exact ⟨hbang, hequal, hless, hgreater⟩
    split
    · rename_i kind hlookup
      have hall : ∀ entry ∈ punctuation, ([entry.1], entry.2) ∈ symbols := by decide
      have hsymbol : ([first], kind) ∈ symbols := hall _ (mem_of_lookup_eq_some hlookup)
      refine .of_lexeme rfl rfl (.symbol hsymbol) ?_
      intro more otherKind _ hother
      rcases symbols_more (hother.of_sign hletter hdigit hquote) with rfl | ⟨-, hsign⟩
      · exact Nat.le_refl _
      · exact absurd hsign hsigns
    · rename_i hlookup
      have hall : ∀ entry ∈ symbols, entry.1.headD ' ' ∈ ['!', '=', '<', '>'] ∨
          punctuation.lookup (entry.1.headD ' ') ≠ none := by decide
      refine ⟨.unexpected hquote ?_, rfl⟩
      intro word kind hstarts hlexeme
      obtain ⟨c, more, rfl⟩ := List.exists_cons_of_ne_nil hlexeme.ne_nil
      obtain ⟨rfl, -⟩ := List.cons_prefix_cons.1 hstarts
      rcases hall _ (hlexeme.of_sign hletter hdigit hquote) with hsign | hsome
      · exact hsigns hsign
      · exact hsome hlookup

end LoxArith
