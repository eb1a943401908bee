import LoxArith.Proofs.Token.Place

set_option autoImplicit false

/-! # Spacing between lexemes

Blanks and closed comments may be put in front of a lexeme or behind one without a change to
what the lexemes are (`content_tokensOf_insert`). What is put there has to begin with a blank:
a comment alone would make two slashes three.

The proof is about the stretches that a text is cut into. No lexeme in front of the place grows
into it, since of all lexemes only strings hold blanks, and a string that is closed ends at its
first quote (`Takes.insert`). The gaps next to the place take up what is inserted, also where a
comment is still open there, at the end of the text (`Gap.grow`).
-/

namespace LoxArith

/-! ## What tokens say -/

/-- The kind and the text of a lexeme, wherever it stands. -/
def Lexeme.content (l : Lexeme) : Kind × String := (l.kind, l.text)

/-- What a token says, wherever it stands. -/
def Token.content : Token → Except ScanFault (Kind × String)
  | .lexeme l => .ok l.content
  | .fault f _ => .error f

/-- What the token of a stretch says. Gaps have none. -/
def Stretch.content? : Stretch → Option (Except ScanFault (Kind × String))
  | .gap _ => none
  | .lexeme kind chars => some (.ok (kind, String.ofList chars))
  | .fault f _ => some (.error f)

theorem map_content_tokensBehind (before : List Char) (ss : List Stretch) :
    (tokensBehind before ss).map Token.content = ss.filterMap Stretch.content? := by
  induction ss generalizing before with
  | nil => rfl
  | cons s ss ih =>
      cases s with
      | gap chars => exact ih _
      | lexeme kind chars => exact congrArg _ (ih _)
      | fault f chars => exact congrArg _ (ih _)

/-! ## Spacing -/

/-- Blanks, and comments that are closed by a line feed. -/
inductive Filler : List Char → Prop
  | nil : Filler []
  | blank {c : Char} {more : List Char} (h : isSpace c) (h' : Filler more) : Filler (c :: more)
  | comment {body more : List Char} (h : '\n' ∉ body) (h' : Filler more) :
      Filler ('/' :: '/' :: (body ++ '\n' :: more))

/-- Blanks and closed comments, the first of them a blank. -/
def IsSpacing (chars : List Char) : Prop :=
  ∃ c more, chars = c :: more ∧ isSpace c ∧ Filler more

section

variable {w : List Char}

theorem IsSpacing.filler (h : IsSpacing w) : Filler w := by
  obtain ⟨c, more, rfl, hc, hmore⟩ := h
  exact .blank hc hmore

/-- The line feed behind a comment is a blank. -/
theorem Filler.lineFeed {more : List Char} (h : Filler more) : Filler ('\n' :: more) :=
  .blank rfl h

theorem Filler.gap (h : Filler w) (rest : List Char) : Gap w rest := by
  induction h with
  | nil => exact .nil
  | blank hc _ ih => exact .blank (isSpace_iff.1 hc) ih
  | comment hbody _ ih => exact .comment hbody (Or.inr ⟨_, rfl⟩) (.blank (by decide) ih)

/-- Up to its first line feed a filler may as well belong to a comment. -/
theorem Filler.split (h : Filler w) : ∃ line later, w = line ++ later ∧ '\n' ∉ line ∧
    (later = [] ∨ ∃ more, later = '\n' :: more) ∧ Filler later := by
  induction h with
  | nil => exact ⟨[], [], rfl, by simp, Or.inl rfl, .nil⟩
  | @blank c more hc hmore ih =>
      by_cases hfeed : c = '\n'
      · subst hfeed
        exact ⟨[], '\n' :: more, rfl, by simp, Or.inr ⟨more, rfl⟩, hmore.lineFeed⟩
      · obtain ⟨line, later, rfl, hline, hlater, hfiller⟩ := ih
        refine ⟨c :: line, later, rfl, ?_, hlater, hfiller⟩
        rw [List.mem_cons, not_or]
        exact ⟨fun heq => hfeed heq.symm, hline⟩
  | @comment body more hbody hmore _ =>
      refine ⟨'/' :: '/' :: body, '\n' :: more, rfl, ?_, Or.inr ⟨more, rfl⟩, hmore.lineFeed⟩
      simpa using hbody

/-! ## Gaps -/

section

variable {gap gap' rest : List Char}

theorem Gap.append (h : Gap gap (gap' ++ rest)) (h' : Gap gap' rest) : Gap (gap ++ gap') rest := by
  generalize hrest : gap' ++ rest = behind at h
  induction h with
  | nil => exact h'
  | blank hc _ ih => exact .blank hc (ih hrest)
  | @comment body gap behind hbody hend _ ih =>
      subst hrest
      have hcomment : Gap ('/' :: '/' :: (body ++ (gap ++ gap'))) rest :=
        .comment hbody (by rwa [List.append_assoc]) (ih rfl)
      rwa [← List.append_assoc] at hcomment

/-- A gap in front of a lexeme is one in front of any other. -/
theorem Gap.change (h : Gap gap rest) (hne : rest ≠ []) (hstop : ¬ StartsTrivia rest)
    (rest' : List Char) : Gap gap rest' := by
  induction h with
  | nil => exact .nil
  | blank hc _ ih => exact .blank hc (ih hne hstop)
  | @comment body gap rest hbody hend _ ih =>
      refine .comment hbody (Or.inr ?_) (ih hne hstop)
      -- the line feed that ends the comment belongs to the gap
      cases gap with
      | nil =>
          rcases hend with hnil | ⟨later, hfeed⟩
          · exact absurd hnil hne
          · exact absurd (Or.inl ⟨'\n', later, hfeed, by decide⟩) hstop
      | cons c gap =>
          rcases hend with hnil | ⟨later, hfeed⟩
          · cases hnil
          · obtain ⟨rfl, -⟩ := List.cons.inj hfeed
            exact ⟨_, rfl⟩

/-- Behind a gap there is room for a filler. A comment that is open at the end of the text takes
up the first line of it. -/
theorem Gap.grow (h : Gap gap rest) (hstop : ¬ StartsTrivia rest) (hw : Filler w) :
    Gap (gap ++ w) rest := by
  induction h with
  | nil => exact hw.gap _
  | blank hc _ ih => exact .blank hc (ih hstop)
  | @comment body gap rest hbody hend _ ih =>
      cases gap with
      | cons c gap =>
          have hfeed : ∃ later, c :: gap ++ w ++ rest = '\n' :: later := by
            rcases hend with hnil | ⟨later, hfeed⟩
            · cases hnil
            · obtain ⟨rfl, -⟩ := List.cons.inj hfeed
              exact ⟨_, rfl⟩
          have hcomment := Gap.comment hbody (Or.inr hfeed) (ih hstop)
          rwa [← List.append_assoc] at hcomment
      | nil =>
          obtain rfl : rest = [] := by
            rcases hend with hnil | ⟨later, hfeed⟩
            · exact hnil
            · exact absurd (Or.inl ⟨'\n', later, hfeed, by decide⟩) hstop
          obtain ⟨line, later, rfl, hline, hlater, hfiller⟩ := hw.split
          have hopen : '\n' ∉ body ++ line := by simp [hbody, hline]
          have hcomment : Gap ('/' :: '/' :: (body ++ line ++ later)) [] :=
            .comment hopen (by rwa [List.append_nil]) (hfiller.gap [])
          rw [List.append_nil]
          rwa [List.append_assoc] at hcomment

end

/-- A blank more behind a stretch does not turn it into a comment. -/
theorem startsTrivia_of_insert {x a b : List Char} (hx : x ≠ []) (hw : IsSpacing w)
    (h : StartsTrivia (x ++ (a ++ (w ++ b)))) : StartsTrivia (x ++ (a ++ b)) := by
  obtain ⟨blank, w, rfl, hblank, -⟩ := hw
  obtain ⟨c, x, rfl⟩ := List.exists_cons_of_ne_nil hx
  rcases h with ⟨d, rest, heq, hd⟩ | ⟨rest, heq⟩
  · obtain ⟨rfl, -⟩ := List.cons.inj heq
    exact Or.inl ⟨c, _, rfl, hd⟩
  · obtain ⟨rfl, hmore⟩ := List.cons.inj heq
    cases x with
    | cons d x =>
        obtain ⟨rfl, -⟩ := List.cons.inj hmore
        exact Or.inr ⟨_, rfl⟩
    | nil =>
        cases a with
        | cons d a =>
            obtain ⟨rfl, -⟩ := List.cons.inj hmore
            exact Or.inr ⟨_, rfl⟩
        | nil =>
            obtain ⟨rfl, -⟩ := List.cons.inj hmore
            cases hblank

/-! ## Stretches -/

/-- Only strings hold blanks. -/
theorem IsLexeme.eq_string_of_blank {word : List Char} {kind : Kind} {blank : Char}
    (h : IsLexeme word kind) (hblank : isSpace blank) (hmem : blank ∈ word) :
    ∃ body, '"' ∉ body ∧ word = '"' :: (body ++ ['"']) := by
  have hdigit : ¬ IsDigit blank := by
    rcases isSpace_iff.1 hblank with rfl | rfl | rfl | rfl <;> decide
  have hletter : ¬ IsLetter blank := by
    rcases isSpace_iff.1 hblank with rfl | rfl | rfl | rfl <;> decide
  have hpoint : blank ≠ '.' := by
    rintro rfl
    cases hblank
  cases h with
  | string hbody => exact ⟨_, hbody, rfl⟩
  | symbol h =>
      have hall : ∀ entry ∈ symbols, ∀ c ∈ entry.1, isSpace c = false := by
        simp [symbols, isSpace]
      rw [hall _ h _ hmem] at hblank
      cases hblank
  | number h =>
      cases h with
      | integer h => exact absurd (h.2 _ hmem) hdigit
      | decimal h h' =>
          rcases List.mem_append.1 hmem with hmem | hmem
          · exact absurd (h.2 _ hmem) hdigit
          rcases List.mem_cons.1 hmem with hmem | hmem
          · exact absurd hmem hpoint
          · exact absurd (h'.2 _ hmem) hdigit
  | word h h' =>
      rcases List.mem_cons.1 hmem with rfl | hmem
      · exact absurd h hletter
      · exact absurd (h' _ hmem) (not_or.2 ⟨hletter, hdigit⟩)

/-- A string is no beginning of a longer one. -/
theorem eq_of_string_beginning {inner body : List Char} (hbody : '"' ∉ body)
    (h : '"' :: (inner ++ ['"']) <+: '"' :: (body ++ ['"'])) : inner = body := by
  obtain ⟨-, hprefix⟩ := List.cons_prefix_cons.1 h
  rcases List.prefix_concat_iff.1 hprefix with heq | hinside
  · exact List.append_cancel_right heq
  · exact absurd (hinside.subset (by simp)) hbody

/-- No lexeme begins with another one and holds a blank behind it: both would be strings, and end at
the same quote. -/
theorem IsLexeme.not_prefix_of_blank {word other a : List Char} {kind otherKind : Kind}
    {blank : Char} (h : IsLexeme word kind) (hother : IsLexeme other otherKind)
    (hblank : isSpace blank) : ¬ word ++ a ++ [blank] <+: other := by
  intro hfront
  obtain ⟨body, hbody, rfl⟩ := hother.eq_string_of_blank hblank (hfront.subset (by simp))
  have hword : word <+: '"' :: (body ++ ['"']) :=
    ((List.prefix_append _ _).trans (List.prefix_append _ _)).trans hfront
  have hlength := hfront.length_le
  obtain ⟨c, more, rfl⟩ := List.exists_cons_of_ne_nil h.ne_nil
  obtain rfl : c = '"' := (List.cons_prefix_cons.1 hword).1
  obtain ⟨⟨inner, -, rfl⟩, -⟩ := h.of_quote
  rw [eq_of_string_beginning hbody hword] at hlength
  simp only [List.length_append, List.length_singleton] at hlength
  omega

/-- A character that starts no lexeme by itself starts none. -/
theorem not_isLexeme_of_single {c : Char} (hquote : c ≠ '"')
    (h : ∀ kind, ¬ IsLexeme [c] kind) (more : List Char) (kind : Kind) :
    ¬ IsLexeme (c :: more) kind := by
  intro hlexeme
  rcases hlexeme.of_cons with ⟨hword, -⟩ | ⟨hdigit, -⟩ | ⟨hc, -⟩ | hsymbol
  · exact h _ (.word hword (by simp))
  · exact h _ (.number (.integer ⟨by simp, by simpa using hdigit⟩))
  · exact hquote hc
  · have hall : ∀ entry ∈ symbols, ∃ single ∈ symbols, single.1 = [entry.1.headD ' '] := by decide
    obtain ⟨⟨_, single⟩, hmem, heq⟩ := hall _ hsymbol
    exact h single (.symbol (heq ▸ hmem))

/-- What a text begins with is also taken if a blank stands somewhere behind it, with anything
behind the blank. -/
theorem Takes.insert {s : Stretch} {a b : List Char} (h : Takes (s.chars ++ (a ++ b)) s)
    (hclosed : s.content? ≠ some (.error .unterminatedString)) (hw : IsSpacing w) :
    Takes (s.chars ++ (a ++ (w ++ b))) s := by
  generalize htext : s.chars ++ (a ++ b) = text at h
  cases h with
  | unterminated _ => exact absurd rfl hclosed
  | @unexpected c rest hquote hnone =>
      have hsingle : ∀ kind, ¬ IsLexeme [c] kind :=
        fun kind => hnone [c] kind (List.cons_prefix_cons.2 ⟨rfl, List.nil_prefix⟩)
      refine .unexpected hquote fun word kind hword hlexeme => ?_
      obtain ⟨d, more, rfl⟩ := List.exists_cons_of_ne_nil hlexeme.ne_nil
      obtain ⟨rfl, -⟩ := List.cons_prefix_cons.1 hword
      exact not_isLexeme_of_single hquote hsingle more kind hlexeme
  | @lexeme _ word kind hlongest =>
      subst htext
      refine .lexeme ⟨List.prefix_append _ _, hlongest.lexeme, ?_⟩
      intro other otherKind hother hlexeme
      show other.length ≤ word.length
      have hother' : other <+: (word ++ a) ++ (w ++ b) := by
        rw [List.append_assoc]
        exact hother
      by_cases hshort : other.length ≤ (word ++ a).length
      · -- the other one ends in front of the blank
        have hin : other <+: word ++ a :=
          List.prefix_of_prefix_length_le hother' (List.prefix_append _ _) hshort
        refine hlongest.longest _ _ (hin.trans ?_) hlexeme
        rw [← List.append_assoc]
        exact List.prefix_append _ _
      · -- the other one would hold the blank
        obtain ⟨blank, w, rfl, hblank, -⟩ := hw
        have hfront : word ++ a ++ [blank] <+: other := by
          refine List.prefix_of_prefix_length_le ?_ hother' ?_
          · rw [List.cons_append]
            exact (List.prefix_append_right_inj _).2
              (List.cons_prefix_cons.2 ⟨rfl, List.nil_prefix⟩)
          · rw [List.length_append]
            simp only [List.length_singleton]
            omega
        exact absurd hfront (hlongest.lexeme.not_prefix_of_blank hlexeme hblank)

/-! ## Cuts -/

theorem Takes.chars_ne_nil {text : List Char} {s : Stretch} (h : Takes text s) : s.chars ≠ [] := by
  cases h with
  | lexeme h => exact h.lexeme.ne_nil
  | unterminated _ => exact List.cons_ne_nil _ _
  | unexpected _ _ => exact List.cons_ne_nil _ _

/-- A text is cut into gaps and what is taken behind them, beginning with a gap. -/
theorem Cuts.exists_gap {text : List Char} {ss : List Stretch} (h : Cuts text ss) :
    ∃ gap more, ss = .gap gap :: more := by
  cases h with
  | finish _ => exact ⟨_, _, rfl⟩
  | take _ _ _ _ => exact ⟨_, _, rfl⟩

/-- The first gap of a text takes up a filler in front of it. -/
theorem Cuts.fill {text : List Char} {ss : List Stretch} (h : Cuts text ss) (hw : Filler w) :
    ∃ ss', Cuts (w ++ text) ss' ∧
      ss'.filterMap Stretch.content? = ss.filterMap Stretch.content? := by
  cases h with
  | @finish gap hgap => exact ⟨_, .finish ((hw.gap _).append hgap), rfl⟩
  | @take gap rest s ss hgap hstop htakes more =>
      refine ⟨.gap (w ++ gap) :: s :: ss, ?_, rfl⟩
      rw [← List.append_assoc]
      exact .take ((hw.gap _).append hgap) hstop htakes more

/-- **Spacing between two stretches is taken up by a gap.** -/
theorem Cuts.insert {text : List Char} {ss front back : List Stretch} (h : Cuts text ss)
    (hss : ss = front ++ back) (hfront : front ≠ [])
    (hclosed : .error .unterminatedString ∉ ss.filterMap Stretch.content?) (hw : IsSpacing w) :
    ∃ ss', Cuts (front.flatMap Stretch.chars ++ (w ++ back.flatMap Stretch.chars)) ss' ∧
      ss'.filterMap Stretch.content? = ss.filterMap Stretch.content? := by
  induction h generalizing front with
  | @finish gap hgap =>
      obtain ⟨first, front, rfl⟩ := List.exists_cons_of_ne_nil hfront
      obtain ⟨rfl, hnil⟩ := List.cons.inj hss
      obtain ⟨rfl, rfl⟩ := List.append_eq_nil_iff.1 hnil.symm
      refine ⟨[.gap (gap ++ w)], ?_, rfl⟩
      simpa [Stretch.chars] using Cuts.finish (hgap.grow not_startsTrivia_nil hw.filler)
  | @take gap rest s ss hgap hstop htakes more ih =>
      obtain ⟨first, front, rfl⟩ := List.exists_cons_of_ne_nil hfront
      obtain ⟨rfl, htail⟩ := List.cons.inj hss
      have hchars := htakes.chars_ne_nil
      have hne : s.chars ++ rest ≠ [] := by simp [hchars]
      have hclosed' : s.content? ≠ some (.error .unterminatedString) := by
        intro hopen
        exact hclosed (List.mem_filterMap.2 ⟨s, by simp, hopen⟩)
      cases front with
      | nil =>
          -- right in front of the stretch
          obtain rfl : back = s :: ss := htail.symm
          refine ⟨.gap (gap ++ w) :: s :: ss, ?_, rfl⟩
          have hcut := Cuts.take (hgap.grow hstop hw.filler) hstop htakes more
          simpa [Stretch.chars, more.flatMap_chars] using hcut
      | cons t front =>
          obtain ⟨rfl, hlater⟩ := List.cons.inj htail
          have hrest : rest = front.flatMap Stretch.chars ++ back.flatMap Stretch.chars := by
            rw [← List.flatMap_append, ← more.flatMap_chars, hlater]
            rfl
          -- behind the stretch: right there, or further on
          obtain ⟨ss', hcuts, hcontent⟩ : ∃ ss', Cuts (front.flatMap Stretch.chars
              ++ (w ++ back.flatMap Stretch.chars)) ss' ∧
              ss'.filterMap Stretch.content? = ss.filterMap Stretch.content? := by
            cases front with
            | nil =>
                rw [List.flatMap_nil, List.nil_append] at hrest ⊢
                exact hrest ▸ more.fill hw.filler
            | cons t front =>
                refine ih hlater (List.cons_ne_nil _ _) ?_
                intro hmem
                refine hclosed ?_
                rw [List.filterMap_cons, List.filterMap_cons]
                split <;> split <;> simp [hmem]
          rw [hrest] at hgap hstop htakes hne
          refine ⟨.gap gap :: s :: ss', ?_, ?_⟩
          · have hcut := Cuts.take (hgap.change hne hstop _)
              (fun h => hstop (startsTrivia_of_insert hchars hw h)) (htakes.insert hclosed' hw)
              hcuts
            simpa [Stretch.chars] using hcut
          · simp only [List.filterMap_cons, hcontent]

/-! ## Places -/

/-- A beginning of a text is determined by its bytes. -/
theorem eq_of_byteLength {before before' text : List Char} (h : before <+: text)
    (h' : before' <+: text) (hbytes : byteLength before = byteLength before') :
    before = before' := by
  induction text generalizing before before' with
  | nil => rw [List.prefix_nil.1 h, List.prefix_nil.1 h']
  | cons c text ih =>
      have hpos : 0 < c.utf8Size := c.utf8Size_pos
      cases before with
      | nil =>
          cases before' with
          | nil => rfl
          | cons d before' =>
              obtain ⟨rfl, -⟩ := List.cons_prefix_cons.1 h'
              simp only [byteLength] at hbytes
              omega
      | cons d before =>
          obtain ⟨rfl, hrest⟩ := List.cons_prefix_cons.1 h
          cases before' with
          | nil =>
              simp only [byteLength] at hbytes
              omega
          | cons e before' =>
              obtain ⟨rfl, hrest'⟩ := List.cons_prefix_cons.1 h'
              rw [ih hrest hrest' (Nat.add_left_cancel hbytes)]

/-- The beginning and the end of a lexeme lie between two stretches. -/
theorem exists_split_of_mem {source : String} {ss : List Stretch} {l : Lexeme}
    (hcuts : Cuts source.toList ss) (hitems : (tokensOf source).items = tokensBehind [] ss)
    (hl : l ∈ (tokensOf source).lexemes ++ [(tokensOf source).last]) {place : Nat}
    (hplace : place = l.start ∨ place = l.start + l.length) :
    ∃ front back, ss = front ++ back ∧ front ≠ [] ∧
      place = byteLength (front.flatMap Stretch.chars) := by
  rcases List.mem_append.1 hl with hl | hl
  · rw [Tokens.mem_lexemes, hitems] at hl
    obtain ⟨front, s, back, rfl, htoken⟩ := exists_of_mem_tokensBehind hl
    cases s with
    | gap chars => cases htoken
    | fault f chars => cases htoken
    | lexeme kind chars =>
        cases htoken
        have hfront : front ≠ [] := by
          rintro rfl
          obtain ⟨gap, more, hss⟩ := hcuts.exists_gap
          cases hss
        rcases hplace with rfl | rfl
        · refine ⟨front, _, rfl, hfront, ?_⟩
          rw [byteLength_eq]
          rfl
        · refine ⟨front ++ [.lexeme kind chars], back, by simp, by simp, ?_⟩
          rw [byteLength_eq, List.flatMap_append, String.ofList_append, String.utf8ByteSize_append]
          simp [Lexeme.length, Stretch.chars]
  · rw [List.mem_singleton.1 hl] at hplace
    obtain ⟨-, -, -, hlast⟩ := cuts_tokensOf source
    have hne : ss ≠ [] := by
      obtain ⟨gap, more, rfl⟩ := hcuts.exists_gap
      exact List.cons_ne_nil _ _
    refine ⟨ss, [], (List.append_nil ss).symm, hne, ?_⟩
    rw [hcuts.flatMap_chars, byteLength_eq, String.ofList_toList]
    rw [hlast] at hplace
    rcases hplace with rfl | rfl <;> rfl

/-- **Spacing does not matter to the scanner.** Where a lexeme starts or ends, blanks and closed
comments can be inserted, the first of them a blank, and the text has the same tokens as
before, at other places. -/
theorem content_tokensOf_insert {before after inserted : String} {l : Lexeme}
    (hl : l ∈ (tokensOf (before ++ after)).lexemes ++ [(tokensOf (before ++ after)).last])
    (hplace : before.utf8ByteSize = l.start ∨ before.utf8ByteSize = l.start + l.length)
    (hclosed : ∀ line, .fault .unterminatedString line ∉ (tokensOf (before ++ after)).items)
    (hinserted : IsSpacing inserted.toList) :
    (tokensOf (before ++ inserted ++ after)).items.map Token.content
        = (tokensOf (before ++ after)).items.map Token.content ∧
      (tokensOf (before ++ inserted ++ after)).last.content
        = (tokensOf (before ++ after)).last.content := by
  obtain ⟨ss, hcuts, hitems, hlast⟩ := cuts_tokensOf (before ++ after)
  obtain ⟨ss', hcuts', hitems', hlast'⟩ := cuts_tokensOf (before ++ inserted ++ after)
  refine ⟨?_, by rw [hlast, hlast']; rfl⟩
  obtain ⟨front, back, rfl, hfront, hbytes⟩ := exists_split_of_mem hcuts hitems hl hplace
  have htext := hcuts.flatMap_chars
  rw [List.flatMap_append, String.toList_append] at htext
  -- the place between the stretches is the one between the two parts
  have hbefore : front.flatMap Stretch.chars = before.toList := by
    refine eq_of_byteLength (htext ▸ List.prefix_append _ _) (List.prefix_append _ after.toList) ?_
    rw [← hbytes, byteLength_eq, String.ofList_toList]
  have hafter : back.flatMap Stretch.chars = after.toList := by
    rw [hbefore] at htext
    exact List.append_cancel_left htext
  have hclosed' : .error .unterminatedString ∉ (front ++ back).filterMap Stretch.content? := by
    rw [← map_content_tokensBehind [], ← hitems]
    intro hmem
    obtain ⟨token, htoken, heq⟩ := List.mem_map.1 hmem
    cases token with
    | lexeme l => cases heq
    | fault f line =>
        cases heq
        exact hclosed line htoken
  obtain ⟨ss'', hcuts'', hcontent⟩ := hcuts.insert rfl hfront hclosed' hinserted
  rw [hbefore, hafter, ← List.append_assoc, ← String.toList_append, ← String.toList_append]
    at hcuts''
  obtain rfl := hcuts'.unique hcuts''
  rw [hitems, hitems', map_content_tokensBehind, map_content_tokensBehind, hcontent]

end

end LoxArith
