import LoxArith.Proofs.Token.LongestMatch

set_option autoImplicit false

/-! # Where the tokens of a text stand

The scanner counts bytes and lines as it goes. Both counts are those of the characters behind
the cursor (`Cursor.Behind`), so that the tokens of a text are those of the lexical grammar,
at the same places (`tokensOf_spec`). In particular each lexeme is a part of the text between
two character boundaries, and no two lexemes overlap.
-/

namespace LoxArith

/-! ## Counting -/

theorem ofNat_beq_lineFeed (n : Nat) : (UInt8.ofNat n == 10) = decide (n % 256 = 10) := by
  rw [Bool.eq_iff_iff, beq_iff_eq, decide_eq_true_eq, ← UInt8.toNat_inj, UInt8.toNat_ofNat']
  rfl

/-- The byte of a line feed occurs in no other character. -/
theorem count_utf8EncodeChar (c : Char) :
    (String.utf8EncodeChar c).count 10 = if c = '\n' then 1 else 0 := by
  have hchar : c = '\n' ↔ c.val.toNat = 10 := by
    rw [← Char.val_inj, ← UInt32.toNat_inj]
    rfl
  simp only [String.utf8EncodeChar, hchar]
  generalize c.val.toNat = n
  split
  · have hmod : n % 256 = n := Nat.mod_eq_of_lt (by omega)
    simp only [List.count_cons, List.count_nil, ofNat_beq_lineFeed, decide_eq_true_eq]
    rw [hmod, Nat.zero_add]
  · -- all bytes of a longer form are large
    have hne : n ≠ 10 := by omega
    rw [if_neg hne]
    split
    · simp only [List.count_cons, List.count_nil, ofNat_beq_lineFeed, decide_eq_true_eq]
      rw [if_neg (by omega), if_neg (by omega)]
    split
    · simp only [List.count_cons, List.count_nil, ofNat_beq_lineFeed, decide_eq_true_eq]
      rw [if_neg (by omega), if_neg (by omega), if_neg (by omega)]
    · simp only [List.count_cons, List.count_nil, ofNat_beq_lineFeed, decide_eq_true_eq]
      rw [if_neg (by omega), if_neg (by omega), if_neg (by omega), if_neg (by omega)]

theorem lineFeeds_ofList (chars : List Char) :
    lineFeeds (String.ofList chars) = chars.count '\n' := by
  rw [lineFeeds, String.toUTF8_eq_toByteArray, String.toByteArray_ofList, List.utf8Encode,
    List.data_toByteArray, List.toList_toArray]
  induction chars with
  | nil => rfl
  | cons c chars ih =>
      rw [List.flatMap_cons, List.count_append, ih, count_utf8EncodeChar, List.count_cons,
        Nat.add_comm]
      simp only [beq_iff_eq]

theorem lineFeeds_le_append (before after : String) :
    lineFeeds before ≤ lineFeeds (before ++ after) := by
  rw [← String.ofList_toList (s := before), ← String.ofList_toList (s := after),
    ← String.ofList_append, lineFeeds_ofList, lineFeeds_ofList, List.count_append]
  exact Nat.le_add_right _ _

theorem lineBehind_append (before chars : List Char) :
    lineBehind (before ++ chars) = lineBehind before + chars.count '\n' := by
  rw [lineBehind, lineBehind, lineFeeds_ofList, lineFeeds_ofList, List.count_append,
    Nat.add_assoc]

theorem byteLength_eq (chars : List Char) :
    byteLength chars = (String.ofList chars).utf8ByteSize := by
  induction chars with
  | nil => rfl
  | cons c chars ih =>
      have hsplit : String.ofList (c :: chars) = String.ofList [c] ++ String.ofList chars := by
        rw [← String.ofList_append]
        rfl
      rw [byteLength, ih, hsplit, String.utf8ByteSize_append, ← String.singleton_eq_ofList,
        String.utf8ByteSize_singleton]

/-! ## The cursor -/

namespace Cursor

/-- The cursor stands behind the characters `before`. -/
structure Behind (cursor : Cursor) (before : List Char) : Prop where
  offset : cursor.offset = (String.ofList before).utf8ByteSize
  line : cursor.line = lineBehind before

variable {cursor : Cursor} {before : List Char}

theorem Behind.move (h : cursor.Behind before) (chars rest : List Char) :
    Behind ⟨rest, cursor.offset + byteLength chars, cursor.line + chars.count '\n'⟩
      (before ++ chars) := by
  constructor
  · rw [h.offset, byteLength_eq, String.ofList_append, String.utf8ByteSize_append]
  · rw [h.line, lineBehind_append]

/-- What is skipped, from inside a comment or not: the rest of the comment, and then a gap. -/
structure Skips (comment : Bool) (chars body gap : List Char) (offset line : Nat)
    (after : Cursor) : Prop where
  splits : chars = body ++ (gap ++ after.rest)
  outside : comment = false → body = []
  inside : '\n' ∉ body
  ends : comment = true →
    gap ++ after.rest = [] ∨ ∃ later, gap ++ after.rest = '\n' :: later
  isGap : Gap gap after.rest
  stops : ¬ StartsTrivia after.rest
  offset : after.offset = offset + byteLength (body ++ gap)
  line : after.line = line + (body ++ gap).count '\n'

theorem exists_skips (comment : Bool) (offset line : Nat) (chars : List Char) :
    ∃ body gap,
      Skips comment chars body gap offset line (skipTrivia comment offset line chars) := by
  fun_induction skipTrivia comment offset line chars with
  | case1 comment offset line =>
      exact ⟨[], [], rfl, fun _ => rfl, by simp, fun _ => Or.inl rfl, .nil, not_startsTrivia_nil,
        rfl, rfl⟩
  | case2 comment offset line rest ih =>
      -- a line feed ends a comment and is a blank
      obtain ⟨body, gap, h⟩ := ih
      obtain rfl := h.outside rfl
      refine ⟨[], '\n' :: gap, ?_, fun _ => rfl, by simp, fun _ => Or.inr ⟨_, rfl⟩,
        .blank (by decide) h.isGap, h.stops, ?_, ?_⟩
      · exact congrArg _ h.splits
      · rw [h.offset, List.nil_append, List.nil_append, byteLength, Nat.add_assoc]
        rfl
      · rw [h.line]
        simp only [List.nil_append, List.count_cons_self]
        omega
  | case3 comment offset line rest ih =>
      obtain ⟨body, gap, h⟩ := ih
      have hlength : byteLength ('/' :: '/' :: (body ++ gap)) = 2 + byteLength (body ++ gap) := by
        show 1 + (1 + byteLength (body ++ gap)) = _
        omega
      have hcount : ('/' :: '/' :: (body ++ gap)).count '\n' = (body ++ gap).count '\n' := by
        simp
      have hbody : '\n' ∉ '/' :: '/' :: body := by simp [h.inside]
      cases comment with
      | false =>
          refine ⟨[], '/' :: '/' :: (body ++ gap), ?_, fun _ => rfl, by simp, by simp,
            .comment h.inside (h.ends rfl) h.isGap, h.stops, ?_, ?_⟩
          · rw [List.nil_append, List.cons_append, List.cons_append, List.append_assoc, ← h.splits]
          · rw [h.offset, List.nil_append, hlength, Nat.add_assoc]
          · rw [h.line, List.nil_append, hcount]
      | true =>
          refine ⟨'/' :: '/' :: body, gap, ?_, by simp, hbody, h.ends, h.isGap, h.stops, ?_, ?_⟩
          · rw [List.cons_append, List.cons_append, ← h.splits]
          · rw [h.offset, List.cons_append, List.cons_append, hlength, Nat.add_assoc]
          · rw [h.line, List.cons_append, List.cons_append, hcount]
  | case4 comment offset line c rest hfeed hslash hskip ih =>
      obtain ⟨body, gap, h⟩ := ih
      have hc : c ≠ '\n' := fun heq => hfeed heq
      cases comment with
      | false =>
          obtain rfl := h.outside rfl
          have hspace : isSpace c := by simpa using hskip
          refine ⟨[], c :: gap, ?_, fun _ => rfl, by simp, by simp,
            .blank (isSpace_iff.1 hspace) h.isGap, h.stops, ?_, ?_⟩
          · exact congrArg _ h.splits
          · rw [h.offset, List.nil_append, List.nil_append, byteLength, Nat.add_assoc]
          · rw [h.line, List.nil_append, List.nil_append, List.count_cons_of_ne hc]
      | true =>
          refine ⟨c :: body, gap, ?_, by simp, ?_, h.ends, h.isGap, h.stops, ?_, ?_⟩
          · exact congrArg _ h.splits
          · simp only [List.mem_cons, not_or]
            exact ⟨fun heq => hc heq.symm, h.inside⟩
          · rw [h.offset, List.cons_append, byteLength, Nat.add_assoc]
          · rw [h.line, List.cons_append, List.count_cons_of_ne hc]
  | case5 comment offset line c rest hfeed hslash hstop =>
      simp only [Bool.or_eq_true, not_or, Bool.not_eq_true] at hstop
      obtain ⟨rfl, hspace⟩ := hstop
      refine ⟨[], [], rfl, fun _ => rfl, by simp, by simp, .nil, ?_, rfl, rfl⟩
      rintro (⟨d, more, heq, hd⟩ | ⟨more, heq⟩)
      · obtain rfl := (List.cons.inj heq).1
        exact absurd (isSpace_iff.2 hd) (by simp [hspace])
      · obtain ⟨rfl, rfl⟩ := List.cons.inj heq
        exact hslash more rfl rfl

/-- The next lexeme starts behind a gap. -/
theorem Behind.toLexeme (h : cursor.Behind before) :
    ∃ gap, cursor.rest = gap ++ cursor.toLexeme.rest ∧ Gap gap cursor.toLexeme.rest ∧
      ¬ StartsTrivia cursor.toLexeme.rest ∧ cursor.toLexeme.Behind (before ++ gap) := by
  obtain ⟨body, gap, hskips⟩ := exists_skips false cursor.offset cursor.line cursor.rest
  obtain rfl := hskips.outside rfl
  refine ⟨gap, hskips.splits, hskips.isGap, hskips.stops, ?_⟩
  have hmove := h.move gap cursor.toLexeme.rest
  exact ⟨hskips.offset.trans hmove.offset, hskips.line.trans hmove.line⟩

/-! ## Steps -/

/-- A step takes a stretch behind a gap, and its token is the one of the stretch. -/
structure Advances (cursor : Cursor) (before gap : List Char) (s : Stretch) (token : Token)
    (next : Cursor) : Prop where
  splits : cursor.rest = gap ++ (s.chars ++ next.rest)
  isGap : Gap gap (s.chars ++ next.rest)
  stops : ¬ StartsTrivia (s.chars ++ next.rest)
  takes : Takes (s.chars ++ next.rest) s
  token : ∀ ss, tokensBehind before (.gap gap :: s :: ss)
    = token :: tokensBehind (before ++ gap ++ s.chars) ss
  behind : next.Behind (before ++ gap ++ s.chars)

theorem Behind.scan?_eq_some (h : cursor.Behind before) {token : Token} {next : Cursor}
    (hscan : cursor.scan? = some (token, next)) :
    ∃ gap s, Advances cursor before gap s token next := by
  obtain ⟨gap, hsplits, hgap, hstops, hbehind⟩ := h.toLexeme
  unfold scan? at hscan
  generalize cursor.toLexeme = here at *
  obtain ⟨rest, offset, line⟩ := here
  dsimp only at *
  cases rest with
  | nil => cases hscan
  | cons first rest =>
      have hcorrect := correct_bite first rest
      dsimp only at hscan
      generalize bite first rest = b at *
      -- a line feed would have been skipped
      have hfeed : first ≠ '\n' := by
        rintro rfl
        exact hstops (Or.inl ⟨_, _, rfl, by decide⟩)
      have hmove := hbehind.move (first :: b.taken) b.rest
      rw [List.count_cons_of_ne hfeed] at hmove
      have hchars : (b.stretch first).chars = first :: b.taken := by
        unfold Bite.stretch
        split <;> rfl
      have htaken : first :: rest = (b.stretch first).chars ++ b.rest := by
        rw [hchars, List.cons_append, hcorrect.taken]
      have htakes := hcorrect.takes
      have hoffset : offset = (String.ofList (before ++ gap)).utf8ByteSize := hbehind.offset
      have hline : line + b.taken.count '\n' = lineBehind (before ++ gap ++ first :: b.taken) :=
        hmove.line
      rw [htaken] at hsplits hgap hstops htakes
      refine ⟨gap, b.stretch first, ?_⟩
      cases houtcome : b.outcome with
      | ok kind =>
          rw [houtcome] at hscan
          cases hscan
          refine ⟨hsplits, hgap, hstops, htakes, ?_, hchars ▸ hmove⟩
          intro ss
          rw [hchars, hoffset, hline]
          simp only [Bite.stretch, houtcome, tokensBehind]
      | error f =>
          rw [houtcome] at hscan
          cases hscan
          refine ⟨hsplits, hgap, hstops, htakes, ?_, hchars ▸ hmove⟩
          intro ss
          rw [hchars, hline]
          simp only [Bite.stretch, houtcome, tokensBehind]

theorem scan?_eq_none (h : cursor.scan? = none) : cursor.toLexeme.rest = [] := by
  unfold scan? at h
  dsimp only at h
  split at h
  · assumption
  · split at h <;> cases h

/-- **Scanning from a place on cuts what is left of the text**, and its tokens are those of the
stretches. -/
theorem Behind.scanInto (h : cursor.Behind before) (collected : List Token) :
    ∃ ss, Cuts cursor.rest ss ∧ cursor.scanInto collected
      = ⟨collected.reverse ++ tokensBehind before ss, ⟨.endOfText, "",
          (String.ofList (before ++ cursor.rest)).utf8ByteSize,
          lineBehind (before ++ cursor.rest)⟩⟩ := by
  fun_induction Cursor.scanInto collected cursor generalizing before with
  | case1 collected cursor hscan =>
      obtain ⟨gap, hsplits, hgap, -, hbehind⟩ := h.toLexeme
      rw [scan?_eq_none hscan] at hsplits hgap
      rw [List.append_nil] at hsplits
      refine ⟨[.gap gap], by rw [hsplits]; exact .finish hgap, ?_⟩
      rw [hsplits, ← hbehind.offset, ← hbehind.line]
      simp [tokensBehind, endLexeme]
  | case2 collected cursor token next hscan ih =>
      obtain ⟨gap, s, hadvances⟩ := h.scan?_eq_some hscan
      obtain ⟨ss, hcuts, heq⟩ := ih hadvances.behind
      refine ⟨.gap gap :: s :: ss, ?_, ?_⟩
      · rw [hadvances.splits]
        exact .take hadvances.isGap hadvances.stops hadvances.takes hcuts
      · rw [heq, hadvances.token, hadvances.splits]
        simp

end Cursor

/-! ## Places -/

section

variable {before : List Char} {ss : List Stretch}

/-- A token is that of one stretch, behind the characters of those in front of it. -/
theorem exists_of_mem_tokensBehind {token : Token} (h : token ∈ tokensBehind before ss) :
    ∃ front s back, ss = front ++ s :: back ∧
      tokensBehind (before ++ front.flatMap Stretch.chars) [s] = [token] := by
  induction ss generalizing before with
  | nil => cases h
  | cons s ss ih =>
      have hlater : token ∈ tokensBehind (before ++ s.chars) ss → ∃ front t back,
          s :: ss = front ++ t :: back ∧
            tokensBehind (before ++ front.flatMap Stretch.chars) [t] = [token] := by
        intro hmem
        obtain ⟨front, t, back, rfl, htoken⟩ := ih hmem
        refine ⟨s :: front, t, back, rfl, ?_⟩
        rwa [List.flatMap_cons, ← List.append_assoc]
      cases s with
      | gap chars => exact hlater h
      | lexeme kind chars =>
          rcases List.mem_cons.1 h with rfl | hmem
          · exact ⟨[], _, ss, rfl, by simp [tokensBehind]⟩
          · exact hlater hmem
      | fault f chars =>
          rcases List.mem_cons.1 h with rfl | hmem
          · exact ⟨[], _, ss, rfl, by simp [tokensBehind]⟩
          · exact hlater hmem

/-- What is taken somewhere in a text is taken from what is left there. -/
theorem Cuts.takes {text : List Char} {front back : List Stretch} {s : Stretch}
    (h : Cuts text (front ++ s :: back)) :
    (∃ chars, s = .gap chars) ∨ Takes (s.chars ++ back.flatMap Stretch.chars) s := by
  generalize hss : front ++ s :: back = ss at h
  induction h generalizing front with
  | finish _ =>
      cases front with
      | nil => exact Or.inl ⟨_, (List.cons.inj hss).1⟩
      | cons _ front => cases front <;> cases hss
  | @take gap rest t ts hgap hstop htakes more ih =>
      rcases front with _ | ⟨_, _ | ⟨_, front⟩⟩
      · exact Or.inl ⟨_, (List.cons.inj hss).1⟩
      · obtain ⟨rfl, rfl⟩ := List.cons.inj (List.cons.inj hss).2
        rw [more.flatMap_chars]
        exact Or.inr htakes
      · exact ih (List.cons.inj (List.cons.inj hss).2).2

/-- The part of a text that a lexeme stands for lies between two character boundaries, and its
line is the one that is reached at its end. -/
structure Lexeme.StandsIn (l : Lexeme) (source : String) : Prop where
  part : ∃ before after, source = before ++ l.text ++ after ∧ l.start = before.utf8ByteSize ∧
    l.line = 1 + lineFeeds (before ++ l.text)
  bounded : l.start + l.length ≤ source.utf8ByteSize
  startBoundary : String.Pos.Raw.IsValid source ⟨l.start⟩
  endBoundary : String.Pos.Raw.IsValid source ⟨l.start + l.length⟩

theorem Lexeme.StandsIn.of_part {l : Lexeme} {source : String} (before after : String)
    (hsource : source = before ++ l.text ++ after) (hstart : l.start = before.utf8ByteSize)
    (hline : l.line = 1 + lineFeeds (before ++ l.text)) : l.StandsIn source := by
  have hend : l.start + l.length = (before ++ l.text).utf8ByteSize := by
    rw [hstart, String.utf8ByteSize_append]
    rfl
  refine ⟨⟨before, after, hsource, hstart, hline⟩, ?_, ?_, ?_⟩
  · rw [hend, hsource, String.utf8ByteSize_append (t := after)]
    exact Nat.le_add_right _ _
  · rw [String.Pos.Raw.isValid_iff_exists_append]
    exact ⟨before, l.text ++ after, by rw [hsource, String.append_assoc],
      congrArg String.Pos.Raw.mk hstart⟩
  · rw [String.Pos.Raw.isValid_iff_exists_append]
    exact ⟨before ++ l.text, after, hsource, congrArg String.Pos.Raw.mk hend⟩

theorem utf8ByteSize_le_append (before chars : List Char) :
    (String.ofList before).utf8ByteSize ≤ (String.ofList (before ++ chars)).utf8ByteSize := by
  rw [String.ofList_append, String.utf8ByteSize_append]
  exact Nat.le_add_right _ _

theorem lineBehind_le_append (before chars : List Char) :
    lineBehind before ≤ lineBehind (before ++ chars) := by
  rw [lineBehind_append]
  exact Nat.le_add_right _ _

/-- The first lexeme ends before the second one begins, and not on a later line. -/
def Lexeme.Precedes (l l' : Lexeme) : Prop :=
  l.start + l.length ≤ l'.start ∧ l.line ≤ l'.line

/-- The lexemes of stretches follow each other, behind everything in front of the stretches. -/
theorem pairwise_tokensBehind (before : List Char) (ss : List Stretch) :
    ((tokensBehind before ss).filterMap Token.lexeme?).Pairwise Lexeme.Precedes ∧
      ∀ l ∈ (tokensBehind before ss).filterMap Token.lexeme?,
        (String.ofList before).utf8ByteSize ≤ l.start ∧ lineBehind before ≤ l.line := by
  induction ss generalizing before with
  | nil => exact ⟨.nil, by simp [tokensBehind]⟩
  | cons s ss ih =>
      obtain ⟨hpairwise, hbehind⟩ := ih (before ++ s.chars)
      have hbehind' : ∀ l ∈ (tokensBehind (before ++ s.chars) ss).filterMap Token.lexeme?,
          (String.ofList before).utf8ByteSize ≤ l.start ∧ lineBehind before ≤ l.line :=
        fun l hl => ⟨Nat.le_trans (utf8ByteSize_le_append before s.chars) (hbehind l hl).1,
          Nat.le_trans (lineBehind_le_append before s.chars) (hbehind l hl).2⟩
      cases s with
      | gap chars => exact ⟨hpairwise, hbehind'⟩
      | fault f chars => exact ⟨hpairwise, hbehind'⟩
      | lexeme kind chars =>
          simp only [tokensBehind, List.filterMap_cons, Token.lexeme?, List.pairwise_cons,
            List.forall_mem_cons]
          refine ⟨⟨?_, hpairwise⟩, ⟨Nat.le_refl _, lineBehind_le_append _ _⟩, hbehind'⟩
          -- the lexeme ends where the stretches behind it begin
          intro l hl
          obtain ⟨hstart, hline⟩ := hbehind l hl
          rw [Stretch.chars, String.ofList_append, String.utf8ByteSize_append] at hstart
          exact ⟨hstart, hline⟩

end

/-! ## The tokens of a text -/

theorem cuts_tokensOf (source : String) :
    ∃ ss, Cuts source.toList ss ∧ (tokensOf source).items = tokensBehind [] ss ∧
      (tokensOf source).last = ⟨.endOfText, "", source.utf8ByteSize, lineBehind source.toList⟩ := by
  have hstart : (Cursor.start source.toList).Behind [] := ⟨rfl, rfl⟩
  obtain ⟨ss, hcuts, heq⟩ := hstart.scanInto []
  have htokens : tokensOf source = _ := heq
  refine ⟨ss, hcuts, ?_, ?_⟩
  · rw [htokens]
    rfl
  · rw [htokens]
    simp [Cursor.start]

/-- The reference has one answer, and the scanner gives it. -/
theorem tokenizes_iff (source : String) (tokens : Tokens) :
    Tokenizes source tokens ↔ tokens = tokensOf source := by
  obtain ⟨ss, hcuts, hitems, hlast⟩ := cuts_tokensOf source
  constructor
  · rintro ⟨ss', hcuts', hitems', hlast'⟩
    obtain rfl := hcuts.unique hcuts'
    have hsame : tokens.items = (tokensOf source).items := hitems'.trans hitems.symm
    have hsame' : tokens.last = (tokensOf source).last := hlast'.trans hlast.symm
    cases tokens
    exact congrArg₂ Tokens.mk hsame hsame'
  · rintro rfl
    exact ⟨ss, hcuts, hitems, hlast⟩

/-- A stretch is a part of the text. -/
theorem Cuts.source_eq {source : String} {front back : List Stretch} {s : Stretch}
    (h : Cuts source.toList (front ++ s :: back)) :
    source = String.ofList (front.flatMap Stretch.chars) ++ String.ofList s.chars
      ++ String.ofList (back.flatMap Stretch.chars) := by
  have hsource := h.flatMap_chars
  rw [List.flatMap_append, List.flatMap_cons] at hsource
  rw [← String.ofList_append, ← String.ofList_append, List.append_assoc, hsource,
    String.ofList_toList]

theorem standsIn_of_mem {source : String} {l : Lexeme}
    (h : .lexeme l ∈ (tokensOf source).items) : l.StandsIn source := by
  obtain ⟨ss, hcuts, hitems, -⟩ := cuts_tokensOf source
  rw [hitems] at h
  obtain ⟨front, s, back, rfl, htoken⟩ := exists_of_mem_tokensBehind h
  cases s with
  | gap chars => cases htoken
  | fault f chars => cases htoken
  | lexeme kind chars =>
      cases htoken
      refine .of_part _ _ hcuts.source_eq rfl ?_
      rw [← String.ofList_append]
      rfl

/-- The lexeme at the end of a text stands behind everything. -/
theorem last_standsIn (source : String) : (tokensOf source).last.StandsIn source := by
  obtain ⟨-, -, -, hlast⟩ := cuts_tokensOf source
  rw [hlast]
  refine .of_part source "" ?_ rfl ?_
  · rw [String.append_empty, String.append_empty]
  · rw [String.append_empty, lineBehind, String.ofList_toList]

theorem exists_fault_place {source : String} {f : ScanFault} {line : Nat}
    (h : .fault f line ∈ (tokensOf source).items) : ∃ before chars after,
      source = before ++ chars ++ after ∧ Takes (chars ++ after).toList (.fault f chars.toList) ∧
        line = 1 + lineFeeds (before ++ chars) := by
  obtain ⟨ss, hcuts, hitems, -⟩ := cuts_tokensOf source
  rw [hitems] at h
  obtain ⟨front, s, back, rfl, htoken⟩ := exists_of_mem_tokensBehind h
  cases s with
  | gap chars => cases htoken
  | lexeme kind chars => cases htoken
  | fault f chars =>
      cases htoken
      refine ⟨_, _, _, hcuts.source_eq, ?_, ?_⟩
      · rcases hcuts.takes with ⟨_, hgap⟩ | htakes
        · cases hgap
        · rw [← String.ofList_append, String.toList_ofList, String.toList_ofList]
          exact htakes
      · rw [← String.ofList_append]
        rfl

theorem last_line_tokensOf (source : String) :
    (tokensOf source).last.line = 1 + lineFeeds source := by
  obtain ⟨-, -, -, hlast⟩ := cuts_tokensOf source
  rw [hlast, lineBehind, String.ofList_toList]

/-- No lexeme overlaps another one, and the end of the text is behind all of them. -/
theorem pairwise_lexemes (source : String) :
    ((tokensOf source).lexemes ++ [(tokensOf source).last]).Pairwise Lexeme.Precedes := by
  obtain ⟨ss, -, hitems, hlast⟩ := cuts_tokensOf source
  rw [List.pairwise_append]
  refine ⟨?_, List.pairwise_singleton _ _, ?_⟩
  · rw [Tokens.lexemes, hitems]
    exact (pairwise_tokensBehind [] ss).1
  · intro l hl l' hl'
    have hstands := standsIn_of_mem (Tokens.mem_lexemes.1 hl)
    obtain ⟨before, after, hsource, -, hline⟩ := hstands.part
    rw [List.mem_singleton.1 hl']
    refine ⟨?_, ?_⟩
    · rw [hlast]
      exact hstands.bounded
    · rw [last_line_tokensOf, hline, hsource]
      exact Nat.add_le_add_left (lineFeeds_le_append _ _) 1

/-- **The tokens of a text.** The scanner gives the tokens of the lexical grammar and no others.
The stretches that stand for them lose nothing of the text. Each lexeme stands between two
character boundaries, on the line that is reached at its end, and no two lexemes overlap. A
fault stands for an erroneous character or an open quote, and its line is the one that is
reached behind it. -/
theorem tokensOf_spec (source : String) :
    (∀ tokens, Tokenizes source tokens ↔ tokens = tokensOf source) ∧
      (∃ ss, Cuts source.toList ss ∧ ss.flatMap Stretch.chars = source.toList ∧
        (tokensOf source).items = tokensBehind [] ss) ∧
      (∀ l ∈ (tokensOf source).lexemes ++ [(tokensOf source).last], l.StandsIn source) ∧
      ((tokensOf source).lexemes ++ [(tokensOf source).last]).Pairwise
        (fun l l' => l.start + l.length ≤ l'.start) ∧
      (∀ f line, .fault f line ∈ (tokensOf source).items → ∃ before chars after,
        source = before ++ chars ++ after ∧
          Takes (chars ++ after).toList (.fault f chars.toList) ∧
          line = 1 + lineFeeds (before ++ chars)) ∧
      ScanFault.unterminatedString.message = "Unterminated string." ∧
      ScanFault.unexpectedCharacter.message = "Unexpected character" := by
  obtain ⟨ss, hcuts, hitems, -⟩ := cuts_tokensOf source
  refine ⟨tokenizes_iff source, ⟨ss, hcuts, hcuts.flatMap_chars, hitems⟩, ?_,
    (pairwise_lexemes source).imp And.left, fun f line h => exists_fault_place h, rfl, rfl⟩
  intro l hl
  rcases List.mem_append.1 hl with hl | hl
  · exact standsIn_of_mem (Tokens.mem_lexemes.1 hl)
  · rw [List.mem_singleton.1 hl]
    exact last_standsIn source

end LoxArith
