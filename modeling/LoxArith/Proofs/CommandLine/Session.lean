import LoxArith.Proofs.CommandLine.Run

set_option autoImplicit false

/-! # Lines are answered each for itself

The input of a session is cut behind each line feed (`CutsInto`), in one way only. What the session
shows and complains of is that of its lines in a row (`Session.continueWith_append`), and what it
is for one line is a matter of that line: nothing for a blank one, and else what executing the text
without the blanks around it gives, on a stack that was not used before (`Session.answer_eq`).
Nothing is carried from line to line but the reports, and these are only appended to.

The session ends with the input, or with the first line that is no text.
-/

namespace LoxArith

/-! ## Cutting the input -/

/-- An input is cut into lines: each ends with the line feed, which it has nowhere else; the last
one may lack it, but is not empty. -/
inductive CutsInto : List UInt8 → List (List UInt8) → Prop
  | nothing : CutsInto [] []
  | unended {body : List UInt8} (hbody : 10 ∉ body) (hne : body ≠ []) : CutsInto body [body]
  | ended {body input : List UInt8} {lines : List (List UInt8)} (hbody : 10 ∉ body)
      (more : CutsInto input lines) : CutsInto (body ++ 10 :: input) ((body ++ [10]) :: lines)

namespace Session

theorem linesInto_reverse (lines : List (List UInt8)) (current input : List UInt8) :
    linesInto lines current input = lines.reverse ++ linesInto [] current input := by
  induction input generalizing lines current with
  | nil =>
      unfold linesInto
      split <;> simp
  | cons byte input ih =>
      unfold linesInto
      split
      · rw [ih, ih [(byte :: current).reverse], List.reverse_cons, List.append_assoc]
        rfl
      · exact ih lines (byte :: current)

/-- Bytes without a line feed are collected. -/
theorem linesInto_append {body : List UInt8} (hbody : 10 ∉ body) (lines : List (List UInt8))
    (current input : List UInt8) :
    linesInto lines current (body ++ input) = linesInto lines (body.reverse ++ current) input := by
  induction body generalizing current with
  | nil => rfl
  | cons byte body ih =>
      rw [List.mem_cons, not_or] at hbody
      rw [List.cons_append, linesInto, if_neg (Ne.symm hbody.1), ih hbody.2, List.reverse_cons,
        List.append_assoc]
      rfl

end Session

namespace CutsInto

variable {input : List UInt8} {lines : List (List UInt8)}

theorem linesInto_eq (h : CutsInto input lines) : Session.linesInto [] [] input = lines := by
  induction h with
  | nothing => rfl
  | @unended body hbody hne =>
      rw [← List.append_nil body, Session.linesInto_append hbody, List.append_nil, List.append_nil,
        Session.linesInto, if_neg (by simpa using hne), List.reverse_reverse]
      rfl
  | @ended body input lines hbody more ih =>
      rw [Session.linesInto_append hbody, Session.linesInto, if_pos rfl, Session.linesInto_reverse,
        ih]
      simp

theorem exists_lines (input : List UInt8) : ∃ lines, CutsInto input lines := by
  induction input with
  | nil => exact ⟨[], .nothing⟩
  | cons byte input ih =>
      obtain ⟨lines, hlines⟩ := ih
      by_cases hbyte : 10 = byte
      · subst hbyte
        exact ⟨_, @ended [] _ _ List.not_mem_nil hlines⟩
      · -- the byte joins the first line
        cases hlines with
        | nothing => exact ⟨_, @unended [byte] (by simpa using hbyte) (by simp)⟩
        | unended hbody _ =>
            exact ⟨_, @unended (byte :: _) (by simp [hbyte, hbody]) (by simp)⟩
        | ended hbody more =>
            exact ⟨_, @ended (byte :: _) _ _ (by simp [hbyte, hbody]) more⟩

/-- **The lines of a session are those that its input is cut into.** -/
theorem iff_eq (input : ByteArray) (lines : List (List UInt8)) :
    CutsInto input.data.toList lines ↔ lines = Session.linesOf input := by
  constructor
  · intro h
    exact h.linesInto_eq.symm
  · rintro rfl
    obtain ⟨lines, hlines⟩ := exists_lines input.data.toList
    rwa [Session.linesOf, hlines.linesInto_eq]

end CutsInto

/-! ## Answering one line -/

/-- All characters of the text are blank. -/
def IsBlankText (text : String) : Prop := ∀ c ∈ text.toList, isBlank c = true

instance (text : String) : Decidable (IsBlankText text) :=
  List.decidableBAll (isBlank · = true) text.toList

/-- Nothing is left of a blank text, and of no other, without the blanks at its ends. -/
theorem isEmpty_trimBlanks_iff (text : String) :
    (trimBlanks text).isEmpty = true ↔ IsBlankText text := by
  have hempty : (trimBlanks text).isEmpty = true ↔ text.toList.dropWhile isBlank = [] := by
    rw [trimBlanks, String.isEmpty_iff, ← String.toList_inj, String.toList_ofList]
    show _ = [] ↔ _
    rw [List.reverse_eq_nil_iff, List.dropWhile_eq_nil_iff]
    constructor
    · intro hall
      cases hrest : text.toList.dropWhile isBlank with
      | nil => rfl
      | cons c rest =>
          have hblank : isBlank c = true := hall c (by simp [hrest])
          have hhead := List.head_dropWhile_not isBlank (l := text.toList) (by simp [hrest])
          simp [hrest, hblank] at hhead
    · intro hnil c hc
      rw [hnil] at hc
      cases hc
  rw [hempty, List.dropWhile_eq_nil_iff]
  rfl

/-- What is shown of a line: nothing of a blank one, and else what is shown of the text without the
blanks at its ends, and its value. -/
def shownOfLine (printCode trace : Bool) (line : String) : String :=
  if IsBlankText line then "" else
    shownOf printCode trace (trimBlanks line)
      ++ valueLine (interpret (trimBlanks line) .empty).result

/-- What is complained of a line. -/
def failureOfLine (line : String) : String :=
  if IsBlankText line then "" else failureLine (interpret (trimBlanks line) .empty).result

namespace Session

theorem answer_eq (settings : Settings) (line : String) :
    (answer settings line).out = shownOfLine settings.printCode settings.trace line ∧
      (answer settings line).err = failureOfLine line := by
  unfold answer shownOfLine failureOfLine
  dsimp only
  by_cases hblank : IsBlankText line
  · rw [if_pos hblank, if_pos hblank, if_pos ((isEmpty_trimBlanks_iff line).2 hblank)]
    exact ⟨rfl, rfl⟩
  · rw [if_neg hblank, if_neg hblank, if_neg (mt (isEmpty_trimBlanks_iff line).1 hblank),
      Execution.report_eq, execute_eq]
    exact ⟨rfl, rfl⟩

/-! ## Answering one line after the other -/

/-- The lines in front are answered, and the session goes on with those behind. -/
theorem continueWith_append (settings : Settings) (shown : Report) {front : List (List UInt8)}
    {texts : List String} (h : front.map lineText? = texts.map some)
    (behind : List (List UInt8)) :
    continueWith settings shown (front ++ behind) = continueWith settings
      (showing shown
        (String.join (texts.map fun text => settings.prompt ++ (answer settings text).out))
        (String.join (texts.map fun text => (answer settings text).err))) behind := by
  induction front generalizing shown texts with
  | nil =>
      obtain rfl : texts = [] := List.map_eq_nil_iff.1 h.symm
      simp [showing]
  | cons line front ih =>
      cases texts with
      | nil => cases h
      | cons text texts =>
          rw [List.map_cons, List.map_cons] at h
          obtain ⟨hline, hfront⟩ := List.cons.inj h
          rw [List.cons_append, continueWith, hline]
          dsimp only
          rw [ih _ hfront]
          simp [showing, String.append_assoc]

/-- The lines of an input are texts, or the first of them that is no text comes behind texts. -/
theorem exists_texts (lines : List (List UInt8)) :
    (∃ texts : List String, lines.map lineText? = texts.map some) ∨
      ∃ (front : List (List UInt8)) (texts : List String) (line : List UInt8)
        (behind : List (List UInt8)), lines = front ++ line :: behind ∧
          front.map lineText? = texts.map some ∧ lineText? line = none := by
  induction lines with
  | nil => exact Or.inl ⟨[], rfl⟩
  | cons line lines ih =>
      cases hline : lineText? line with
      | none => exact Or.inr ⟨[], [], line, lines, rfl, rfl, hline⟩
      | some text =>
          rcases ih with ⟨texts, hlines⟩ | ⟨front, texts, failed, behind, rfl, hfront, hfailed⟩
          · exact Or.inl ⟨text :: texts, by simp [hline, hlines]⟩
          · exact Or.inr ⟨line :: front, text :: texts, failed, behind, rfl,
              by simp [hline, hfront], hfailed⟩

end Session

/-! ## The session -/

/-- The arguments ask for the interactive session. -/
def AsksForSession (arguments : List String) : Prop :=
  ∃ invocation, Invocation.ofArguments? arguments = .ok invocation ∧ invocation.command = .repl

/-- **A session is the concatenation of its lines.** The input is cut into lines in one way. For
each line in their order the session shows the prompt and what is shown of this line, and complains
of what fails in this line. If all lines are texts, there is the prompt once more and a line feed,
and the status is zero, whatever has failed. Otherwise the session ends at the first line that is no
text: behind the lines before it there is the prompt once more, and the error of reading it, which
also decides the status. Nothing is written to the tree.

As everywhere, no log is asked for (`RUST_LOG` is not set), and the outputs accept all that is
written to them. -/
theorem session_report {arguments : List String} (h : AsksForSession arguments)
    (tree : FileTree) (env : Environment) (input : ByteArray) :
    let prompt := promptOf tree env
    let shown := fun line => prompt ++
      shownOfLine (decide (PrintsCode tree env arguments)) (decide (Traces tree env arguments)) line
    (performOn tree env input arguments).2 = tree ∧
    ∃ lines, (∀ other, CutsInto input.data.toList other ↔ other = lines) ∧
      ((∃ texts : List String, lines.map Session.lineText? = texts.map some ∧
        (performOn tree env input arguments).1 = ⟨0,
          String.join (texts.map shown) ++ prompt ++ "\n",
          String.join (texts.map failureOfLine)⟩) ∨
      (∃ (texts : List String) (behind : List (Option String)),
        lines.map Session.lineText? = texts.map some ++ none :: behind ∧
        (performOn tree env input arguments).1 = ⟨74,
          String.join (texts.map shown) ++ prompt,
          String.join (texts.map failureOfLine)
            ++ "IOError: stream did not contain valid UTF-8\n"⟩)) := by
  intro prompt shown
  obtain ⟨invocation, hok, hcommand⟩ := h
  obtain ⟨settings, hprint, htrace, hprompt, hperform⟩ := performOn_command hok tree env input
  rw [hcommand] at hperform
  have hreport : (performOn tree env input arguments).1
      = Session.continueWith settings {} (Session.linesOf input) := by
    rw [hperform]
    rfl
  have hshown : (fun text => settings.prompt ++ (Session.answer settings text).out) = shown := by
    funext text
    rw [(Session.answer_eq settings text).1, hprint, htrace, hprompt]
  have hfailure : (fun text => (Session.answer settings text).err) = failureOfLine := by
    funext text
    exact (Session.answer_eq settings text).2
  refine ⟨by rw [hperform]; rfl, Session.linesOf input, CutsInto.iff_eq input, ?_⟩
  rw [hreport]
  rcases Session.exists_texts (Session.linesOf input) with ⟨texts, htexts⟩ |
    ⟨front, texts, line, behind, hlines, hfront, hline⟩
  · have hrun := Session.continueWith_append settings {} htexts []
    rw [List.append_nil] at hrun
    refine Or.inl ⟨texts, htexts, ?_⟩
    rw [hrun, hshown, hfailure, Session.continueWith, hprompt]
    simp [Session.showing, prompt, String.append_assoc]
  · refine Or.inr ⟨texts, behind.map Session.lineText?, ?_, ?_⟩
    · rw [hlines, List.map_append, hfront, List.map_cons, hline]
    · rw [hlines, Session.continueWith_append settings {} hfront, hshown, hfailure,
        Session.continueWith, hline, hprompt]
      simp [Session.showing, prompt, Report.ofFileError, FileError.text, Status.fileError]

/-- The second line is blank, the third one does not compile, and the last one is no text. -/
theorem session_report_notText :
    AsksForSession [] ∧
      CutsInto [49, 10, 32, 10, 41, 10, 255] [[49, 10], [32, 10], [41, 10], [255]] ∧
      (performOn {} {} ⟨#[49, 10, 32, 10, 41, 10, 255]⟩ []).1.status = 74 ∧
      (performOn {} {} ⟨#[49, 10, 32, 10, 41, 10, 255]⟩ []).1.err
        = failureLine (interpret ")" .empty).result
          ++ "IOError: stream did not contain valid UTF-8\n" := by
  have hasks : AsksForSession [] := ⟨⟨false, false, .repl⟩, rfl, rfl⟩
  have hcuts : CutsInto [49, 10, 32, 10, 41, 10, 255] [[49, 10], [32, 10], [41, 10], [255]] :=
    (CutsInto.iff_eq ⟨#[49, 10, 32, 10, 41, 10, 255]⟩ _).2 rfl
  obtain ⟨-, lines, hlines, hcase⟩ := session_report hasks {} {} ⟨#[49, 10, 32, 10, 41, 10, 255]⟩
  obtain rfl := (hlines _).1 hcuts
  have htexts : [[49, 10], [32, 10], [41, 10], [255]].map Session.lineText?
      = [some "1\n", some " \n", some ")\n", none] := by decide +kernel
  rw [htexts] at hcase
  have hvalue : failureOfLine "1\n" = "" := by decide +kernel
  have hblank : failureOfLine " \n" = "" := by decide +kernel
  have hfailed : failureOfLine ")\n" = failureLine (interpret ")" .empty).result := by
    rw [failureOfLine, if_neg (by decide +kernel),
      show trimBlanks ")\n" = ")" by decide +kernel]
  rcases hcase with ⟨texts, heq, -⟩ | ⟨texts, behind, heq, hreport⟩
  · rcases texts with _ | ⟨_, _ | ⟨_, _ | ⟨_, _ | ⟨_, texts⟩⟩⟩⟩
    all_goals simp at heq
  · rcases texts with _ | ⟨_, _ | ⟨_, _ | ⟨_, _ | ⟨_, texts⟩⟩⟩⟩
    all_goals simp at heq
    obtain ⟨rfl, rfl, rfl, rfl⟩ := heq
    rw [hreport]
    refine ⟨hasks, hcuts, rfl, ?_⟩
    simp [hvalue, hblank, hfailed]

end LoxArith
