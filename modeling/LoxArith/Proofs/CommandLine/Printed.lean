import LoxArith.Proofs.CommandLine.Run
import LoxArith.Proofs.Layout
import LoxArith.Proofs.Machine.Reuse
import LoxArith.Proofs.Numeral

set_option autoImplicit false

/-! # Typing a result back

What is printed as a result is again a text of the language, as long as the result is finite: a
number, with a sign in front of it or not (`exists_display`). Interpreting it gives the same double,
bit by bit (`interpret_display`), and so does interpreting the line that the program prints, since a
line feed at the end of a text does not matter (`interpret_lineFeed`).
-/

namespace LoxArith

/-- A finite double is what its printed form is interpreted as. -/
theorem interpret_display {x : Float} (h : x.isFinite = true) (s : Stack) :
    (interpret (display x) s).result = .ok x := by
  obtain ⟨word, hword, hdisplay, hvalue⟩ := exists_display h
  calc (interpret (display x) s).result
      = (interpret (String.ofList (signOf (isNegative x) ++ word)) s).result := by rw [hdisplay]
    _ = .ok (if isNegative x then -doubleOfRank false (rankOf x)
          else doubleOfRank false (rankOf x)) := by rw [interpret_numeral _ hword, hvalue]
    _ = .ok x := by rw [signed_rankOf h]

theorem interpret_eq (source : String) (s s' : Stack) :
    (interpret source s).result = (interpret source s').result :=
  congrArg Answer.result ((Call.interpret source).answer_eq s s')

/-- A text with a value keeps it if a line feed is added at its end. -/
theorem interpret_lineFeed {source : String} {s : Stack} {x : Float}
    (h : (interpret source s).result = .ok x) (s' : Stack) :
    (interpret (source ++ "\n") s').result = .ok x := by
  -- a text that compiles has no open quote, so the line feed falls outside of all lexemes
  have hclosed : ∀ line, .fault .unterminatedString line ∉ (tokensOf (source ++ "")).items := by
    intro line hmem
    cases hcompile : compile source with
    | error error => simp [interpret, hcompile] at h
    | ok chunk =>
        obtain ⟨-, ⟨lexemes, hitems, -⟩, -⟩ := compile_eq_ok_iff.1 hcompile
        rw [String.append_empty, hitems] at hmem
        obtain ⟨l, -, hl⟩ := List.mem_map.1 hmem
        cases hl
  have hspacing : IsSpacing "\n".toList := ⟨'\n', [], rfl, rfl, .nil⟩
  have hplace : source.utf8ByteSize = (tokensOf (source ++ "")).last.start := by
    rw [String.append_empty]
    obtain ⟨-, -, -, hlast⟩ := cuts_tokensOf source
    rw [hlast]
  obtain ⟨hitems, hlast⟩ := content_tokensOf_insert
    (List.mem_append_right _ (List.mem_singleton_self _)) (Or.inl hplace) hclosed hspacing
  rw [String.append_empty, String.append_empty] at hitems hlast
  have hanswer := (sameProgram_of_content hitems.symm hlast.symm).answer s s'
  rw [h] at hanswer
  generalize (interpret (source ++ "\n") s').result = result at hanswer ⊢
  cases hanswer with
  | value v => rfl

/-- **Printed results can be typed back.** A finite double, the zeros and the smallest and largest
ones included, is printed as a number of the lexical grammar behind its sign, and interpreting this
text gives the double itself. So if interpreting a text gives a finite double, it is given again by
what is printed for it, also by the whole output of a run that shows neither code nor trace. -/
theorem printed_typed_back :
    (∀ x : Float, x.isFinite = true →
      (∃ word, IsNumber word ∧ display x = String.ofList (signChars x ++ word)) ∧
      ∀ stack, (interpret (display x) stack).result = .ok x) ∧
    ∀ source stack x, (interpret source stack).result = .ok x → x.isFinite = true →
      (∀ stack', (interpret (display x) stack').result = .ok x) ∧
      ∀ (settings : Settings) (path : String), settings.printCode = false →
        settings.trace = false →
        (runFile settings path (.ok source)).out = display x ++ "\n" ∧
        ∀ stack', (interpret (runFile settings path (.ok source)).out stack').result = .ok x := by
  constructor
  · intro x hfinite
    obtain ⟨word, hword, hdisplay, -⟩ := exists_display hfinite
    exact ⟨⟨word, hword, hdisplay⟩, interpret_display hfinite⟩
  · intro source stack x hresult hfinite
    refine ⟨interpret_display hfinite, fun settings path hcode htrace => ?_⟩
    have hout : (runFile settings path (.ok source)).out = display x ++ "\n" := by
      have hshown : shownOf false false source = "" := by
        unfold shownOf
        split <;> rfl
      rw [runFile_eq]
      dsimp only
      rw [hcode, htrace, hshown, interpret_eq source .empty stack, hresult, String.empty_append]
      rfl
    rw [hout]
    exact ⟨rfl, interpret_lineFeed (interpret_display hfinite .empty)⟩

/-- A negative result with a fraction. -/
theorem printed_typed_back_half :
    (-2.5 : Float).isFinite = true ∧ (interpret "-2.5" .empty).result = .ok (-2.5) ∧
      (runFile { name := "default" } "half.lox" (.ok "-2.5")).out = "-2.5\n" ∧
      (interpret "-2.5\n" .empty).result = .ok (-2.5) := by
  have hfinite : (-2.5 : Float).isFinite = true := by decide +kernel
  have hdisplay : display (-2.5) = "-2.5" := by
    have hmagnitude : magnitudeOf (-2.5) = .finite 0x4004000000000000 := by decide +kernel
    have hdigits : shortestDecimal .larger 0x4004000000000000 = ⟨25, 1073⟩ :=
      shortestDecimal_of_search (by decide +kernel) (by decide)
    have hsign : isNegative (-2.5) = true := by decide +kernel
    rw [display, hmagnitude]
    dsimp only
    rw [hdigits, signChars, hsign]
    decide +kernel
  obtain ⟨hnumbers, hresults⟩ := printed_typed_back
  have hresult := (hnumbers _ hfinite).2 .empty
  rw [hdisplay] at hresult
  obtain ⟨-, hruns⟩ := hresults _ _ _ hresult hfinite
  obtain ⟨hout, hagain⟩ := hruns { name := "default" } "half.lox" rfl rfl
  have hline : display (-2.5) ++ "\n" = "-2.5\n" := by rw [hdisplay]; decide
  rw [hline] at hout
  rw [hout] at hagain
  exact ⟨hfinite, hresult, hout, hagain .empty⟩

end LoxArith
