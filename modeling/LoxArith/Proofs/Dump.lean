import LoxArith.CommandLine.Report
import LoxArith.Proofs.Extent
import LoxArith.Proofs.Machine.Reuse
import LoxArith.Proofs.Numeral
import LoxArith.Proofs.Reload

set_option autoImplicit false

/-! # Reloading a dump

What `disassemble --json` prints for a text is read back, unless a literal of the text is infinite.
The chunk that is read runs as the compiled one does: both return a value, or both stop with the
same error on the same line, because code and lines are the same and the machine decides by nothing
else (`Chunk.Matches.run`). The values are the same as well if the constants are, which they are
where the reader makes no inexact step.
-/

namespace LoxArith

/-! ## Constants and literals -/

/-- The constants of compiled code are the values of the number lexemes. -/
theorem mem_constants_iff {source : String} {chunk : Chunk} (h : compile source = .ok chunk)
    {x : Float} : x ∈ chunk.constants.toList ↔
      ∃ l ∈ (tokensOf source).lexemes, l.kind = .number ∧ literalValue l.text = x := by
  obtain ⟨s, hs, -, -, rfl⟩ := compile_eq_ok_iff.1 h
  rw [Array.mem_toList_iff, (s.program_pools _).mem, Expr.constants, List.mem_map, hs.literals]
  constructor
  · rintro ⟨l, hl, rfl⟩
    obtain ⟨token, htoken, hnumber⟩ := List.mem_filterMap.1 hl
    cases token with
    | fault f line => cases hnumber
    | lexeme l' =>
        rw [Token.number?] at hnumber
        split at hnumber
        · rename_i hkind
          cases hnumber
          exact ⟨l, Tokens.mem_lexemes.2 htoken, hkind, rfl⟩
        · cases hnumber
  · rintro ⟨l, hl, hkind, rfl⟩
    exact ⟨l, List.mem_filterMap.2 ⟨_, Tokens.mem_lexemes.1 hl, if_pos hkind⟩, rfl⟩

theorem finite_constants_iff {source : String} {chunk : Chunk} (h : compile source = .ok chunk) :
    (∀ x ∈ chunk.constants.toList, x.isFinite = true) ↔
      ∀ l ∈ (tokensOf source).lexemes, l.kind = .number →
        (literalValue l.text).isFinite = true := by
  constructor
  · intro hfinite l hl hkind
    exact hfinite _ ((mem_constants_iff h).2 ⟨l, hl, hkind, rfl⟩)
  · intro hfinite x hx
    obtain ⟨l, hl, hkind, rfl⟩ := (mem_constants_iff h).1 hx
    exact hfinite l hl hkind

theorem inWords_of_compile {source : String} {chunk : Chunk} (h : compile source = .ok chunk)
    (hlength : source.length < 2 ^ 63) : chunk.InWords := by
  intro run hrun
  obtain ⟨hline, hcount⟩ := compiled_extent h run (by simpa using hrun)
  refine ⟨?_, ?_⟩ <;> unfold wordBound <;> omega

/-! ## Runs of the chunk that was read -/

namespace Chunk

variable {c c' : Chunk}

/-- With no condition on the constants the runs stop in the same way. -/
theorem ReadAs.run_error (h : c.ReadAs c') (s s' : Stack) (e : RuntimeError) :
    (c.run s).result = .error e ↔ (c'.run s').result = .error e := by
  have hmatches : Matches (fun _ _ => True) c c' :=
    ⟨h.code.symm, h.constants.imp fun _ _ _ => trivial⟩
  have hline : ∀ offset, c'.line? offset = c.line? offset := fun offset => by
    rw [line?, line?, h.lines]
  obtain ⟨-, hresult, -⟩ := hmatches.run respects_true s s'
  generalize (c.run s).result = result at hresult ⊢
  generalize (c'.run s').result = result' at hresult ⊢
  cases hresult with
  | value _ =>
      constructor
      · intro he
        cases he
      · intro he
        cases he
  | fault offset f => rw [hline]

/-- Where the reader makes no inexact step, the chunk itself is read. -/
theorem ReadAs.eq (h : c.ReadAs c') (hexact : ∀ x ∈ c.constants.toList, inexactSteps x = 0) :
    c' = c := by
  have hsame : ∀ {xs ys : List Float}, (∀ x ∈ xs, inexactSteps x = 0) →
      List.Forall₂ (fun x y => ReadsBack (inexactSteps x) x y ∧
        (inexactSteps x = 0 → y = x)) xs ys → ys = xs := by
    intro xs ys hzero hall
    induction hall with
    | nil => rfl
    | cons hxy _ ih =>
        rw [hxy.2 (hzero _ List.mem_cons_self), ih fun x hx => hzero x (List.mem_cons_of_mem _ hx)]
  have hcode := h.code
  have hlines := h.lines
  have hconstants := Array.toList_inj.1 (hsame hexact h.constants)
  cases c
  cases c'
  cases hcode
  cases hlines
  cases hconstants
  rfl

end Chunk

/-! ## The dump of a text -/

theorem out_disassembleFile {source : String} {chunk : Chunk} (h : compile source = .ok chunk)
    (path : String) : (disassembleFile path true (.ok source)).out
      = Json.writeAt (some 0) "" chunk.toJson ++ "\n" := by
  rw [disassembleFile, h]
  rfl

theorem isSpace_lineFeed : ∀ b ∈ "\n".toList, isSpace b = true := by simp [isSpace]

/-- **A dump is reloaded.** For a text that compiles, and that a machine of 64 bits can hold, the
document that is printed is accepted if and only if the value of each literal is finite. Running the
chunk that is read gives an error if and only if running the compiled chunk gives the same error on
the same line. If the reader makes no inexact step on a constant, it is the compiled chunk that is
read, and the values of the runs are the same too. -/
theorem reload_dump {source : String} {chunk : Chunk} (h : compile source = .ok chunk)
    (hlength : source.length < 2 ^ 63) (path : String) :
    ((∃ c', Chunk.ofText? (disassembleFile path true (.ok source)).out = some c') ↔
      ∀ l ∈ (tokensOf source).lexemes, l.kind = .number →
        (literalValue l.text).isFinite = true) ∧
    ∀ c', Chunk.ofText? (disassembleFile path true (.ok source)).out = some c' →
      chunk.ReadAs c' ∧
      (∀ s s' e, (chunk.run s).result = .error e ↔ (c'.run s').result = .error e) ∧
      ((∀ x ∈ chunk.constants.toList, inexactSteps x = 0) →
        c' = chunk ∧ ∀ s s', (c'.run s').result = (chunk.run s).result) := by
  have hwords := inWords_of_compile h hlength
  rw [out_disassembleFile h, ← finite_constants_iff h]
  refine ⟨Chunk.exists_ofText?_iff (some 0) hwords isSpace_lineFeed, ?_⟩
  intro c' hc'
  have hread := Chunk.readAs_of_ofText? (some 0) hwords isSpace_lineFeed hc'
  refine ⟨hread, fun s s' e => hread.run_error s s' e, ?_⟩
  intro hexact
  obtain rfl := hread.eq hexact
  exact ⟨rfl, fun s s' => Chunk.result_run_eq _ s' s⟩

/-- The dump of `8-2` is reloaded as the compiled chunk. -/
theorem reload_dump_difference :
    Chunk.ofText? (disassembleFile "difference.lox" true (.ok "8-2")).out
      = some (Phrase.difference.program 1) := by
  have hlexemes : (tokensOf "8-2").lexemes
      = [⟨.number, "8", 0, 1⟩, ⟨.minus, "-", 1, 1⟩, ⟨.number, "2", 2, 1⟩] := by decide +kernel
  have hfinite : (literalValue "8").isFinite = true ∧ (literalValue "2").isFinite = true := by
    decide +kernel
  have hexact : inexactSteps (literalValue "8") = 0 ∧ inexactSteps (literalValue "2") = 0 := by
    have height : magnitudeOf (literalValue "8") = .finite 0x4020000000000000 := by decide +kernel
    have htwo : magnitudeOf (literalValue "2") = .finite 0x4000000000000000 := by decide +kernel
    rw [inexactSteps, inexactSteps,
      double_of_search height (by decide) (d := ⟨8, 1074⟩) (by decide +kernel) (by decide),
      double_of_search htwo (by decide) (d := ⟨2, 1074⟩) (by decide +kernel) (by decide)]
    decide +kernel
  have hvalues : ∀ l ∈ (tokensOf "8-2").lexemes, l.kind = .number →
      (literalValue l.text).isFinite = true ∧ inexactSteps (literalValue l.text) = 0 := by
    rw [hlexemes]
    intro l hl hkind
    simp only [List.mem_cons, List.not_mem_nil, or_false] at hl
    rcases hl with rfl | rfl | rfl
    · exact ⟨hfinite.1, hexact.1⟩
    · cases hkind
    · exact ⟨hfinite.2, hexact.2⟩
  obtain ⟨haccepted, hreads⟩ := reload_dump compile_difference (by decide) "difference.lox"
  obtain ⟨c', hc'⟩ := haccepted.2 fun l hl hkind => (hvalues l hl hkind).1
  have hsame := (hreads c' hc').2.2 fun x hx => by
    obtain ⟨l, hl, hkind, rfl⟩ := (mem_constants_iff compile_difference).1 hx
    exact (hvalues l hl hkind).2
  rw [hc', hsame.1]

/-! ## Dumps that are not reloaded -/

/-- The phrase of a literal that is the whole text. -/
def Phrase.ofDigits (chars : List Char) : Phrase := .number ⟨.number, String.ofList chars, 0, 1⟩

theorem Phrase.program_ofDigits (chars : List Char) :
    (Phrase.ofDigits chars).program 1
      = ⟨#[0, 0, 1], #[literalValue (String.ofList chars)], ⟨#[⟨1, 3⟩]⟩⟩ := by
  have hbytes : OpCode.constant.toByte = 0 ∧ OpCode.return.toByte = 1 := ⟨rfl, rfl⟩
  have hlines : ((({} : LineTable).append 1).append 1).append 1 = ⟨#[⟨1, 3⟩]⟩ := by decide
  simp [ofDigits, program, emit, Chunk.load, Chunk.addConstant, Chunk.writeOp, Chunk.write, hbytes,
    hlines]

theorem compile_digits {chars : List Char} (h : IsDigits chars) :
    compile (String.ofList chars) = .ok ((Phrase.ofDigits chars).program 1) :=
  compile_numeral false (.integer h)

theorem run_digits (chars : List Char) (s : Stack) :
    (((Phrase.ofDigits chars).program 1).run s).result
      = .ok (literalValue (String.ofList chars)) :=
  run_numeral false chars s

theorem ofText?_digits {chars : List Char} (h : IsDigits chars) (path : String) :
    Chunk.ofText? (disassembleFile path true (.ok (String.ofList chars))).out
      = (Json.double (literalValue (String.ofList chars))).double?.map
        fun y => ⟨#[0, 0, 1], #[y], ⟨#[⟨1, 3⟩]⟩⟩ := by
  have hwords : ((Phrase.ofDigits chars).program 1).InWords := by
    rw [Phrase.program_ofDigits]
    intro run hrun
    obtain rfl : run = ⟨1, 3⟩ := by simpa using hrun
    exact ⟨by decide, by decide⟩
  rw [out_disassembleFile (compile_digits h),
    Chunk.ofText?_writeAt (some 0) hwords isSpace_lineFeed, Phrase.program_ofDigits]
  show ([literalValue (String.ofList chars)].mapM fun x => (Json.double x).double?).map _ = _
  rw [List.mapM_cons]
  cases (Json.double (literalValue (String.ofList chars))).double? <;> rfl

/-- Sixteen digits, the last of which is given. -/
def sixteenDigits (last : Char) : List Char :=
  ['9', '0', '0', '7', '1', '9', '9', '2', '5', '4', '7', '4', '0', '9', '9', last]

/-- Two dumps that are not reloaded: an integer with 16 digits, which is reloaded as the chunk of
another integer, and a literal that is infinite, which is refused. -/
theorem dump_not_reloaded :
    (∃ chunk chunk' x y, compile "9007199254740991" = .ok chunk ∧
      Chunk.ofText? (disassembleFile "odd.lox" true (.ok "9007199254740991")).out = some chunk' ∧
      (chunk.run Stack.empty).result = .ok x ∧ (chunk'.run Stack.empty).result = .ok y ∧
      x.toBits = 0x433fffffffffffff ∧ y.toBits = 0x433ffffffffffffe) ∧
    ∃ chunk, compile (String.ofList (List.replicate 400 '9')) = .ok chunk ∧
      Chunk.ofText? (disassembleFile "nines.lox" true
        (.ok (String.ofList (List.replicate 400 '9')))).out = none := by
  have hodd : IsDigits (sixteenDigits '1') := isDigits_iff.2 ⟨by decide, List.all_eq_true.1 rfl⟩
  have heven : IsDigits (sixteenDigits '0') := isDigits_iff.2 ⟨by decide, List.all_eq_true.1 rfl⟩
  have hnines : IsDigits (List.replicate 400 '9') :=
    ⟨List.cons_ne_nil _ _, fun c hc => by rw [List.eq_of_mem_replicate hc]; decide⟩
  refine ⟨?_, _, compile_digits hnines, ?_⟩
  · -- the chunk that is read is that of the text with another last digit
    have hvalue : literalValue (String.ofList (sixteenDigits '1')) = Chunk.oddInteger := by
      rw [literalValue_digits hodd]
      exact toBits_injective (by decide +kernel)
    have hnext : literalValue (String.ofList (sixteenDigits '0'))
        = Float.ofBits 0x433ffffffffffffe := by
      rw [literalValue_digits heven]
      exact toBits_injective (by decide +kernel)
    have hread := ofText?_digits hodd "odd.lox"
    have hrun := run_digits (sixteenDigits '1') Stack.empty
    have hrun' := run_digits (sixteenDigits '0') Stack.empty
    rw [hvalue, Chunk.double?_oddInteger] at hread
    rw [hvalue] at hrun
    rw [Phrase.program_ofDigits, hnext] at hrun'
    exact ⟨_, _, _, _, compile_digits hodd, hread, hrun, hrun', by decide +kernel,
      by decide +kernel⟩
  · have hinfinite : ¬(literalValue (String.ofList (List.replicate 400 '9'))).isFinite = true := by
      rw [literalValue_digits hnines, isFinite_iff]
      decide +kernel
    rw [ofText?_digits hnines, double?_eq_none hinfinite]
    rfl

end LoxArith
