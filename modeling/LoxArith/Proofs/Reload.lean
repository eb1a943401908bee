import LoxArith.Chunk.Json
import LoxArith.Proofs.Json.Numbers
import LoxArith.Proofs.Number.ReadBack

set_option autoImplicit false

/-! # A chunk is read back from its document

The code and the lines of a chunk are read back as they were written, whether or not they fit each
other. A constant is read as a double of the same sign that is at most three ranks away, and as the
constant itself where the reader makes no inexact step (`Chunk.read_written`). What is infinite or
not a number is written as null, and then the whole text is refused.
-/

namespace LoxArith

/-! ## Lists that are read item by item -/

section

variable {α β : Type} {f : α → Option β}

theorem mapM_eq_some_self {g : β → α} {l : List β} (h : ∀ b ∈ l, f (g b) = some b) :
    (l.map g).mapM f = some l := by
  induction l with
  | nil => rfl
  | cons b l ih =>
      rw [List.map_cons, List.mapM_cons, h b List.mem_cons_self,
        ih fun b' hb' => h b' (List.mem_cons_of_mem _ hb')]
      rfl

theorem exists_mapM {R : α → β → Prop} {l : List α} (h : ∀ a ∈ l, ∃ b, f a = some b ∧ R a b) :
    ∃ bs, l.mapM f = some bs ∧ List.Forall₂ R l bs := by
  induction l with
  | nil => exact ⟨[], rfl, .nil⟩
  | cons a l ih =>
      obtain ⟨b, hb, hR⟩ := h a List.mem_cons_self
      obtain ⟨bs, hbs, hall⟩ := ih fun a' ha' => h a' (List.mem_cons_of_mem _ ha')
      refine ⟨b :: bs, ?_, .cons hR hall⟩
      rw [List.mapM_cons, hb, hbs]
      rfl

theorem mapM_eq_none {l : List α} {a : α} (ha : a ∈ l) (h : f a = none) : l.mapM f = none := by
  induction l with
  | nil => cases ha
  | cons a' l ih =>
      rw [List.mapM_cons]
      rcases List.mem_cons.1 ha with rfl | ha
      · rw [h]
        rfl
      · rw [ih ha]
        cases f a' <;> rfl

end

/-! ## Reading what was written -/

namespace Json

theorem natBelow?_nat {n bound : Nat} (h : n < bound) : (nat n).natBelow? bound = some n := by
  show (if Nat.ofDigitChars 10 (Nat.toDigits 10 n) 0 < bound
    then some (Nat.ofDigitChars 10 (Nat.toDigits 10 n) 0) else none) = some n
  rw [Nat.ofDigitChars_ten_toDigits, if_pos h]

theorem itemsWellFormed_map {α : Type} {g : α → Json} {l : List α}
    (h : ∀ a ∈ l, (g a).WellFormed) : ItemsWellFormed (l.map g) := by
  induction l with
  | nil => exact trivial
  | cons a l ih =>
      exact ⟨h a List.mem_cons_self, ih fun a' ha' => h a' (List.mem_cons_of_mem _ ha')⟩

theorem wellFormed_double (x : Float) : (double x).WellFormed := by
  unfold double magnitudeOf
  split
  · rename_i rank hrank
    have hfinite : rank < infinityRank := by
      split at hrank
      · rename_i hlt
        cases hrank
        exact hlt
      · split at hrank <;> cases hrank
    split
    · exact NumberText.wellFormed_plain (List.cons_ne_nil _ _) (allDigits_zeros 1) (fun _ => rfl)
        (allDigits_zeros 1)
    · rename_i hne
      exact Decimal.wellFormed_numberText _
        (written_shortestDecimal .even (Nat.pos_of_ne_zero hne) hfinite).positive
  · exact trivial

end Json

theorem byteOfJson?_nat (byte : UInt8) : byteOfJson? (.nat byte.toNat) = some byte := by
  rw [byteOfJson?, Json.natBelow?_nat byte.toNat_lt, Option.map_some, UInt8.ofNat_toNat]

/-- A run whose line and count are words. -/
def LineRun.InWords (run : LineRun) : Prop := run.line < wordBound ∧ run.count < wordBound

theorem LineRun.ofJson?_toJson {run : LineRun} (h : run.InWords) :
    LineRun.ofJson? run.toJson = some run := by
  have hfields : run.toJson.fields? ["line", "count"]
      = some [some (.nat run.line), some (.nat run.count)] := rfl
  rw [ofJson?, hfields]
  show (do return ⟨← (Json.nat run.line).natBelow? wordBound,
    ← (Json.nat run.count).natBelow? wordBound⟩ : Option LineRun) = some run
  rw [Json.natBelow?_nat h.1, Json.natBelow?_nat h.2]
  rfl

theorem LineTable.ofJson?_toJson {table : LineTable} (h : ∀ run ∈ table.runs, run.InWords) :
    LineTable.ofJson? table.toJson = some table := by
  have hfields : table.toJson.fields? ["runs"]
      = some [some (.array (table.runs.toList.map LineRun.toJson))] := rfl
  have hruns : (table.runs.toList.map LineRun.toJson).mapM LineRun.ofJson?
      = some table.runs.toList :=
    mapM_eq_some_self fun run hrun => LineRun.ofJson?_toJson (h run (by simpa using hrun))
  rw [ofJson?, hfields]
  show (do return ⟨(← (table.runs.toList.map LineRun.toJson).mapM LineRun.ofJson?).toArray⟩ :
    Option LineTable) = some table
  rw [hruns]
  rfl

namespace Chunk

/-- The chunk of a text. -/
def ofText? (text : String) : Option Chunk := (Json.ofText? text).bind ofJson?

/-- All lines and counts are words. -/
def InWords (c : Chunk) : Prop := ∀ run ∈ c.lines.runs, run.InWords

variable {c : Chunk}

/-- Whether the document of a chunk is read depends on its constants alone. -/
theorem ofJson?_toJson (h : c.InWords) :
    ofJson? c.toJson = (c.constants.toList.mapM fun x => (Json.double x).double?).map
      fun constants => ⟨c.code, constants.toArray, c.lines⟩ := by
  have hfields : c.toJson.fields? ["code", "constants", "lines"]
      = some [some (.array (c.code.toList.map fun byte => .nat byte.toNat)),
        some (.array (c.constants.toList.map constantJson)), some c.lines.toJson] := rfl
  have hcode : (c.code.toList.map fun byte => Json.nat byte.toNat).mapM byteOfJson?
      = some c.code.toList := mapM_eq_some_self fun byte _ => byteOfJson?_nat byte
  have hconstants : (c.constants.toList.map constantJson).mapM constantOfJson?
      = c.constants.toList.mapM fun x => (Json.double x).double? := List.mapM_map
  rw [ofJson?, hfields]
  show (do
    let code ← (c.code.toList.map fun byte => Json.nat byte.toNat).mapM byteOfJson?
    let constants ← (c.constants.toList.map constantJson).mapM constantOfJson?
    return ⟨code.toArray, constants.toArray, ← LineTable.ofJson? c.lines.toJson⟩ : Option Chunk) = _
  rw [hcode, hconstants, LineTable.ofJson?_toJson h]
  cases c.constants.toList.mapM fun x => (Json.double x).double? <;> rfl

theorem wellFormed_toJson (c : Chunk) : c.toJson.WellFormed := by
  have hcode : Json.ItemsWellFormed (c.code.toList.map fun byte => .nat byte.toNat) :=
    Json.itemsWellFormed_map fun byte _ => Json.wellFormed_nat byte.toNat
  have hconstants : Json.ItemsWellFormed (c.constants.toList.map constantJson) :=
    Json.itemsWellFormed_map fun x _ => ⟨Json.wellFormed_double x, trivial⟩
  have hruns : Json.ItemsWellFormed (c.lines.runs.toList.map LineRun.toJson) :=
    Json.itemsWellFormed_map fun run _ =>
      ⟨Json.wellFormed_nat run.line, Json.wellFormed_nat run.count, trivial⟩
  exact ⟨hcode, hconstants, ⟨hruns, trivial⟩, trivial⟩

/-- The text of a chunk is read as its document, in either layout and with any blanks behind it. -/
theorem ofText?_writeAt (level : Option Nat) (h : c.InWords) {blanks : String}
    (hblanks : ∀ b ∈ blanks.toList, isSpace b = true) :
    ofText? (Json.writeAt level "" c.toJson ++ blanks)
      = (c.constants.toList.mapM fun x => (Json.double x).double?).map
        fun constants => ⟨c.code, constants.toArray, c.lines⟩ := by
  rw [ofText?, Json.ofText?_writeAt level c.wellFormed_toJson hblanks]
  exact ofJson?_toJson h

/-! ## The chunk that is read -/

/-- The chunk that is read for another one: the same code on the same lines, and constants that may
be missed by so many ranks as the reader makes inexact steps. -/
structure ReadAs (c c' : Chunk) : Prop where
  code : c'.code = c.code
  lines : c'.lines = c.lines
  constants : List.Forall₂ (fun x y => ReadsBack (inexactSteps x) x y ∧
    (inexactSteps x = 0 → y = x)) c.constants.toList c'.constants.toList

theorem exists_readAs (level : Option Nat) (h : c.InWords) {blanks : String}
    (hblanks : ∀ b ∈ blanks.toList, isSpace b = true)
    (hfinite : ∀ x ∈ c.constants.toList, x.isFinite = true) :
    ∃ c', ofText? (Json.writeAt level "" c.toJson ++ blanks) = some c' ∧ c.ReadAs c' := by
  obtain ⟨constants, hconstants, hall⟩ := exists_mapM fun x hx => by
    obtain ⟨y, hy, hreads⟩ := exists_double? (hfinite x hx)
    refine (⟨y, hy, hreads, fun hzero => ?_⟩ : ∃ y, (Json.double x).double? = some y ∧
      (ReadsBack (inexactSteps x) x y ∧ (inexactSteps x = 0 → y = x)))
    rw [hzero] at hreads
    exact hreads.eq
  refine ⟨⟨c.code, constants.toArray, c.lines⟩, ?_, rfl, rfl, hall⟩
  rw [ofText?_writeAt level h hblanks, hconstants]
  rfl

theorem ofText?_eq_none (level : Option Nat) (h : c.InWords) {blanks : String}
    (hblanks : ∀ b ∈ blanks.toList, isSpace b = true) {x : Float} (hx : x ∈ c.constants.toList)
    (hinfinite : ¬x.isFinite = true) :
    ofText? (Json.writeAt level "" c.toJson ++ blanks) = none := by
  rw [ofText?_writeAt level h hblanks, mapM_eq_none hx (double?_eq_none hinfinite)]
  rfl

/-- A text is accepted if and only if all constants are finite. -/
theorem exists_ofText?_iff (level : Option Nat) (h : c.InWords) {blanks : String}
    (hblanks : ∀ b ∈ blanks.toList, isSpace b = true) :
    (∃ c', ofText? (Json.writeAt level "" c.toJson ++ blanks) = some c') ↔
      ∀ x ∈ c.constants.toList, x.isFinite = true := by
  constructor
  · rintro ⟨c', hc'⟩ x hx
    by_contra hinfinite
    rw [ofText?_eq_none level h hblanks hx hinfinite] at hc'
    cases hc'
  · intro hfinite
    obtain ⟨c', hc', -⟩ := exists_readAs level h hblanks hfinite
    exact ⟨c', hc'⟩

theorem readAs_of_ofText? {c' : Chunk} (level : Option Nat) (h : c.InWords) {blanks : String}
    (hblanks : ∀ b ∈ blanks.toList, isSpace b = true)
    (hc' : ofText? (Json.writeAt level "" c.toJson ++ blanks) = some c') : c.ReadAs c' := by
  have hfinite := (exists_ofText?_iff level h hblanks).1 ⟨c', hc'⟩
  obtain ⟨c'', hc'', hread⟩ := exists_readAs level h hblanks hfinite
  obtain rfl : c' = c'' := Option.some.inj (hc'.symm.trans hc'')
  exact hread

/-- **A chunk is read back from its text**, compact or pretty. If all constants are finite, the text
is accepted, and the chunk that is read has the same code, the same lines, and constants of the same
sign that are at most three ranks away; a constant for which the reader makes no inexact step is the
same. If some constant is infinite or not a number, the text is refused. -/
theorem read_written {c : Chunk} (h : c.InWords) {text : String}
    (htext : text = c.toJson.compact ∨ text = c.toJson.pretty) :
    ((∀ x ∈ c.constants.toList, x.isFinite = true) →
      ∃ c', ofText? text = some c' ∧ c.ReadAs c') ∧
    ((∃ x ∈ c.constants.toList, ¬x.isFinite = true) → ofText? text = none) ∧
    ∀ x, inexactSteps x ≤ 3 := by
  obtain ⟨level, rfl⟩ : ∃ level, text = Json.writeAt level "" c.toJson ++ "" := by
    rcases htext with rfl | rfl
    · exact ⟨none, (String.append_empty).symm⟩
    · exact ⟨some 0, (String.append_empty).symm⟩
  have hblanks : ∀ b ∈ "".toList, isSpace b = true := by simp
  refine ⟨exists_readAs level h hblanks, ?_, inexactSteps_le⟩
  rintro ⟨x, hx, hinfinite⟩
  exact ofText?_eq_none level h hblanks hx hinfinite

/-- A chunk of one constant, with lines that do not fit its code. -/
def single (x : Float) : Chunk := ⟨#[1], #[x], ⟨#[⟨1, 3⟩, ⟨7, 0⟩]⟩⟩

theorem inWords_single (x : Float) : (single x).InWords := by
  intro run hrun
  have hcases : run = ⟨1, 3⟩ ∨ run = ⟨7, 0⟩ := by simpa [single] using hrun
  rcases hcases with rfl | rfl <;> exact ⟨by decide, by decide⟩

/-- Negative zero is read back, and infinity is refused. -/
theorem read_written_single :
    (∃ c', ofText? (single (-0.0)).toJson.pretty = some c' ∧ (single (-0.0)).ReadAs c') ∧
      ofText? (single (1.0 / 0.0)).toJson.compact = none := by
  have hzero : (-0.0 : Float).isFinite = true := by decide +kernel
  have hinfinite : ¬(1.0 / 0.0 : Float).isFinite = true := by decide +kernel
  refine ⟨(read_written (inWords_single _) (Or.inr rfl)).1 ?_,
    (read_written (inWords_single _) (Or.inl rfl)).2.1 ⟨_, List.mem_singleton_self _, hinfinite⟩⟩
  intro x hx
  rw [List.mem_singleton.1 hx]
  exact hzero

/-! ## A constant that is missed -/

/-- The largest integer below `2 ^ 53`. -/
def oddInteger : Float := Float.ofBits 0x433fffffffffffff

/-- It is written as an integer with a zero behind the point, and with that zero it has more than 53
bits. -/
theorem double?_oddInteger :
    (Json.double oddInteger).double? = some (Float.ofBits 0x433ffffffffffffe) := by
  have hsign : isNegative oddInteger = false := by decide +kernel
  have hmagnitude : magnitudeOf oddInteger = .finite 0x433fffffffffffff := by decide +kernel
  have hdouble : Json.double oddInteger
      = .number (Decimal.numberText false ⟨9007199254740991, 1074⟩) := by
    rw [← hsign]
    exact double_of_search hmagnitude (by decide) (by decide +kernel) (by decide)
  have hdigits : NumberText.significand (Decimal.numberText false ⟨9007199254740991, 1074⟩)
      = 90071992547409910 := by decide +kernel
  have hpower : NumberText.power (Decimal.numberText false ⟨9007199254740991, 1074⟩) = -1 := by
    decide +kernel
  have hquotient : (UInt64.ofNat 90071992547409910).toFloat / powerOfTen 1
      = Float.ofBits 0x433ffffffffffffe := toBits_injective (by decide +kernel)
  rw [hdouble]
  show NumberText.double? _ = _
  rw [NumberText.double?_eq (by rw [hdigits]; decide), hdigits, hpower, scaleByTen?,
    if_pos (by decide), if_neg (by decide), Decimal.negative_numberText]
  exact congrArg some hquotient

/-- A finite constant that is not read back. -/
theorem read_oddInteger :
    oddInteger.isFinite = true ∧ oddInteger.toBits = 0x433fffffffffffff ∧
      ∃ c', ofText? (toJson ⟨#[], #[oddInteger], {}⟩).compact = some c' ∧
        c'.constants.toList.map Float.toBits = [0x433ffffffffffffe] := by
  have hwords : InWords ⟨#[], #[oddInteger], {}⟩ := by
    intro run hrun
    simp at hrun
  have hread := @ofText?_writeAt ⟨#[], #[oddInteger], {}⟩ none hwords "" (by simp)
  have hconstants : [oddInteger].mapM (fun x => (Json.double x).double?)
      = some [Float.ofBits 0x433ffffffffffffe] := by
    rw [List.mapM_cons, double?_oddInteger]
    rfl
  rw [String.append_empty, hconstants] at hread
  exact ⟨by decide +kernel, by decide +kernel, _, hread, by decide +kernel⟩

end Chunk

end LoxArith
