import LoxArith.Proofs.Chunk.History
import Mathlib.Data.Finset.Card

set_option autoImplicit false

/-! # The pool over the life of a chunk

Whoever asks for a constant gets an index, and what is found there never changes: the pool only
grows at its end (`edited_constants`). The index is that of the first entry equal to the constant
(`IsFirst`), and it is the first one for ever, so asking again gives it back.

Equality is that of doubles. It is no equivalence, since what is no number is not equal to itself;
but it is one among the numbers, where a class is named by `valueBits`. A pool that was filled from
the start has one entry for each class that was asked for, its first member, and one for each time
that something was asked for that is no number (`Keeps`).
-/

namespace LoxArith

/-! ## Different numbers -/

/-- The different numbers among some doubles. -/
def numbersOf (xs : List Float) : Finset UInt64 :=
  ((xs.filter fun x => x.isNaN = false).map valueBits).toFinset

theorem mem_numbersOf {xs : List Float} {value : Float} (h : value.isNaN = false) :
    valueBits value ∈ numbersOf xs ↔ ∃ x ∈ xs, (x == value) = true := by
  unfold numbersOf
  rw [List.mem_toFinset, List.mem_map]
  constructor
  · rintro ⟨x, hx, hbits⟩
    obtain ⟨hx, hnumber⟩ := List.mem_filter.1 hx
    exact ⟨x, hx, (beq_iff_valueBits x value).2 ⟨of_decide_eq_true hnumber, h, hbits⟩⟩
  · rintro ⟨x, hx, hequal⟩
    obtain ⟨hnumber, -, hbits⟩ := (beq_iff_valueBits x value).1 hequal
    exact ⟨x, List.mem_filter.2 ⟨hx, decide_eq_true hnumber⟩, hbits⟩

theorem numbersOf_concat_of_number {value : Float} (h : value.isNaN = false) (xs : List Float) :
    numbersOf (xs ++ [value]) = insert (valueBits value) (numbersOf xs) := by
  have hfilter : [value].filter (fun x => x.isNaN = false) = [value] :=
    List.filter_cons_of_pos (decide_eq_true h)
  ext bits
  rw [numbersOf, List.filter_append, hfilter]
  simp [numbersOf]

theorem numbersOf_concat_of_notANumber {value : Float} (h : value.isNaN = true)
    (xs : List Float) : numbersOf (xs ++ [value]) = numbersOf xs := by
  have hfilter : [value].filter (fun x => x.isNaN = false) = [] :=
    List.filter_cons_of_neg (by simp only [h]; decide)
  rw [numbersOf, List.filter_append, hfilter, List.append_nil, numbersOf]

namespace Chunk

/-! ## The first equal entry -/

variable {c : Chunk} {value : Float} {index : Nat}

theorem IsFirst.addConstant (h : c.IsFirst value index) : c.addConstant value = (index, c) := by
  unfold Chunk.addConstant
  rw [isFirst_iff.1 h]

theorem IsFirst.find?_eq (h : c.IsFirst value index) :
    c.constants.toList.find? (· == value) = c.constants[index]? := by
  obtain ⟨entry, hentry, hequal⟩ := h.found
  obtain ⟨hindex, hget⟩ := Array.getElem?_eq_some_iff.1 hentry
  rw [hentry, Array.find?_toList, Array.find?_eq_some_iff_getElem]
  refine ⟨hequal, index, hindex, hget, fun i hi => ?_⟩
  rw [h.least i hi _ (Array.getElem?_eq_getElem (Nat.lt_trans hi hindex))]
  rfl

/-- Equal numbers have the same first entry. -/
theorem IsFirst.congr {value' : Float} (h : c.IsFirst value index)
    (hequal : (value == value') = true) : c.IsFirst value' index := by
  have hbeq : ∀ entry : Float, (entry == value') = (entry == value) :=
    fun entry => (beq_congr_right hequal entry).symm
  constructor
  · obtain ⟨entry, hentry, hfound⟩ := h.found
    exact ⟨entry, hentry, (hbeq entry).trans hfound⟩
  · intro i hi entry hentry
    exact (hbeq entry).trans (h.least i hi entry hentry)

/-- What is no number never finds an entry. -/
theorem addConstant_of_notANumber (c : Chunk) (h : value.isNaN = true) :
    c.addConstant value = (c.constants.size, { c with constants := c.constants.push value }) := by
  rcases c.addConstant_cases value with ⟨hfirst, -⟩ | ⟨-, hnew⟩
  · obtain ⟨entry, -, hequal⟩ := hfirst.found
    have hnumber := ((beq_iff entry value).1 hequal).2.1
    exact absurd (hnumber.symm.trans h) Bool.false_ne_true
  · exact hnew

/-! ## Later calls -/

/-- The pool grows at its end. -/
theorem edited_constants (c : Chunk) (edits : List Edit) :
    ∃ added, (c.edited edits).constants.toList = c.constants.toList ++ added := by
  induction edits generalizing c with
  | nil => exact ⟨[], (List.append_nil _).symm⟩
  | cons edit edits ih =>
      obtain ⟨added, hadded⟩ := ih (edit.perform c)
      rw [edited_cons, hadded]
      rcases edit.perform_cases c with ⟨byte, line, -, -, hperform⟩ | ⟨value, -, -, hperform⟩
      · rw [hperform]
        exact ⟨added, rfl⟩
      · rw [hperform]
        rcases c.addConstant_cases value with ⟨-, hsame⟩ | ⟨-, hnew⟩
        · rw [hsame]
          exact ⟨added, rfl⟩
        · rw [hnew]
          exact ⟨value :: added, by simp⟩

/-- An entry stays where it is. -/
theorem entry_edited {entry : Float} (h : c.constants[index]? = some entry) (later : List Edit) :
    (c.edited later).constants[index]? = some entry := by
  obtain ⟨added, hadded⟩ := c.edited_constants later
  rw [← Array.getElem?_toList] at h ⊢
  obtain ⟨hindex, -⟩ := List.getElem?_eq_some_iff.1 h
  rw [hadded, List.getElem?_append_left hindex]
  exact h

theorem IsFirst.edited (h : c.IsFirst value index) (later : List Edit) :
    (c.edited later).IsFirst value index := by
  obtain ⟨entry, hentry, hequal⟩ := h.found
  constructor
  · exact ⟨entry, entry_edited hentry later, hequal⟩
  · intro i hi entry' hentry'
    -- the entries before the first equal one were there already
    obtain ⟨hindex, -⟩ := Array.getElem?_eq_some_iff.1 hentry
    have hi' := Array.getElem?_eq_getElem (Nat.lt_trans hi hindex)
    rw [entry_edited hi' later] at hentry'
    exact h.least i hi entry' (hi'.trans hentry')

/-- A number has a first entry once it was asked for. -/
theorem isFirst_addConstant (c : Chunk) (h : value.isNaN = false) :
    (c.addConstant value).2.IsFirst value (c.addConstant value).1 := by
  rcases c.addConstant_cases value with ⟨hfirst, hsame⟩ | ⟨hnone, hnew⟩
  · rwa [hsame]
  · rw [hnew]
    constructor
    · exact ⟨value, Array.getElem?_push_size, by simpa using h⟩
    · intro i hi entry hentry
      rw [Array.getElem?_push_lt hi] at hentry
      exact hnone entry (Option.some.inj hentry ▸ Array.getElem_mem hi)

/-! ## A pool that was filled from the start -/

/-- The pool holds the first one of each number that was asked for, and as many entries that are no
number as such were asked for. -/
structure Keeps (c : Chunk) (xs : List Float) : Prop where
  apart : c.constants.toList.Pairwise fun x y => (x == y) = false
  first : ∀ value, c.constants.toList.find? (· == value) = xs.find? (· == value)
  size : c.constants.size = (numbersOf xs).card + xs.countP Float.isNaN

theorem keeps_empty : ({} : Chunk).Keeps [] := ⟨.nil, fun _ => rfl, rfl⟩

/-- An equal entry is there if and only if an equal number was asked for. -/
theorem Keeps.exists_iff {xs : List Float} (h : c.Keeps xs) :
    (∃ entry ∈ c.constants, (entry == value) = true) ↔ ∃ x ∈ xs, (x == value) = true := by
  have hsome := congrArg Option.isSome (h.first value)
  rw [Bool.eq_iff_iff, List.find?_isSome, List.find?_isSome] at hsome
  simpa using hsome

/-- A number that is equal to an earlier one leaves the pool as it is. -/
theorem Keeps.again {xs : List Float} (h : c.Keeps xs) (hnumber : value.isNaN = false)
    (hasked : ∃ x ∈ xs, (x == value) = true) : c.Keeps (xs ++ [value]) := by
  refine ⟨h.apart, fun value' => ?_, ?_⟩
  · rw [h.first, List.find?_append]
    by_cases hvalue : (value == value') = true
    · -- the earlier one is found first
      have hsome : (xs.find? (· == value')).isSome := by
        obtain ⟨x, hx, hequal⟩ := hasked
        exact List.find?_isSome.2 ⟨x, hx, beq_trans hequal hvalue⟩
      rw [Option.or_of_isSome hsome]
    · simp [hvalue]
  · have hsame : numbersOf (xs ++ [value]) = numbersOf xs := by
      rw [numbersOf_concat_of_number hnumber]
      exact Finset.insert_eq_of_mem ((mem_numbersOf hnumber).2 hasked)
    have hcount : (xs ++ [value]).countP Float.isNaN = xs.countP Float.isNaN := by
      rw [List.countP_append, List.countP_singleton, hnumber]
      rfl
    rw [h.size, hsame, hcount]

/-- A constant that is equal to no entry becomes the last one. -/
theorem Keeps.push {xs : List Float} (h : c.Keeps xs)
    (hnone : ∀ entry ∈ c.constants, (entry == value) = false) :
    Keeps { c with constants := c.constants.push value } (xs ++ [value]) := by
  have hasked : ¬ ∃ x ∈ xs, (x == value) = true := by
    rw [← h.exists_iff]
    rintro ⟨entry, hentry, hequal⟩
    exact Bool.false_ne_true ((hnone entry hentry).symm.trans hequal)
  refine ⟨?_, fun value' => ?_, ?_⟩
  · rw [Array.toList_push, List.pairwise_append]
    refine ⟨h.apart, List.pairwise_singleton _ _, fun entry hentry x hx => ?_⟩
    rw [List.mem_singleton.1 hx]
    exact hnone entry (Array.mem_toList_iff.1 hentry)
  · rw [Array.toList_push, List.find?_append, List.find?_append, h.first]
  · rw [Array.size_push, h.size, List.countP_append, List.countP_singleton]
    by_cases hnan : value.isNaN = true
    · rw [numbersOf_concat_of_notANumber hnan, if_pos hnan]
      omega
    · have hnumber : value.isNaN = false := Bool.not_eq_true _ ▸ hnan
      rw [← mem_numbersOf hnumber] at hasked
      rw [numbersOf_concat_of_number hnumber, Finset.card_insert_of_notMem hasked, if_neg hnan]
      omega

theorem Keeps.addConstant {xs : List Float} (h : c.Keeps xs) (value : Float) :
    (c.addConstant value).2.Keeps (xs ++ [value]) := by
  rcases c.addConstant_cases value with ⟨hfirst, hsame⟩ | ⟨hnone, hnew⟩
  · obtain ⟨entry, hentry, hequal⟩ := hfirst.found
    rw [hsame]
    apply h.again ((beq_iff entry value).1 hequal).2.1
    exact h.exists_iff.1 ⟨entry, Array.mem_of_getElem? hentry, hequal⟩
  · rw [hnew]
    exact h.push hnone

theorem Keeps.edited {xs : List Float} (h : c.Keeps xs) (edits : List Edit) :
    (c.edited edits).Keeps (xs ++ asked edits) := by
  induction edits generalizing c xs with
  | nil =>
      rw [show asked [] = [] from rfl, List.append_nil]
      exact h
  | cons edit edits ih =>
      rw [edited_cons, asked_cons]
      rcases edit.perform_cases c with ⟨byte, line, -, hasked, hperform⟩ |
        ⟨value, -, hasked, hperform⟩
      · rw [hasked, hperform]
        exact ih ⟨h.apart, h.first, h.size⟩
      · rw [hasked, hperform, ← List.append_assoc]
        exact ih (h.addConstant value)

theorem keeps_edited (edits : List Edit) : (Chunk.edited {} edits).Keeps (asked edits) :=
  keeps_empty.edited edits

/-- What a number that was asked for is found as: the first one that is equal to it. -/
theorem Keeps.exists_isFirst {xs : List Float} (h : c.Keeps xs) (hvalue : value ∈ xs)
    (hnumber : value.isNaN = false) : ∃ index entry, c.IsFirst value index ∧
      c.constants[index]? = some entry ∧ xs.find? (· == value) = some entry := by
  have hself : (value == value) = true := (beq_iff value value).2 ⟨hnumber, hnumber, Or.inl rfl⟩
  have hsome : (xs.find? (· == value)).isSome := List.find?_isSome.2 ⟨value, hvalue, hself⟩
  obtain ⟨entry, hfind⟩ := Option.isSome_iff_exists.1 hsome
  rcases c.addConstant_cases value with ⟨hfirst, -⟩ | ⟨hnone, -⟩
  · exact ⟨_, entry, hfirst, by rw [← hfirst.find?_eq, h.first, hfind], hfind⟩
  · obtain ⟨entry', hmem, hequal⟩ := h.exists_iff.2 ⟨value, hvalue, hself⟩
    exact absurd ((hnone entry' hmem).symm.trans hequal) Bool.false_ne_true

/-- **The pool of constants.** Doubles are equal if they are numbers of one value, so the two zeros
are, and what is no number is not equal to itself. The index that a constant gets is that of the
first equal entry, and the pool stays; if there is none, it is the end of the pool, which grows by
the constant. Whatever is written and asked for later, at this index the same double is found, and
who asks for an equal constant is given this index and leaves the pool as it is.

In a pool that was filled from the start no two entries are equal, a number is found as the first
one that was asked for and is equal to it, and there are as many entries as different numbers were
asked for, and in addition one for each time something was asked for that is no number. -/
theorem pool_of_history :
    (∀ x y : Float, (x == y) = true ↔
      x.isNaN = false ∧ y.isNaN = false ∧ valueBits x = valueBits y) ∧
    ((0.0 : Float) == -0.0) = true ∧
    (∀ (c : Chunk) (value : Float),
      ((c.IsFirst value (c.addConstant value).1 ∧ (c.addConstant value).2 = c) ∨
        ((∀ entry ∈ c.constants, (entry == value) = false) ∧
          c.addConstant value =
            (c.constants.size, { c with constants := c.constants.push value }))) ∧
      (value.isNaN = true →
        c.addConstant value =
          (c.constants.size, { c with constants := c.constants.push value })) ∧
      ∀ later : List Edit,
        (∃ entry, (c.addConstant value).2.constants[(c.addConstant value).1]? = some entry ∧
          ((c.addConstant value).2.edited later).constants[(c.addConstant value).1]? =
            some entry) ∧
        ∀ value', (value == value') = true →
          ((c.addConstant value).2.edited later).addConstant value' =
            ((c.addConstant value).1, (c.addConstant value).2.edited later)) ∧
    ∀ edits : List Edit,
      (edited {} edits).constants.toList.Pairwise (fun x y => (x == y) = false) ∧
      (∀ value ∈ asked edits, value.isNaN = false →
        ∃ index entry, (edited {} edits).addConstant value = (index, edited {} edits) ∧
          (edited {} edits).constants[index]? = some entry ∧
          (asked edits).find? (· == value) = some entry) ∧
      (edited {} edits).constants.size =
        (numbersOf (asked edits)).card + (asked edits).countP Float.isNaN := by
  refine ⟨beq_iff_valueBits, by decide +kernel, ?_, ?_⟩
  · intro c value
    refine ⟨c.addConstant_cases value, c.addConstant_of_notANumber, fun later => ⟨?_, ?_⟩⟩
    · have hentry := Array.getElem?_eq_getElem (c.addConstant_lt value)
      exact ⟨_, hentry, entry_edited hentry later⟩
    · intro value' hequal
      have hfirst := c.isFirst_addConstant ((beq_iff value value').1 hequal).1
      exact ((hfirst.edited later).congr hequal).addConstant
  · intro edits
    have hkeeps := keeps_edited edits
    refine ⟨hkeeps.apart, fun value hvalue hnumber => ?_, hkeeps.size⟩
    obtain ⟨index, entry, hfirst, hentry, hfind⟩ := hkeeps.exists_isFirst hvalue hnumber
    exact ⟨index, entry, hfirst.addConstant, hentry, hfind⟩

/-- Both zeros are asked for, and twice what is no number. -/
def zerosAsked : List Edit :=
  [.addConstant (-0.0), .addConstant Float.nan, .write 1 7, .addConstant 0.0,
    .addConstant Float.nan]

/-- The negative zero came first, so the other one is found as it. What is no number makes an entry
each time. -/
theorem pool_of_history_zeros :
    (0.0 : Float) ∈ asked zerosAsked ∧ (0.0 : Float).isNaN = false ∧
      (∃ index, (edited {} zerosAsked).addConstant 0.0 = (index, edited {} zerosAsked) ∧
        (edited {} zerosAsked).constants[index]? = some (-0.0)) ∧
      (edited {} zerosAsked).constants.size = 3 := by
  obtain ⟨-, -, -, hbuilt⟩ := pool_of_history
  obtain ⟨-, hfound, hsize⟩ := hbuilt zerosAsked
  have hmem : (0.0 : Float) ∈ asked zerosAsked := by simp [zerosAsked, asked, Edit.asked?]
  have hnumber : (0.0 : Float).isNaN = false := by decide +kernel
  obtain ⟨index, entry, hadd, hentry, hfind⟩ := hfound 0.0 hmem hnumber
  have hnegative : (asked zerosAsked).find? (· == 0.0) = some (-0.0) := by decide +kernel
  refine ⟨hmem, hnumber, ⟨index, hadd, ?_⟩, ?_⟩
  · rw [hentry, ← hfind, hnegative]
  · rw [hsize]
    decide +kernel

end Chunk

end LoxArith
