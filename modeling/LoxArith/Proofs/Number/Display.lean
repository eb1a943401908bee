import LoxArith.Proofs.Json.Numbers
import LoxArith.Proofs.Number.ReadBack
import LoxArith.Proofs.Token.LongestMatch

set_option autoImplicit false

/-! # Reading what a result is printed as

A finite double is printed as a number of the lexical grammar, behind a sign if it is negative: with
digits on both sides of the point, or without a point, and never with an exponent
(`Decimal.isNumber_positional`). As a literal, the number denotes the double without its sign
(`exists_display`), because literals are read to the nearest double and the digits were chosen to be
read so. The sign is put back by negation, also in front of zero (`signed_rankOf`).
-/

namespace LoxArith

/-! ## The value of a number -/

theorem literalValue_digits {chars : List Char} (h : IsDigits chars) :
    literalValue (String.ofList chars) = nearestDouble (Nat.ofDigitChars 10 chars 0) 1 := by
  obtain ⟨-, hall⟩ := isDigits_iff.1 h
  have htake : chars.takeWhile isDecimalDigit = chars := List.takeWhile_eq_self_iff.2 hall
  have hdrop : chars.dropWhile isDecimalDigit = [] := List.dropWhile_eq_nil_iff.2 hall
  unfold literalValue
  rw [String.toList_ofList]
  dsimp only
  rw [htake, hdrop, doubleOfDigits, List.drop_nil, List.append_nil]
  rfl

theorem literalValue_fraction {whole : List Char} (h : IsDigits whole) (fraction : List Char) :
    literalValue (String.ofList (whole ++ '.' :: fraction))
      = nearestDouble (Nat.ofDigitChars 10 (whole ++ fraction) 0) (10 ^ fraction.length) := by
  have hpoint : isDecimalDigit '.' = false := by decide
  obtain ⟨htake, hdrop⟩ := takeWhile_of_stop fraction (isDigits_iff.1 h).2 hpoint
  unfold literalValue
  rw [String.toList_ofList]
  dsimp only
  rw [htake, hdrop]
  rfl

/-! ## Decimals with a point, and without -/

/-- Zeros in front do not change a number. -/
theorem ofDigitChars_leftpad (length n : Nat) :
    Nat.ofDigitChars 10 ((digitsOf n).leftpad length '0') 0 = n := by
  rw [List.leftpad, Nat.ofDigitChars_append, Nat.ofDigitChars_replicate_zero, Nat.mul_zero,
    digitsOf, Nat.ofDigitChars_ten_toDigits]

theorem allDigits_leftpad (length n : Nat) : AllDigits ((digitsOf n).leftpad length '0') :=
  (allDigits_zeros _).append (allDigits_digitsOf n)

/-- The digits are padded, so that there is one in front of the point. -/
theorem exists_withPoint {places : Nat} (hplaces : 0 < places) (n : Nat) :
    ∃ whole fraction, withPoint places n = whole ++ '.' :: fraction ∧ IsDigits whole ∧
      IsDigits fraction ∧ fraction.length = places ∧
      Nat.ofDigitChars 10 (whole ++ fraction) 0 = n := by
  have hdigits := allDigits_leftpad (places + 1) n
  have hvalue := ofDigitChars_leftpad (places + 1) n
  have hlength : places + 1 ≤ ((digitsOf n).leftpad (places + 1) '0').length := by
    rw [List.length_leftpad]
    exact Nat.le_max_left _ _
  unfold withPoint
  dsimp only
  generalize (digitsOf n).leftpad (places + 1) '0' = digits at hdigits hvalue hlength ⊢
  obtain ⟨whole, hwhole⟩ : ∃ whole, whole = digits.length - places := ⟨_, rfl⟩
  rw [← hwhole]
  have hfraction : (digits.drop whole).length = places := by
    rw [List.length_drop]
    omega
  have htaken : (digits.take whole).length = whole := by
    rw [List.length_take]
    omega
  refine ⟨_, _, rfl, isDigits_iff.2 ⟨?_, ?_⟩, isDigits_iff.2 ⟨?_, ?_⟩, hfraction, ?_⟩
  · -- the padding leaves a digit in front of the point
    apply List.ne_nil_of_length_pos
    omega
  · exact fun c hc => hdigits c (List.mem_of_mem_take hc)
  · apply List.ne_nil_of_length_pos
    omega
  · exact fun c hc => hdigits c (List.mem_of_mem_drop hc)
  · rw [List.take_append_drop]
    exact hvalue

namespace Decimal

theorem isDigits_positional {d : Decimal} (h : finestPlace ≤ d.place) : IsDigits d.positional := by
  rw [positional, if_pos h, isDigits_iff]
  constructor
  · exact List.append_ne_nil_of_left_ne_nil (digitsOf_ne_nil _) _
  · exact (allDigits_digitsOf _).append (allDigits_zeros _)

/-- The positional form is a number of the lexical grammar. -/
theorem isNumber_positional (d : Decimal) : IsNumber d.positional := by
  by_cases h : finestPlace ≤ d.place
  · exact .integer (isDigits_positional h)
  · obtain ⟨whole, fraction, htext, hwhole, hfraction, -⟩ :=
      exists_withPoint (Nat.sub_pos_of_lt (Nat.lt_of_not_le h)) d.coefficient
    rw [positional, if_neg h, htext]
    exact .decimal hwhole hfraction

/-- It is read as the decimal. -/
theorem literalValue_positional (d : Decimal) :
    literalValue (String.ofList d.positional) = nearestDouble d.numerator d.denominator := by
  unfold numerator denominator
  by_cases h : finestPlace ≤ d.place
  · rw [literalValue_digits (isDigits_positional h), positional, if_pos h, Nat.sub_eq_zero_of_le h,
      Nat.pow_zero, Nat.ofDigitChars_append, Nat.ofDigitChars_replicate_zero, digitsOf,
      Nat.ofDigitChars_ten_toDigits, Nat.mul_comm]
  · obtain ⟨whole, fraction, htext, hwhole, -, hlength, hvalue⟩ :=
      exists_withPoint (Nat.sub_pos_of_lt (Nat.lt_of_not_le h)) d.coefficient
    rw [positional, if_neg h, htext, literalValue_fraction hwhole, hvalue, hlength,
      Nat.sub_eq_zero_of_le (Nat.le_of_not_le h), Nat.pow_zero, Nat.mul_one]

end Decimal

/-! ## Doubles -/

/-- The sign in front of a number; `signChars x` is that of `isNegative x`. -/
def signOf (negative : Bool) : List Char := if negative then ['-'] else []

/-- **What a finite double is printed as**: its sign, and a number that denotes the double of its
rank. -/
theorem exists_display {x : Float} (h : x.isFinite = true) :
    ∃ word, IsNumber word ∧ display x = String.ofList (signOf (isNegative x) ++ word) ∧
      literalValue (String.ofList word) = doubleOfRank false (rankOf x) := by
  have hfinite := (isFinite_iff x).1 h
  have hmagnitude : magnitudeOf x = .finite (rankOf x) := if_pos hfinite
  by_cases hzero : rankOf x = 0
  · have hdigits : IsDigits ['0'] := isDigits_cons (by decide) fun _ hd => nomatch hd
    refine ⟨['0'], .integer hdigits, ?_, ?_⟩
    · rw [display, hmagnitude]
      exact if_pos hzero
    · rw [literalValue_digits hdigits, hzero]
      exact congrArg (doubleOfRank false) (by decide +kernel)
  · have hreads := (written_shortestDecimal .larger (Nat.pos_of_ne_zero hzero) hfinite).reads
    refine ⟨(shortestDecimal .larger (rankOf x)).positional, Decimal.isNumber_positional _, ?_, ?_⟩
    · rw [display, hmagnitude]
      exact if_neg hzero
    · rw [Decimal.literalValue_positional, nearestDouble, hreads]

/-- A finite double is the one of its rank with its sign. -/
theorem signed_rankOf {x : Float} (h : x.isFinite = true) :
    (if isNegative x then -doubleOfRank false (rankOf x) else doubleOfRank false (rankOf x)) = x :=
  (readsBack_doubleOfRank ((isFinite_iff x).1 h) (Apart.of_eq rfl)).eq

end LoxArith
