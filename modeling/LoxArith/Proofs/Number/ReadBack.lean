import LoxArith.Json.Double
import LoxArith.Proofs.Number.Scaling
import LoxArith.Proofs.Number.Shortest

set_option autoImplicit false

/-! # Reading back what a double is written as

A finite double is written with digits that denote it (`spells_numberText`), and the digits are few
enough for the reader to take all of them. But the reader computes the value in doubles, so it can
miss the double that was written. It does so by no more ranks than it makes inexact operations
before the last one (`NumberText.inexactSteps`): rounding the digits to a double, rounding the power
of ten, and rounding a quotient that has to be divided once more. If there is none, what is read is
what was written (`ReadsBack.eq`).

Nothing that was written is refused (`exists_double?`). That needs a look at the two largest
doubles, because a neighbour of theirs is infinity.
-/

-- Powers of natural numbers are those of the core library, also beside other instances.
attribute [instance (2000), default_instance 20000] instPowNat

namespace LoxArith

/-! ## Scaling by a power of ten -/

section

variable {rank k : Nat}

theorem rankOfPower_pos (k : Nat) : 0 < rankOfRatio (10 ^ k) 1 :=
  rankOfNat_pos (Nat.pow_pos (by decide))

/-- A power of ten that is not negative multiplies. -/
theorem scaleByTen?_nonneg (hpos : 0 < rank) (hfinite : rank < infinityRank) (hk : k ≤ 308)
    (hproduct : rankOfRatio (unitsOfRank rank * unitsOfNat (10 ^ k)) (unitsPerOne * unitsPerOne)
      < infinityRank) :
    scaleByTen? (doubleOfRank false rank) k
      = some (nearestDouble (unitsOfRank rank * unitsOfNat (10 ^ k))
          (unitsPerOne * unitsPerOne)) := by
  have hmul : doubleOfRank false rank * powerOfTen k = _ :=
    doubleOfRank_mul hpos hfinite (rankOfPower_pos k) (rankOfNat_lt_of_power hk)
  rw [scaleByTen?, if_pos (by omega), if_pos (by omega), Int.natAbs_natCast, hmul]
  exact if_neg (ne_true_of_eq_false (isInf_doubleOfRank hproduct))

/-- A negative power of ten divides. -/
theorem scaleByTen?_neg (hpos : 0 < rank) (hfinite : rank < infinityRank) (hk : 0 < k)
    (hk' : k ≤ 308) :
    scaleByTen? (doubleOfRank false rank) (-k)
      = some (nearestDouble (unitsOfRank rank) (unitsOfNat (10 ^ k))) := by
  have hdiv : doubleOfRank false rank / powerOfTen k = _ :=
    doubleOfRank_div hpos hfinite (rankOfPower_pos k) (rankOfNat_lt_of_power hk')
  rw [scaleByTen?, if_pos (by omega), if_neg (by omega), Int.natAbs_neg, Int.natAbs_natCast, hdiv]
  rfl

/-- Below the table of powers the reader divides by the largest one first. -/
theorem scaleByTen?_far {largest : Nat} (hlargest : largest = 308) (hpos : 0 < rank)
    (hfinite : rank < infinityRank) (hk : 0 < k) :
    scaleByTen? (doubleOfRank false rank) (-(largest + k : Nat))
      = scaleByTen? (nearestDouble (unitsOfRank rank) (unitsOfNat (10 ^ largest))) (-k) := by
  have hdiv : doubleOfRank false rank / powerOfTen largest = _ :=
    doubleOfRank_div hpos hfinite (rankOfPower_pos largest)
      (rankOfNat_lt_of_power (Nat.le_of_eq hlargest))
  have hzero := doubleOfRank_beq_zero hpos hfinite
  have hrest : -((largest + k : Nat) : Int) + 308 = -k := by omega
  rw [scaleByTen?, if_neg (by omega), hzero, if_neg Bool.false_ne_true, if_neg (by omega), hrest,
    ← hlargest, hdiv]
  rfl

end

/-! ## Digits and their power of ten -/

namespace NumberText

/-- The digits without their point. -/
def significand (n : NumberText) : Nat := Nat.ofDigitChars 10 (n.whole ++ n.fraction) 0

/-- The power of ten that belongs to them. -/
def power (n : NumberText) : Int := n.exponentValue - n.fraction.length

/-- How many operations of the reader, before the last one, are not exact: the integer that the
digits make, the power of ten, and the quotient by the largest power in the table, where that is not
the last operation. Multiplying by one is exact. -/
def inexactSteps (n : NumberText) : Nat :=
  costUnless (n.significand ≤ 2 ^ 53 ∨ n.power = 0) + costUnless (n.power.natAbs ≤ 22)
    + costUnless (-308 ≤ n.power)

/-- Few digits that denote the double of this rank. -/
structure Spells (n : NumberText) (rank : Nat) : Prop where
  positive : 0 < n.significand
  word : n.significand < 2 ^ 64
  low : -324 ≤ n.power
  high : n.power ≤ 308
  reads : rankOfRatio (n.significand * 10 ^ n.power.toNat) (10 ^ (-n.power).toNat) = rank

/-- The range of doubles is not exceeded by the product that the reader computes. -/
def InRange (n : NumberText) : Prop :=
  0 ≤ n.power → rankOfRatio (unitsOfNat n.significand * unitsOfNat (10 ^ n.power.toNat))
    (unitsPerOne * unitsPerOne) < infinityRank

end NumberText

/-- The first quotient below the table of powers. -/
theorem rankOfQuotient_pos {n largest : Nat} (hlargest : largest = 308) (hn : 0 < n) :
    0 < rankOfRatio (unitsOfNat n) (unitsOfNat (10 ^ largest)) := by
  have hsmallest : 0 < rankOfRatio unitsPerOne (unitsOfNat (10 ^ 308)) := by decide +kernel
  rw [← hlargest] at hsmallest
  have hden := unitsOfNat_pos (Nat.pow_pos (show 0 < 10 by decide) : 0 < 10 ^ largest)
  refine Nat.lt_of_lt_of_le hsmallest (rankOfRatio_mono hden hden ?_)
  have hle : (unitsPerOne : ℚ) ≤ unitsOfNat n := Nat.cast_le.2 (unitsPerOne_le_unitsOfNat hn)
  rw [unitsOfRatio_eq_div, unitsOfRatio_eq_div]
  exact div_le_div_of_nonneg_right (mul_le_mul_of_nonneg_right hle (Nat.cast_nonneg _))
    (Nat.cast_nonneg _)

/-- A quotient by one or more is no larger than what is divided. -/
theorem rankOfRatio_le_rank {rank den : Nat} (hfinite : rank < infinityRank)
    (hden : unitsPerOne ≤ den) : rankOfRatio (unitsOfRank rank) den ≤ rank := by
  have hunits :
      unitsOfRatio (unitsOfRank rank) den ≤ unitsOfRatio (unitsOfRank rank) unitsPerOne := by
    rw [unitsOfRatio_eq_div, unitsOfRatio_eq_div]
    exact div_le_div_of_nonneg_left (mul_nonneg (Nat.cast_nonneg _) (Nat.cast_nonneg _))
      (Nat.cast_pos.2 unitsPerOne_pos) (Nat.cast_le.2 hden)
  calc rankOfRatio (unitsOfRank rank) den
      ≤ rankOfRatio (unitsOfRank rank) unitsPerOne :=
        rankOfRatio_mono (Nat.lt_of_lt_of_le unitsPerOne_pos hden) unitsPerOne_pos hunits
    _ = rank := rankOfRatio_unitsOfRank hfinite

theorem rankOfRatio_mul_one {rank : Nat} (hfinite : rank < infinityRank) :
    rankOfRatio (unitsOfRank rank * unitsOfNat (10 ^ 0)) (unitsPerOne * unitsPerOne) = rank := by
  have hone : unitsOfNat (10 ^ 0) = unitsPerOne := unitsOfNat_one.2
  rw [hone, Nat.mul_comm, rankOfRatio_mul_mul _ _ unitsPerOne_pos, rankOfRatio_unitsOfRank hfinite]

section

variable {digits rank k : Nat}

/-- Digits times a power of ten. -/
theorem exists_multiplied (hpos : 0 < digits) (hword : digits < 2 ^ 64) (hk : k ≤ 308)
    (hreads : rankOfRatio (digits * 10 ^ k) 1 = rank)
    (hproduct : rankOfRatio (unitsOfNat digits * unitsOfNat (10 ^ k))
      (unitsPerOne * unitsPerOne) < infinityRank) :
    ∃ r, scaleByTen? (nearestDouble digits 1) k = some (doubleOfRank false r) ∧
      r < infinityRank ∧
      Apart (costUnless (digits ≤ 2 ^ 53 ∨ k = 0) + costUnless (k ≤ 22)) rank r := by
  have hscaled := scaleByTen?_nonneg (rankOfNat_pos hpos) (rankOfNat_lt_of_word hword) hk hproduct
  refine ⟨_, hscaled, hproduct, ?_⟩
  rcases Nat.eq_zero_or_pos k with rfl | hfactor
  · -- the product with one is the double of the digits
    rw [Nat.pow_zero, Nat.mul_one] at hreads
    exact Apart.of_eq (hreads.symm.trans (rankOfRatio_mul_one (rankOfNat_lt_of_word hword)).symm)
  · rw [← hreads, costUnless_congr (or_iff_left (Nat.ne_of_gt hfactor))]
    exact (rounded_digits hpos hword).apart_mul (rounded_power hk)

/-- Digits divided by a power of ten. -/
theorem exists_divided (hpos : 0 < digits) (hword : digits < 2 ^ 64) (hk : 0 < k) (hk' : k ≤ 308)
    (hreads : rankOfRatio digits (10 ^ k) = rank) :
    ∃ r, scaleByTen? (nearestDouble digits 1) (-k) = some (doubleOfRank false r) ∧
      r < infinityRank ∧ Apart (costUnless (digits ≤ 2 ^ 53) + costUnless (k ≤ 22)) rank r := by
  have hfinite := rankOfNat_lt_of_word hword
  have hten : 0 < 10 ^ k := Nat.pow_pos (by decide)
  refine ⟨_, scaleByTen?_neg (rankOfNat_pos hpos) hfinite hk hk', ?_, ?_⟩
  · exact Nat.lt_of_le_of_lt (rankOfRatio_le_rank hfinite (unitsPerOne_le_unitsOfNat hten)) hfinite
  · have hquotient := (rounded_digits hpos hword).apart_div (rounded_power hk') Nat.one_pos
    rwa [Nat.mul_one, Nat.mul_one, hreads] at hquotient

/-- Digits divided by a power of ten that is not in the table. -/
theorem exists_divided_far {largest : Nat} (hlargest : largest = 308) (hpos : 0 < digits)
    (hword : digits < 2 ^ 64) (hk : 0 < k) (hk' : k ≤ 22)
    (hreads : rankOfRatio digits (10 ^ (largest + k)) = rank) :
    ∃ r, scaleByTen? (nearestDouble digits 1) (-(largest + k : Nat))
        = some (doubleOfRank false r) ∧
      r < infinityRank ∧ Apart (costUnless (digits ≤ 2 ^ 53) + costUnless (largest ≤ 22) + 1)
        rank r := by
  have hfinite := rankOfNat_lt_of_word hword
  have hten : ∀ {m : Nat}, 0 < 10 ^ m := Nat.pow_pos (by decide)
  have hfirst := rankOfQuotient_pos hlargest hpos
  have hsmall : rankOfRatio (unitsOfNat digits) (unitsOfNat (10 ^ largest)) < infinityRank :=
    Nat.lt_of_le_of_lt (rankOfRatio_le_rank hfinite (unitsPerOne_le_unitsOfNat hten)) hfinite
  refine ⟨_, (scaleByTen?_far hlargest (rankOfNat_pos hpos) hfinite hk).trans
    (scaleByTen?_neg hfirst hsmall hk (by omega)), ?_, ?_⟩
  · exact Nat.lt_of_le_of_lt (rankOfRatio_le_rank hsmall (unitsPerOne_le_unitsOfNat hten)) hsmall
  · rw [← hreads, Nat.pow_add]
    exact (rounded_digits hpos hword).apart_div_div (rounded_power (Nat.le_of_eq hlargest)) hten
      (unitsOfNat_of_power hk') hsmall

end

/-- **Reading digits misses what they denote by no more than the inexact steps.** The result is
finite, unless a product exceeds the range. -/
theorem NumberText.Spells.exists_scaled {n : NumberText} {rank : Nat} (h : n.Spells rank)
    (hrange : n.InRange) :
    ∃ r, scaleByTen? (UInt64.ofNat n.significand).toFloat n.power = some (doubleOfRank false r) ∧
      r < infinityRank ∧ Apart n.inexactSteps rank r := by
  obtain ⟨hpos, hword, hlow, hhigh, hreads⟩ := h
  unfold NumberText.InRange at hrange
  unfold NumberText.inexactSteps
  rw [toFloat_ofNat hpos hword]
  generalize n.significand = digits at *
  generalize n.power = power at *
  rcases Int.lt_or_le power 0 with hneg | hnonneg
  · obtain ⟨k, rfl⟩ : ∃ k : Nat, power = -k := ⟨(-power).toNat, by omega⟩
    rw [Int.toNat_neg_natCast, Nat.pow_zero, Nat.mul_one, Int.neg_neg, Int.toNat_natCast] at hreads
    have hdigits : costUnless (digits ≤ 2 ^ 53 ∨ -(k : Int) = 0) = costUnless (digits ≤ 2 ^ 53) :=
      costUnless_congr (or_iff_left (by omega))
    rw [hdigits, Int.natAbs_neg, Int.natAbs_natCast]
    rcases Nat.lt_or_ge 308 k with hfar | htable
    · obtain ⟨largest, hlargest⟩ : ∃ largest : Nat, largest = 308 := ⟨308, rfl⟩
      obtain ⟨m, rfl⟩ : ∃ m, k = largest + m := ⟨k - largest, by omega⟩
      rw [costUnless_of_not (show ¬-308 ≤ -((largest + m : Nat) : Int) by omega),
        costUnless_congr (show largest + m ≤ 22 ↔ largest ≤ 22 by omega)]
      exact exists_divided_far hlargest hpos hword (by omega) (by omega) hreads
    · rw [costUnless_of (show -308 ≤ -(k : Int) by omega)]
      exact exists_divided hpos hword (by omega) htable hreads
  · obtain ⟨k, rfl⟩ : ∃ k : Nat, power = k := ⟨power.toNat, by omega⟩
    rw [Int.toNat_neg_natCast, Nat.pow_zero, Int.toNat_natCast] at hreads
    have hproduct := hrange hnonneg
    rw [Int.toNat_natCast] at hproduct
    have hdigits : costUnless (digits ≤ 2 ^ 53 ∨ (k : Int) = 0)
        = costUnless (digits ≤ 2 ^ 53 ∨ k = 0) :=
      costUnless_congr (or_congr_right Int.natCast_eq_zero)
    rw [hdigits, Int.natAbs_natCast, costUnless_of (show -308 ≤ (k : Int) by omega)]
    exact exists_multiplied hpos hword (by omega) hreads hproduct

/-! ## What a decimal is written as -/

theorem NumberText.spells_of_decimal {n : NumberText} {d : Decimal} {rank : Nat}
    (h : Written rank d) (hdigits : n.significand = d.coefficient)
    (hpower : n.power = (d.place : Int) - finestPlace) : n.Spells rank := by
  obtain ⟨place, hplace, hfinest, -, -⟩ := exists_finestPlace
  have hdigits' := h.digits
  have hlow := h.low
  have hhigh := h.high
  have hreads := h.reads
  unfold Decimal.numerator Decimal.denominator at hreads
  rw [hfinest] at hpower hreads
  have hmul : n.power.toNat = d.place - place := by omega
  have hdiv : (-n.power).toNat = place - d.place := by omega
  refine ⟨hdigits ▸ h.positive, ?_, by omega, by omega, ?_⟩
  · rw [hdigits]
    omega
  · rw [hmul, hdiv, hdigits, hreads]

theorem NumberText.exponentValue_written (e : Int) {negative : Bool} {whole fraction : List Char} :
    NumberText.exponentValue
      ⟨negative, whole, fraction, some (decide (e < 0), digitsOf e.natAbs)⟩ = e := by
  have hdigits : Nat.ofDigitChars 10 (digitsOf e.natAbs) 0 = e.natAbs :=
    Nat.ofDigitChars_ten_toDigits
  by_cases h : e < 0
  · rw [decide_eq_true h]
    show -((Nat.ofDigitChars 10 (digitsOf e.natAbs) 0 : Nat) : Int) = e
    omega
  · rw [decide_eq_false h]
    show ((Nat.ofDigitChars 10 (digitsOf e.natAbs) 0 : Nat) : Int) = e
    omega

/-- Only an integer is written with another digit, a zero behind the point. Otherwise the point, or
the exponent, says where the digits of the decimal stand. -/
theorem Decimal.numberText_cases (negative : Bool) (d : Decimal) :
    (∃ zeros, d.place = finestPlace + zeros ∧ (digitsOf d.coefficient).length + zeros ≤ 16 ∧
      d.numberText negative
        = ⟨negative, digitsOf d.coefficient ++ List.replicate zeros '0', ['0'], none⟩) ∨
    (d.numberText negative).significand = d.coefficient ∧
      (d.numberText negative).power = (d.place : Int) - finestPlace := by
  have hlen : 0 < (digitsOf d.coefficient).length := Nat.length_toDigits_pos
  have hc : Nat.ofDigitChars 10 (digitsOf d.coefficient) 0 = d.coefficient :=
    Nat.ofDigitChars_ten_toDigits
  obtain ⟨finest, -, hfinest, -, -⟩ := exists_finestPlace
  unfold Decimal.numberText
  rw [hfinest]
  generalize digitsOf d.coefficient = digits at *
  generalize d.coefficient = c at *
  dsimp only
  generalize hpoint : (digits.length : Int) + d.place - finest = point
  split
  · refine Or.inl ⟨d.place - finest, by omega, by omega, ?_⟩
    have hzeros : point.toNat - digits.length = d.place - finest := by omega
    rw [hzeros]
  refine Or.inr ?_
  split
  · refine ⟨?_, ?_⟩
    · show Nat.ofDigitChars 10 (digits.take point.toNat ++ digits.drop point.toNat) 0 = c
      rw [List.take_append_drop, hc]
    · show (0 : Int) - (digits.drop point.toNat).length = d.place - finest
      rw [List.length_drop]
      omega
  split
  · refine ⟨?_, ?_⟩
    · show Nat.ofDigitChars 10 ('0' :: (List.replicate (-point).toNat '0' ++ digits)) 0 = c
      rw [← List.cons_append, ← List.replicate_succ, Nat.ofDigitChars_append,
        Nat.ofDigitChars_replicate_zero, Nat.mul_zero, hc]
    · show (0 : Int) - (List.replicate (-point).toNat '0' ++ digits).length = d.place - finest
      rw [List.length_append, List.length_replicate]
      omega
  · refine ⟨?_, ?_⟩
    · show Nat.ofDigitChars 10 (digits.take 1 ++ digits.drop 1) 0 = c
      rw [List.take_append_drop, hc]
    · rw [NumberText.power, NumberText.exponentValue_written]
      show point - 1 - (digits.drop 1).length = d.place - finest
      rw [List.length_drop]
      omega

theorem Decimal.negative_numberText (negative : Bool) (d : Decimal) :
    (d.numberText negative).negative = negative := by
  unfold Decimal.numberText
  dsimp only
  split
  · rfl
  split
  · rfl
  split <;> rfl

/-- The digits of an integer, with the zero behind the point, are a word. -/
theorem significand_lt {c zeros : Nat} (h : (digitsOf c).length + zeros ≤ 16) :
    c * 10 ^ zeros * 10 < 2 ^ 64 := by
  have hlt : c < 10 ^ (digitsOf c).length :=
    (Nat.length_toDigits_le_iff (by decide) Nat.length_toDigits_pos).1 (Nat.le_refl _)
  calc c * 10 ^ zeros * 10
      < 10 ^ (digitsOf c).length * 10 ^ zeros * 10 :=
        Nat.mul_lt_mul_of_pos_right
          (Nat.mul_lt_mul_of_pos_right hlt (Nat.pow_pos (by decide))) (by decide)
    _ = 10 ^ ((digitsOf c).length + zeros) * 10 := by rw [Nat.pow_add]
    _ ≤ 10 ^ 16 * 10 := Nat.mul_le_mul_right _ (Nat.pow_le_pow_right (by decide) h)
    _ < 2 ^ 64 := by decide

/-- An integer is spelled with a zero behind the point, which the power of ten takes back. -/
theorem NumberText.spells_integer (negative : Bool) {d : Decimal} {rank zeros : Nat}
    (h : Written rank d) (hplace : d.place = finestPlace + zeros)
    (hlength : (digitsOf d.coefficient).length + zeros ≤ 16) :
    NumberText.Spells
      ⟨negative, digitsOf d.coefficient ++ List.replicate zeros '0', ['0'], none⟩ rank := by
  have hdigits : NumberText.significand
      ⟨negative, digitsOf d.coefficient ++ List.replicate zeros '0', ['0'], none⟩
        = d.coefficient * 10 ^ zeros * 10 := by
    show Nat.ofDigitChars 10 (digitsOf d.coefficient ++ List.replicate zeros '0' ++ ['0']) 0 = _
    rw [Nat.ofDigitChars_append, Nat.ofDigitChars_append, Nat.ofDigitChars_replicate_zero,
      digitsOf, Nat.ofDigitChars_ten_toDigits, Nat.ofDigitChars_cons, Nat.ofDigitChars_nil,
      Nat.mul_comm (10 ^ zeros), Nat.mul_comm 10]
    rfl
  have hpower : NumberText.power
      ⟨negative, digitsOf d.coefficient ++ List.replicate zeros '0', ['0'], none⟩ = -1 := rfl
  have hpositive : 0 < d.coefficient * 10 ^ zeros :=
    Nat.mul_pos h.positive (Nat.pow_pos (by decide))
  have hreads := h.reads
  unfold Decimal.numerator Decimal.denominator at hreads
  rw [hplace, Nat.add_sub_cancel_left, Nat.sub_add_eq, Nat.sub_self, Nat.zero_sub,
    Nat.pow_zero] at hreads
  refine ⟨?_, ?_, ?_, ?_, ?_⟩
  · rw [hdigits]
    exact Nat.mul_pos hpositive (by decide)
  · rw [hdigits]
    exact significand_lt hlength
  · rw [hpower]
    decide
  · rw [hpower]
    decide
  · rw [hdigits, hpower]
    show rankOfRatio (d.coefficient * 10 ^ zeros * 10 * 10 ^ 0) (10 ^ 1) = rank
    rw [Nat.pow_zero, Nat.mul_one, Nat.pow_one, Nat.mul_comm _ 10]
    exact (rankOfRatio_mul_mul _ 1 (by decide)).trans hreads

/-- **Whatever form a decimal is written in, it is spelled with few digits.** -/
theorem Decimal.spells_numberText (negative : Bool) {d : Decimal} {rank : Nat}
    (h : Written rank d) : (d.numberText negative).Spells rank := by
  rcases d.numberText_cases negative with ⟨zeros, hplace, hlength, htext⟩ | ⟨hdigits, hpower⟩
  · rw [htext]
    exact NumberText.spells_integer negative h hplace hlength
  · exact NumberText.spells_of_decimal h hdigits hpower

/-! ## The reader takes all digits -/

theorem le_ofDigitChars (chars : List Char) (value : Nat) :
    value ≤ Nat.ofDigitChars 10 chars value := by
  rw [Nat.ofDigitChars_eq_ofDigitChars_zero]
  exact Nat.le_trans (Nat.le_mul_of_pos_left _ (Nat.pow_pos (by decide))) (Nat.le_add_right _ _)

theorem absorbDigits_eq {chars : List Char} {value : Nat}
    (h : Nat.ofDigitChars 10 chars value < 2 ^ 64) :
    absorbDigits value chars = (Nat.ofDigitChars 10 chars value, []) := by
  induction chars generalizing value with
  | nil => rfl
  | cons digit rest ih =>
      rw [Nat.ofDigitChars_cons, Nat.mul_comm] at h ⊢
      have hfits := Nat.lt_of_le_of_lt (le_ofDigitChars rest _) h
      rw [absorbDigits]
      exact (if_pos hfits).trans (ih h)

/-- A number of few digits is its digits, scaled by its power of ten. -/
theorem NumberText.double?_eq {n : NumberText} (h : n.significand < 2 ^ 64) :
    n.double? = (scaleByTen? (UInt64.ofNat n.significand).toFloat n.power).map
      fun magnitude => if n.negative then -magnitude else magnitude := by
  have hsplit : n.significand = Nat.ofDigitChars 10 n.fraction (Nat.ofDigitChars 10 n.whole 0) :=
    Nat.ofDigitChars_append 0
  have hwhole : Nat.ofDigitChars 10 n.whole 0 < 2 ^ 64 := by
    rw [hsplit] at h
    exact Nat.lt_of_le_of_lt (le_ofDigitChars _ _) h
  have hpower : n.exponentValue + (([] : List Char).length : Int)
      - ((n.fraction.length - ([] : List Char).length : Nat) : Int) = n.power := by
    show n.exponentValue + 0 - (n.fraction.length : Int) = n.power
    rw [Int.add_zero, NumberText.power]
  unfold NumberText.double?
  rw [absorbDigits_eq hwhole]
  dsimp only
  rw [absorbDigits_eq (hsplit ▸ h)]
  dsimp only
  rw [hpower, ← hsplit, Option.map_eq_bind]
  rfl

/-! ## The largest doubles -/

/-- What the search finds is what is written, if it does not end with a zero. -/
theorem shortestDecimal_of_search {rule : HalfwayRule} {rank : Nat} {d : Decimal}
    (hfound : Decimal.searchFrom rule rank (exactDecimal rank)
      (Decimal.coarsestPlace (exactDecimal rank)) = d) (hdigit : d.coefficient % 10 ≠ 0) :
    shortestDecimal rule rank = d := by
  unfold shortestDecimal
  dsimp only
  rw [hfound, Decimal.withoutTrailingZeros, if_neg hdigit]
  split <;> rfl

/-- What a double is written as, when its digits are known. -/
theorem double_of_search {x : Float} {rank : Nat} {d : Decimal}
    (hmagnitude : magnitudeOf x = .finite rank) (hpos : rank ≠ 0)
    (hfound : Decimal.searchFrom .even rank (exactDecimal rank)
      (Decimal.coarsestPlace (exactDecimal rank)) = d) (hdigit : d.coefficient % 10 ≠ 0) :
    Json.double x = .number (d.numberText (isNegative x)) := by
  rw [Json.double, hmagnitude]
  dsimp only
  rw [if_neg hpos, shortestDecimal_of_search hfound hdigit]

/-- The two largest doubles, in digits. -/
theorem shortestDecimal_largest :
    shortestDecimal .even (infinityRank - 1) = ⟨17976931348623157, 1366⟩ ∧
      shortestDecimal .even (infinityRank - 2) = ⟨17976931348623155, 1366⟩ :=
  ⟨shortestDecimal_of_search (by decide +kernel) (by decide),
    shortestDecimal_of_search (by decide +kernel) (by decide)⟩

theorem inRange_largest (negative : Bool) :
    (Decimal.numberText negative ⟨17976931348623157, 1366⟩).InRange ∧
      (Decimal.numberText negative ⟨17976931348623155, 1366⟩).InRange := by
  unfold NumberText.InRange
  cases negative <;> decide +kernel

/-- Two ranks below infinity there is room for the two inexact steps. -/
theorem NumberText.Spells.inRange {n : NumberText} {rank : Nat} (h : n.Spells rank)
    (hroom : rank + 2 < infinityRank) : n.InRange := by
  intro hpower
  have hhigh := h.high
  have hreads := h.reads
  have hdiv : (-n.power).toNat = 0 := by omega
  rw [hdiv, Nat.pow_zero] at hreads
  have hapart := (rounded_digits h.positive h.word).apart_mul
    (rounded_power (show n.power.toNat ≤ 308 by omega))
  rw [hreads] at hapart
  have hcost := Nat.add_le_add (costUnless_le (n.significand ≤ 2 ^ 53))
    (costUnless_le (n.power.toNat ≤ 22))
  have hle := hapart.2
  omega

theorem inRange_shortestDecimal (negative : Bool) {rank : Nat} (hpos : 0 < rank)
    (hfinite : rank < infinityRank) :
    ((shortestDecimal .even rank).numberText negative).InRange := by
  by_cases hroom : rank + 2 < infinityRank
  · have hwritten := written_shortestDecimal .even hpos hfinite
    exact (Decimal.spells_numberText negative hwritten).inRange hroom
  · have hlargest : rank = infinityRank - 1 ∨ rank = infinityRank - 2 := by omega
    rcases hlargest with rfl | rfl
    · rw [shortestDecimal_largest.1]
      exact (inRange_largest negative).1
    · rw [shortestDecimal_largest.2]
      exact (inRange_largest negative).2

/-! ## Reading back -/

/-- What is read for a double that was written: a finite double of the same sign, so many ranks
away. -/
structure ReadsBack (steps : Nat) (x y : Float) : Prop where
  finite : y.isFinite = true
  sign : isNegative y = isNegative x
  near : Apart steps (rankOf x) (rankOf y)

/-- How many inexact steps the reader makes on what a double is written as. -/
def inexactSteps (x : Float) : Nat :=
  match Json.double x with
  | .number n => n.inexactSteps
  | _ => 0

theorem inexactSteps_le (x : Float) : inexactSteps x ≤ 3 := by
  unfold inexactSteps
  split
  · exact Nat.add_le_add (Nat.add_le_add (costUnless_le _) (costUnless_le _)) (costUnless_le _)
  · exact Nat.zero_le _

theorem toNat_toBits_eq (x : Float) :
    x.toBits.toNat = (if isNegative x then 2 ^ 63 else 0) + rankOf x := by
  have hlt := x.toBits.toNat_lt
  unfold isNegative rankOf
  by_cases hsign : 2 ^ 63 ≤ x.toBits.toNat
  · rw [decide_eq_true hsign, if_pos rfl]
    omega
  · rw [decide_eq_false hsign, if_neg Bool.false_ne_true]
    omega

/-- **Without inexact steps the double itself is read.** -/
theorem ReadsBack.eq {x y : Float} (h : ReadsBack 0 x y) : y = x := by
  refine toBits_injective (UInt64.toNat_inj.1 ?_)
  rw [toNat_toBits_eq, toNat_toBits_eq, h.sign, h.near.eq_of_zero]

theorem readsBack_of_bits {x y : Float} {r steps : Nat} (hfinite : r < infinityRank)
    (hnear : Apart steps (rankOf x) r)
    (hbits : y.toBits.toNat = (if isNegative x then 2 ^ 63 else 0) + r) : ReadsBack steps x y := by
  have hlt : r < 2047 * 2 ^ 52 := hfinite
  have hrank : rankOf y = r := by
    unfold rankOf
    split at hbits <;> omega
  have hsign : isNegative y = isNegative x := by
    cases hx : isNegative x with
    | false =>
        rw [hx, if_neg Bool.false_ne_true] at hbits
        exact decide_eq_false (by omega)
    | true =>
        rw [hx, if_pos rfl] at hbits
        exact decide_eq_true (by omega)
  exact ⟨(isFinite_iff y).2 (hrank.symm ▸ hfinite), hsign, hrank.symm ▸ hnear⟩

/-- The sign is read as it was written. -/
theorem readsBack_doubleOfRank {x : Float} {r steps : Nat} (hfinite : r < infinityRank)
    (hnear : Apart steps (rankOf x) r) :
    ReadsBack steps x (if isNegative x then -doubleOfRank false r else doubleOfRank false r) := by
  refine readsBack_of_bits hfinite hnear ?_
  split
  · exact toNat_toBits_neg hfinite
  · rw [toNat_toBits_doubleOfRank (Nat.le_of_lt hfinite), Nat.zero_add]

theorem double?_zero (negative : Bool) :
    NumberText.double? ⟨negative, ['0'], ['0'], none⟩
      = some (if negative then -doubleOfRank false 0 else doubleOfRank false 0) := by
  have hscaled : scaleByTen? (UInt64.ofNat 0).toFloat (-1) = some (doubleOfRank false 0) := by
    have hquotient : (UInt64.ofNat 0).toFloat / powerOfTen 1 = doubleOfRank false 0 :=
      toBits_injective (by decide +kernel)
    rw [scaleByTen?, if_pos (by decide), if_neg (by decide)]
    exact congrArg some hquotient
  have hword : NumberText.significand ⟨negative, ['0'], ['0'], none⟩ < 2 ^ 64 :=
    show 0 < 2 ^ 64 by decide
  rw [NumberText.double?_eq hword]
  show (scaleByTen? (UInt64.ofNat 0).toFloat (-1)).map _ = _
  rw [hscaled]
  rfl

/-- **A finite double is read back, and missed by no more ranks than there are inexact steps.** -/
theorem exists_double? {x : Float} (h : x.isFinite = true) :
    ∃ y, (Json.double x).double? = some y ∧ ReadsBack (inexactSteps x) x y := by
  have hfinite := (isFinite_iff x).1 h
  have hmagnitude : magnitudeOf x = .finite (rankOf x) := if_pos hfinite
  rcases Nat.eq_zero_or_pos (rankOf x) with hzero | hpos
  · have hdouble : Json.double x = .number ⟨isNegative x, ['0'], ['0'], none⟩ := by
      rw [Json.double, hmagnitude, hzero]
      rfl
    refine ⟨_, ?_, readsBack_doubleOfRank (r := 0) (by decide) (Apart.of_eq hzero)⟩
    rw [hdouble]
    exact double?_zero (isNegative x)
  · have hdouble : Json.double x
        = .number ((shortestDecimal .even (rankOf x)).numberText (isNegative x)) := by
      rw [Json.double, hmagnitude]
      exact if_neg (Nat.ne_of_gt hpos)
    have hwritten := written_shortestDecimal .even hpos hfinite
    have hspells := Decimal.spells_numberText (isNegative x) hwritten
    obtain ⟨r, hscaled, hr, hnear⟩ :=
      hspells.exists_scaled (inRange_shortestDecimal (isNegative x) hpos hfinite)
    have hsteps : inexactSteps x
        = ((shortestDecimal .even (rankOf x)).numberText (isNegative x)).inexactSteps := by
      rw [inexactSteps, hdouble]
    refine ⟨_, ?_, readsBack_doubleOfRank hr (hsteps ▸ hnear)⟩
    rw [hdouble]
    show NumberText.double? _ = _
    rw [NumberText.double?_eq hspells.word, hscaled, Option.map_some, Decimal.negative_numberText]

/-- What is infinite or not a number is written as null, which is no number. -/
theorem double?_eq_none {x : Float} (h : ¬x.isFinite = true) :
    (Json.double x).double? = none := by
  have hnull : Json.double x = .null := by
    unfold Json.double magnitudeOf
    rw [if_neg ((isFinite_iff x).not.1 h)]
    split
    · rename_i heq
      split at heq <;> cases heq
    · rfl
  rw [hnull]
  rfl

end LoxArith
