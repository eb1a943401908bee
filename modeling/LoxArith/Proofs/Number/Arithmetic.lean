import LoxArith.Proofs.Number.Bits
import LoxArith.Proofs.Number.Nearest

set_option autoImplicit false

/-! # Arithmetic rounds to the nearest double

Products, quotients and integers become doubles by one rule: the exact value is cut to a mantissa
with two more bits, which say on which side of the halfway point it lies, and the mantissa is
rounded. The result is the double that the exact value is read as (`toNat_pack_round`), so that
multiplication (`doubleOfRank_mul`), division (`doubleOfRank_div`) and the conversion of integers
(`toFloat_ofNat`) are one rounding of the exact result each.
-/

-- Powers of natural numbers are those of the core library, also beside other instances.
attribute [instance (2000), default_instance 20000] instPowNat

namespace LoxArith

open Float.Model Float.Model.UnpackedFloat

/-! ## Mantissas with two more bits -/

/-- The extended mantissa stands for a quotient: its whole part, and whether the rest is zero,
less than a half, a half, or more. -/
structure StandsFor (em : ExtendedMantissa) (num den : Nat) : Prop where
  mantissa : em.mantissa = num / den
  roundBit : em.roundBit = decide (den ≤ 2 * (num % den))
  stickyBit : em.stickyBit = decide (num % den ≠ 0 ∧ 2 * (num % den) ≠ den)

namespace StandsFor

variable {em : ExtendedMantissa} {num den : Nat}

theorem roundedMantissa (h : StandsFor em num den) (hden : 0 < den) :
    em.roundedMantissa = roundHalfEven num den := by
  obtain ⟨mantissa, roundBit, stickyBit⟩ := em
  obtain ⟨hmantissa, hround, hsticky⟩ := h
  dsimp only at hmantissa hround hsticky
  subst hmantissa
  have hlt := Nat.mod_lt num hden
  unfold roundHalfEven
  dsimp only
  cases roundBit with
  | false =>
      have hless := of_decide_eq_false hround.symm
      rw [if_pos (by omega)]
      cases stickyBit <;> rfl
  | true =>
      have hmore := of_decide_eq_true hround.symm
      rw [if_neg (by omega)]
      cases stickyBit with
      | false =>
          have hhalf := of_decide_eq_false hsticky.symm
          rw [if_neg (by omega)]
          show num / den + num / den % 2 = _
          by_cases heven : num / den % 2 = 0
          · rw [if_pos heven, heven, Nat.add_zero]
          · rw [if_neg heven]
            omega
      | true =>
          have hrest := of_decide_eq_true hsticky.symm
          rw [if_pos (by omega)]
          rfl

/-- Shifting by a bit divides by two. -/
theorem shiftRightOne (h : StandsFor em num den) (hden : 0 < den) :
    StandsFor em.shiftRightOne num (den * 2) := by
  have hlt := Nat.mod_lt num hden
  have hrest : num % (den * 2) = num % den + den * (num / den % 2) := Nat.mod_mul
  -- the bit that is shifted out says whether the new rest is a whole den more than the old one
  have hparity : num / den % 2 = 0 ∧ num % (den * 2) = num % den ∨
      num / den % 2 = 1 ∧ num % (den * 2) = num % den + den := by
    rcases Nat.mod_two_eq_zero_or_one (num / den) with hbit | hbit
    · exact Or.inl ⟨hbit, by rw [hrest, hbit, Nat.mul_zero, Nat.add_zero]⟩
    · exact Or.inr ⟨hbit, by rw [hrest, hbit, Nat.mul_one]⟩
  refine ⟨?_, ?_, ?_⟩
  · show em.mantissa / 2 = _
    rw [h.mantissa, Nat.div_div_eq_div_mul]
  · show (em.mantissa % 2 != 0) = _
    rw [h.mantissa, Bool.eq_iff_iff, bne_iff_ne, decide_eq_true_iff]
    omega
  · show (em.roundBit || em.stickyBit) = _
    rw [h.roundBit, h.stickyBit, Bool.eq_iff_iff]
    simp only [Bool.or_eq_true, decide_eq_true_eq]
    omega

theorem shiftRight (h : StandsFor em num den) (hden : 0 < den) (n : Nat) :
    StandsFor (em >>> n) num (den * 2 ^ n) := by
  induction n with
  | zero =>
      rw [Nat.pow_zero, Nat.mul_one]
      exact h
  | succ n ih =>
      rw [Nat.pow_succ, ← Nat.mul_assoc]
      exact ih.shiftRightOne (Nat.mul_pos hden (Nat.two_pow_pos n))

end StandsFor

theorem standsFor_exact (m : Nat) :
    StandsFor (.ofMantissaAndAccuracy m .exact) m 1 := by
  refine ⟨(Nat.div_one m).symm, ?_, ?_⟩
  · rw [Nat.mod_one]
    rfl
  · rw [Nat.mod_one]
    rfl

/-- The whole part of a quotient, with the accuracy of the rest. -/
theorem standsFor_fraction (num : Nat) {den : Nat} (hden : 0 < den) :
    StandsFor (.ofMantissaAndAccuracy (num / den) (accuracyOfFraction (num % den) den))
      num den := by
  generalize hrest : num % den = rest
  have hlt : rest < den := hrest ▸ Nat.mod_lt num hden
  unfold accuracyOfFraction
  by_cases hzero : rest = 0
  · rw [if_pos hzero]
    refine ⟨rfl, ?_, ?_⟩
    · show false = _
      rw [hrest, eq_comm, decide_eq_false_iff_not]
      omega
    · show false = _
      rw [hrest, eq_comm, decide_eq_false_iff_not]
      omega
  · rw [if_neg hzero]
    cases horder : compare (2 * rest) den with
    | lt =>
        have hless := Nat.compare_eq_lt.1 horder
        refine ⟨rfl, ?_, ?_⟩
        · show false = _
          rw [hrest, eq_comm, decide_eq_false_iff_not]
          omega
        · show true = _
          rw [hrest, eq_comm, decide_eq_true_iff]
          omega
    | eq =>
        have hequal := Nat.compare_eq_eq.1 horder
        refine ⟨rfl, ?_, ?_⟩
        · show true = _
          rw [hrest, eq_comm, decide_eq_true_iff]
          omega
        · show false = _
          rw [hrest, eq_comm, decide_eq_false_iff_not]
          omega
    | gt =>
        have hmore := Nat.compare_eq_gt.1 horder
        refine ⟨rfl, ?_, ?_⟩
        · show true = _
          rw [hrest, eq_comm, decide_eq_true_iff]
          omega
        · show true = _
          rw [hrest, eq_comm, decide_eq_true_iff]
          omega

/-! ## Shifting to the exponent of a double -/

theorem targetExponent_eq (m : Nat) (e : Int) :
    Format.binary64.targetExponent (totalExponent m e) = max ((m.log2 : Int) + e - 52) (-1074) := by
  show max ((m.log2 : Int) + 1 + e - 53) (-1074) = _
  omega

/-- A mantissa of at most 53 bits is not shifted. -/
theorem shiftToTargetExponent_of_lt {m : Nat} {e : Int} (hm : m < 2 ^ 53) (he : -1074 ≤ e) :
    shiftToTargetExponent Format.binary64 m e .exact = (⟨m, false, false⟩, e) := by
  have hlog : m.log2 ≤ 52 := by
    rcases Nat.eq_zero_or_pos m with rfl | hpos
    · decide
    · exact Nat.le_of_lt_succ ((Nat.log2_lt (by omega)).2 hm)
  have hshift : (Format.binary64.targetExponent (totalExponent m e) - e).toNat = 0 := by
    rw [targetExponent_eq]
    omega
  unfold shiftToTargetExponent shiftToExponent
  dsimp only
  rw [hshift, Int.ofNat_zero, Int.add_zero]
  rfl

/-- A carry into the 54th bit is shifted by one. -/
theorem shiftToTargetExponent_carry {e : Int} (he : -1074 ≤ e) :
    shiftToTargetExponent Format.binary64 (2 ^ 53) e .exact = (⟨2 ^ 52, false, false⟩, e + 1) := by
  have hshift : (Format.binary64.targetExponent (totalExponent (2 ^ 53) e) - e).toNat = 1 := by
    rw [targetExponent_eq, Nat.log2_two_pow]
    omega
  unfold shiftToTargetExponent shiftToExponent
  dsimp only
  rw [hshift]
  rfl

/-! ## Packing -/

/-- What is packed for a mantissa of 53 bits: its rank, or infinity. -/
theorem toNat_pack_normal (s : Sign) {m : Nat} {e : Int} (hm : 0 < m) (hlo : 2 ^ 52 ≤ m)
    (hhi : m < 2 ^ 53) {shift : Nat} (he : e = (shift : Int) - 1074) :
    (UnpackedFloat.pack Format.binary64 (.finite s m e hm)).toNat
      = s.toBitVec.toNat * 2 ^ 63 + min infinityRank (shift * 2 ^ 52 + m) := by
  have hrank : infinityRank = 2047 * 2 ^ 52 := rfl
  obtain rfl : e = ((shift + 1 : Nat) : Int) - 1075 := by omega
  by_cases hfinite : shift + 1 < 2047
  · rw [pack_normal s hm hfinite hlo hhi, toNat_packComponents, BitVec.toNat_ofNat,
      BitVec.toNat_ofNat]
    omega
  · have hbiased : ((((shift + 1 : Nat) : Int) - 1075) + (Format.binary64.exponentBias : Nat)
        + (Format.binary64.mantissaBitsWithoutImplicit : Nat)).toNat = shift + 1 := by
      show (((shift + 1 : Nat) : Int) - 1075 + (1023 : Nat) + (52 : Nat)).toNat = shift + 1
      omega
    have hinfinite : 2 ^ Format.binary64.exponentBits ≤ shift + 1 + 1 := by
      show 2 ^ 11 ≤ shift + 1 + 1
      omega
    have hpacked : UnpackedFloat.pack Format.binary64
        (.finite s m (((shift + 1 : Nat) : Int) - 1075) hm) = packedInfinity Format.binary64 s := by
      rw [UnpackedFloat.pack]
      simp only [hbiased]
      exact if_pos hinfinite
    rw [hpacked, packedInfinity, toNat_packComponents]
    show s.toBitVec.toNat * 2 ^ 63 + 2047 * 2 ^ 52 + 0 = _
    omega

/-- A smaller mantissa belongs to the smallest exponent, and its rank is the mantissa itself. -/
theorem toNat_pack_small (s : Sign) {m : Nat} (hm : 0 < m) (hlt : m < 2 ^ 52) :
    (UnpackedFloat.pack Format.binary64 (.finite s m (-1074) hm)).toNat
      = s.toBitVec.toNat * 2 ^ 63 + m := by
  rw [pack_subnormal s hm hlt, toNat_packComponents, BitVec.toNat_ofNat]
  show s.toBitVec.toNat * 2 ^ 63 + 0 * 2 ^ 52 + m % 2 ^ 52 = _
  omega

/-! ## Rounding -/

theorem log2_div_two_pow (n t : Nat) : (n / 2 ^ t).log2 = n.log2 - t := by
  induction t with
  | zero => rw [Nat.pow_zero, Nat.div_one, Nat.sub_zero]
  | succ t ih =>
      rw [Nat.pow_succ, ← Nat.div_div_eq_div_mul, Nat.log2_eq_log_two, Nat.log_div_base,
        ← Nat.log2_eq_log_two, ih, Nat.sub_sub]

/-- Doubling the dividend gives the quotient one more bit each time. -/
theorem log2_mul_two_pow_div {num den : Nat} (hden : 0 < den) (hquotient : num / den ≠ 0)
    (t : Nat) : (num * 2 ^ t / den).log2 = (num / den).log2 + t := by
  have hlo : 2 ^ ((num / den).log2 + t) ≤ num * 2 ^ t / den := by
    rw [Nat.le_div_iff_mul_le hden, Nat.pow_add]
    calc 2 ^ (num / den).log2 * 2 ^ t * den
        = 2 ^ (num / den).log2 * den * 2 ^ t := by ring
      _ ≤ num / den * den * 2 ^ t :=
          Nat.mul_le_mul_right _ (Nat.mul_le_mul_right _ (Nat.log2_self_le hquotient))
      _ ≤ num * 2 ^ t := Nat.mul_le_mul_right _ (Nat.div_mul_le_self _ _)
  have hhi : num * 2 ^ t / den < 2 ^ ((num / den).log2 + t + 1) := by
    rw [Nat.div_lt_iff_lt_mul hden]
    have hnum : num < 2 ^ ((num / den).log2 + 1) * den :=
      (Nat.div_lt_iff_lt_mul hden).1 Nat.lt_log2_self
    calc num * 2 ^ t
        < 2 ^ ((num / den).log2 + 1) * den * 2 ^ t :=
          Nat.mul_lt_mul_of_pos_right hnum (Nat.two_pow_pos t)
      _ = 2 ^ ((num / den).log2 + t + 1) * den := by
          rw [Nat.add_right_comm, Nat.pow_add]
          ring
  rw [Nat.log2_eq_iff (Nat.ne_of_gt (Nat.lt_of_lt_of_le (Nat.two_pow_pos _) hlo))]
  exact ⟨hlo, hhi⟩

/-- How far a dividend is shifted for a quotient of 53 bits. -/
theorem le_log2_quotient {m m' k : Nat} (hm : 0 < m) (hm' : 0 < m')
    (hk : 52 + (m'.log2 + 1) ≤ m.log2 + k) : 52 ≤ (m * 2 ^ k / m').log2 := by
  have hle : 2 ^ 52 ≤ m * 2 ^ k / m' := by
    rw [Nat.le_div_iff_mul_le hm']
    calc 2 ^ 52 * m'
        ≤ 2 ^ 52 * 2 ^ (m'.log2 + 1) := Nat.mul_le_mul_left _ (Nat.le_of_lt Nat.lt_log2_self)
      _ = 2 ^ (52 + (m'.log2 + 1)) := (Nat.pow_add _ _ _).symm
      _ ≤ 2 ^ (m.log2 + k) := Nat.pow_le_pow_right (by decide) hk
      _ = 2 ^ m.log2 * 2 ^ k := Nat.pow_add _ _ _
      _ ≤ m * 2 ^ k := Nat.mul_le_mul_right _ (Nat.log2_self_le (Nat.ne_of_gt hm))
  exact (Nat.le_log2 (by omega)).2 hle

/-- The number of units in one, with its exponent behind a name. -/
theorem exists_unitsPerOne : ∃ n, n = 1074 ∧ unitsPerOne = 2 ^ n :=
  ⟨1074, rfl, by rw [unitsPerOne]⟩

/-- The shift that the reader of quotients finds is the one to the exponent of a double. -/
theorem shiftOfRatio_eq {num den a b : Nat} (hden : 0 < den) {e : Int} (he : e = (b : Int) - a)
    (hbits : 52 ≤ (num / den).log2 ∨ e ≤ -1074) :
    (shiftOfRatio (num * 2 ^ b) (den * 2 ^ a) : Int)
      = max (((num / den).log2 : Int) + e - 52) (-1074) + 1074 := by
  obtain ⟨n, hn, hone⟩ := exists_unitsPerOne
  unfold shiftOfRatio
  rw [hone, Nat.mul_assoc, ← Nat.pow_add]
  rcases Nat.le_total a (b + n) with hle | hle
  · -- the quotient is shifted to the left
    obtain ⟨t, ht⟩ := Nat.exists_eq_add_of_le hle
    have hquotient : num * 2 ^ (b + n) / (den * 2 ^ a) = num * 2 ^ t / den := by
      rw [ht, Nat.pow_add, Nat.mul_comm (2 ^ a), ← Nat.mul_assoc]
      exact Nat.mul_div_mul_right _ _ (Nat.two_pow_pos a)
    rw [hquotient]
    by_cases hzero : num / den = 0
    · have hbound : e ≤ -1074 := by
        refine hbits.resolve_left ?_
        rw [hzero]
        decide
      obtain rfl : t = 0 := by omega
      rw [Nat.pow_zero, Nat.mul_one, hzero, Nat.log2_zero]
      omega
    · rw [log2_mul_two_pow_div hden hzero]
      omega
  · -- the quotient is shifted to the right
    obtain ⟨t, ht⟩ := Nat.exists_eq_add_of_le hle
    have hquotient : num * 2 ^ (b + n) / (den * 2 ^ a) = num / den / 2 ^ t := by
      rw [ht, Nat.pow_add _ _ t, Nat.mul_comm (2 ^ (b + n)), ← Nat.mul_assoc,
        Nat.mul_div_mul_right _ _ (Nat.two_pow_pos _), Nat.div_div_eq_div_mul]
    rw [hquotient, log2_div_two_pow]
    omega

/-- The count that the reader of quotients rounds is that of the shifted mantissa. -/
theorem countOfRatio_eq {num den a b k : Nat}
    (hk : a + shiftOfRatio (num * 2 ^ b) (den * 2 ^ a) = k + b + 1074) :
    countOfRatio (num * 2 ^ b) (den * 2 ^ a) = roundHalfEven num (den * 2 ^ k) := by
  obtain ⟨n, hn, hone⟩ := exists_unitsPerOne
  have hnum : num * 2 ^ b * unitsPerOne = 2 ^ (b + n) * num := by
    rw [hone, Nat.mul_assoc, ← Nat.pow_add, Nat.mul_comm]
  have hden : den * 2 ^ a * 2 ^ shiftOfRatio (num * 2 ^ b) (den * 2 ^ a)
      = 2 ^ (b + n) * (den * 2 ^ k) := by
    rw [Nat.mul_assoc, ← Nat.pow_add, hk, Nat.add_assoc, ← hn, Nat.pow_add]
    ring
  rw [countOfRatio, hnum, hden, roundHalfEven_mul_mul _ _ (Nat.two_pow_pos _)]

/-- What becomes of a mantissa that was shifted and rounded to a count of 53 bits: the second shift
takes care of a carry, and no other count is changed by it. -/
theorem toNat_pack_shifted (s : Sign) {m count shift : Nat} {e : Int} {accuracy : Accuracy}
    {em : ExtendedMantissa} (hrounded : em.roundedMantissa = count)
    (hfirst : shiftToTargetExponent Format.binary64 m e accuracy = (em, (shift : Int) - 1074))
    (hhigh : count ≤ 2 ^ 53) (hleast : shift = 0 ∨ 2 ^ 52 ≤ count) :
    (UnpackedFloat.pack Format.binary64
        (roundWithAccuracy Format.binary64 s m e accuracy)).toNat
      = s.toBitVec.toNat * 2 ^ 63 + min infinityRank (shift * 2 ^ 52 + count) := by
  have hexponent : -1074 ≤ (shift : Int) - 1074 := by omega
  unfold roundWithAccuracy
  rw [hfirst]
  dsimp only
  rw [hrounded]
  rcases Nat.eq_or_lt_of_le hhigh with rfl | hlt
  · -- a carry
    have hnext : (shift : Int) - 1074 + 1 = ((shift + 1 : Nat) : Int) - 1074 := by omega
    have hcarry : (shift + 1) * 2 ^ 52 + 2 ^ 52 = shift * 2 ^ 52 + 2 ^ 53 := by omega
    rw [shiftToTargetExponent_carry hexponent]
    dsimp only
    rw [dif_neg (Nat.ne_of_gt (Nat.two_pow_pos 52)),
      toNat_pack_normal s _ (Nat.le_refl _) (by decide) hnext, hcarry]
  rw [shiftToTargetExponent_of_lt hlt hexponent]
  dsimp only
  by_cases hzero : count = 0
  · obtain rfl : shift = 0 := by omega
    rw [dif_pos hzero, hzero]
    show (packedZero Format.binary64 s).toNat = _
    rw [packedZero, toNat_packComponents]
    show s.toBitVec.toNat * 2 ^ 63 + 0 * 2 ^ 52 + 0 = _
    omega
  rw [dif_neg hzero]
  rcases Nat.lt_or_ge count (2 ^ 52) with hsmall | hlo
  · obtain rfl : shift = 0 := by omega
    have hexp : ((0 : Nat) : Int) - 1074 = -1074 := rfl
    have hrank : infinityRank = 2047 * 2 ^ 52 := rfl
    rw [hexp, toNat_pack_small s _ hsmall]
    omega
  · rw [toNat_pack_normal s _ hlo hlt rfl]

/-- **The rounding of an operation is the reading of its exact value.** The mantissa and its
accuracy stand for `num / den`, the exponent is the difference of `b` and `a`, and there are bits
enough for a double. -/
theorem toNat_pack_round (s : Sign) {m : Nat} {e : Int} {accuracy : Accuracy}
    {num den a b : Nat} (hden : 0 < den)
    (hstands : StandsFor (.ofMantissaAndAccuracy m accuracy) num den)
    (he : e = (b : Int) - a) (hbits : 52 ≤ m.log2 ∨ e ≤ -1074) :
    (UnpackedFloat.pack Format.binary64
        (roundWithAccuracy Format.binary64 s m e accuracy)).toNat
      = s.toBitVec.toNat * 2 ^ 63 + rankOfRatio (num * 2 ^ b) (den * 2 ^ a) := by
  have hm : m = num / den := by
    have hmantissa := hstands.mantissa
    cases accuracy with
    | exact => exact hmantissa
    | inexact order => cases order <;> exact hmantissa
  subst hm
  have hcounts := counts (num * 2 ^ b) (Nat.mul_pos hden (Nat.two_pow_pos a))
  have hshift := shiftOfRatio_eq hden he hbits
  have hcount := @countOfRatio_eq num den a b
  rw [rankOfRatio_eq_min, unboundedRank]
  generalize shiftOfRatio (num * 2 ^ b) (den * 2 ^ a) = shift at *
  generalize countOfRatio (num * 2 ^ b) (den * 2 ^ a) = count at *
  have htarget := targetExponent_eq (num / den) e
  generalize hk : (Format.binary64.targetExponent (totalExponent (num / den) e) - e).toNat = k
  have hexponent : e + (k : Int) = (shift : Int) - 1074 := by omega
  have hrounded :
      (ExtendedMantissa.ofMantissaAndAccuracy (num / den) accuracy >>> k).roundedMantissa
        = count := by
    rw [(hstands.shiftRight hden k).roundedMantissa (Nat.mul_pos hden (Nat.two_pow_pos k))]
    exact (hcount (by omega)).symm
  refine toNat_pack_shifted s hrounded ?_ hcounts.high hcounts.least
  unfold shiftToTargetExponent shiftToExponent
  dsimp only
  rw [hk, hexponent]

/-! ## Doubles without a sign -/

theorem rankOfRatio_le_infinityRank (num den : Nat) : rankOfRatio num den ≤ infinityRank :=
  Nat.min_le_left _ _

theorem toNat_toBits_doubleOfRank {rank : Nat} (h : rank ≤ infinityRank) :
    (doubleOfRank false rank).toBits.toNat = rank := by
  have hle : rank ≤ 0x7ff0000000000000 := h
  rw [toBits_doubleOfRank h, UInt64.toNat_ofNat']
  omega

/-- A double without a sign is determined by its rank. -/
theorem eq_doubleOfRank {x : Float} {rank : Nat} (h : rank ≤ infinityRank)
    (hbits : x.toBits.toNat = rank) : x = doubleOfRank false rank := by
  refine toBits_injective (UInt64.toNat_inj.1 ?_)
  rw [hbits, toNat_toBits_doubleOfRank h]

/-- An operation without a sign is one rounding of its exact value. -/
theorem ofModel_pack_round {m : Nat} {e : Int} {accuracy : Accuracy} {num den a b : Nat}
    (hden : 0 < den) (hstands : StandsFor (.ofMantissaAndAccuracy m accuracy) num den)
    (he : e = (b : Int) - a) (hbits : 52 ≤ m.log2 ∨ e ≤ -1074) :
    Float.ofModel (Float.Model.pack (roundWithAccuracy Format.binary64 .positive m e accuracy))
      = nearestDouble (num * 2 ^ b) (den * 2 ^ a) := by
  refine eq_doubleOfRank (rankOfRatio_le_infinityRank _ _) ?_
  refine (toNat_pack_round .positive hden hstands he hbits).trans ?_
  show 0 * 2 ^ 63 + _ = _
  rw [Nat.zero_mul, Nat.zero_add]

/-- A pattern below the exponents is the mantissa itself. -/
theorem unpack_small {bits : BitVec 64} {m : Nat} (hm : 0 < m) (hlt : m < 2 ^ 52)
    (hbits : bits.toNat = m) :
    UnpackedFloat.unpack Format.binary64 bits = .finite .positive m (-1074) hm := by
  have hsign : Sign.ofBitVec (@unpackSign Format.binary64 bits) = .positive := by
    refine if_pos (BitVec.eq_of_toNat_eq ?_)
    rw [toNat_unpackSign, hbits]
    show m / 2 ^ 63 = 0
    omega
  have hmantissa : (@unpackMantissa Format.binary64 bits).toNat = m := by
    rw [toNat_unpackMantissa, hbits]
    omega
  have hexponent : @unpackExponent Format.binary64 bits = 0#11 := by
    refine BitVec.eq_of_toNat_eq ?_
    rw [toNat_unpackExponent, hbits]
    show m / 2 ^ 52 % 2 ^ 11 = 0
    omega
  have hzero : ¬ @unpackMantissa Format.binary64 bits = 0#52 := by
    intro hnull
    rw [hnull] at hmantissa
    exact Nat.ne_of_gt hm hmantissa.symm
  have he : ((0#11 : BitVec 11).toNat : Int) - ((Format.binary64.exponentBias : Nat)
      + (Format.binary64.mantissaBitsWithoutImplicit : Nat)) + 1 = -1074 := by
    decide
  rw [UnpackedFloat.unpack]
  dsimp only
  rw [hexponent, if_neg (by decide), if_pos rfl, dif_neg hzero, hsign]
  simp only [hmantissa, he]

/-- Any other pattern of a positive number has a mantissa of 53 bits. -/
theorem unpack_normal {bits : BitVec 64} {shift m : Nat} (hlo : 2 ^ 52 ≤ m) (hhi : m < 2 ^ 53)
    (hshift : shift < 2046)
    (hbits : bits.toNat = shift * 2 ^ 52 + m) :
    UnpackedFloat.unpack Format.binary64 bits
      = .finite .positive m ((shift : Int) - 1074)
          (Nat.lt_of_lt_of_le (Nat.two_pow_pos 52) hlo) := by
  have hsign : Sign.ofBitVec (@unpackSign Format.binary64 bits) = .positive := by
    refine if_pos (BitVec.eq_of_toNat_eq ?_)
    rw [toNat_unpackSign, hbits]
    show (shift * 2 ^ 52 + m) / 2 ^ 63 = 0
    omega
  have hmantissa : (@unpackMantissa Format.binary64 bits).toNat = m - 2 ^ 52 := by
    rw [toNat_unpackMantissa, hbits]
    omega
  have hexponent : (@unpackExponent Format.binary64 bits).toNat = shift + 1 := by
    rw [toNat_unpackExponent, hbits]
    omega
  have hones : ¬ @unpackExponent Format.binary64 bits = -1#11 := by
    intro hall
    rw [hall] at hexponent
    have hfull : 2047 = shift + 1 := hexponent
    omega
  have hnone : ¬ @unpackExponent Format.binary64 bits = 0#11 := by
    intro hzero
    rw [hzero] at hexponent
    cases hexponent
  have hm : (1#1 ++ @unpackMantissa Format.binary64 bits).toNat = m := by
    rw [toNat_implicitBit, hmantissa]
    omega
  have he : ((@unpackExponent Format.binary64 bits).toNat : Int)
      - ((Format.binary64.exponentBias : Nat) + (Format.binary64.mantissaBitsWithoutImplicit : Nat))
      = (shift : Int) - 1074 := by
    rw [hexponent]
    show ((shift + 1 : Nat) : Int) - ((1023 : Nat) + (52 : Nat)) = _
    omega
  rw [UnpackedFloat.unpack]
  dsimp only
  rw [if_neg hones, if_neg hnone, hsign]
  simp only [hm, he]

/-- What a positive finite double is made of. With another sign it has the same rank. -/
theorem exists_unpack {rank : Nat} (hpos : 0 < rank) (hfinite : rank < infinityRank) :
    ∃ (m i : Nat) (hm : 0 < m), (doubleOfRank false rank).toModel.unpack
        = .finite .positive m ((i : Int) - 1074) hm ∧
      unitsOfRank rank = m * 2 ^ i ∧ (2 ^ 52 ≤ m ∨ i = 0) ∧
      ∀ s, (UnpackedFloat.pack Format.binary64 (.finite s m ((i : Int) - 1074) hm)).toNat
        = s.toBitVec.toNat * 2 ^ 63 + rank := by
  have hlt : rank < 2047 * 2 ^ 52 := hfinite
  have hbits : (doubleOfRank false rank).toBits.toBitVec.toNat = rank :=
    toNat_toBits_doubleOfRank (Nat.le_of_lt hfinite)
  rcases Nat.lt_or_ge rank (2 ^ 52) with hsmall | hlarge
  · refine ⟨rank, 0, hpos, unpack_small hpos hsmall hbits, ?_, Or.inr rfl, ?_⟩
    · rw [unitsOfRank_of_lt (by omega), Nat.pow_zero, Nat.mul_one]
    · exact fun s => toNat_pack_small s hpos hsmall
  · obtain ⟨shift, m, rfl, hlo, hhi⟩ := exists_shift rank hlarge
    refine ⟨m, shift, _, unpack_normal hlo hhi (by omega) hbits, unitsOfRank_eq hlo hhi,
      Or.inl hlo, ?_⟩
    intro s
    rw [toNat_pack_normal s _ hlo hhi rfl, Nat.min_eq_right (Nat.le_of_lt hfinite)]

theorem isInf_doubleOfRank {rank : Nat} (hfinite : rank < infinityRank) :
    (doubleOfRank false rank).isInf = false := by
  rcases Nat.eq_zero_or_pos rank with rfl | hpos
  · decide +kernel
  · obtain ⟨m, i, hm, hunpack, -⟩ := exists_unpack hpos hfinite
    show UnpackedFloat.isInf (doubleOfRank false rank).toModel.unpack = false
    rw [hunpack]
    rfl

theorem doubleOfRank_beq_zero {rank : Nat} (hpos : 0 < rank) (hfinite : rank < infinityRank) :
    (doubleOfRank false rank == 0) = false := by
  obtain ⟨m, i, hm, hunpack, -⟩ := exists_unpack hpos hfinite
  have hzero : (0 : Float).toModel.unpack = .zero .positive := by rfl
  show UnpackedFloat.beq (doubleOfRank false rank).toModel.unpack (0 : Float).toModel.unpack = false
  rw [hunpack, hzero]
  rfl

/-- Negation sets the sign bit and keeps the rank. -/
theorem toNat_toBits_neg {rank : Nat} (hfinite : rank < infinityRank) :
    (-doubleOfRank false rank).toBits.toNat = 2 ^ 63 + rank := by
  rcases Nat.eq_zero_or_pos rank with rfl | hpos
  · decide +kernel
  · obtain ⟨m, i, hm, hunpack, -, -, hpack⟩ := exists_unpack hpos hfinite
    show (UnpackedFloat.pack Format.binary64
      (UnpackedFloat.neg (doubleOfRank false rank).toModel.unpack)).toNat = _
    rw [hunpack]
    exact hpack .negative

/-! ## Products, quotients and integers -/

section

variable {rank rank' : Nat}

/-- **A product is the exact product, rounded.** -/
theorem doubleOfRank_mul (hpos : 0 < rank) (hfinite : rank < infinityRank) (hpos' : 0 < rank')
    (hfinite' : rank' < infinityRank) :
    doubleOfRank false rank * doubleOfRank false rank'
      = nearestDouble (unitsOfRank rank * unitsOfRank rank') (unitsPerOne * unitsPerOne) := by
  obtain ⟨m, i, hm, hunpack, hunits, hcanonical, -⟩ := exists_unpack hpos hfinite
  obtain ⟨m', i', hm', hunpack', hunits', hcanonical', -⟩ := exists_unpack hpos' hfinite'
  have hproduct : doubleOfRank false rank * doubleOfRank false rank'
      = Float.ofModel (Float.Model.pack (roundWithAccuracy Format.binary64 .positive (m * m')
          ((i : Int) - 1074 + ((i' : Int) - 1074)) .exact)) := by
    show Float.ofModel (Float.Model.pack (UnpackedFloat.mul Format.binary64 _ _)) = _
    rw [hunpack, hunpack']
    rfl
  obtain ⟨n, hn, hone⟩ := exists_unitsPerOne
  have hexponent :
      (i : Int) - 1074 + ((i' : Int) - 1074) = ((i + i' : Nat) : Int) - (n + n : Nat) := by
    omega
  have hbits : 52 ≤ (m * m').log2 ∨ (i : Int) - 1074 + ((i' : Int) - 1074) ≤ -1074 := by
    by_cases hsmall : m < 2 ^ 52 ∧ m' < 2 ^ 52
    · exact Or.inr (by omega)
    · refine Or.inl ((Nat.le_log2 (Nat.ne_of_gt (Nat.mul_pos hm hm'))).2 ?_)
      rcases not_and_or.1 hsmall with hlarge | hlarge
      · exact Nat.le_trans (Nat.le_of_not_lt hlarge) (Nat.le_mul_of_pos_right m hm')
      · exact Nat.le_trans (Nat.le_of_not_lt hlarge) (Nat.le_mul_of_pos_left m' hm)
  have hexact : m * m' * 2 ^ (i + i') = unitsOfRank rank * unitsOfRank rank' := by
    rw [hunits, hunits', Nat.pow_add]
    ring
  have hsquare : 1 * 2 ^ (n + n) = unitsPerOne * unitsPerOne := by
    rw [hone, Nat.one_mul, Nat.pow_add]
  rw [hproduct, ofModel_pack_round Nat.one_pos (standsFor_exact (m * m')) hexponent hbits, hexact,
    hsquare]

/-- **A quotient is the exact quotient, rounded.** -/
theorem doubleOfRank_div (hpos : 0 < rank) (hfinite : rank < infinityRank) (hpos' : 0 < rank')
    (hfinite' : rank' < infinityRank) :
    doubleOfRank false rank / doubleOfRank false rank'
      = nearestDouble (unitsOfRank rank) (unitsOfRank rank') := by
  obtain ⟨m, i, hm, hunpack, hunits, -⟩ := exists_unpack hpos hfinite
  obtain ⟨m', i', hm', hunpack', hunits', -⟩ := exists_unpack hpos' hfinite'
  -- the exponent for which the whole part of the quotient has bits enough
  generalize htarget : min ((i : Int) - 1074 - ((i' : Int) - 1074)) (Format.binary64.targetExponent
    (totalExponent m ((i : Int) - 1074) - totalExponent m' ((i' : Int) - 1074))) = e
  have he : e = min ((i : Int) - i') (max ((m.log2 : Int) + i - (m'.log2 + i') - 53) (-1074)) := by
    rw [← htarget]
    show min _ (max ((m.log2 : Int) + 1 + ((i : Int) - 1074)
      - ((m'.log2 : Int) + 1 + ((i' : Int) - 1074)) - 53) (-1074)) = _
    omega
  obtain ⟨k, hk⟩ : ∃ k : Nat, (k : Int) = (i : Int) - i' - e :=
    ⟨((i : Int) - i' - e).toNat, by omega⟩
  have hquotient : doubleOfRank false rank / doubleOfRank false rank'
      = Float.ofModel (Float.Model.pack (roundWithAccuracy Format.binary64 .positive
          (m * 2 ^ k / m') e (accuracyOfFraction (m * 2 ^ k % m') m'))) := by
    have hamount : ((i : Int) - 1074 - ((i' : Int) - 1074) - e).toNat = k := by omega
    show Float.ofModel (Float.Model.pack (UnpackedFloat.div Format.binary64 _ _)) = _
    rw [hunpack, hunpack', UnpackedFloat.div, divCore]
    dsimp only
    rw [htarget, hamount, Nat.shiftLeft_eq]
    rfl
  have hbits : 52 ≤ (m * 2 ^ k / m').log2 ∨ e ≤ -1074 := by
    by_cases hsmall : e ≤ -1074
    · exact Or.inr hsmall
    · exact Or.inl (le_log2_quotient hm hm' (by omega))
  have hexponent : e = ((e.toNat : Nat) : Int) - ((-e).toNat : Nat) := by omega
  have hsame : rankOfRatio (m * 2 ^ k * 2 ^ e.toNat) (m' * 2 ^ (-e).toNat)
      = rankOfRatio (unitsOfRank rank) (unitsOfRank rank') := by
    have hnum : 2 ^ i' * (m * 2 ^ k * 2 ^ e.toNat) = 2 ^ (-e).toNat * unitsOfRank rank := by
      have hpowers : i' + (k + e.toNat) = (-e).toNat + i := by omega
      calc 2 ^ i' * (m * 2 ^ k * 2 ^ e.toNat)
          = m * 2 ^ (i' + (k + e.toNat)) := by rw [Nat.pow_add, Nat.pow_add]; ring
        _ = 2 ^ (-e).toNat * unitsOfRank rank := by rw [hpowers, hunits, Nat.pow_add]; ring
    have hden : 2 ^ i' * (m' * 2 ^ (-e).toNat) = 2 ^ (-e).toNat * unitsOfRank rank' := by
      rw [hunits']
      ring
    rw [← rankOfRatio_mul_mul _ _ (Nat.two_pow_pos i'), hnum, hden,
      rankOfRatio_mul_mul _ _ (Nat.two_pow_pos _)]
  rw [hquotient, ofModel_pack_round hm' (standsFor_fraction (m * 2 ^ k) hm') hexponent hbits,
    nearestDouble, hsame]
  rfl

end

/-- **An integer becomes the double nearest to it.** -/
theorem toFloat_ofNat {n : Nat} (hpos : 0 < n) (hlt : n < 2 ^ 64) :
    (UInt64.ofNat n).toFloat = nearestDouble n 1 := by
  have hnat : (UInt64.ofNat n).toNat = n := by
    rw [UInt64.toNat_ofNat']
    exact Nat.mod_eq_of_lt hlt
  have htarget : Format.binary64.targetExponent (totalExponent n 0) = (n.log2 : Int) - 52 := by
    rw [targetExponent_eq]
    omega
  generalize hk : (0 - ((n.log2 : Int) - 52)).toNat = k
  have hconverted : (UInt64.ofNat n).toFloat
      = Float.ofModel (Float.Model.pack (roundWithAccuracy Format.binary64 .positive (n * 2 ^ k)
          (0 - (k : Int)) .exact)) := by
    have hsign : compare ((n : Int)) 0 = .gt := by
      rw [Int.compare_eq_gt]
      omega
    show Float.ofModel (Float.Model.pack (normalize Format.binary64 ((UInt64.ofNat n).toNat : Int) 0
      .positive)) = _
    rw [hnat, UnpackedFloat.normalize, hsign]
    dsimp only
    rw [Int.toNat_natCast, UnpackedFloat.round, htarget, decreaseExponent]
    dsimp only
    rw [hk, Nat.shiftLeft_eq]
  have hbits : 52 ≤ (n * 2 ^ k).log2 ∨ (0 - (k : Int)) ≤ -1074 := by
    refine Or.inl ?_
    have hlog := log2_mul_two_pow_div Nat.one_pos (by rw [Nat.div_one]; omega : n / 1 ≠ 0) k
    rw [Nat.div_one, Nat.div_one] at hlog
    omega
  have hexponent : (0 - (k : Int)) = ((0 : Nat) : Int) - (k : Nat) := by omega
  have hsame : rankOfRatio (n * 2 ^ k * 2 ^ 0) (1 * 2 ^ k) = rankOfRatio n 1 := by
    rw [Nat.pow_zero, Nat.mul_one, Nat.mul_comm n, Nat.mul_comm 1,
      rankOfRatio_mul_mul _ _ (Nat.two_pow_pos k)]
  rw [hconverted, ofModel_pack_round Nat.one_pos (standsFor_exact (n * 2 ^ k)) hexponent hbits,
    nearestDouble, hsame]
  rfl

end LoxArith
