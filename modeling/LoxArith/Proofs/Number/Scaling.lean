import LoxArith.Proofs.Number.Arithmetic

set_option autoImplicit false

/-! # Digits times a power of ten

A number is read in doubles: its digits become an integer, the integer a double, and that is
multiplied or divided by the double of a power of ten. Each of these operations rounds, and each
rounding can move the result to a neighbour of the double that is nearest to the exact value, so
what counts is how many of them are not exact. Integers of at most 53 bits are doubles, and so are
the powers of ten up to the 22nd.

The result is at most as many ranks away as there are inexact operations before the last one, which
rounds as the exact value does: for a product `Rounded.apart_mul`, for a quotient
`Rounded.apart_div`, and for a quotient of a quotient `Rounded.apart_div_div`.
-/

-- Powers of natural numbers are those of the core library, also beside other instances.
attribute [instance (2000), default_instance 20000] instPowNat

namespace LoxArith

/-! ## Ranks that are few steps apart -/

/-- Neither rank is more than so many steps above the other. -/
def Apart (steps r r' : Nat) : Prop := r ≤ r' + steps ∧ r' ≤ r + steps

namespace Apart

variable {k k' r r' r'' : Nat}

theorem symm (h : Apart k r r') : Apart k r' r := ⟨h.2, h.1⟩

theorem of_eq (h : r = r') : Apart k r r' := ⟨h ▸ Nat.le_add_right _ _, h ▸ Nat.le_add_right _ _⟩

theorem trans (h : Apart k r r') (h' : Apart k' r' r'') : Apart (k + k') r r'' := by
  obtain ⟨hle, hge⟩ := h
  obtain ⟨hle', hge'⟩ := h'
  exact ⟨by omega, by omega⟩

theorem eq_of_zero (h : Apart 0 r r') : r = r' := Nat.le_antisymm h.1 h.2

end Apart

/-- What an operation costs: nothing if it is exact, and a step otherwise. -/
def costUnless (exact : Prop) [Decidable exact] : Nat := if exact then 0 else 1

theorem costUnless_of {exact : Prop} [Decidable exact] (h : exact) : costUnless exact = 0 :=
  if_pos h

theorem costUnless_of_not {exact : Prop} [Decidable exact] (h : ¬exact) : costUnless exact = 1 :=
  if_neg h

theorem costUnless_le (exact : Prop) [Decidable exact] : costUnless exact ≤ 1 := by
  unfold costUnless
  split <;> omega

theorem costUnless_congr {exact exact' : Prop} [Decidable exact] [Decidable exact']
    (h : exact ↔ exact') : costUnless exact = costUnless exact' :=
  if_congr h rfl rfl

section

variable {num den num' den' : Nat}

theorem Near.apart (h : Near (unitsOfRatio num den) (unitsOfRatio num' den')) (hden : 0 < den)
    (hden' : 0 < den') : Apart 1 (rankOfRatio num den) (rankOfRatio num' den') :=
  ⟨h.symm.rank_le_succ hden' hden, h.rank_le_succ hden hden'⟩

/-- An operation whose result is near costs at most a step. -/
theorem apart_of_near {exact : Prop} [Decidable exact] (hden : 0 < den) (hden' : 0 < den')
    (hnear : Near (unitsOfRatio num den) (unitsOfRatio num' den'))
    (hexact : exact → unitsOfRatio num den = unitsOfRatio num' den') :
    Apart (costUnless exact) (rankOfRatio num den) (rankOfRatio num' den') := by
  unfold costUnless
  split
  · rename_i h
    exact Apart.of_eq (rankOfRatio_congr hden hden' (hexact h))
  · exact hnear.apart hden hden'

end

/-! ## Integers as doubles -/

/-- How many units the double nearest to an integer is worth. -/
def unitsOfNat (n : Nat) : Nat := unitsOfRank (rankOfRatio n 1)

theorem rankOfNat_mono {n n' : Nat} (h : n ≤ n') : rankOfRatio n 1 ≤ rankOfRatio n' 1 := by
  refine rankOfRatio_mono Nat.one_pos Nat.one_pos ?_
  rw [unitsOfRatio_one, unitsOfRatio_one]
  exact mul_le_mul_of_nonneg_right (Nat.cast_le.2 h) (Nat.cast_nonneg _)

/-- Integers of 64 bits are in the range of doubles, and so are powers of ten up to the 308th. -/
theorem rankOfNat_lt : rankOfRatio (2 ^ 64) 1 < infinityRank ∧
    rankOfRatio (10 ^ 308) 1 < infinityRank := by
  decide +kernel

theorem rankOfNat_lt_of_word {n : Nat} (h : n < 2 ^ 64) : rankOfRatio n 1 < infinityRank :=
  Nat.lt_of_le_of_lt (rankOfNat_mono (Nat.le_of_lt h)) rankOfNat_lt.1

theorem rankOfNat_lt_of_power {k : Nat} (h : k ≤ 308) : rankOfRatio (10 ^ k) 1 < infinityRank :=
  Nat.lt_of_le_of_lt (rankOfNat_mono (Nat.pow_le_pow_right (by decide) h)) rankOfNat_lt.2

theorem unitsOfNat_one : 0 < rankOfRatio 1 1 ∧ unitsOfNat 1 = unitsPerOne := by
  decide +kernel

theorem rankOfNat_pos {n : Nat} (h : 0 < n) : 0 < rankOfRatio n 1 :=
  Nat.lt_of_lt_of_le unitsOfNat_one.1 (rankOfNat_mono h)

theorem unitsPerOne_le_unitsOfNat {n : Nat} (h : 0 < n) : unitsPerOne ≤ unitsOfNat n :=
  unitsOfNat_one.2 ▸ unitsOfRank_strictMono.monotone (rankOfNat_mono h)

theorem unitsOfNat_pos {n : Nat} (h : 0 < n) : 0 < unitsOfNat n :=
  Nat.lt_of_lt_of_le unitsPerOne_pos (unitsPerOne_le_unitsOfNat h)

/-- An integer is close to its double. -/
theorem close_unitsOfNat {n : Nat} (hpos : 0 < n) (hfinite : rankOfRatio n 1 < infinityRank) :
    Close (n * unitsPerOne) (unitsOfNat n) := by
  have hnear := near_unitsOfRank Nat.one_pos hfinite
  rw [unitsOfRatio_one] at hnear
  have hone : 2 ^ 52 ≤ unitsPerOne := by decide +kernel
  refine hnear.close ?_ ?_
  · have hle : 2 ^ 52 ≤ n * unitsPerOne :=
      Nat.le_trans hone (Nat.le_mul_of_pos_left _ hpos)
    exact_mod_cast hle
  · have hle : 2 ^ 52 ≤ unitsOfNat n := Nat.le_trans hone (unitsPerOne_le_unitsOfNat hpos)
    exact_mod_cast hle

/-- An integer is a double if it has at most 53 bits before its last zeros. -/
theorem unitsOfNat_of_bits {n c j : Nat} (hc : c < 2 ^ 53) (hn : n = c * 2 ^ j)
    (hfinite : rankOfRatio n 1 < infinityRank) : unitsOfNat n = n * unitsPerOne := by
  refine unitsOfRank_of_dvd hfinite ?_
  obtain ⟨e, -, hone⟩ := exists_unitsPerOne
  have hsplit : n * unitsPerOne = c * 2 ^ (j + e) := by
    rw [hn, hone, Nat.mul_assoc, ← Nat.pow_add]
  unfold shiftOfRatio
  rw [Nat.div_one, hsplit]
  rcases Nat.eq_zero_or_pos c with rfl | hpos
  · rw [Nat.zero_mul]
    exact dvd_zero _
  have hlog : (c * 2 ^ (j + e)).log2 < 53 + (j + e) := by
    have hne : c * 2 ^ (j + e) ≠ 0 := Nat.ne_of_gt (Nat.mul_pos hpos (Nat.two_pow_pos _))
    rw [Nat.log2_lt hne, Nat.pow_add 2 53]
    exact Nat.mul_lt_mul_of_pos_right hc (Nat.two_pow_pos _)
  have hshift : (c * 2 ^ (j + e)).log2 - 52 ≤ j + e := by omega
  exact (Nat.pow_dvd_pow 2 hshift).mul_left c

/-- **Integers up to `2 ^ 53` are doubles.** -/
theorem unitsOfNat_of_le {n : Nat} (h : n ≤ 2 ^ 53) : unitsOfNat n = n * unitsPerOne := by
  have hfinite : rankOfRatio n 1 < infinityRank := rankOfNat_lt_of_word (by omega)
  rcases Nat.eq_or_lt_of_le h with heq | hlt
  · exact unitsOfNat_of_bits (c := 1) (by decide) (heq.trans (Nat.one_mul _).symm) hfinite
  · exact unitsOfNat_of_bits (j := 0) hlt (Nat.mul_one n).symm hfinite

/-- **Powers of ten up to the 22nd are doubles.** -/
theorem unitsOfNat_of_power {k : Nat} (h : k ≤ 22) :
    unitsOfNat (10 ^ k) = 10 ^ k * unitsPerOne := by
  have hfive : 5 ^ k < 2 ^ 53 :=
    Nat.lt_of_le_of_lt (Nat.pow_le_pow_right (by decide) h) (by decide)
  have hten : 10 ^ k = 5 ^ k * 2 ^ k := Nat.mul_pow 5 2 k
  exact unitsOfNat_of_bits hfive hten (rankOfNat_lt_of_power (by omega))

/-- An integer in the range of doubles, with a condition under which it is a double. -/
structure Rounded (n : Nat) (exact : Prop) : Prop where
  pos : 0 < n
  finite : rankOfRatio n 1 < infinityRank
  exact : exact → unitsOfNat n = n * unitsPerOne

theorem rounded_digits {n : Nat} (hpos : 0 < n) (hword : n < 2 ^ 64) : Rounded n (n ≤ 2 ^ 53) :=
  ⟨hpos, rankOfNat_lt_of_word hword, unitsOfNat_of_le⟩

theorem rounded_power {k : Nat} (h : k ≤ 308) : Rounded (10 ^ k) (k ≤ 22) :=
  ⟨Nat.pow_pos (by decide), rankOfNat_lt_of_power h, unitsOfNat_of_power⟩

/-! ## Products and quotients of integers -/

section

variable {n p : Nat} {exact exact' : Prop} [Decidable exact] [Decidable exact']

/-- The digits are rounded, then the factor, and the product as the exact one. -/
theorem Rounded.apart_mul (hn : Rounded n exact) (hp : Rounded p exact') :
    Apart (costUnless exact + costUnless exact') (rankOfRatio (n * p) 1)
      (rankOfRatio (unitsOfNat n * unitsOfNat p) (unitsPerOne * unitsPerOne)) := by
  have hboth : unitsOfRatio (n * p) 1 = n * unitsPerOne * p := by
    rw [unitsOfRatio_one, Nat.cast_mul, mul_right_comm]
  have hfirst : unitsOfRatio (unitsOfNat n * p) unitsPerOne = unitsOfNat n * p := by
    rw [unitsOfRatio_unitsPerOne, Nat.cast_mul]
  have hfactor : (unitsOfNat n : ℚ) * p = p * unitsPerOne * (unitsOfNat n * (1 / unitsPerOne)) := by
    rw [mul_one_div, mul_assoc, mul_div_cancel₀ _ unitsPerOne_ne_zero, mul_comm]
  have hproduct : unitsOfRatio (unitsOfNat n * unitsOfNat p) (unitsPerOne * unitsPerOne)
      = unitsOfNat p * (unitsOfNat n * (1 / unitsPerOne)) := by
    rw [unitsOfRatio_mul_right, unitsOfRatio_unitsPerOne, Nat.cast_mul, mul_comm (unitsOfNat n : ℚ),
      mul_assoc]
  have hdigits : Apart (costUnless exact) (rankOfRatio (n * p) 1)
      (rankOfRatio (unitsOfNat n * p) unitsPerOne) := by
    refine apart_of_near Nat.one_pos unitsPerOne_pos ?_ fun h => ?_
    · rw [hboth, hfirst]
      exact ((close_unitsOfNat hn.pos hn.finite).mul_right (Nat.cast_nonneg p)).near
    · rw [hboth, hfirst, hn.exact h, Nat.cast_mul]
  refine hdigits.trans (apart_of_near unitsPerOne_pos
    (Nat.mul_pos unitsPerOne_pos unitsPerOne_pos) ?_ fun h => ?_)
  · rw [hfirst, hfactor, hproduct]
    exact ((close_unitsOfNat hp.pos hp.finite).mul_right
      (mul_nonneg (Nat.cast_nonneg _) (one_div_nonneg.2 (Nat.cast_nonneg _)))).near
  · rw [hfirst, hfactor, hproduct, hp.exact h, Nat.cast_mul]

/-- The digits are rounded, then the divisor. What is divided by `m` as well is not rounded here. -/
theorem Rounded.apart_div {m : Nat} (hn : Rounded n exact) (hp : Rounded p exact') (hm : 0 < m) :
    Apart (costUnless exact + costUnless exact') (rankOfRatio n (p * m))
      (rankOfRatio (unitsOfNat n) (unitsOfNat p * m)) := by
  have hdivisor : (0 : ℚ) < p * unitsPerOne :=
    mul_pos (Nat.cast_pos.2 hp.pos) (Nat.cast_pos.2 unitsPerOne_pos)
  have hdouble : (0 : ℚ) < unitsOfNat p := Nat.cast_pos.2 (unitsOfNat_pos hp.pos)
  have hboth : unitsOfRatio n (p * m) = n * unitsPerOne * (1 / (p * m : ℕ)) := by
    rw [unitsOfRatio_eq_div, mul_one_div]
  have hfirst : unitsOfRatio (unitsOfNat n) (unitsPerOne * (p * m))
      = unitsOfNat n * (1 / (p * m : ℕ)) := by
    rw [unitsOfRatio_mul_right, unitsOfRatio_unitsPerOne]
  have hscaled : (unitsOfNat n : ℚ) * (1 / (p * m : ℕ))
      = unitsOfNat n * unitsPerOne / m / (p * unitsPerOne) := by
    rw [mul_one_div, div_div, ← mul_assoc, mul_div_mul_right _ _ unitsPerOne_ne_zero, Nat.cast_mul,
      mul_comm (m : ℚ)]
  have hquotient : unitsOfRatio (unitsOfNat n) (unitsOfNat p * m)
      = unitsOfNat n * unitsPerOne / m / unitsOfNat p := by
    rw [unitsOfRatio_eq_div, Nat.cast_mul, div_div, mul_comm (m : ℚ)]
  have hpm : 0 < p * m := Nat.mul_pos hp.pos hm
  have hdigits : Apart (costUnless exact) (rankOfRatio n (p * m))
      (rankOfRatio (unitsOfNat n) (unitsPerOne * (p * m))) := by
    refine apart_of_near hpm (Nat.mul_pos unitsPerOne_pos hpm) ?_ fun h => ?_
    · rw [hboth, hfirst]
      exact ((close_unitsOfNat hn.pos hn.finite).mul_right
        (one_div_nonneg.2 (Nat.cast_nonneg _))).near
    · rw [hboth, hfirst, hn.exact h, Nat.cast_mul n]
  refine hdigits.trans (apart_of_near (Nat.mul_pos unitsPerOne_pos hpm)
    (Nat.mul_pos (unitsOfNat_pos hp.pos) hm) ?_ fun h => ?_)
  · rw [hfirst, hscaled, hquotient]
    exact ((close_unitsOfNat hp.pos hp.finite).div_left hdivisor hdouble
      (div_nonneg (mul_nonneg (Nat.cast_nonneg _) (Nat.cast_nonneg _)) (Nat.cast_nonneg _))).near
  · rw [hfirst, hscaled, hquotient, hp.exact h, Nat.cast_mul p]

/-- A quotient that is divided once more, by an integer that is a double: the quotient in between is
rounded too. -/
theorem Rounded.apart_div_div {m : Nat} (hn : Rounded n exact) (hp : Rounded p exact')
    (hm : 0 < m) (hdouble : unitsOfNat m = m * unitsPerOne)
    (hfinite : rankOfRatio (unitsOfNat n) (unitsOfNat p) < infinityRank) :
    Apart (costUnless exact + costUnless exact' + 1) (rankOfRatio n (p * m))
      (rankOfRatio (unitsOfRank (rankOfRatio (unitsOfNat n) (unitsOfNat p))) (unitsOfNat m)) := by
  refine (hn.apart_div hp hm).trans ?_
  have hp' := unitsOfNat_pos hp.pos
  have hnear := near_unitsOfRank hp' hfinite
  generalize unitsOfRank (rankOfRatio (unitsOfNat n) (unitsOfNat p)) = u at hnear ⊢
  have hlast : unitsOfRatio u (unitsOfNat m) = u * (1 / m) := by
    rw [hdouble, Nat.mul_comm, unitsOfRatio_mul_right, unitsOfRatio_unitsPerOne]
  have hmone : (1 : ℚ) ≤ m := by exact_mod_cast hm
  have hscaled := hnear.mul_right (one_div_nonneg.2 (Nat.cast_nonneg m))
    ((div_le_one (lt_of_lt_of_le one_pos hmone)).2 hmone)
  rw [← unitsOfRatio_mul_right, ← hlast] at hscaled
  exact hscaled.apart (Nat.mul_pos hp' hm) (unitsOfNat_pos hm)

end

end LoxArith
