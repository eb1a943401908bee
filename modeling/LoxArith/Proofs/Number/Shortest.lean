import LoxArith.Number.Shortest
import LoxArith.Proofs.Number.Nearest

set_option autoImplicit false

/-! # The digits a double is written with

The shortest decimal is read as the double it stands for (`Written.reads`), it has at most 17
digits, and its places are those of a double: none beyond the 324th behind the point, and at most
308 zeros before it (`written_shortestDecimal`). The search cannot miss such a decimal: on a grid
that is finer than the distance to the neighbours of the double, one of the two neighbours of the
value reads back (`isSome_neighbour?`), and a grid of 17 digits is.
-/

-- Powers of natural numbers are those of the core library, also beside other instances.
attribute [instance (2000), default_instance 20000] instPowNat

namespace LoxArith

/-! ## The value of a decimal -/

/-- How many points of the finest grid lie in a unit. -/
def pointsPerUnit : Nat := 5 ^ finestPlace

theorem pointsPerUnit_pos : 0 < pointsPerUnit := Nat.pow_pos (by decide)

theorem exactDecimal_eq (rank : Nat) : exactDecimal rank = unitsOfRank rank * pointsPerUnit := rfl

theorem exists_finestPlace : ∃ n, n = 1074 ∧ finestPlace = n ∧ unitsPerOne = 2 ^ n ∧
    pointsPerUnit = 5 ^ n :=
  ⟨1074, rfl, rfl, by rw [unitsPerOne], by rw [pointsPerUnit, finestPlace]⟩

namespace Decimal

theorem denominator_pos (d : Decimal) : 0 < d.denominator := Nat.pow_pos (by decide)

/-- A decimal counted in units. -/
theorem unitsOfRatio_eq (d : Decimal) :
    unitsOfRatio d.numerator d.denominator
      = (d.coefficient * 10 ^ d.place : ℕ) / pointsPerUnit := by
  obtain ⟨n, -, hplace, hone, hpoints⟩ := exists_finestPlace
  have hten : 10 ^ n = 2 ^ n * 5 ^ n := Nat.mul_pow 2 5 n
  have hden : ((10 ^ (n - d.place) : ℕ) : ℚ) ≠ 0 :=
    Nat.cast_ne_zero.2 (Nat.ne_of_gt (Nat.pow_pos (by decide)))
  have hfive : ((5 ^ n : ℕ) : ℚ) ≠ 0 :=
    Nat.cast_ne_zero.2 (Nat.ne_of_gt (Nat.pow_pos (by decide)))
  unfold unitsOfRatio numerator denominator
  rw [hplace, hone, hpoints, div_eq_div_iff hden hfive, ← Nat.cast_mul, ← Nat.cast_mul,
    Nat.cast_inj]
  have hpowers : d.place - n + n = d.place + (n - d.place) := by omega
  calc d.coefficient * 10 ^ (d.place - n) * 2 ^ n * 5 ^ n
      = d.coefficient * (10 ^ (d.place - n) * (2 ^ n * 5 ^ n)) := by ring
    _ = d.coefficient * 10 ^ d.place * 10 ^ (n - d.place) := by
        rw [← hten, ← Nat.pow_add, hpowers, Nat.pow_add]
        ring

end Decimal

theorem unitsOfRank_eq_exactDecimal (rank : Nat) :
    (unitsOfRank rank : ℚ) = exactDecimal rank / pointsPerUnit := by
  have hpoints : (pointsPerUnit : ℚ) ≠ 0 := Nat.cast_ne_zero.2 (Nat.ne_of_gt pointsPerUnit_pos)
  rw [exactDecimal_eq, Nat.cast_mul, mul_div_assoc, div_self hpoints, mul_one]

/-! ## Grids on which a neighbour reads back -/

section

variable {rule : HalfwayRule} {rank place : Nat}

/-- A decimal that is nearer to a double than half the way to its lower neighbour is read as that
double. The upper neighbour is at least as far away. -/
theorem Decimal.readsAs_of_near (hpos : 0 < rank) (hfinite : rank < infinityRank) {c : Nat}
    (habove : 2 * (c * 10 ^ place)
      < 2 * exactDecimal rank + stepOfRank (rank - 1) * pointsPerUnit)
    (hbelow : 2 * exactDecimal rank
      < 2 * (c * 10 ^ place) + stepOfRank (rank - 1) * pointsPerUnit) :
    Decimal.readsAs ⟨c, place⟩ rank = true := by
  have hunits := Decimal.unitsOfRatio_eq ⟨c, place⟩
  have hdouble := unitsOfRank_eq_exactDecimal rank
  have hden := Decimal.denominator_pos ⟨c, place⟩
  have hpoints : (0 : ℚ) < pointsPerUnit := Nat.cast_pos.2 pointsPerUnit_pos
  have hup : 2 * unitsOfRatio (Decimal.numerator ⟨c, place⟩) (Decimal.denominator ⟨c, place⟩)
      < 2 * unitsOfRank rank + stepOfRank (rank - 1) := by
    rw [hunits, hdouble, ← mul_div_assoc, ← mul_div_assoc, div_add' _ _ _ (ne_of_gt hpoints),
      div_lt_div_iff_of_pos_right hpoints]
    exact_mod_cast habove
  have hdown : 2 * (unitsOfRank rank : ℚ) - stepOfRank (rank - 1)
      < 2 * unitsOfRatio (Decimal.numerator ⟨c, place⟩) (Decimal.denominator ⟨c, place⟩) := by
    rw [hunits, hdouble, sub_lt_iff_lt_add, ← mul_div_assoc, ← mul_div_assoc,
      div_add' _ _ _ (ne_of_gt hpoints), div_lt_div_iff_of_pos_right hpoints]
    exact_mod_cast hbelow
  have hsucc := unitsOfRank_succ (rank - 1)
  rw [Nat.sub_add_cancel hpos] at hsucc
  have hmono := stepOfRank_mono (Nat.sub_le rank 1)
  have hhigh : (2 * unitsOfRank rank + stepOfRank (rank - 1) : ℚ) ≤ twiceHalfway rank := by
    have hle : 2 * unitsOfRank rank + stepOfRank (rank - 1) ≤ twiceHalfway rank := by
      rw [twiceHalfway, unitsOfRank_succ]
      omega
    exact_mod_cast hle
  have hlow : (twiceHalfway (rank - 1) : ℚ) ≤ 2 * unitsOfRank rank - stepOfRank (rank - 1) := by
    have hle : twiceHalfway (rank - 1) + stepOfRank (rank - 1) ≤ 2 * unitsOfRank rank := by
      rw [twiceHalfway, Nat.sub_add_cancel hpos]
      omega
    have hcast : ((twiceHalfway (rank - 1) + stepOfRank (rank - 1) : ℕ) : ℚ)
        ≤ (2 * unitsOfRank rank : ℕ) := Nat.cast_le.2 hle
    push_cast at hcast
    linarith
  have hle := rankOfRatio_le hden (lt_of_lt_of_le hup hhigh)
  have hge := lt_rankOfRatio hden (by omega) (lt_of_le_of_lt hlow hdown)
  rw [Decimal.readsAs, beq_iff_eq]
  omega

theorem Decimal.isSome_neighbour?_of_reads {exact : Nat} (hdigit : exact / 10 ^ place ≠ 0)
    (hreads : Decimal.readsAs ⟨exact / 10 ^ place, place⟩ rank = true ∨
      Decimal.readsAs ⟨exact / 10 ^ place + 1, place⟩ rank = true) :
    (Decimal.neighbour? rule rank exact place).isSome = true := by
  unfold neighbour?
  rw [if_neg hdigit]
  generalize Decimal.readsAs ⟨exact / 10 ^ place, place⟩ rank = lower at *
  generalize Decimal.readsAs ⟨exact / 10 ^ place + 1, place⟩ rank = upper at *
  split
  · simp at hreads
  · rfl
  · rfl
  · dsimp only
    split
    · rfl
    split <;> rfl

/-- On a grid whose step is less than that to the lower neighbour, one of the two points next to the
double reads back. -/
theorem Decimal.isSome_neighbour? (hpos : 0 < rank) (hfinite : rank < infinityRank)
    (hstep : 10 ^ place < stepOfRank (rank - 1) * pointsPerUnit)
    (hdigit : 10 ^ place ≤ exactDecimal rank) :
    (Decimal.neighbour? rule rank (exactDecimal rank) place).isSome = true := by
  have hten : 0 < 10 ^ place := Nat.pow_pos (by decide)
  have hbelow : exactDecimal rank / 10 ^ place ≠ 0 := by
    rw [ne_eq, Nat.div_eq_zero_iff]
    omega
  have hdivision := Nat.div_add_mod' (exactDecimal rank) (10 ^ place)
  have hrest := Nat.mod_lt (exactDecimal rank) hten
  have hnext : (exactDecimal rank / 10 ^ place + 1) * 10 ^ place
      = exactDecimal rank / 10 ^ place * 10 ^ place + 10 ^ place := Nat.succ_mul _ _
  refine isSome_neighbour?_of_reads hbelow ?_
  -- the nearer one of them is at most half a step away
  rcases Nat.le_total (2 * (exactDecimal rank % 10 ^ place)) (10 ^ place) with hlower | hupper
  · exact Or.inl (readsAs_of_near hpos hfinite (by omega) (by omega))
  · exact Or.inr (readsAs_of_near hpos hfinite (by omega) (by omega))

/-- What is found on a grid: a decimal that reads back, next to the value. -/
theorem Decimal.of_neighbour? {exact : Nat} {d : Decimal}
    (h : Decimal.neighbour? rule rank exact place = some d) :
    d.place = place ∧ d.readsAs rank = true ∧ exact / 10 ^ place ≠ 0 ∧
      (d.coefficient = exact / 10 ^ place ∨ d.coefficient = exact / 10 ^ place + 1) := by
  unfold neighbour? at h
  by_cases hdigit : exact / 10 ^ place = 0
  · rw [if_pos hdigit] at h
    cases h
  rw [if_neg hdigit] at h
  generalize hlower : Decimal.readsAs ⟨exact / 10 ^ place, place⟩ rank = lower at *
  generalize hupper : Decimal.readsAs ⟨exact / 10 ^ place + 1, place⟩ rank = upper at *
  split at h
  · cases h
  · cases h
    exact ⟨rfl, hlower, hdigit, Or.inl rfl⟩
  · cases h
    exact ⟨rfl, hupper, hdigit, Or.inr rfl⟩
  · dsimp only at h
    split at h
    · cases h
      exact ⟨rfl, hlower, hdigit, Or.inl rfl⟩
    split at h
    · cases h
      exact ⟨rfl, hupper, hdigit, Or.inr rfl⟩
    · cases h
      cases rule with
      | larger => exact ⟨rfl, hupper, hdigit, Or.inr rfl⟩
      | even =>
          unfold HalfwayRule.choose
          dsimp only
          by_cases heven : exact / 10 ^ place % 2 = 0
          · rw [if_pos heven]
            exact ⟨rfl, hlower, hdigit, Or.inl rfl⟩
          · rw [if_neg heven]
            exact ⟨rfl, hupper, hdigit, Or.inr rfl⟩

/-- The finest grid holds the double itself. -/
theorem Decimal.readsAs_exact (hfinite : rank < infinityRank) :
    Decimal.readsAs ⟨exactDecimal rank, 0⟩ rank = true := by
  rw [Decimal.readsAs, beq_iff_eq]
  refine rankOfRatio_of_units (Decimal.denominator_pos _) hfinite ?_
  rw [Decimal.unitsOfRatio_eq, unitsOfRank_eq_exactDecimal, Nat.pow_zero, Nat.mul_one]

/-- What the search finds: a decimal that reads back, next to the value, on no finer grid than any
on which there is one. -/
structure Decimal.FoundFrom (rule : HalfwayRule) (rank top : Nat) (d : Decimal) : Prop where
  reads : d.readsAs rank = true
  lower : 1 ≤ exactDecimal rank / 10 ^ d.place
  least : exactDecimal rank / 10 ^ d.place ≤ d.coefficient
  most : d.coefficient ≤ exactDecimal rank / 10 ^ d.place + 1
  coarsest : ∀ place ≤ top,
    (Decimal.neighbour? rule rank (exactDecimal rank) place).isSome = true → place ≤ d.place

theorem Decimal.foundFrom_searchFrom (hpos : 0 < rank) (hfinite : rank < infinityRank) (top : Nat) :
    Decimal.FoundFrom rule rank top (Decimal.searchFrom rule rank (exactDecimal rank) top) := by
  induction top with
  | zero =>
      have hexact : 1 ≤ exactDecimal rank := by
        have hunits : unitsOfRank 0 < unitsOfRank rank := unitsOfRank_strictMono hpos
        exact Nat.mul_pos (Nat.lt_of_le_of_lt (Nat.zero_le _) hunits) pointsPerUnit_pos
      have hone : exactDecimal rank / 10 ^ 0 = exactDecimal rank := by
        rw [Nat.pow_zero, Nat.div_one]
      refine ⟨readsAs_exact hfinite, ?_, ?_, ?_, fun place hplace _ => hplace⟩
      · exact hone.symm ▸ hexact
      · exact Nat.le_of_eq hone
      · exact Nat.le_succ_of_le (Nat.le_of_eq hone.symm)
  | succ top ih =>
      unfold searchFrom
      cases hfound : neighbour? rule rank (exactDecimal rank) (top + 1) with
      | none =>
          refine ⟨ih.reads, ih.lower, ih.least, ih.most, ?_⟩
          intro place hplace hsome
          rcases Nat.eq_or_lt_of_le hplace with rfl | hlt
          · rw [hfound] at hsome
            cases hsome
          · exact ih.coarsest place (Nat.le_of_lt_succ hlt) hsome
      | some d =>
          obtain ⟨hplace, hreads, hdigit, hcoefficient⟩ := of_neighbour? hfound
          show FoundFrom rule rank (top + 1) d
          rw [← hplace] at hdigit hcoefficient
          refine ⟨hreads, Nat.pos_of_ne_zero hdigit, ?_, ?_, fun place hle _ => hplace.symm ▸ hle⟩
          · rcases hcoefficient with heq | heq
            · exact Nat.le_of_eq heq.symm
            · exact heq ▸ Nat.le_succ _
          · rcases hcoefficient with heq | heq
            · exact heq ▸ Nat.le_succ _
            · exact Nat.le_of_eq heq

end

/-! ## The size of the digits -/

/-- More units than any finite double is worth. -/
def finiteBound : Nat := 2 ^ 2098

theorem pointsPerUnit_bounds : 10 ^ 750 < pointsPerUnit ∧ 2 ^ 2493 ≤ pointsPerUnit := by
  decide +kernel

theorem finiteBound_mul_pointsPerUnit :
    finiteBound * pointsPerUnit ≤ 2 ^ 4592 ∧ 2 * (finiteBound * pointsPerUnit) ≤ 10 ^ 1383 := by
  decide +kernel

theorem unitsOfRank_lt {rank : Nat} (h : rank < infinityRank) : unitsOfRank rank < finiteBound := by
  obtain ⟨shift, hshift⟩ : ∃ shift, shift = 2046 := ⟨2046, rfl⟩
  have hrank : infinityRank = shift * 2 ^ 52 + 2 ^ 52 := by
    unfold infinityRank
    omega
  have hbound : 2 ^ 52 * 2 ^ shift = finiteBound := by
    rw [finiteBound, ← Nat.pow_add]
    congr 1
    omega
  calc unitsOfRank rank
      < unitsOfRank infinityRank := unitsOfRank_strictMono h
    _ = 2 ^ 52 * 2 ^ shift := by rw [hrank, unitsOfRank_eq (Nat.le_refl _) (by decide)]
    _ = finiteBound := hbound

theorem unitsOfRank_pos {rank : Nat} (hpos : 0 < rank) : 0 < unitsOfRank rank :=
  Nat.lt_of_le_of_lt (Nat.zero_le _) (unitsOfRank_strictMono hpos)

theorem pointsPerUnit_le_exactDecimal {rank : Nat} (hpos : 0 < rank) :
    pointsPerUnit ≤ exactDecimal rank := by
  rw [exactDecimal_eq]
  exact Nat.le_mul_of_pos_left _ (unitsOfRank_pos hpos)

theorem exactDecimal_lt {rank : Nat} (hfinite : rank < infinityRank) :
    exactDecimal rank < finiteBound * pointsPerUnit := by
  rw [exactDecimal_eq]
  exact Nat.mul_lt_mul_of_pos_right (unitsOfRank_lt hfinite) pointsPerUnit_pos

theorem log2_exactDecimal {rank : Nat} (hpos : 0 < rank) (hfinite : rank < infinityRank) :
    2493 ≤ (exactDecimal rank).log2 ∧ (exactDecimal rank).log2 < 4592 := by
  have hpoints := pointsPerUnit_le_exactDecimal hpos
  have hne : exactDecimal rank ≠ 0 := Nat.ne_of_gt (Nat.lt_of_lt_of_le pointsPerUnit_pos hpoints)
  exact ⟨(Nat.le_log2 hne).2 (Nat.le_trans pointsPerUnit_bounds.2 hpoints),
    (Nat.log2_lt hne).2
      (Nat.lt_of_lt_of_le (exactDecimal_lt hfinite) finiteBound_mul_pointsPerUnit.1)⟩

/-- Ten to the 28 is a little more than two to the 93, as good as the logarithm is here. -/
theorem two_pow_le_ten_pow {n : Nat} (h : n < 4592) :
    2 ^ (n + 1) ≤ 10 ^ (n * 30103 / 100000 + 18) := by
  have hquotient : 2 ^ (93 * (n / 93)) ≤ 10 ^ (28 * (n / 93)) := by
    rw [Nat.pow_mul, Nat.pow_mul]
    exact Nat.pow_le_pow_left (by decide) _
  have hrest : ∀ t < 93, 2 ^ (t + 1) ≤ 10 ^ (t * 30103 / 100000 + 2) := by decide +kernel
  have hmod := Nat.mod_lt n (show 0 < 93 by decide)
  have hsplit : n + 1 = 93 * (n / 93) + (n % 93 + 1) := by omega
  calc 2 ^ (n + 1)
      = 2 ^ (93 * (n / 93)) * 2 ^ (n % 93 + 1) := by
        rw [← Nat.pow_add, ← hsplit]
    _ ≤ 10 ^ (28 * (n / 93)) * 10 ^ (n % 93 * 30103 / 100000 + 2) :=
        Nat.mul_le_mul hquotient (hrest _ hmod)
    _ = 10 ^ (28 * (n / 93) + (n % 93 * 30103 / 100000 + 2)) := (Nat.pow_add _ _ _).symm
    _ ≤ 10 ^ (n * 30103 / 100000 + 18) := Nat.pow_le_pow_right (by decide) (by omega)

/-- What a double is written with: it reads back, has at most 17 digits, and its places are those
of a double. -/
structure Written (rank : Nat) (d : Decimal) : Prop where
  reads : rankOfRatio d.numerator d.denominator = rank
  positive : 0 < d.coefficient
  digits : d.coefficient ≤ 10 ^ 17
  low : 750 ≤ d.place
  high : d.place ≤ 1382

/-- The grid of 17 digits is fine enough. -/
theorem stepOfRank_of_digits {rank place : Nat} (hpos : 0 < rank)
    (h : 10 ^ (place + 16) ≤ exactDecimal rank) :
    10 ^ place < stepOfRank (rank - 1) * pointsPerUnit := by
  obtain ⟨m, hm, hunits, -⟩ := exists_steps (rank - 1)
  have hsucc := unitsOfRank_succ (rank - 1)
  rw [Nat.sub_add_cancel hpos, hunits, ← Nat.succ_mul] at hsucc
  have hexact : exactDecimal rank ≤ 2 ^ 53 * (stepOfRank (rank - 1) * pointsPerUnit) := by
    rw [exactDecimal_eq, hsucc, Nat.mul_assoc]
    exact Nat.mul_le_mul_right _ hm
  have hreach : 0 < stepOfRank (rank - 1) * pointsPerUnit :=
    Nat.mul_pos (stepOfRank_pos _) pointsPerUnit_pos
  rw [Nat.pow_add] at h
  omega

namespace Decimal.FoundFrom

variable {rule : HalfwayRule} {rank : Nat} {d : Decimal}

/-- The grid of the 324th digit behind the point is fine enough for every double. -/
theorem low (h : Decimal.FoundFrom rule rank (Decimal.coarsestPlace (exactDecimal rank)) d)
    (hpos : 0 < rank) (hfinite : rank < infinityRank) : 750 ≤ d.place := by
  have hlog := (log2_exactDecimal hpos hfinite).1
  have hten := pointsPerUnit_bounds.1
  refine h.coarsest 750 ?_ (Decimal.isSome_neighbour? hpos hfinite ?_ ?_)
  · unfold Decimal.coarsestPlace
    omega
  · exact Nat.lt_of_lt_of_le hten (Nat.le_mul_of_pos_left _ (stepOfRank_pos _))
  · exact Nat.le_trans (Nat.le_of_lt hten) (pointsPerUnit_le_exactDecimal hpos)

/-- And so is the one on which the value has 17 digits. -/
theorem digits (h : Decimal.FoundFrom rule rank (Decimal.coarsestPlace (exactDecimal rank)) d)
    (hpos : 0 < rank) (hfinite : rank < infinityRank) : d.coefficient ≤ 10 ^ 17 := by
  refine Nat.le_trans h.most ?_
  show exactDecimal rank / 10 ^ d.place < 10 ^ 17
  rw [Nat.div_lt_iff_lt_mul (Nat.pow_pos (by decide)), ← Nat.pow_add]
  by_contra hmany
  have hfine : 10 ^ (d.place + 1 + 16) ≤ exactDecimal rank := by
    have hsum : 17 + d.place = d.place + 1 + 16 := by omega
    exact hsum ▸ Nat.le_of_not_lt hmany
  have hle : d.place + 1 ≤ Decimal.coarsestPlace (exactDecimal rank) := by
    by_contra hgt
    have hpow : 10 ^ ((exactDecimal rank).log2 * 30103 / 100000 + 18)
        ≤ 10 ^ (d.place + 1 + 16) := by
      refine Nat.pow_le_pow_right (by decide) ?_
      unfold Decimal.coarsestPlace at hgt
      omega
    have htwo := two_pow_le_ten_pow (log2_exactDecimal hpos hfinite).2
    have hself : exactDecimal rank < 2 ^ ((exactDecimal rank).log2 + 1) := Nat.lt_log2_self
    exact absurd (Nat.le_trans htwo (Nat.le_trans hpow hfine)) (Nat.not_le_of_lt hself)
  -- the search would have stopped on the next coarser grid
  have hfound := h.coarsest (d.place + 1) hle (Decimal.isSome_neighbour? hpos hfinite
    (stepOfRank_of_digits hpos hfine)
    (Nat.le_trans (Nat.pow_le_pow_right (by decide) (Nat.le_add_right _ _)) hfine))
  omega

/-- The next point of the grid is at most twice the value. -/
theorem coefficient_mul_le
    (h : Decimal.FoundFrom rule rank (Decimal.coarsestPlace (exactDecimal rank)) d) :
    d.coefficient * 10 ^ d.place ≤ 2 * exactDecimal rank := by
  have htwice : d.coefficient ≤ 2 * (exactDecimal rank / 10 ^ d.place) := by
    have hmost := h.most
    have hlower := h.lower
    omega
  calc d.coefficient * 10 ^ d.place
      ≤ 2 * (exactDecimal rank / 10 ^ d.place) * 10 ^ d.place := Nat.mul_le_mul_right _ htwice
    _ = 2 * (exactDecimal rank / 10 ^ d.place * 10 ^ d.place) := Nat.mul_assoc _ _ _
    _ ≤ 2 * exactDecimal rank := Nat.mul_le_mul_left _ (Nat.div_mul_le_self _ _)

end Decimal.FoundFrom

namespace Decimal

/-- Decimals of the same value are read as the same double. -/
theorem rank_congr {d d' : Decimal}
    (h : d.coefficient * 10 ^ d.place = d'.coefficient * 10 ^ d'.place) :
    rankOfRatio d.numerator d.denominator = rankOfRatio d'.numerator d'.denominator := by
  refine rankOfRatio_congr d.denominator_pos d'.denominator_pos ?_
  rw [unitsOfRatio_eq, unitsOfRatio_eq, h]

/-- Zeros at the end of the coefficient move into the place. -/
theorem withoutTrailingZeros_spec (d : Decimal) :
    d.withoutTrailingZeros.coefficient * 10 ^ d.withoutTrailingZeros.place
        = d.coefficient * 10 ^ d.place ∧
      d.withoutTrailingZeros.coefficient ≤ d.coefficient ∧
      d.place ≤ d.withoutTrailingZeros.place := by
  fun_induction withoutTrailingZeros d with
  | case1 d _ => exact ⟨rfl, Nat.le_refl _, Nat.le_refl _⟩
  | case2 d _ hzero ih =>
      obtain ⟨hvalue, hcoefficient, hplace⟩ := ih
      refine ⟨?_, Nat.le_trans hcoefficient (Nat.div_le_self _ _), Nat.le_of_succ_le hplace⟩
      rw [hvalue, Nat.pow_succ', ← Nat.mul_assoc, Nat.div_mul_cancel (Nat.dvd_of_mod_eq_zero hzero)]
  | case3 d _ _ => exact ⟨rfl, Nat.le_refl _, Nat.le_refl _⟩

end Decimal

/-- **What a double is written with reads back, and is short.** -/
theorem written_shortestDecimal (rule : HalfwayRule) {rank : Nat} (hpos : 0 < rank)
    (hfinite : rank < infinityRank) : Written rank (shortestDecimal rule rank) := by
  have hfound := @Decimal.foundFrom_searchFrom rule rank hpos hfinite
    (Decimal.coarsestPlace (exactDecimal rank))
  unfold shortestDecimal
  dsimp only
  generalize Decimal.searchFrom rule rank (exactDecimal rank)
    (Decimal.coarsestPlace (exactDecimal rank)) = d at hfound ⊢
  obtain ⟨hvalue, hcoefficient, hplace⟩ := d.withoutTrailingZeros_spec
  have hdigit : 0 < d.coefficient := Nat.lt_of_lt_of_le hfound.lower hfound.least
  have hpositive : 0 < d.withoutTrailingZeros.coefficient := by
    refine Nat.pos_of_ne_zero fun hzero => ?_
    rw [hzero, Nat.zero_mul] at hvalue
    exact absurd hvalue.symm (Nat.ne_of_gt (Nat.mul_pos hdigit (Nat.pow_pos (by decide))))
  have hhigh : d.withoutTrailingZeros.place ≤ 1382 := by
    have hlt : d.withoutTrailingZeros.place < 1383 := by
      refine (Nat.pow_lt_pow_iff_right (show 1 < 10 by decide)).1 ?_
      calc 10 ^ d.withoutTrailingZeros.place
          ≤ d.withoutTrailingZeros.coefficient * 10 ^ d.withoutTrailingZeros.place :=
            Nat.le_mul_of_pos_left _ hpositive
        _ = d.coefficient * 10 ^ d.place := hvalue
        _ ≤ 2 * exactDecimal rank := hfound.coefficient_mul_le
        _ < 2 * (finiteBound * pointsPerUnit) :=
            Nat.mul_lt_mul_of_pos_left (exactDecimal_lt hfinite) (by decide)
        _ ≤ 10 ^ 1383 := finiteBound_mul_pointsPerUnit.2
    omega
  exact {
    reads := (Decimal.rank_congr hvalue).trans (beq_iff_eq.1 hfound.reads)
    positive := hpositive
    digits := Nat.le_trans hcoefficient (hfound.digits hpos hfinite)
    low := Nat.le_trans (hfound.low hpos hfinite) hplace
    high := hhigh }

end LoxArith
