import LoxArith.Number.Double
import Mathlib

set_option autoImplicit false

/-! # Rounding to the nearest double

A quotient that is read as the double of rank `r` lies between the two points that are halfway to
the neighbours of `r` (`le_halfway`, `halfway_le`), and a quotient strictly between them is read as
that double (`rankOfRatio_le`, `lt_rankOfRatio`). Everything is counted in units, the smallest
positive double.

Two consequences are what error bounds are made of. A quotient and the double it is read as are
near to each other (`near_unitsOfRank`): they differ by at most half a unit in the last of 53 bits.
And quotients that are near to each other are read as the same double or as neighbours
(`Near.rank_le_succ`). So each inexact operation costs at most one rank.
-/

-- Powers of natural numbers are those of the core library, also beside other instances.
attribute [instance (2000), default_instance 20000] instPowNat

namespace LoxArith

/-! ## Steps between neighbours -/

/-- How many units the double of this rank lies below its upper neighbour. -/
def stepOfRank (rank : Nat) : Nat := 2 ^ (rank / 2 ^ 52 - 1)

theorem stepOfRank_pos (rank : Nat) : 0 < stepOfRank rank := Nat.two_pow_pos _

theorem stepOfRank_mono {r r' : Nat} (h : r ≤ r') : stepOfRank r ≤ stepOfRank r' :=
  Nat.pow_le_pow_right (by decide) (Nat.sub_le_sub_right (Nat.div_le_div_right h) 1)

/-- A double is fewer than `2 ^ 53` steps, and a full exponent has at least `2 ^ 52` of them. -/
theorem exists_steps (rank : Nat) : ∃ m, m < 2 ^ 53 ∧ unitsOfRank rank = m * stepOfRank rank ∧
    (2 ^ 52 ≤ rank → 2 ^ 52 ≤ m) := by
  by_cases hsmall : rank < 2 ^ 53
  · have hexponent : rank / 2 ^ 52 - 1 = 0 := by omega
    refine ⟨rank, hsmall, ?_, id⟩
    rw [unitsOfRank_of_lt hsmall, stepOfRank, hexponent, Nat.pow_zero, Nat.mul_one]
  · refine ⟨2 ^ 52 + rank % 2 ^ 52, by omega, ?_, fun _ => Nat.le_add_right _ _⟩
    rw [unitsOfRank, if_neg hsmall, stepOfRank]

theorem unitsOfRank_succ (rank : Nat) :
    unitsOfRank (rank + 1) = unitsOfRank rank + stepOfRank rank := by
  by_cases hsmall : rank + 1 < 2 ^ 53
  · have hexponent : rank / 2 ^ 52 - 1 = 0 := by omega
    rw [unitsOfRank_of_lt hsmall, unitsOfRank_of_lt (by omega), stepOfRank, hexponent, Nat.pow_zero]
  obtain ⟨shift, m, rfl, hlo, hhi⟩ := exists_shift rank (by omega)
  have hexponent : (shift * 2 ^ 52 + m) / 2 ^ 52 - 1 = shift := by omega
  rw [unitsOfRank_eq hlo hhi, stepOfRank, hexponent, ← Nat.succ_mul]
  by_cases hcarry : m + 1 < 2 ^ 53
  · rw [Nat.add_assoc, unitsOfRank_eq (by omega) hcarry]
  · -- the next exponent begins
    have hnext : shift * 2 ^ 52 + m + 1 = (shift + 1) * 2 ^ 52 + 2 ^ 52 := by omega
    have hm : m.succ = 2 ^ 53 := by omega
    rw [hnext, unitsOfRank_eq (Nat.le_refl _) (by decide), hm, Nat.pow_succ 2 shift]
    omega

theorem unitsOfRank_strictMono : StrictMono unitsOfRank := by
  refine strictMono_nat_of_lt_succ fun rank => ?_
  rw [unitsOfRank_succ]
  exact Nat.lt_add_of_pos_right (stepOfRank_pos rank)

/-! ## Halfway points -/

/-- Twice the point halfway between the double of this rank and its upper neighbour. -/
def twiceHalfway (rank : Nat) : Nat := unitsOfRank rank + unitsOfRank (rank + 1)

theorem twiceHalfway_mono {r r' : Nat} (h : r ≤ r') : twiceHalfway r ≤ twiceHalfway r' :=
  Nat.add_le_add (unitsOfRank_strictMono.monotone h)
    (unitsOfRank_strictMono.monotone (Nat.add_le_add_right h 1))

/-- The steps in which a quotient is counted are `2 ^ shiftOfRatio` units. -/
def shiftOfRatio (num den : Nat) : Nat := (num * unitsPerOne / den).log2 - 52

/-- The number of steps, rounded. -/
def countOfRatio (num den : Nat) : Nat :=
  roundHalfEven (num * unitsPerOne) (den * 2 ^ shiftOfRatio num den)

/-- The rank of a quotient before what is too large becomes infinity. -/
def unboundedRank (num den : Nat) : Nat := shiftOfRatio num den * 2 ^ 52 + countOfRatio num den

theorem rankOfRatio_eq_min (num den : Nat) :
    rankOfRatio num den = min infinityRank (unboundedRank num den) := rfl

/-- Rounding does not pass an integer. -/
theorem le_roundHalfEven {num den a : Nat} (hden : 0 < den) (h : a * den ≤ num) :
    a ≤ roundHalfEven num den := by
  have hbelow : a ≤ num / den := (Nat.le_div_iff_mul_le hden).2 h
  unfold roundHalfEven
  dsimp only
  split
  · exact hbelow
  split
  · omega
  split <;> omega

theorem roundHalfEven_le {num den b : Nat} (hden : 0 < den) (h : num ≤ b * den) :
    roundHalfEven num den ≤ b := by
  have hdivision := Nat.div_add_mod' num den
  have hle : num / den ≤ b := by
    have hdiv := Nat.div_le_div_right (c := den) h
    rwa [Nat.mul_div_cancel _ hden] at hdiv
  rcases Nat.eq_or_lt_of_le hle with heq | hlt
  · -- the quotient is the integer itself
    have hrest : num % den = 0 := by
      rw [heq] at hdivision
      omega
    unfold roundHalfEven
    simp only [hrest, Nat.mul_zero, if_pos hden]
    exact hle
  · unfold roundHalfEven
    dsimp only
    split
    · exact hle
    split
    · exact hlt
    split
    · exact hle
    · exact hlt

/-- What rounding does: it counts the quotient in steps of `2 ^ shift` units, so large that 53 bits
are enough, and with 53 bits unless the step is one unit. -/
structure Counts (num den shift count : Nat) : Prop where
  low : shift = 0 ∨ 2 ^ 52 * (den * 2 ^ shift) ≤ num * unitsPerOne
  high : count ≤ 2 ^ 53
  least : shift = 0 ∨ 2 ^ 52 ≤ count
  rank : unboundedRank num den = shift * 2 ^ 52 + count
  above : 2 * (num * unitsPerOne) ≤ (2 * count + 1) * (den * 2 ^ shift)
  below : 2 * count * (den * 2 ^ shift) ≤ 2 * (num * unitsPerOne) + den * 2 ^ shift

theorem counts (num : Nat) {den : Nat} (hden : 0 < den) :
    Counts num den (shiftOfRatio num den) (countOfRatio num den) := by
  unfold countOfRatio shiftOfRatio
  generalize hunits : num * unitsPerOne / den = units
  have hstep : 0 < den * 2 ^ (units.log2 - 52) := Nat.mul_pos hden (Nat.two_pow_pos _)
  obtain ⟨habove, hbelow⟩ := roundHalfEven_near (num * unitsPerOne) hstep
  have hlow : units.log2 - 52 = 0 ∨ 2 ^ 52 * (den * 2 ^ (units.log2 - 52)) ≤ num * unitsPerOne := by
    rcases Nat.eq_zero_or_pos (units.log2 - 52) with hzero | hpos
    · exact Or.inl hzero
    · refine Or.inr ?_
      have hne : units ≠ 0 := by
        rintro rfl
        simp at hpos
      have hself : 2 ^ (52 + (units.log2 - 52)) ≤ units := by
        have hlog : 52 + (units.log2 - 52) = units.log2 := by omega
        rw [hlog]
        exact Nat.log2_self_le hne
      calc 2 ^ 52 * (den * 2 ^ (units.log2 - 52))
          = 2 ^ (52 + (units.log2 - 52)) * den := by rw [Nat.pow_add]; ring
        _ ≤ units * den := Nat.mul_le_mul_right _ hself
        _ ≤ num * unitsPerOne := by
            rw [← hunits]
            exact Nat.div_mul_le_self _ _
  have hhigh : num * unitsPerOne ≤ 2 ^ 53 * (den * 2 ^ (units.log2 - 52)) := by
    have hlt : units < 2 ^ (53 + (units.log2 - 52)) :=
      Nat.lt_of_lt_of_le Nat.lt_log2_self (Nat.pow_le_pow_right (by decide) (by omega))
    have hquotient : num * unitsPerOne < (units + 1) * den := by
      rw [← hunits]
      exact (Nat.div_lt_iff_lt_mul hden).1 (Nat.lt_succ_self _)
    calc num * unitsPerOne
        ≤ (units + 1) * den := Nat.le_of_lt hquotient
      _ ≤ 2 ^ (53 + (units.log2 - 52)) * den := Nat.mul_le_mul_right _ hlt
      _ = 2 ^ 53 * (den * 2 ^ (units.log2 - 52)) := by rw [Nat.pow_add]; ring
  refine ⟨hlow, roundHalfEven_le hstep hhigh, hlow.imp_right (le_roundHalfEven hstep), ?_, ?_, ?_⟩
  · rw [unboundedRank, countOfRatio, shiftOfRatio, hunits]
  · refine Nat.le_trans habove (Nat.le_of_eq ?_)
    ring
  · refine Nat.le_trans (Nat.le_of_eq ?_) hbelow
    ring

section

variable {num den : Nat}

namespace Counts

variable {shift count : Nat}

/-- The double that is read is worth the steps that were counted. -/
theorem unitsOfRank_eq (h : Counts num den shift count) :
    unitsOfRank (unboundedRank num den) = count * 2 ^ shift := by
  have hhigh := h.high
  rw [h.rank]
  rcases Nat.eq_or_lt_of_le hhigh with rfl | hlt
  · -- a carry into the next exponent
    have hnext : shift * 2 ^ 52 + 2 ^ 53 = (shift + 1) * 2 ^ 52 + 2 ^ 52 := by omega
    rw [hnext, LoxArith.unitsOfRank_eq (Nat.le_refl _) (by decide), Nat.pow_succ 2 shift]
    omega
  rcases Nat.lt_or_ge count (2 ^ 52) with hsmall | hlo
  · obtain rfl : shift = 0 := by
      rcases h.least with hzero | hle
      · exact hzero
      · omega
    rw [Nat.zero_mul, Nat.zero_add, unitsOfRank_of_lt (by omega), Nat.pow_zero, Nat.mul_one]
  · exact LoxArith.unitsOfRank_eq hlo hlt

theorem le_stepOfRank (h : Counts num den shift count) :
    2 ^ shift ≤ stepOfRank (unboundedRank num den) := by
  refine Nat.pow_le_pow_right (by decide) ?_
  have hrank := h.rank
  rcases h.least with rfl | hle
  · exact Nat.zero_le _
  · omega

/-- Below a double lies one of the steps that were counted, unless the exponent changes there. -/
theorem stepOfRank_pred (h : Counts num den shift count) (hcount : shift = 0 ∨ 2 ^ 52 < count) :
    stepOfRank (unboundedRank num den - 1) = 2 ^ shift := by
  have hrank := h.rank
  have hhigh := h.high
  refine congrArg (2 ^ ·) ?_
  rcases hcount with rfl | hlt
  · omega
  · omega

end Counts

/-- A quotient that is at most halfway to the upper neighbour. -/
theorem le_twiceHalfway_unbounded (hden : 0 < den) :
    2 * (num * unitsPerOne) ≤ twiceHalfway (unboundedRank num den) * den := by
  have h := counts num hden
  generalize shiftOfRatio num den = shift at h
  generalize countOfRatio num den = count at h
  have hunits := h.unitsOfRank_eq
  have hstep := h.le_stepOfRank
  calc 2 * (num * unitsPerOne)
      ≤ (2 * count + 1) * (den * 2 ^ shift) := h.above
    _ = (2 * (count * 2 ^ shift) + 2 ^ shift) * den := by ring
    _ ≤ twiceHalfway (unboundedRank num den) * den := by
        refine Nat.mul_le_mul_right _ ?_
        rw [twiceHalfway, unitsOfRank_succ, hunits]
        omega

/-- A quotient is at least halfway to the lower neighbour. -/
theorem twiceHalfway_pred_unbounded_le (hden : 0 < den) (hpos : 0 < unboundedRank num den) :
    twiceHalfway (unboundedRank num den - 1) * den ≤ 2 * (num * unitsPerOne) := by
  have h := counts num hden
  generalize shiftOfRatio num den = shift at h
  generalize countOfRatio num den = count at h
  have hunits := h.unitsOfRank_eq
  have hsucc := unitsOfRank_succ (unboundedRank num den - 1)
  rw [Nat.sub_add_cancel hpos] at hsucc
  have htwice : twiceHalfway (unboundedRank num den - 1) + stepOfRank (unboundedRank num den - 1)
      = 2 * (count * 2 ^ shift) := by
    rw [twiceHalfway, Nat.sub_add_cancel hpos, ← hunits]
    omega
  by_cases hcount : shift = 0 ∨ 2 ^ 52 < count
  · rw [h.stepOfRank_pred hcount] at htwice
    have hbelow := h.below
    have hexpand : 2 * count * (den * 2 ^ shift)
        = twiceHalfway (unboundedRank num den - 1) * den + den * 2 ^ shift := by
      calc 2 * count * (den * 2 ^ shift)
          = 2 * (count * 2 ^ shift) * den := by ring
        _ = twiceHalfway (unboundedRank num den - 1) * den + den * 2 ^ shift := by
            rw [← htwice]
            ring
    omega
  · -- the quotient itself reaches the exponent
    rw [not_or] at hcount
    obtain rfl : count = 2 ^ 52 := by
      have hleast := h.least.resolve_left hcount.1
      omega
    have hlow := h.low.resolve_left hcount.1
    calc twiceHalfway (unboundedRank num den - 1) * den
        ≤ 2 * (2 ^ 52 * 2 ^ shift) * den := Nat.mul_le_mul_right _ (by omega)
      _ = 2 * (2 ^ 52 * (den * 2 ^ shift)) := by ring
      _ ≤ 2 * (num * unitsPerOne) := Nat.mul_le_mul_left _ hlow

/-! ## Between halfway points -/

/-- A quotient, counted in units. -/
def unitsOfRatio (num den : Nat) : ℚ := (num * unitsPerOne : ℕ) / den

theorem unitsOfRatio_eq_div (num den : Nat) :
    unitsOfRatio num den = (num : ℚ) * unitsPerOne / den := by
  rw [unitsOfRatio, Nat.cast_mul]

theorem unitsOfRatio_one (n : Nat) : unitsOfRatio n 1 = n * unitsPerOne := by
  rw [unitsOfRatio_eq_div, Nat.cast_one, div_one]

theorem unitsPerOne_ne_zero : (unitsPerOne : ℚ) ≠ 0 :=
  Nat.cast_ne_zero.2 (Nat.ne_of_gt unitsPerOne_pos)

theorem unitsOfRatio_unitsPerOne (n : Nat) : unitsOfRatio n unitsPerOne = n := by
  rw [unitsOfRatio_eq_div, mul_div_cancel_right₀ _ unitsPerOne_ne_zero]

theorem unitsOfRatio_mul_right (num den m : Nat) :
    unitsOfRatio num (den * m) = unitsOfRatio num den * (1 / m) := by
  rw [unitsOfRatio_eq_div, unitsOfRatio_eq_div, Nat.cast_mul, mul_one_div, div_div]

/-- **A quotient is at most halfway to the upper neighbour of what it is read as.** -/
theorem le_halfway (hden : 0 < den) (h : rankOfRatio num den < infinityRank) :
    2 * unitsOfRatio num den ≤ twiceHalfway (rankOfRatio num den) := by
  have hrank : rankOfRatio num den = unboundedRank num den := by
    rw [rankOfRatio_eq_min] at h ⊢
    omega
  have hle := @le_twiceHalfway_unbounded num den hden
  have hdenq : (0 : ℚ) < den := Nat.cast_pos.2 hden
  rw [hrank, unitsOfRatio, ← mul_div_assoc, div_le_iff₀ hdenq]
  exact_mod_cast hle

/-- **A quotient is at least halfway to the lower neighbour of what it is read as.** -/
theorem halfway_le (hden : 0 < den) {rank : Nat} (h : rank < rankOfRatio num den) :
    twiceHalfway rank ≤ 2 * unitsOfRatio num den := by
  have hrank : rankOfRatio num den ≤ unboundedRank num den := Nat.min_le_right _ _
  have hle := @twiceHalfway_pred_unbounded_le num den hden (by omega)
  have hmono : twiceHalfway rank ≤ twiceHalfway (unboundedRank num den - 1) :=
    twiceHalfway_mono (by omega)
  have hdenq : (0 : ℚ) < den := Nat.cast_pos.2 hden
  rw [unitsOfRatio, ← mul_div_assoc, le_div_iff₀ hdenq]
  exact_mod_cast Nat.le_trans (Nat.mul_le_mul_right den hmono) hle

theorem rankOfRatio_le (hden : 0 < den) {rank : Nat}
    (h : 2 * unitsOfRatio num den < twiceHalfway rank) : rankOfRatio num den ≤ rank := by
  by_contra hlt
  exact absurd (halfway_le hden (Nat.lt_of_not_le hlt)) (not_le.2 h)

theorem lt_rankOfRatio (hden : 0 < den) {rank : Nat} (hrank : rank < infinityRank)
    (h : twiceHalfway rank < 2 * unitsOfRatio num den) : rank < rankOfRatio num den := by
  by_contra hle
  have hle := Nat.le_of_not_lt hle
  have hhalfway := le_halfway hden (Nat.lt_of_le_of_lt hle hrank)
  have hmono : (twiceHalfway (rankOfRatio num den) : ℚ) ≤ twiceHalfway rank :=
    Nat.cast_le.2 (twiceHalfway_mono hle)
  linarith

end

/-! ## Equal quotients -/

theorem roundHalfEven_mul_mul (num den : Nat) {k : Nat} (hk : 0 < k) :
    roundHalfEven (k * num) (k * den) = roundHalfEven num den := by
  have hquotient : k * num / (k * den) = num / den := Nat.mul_div_mul_left _ _ hk
  have hrest : k * num % (k * den) = k * (num % den) := Nat.mul_mod_mul_left _ _ _
  have hless : 2 * (k * (num % den)) < k * den ↔ 2 * (num % den) < den := by
    rw [Nat.mul_left_comm]
    exact Nat.mul_lt_mul_left hk
  have hmore : k * den < 2 * (k * (num % den)) ↔ den < 2 * (num % den) := by
    rw [Nat.mul_left_comm]
    exact Nat.mul_lt_mul_left hk
  unfold roundHalfEven
  simp only [hquotient, hrest, hless, hmore]

theorem rankOfRatio_mul_mul (num den : Nat) {k : Nat} (hk : 0 < k) :
    rankOfRatio (k * num) (k * den) = rankOfRatio num den := by
  unfold rankOfRatio
  dsimp only
  rw [Nat.mul_assoc, Nat.mul_div_mul_left _ _ hk, Nat.mul_assoc, roundHalfEven_mul_mul _ _ hk]

/-- Rounding depends on the quotient alone. -/
theorem rankOfRatio_congr {num den num' den' : Nat} (hden : 0 < den) (hden' : 0 < den')
    (h : unitsOfRatio num den = unitsOfRatio num' den') :
    rankOfRatio num den = rankOfRatio num' den' := by
  have hcross : den' * num = den * num' := by
    have hdenq : (den : ℚ) ≠ 0 := Nat.cast_ne_zero.2 (Nat.ne_of_gt hden)
    have hdenq' : (den' : ℚ) ≠ 0 := Nat.cast_ne_zero.2 (Nat.ne_of_gt hden')
    rw [unitsOfRatio, unitsOfRatio, div_eq_div_iff hdenq hdenq'] at h
    have hnat : num * unitsPerOne * den' = num' * unitsPerOne * den := by exact_mod_cast h
    refine Nat.eq_of_mul_eq_mul_right unitsPerOne_pos ?_
    calc den' * num * unitsPerOne
        = num * unitsPerOne * den' := by ring
      _ = den * num' * unitsPerOne := by
          rw [hnat]
          ring
  rw [← rankOfRatio_mul_mul num den hden', ← rankOfRatio_mul_mul num' den' hden, hcross,
    Nat.mul_comm den' den]

/-- A larger quotient is read as a larger double. -/
theorem rankOfRatio_mono {num den num' den' : Nat} (hden : 0 < den) (hden' : 0 < den')
    (h : unitsOfRatio num den ≤ unitsOfRatio num' den') :
    rankOfRatio num den ≤ rankOfRatio num' den' := by
  by_contra hgt
  have hlt := Nat.lt_of_not_le hgt
  have hfinite : rankOfRatio num' den' < infinityRank :=
    Nat.lt_of_lt_of_le hlt (Nat.min_le_left _ _)
  -- the halfway point above the second one would separate them the wrong way around
  have hhalfway := halfway_le hden hlt
  have hhalfway' := le_halfway hden' hfinite
  have heq : unitsOfRatio num den = unitsOfRatio num' den' := by linarith
  exact absurd (rankOfRatio_congr hden hden' heq) (Nat.ne_of_gt hlt)

/-- A double is read as itself. -/
theorem rankOfRatio_of_units {num den rank : Nat} (hden : 0 < den) (hrank : rank < infinityRank)
    (h : unitsOfRatio num den = unitsOfRank rank) : rankOfRatio num den = rank := by
  rw [← rankOfRatio_unitsOfRank hrank]
  exact rankOfRatio_congr hden unitsPerOne_pos (h.trans (unitsOfRatio_unitsPerOne _).symm)

/-! ## Numbers that are near to each other -/

/-- The numbers, counted in units, differ by at most one part in `2 ^ 53`, or by at most half a
unit. -/
def Near (x y : ℚ) : Prop :=
  y ≤ x + max (x / 2 ^ 53) (1 / 2) ∧ x ≤ y + max (y / 2 ^ 53) (1 / 2)

/-- The numbers differ by at most one part in `2 ^ 53`. -/
def Close (x y : ℚ) : Prop :=
  y ≤ x + x / 2 ^ 53 ∧ x ≤ y + y / 2 ^ 53

section

variable {x y z : ℚ}

theorem Near.symm (h : Near x y) : Near y x := ⟨h.2, h.1⟩

theorem Close.near (h : Close x y) : Near x y :=
  ⟨h.1.trans (add_le_add_right (le_max_left _ _) x),
    h.2.trans (add_le_add_right (le_max_left _ _) y)⟩

/-- Away from the subnormal numbers half a unit is of no account. -/
theorem Near.close (h : Near x y) (hx : 2 ^ 52 ≤ x) (hy : 2 ^ 52 ≤ y) : Close x y := by
  have hunit : ∀ {z : ℚ}, 2 ^ 52 ≤ z → max (z / 2 ^ 53) (1 / 2) = z / 2 ^ 53 := by
    intro z hz
    refine max_eq_left ?_
    rw [le_div_iff₀ (by norm_num)]
    linarith
  obtain ⟨hle, hge⟩ := h
  rw [hunit hx] at hle
  rw [hunit hy] at hge
  exact ⟨hle, hge⟩

theorem Close.mul_right (h : Close x y) (hz : 0 ≤ z) : Close (x * z) (y * z) := by
  have hle := mul_le_mul_of_nonneg_right h.1 hz
  have hge := mul_le_mul_of_nonneg_right h.2 hz
  refine ⟨hle.trans (le_of_eq ?_), hge.trans (le_of_eq ?_)⟩ <;> ring

/-- A number that divides both close numbers apart: their quotients are close. -/
theorem Close.div_left (h : Close x y) (hx : 0 < x) (hy : 0 < y) (hz : 0 ≤ z) :
    Close (z / x) (z / y) := by
  obtain ⟨hle, hge⟩ := h
  refine ⟨?_, ?_⟩
  · have hsplit : z / x + z / x / 2 ^ 53 = z * (1 + 1 / 2 ^ 53) / x := by ring
    rw [hsplit, div_le_div_iff₀ hy hx]
    have hmul := mul_le_mul_of_nonneg_left hge hz
    refine hmul.trans (le_of_eq ?_)
    ring
  · have hsplit : z / y + z / y / 2 ^ 53 = z * (1 + 1 / 2 ^ 53) / y := by ring
    rw [hsplit, div_le_div_iff₀ hx hy]
    have hmul := mul_le_mul_of_nonneg_left hle hz
    refine hmul.trans (le_of_eq ?_)
    ring

/-- Near numbers stay near when they become smaller. -/
theorem Near.mul_right (h : Near x y) (hz : 0 ≤ z) (hone : z ≤ 1) : Near (x * z) (y * z) := by
  have hscale : ∀ {x y : ℚ}, y ≤ x + max (x / 2 ^ 53) (1 / 2) →
      y * z ≤ x * z + max (x * z / 2 ^ 53) (1 / 2) := by
    intro x y hle
    have hmul := mul_le_mul_of_nonneg_right hle hz
    rw [add_mul, max_mul_of_nonneg _ _ hz] at hmul
    refine hmul.trans (add_le_add_right (max_le_max (le_of_eq ?_) ?_) _)
    · ring
    · linarith
  exact ⟨hscale h.1, hscale h.2⟩

end

/-! ## What a quotient is read as is near to it -/

section

variable {num den shift count : Nat}

theorem Counts.units_le (h : Counts num den shift count) (hden : 0 < den) :
    2 * unitsOfRatio num den ≤ (2 * count + 1) * 2 ^ shift := by
  have hdenq : (0 : ℚ) < den := Nat.cast_pos.2 hden
  have hcast : ((2 * (num * unitsPerOne) : ℕ) : ℚ)
      ≤ ((2 * count + 1) * (den * 2 ^ shift) : ℕ) := Nat.cast_le.2 h.above
  rw [unitsOfRatio, ← mul_div_assoc, div_le_iff₀ hdenq]
  push_cast at hcast ⊢
  linarith

theorem Counts.le_units (h : Counts num den shift count) (hden : 0 < den) :
    2 * count * 2 ^ shift ≤ 2 * unitsOfRatio num den + 2 ^ shift := by
  have hdenq : (0 : ℚ) < den := Nat.cast_pos.2 hden
  have hcast : ((2 * count * (den * 2 ^ shift) : ℕ) : ℚ)
      ≤ (2 * (num * unitsPerOne) + den * 2 ^ shift : ℕ) := Nat.cast_le.2 h.below
  have hcancel : (2 * (((num * unitsPerOne : ℕ) : ℚ) / den) + 2 ^ shift) * den
      = 2 * (num * unitsPerOne : ℕ) + 2 ^ shift * den := by
    field_simp
  refine le_of_mul_le_mul_right ?_ hdenq
  rw [unitsOfRatio, hcancel]
  push_cast at hcast ⊢
  linarith

/-- Half a step is at most one part in `2 ^ 53`, unless the step is one unit. -/
theorem half_step_le {z : ℚ} (h : shift = 0 ∨ 2 ^ 52 * (2 : ℚ) ^ shift ≤ z) :
    (2 : ℚ) ^ shift / 2 ≤ max (z / 2 ^ 53) (1 / 2) := by
  rcases h with rfl | hz
  · rw [pow_zero]
    exact le_max_right _ _
  · refine le_max_of_le_left ?_
    rw [le_div_iff₀ (by norm_num)]
    linarith

end

/-- **A quotient is near to the double it is read as.** -/
theorem near_unitsOfRank {num den : Nat} (hden : 0 < den)
    (h : rankOfRatio num den < infinityRank) :
    Near (unitsOfRatio num den) (unitsOfRank (rankOfRatio num den)) := by
  have hrank : rankOfRatio num den = unboundedRank num den := by
    rw [rankOfRatio_eq_min] at h ⊢
    omega
  have hcounts := counts num hden
  generalize shiftOfRatio num den = shift at hcounts
  generalize countOfRatio num den = count at hcounts
  have hunits : ((count * 2 ^ shift : ℕ) : ℚ) = count * 2 ^ shift := by push_cast; rfl
  rw [hrank, hcounts.unitsOfRank_eq, hunits]
  -- they differ by half a step, and both are long enough for that to be little
  have habove := hcounts.units_le hden
  have hbelow := hcounts.le_units hden
  have hratio : shift = 0 ∨ 2 ^ 52 * (2 : ℚ) ^ shift ≤ unitsOfRatio num den := by
    refine hcounts.low.imp_right fun hle => ?_
    have hcast : ((2 ^ 52 * (den * 2 ^ shift) : ℕ) : ℚ) ≤ (num * unitsPerOne : ℕ) :=
      Nat.cast_le.2 hle
    rw [unitsOfRatio, le_div_iff₀ (Nat.cast_pos.2 hden)]
    push_cast at hcast ⊢
    linarith
  have hcount : shift = 0 ∨ 2 ^ 52 * (2 : ℚ) ^ shift ≤ count * 2 ^ shift := by
    refine hcounts.least.imp_right fun hle => ?_
    have hcast : (2 ^ 52 : ℚ) ≤ count := by exact_mod_cast hle
    exact mul_le_mul_of_nonneg_right hcast (by positivity)
  have hhalf_ratio := half_step_le hratio
  have hhalf_count := half_step_le hcount
  constructor
  · linarith
  · linarith

/-- A quotient that is a multiple of its step is a double. -/
theorem unitsOfRank_of_dvd {n : Nat} (hfinite : rankOfRatio n 1 < infinityRank)
    (hdvd : 2 ^ shiftOfRatio n 1 ∣ n * unitsPerOne) :
    unitsOfRank (rankOfRatio n 1) = n * unitsPerOne := by
  have hrank : rankOfRatio n 1 = unboundedRank n 1 := by
    rw [rankOfRatio_eq_min] at hfinite ⊢
    omega
  obtain ⟨count, hcount⟩ := hdvd
  have hrounded : countOfRatio n 1 = count := by
    rw [countOfRatio, hcount, Nat.one_mul, Nat.mul_comm,
      roundHalfEven_mul_left _ _ (Nat.two_pow_pos _)]
  rw [hrank, (counts n Nat.one_pos).unitsOfRank_eq, hrounded, hcount, Nat.mul_comm]

/-! ## Near numbers are read as neighbours -/

/-- Twice a halfway point is less than `2 ^ 54` steps. -/
theorem twiceHalfway_lt (rank : Nat) : twiceHalfway rank < 2 ^ 54 * stepOfRank rank := by
  obtain ⟨m, hm, hunits, -⟩ := exists_steps rank
  have hstep := stepOfRank_pos rank
  have hle : (2 * m + 1) * stepOfRank rank < 2 ^ 54 * stepOfRank rank :=
    Nat.mul_lt_mul_of_pos_right (by omega) hstep
  rw [twiceHalfway, unitsOfRank_succ, hunits]
  calc m * stepOfRank rank + (m * stepOfRank rank + stepOfRank rank)
      = (2 * m + 1) * stepOfRank rank := by ring
    _ < 2 ^ 54 * stepOfRank rank := hle

theorem twiceHalfway_succ (rank : Nat) :
    twiceHalfway rank + 2 * stepOfRank rank ≤ twiceHalfway (rank + 1) := by
  have hmono : stepOfRank rank ≤ stepOfRank (rank + 1) := stepOfRank_mono (Nat.le_succ rank)
  rw [twiceHalfway, twiceHalfway, unitsOfRank_succ (rank + 1), unitsOfRank_succ rank]
  omega

/-- **Numbers that are near to each other are read as neighbours.** -/
theorem Near.rank_le_succ {num den num' den' : Nat} (hden : 0 < den) (hden' : 0 < den')
    (h : Near (unitsOfRatio num den) (unitsOfRatio num' den')) :
    rankOfRatio num' den' ≤ rankOfRatio num den + 1 := by
  by_cases hfinite : rankOfRatio num den < infinityRank
  · refine rankOfRatio_le hden' ?_
    have hhalfway := le_halfway hden hfinite
    generalize rankOfRatio num den = rank at *
    have hlt : (twiceHalfway rank : ℚ) < 2 ^ 54 * stepOfRank rank := by
      exact_mod_cast twiceHalfway_lt rank
    have hsucc : (twiceHalfway rank : ℚ) + 2 * stepOfRank rank ≤ twiceHalfway (rank + 1) := by
      exact_mod_cast twiceHalfway_succ rank
    have hstep : (1 : ℚ) ≤ stepOfRank rank := by
      exact_mod_cast stepOfRank_pos rank
    -- the difference is less than a step
    have hdifference : max (unitsOfRatio num den / 2 ^ 53) (1 / 2) < (stepOfRank rank : ℚ) := by
      refine max_lt ?_ (by linarith)
      rw [div_lt_iff₀ (by norm_num)]
      linarith
    have hle := h.1
    linarith
  · exact Nat.le_trans (Nat.min_le_left _ _) (Nat.le_succ_of_le (Nat.le_of_not_lt hfinite))

end LoxArith
