import LoxArith.Number.Rounding

set_option autoImplicit false

/-! # Doubles as counts of the smallest one

Every finite double is, up to its sign, a whole number of units of `2 ^ (-1074)`, the
smallest positive double. The magnitudes are numbered in increasing order by their *rank*,
the low 63 bits of the pattern: rank `0` is zero, rank `1` one unit, and `infinityRank` is
infinity. So a finite double is a sign and a rank below `infinityRank`, its exact value is
`unitsOfRank rank` units, and rounding a quotient to the nearest double is one division.

The formula for the rank needs no case for subnormal numbers and none for a carry into
the next exponent: if `m` counts steps of `2 ^ shift` units, the rank of `m * 2 ^ shift`
units is `shift * 2 ^ 52 + m`, as long as `m` fits in 53 bits.
-/

-- Powers of natural numbers are those of the core library, also beside other instances.
attribute [instance (2000), default_instance 20000] instPowNat

namespace LoxArith

/-- The rank of infinity, one above that of the largest finite double. -/
def infinityRank : Nat := 0x7ff0000000000000

/-- How many units make one. -/
def unitsPerOne : Nat := 2 ^ 1074

/-- How many units of `2 ^ (-1074)` the finite double of this rank is worth. -/
def unitsOfRank (rank : Nat) : Nat :=
  if rank < 2 ^ 53 then rank
  else (2 ^ 52 + rank % 2 ^ 52) * 2 ^ (rank / 2 ^ 52 - 1)

/-- The rank of the double nearest to `num / den`, halfway cases going to the even rank.
What is too large for a finite double becomes infinity. -/
def rankOfRatio (num den : Nat) : Nat :=
  let scaled := num * unitsPerOne
  let shift := (scaled / den).log2 - 52
  min infinityRank (shift * 2 ^ 52 + roundHalfEven scaled (den * 2 ^ shift))

/-- The double with this sign and rank. -/
def doubleOfRank (negative : Bool) (rank : Nat) : Float :=
  Float.ofBits (UInt64.ofNat (if negative then rank + 2 ^ 63 else rank))

/-- The nonnegative double nearest to `num / den`. -/
def nearestDouble (num den : Nat) : Float :=
  doubleOfRank false (rankOfRatio num den)

/-- Whether the sign bit is set. Zero has a sign too. -/
def isNegative (x : Float) : Bool :=
  2 ^ 63 ≤ x.toBits.toNat

/-- The rank of the magnitude. -/
def rankOf (x : Float) : Nat :=
  x.toBits.toNat % 2 ^ 63

/-- What remains of a double when its sign and its digits are put aside. -/
inductive Magnitude
  | notANumber
  | infinite
  | finite (rank : Nat)
  deriving DecidableEq, Repr

/-- The magnitude of a double. -/
def magnitudeOf (x : Float) : Magnitude :=
  if rankOf x < infinityRank then .finite (rankOf x)
  else if rankOf x = infinityRank then .infinite
  else .notANumber

/-! ## Ranks and units -/

theorem unitsPerOne_pos : 0 < unitsPerOne := by
  decide +kernel

/-- The units of a rank whose exponent lies `shift` steps above the smallest one. -/
theorem unitsOfRank_eq {shift m : Nat} (hlo : 2 ^ 52 ≤ m) (hhi : m < 2 ^ 53) :
    unitsOfRank (shift * 2 ^ 52 + m) = m * 2 ^ shift := by
  unfold unitsOfRank
  rcases Nat.eq_zero_or_pos shift with rfl | hpos
  · rw [Nat.zero_mul, Nat.zero_add, if_pos hhi, Nat.pow_zero, Nat.mul_one]
  · rw [if_neg (by omega)]
    obtain ⟨f, rfl⟩ : ∃ f, m = 2 ^ 52 + f := ⟨m - 2 ^ 52, by omega⟩
    have hr : (shift * 2 ^ 52 + (2 ^ 52 + f)) % 2 ^ 52 = f := by omega
    have hq : (shift * 2 ^ 52 + (2 ^ 52 + f)) / 2 ^ 52 - 1 = shift := by omega
    rw [hr, hq]

theorem unitsOfRank_of_lt {rank : Nat} (h : rank < 2 ^ 53) : unitsOfRank rank = rank :=
  if_pos h

/-- Every rank is a number of steps with a multiple of the step that fits in 53 bits. -/
theorem exists_shift (rank : Nat) (h : 2 ^ 52 ≤ rank) :
    ∃ shift m, rank = shift * 2 ^ 52 + m ∧ 2 ^ 52 ≤ m ∧ m < 2 ^ 53 :=
  ⟨rank / 2 ^ 52 - 1, 2 ^ 52 + rank % 2 ^ 52, by omega, by omega, by omega⟩

/-- The exact value of a finite double is read as that double. -/
theorem rankOfRatio_unitsOfRank {rank : Nat} (h : rank < infinityRank) :
    rankOfRatio (unitsOfRank rank) unitsPerOne = rank := by
  unfold rankOfRatio
  dsimp only
  rw [Nat.mul_div_cancel _ unitsPerOne_pos]
  by_cases hs : rank < 2 ^ 52
  · rw [unitsOfRank_of_lt (by omega)]
    have hl : rank.log2 - 52 = 0 := by
      rcases Nat.eq_zero_or_pos rank with rfl | hpos
      · simp
      · have := (Nat.log2_lt (Nat.ne_of_gt hpos)).2 hs
        omega
    rw [hl, Nat.pow_zero, Nat.mul_one, roundHalfEven_mul_left _ _ unitsPerOne_pos]
    omega
  · obtain ⟨shift, m, rfl, hlo, hhi⟩ := exists_shift rank (by omega)
    rw [unitsOfRank_eq hlo hhi]
    have hl : (m * 2 ^ shift).log2 - 52 = shift := by
      have hm : m.log2 = 52 := by
        rw [Nat.log2_eq_iff (by omega)]
        exact ⟨hlo, hhi⟩
      have : (m * 2 ^ shift).log2 = 52 + shift := by
        rw [Nat.log2_eq_iff (Nat.ne_of_gt (Nat.mul_pos (by omega) (Nat.two_pow_pos _)))]
        constructor
        · rw [Nat.pow_add]
          exact Nat.mul_le_mul_right _ hlo
        · rw [show 52 + shift + 1 = 53 + shift by omega, Nat.pow_add]
          exact Nat.mul_lt_mul_of_pos_right hhi (Nat.two_pow_pos _)
      omega
    rw [hl]
    have : m * 2 ^ shift * unitsPerOne = m * (unitsPerOne * 2 ^ shift) := by
      rw [Nat.mul_assoc, Nat.mul_comm (2 ^ shift)]
    rw [this, roundHalfEven_mul_left _ _ (Nat.mul_pos unitsPerOne_pos (Nat.two_pow_pos _))]
    omega

end LoxArith
