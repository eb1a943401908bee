set_option autoImplicit false

/-! # Rounding a quotient to an integer

`roundHalfEven num den` is the integer nearest to `num / den`. It is the one rounding rule
of the library: reading a number rounds a quotient to a multiple of a power of two, and
printing with a fixed number of places rounds one to a multiple of a power of ten. All of
it is exact arithmetic on natural numbers.

The rule is pinned down by three facts: an integer stays as it is, the result is at most
half a unit away, and a quotient halfway between two integers becomes even.
-/

namespace LoxArith

/-- The integer nearest to `num / den`. A quotient that lies halfway between two integers
goes to the even one. -/
def roundHalfEven (num den : Nat) : Nat :=
  let below := num / den
  let rest := num % den
  if 2 * rest < den then below
  else if den < 2 * rest then below + 1
  else if below % 2 = 0 then below
  else below + 1

/-- A quotient that is an integer is not changed by rounding. -/
theorem roundHalfEven_mul_left (n den : Nat) (h : 0 < den) :
    roundHalfEven (n * den) den = n := by
  simp [roundHalfEven, Nat.mul_div_cancel n h, h]

/-- The rounded value is at most half a unit away from the quotient. -/
theorem roundHalfEven_near (num : Nat) {den : Nat} (h : 0 < den) :
    2 * num ≤ 2 * (roundHalfEven num den * den) + den ∧
      2 * (roundHalfEven num den * den) ≤ 2 * num + den := by
  have hd := Nat.div_add_mod' num den
  unfold roundHalfEven
  dsimp only
  split
  · omega
  split
  · have hs : (num / den + 1) * den = num / den * den + den := Nat.succ_mul _ _
    have := Nat.mod_lt num h
    omega
  split
  · omega
  · have hs : (num / den + 1) * den = num / den * den + den := Nat.succ_mul _ _
    omega

/-- A quotient halfway between two integers is rounded to an even one. -/
theorem even_roundHalfEven_of_halfway {num den : Nat} (h : 2 * (num % den) = den) :
    roundHalfEven num den % 2 = 0 := by
  unfold roundHalfEven
  dsimp only
  rw [if_neg (by omega), if_neg (by omega)]
  split <;> omega

end LoxArith
