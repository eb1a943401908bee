import LoxArith.Json.Double
import LoxArith.Proofs.Json.RoundTrip

set_option autoImplicit false

/-! # Numbers are written by the grammar

Natural numbers and doubles are written as the grammar of documents wants it: with digits on both
sides of the point, without a zero in front of other digits, and with digits in the exponent.
-/

namespace LoxArith

/-! ## Digits of a natural number -/

theorem allDigits_digitsOf (n : Nat) : AllDigits (digitsOf n) := by
  intro c hc
  have hdigit : c.isDigit = true := Nat.isDigit_of_mem_toDigits (by decide) (by decide) hc
  have hrange : 48 ≤ c.val ∧ c.val ≤ 57 := by simpa [Char.isDigit] using hdigit
  exact Bool.and_eq_true_iff.2 ⟨decide_eq_true hrange.1, decide_eq_true hrange.2⟩

theorem digitsOf_ne_nil (n : Nat) : digitsOf n ≠ [] := Nat.toDigits_ne_nil

/-- The first digit of a positive number is no zero. -/
theorem head?_digitsOf {n : Nat} (hpos : 0 < n) : (digitsOf n).head? ≠ some '0' := by
  induction n using Nat.strongRecOn with
  | ind n ih =>
      rcases Nat.lt_or_ge n 10 with hlt | hge
      · have hdigit : ∀ d < 10, 0 < d → [Nat.digitChar d].head? ≠ some '0' := by decide
        rw [digitsOf, Nat.toDigits_of_lt_base hlt]
        exact hdigit n hlt hpos
      · have hrest := ih (n / 10) (Nat.div_lt_self hpos (by decide)) (by omega)
        obtain ⟨first, more, hdigits⟩ := List.exists_cons_of_ne_nil (digitsOf_ne_nil (n / 10))
        rw [digitsOf, Nat.toDigits_of_base_le (by decide) hge]
        rw [digitsOf] at hdigits hrest
        rwa [hdigits] at hrest ⊢

/-- Only zero itself begins with a zero. -/
theorem length_digitsOf {n : Nat} (h : (digitsOf n).head? = some '0') :
    (digitsOf n).length = 1 := by
  rcases Nat.eq_zero_or_pos n with rfl | hpos
  · rfl
  · exact absurd h (head?_digitsOf hpos)

theorem AllDigits.append {chars chars' : List Char} (h : AllDigits chars) (h' : AllDigits chars') :
    AllDigits (chars ++ chars') :=
  fun c hc => (List.mem_append.1 hc).elim (h c) (h' c)

theorem allDigits_zeros (n : Nat) : AllDigits (List.replicate n '0') := by
  intro c hc
  rw [List.eq_of_mem_replicate hc]
  rfl

/-! ## Numbers -/

/-- A number without exponent. -/
theorem NumberText.wellFormed_plain {negative : Bool} {whole fraction : List Char}
    (hne : whole ≠ []) (hwhole : AllDigits whole)
    (hleading : whole.head? = some '0' → whole.length = 1) (hfraction : AllDigits fraction) :
    NumberText.WellFormed ⟨negative, whole, fraction, none⟩ :=
  ⟨hne, hwhole, hleading, hfraction, (fun _ he => nomatch he), (fun _ he => nomatch he)⟩

theorem Json.wellFormed_nat (n : Nat) : (Json.nat n).WellFormed :=
  NumberText.wellFormed_plain (digitsOf_ne_nil n) (allDigits_digitsOf n) length_digitsOf
    fun _ hc => nomatch hc

/-- Every form of a decimal that is not zero. -/
theorem Decimal.wellFormed_numberText (negative : Bool) {d : Decimal} (hpos : 0 < d.coefficient) :
    (d.numberText negative).WellFormed := by
  have hdigits := allDigits_digitsOf d.coefficient
  have hhead := head?_digitsOf hpos
  have hne := digitsOf_ne_nil d.coefficient
  unfold numberText
  generalize digitsOf d.coefficient = digits at hdigits hhead hne ⊢
  obtain ⟨first, more, rfl⟩ := List.exists_cons_of_ne_nil hne
  have htake : ∀ k, AllDigits ((first :: more).take k) := fun k c hc =>
    hdigits c (List.mem_of_mem_take hc)
  have hdrop : ∀ k, AllDigits ((first :: more).drop k) := fun k c hc =>
    hdigits c (List.mem_of_mem_drop hc)
  have hlead : ∀ {tail : List Char}, (first :: tail).head? = some '0' →
      (first :: tail).length = 1 := fun h => absurd h hhead
  dsimp only
  generalize ((first :: more).length : Int) + d.place - finestPlace = point
  split
  · exact NumberText.wellFormed_plain (List.cons_ne_nil _ _) (hdigits.append (allDigits_zeros _))
      hlead (allDigits_zeros 1)
  split
  · rename_i hpoint
    obtain ⟨k, hk⟩ : ∃ k, point.toNat = k + 1 := ⟨point.toNat - 1, by omega⟩
    rw [hk]
    exact NumberText.wellFormed_plain (List.cons_ne_nil _ _) (htake (k + 1)) hlead (hdrop (k + 1))
  split
  · exact NumberText.wellFormed_plain (List.cons_ne_nil _ _) (allDigits_zeros 1) (fun _ => rfl)
      ((allDigits_zeros _).append hdigits)
  · refine ⟨List.cons_ne_nil _ _, htake 1, hlead, hdrop 1, ?_, ?_⟩
    · intro e he
      obtain rfl := Option.some.inj he
      exact digitsOf_ne_nil _
    · intro e he
      obtain rfl := Option.some.inj he
      exact allDigits_digitsOf _

end LoxArith
