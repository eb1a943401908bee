import LoxArith.Number.Literal
import Mathlib

set_option autoImplicit false

/-! # Doubles and their bits

A double is its bit pattern: `Float.toBits` is injective, and reading a pattern back gives
the same pattern unless it is that of no number. Equality of doubles, `==`, is another
matter, since it joins the two zeros and separates what is no number from itself (`beq_iff`).
On the doubles without a sign the two agree (`beq_iff_eq_of_isMagnitude`), and every number
literal denotes one of those (`isMagnitude_literalValue`).
-/

namespace LoxArith

open Float.Model Float.Model.UnpackedFloat

/-! ## The three fields of a pattern -/

theorem toNat_unpackMantissa (b : BitVec 64) :
    (@unpackMantissa Format.binary64 b).toNat = b.toNat % 2 ^ 52 := by
  simp [unpackMantissa]

theorem toNat_unpackExponent (b : BitVec 64) :
    (@unpackExponent Format.binary64 b).toNat = b.toNat / 2 ^ 52 % 2 ^ 11 := by
  simp [unpackExponent, Nat.shiftRight_eq_div_pow]

theorem toNat_unpackSign (b : BitVec 64) :
    (@unpackSign Format.binary64 b).toNat = b.toNat / 2 ^ 63 := by
  have hlt := b.isLt
  have hbit : (@unpackSign Format.binary64 b).toNat = b.toNat / 2 ^ 63 % 2 := by
    simp [unpackSign, Nat.shiftRight_eq_div_pow]
  omega

theorem toBitVec_ofBitVec (v : BitVec 1) : (Sign.ofBitVec v).toBitVec = v := by
  revert v
  decide

theorem toNat_packComponents (s : Sign) (e : BitVec 11) (m : BitVec 52) :
    (packComponents Format.binary64 s e m).toNat
      = s.toBitVec.toNat * 2 ^ 63 + e.toNat * 2 ^ 52 + m.toNat := by
  have he := e.isLt
  have hm := m.isLt
  simp only [packComponents, BitVec.toNat_append]
  rw [← Nat.shiftLeft_add_eq_or_of_lt he, ← Nat.shiftLeft_add_eq_or_of_lt hm]
  simp only [Nat.shiftLeft_eq]
  omega

/-- A pattern is put together from its fields. -/
theorem packComponents_fields (b : BitVec 64) :
    packComponents Format.binary64 (Sign.ofBitVec (@unpackSign Format.binary64 b))
      (@unpackExponent Format.binary64 b) (@unpackMantissa Format.binary64 b) = b := by
  apply BitVec.eq_of_toNat_eq
  have hlt := b.isLt
  have h := toNat_packComponents (Sign.ofBitVec (@unpackSign Format.binary64 b))
    (@unpackExponent Format.binary64 b) (@unpackMantissa Format.binary64 b)
  rw [toBitVec_ofBitVec, toNat_unpackSign, toNat_unpackExponent, toNat_unpackMantissa] at h
  omega

theorem toNat_implicitBit (m : BitVec 52) : (1#1 ++ m).toNat = 2 ^ 52 + m.toNat := by
  rw [BitVec.toNat_append, ← Nat.shiftLeft_add_eq_or_of_lt m.isLt, Nat.shiftLeft_eq]
  simp

/-! ## Unpacking and packing -/

/-- A mantissa of fewer than 53 bits is packed with a zero exponent field. -/
theorem pack_subnormal (s : Sign) {m : Nat} (hpos : 0 < m) (hlt : m < 2 ^ 52) :
    UnpackedFloat.pack Format.binary64 (.finite s m (-1074) hpos)
      = packComponents Format.binary64 s 0#11 (BitVec.ofNat 52 m) := by
  have hlog : m.log2 < 52 := (Nat.log2_lt (by omega)).2 hlt
  have hbits : ¬m.log2 + 1 = Format.binary64.mantissaBits := by
    show ¬m.log2 + 1 = 53
    omega
  rw [UnpackedFloat.pack]
  exact (if_neg (by decide)).trans (if_neg hbits)

/-- A mantissa of 53 bits is packed without its leading bit. -/
theorem pack_normal (s : Sign) {e m : Nat} (hpos : 0 < m) (he : e < 2047) (hlo : 2 ^ 52 ≤ m)
    (hhi : m < 2 ^ 53) :
    UnpackedFloat.pack Format.binary64 (.finite s m (e - 1075) hpos)
      = packComponents Format.binary64 s (BitVec.ofNat 11 e) (BitVec.ofNat 52 m) := by
  have hlog : m.log2 = 52 := (Nat.log2_eq_iff (by omega)).2 ⟨hlo, hhi⟩
  have hbits : m.log2 + 1 = Format.binary64.mantissaBits := by
    rw [hlog]
    rfl
  have hbiased : ((e : Int) - 1075 + (Format.binary64.exponentBias : Nat)
      + (Format.binary64.mantissaBitsWithoutImplicit : Nat)).toNat = e := by
    show ((e : Int) - 1075 + (1023 : Nat) + (52 : Nat)).toNat = e
    omega
  have hfinite : ¬2 ^ Format.binary64.exponentBits ≤ e + 1 := by
    show ¬2 ^ 11 ≤ e + 1
    omega
  rw [UnpackedFloat.pack]
  simp only [hbiased]
  exact (if_neg hfinite).trans (if_pos hbits)

/-- Packing what was unpacked gives the pattern back, if it is valid. -/
theorem pack_unpack {b : BitVec 64} (hb : Format.binary64.Valid b) :
    UnpackedFloat.pack Format.binary64 (UnpackedFloat.unpack Format.binary64 b) = b := by
  have hfields := packComponents_fields b
  have hmantissa := (@unpackMantissa Format.binary64 b).isLt
  have hexponent := (@unpackExponent Format.binary64 b).isLt
  rw [UnpackedFloat.unpack]
  by_cases hones : @unpackExponent Format.binary64 b = -1#11
  · rw [if_pos hones]
    by_cases hzero : @unpackMantissa Format.binary64 b = 0#52
    · rw [if_pos hzero]
      rw [hones, hzero] at hfields
      exact hfields
    · rw [if_neg hzero]
      exact (hb.eq_packedNaN hones hzero).symm
  rw [if_neg hones]
  by_cases hnone : @unpackExponent Format.binary64 b = 0#11
  · rw [if_pos hnone]
    by_cases hzero : @unpackMantissa Format.binary64 b = 0#52
    · rw [dif_pos hzero]
      rw [hnone, hzero] at hfields
      exact hfields
    · rw [dif_neg hzero]
      have hpos : 0 < (@unpackMantissa Format.binary64 b).toNat := by
        simpa [BitVec.toNat_pos, BitVec.pos_iff_ne_zero] using hzero
      have hpacked := pack_subnormal (Sign.ofBitVec (@unpackSign Format.binary64 b)) hpos hmantissa
      rw [BitVec.ofNat_toNat, BitVec.setWidth_eq] at hpacked
      rw [hnone] at hfields ⊢
      exact hpacked.trans hfields
  · rw [if_neg hnone]
    have hfinite : (@unpackExponent Format.binary64 b).toNat < 2047 := by
      have hne : (@unpackExponent Format.binary64 b).toNat ≠ 2047 :=
        fun h => hones (BitVec.eq_of_toNat_eq h)
      have hlt : (@unpackExponent Format.binary64 b).toNat < 2048 := hexponent
      omega
    have hlead := toNat_implicitBit (@unpackMantissa Format.binary64 b)
    have hlt : (@unpackMantissa Format.binary64 b).toNat < 2 ^ 52 := hmantissa
    have hpacked := pack_normal (Sign.ofBitVec (@unpackSign Format.binary64 b))
      (m := (1#1 ++ @unpackMantissa Format.binary64 b).toNat) (by omega) hfinite (by omega)
      (by omega)
    have hcut : BitVec.ofNat 52 (1#1 ++ @unpackMantissa Format.binary64 b).toNat
        = @unpackMantissa Format.binary64 b := by
      apply BitVec.eq_of_toNat_eq
      rw [BitVec.toNat_ofNat, hlead]
      omega
    rw [hcut, BitVec.ofNat_toNat, BitVec.setWidth_eq] at hpacked
    exact hpacked.trans hfields

/-! ## Doubles -/

theorem ofBits_toBits (x : Float) : Float.ofBits x.toBits = x := by
  rcases x with ⟨⟨bits, hbits⟩⟩
  show Float.ofModel (Float.Model.pack (UnpackedFloat.unpack Format.binary64 bits.toBitVec))
    = Float.ofModel ⟨bits, hbits⟩
  simp only [Float.Model.pack, pack_unpack hbits]

/-- Doubles with the same bits are the same. -/
theorem toBits_injective : Function.Injective Float.toBits := by
  intro x y h
  rw [← ofBits_toBits x, ← ofBits_toBits y, h]

/-- A pattern with a full exponent field is that of an infinity, if its rank is at most
that of infinity. -/
theorem mantissa_eq_zero {b : BitVec 64} (h : b.toNat % 2 ^ 63 ≤ infinityRank)
    (hones : @unpackExponent Format.binary64 b = -1#11) :
    @unpackMantissa Format.binary64 b = 0#52 := by
  apply BitVec.eq_of_toNat_eq
  have hexponent := congrArg BitVec.toNat hones
  rw [toNat_unpackExponent] at hexponent
  rw [toNat_unpackMantissa]
  have hall : b.toNat / 2 ^ 52 % 2 ^ 11 = 2047 := hexponent
  have hrank : b.toNat % 2 ^ 63 ≤ 2047 * 2 ^ 52 := h
  show b.toNat % 2 ^ 52 = 0
  omega

theorem valid_of_rank_le {b : BitVec 64} (h : b.toNat % 2 ^ 63 ≤ infinityRank) :
    Format.binary64.Valid b :=
  ⟨fun hones hzero => absurd (mantissa_eq_zero h hones) hzero⟩

theorem toBits_ofBits {bits : UInt64} (h : bits.toNat % 2 ^ 63 ≤ infinityRank) :
    (Float.ofBits bits).toBits = bits := by
  have hvalid : Format.binary64.Valid bits.toBitVec := valid_of_rank_le h
  show UInt64.ofBitVec (UnpackedFloat.pack Format.binary64
    (UnpackedFloat.unpack Format.binary64 bits.toBitVec)) = bits
  rw [pack_unpack hvalid]

theorem toBits_doubleOfRank {rank : Nat} (h : rank ≤ infinityRank) :
    (doubleOfRank false rank).toBits = UInt64.ofNat rank := by
  have hle : rank ≤ 0x7ff0000000000000 := h
  apply toBits_ofBits
  show rank % 2 ^ 64 % 2 ^ 63 ≤ 0x7ff0000000000000
  omega

/-- A double is finite if its exponent field is not full. -/
theorem isFinite_iff (x : Float) : x.isFinite = true ↔ rankOf x < infinityRank := by
  show UnpackedFloat.isFinite (UnpackedFloat.unpack Format.binary64 x.toBits.toBitVec) = true
    ↔ x.toBits.toBitVec.toNat % 2 ^ 63 < 2047 * 2 ^ 52
  generalize x.toBits.toBitVec = b
  have hfield := toNat_unpackExponent b
  rw [UnpackedFloat.unpack]
  by_cases hones : @unpackExponent Format.binary64 b = -1#11
  · have hfull : (@unpackExponent Format.binary64 b).toNat = 2047 := congrArg BitVec.toNat hones
    rw [if_pos hones]
    refine iff_of_false ?_ (by omega)
    split <;> exact Bool.false_ne_true
  · have hpart : (@unpackExponent Format.binary64 b).toNat ≠ 2047 :=
      fun h => hones (BitVec.eq_of_toNat_eq h)
    rw [if_neg hones]
    refine iff_of_true ?_ (by omega)
    split
    · split <;> rfl
    · rfl

/-! ## Equality of doubles -/

/-- The value is a zero, with or without a sign. -/
def IsZero : UnpackedFloat → Prop
  | .zero _ => True
  | _ => False

theorem compare_sign_eq_iff (s s' : Sign) : compare s s' = .eq ↔ s = s' := by
  cases s <;> cases s' <;> simp [compare]

/-- Two values are equal if both are numbers, and the same one or two zeros. -/
theorem unpackedFloat_beq_iff (u v : UnpackedFloat) :
    u.beq v = true ↔ u ≠ .notANumber ∧ v ≠ .notANumber ∧ (u = v ∨ IsZero u ∧ IsZero v) := by
  cases u with
  | notANumber => simp [UnpackedFloat.beq, UnpackedFloat.compare]
  | infinity s =>
      cases v with
      | infinity s' =>
          simp [UnpackedFloat.beq, UnpackedFloat.compare, IsZero, compare_sign_eq_iff]
      | _ => cases s <;> simp [UnpackedFloat.beq, UnpackedFloat.compare, IsZero]
  | zero s =>
      cases v with
      | zero s' => simp [UnpackedFloat.beq, UnpackedFloat.compare, IsZero]
      | notANumber => simp [UnpackedFloat.beq, UnpackedFloat.compare]
      | infinity s' => cases s' <;> simp [UnpackedFloat.beq, UnpackedFloat.compare, IsZero]
      | finite s' m e hm => cases s' <;> simp [UnpackedFloat.beq, UnpackedFloat.compare, IsZero]
  | finite s m e hm =>
      cases v with
      | notANumber => simp [UnpackedFloat.beq, UnpackedFloat.compare]
      | infinity s' => cases s' <;> simp [UnpackedFloat.beq, UnpackedFloat.compare, IsZero]
      | zero s' => cases s <;> simp [UnpackedFloat.beq, UnpackedFloat.compare, IsZero]
      | finite s' m' e' hm' =>
          cases s <;> cases s' <;>
            simp [UnpackedFloat.beq, UnpackedFloat.compare, IsZero, and_comm]

/-- What is no number has a rank beyond that of infinity. -/
theorem unpack_eq_notANumber_iff (b : BitVec 64) :
    UnpackedFloat.unpack Format.binary64 b = .notANumber ↔ infinityRank < b.toNat % 2 ^ 63 := by
  have hinfinity : infinityRank = 2047 * 2 ^ 52 := rfl
  have hexponent := toNat_unpackExponent b
  have hmantissa := toNat_unpackMantissa b
  rw [UnpackedFloat.unpack, hinfinity]
  by_cases hones : @unpackExponent Format.binary64 b = -1#11
  · have hfull : (@unpackExponent Format.binary64 b).toNat = 2047 := congrArg BitVec.toNat hones
    rw [if_pos hones]
    by_cases hzero : @unpackMantissa Format.binary64 b = 0#52
    · have hnone : (@unpackMantissa Format.binary64 b).toNat = 0 := congrArg BitVec.toNat hzero
      rw [if_pos hzero]
      exact iff_of_false (by simp) (by omega)
    · have hsome : (@unpackMantissa Format.binary64 b).toNat ≠ 0 :=
        fun h => hzero (BitVec.eq_of_toNat_eq h)
      rw [if_neg hzero]
      exact iff_of_true rfl (by omega)
  · have hpart : (@unpackExponent Format.binary64 b).toNat ≠ 2047 :=
      fun h => hones (BitVec.eq_of_toNat_eq h)
    rw [if_neg hones]
    refine iff_of_false ?_ (by omega)
    split
    · split <;> simp
    · simp

theorem isZero_unpack_iff (b : BitVec 64) :
    IsZero (UnpackedFloat.unpack Format.binary64 b) ↔ b.toNat % 2 ^ 63 = 0 := by
  have hexponent := toNat_unpackExponent b
  have hmantissa := toNat_unpackMantissa b
  rw [UnpackedFloat.unpack]
  by_cases hones : @unpackExponent Format.binary64 b = -1#11
  · have hfull : (@unpackExponent Format.binary64 b).toNat = 2047 := congrArg BitVec.toNat hones
    rw [if_pos hones]
    refine iff_of_false ?_ (by omega)
    split <;> simp [IsZero]
  rw [if_neg hones]
  by_cases hnone : @unpackExponent Format.binary64 b = 0#11
  · have hfield : (@unpackExponent Format.binary64 b).toNat = 0 := congrArg BitVec.toNat hnone
    rw [if_pos hnone]
    by_cases hzero : @unpackMantissa Format.binary64 b = 0#52
    · have hempty : (@unpackMantissa Format.binary64 b).toNat = 0 := congrArg BitVec.toNat hzero
      rw [dif_pos hzero]
      exact iff_of_true trivial (by omega)
    · have hsome : (@unpackMantissa Format.binary64 b).toNat ≠ 0 :=
        fun h => hzero (BitVec.eq_of_toNat_eq h)
      rw [dif_neg hzero]
      exact iff_of_false id (by omega)
  · have hfield : (@unpackExponent Format.binary64 b).toNat ≠ 0 :=
      fun h => hnone (BitVec.eq_of_toNat_eq h)
    rw [if_neg hnone]
    exact iff_of_false id (by omega)

theorem isNaN_iff (x : Float) : x.isNaN = true ↔ infinityRank < rankOf x := by
  have hunpack : x.isNaN = true ↔ x.toModel.unpack = .notANumber := by
    show UnpackedFloat.isNaN x.toModel.unpack = true ↔ _
    cases x.toModel.unpack <;> simp [UnpackedFloat.isNaN]
  exact hunpack.trans (unpack_eq_notANumber_iff x.toBits.toBitVec)

/-- Doubles that stand for the same value are the same. -/
theorem unpack_toModel_inj {x y : Float} : x.toModel.unpack = y.toModel.unpack ↔ x = y := by
  constructor
  · intro h
    have hbits : x.toBits.toBitVec = y.toBits.toBitVec :=
      calc x.toBits.toBitVec
          = UnpackedFloat.pack Format.binary64 x.toModel.unpack :=
            (pack_unpack x.toModel.valid).symm
        _ = UnpackedFloat.pack Format.binary64 y.toModel.unpack := by rw [h]
        _ = y.toBits.toBitVec := pack_unpack y.toModel.valid
    exact toBits_injective (UInt64.toBitVec_inj.1 hbits)
  · rintro rfl
    rfl

/-- **Two doubles are equal if both are numbers, and the same one or two zeros.** -/
theorem beq_iff (x y : Float) :
    (x == y) = true ↔ x.isNaN = false ∧ y.isNaN = false ∧
      (x = y ∨ rankOf x = 0 ∧ rankOf y = 0) := by
  have hnumber : ∀ z : Float, z.isNaN = false ↔ z.toModel.unpack ≠ .notANumber := by
    intro z
    rw [← Bool.not_eq_true, isNaN_iff]
    exact (unpack_eq_notANumber_iff z.toBits.toBitVec).symm.not
  have hzero : ∀ z : Float, rankOf z = 0 ↔ IsZero z.toModel.unpack :=
    fun z => (isZero_unpack_iff z.toBits.toBitVec).symm
  rw [hnumber, hnumber, hzero, hzero, ← unpack_toModel_inj]
  exact unpackedFloat_beq_iff _ _

/-- The bits of a double, with one pattern for both zeros. -/
def valueBits (x : Float) : UInt64 := if rankOf x = 0 then 0 else x.toBits

theorem valueBits_eq_iff (x y : Float) :
    valueBits x = valueBits y ↔ x = y ∨ rankOf x = 0 ∧ rankOf y = 0 := by
  have hrank : ∀ {z : Float}, z.toBits = 0 → rankOf z = 0 := by
    intro z hz
    rw [rankOf, hz]
    rfl
  unfold valueBits
  by_cases hx : rankOf x = 0
  · rw [if_pos hx]
    by_cases hy : rankOf y = 0
    · rw [if_pos hy]
      exact iff_of_true rfl (Or.inr ⟨hx, hy⟩)
    · rw [if_neg hy]
      refine iff_of_false (fun hbits => hy (hrank hbits.symm)) ?_
      rintro (rfl | ⟨-, hzero⟩)
      · exact hy hx
      · exact hy hzero
  · rw [if_neg hx]
    by_cases hy : rankOf y = 0
    · rw [if_pos hy]
      refine iff_of_false (fun hbits => hx (hrank hbits)) ?_
      rintro (rfl | ⟨hzero, -⟩)
      · exact hx hy
      · exact hx hzero
    · rw [if_neg hy, toBits_injective.eq_iff]
      simp [hx]

/-- Equal doubles are numbers of the same value. -/
theorem beq_iff_valueBits (x y : Float) :
    (x == y) = true ↔ x.isNaN = false ∧ y.isNaN = false ∧ valueBits x = valueBits y := by
  rw [beq_iff, valueBits_eq_iff]

theorem beq_symm {x y : Float} (h : (x == y) = true) : (y == x) = true := by
  rw [beq_iff_valueBits] at h ⊢
  exact ⟨h.2.1, h.1, h.2.2.symm⟩

theorem beq_trans {x y z : Float} (h : (x == y) = true) (h' : (y == z) = true) :
    (x == z) = true := by
  rw [beq_iff_valueBits] at h h' ⊢
  exact ⟨h.1, h'.2.1, h.2.2.trans h'.2.2⟩

/-- Equal doubles are equal to the same doubles. -/
theorem beq_congr_right {x y : Float} (h : (x == y) = true) (z : Float) : (z == x) = (z == y) := by
  rw [Bool.eq_iff_iff]
  exact ⟨fun hz => beq_trans hz h, fun hz => beq_trans hz (beq_symm h)⟩

/-- The doubles without a sign: zero, the positive numbers and infinity. -/
def IsMagnitude (x : Float) : Prop := x.toBits.toNat ≤ infinityRank

theorem IsMagnitude.rankOf_eq {x : Float} (h : IsMagnitude x) : rankOf x = x.toBits.toNat := by
  have hle : x.toBits.toNat ≤ 0x7ff0000000000000 := h
  exact Nat.mod_eq_of_lt (by omega)

/-- **On doubles without a sign, `==` is equality.** -/
theorem beq_iff_eq_of_isMagnitude {x y : Float} (hx : IsMagnitude x) (hy : IsMagnitude y) :
    (x == y) = true ↔ x = y := by
  have hnumber : ∀ {z : Float}, IsMagnitude z → z.isNaN = false := by
    intro z hz
    rw [← Bool.not_eq_true, isNaN_iff, hz.rankOf_eq]
    exact Nat.not_lt.2 hz
  rw [beq_iff, hx.rankOf_eq, hy.rankOf_eq]
  constructor
  · rintro ⟨-, -, heq | ⟨hzero, hzero'⟩⟩
    · exact heq
    · -- there is one zero without a sign
      exact toBits_injective (UInt64.toNat_inj.1 (hzero.trans hzero'.symm))
  · intro heq
    exact ⟨hnumber hx, hnumber hy, Or.inl heq⟩

/-- Reading a literal never gives a sign. -/
theorem isMagnitude_literalValue (text : String) : IsMagnitude (literalValue text) := by
  have hrank : ∀ num den, rankOfRatio num den ≤ infinityRank := fun _ _ => Nat.min_le_left _ _
  show (doubleOfRank false _).toBits.toNat ≤ infinityRank
  rw [toBits_doubleOfRank (hrank _ _), UInt64.toNat_ofNat']
  exact Nat.le_trans (Nat.mod_le _ _) (hrank _ _)

end LoxArith
