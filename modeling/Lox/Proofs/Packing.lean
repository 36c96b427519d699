import Lox.Proofs.Doubles

/-!
# Doubles from their fields

A pattern is a sign, an exponent and a fraction, one behind the other.  What a finite double is
unpacked to keeps all three, so that packing it again gives the same pattern
(`Binary64.pack_unpack`): every pattern before infinity is that of a double
(`Binary64.toNat_toBits_ofBits`).  Negation changes the sign and nothing else, also for a zero
(`Binary64.isNegative_neg`, `Binary64.magnitudeBits_neg`), and so undoes itself
(`Binary64.neg_neg_of_isFinite`).
-/

namespace Lox.Binary64

open Float.Model
open UnpackedFloat (unpackSign unpackExponent unpackMantissa packComponents Sign)

/-! ## The fields of a double -/

theorem toNat_unpackMantissa (b : BitVec 64) :
    (@unpackMantissa .binary64 b).toNat = b.toNat % implicitBit := by
  show (BitVec.cast _ (BitVec.extractLsb (52 - 1) 0 b)).toNat = _
  rw [BitVec.toNat_cast, BitVec.extractLsb_toNat, Nat.shiftRight_zero]
  rfl

theorem toNat_unpackSign (b : BitVec 64) :
    (@unpackSign .binary64 b).toNat = b.toNat / signBit := by
  have hlt : b.toNat / signBit < 2 := Nat.div_lt_of_lt_mul b.isLt
  show (BitVec.cast _ (BitVec.extractLsb (52 + 11) (52 + 11) b)).toNat = _
  rw [BitVec.toNat_cast, BitVec.extractLsb_toNat, Nat.shiftRight_eq_div_pow]
  exact Nat.mod_eq_of_lt hlt

theorem toBitVec_ofBitVec (sign : BitVec 1) : (Sign.ofBitVec sign).toBitVec = sign := by
  rcases BitVec.eq_zero_or_eq_one sign with rfl | rfl <;> rfl

theorem toNat_toBitVec_neg (sign : Sign) : (-sign).toBitVec.toNat = 1 - sign.toBitVec.toNat := by
  cases sign <;> rfl

theorem toNat_packComponents (sign : Sign) (exponent : BitVec 11) (mantissa : BitVec 52) :
    (packComponents .binary64 sign exponent mantissa).toNat =
      sign.toBitVec.toNat * signBit + exponent.toNat * implicitBit + mantissa.toNat := by
  show (sign.toBitVec ++ exponent ++ mantissa).toNat = _
  rw [BitVec.toNat_append, BitVec.toNat_append, ← Nat.shiftLeft_add_eq_or_of_lt exponent.isLt,
    ← Nat.shiftLeft_add_eq_or_of_lt mantissa.isLt, Nat.shiftLeft_eq, Nat.shiftLeft_eq]
  show _ = _ * 2 ^ 63 + _ * 2 ^ 52 + _
  omega

section Packing

variable (sign : Sign)

/-- How a finite double is packed: what is too great becomes infinity, and the bit in front of a
full fraction is left out. -/
theorem pack_finite {significand : Nat} {exponent : Int} (h : 0 < significand) :
    UnpackedFloat.pack .binary64 (.finite sign significand exponent h) =
      if 2048 ≤ (exponent + 1075).toNat + 1 then UnpackedFloat.packedInfinity .binary64 sign
      else if significand.log2 = 52 then
        packComponents .binary64 sign (BitVec.ofNat 11 (exponent + 1075).toNat)
          (BitVec.ofNat 52 significand)
      else packComponents .binary64 sign 0#11 (BitVec.ofNat 52 significand) := by
  have hbiased : exponent + 1023 + 52 = exponent + 1075 := by omega
  have hlength : significand.log2 + 1 = 53 ↔ significand.log2 = 52 := by omega
  rw [← hbiased, ← ite_cond_congr (propext hlength)]
  rfl

theorem pack_subnormal {mantissa : BitVec 52} (h : 0 < mantissa.toNat) :
    UnpackedFloat.pack .binary64 (.finite sign mantissa.toNat (-1074) h) =
      packComponents .binary64 sign 0#11 mantissa := by
  have hshort : mantissa.toNat.log2 ≠ 52 :=
    Nat.ne_of_lt ((Nat.log2_lt (Nat.ne_of_gt h)).mpr mantissa.isLt)
  rw [pack_finite, if_neg (by decide), if_neg hshort, BitVec.ofNat_toNat, BitVec.setWidth_eq]

theorem pack_normal {exponent : BitVec 11} {mantissa : BitVec 52} (hfull : exponent ≠ -1#11)
    (h : 0 < implicitBit + mantissa.toNat) :
    UnpackedFloat.pack .binary64
        (.finite sign (implicitBit + mantissa.toNat) (exponent.toNat - 1075) h) =
      packComponents .binary64 sign exponent mantissa := by
  have himplicit : implicitBit = 2 ^ 52 := rfl
  have hmantissa := mantissa.isLt
  have hlt : exponent.toNat < 2047 := by
    have hne := mt BitVec.toNat_inj.mp hfull
    have hmax : (-1#11).toNat = 2047 := rfl
    have := exponent.isLt
    omega
  have hbiased : ((exponent.toNat : Int) - 1075 + 1075).toNat = exponent.toNat := by omega
  have hlog : (implicitBit + mantissa.toNat).log2 = 52 := by
    have hle := (Nat.le_log2 (Nat.ne_of_gt h)).mpr (Nat.le_add_right implicitBit _)
    have hlt := (Nat.log2_lt (Nat.ne_of_gt h)).mpr
      (show implicitBit + mantissa.toNat < 2 ^ 53 by omega)
    omega
  have hfraction : BitVec.ofNat 52 (implicitBit + mantissa.toNat) = mantissa := by
    refine BitVec.eq_of_toNat_eq ?_
    rw [BitVec.toNat_ofNat, himplicit, Nat.add_mod_left, Nat.mod_eq_of_lt hmantissa]
  rw [pack_finite, hbiased, if_neg (by omega), if_pos hlog, hfraction, BitVec.ofNat_toNat,
    BitVec.setWidth_eq]

end Packing

/-- **What a finite pattern unpacks to:** zero, the fraction alone, or the fraction with the bit in
front that is left out of the pattern. -/
theorem unpack_cases {b : BitVec 64} (hfull : @unpackExponent .binary64 b ≠ -1#11) :
    let sign := Sign.ofBitVec (@unpackSign .binary64 b)
    let exponent := @unpackExponent .binary64 b
    let mantissa := @unpackMantissa .binary64 b
    (exponent = 0#11 ∧ mantissa = 0#52 ∧ UnpackedFloat.unpack .binary64 b = .zero sign) ∨
    (exponent = 0#11 ∧ ∃ h, UnpackedFloat.unpack .binary64 b =
      .finite sign mantissa.toNat (-1074) h) ∨
    ∃ h, UnpackedFloat.unpack .binary64 b =
      .finite sign (implicitBit + mantissa.toNat) (exponent.toNat - 1075) h := by
  delta UnpackedFloat.unpack
  dsimp only
  rw [if_neg hfull]
  by_cases hzero : @unpackExponent .binary64 b = 0#11
  · rw [if_pos hzero]
    by_cases hmantissa : @unpackMantissa .binary64 b = 0#52
    · rw [dif_pos hmantissa]
      exact .inl ⟨hzero, hmantissa, rfl⟩
    · rw [dif_neg hmantissa, hzero]
      exact .inr (.inl ⟨rfl, _, rfl⟩)
  · rw [if_neg hzero]
    have happend : (1#1 ++ @unpackMantissa .binary64 b).toNat =
        implicitBit + (@unpackMantissa .binary64 b).toNat := by
      rw [BitVec.toNat_append, ← Nat.shiftLeft_add_eq_or_of_lt (@unpackMantissa .binary64 b).isLt]
      rfl
    -- The significand is replaced together with the proof that it is positive.
    have hreplaced {sign : Sign} {significand significand' : Nat} {exponent : Int}
        (hsame : significand = significand') (h : 0 < significand) :
        ∃ h', UnpackedFloat.finite sign significand exponent h =
          .finite sign significand' exponent h' := by
      subst hsame
      exact ⟨h, rfl⟩
    exact .inr (.inr (hreplaced happend _))

/-- **A finite double is packed again** from its own fields, and its negation from these and the
other sign. -/
theorem pack_unpack {b : BitVec 64} (hfull : @unpackExponent .binary64 b ≠ -1#11) :
    let sign := Sign.ofBitVec (@unpackSign .binary64 b)
    let fields sign := packComponents .binary64 sign (unpackExponent b) (unpackMantissa b)
    UnpackedFloat.pack .binary64 (UnpackedFloat.unpack .binary64 b) = fields sign ∧
      UnpackedFloat.pack .binary64 (UnpackedFloat.unpack .binary64 b).neg = fields (-sign) := by
  dsimp only
  rcases unpack_cases hfull with ⟨hexponent, hmantissa, h⟩ | ⟨hexponent, hpos, h⟩ | ⟨hpos, h⟩
  · rw [h, hexponent, hmantissa]
    exact ⟨rfl, rfl⟩
  · rw [h, hexponent]
    exact ⟨pack_subnormal _ hpos, pack_subnormal _ hpos⟩
  · rw [h]
    exact ⟨pack_normal _ hfull hpos, pack_normal _ hfull hpos⟩

theorem toNat_pack_unpack {b : BitVec 64} (hfull : @unpackExponent .binary64 b ≠ -1#11) :
    (UnpackedFloat.pack .binary64 (UnpackedFloat.unpack .binary64 b)).toNat = b.toNat := by
  have hb := b.isLt
  rw [(pack_unpack hfull).1, toNat_packComponents, toBitVec_ofBitVec, toNat_unpackSign,
    toNat_unpackExponent, toNat_unpackMantissa]
  show b.toNat / 2 ^ 63 * 2 ^ 63 + b.toNat / 2 ^ 52 % 2048 * 2 ^ 52 + b.toNat % 2 ^ 52 = b.toNat
  omega

theorem toNat_pack_neg {b : BitVec 64} (hfull : @unpackExponent .binary64 b ≠ -1#11) :
    (UnpackedFloat.pack .binary64 (UnpackedFloat.unpack .binary64 b).neg).toNat =
      (1 - b.toNat / signBit) * signBit + b.toNat % signBit := by
  have hb := b.isLt
  rw [(pack_unpack hfull).2, toNat_packComponents, toNat_toBitVec_neg, toBitVec_ofBitVec,
    toNat_unpackSign, toNat_unpackExponent, toNat_unpackMantissa]
  show (1 - b.toNat / 2 ^ 63) * 2 ^ 63 + b.toNat / 2 ^ 52 % 2048 * 2 ^ 52 + b.toNat % 2 ^ 52 =
    (1 - b.toNat / 2 ^ 63) * 2 ^ 63 + b.toNat % 2 ^ 63
  omega

/-- **A pattern before infinity is that of a double.** -/
theorem toNat_toBits_ofBits {bits : Nat} (h : bits < infinityBits) :
    (Float.ofBits (UInt64.ofNat bits)).toBits.toNat = bits := by
  have hbits : (BitVec.ofNat 64 bits).toNat = bits := by
    rw [BitVec.toNat_ofNat, Nat.mod_eq_of_lt (Nat.lt_trans h (by decide))]
  have hfull : @unpackExponent .binary64 (BitVec.ofNat 64 bits) ≠ -1#11 := by
    rw [ne_eq, ← BitVec.toNat_inj, toNat_unpackExponent, hbits]
    show ¬ bits / 2 ^ 52 % 2048 = 2047
    have hlt : bits < 2047 * 2 ^ 52 := h
    omega
  exact (toNat_pack_unpack hfull).trans hbits

section Negation

variable {x : Float}

theorem toNat_toBits_neg (h : x.isFinite = true) : (-x).toBits.toNat =
    (1 - x.toBits.toNat / signBit) * signBit + magnitudeBits x :=
  toNat_pack_neg ((isFinite_unpack x.toBits.toBitVec).mp h)

/-- **Negation turns the sign,** also that of a zero. -/
theorem isNegative_neg (h : x.isFinite = true) : isNegative (-x) = !isNegative x := by
  have hx := UInt64.toNat_lt x.toBits
  unfold isNegative
  rw [toNat_toBits_neg h, ← decide_not, decide_eq_decide]
  show 2 ^ 63 ≤ (1 - x.toBits.toNat / 2 ^ 63) * 2 ^ 63 + x.toBits.toNat % 2 ^ 63 ↔
    ¬ 2 ^ 63 ≤ x.toBits.toNat
  omega

/-- **Negation keeps the magnitude.** -/
theorem magnitudeBits_neg (h : x.isFinite = true) : magnitudeBits (-x) = magnitudeBits x := by
  unfold magnitudeBits
  rw [toNat_toBits_neg h, Nat.mul_add_mod_self_right]
  exact Nat.mod_mod _ _

theorem isFinite_neg (h : x.isFinite = true) : (-x).isFinite = true := by
  rw [isFinite_iff, magnitudeBits_neg h]
  exact (isFinite_iff x).mp h

theorem neg_neg_of_isFinite (h : x.isFinite = true) : -(-x) = x := by
  have hneg := isFinite_neg h
  refine eq_of_parts ?_ ((magnitudeBits_neg hneg).trans (magnitudeBits_neg h))
  rw [isNegative_neg hneg, isNegative_neg h, Bool.not_not]

/-- The double of its magnitude alone: a finite one without a sign is itself. -/
theorem ofBits_magnitudeBits (h : x.isFinite = true) (hsign : isNegative x = false) :
    Float.ofBits (UInt64.ofNat (magnitudeBits x)) = x := by
  have hfinite := (isFinite_iff x).mp h
  have hbits := toNat_toBits_ofBits hfinite
  have hlt : x.toBits.toNat < signBit := Nat.not_le.mp (of_decide_eq_false hsign)
  refine eq_of_toBits (UInt64.toNat_inj.mp (hbits.trans ?_))
  exact Nat.mod_eq_of_lt hlt

end Negation

end Lox.Binary64
