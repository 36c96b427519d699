import Lox.Number.Binary64

/-!
# The parts of a double

A double has a sign and a magnitude, and these two make it (`Binary64.eq_of_parts`).  It is finite
if its magnitude comes before infinity (`Binary64.isFinite_iff`): otherwise all bits of the exponent
are set, whether it stands for an infinity or for no number.
-/

namespace Lox.Binary64

open Float.Model

theorem eq_of_toBits {x y : Float} (h : x.toBits = y.toBits) : x = y := by
  obtain ⟨⟨bits, valid⟩⟩ := x
  obtain ⟨⟨bits', valid'⟩⟩ := y
  obtain rfl : bits = bits' := h
  rfl

/-- **Sign and magnitude make the double.** -/
theorem eq_of_parts {x y : Float} (hsign : isNegative x = isNegative y)
    (hmagnitude : magnitudeBits x = magnitudeBits y) : x = y := by
  refine eq_of_toBits (UInt64.toNat_inj.mp ?_)
  have hx := UInt64.toNat_lt x.toBits
  have hy := UInt64.toNat_lt y.toBits
  have hsign' : 2 ^ 63 ≤ x.toBits.toNat ↔ 2 ^ 63 ≤ y.toBits.toNat := decide_eq_decide.mp hsign
  have hmagnitude' : x.toBits.toNat % 2 ^ 63 = y.toBits.toNat % 2 ^ 63 := hmagnitude
  omega

/-! ## Finite doubles -/

theorem toNat_unpackExponent (b : BitVec 64) :
    (@UnpackedFloat.unpackExponent .binary64 b).toNat = b.toNat / implicitBit % 2048 := by
  show (BitVec.cast _ (BitVec.extractLsb (52 + 11 - 1) 52 b)).toNat = _
  rw [BitVec.toNat_cast, BitVec.extractLsb_toNat, Nat.shiftRight_eq_div_pow]
  rfl

theorem isFinite_unpack (b : BitVec 64) : (UnpackedFloat.unpack .binary64 b).isFinite = true ↔
    @UnpackedFloat.unpackExponent .binary64 b ≠ -1#11 := by
  delta UnpackedFloat.unpack
  dsimp only
  by_cases hfull : @UnpackedFloat.unpackExponent .binary64 b = -1#11
  · rw [if_pos hfull]
    refine ⟨fun hfinite => ?_, fun hne => absurd hfull hne⟩
    by_cases hmantissa : @UnpackedFloat.unpackMantissa .binary64 b = 0#52
    · rw [if_pos hmantissa] at hfinite
      cases hfinite
    · rw [if_neg hmantissa] at hfinite
      cases hfinite
  · rw [if_neg hfull]
    refine ⟨fun _ => hfull, fun _ => ?_⟩
    by_cases hzero : @UnpackedFloat.unpackExponent .binary64 b = 0#11
    · rw [if_pos hzero]
      by_cases hmantissa : @UnpackedFloat.unpackMantissa .binary64 b = 0#52
      · rw [dif_pos hmantissa]
        rfl
      · rw [dif_neg hmantissa]
        rfl
    · rw [if_neg hzero]
      rfl

/-- **A double is finite if its magnitude comes before infinity.** -/
theorem isFinite_iff (x : Float) : x.isFinite = true ↔ magnitudeBits x < infinityBits := by
  have hexponent : x.isFinite = true ↔ x.toBits.toNat / implicitBit % 2048 ≠ 2047 := by
    refine (isFinite_unpack x.toBits.toBitVec).trans (not_congr ?_)
    rw [← BitVec.toNat_inj, toNat_unpackExponent]
    rfl
  have himplicit : implicitBit = 2 ^ 52 := rfl
  have hx := UInt64.toNat_lt x.toBits
  rw [hexponent, himplicit]
  show ¬ x.toBits.toNat / 2 ^ 52 % 2048 = 2047 ↔ x.toBits.toNat % 2 ^ 63 < 2047 * 2 ^ 52
  omega

theorem not_isFinite_of_isNaN {x : Float} (h : x.isNaN = true) : ¬ x.isFinite = true := by
  change x.toModel.unpack.isNaN = true at h
  change ¬ x.toModel.unpack.isFinite = true
  cases hunpack : x.toModel.unpack with
  | notANumber => exact Bool.false_ne_true
  | _ =>
    rw [hunpack] at h
    cases h

end Lox.Binary64
