import Lox.Proofs.Doubles
import Lox.Proofs.Json.Grammar
import Lox.Proofs.Shortest

/-!
# Numbers in JSON

A finite double is written as a JSON number with its sign, and with a magnitude to which it is the
nearest double (`Json.derives_inJson`, `Json.readsAs_magnitudeOf`).  So whoever reads that number and
rounds it has the double again, as two doubles are not the same number (`Json.ReadsAs.unique`).
-/

namespace Lox

namespace Decimal

variable {d : Decimal}

open Json (Magnitude Whole Fraction Power)

theorem magnitude_plain {whole fraction text : List Char} (hlayout : Layout d whole fraction)
    (htext : Fraction fraction text) : Magnitude d.value (whole ++ text) := by
  have h := Magnitude.mk ⟨hlayout.digits, hlayout.noZero⟩ htext .none
  rwa [zpow_zero, mul_one, List.append_nil, hlayout.value] at h

theorem Layout.zero_behind {whole : List Char} (h : Layout d whole []) : Layout d whole ['0'] where
  digits := h.digits
  behind := (digits_singleton rfl).2
  noZero := h.noZero
  value := by
    rw [← h.value]
    unfold Number.decimal
    simp [Nat.ofDigitChars_cons]

theorem power_signed (power : Int) :
    Power power ('e' :: (if 0 ≤ power then '+' else '-') :: Nat.toDigits 10 power.natAbs) := by
  have hdigits : (Nat.ofDigitChars 10 (Nat.toDigits 10 power.natAbs) 0 : Int) = power.natAbs := by
    rw [Nat.ofDigitChars_ten_toDigits]
  split
  · next h =>
    have hup := Power.up (.inl rfl) (digits_toDigits power.natAbs)
    rwa [hdigits, Int.natAbs_of_nonneg h] at hup
  · next h =>
    have hdown := Power.down (.inl rfl) (digits_toDigits power.natAbs)
    have habs : -(power.natAbs : Int) = power := by omega
    rwa [hdigits, habs] at hdown

/-- The first digit is before the point and all others behind it. -/
theorem decimal_mul_power {first : Char} {others : List Char} (h : d.digits = first :: others) :
    Number.decimal [first] others * 10 ^ (d.exponent + d.digits.length - 1) = d.value := by
  have hpower : d.exponent + d.digits.length - 1 = others.length + d.exponent := by
    rw [h, List.length_cons]
    push_cast
    ring
  have hten : (10 : ℚ) ≠ 0 := by norm_num
  have hpow : ((10 : ℚ) ^ others.length) ≠ 0 := pow_ne_zero _ hten
  rw [hpower, Number.decimal_eq_ratio, List.singleton_append, ← h, ofDigitChars_digits,
    zpow_add₀ hten, zpow_natCast]
  unfold value
  push_cast
  field_simp

theorem whole_singleton {first : Char} {others : List Char} (h : d.digits = first :: others) :
    Whole [first] := by
  have hfirst : first.isDigit = true := d.digits_digits.2 first (h ▸ List.mem_cons_self)
  refine ⟨digits_singleton hfirst, fun hzero => ?_⟩
  rw [Option.some.inj hzero]

theorem magnitude_scientific (d : Decimal) : Magnitude d.value d.scientific := by
  have hpower := power_signed (d.exponent + d.digits.length - 1)
  obtain ⟨first, others, hdigits⟩ := List.exists_cons_of_ne_nil d.digits_digits.1
  have hwhole := whole_singleton hdigits
  rw [← decimal_mul_power hdigits]
  unfold scientific
  dsimp only
  cases others with
  | nil =>
    rw [hdigits] at hpower ⊢
    exact .mk hwhole .none hpower
  | cons second others =>
    have hbehind : Digits (second :: others) := by
      refine ⟨List.cons_ne_nil _ _, fun c hc => d.digits_digits.2 c ?_⟩
      rw [hdigits]
      exact List.mem_cons_of_mem _ hc
    rw [hdigits] at hpower ⊢
    exact .mk hwhole (.some hbehind) hpower

/-- **The JSON text of a decimal stands for it,** in both of its layouts. -/
theorem magnitude_jsonDecimal (hd : d.significand ≠ 0) :
    Magnitude d.value (Number.jsonDecimal d) := by
  unfold Number.jsonDecimal
  dsimp only
  split
  · split
    · next h =>
      exact magnitude_plain (layout_whole h hd).zero_behind (.some (digits_singleton rfl))
    · next h =>
      obtain ⟨whole, fraction, hlayout, hne, htext⟩ := exists_layout_fraction (not_le.mp h) hd
      rw [htext, List.append_nil]
      exact magnitude_plain hlayout (.some ⟨hne, hlayout.behind⟩)
  · exact magnitude_scientific d

end Decimal

namespace Json

open Binary64 (isNegative magnitudeBits infinityBits IsNearest)

/-- Whether `x` is the double that a number is read as: the one of its sign that is nearest. -/
structure ReadsAs (negative : Bool) (magnitude : ℚ) (x : Float) : Prop where
  sign : isNegative x = negative
  nearest : IsNearest magnitude (magnitudeBits x)

theorem ReadsAs.unique {negative : Bool} {magnitude : ℚ} {x y : Float}
    (hx : ReadsAs negative magnitude x) (hy : ReadsAs negative magnitude y) : x = y :=
  Binary64.eq_of_parts (hx.sign.trans hy.sign.symm) (hx.nearest.unique hy.nearest)

/-- The magnitude that the JSON text of a finite double is for. -/
def magnitudeOf (x : Float) : ℚ :=
  if magnitudeBits x = 0 then 0 else (Decimal.shortest .even (magnitudeBits x)).value

/-- The JSON value of a double. -/
def ofFloat (x : Float) : Json :=
  if x.isFinite then .number (isNegative x) (magnitudeOf x) else .null

/-- **A finite double is read back** from its JSON number, the sign of a zero included. -/
theorem readsAs_magnitudeOf {x : Float} (h : x.isFinite = true) :
    ReadsAs (isNegative x) (magnitudeOf x) x := by
  have hfinite := (Binary64.isFinite_iff x).mp h
  refine ⟨rfl, ?_⟩
  unfold magnitudeOf
  split
  · next hzero =>
    rw [hzero]
    have hnearest := Binary64.isNearest_value (Nat.zero_le infinityBits)
    rwa [Binary64.value_zero] at hnearest
  · have hnearest := (Decimal.shortest .even (magnitudeBits x)).isNearest_bits
    rwa [Decimal.bits_shortest hfinite.le] at hnearest

theorem magnitude_magnitudeOf {x : Float} (h : x.isFinite = true) :
    Magnitude (magnitudeOf x) (if magnitudeBits x = 0 then "0.0".toList
      else Number.jsonDecimal (.shortest .even (magnitudeBits x))) := by
  have hfinite := (Binary64.isFinite_iff x).mp h
  unfold magnitudeOf
  split
  · have hzero : Digits ['0'] := Decimal.digits_singleton rfl
    have hmagnitude := Magnitude.mk ⟨hzero, fun _ => rfl⟩ (.some hzero) .none
    have hvalue : Number.decimal ['0'] ['0'] * 10 ^ (0 : Int) = 0 := by
      simp [Number.decimal, Nat.ofDigitChars_cons]
    rwa [hvalue] at hmagnitude
  · next hne =>
    refine Decimal.magnitude_jsonDecimal (Decimal.significand_ne_zero ?_)
    rwa [Decimal.bits_shortest hfinite.le]

/-- **The JSON text of a double is a text of its JSON value.** -/
theorem derives_inJson (x : Float) : Derives (.value (ofFloat x)) (Number.inJson x) := by
  have hnull : (x.isNaN || infinityBits ≤ magnitudeBits x) = true ↔ ¬ x.isFinite = true := by
    rw [Bool.or_eq_true, decide_eq_true_iff]
    constructor
    · rintro (hnan | hle)
      · exact Binary64.not_isFinite_of_isNaN hnan
      · exact fun h => absurd ((Binary64.isFinite_iff x).mp h) (not_lt.mpr hle)
    · exact fun h => .inr (not_lt.mp fun hlt => h ((Binary64.isFinite_iff x).mpr hlt))
  unfold ofFloat Number.inJson
  dsimp only
  by_cases h : x.isFinite = true
  · rw [if_pos h, if_neg (fun hn => hnull.mp hn h)]
    have hmagnitude := magnitude_magnitudeOf h
    cases isNegative x with
    | false => exact .positive hmagnitude
    | true => exact .negative hmagnitude
  · rw [if_neg h, if_pos (hnull.mpr h)]
    exact .null

end Json

end Lox
