import Lox.Proofs.Rounding
import Lox.Proofs.Scanning.Grammar

/-!
# The shortest decimals

The decimal that stands for a double in print reads as this double again (`Decimal.bits_shortest`):
a neighbour on a grid is taken only if it does, and the exact value, which is left when no grid has
one, is nearest to itself.

Whatever the layout, the text of a decimal is digits and, behind a point, more digits, which
together stand for the decimal (`Decimal.Layout`).  No zero is written that the point does not need.
-/

namespace Lox

namespace Binary64

theorem value_zero : value 0 = 0 := by
  have hunits : units 0 = 0 := rfl
  unfold value
  rw [hunits, Nat.cast_zero, zero_div]

/-- A double is the one nearest to its own value. -/
theorem isNearest_value {bits : Nat} (h : bits ≤ infinityBits) : IsNearest (value bits) bits := by
  refine ⟨h, fun other _ => ?_, fun other _ hne htie => ?_⟩
  · rw [sub_self, abs_zero]
    exact abs_nonneg _
  · rw [sub_self, abs_zero, eq_comm, abs_eq_zero, sub_eq_zero] at htie
    exact absurd (strictMono_value.injective htie) hne

end Binary64

open Binary64 (IsNearest infinityBits)

namespace Decimal

/-- The number that a decimal stands for. -/
def value (d : Decimal) : ℚ := d.significand * 10 ^ d.exponent

variable {d : Decimal}

theorem value_of_nonneg (h : 0 ≤ d.exponent) :
    d.value = (d.significand * 10 ^ d.exponent.toNat : Nat) := by
  have hexponent : ((d.exponent.toNat : Int)) = d.exponent := Int.toNat_of_nonneg h
  unfold value
  rw [← hexponent, zpow_natCast, hexponent]
  push_cast
  rfl

theorem value_of_neg (h : d.exponent < 0) :
    d.value = (d.significand : ℚ) / (10 ^ (-d.exponent).toNat : Nat) := by
  have hexponent : d.exponent = -((-d.exponent).toNat : Int) := by omega
  unfold value
  rw [hexponent, zpow_neg, zpow_natCast, ← hexponent, div_eq_mul_inv]
  push_cast
  rfl

/-- **A decimal reads as the double nearest to it.** -/
theorem isNearest_bits (d : Decimal) : IsNearest d.value d.bits := by
  unfold bits
  split
  · next h =>
    have hread := Binary64.nearest_isNearest (d.significand * 10 ^ d.exponent.toNat) Nat.one_pos
    rwa [Nat.cast_one, div_one, ← value_of_nonneg h] at hread
  · next h =>
    rw [value_of_neg (not_le.mp h)]
    exact Binary64.nearest_isNearest _ (Nat.pow_pos (by decide))

theorem significand_ne_zero (h : d.bits ≠ 0) : d.significand ≠ 0 := by
  intro hzero
  have hvalue : d.value = Binary64.value 0 := by
    unfold value
    rw [hzero, Nat.cast_zero, zero_mul, Binary64.value_zero]
  have hread := d.isNearest_bits
  rw [hvalue] at hread
  exact h (hread.unique (Binary64.isNearest_value (Nat.zero_le _)))

/-! ## The search -/

theorem mul_five_pow_tenths (units places : Nat) :
    ((units * 5 ^ places : Nat) : ℚ) * 10 ^ (-(places : Int)) = units / (2 ^ places : Nat) := by
  have hpow : (10 : ℚ) ^ places = 2 ^ places * 5 ^ places := by rw [← mul_pow]; norm_num
  rw [zpow_neg, zpow_natCast, hpow]
  push_cast
  field_simp

theorem value_exact (units : Nat) : (exact units).value = units / Binary64.scale := by
  have hplaces : (-1074 : Int) = -((1074 : Nat) : Int) := rfl
  unfold exact value Binary64.scale
  rw [hplaces]
  generalize 1074 = places
  exact mul_five_pow_tenths units places

theorem bits_exact {bits : Nat} (h : bits ≤ infinityBits) :
    (exact (Binary64.units bits)).bits = bits := by
  have hread := isNearest_bits (exact (Binary64.units bits))
  rw [value_exact] at hread
  exact hread.unique (Binary64.isNearest_value h)

variable {tie : Tie} {bits : Nat}

/-- A neighbour on a grid is taken only if it reads back. -/
theorem bits_nearGrid {num den : Nat} {exponent : Int}
    (h : nearGrid? tie bits num den exponent = some d) : d.bits = bits := by
  unfold nearGrid? at h
  dsimp only at h
  split at h
  · cases h
  · next hbelow _ =>
    cases h
    exact of_decide_eq_true hbelow
  · next _ habove =>
    cases h
    exact of_decide_eq_true habove
  · next hbelow habove =>
    have hboth : d = ⟨num / den, exponent⟩ ∨ d = ⟨num / den + 1, exponent⟩ := by
      split at h
      · exact .inl (Option.some.inj h).symm
      · split at h
        · exact .inr (Option.some.inj h).symm
        · cases tie with
          | up => exact .inr (Option.some.inj h).symm
          | even =>
            dsimp only at h
            split at h
            · exact .inl (Option.some.inj h).symm
            · exact .inr (Option.some.inj h).symm
    rcases hboth with rfl | rfl
    · exact of_decide_eq_true hbelow
    · exact of_decide_eq_true habove

theorem bits_onGrid {exponent : Int} (h : onGrid? tie bits exponent = some d) : d.bits = bits := by
  unfold onGrid? at h
  dsimp only at h
  split at h <;> exact bits_nearGrid h

theorem bits_search (hbits : bits ≤ infinityBits) (point : Int) (remaining : Nat) :
    ∀ count, (search tie bits point remaining count).bits = bits := by
  induction remaining with
  | zero => exact fun _ => bits_exact hbits
  | succ remaining ih =>
    intro count
    unfold search
    split
    · next hd => exact bits_onGrid hd
    · exact ih (count + 1)

/-- **The decimal that stands for a double reads as this double,** whichever of two equally near
ones is taken. -/
theorem bits_shortest (hbits : bits ≤ infinityBits) : (shortest tie bits).bits = bits :=
  bits_search hbits _ _ _

/-! ## Layouts -/

theorem digits_toDigits (n : Nat) : Digits (Nat.toDigits 10 n) :=
  ⟨Nat.toDigits_ne_nil, fun _ => Nat.isDigit_of_mem_toDigits (by decide) (by decide)⟩

theorem digits_singleton {c : Char} (h : c.isDigit = true) : Digits [c] :=
  ⟨List.cons_ne_nil _ _, List.forall_mem_cons.mpr ⟨h, List.forall_mem_nil _⟩⟩

/-- No number but zero is written with a zero in front. -/
theorem head?_toDigits_ne_zero {n : Nat} (h : n ≠ 0) : (Nat.toDigits 10 n).head? ≠ some '0' := by
  induction n using Nat.strong_induction_on with
  | _ n ih =>
    rcases Nat.lt_or_ge n 10 with hlt | hge
    · rw [Nat.toDigits_of_lt_base hlt, List.head?_cons, ne_eq, Option.some.injEq,
        Nat.digitChar_eq_zero]
      exact h
    · rw [Nat.toDigits_of_base_le (by decide) hge,
        List.head?_append_of_ne_nil _ Nat.toDigits_ne_nil]
      exact ih (n / 10) (by omega) (by omega)

theorem digits_digits (d : Decimal) : Digits d.digits := digits_toDigits _

theorem head?_digits_ne_zero (hd : d.significand ≠ 0) : d.digits.head? ≠ some '0' :=
  head?_toDigits_ne_zero hd

theorem decimal_toDigits (n : Nat) : Number.decimal (Nat.toDigits 10 n) [] = n := by
  rw [Number.decimal_eq_ratio, List.append_nil, Nat.ofDigitChars_ten_toDigits, List.length_nil,
    pow_zero, Nat.cast_one, div_one]

theorem ofDigitChars_digits (d : Decimal) : Nat.ofDigitChars 10 d.digits 0 = d.significand :=
  Nat.ofDigitChars_ten_toDigits

theorem isDigit_of_mem_zeros {n : Nat} {c : Char} (h : c ∈ List.replicate n '0') :
    c.isDigit = true := by
  rw [List.eq_of_mem_replicate h]
  rfl

/-- The digits of the text of a decimal: those before the point, and those behind it. -/
structure Layout (d : Decimal) (whole fraction : List Char) : Prop where
  digits : Digits whole
  behind : ∀ c ∈ fraction, c.isDigit = true
  noZero : whole.head? = some '0' → whole = ['0']
  value : Number.decimal whole fraction = d.value

theorem layout_whole (h : 0 ≤ d.exponent) (hd : d.significand ≠ 0) :
    Layout d d.positional [] := by
  have htext : d.positional = d.digits ++ List.replicate d.exponent.toNat '0' := if_pos h
  rw [htext]
  refine ⟨⟨?_, fun c hc => ?_⟩, List.forall_mem_nil _, fun hzero => ?_, ?_⟩
  · exact List.append_ne_nil_of_left_ne_nil d.digits_digits.1 _
  · exact (List.mem_append.mp hc).elim (d.digits_digits.2 c) isDigit_of_mem_zeros
  · rw [List.head?_append_of_ne_nil _ d.digits_digits.1] at hzero
    exact absurd hzero (head?_digits_ne_zero hd)
  · rw [Number.decimal_eq_ratio, List.append_nil, List.length_nil, pow_zero, Nat.cast_one, div_one,
      Nat.ofDigitChars_append, Nat.ofDigitChars_replicate_zero, value_of_nonneg h,
      ofDigitChars_digits, Nat.mul_comm]

/-- Digits with as many behind the point as the decimal has places stand for it. -/
theorem decimal_eq_value (h : d.exponent < 0) {whole fraction : List Char}
    (hdigits : Nat.ofDigitChars 10 (whole ++ fraction) 0 = d.significand)
    (hlength : fraction.length = (-d.exponent).toNat) :
    Number.decimal whole fraction = d.value := by
  rw [Number.decimal_eq_ratio, hdigits, hlength, value_of_neg h]

theorem exists_layout_fraction (h : d.exponent < 0) (hd : d.significand ≠ 0) :
    ∃ whole fraction, Layout d whole fraction ∧ fraction ≠ [] ∧
      d.positional = whole ++ '.' :: fraction := by
  have hplaces : 0 < (-d.exponent).toNat := by omega
  unfold positional
  dsimp only
  rw [if_neg (not_le.mpr h)]
  split
  · next hlt =>
    -- The point stands among the digits.
    have hwhole : d.digits.take (d.digits.length - (-d.exponent).toNat) ≠ [] := by
      rw [ne_eq, List.take_eq_nil_iff]
      exact not_or.mpr ⟨by omega, d.digits_digits.1⟩
    have hlength : (d.digits.drop (d.digits.length - (-d.exponent).toNat)).length =
        (-d.exponent).toNat := by
      rw [List.length_drop]
      omega
    refine ⟨_, _, ⟨⟨hwhole, fun c hc => ?_⟩, fun c hc => ?_, fun hzero => ?_, ?_⟩, ?_, rfl⟩
    · exact d.digits_digits.2 c (List.mem_of_mem_take hc)
    · exact d.digits_digits.2 c (List.mem_of_mem_drop hc)
    · rw [List.head?_take, if_neg (by omega)] at hzero
      exact absurd hzero (head?_digits_ne_zero hd)
    · refine decimal_eq_value h ?_ hlength
      rw [List.take_append_drop, ofDigitChars_digits]
    · exact List.ne_nil_of_length_pos (by omega)
  · next hge =>
    -- The point stands before the digits, with zeros between.
    have hlength : (List.replicate ((-d.exponent).toNat - d.digits.length) '0' ++
        d.digits).length = (-d.exponent).toNat := by
      rw [List.length_append, List.length_replicate]
      omega
    refine ⟨['0'], _, ⟨digits_singleton rfl, fun c hc => ?_, fun _ => rfl, ?_⟩, ?_, rfl⟩
    · exact (List.mem_append.mp hc).elim isDigit_of_mem_zeros (d.digits_digits.2 c)
    · refine decimal_eq_value h ?_ hlength
      rw [List.singleton_append, ← List.cons_append, ← List.replicate_succ,
        Nat.ofDigitChars_append, Nat.ofDigitChars_replicate_zero, Nat.mul_zero,
        ofDigitChars_digits]
    · exact List.ne_nil_of_length_pos (by omega)

end Decimal

end Lox
