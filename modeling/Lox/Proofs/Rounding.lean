import Lox.Number.Text
import Mathlib.Algebra.Order.Field.Rat
import Mathlib.Data.List.TakeWhile
import Mathlib.Data.Nat.Cast.Order.Field
import Mathlib.Tactic.FieldSimp
import Mathlib.Tactic.Linarith
import Mathlib.Tactic.Ring

/-!
# Rounding to doubles

The nonnegative doubles are points on the line, and their bit patterns number them in increasing
order (`Binary64.strictMono_value`).  Among these points, with infinity standing where the next
binary exponent would begin, `Binary64.nearest` finds the one that is nearest to a ratio, and of two
that are equally near the one with the even pattern (`Binary64.nearest_isNearest`).  There is only
one such pattern (`Binary64.IsNearest.unique`), so this says exactly what a literal reads as
(`Number.rounds_read_whole`, `Number.rounds_read_fraction`).
-/

namespace Lox.Binary64

/-! ## Patterns in increasing order -/

theorem implicitBit_pos : 0 < implicitBit := by decide

theorem scale_pos : (0 : ℚ) < scale := by
  unfold scale
  generalize 1074 = places
  exact Nat.cast_pos.mpr (Nat.two_pow_pos places)

theorem units_fields {exponent fraction : Nat} (h : fraction < implicitBit) :
    units (exponent * implicitBit + fraction) =
      if exponent = 0 then fraction else (implicitBit + fraction) * 2 ^ (exponent - 1) := by
  have hdiv : (exponent * implicitBit + fraction) / implicitBit = exponent := by
    rw [Nat.add_comm, Nat.add_mul_div_right _ _ implicitBit_pos, Nat.div_eq_of_lt h, Nat.zero_add]
  have hmod : (exponent * implicitBit + fraction) % implicitBit = fraction := by
    rw [Nat.mul_add_mod_self_right, Nat.mod_eq_of_lt h]
  unfold units
  rw [hdiv, hmod]
  rfl

/-- A significand of at most 53 bits, moved up by some binary places, is what the pattern made of
the two stands for.  The significand may be one too large, and then begins the next exponent. -/
theorem units_shifted {shift significand : Nat} (hle : significand ≤ 2 * implicitBit)
    (h : shift = 0 ∨ implicitBit ≤ significand) :
    units (shift * implicitBit + significand) = significand * 2 ^ shift := by
  rcases Nat.lt_or_ge significand implicitBit with hlt | hge
  · obtain rfl := h.resolve_right (Nat.not_le.mpr hlt)
    rw [units_fields hlt, if_pos rfl, Nat.pow_zero, Nat.mul_one]
  obtain ⟨fraction, rfl⟩ := Nat.exists_eq_add_of_le hge
  rcases Nat.lt_or_ge fraction implicitBit with hlt | hge'
  · rw [← Nat.add_assoc, ← Nat.succ_mul, units_fields hlt, if_neg (Nat.succ_ne_zero _),
      Nat.succ_sub_one]
  · obtain rfl : fraction = implicitBit := by omega
    have hpattern : shift * implicitBit + (implicitBit + implicitBit) =
        (shift + 2) * implicitBit + 0 := by ring
    rw [hpattern, units_fields implicitBit_pos, if_neg (by omega)]
    show (implicitBit + 0) * 2 ^ (shift + 1) = _
    ring

theorem exists_shifted (bits : Nat) : ∃ shift significand,
    bits = shift * implicitBit + significand ∧ significand < 2 * implicitBit ∧
      (shift = 0 ∨ implicitBit ≤ significand) := by
  have hsum := Nat.div_add_mod' bits implicitBit
  have hlt := Nat.mod_lt bits implicitBit_pos
  cases hexponent : bits / implicitBit with
  | zero =>
    rw [hexponent, Nat.zero_mul] at hsum
    exact ⟨0, bits % implicitBit, by omega, by omega, .inl rfl⟩
  | succ exponent =>
    rw [hexponent, Nat.succ_mul] at hsum
    exact ⟨exponent, implicitBit + bits % implicitBit, by omega, by omega, .inr (by omega)⟩

theorem units_lt_succ (bits : Nat) : units bits < units (bits + 1) := by
  obtain ⟨shift, significand, rfl, hlt, h⟩ := exists_shifted bits
  have hnext : units (shift * implicitBit + significand + 1) = (significand + 1) * 2 ^ shift := by
    rw [Nat.add_assoc]
    exact units_shifted hlt (h.imp id Nat.le_succ_of_le)
  rw [units_shifted hlt.le h, hnext]
  exact Nat.mul_lt_mul_of_pos_right (Nat.lt_succ_self _) (Nat.pow_pos (by decide))

/-- The number that a nonnegative pattern stands for. -/
def value (bits : Nat) : ℚ := units bits / scale

/-- **Patterns number the doubles** in increasing order. -/
theorem strictMono_value : StrictMono value := by
  intro a b h
  have hunits : units a < units b := strictMono_nat_of_lt_succ units_lt_succ h
  exact div_lt_div_of_pos_right (by exact_mod_cast hunits) scale_pos

/-! ## The nearest pattern -/

/-- The pattern of the double nearest to `x`: no other is nearer, and none is equally near unless
this one is even.  Infinity takes part as the power of two behind the greatest finite double, so
that what is at least half the last distance beyond that double goes to infinity. -/
structure IsNearest (x : ℚ) (bits : Nat) : Prop where
  le_infinity : bits ≤ infinityBits
  nearest : ∀ other ≤ infinityBits, |value bits - x| ≤ |value other - x|
  even_of_tie : ∀ other ≤ infinityBits, other ≠ bits → |value bits - x| = |value other - x| →
    bits % 2 = 0

variable {x : ℚ} {low : Nat}

theorem distance_of_le (h : value low ≤ x) {other : Nat} (hother : other ≤ low) :
    |value other - x| = x - value other := by
  rw [abs_sub_comm, abs_of_nonneg]
  linarith [strictMono_value.monotone hother]

theorem distance_of_ge {high : Nat} (h : x ≤ value high) {other : Nat} (hother : high ≤ other) :
    |value other - x| = value other - x :=
  abs_of_nonneg (by linarith [strictMono_value.monotone hother])

/-- There is only one nearest pattern: two that are equally near would both be even, and so have
another between them that is nearer. -/
theorem IsNearest.unique {a b : Nat} (ha : IsNearest x a) (hb : IsNearest x b) : a = b := by
  wlog hle : a ≤ b generalizing a b
  · exact (this hb ha (Nat.le_of_not_le hle)).symm
  by_contra hne
  have htie : |value a - x| = |value b - x| :=
    le_antisymm (ha.nearest b hb.le_infinity) (hb.nearest a ha.le_infinity)
  have heven := ha.even_of_tie b hb.le_infinity (Ne.symm hne) htie
  have heven' := hb.even_of_tie a ha.le_infinity hne htie.symm
  have hbetween := ha.nearest (a + 1) (by have := hb.le_infinity; omega)
  have hlow : value a < value (a + 1) := strictMono_value (Nat.lt_succ_self a)
  have hhigh : value (a + 1) < value b := strictMono_value (by omega)
  have hnearer : |value (a + 1) - x| < |value a - x| := by
    rcases abs_choice (value a - x) with h | h <;> rcases abs_choice (value b - x) with h' | h' <;>
      rw [abs_lt] <;> constructor <;>
      linarith [abs_nonneg (value a - x), abs_nonneg (value b - x)]
  exact absurd hbetween (not_le.mpr hnearer)

theorem isNearest_low (hle : low ≤ infinityBits) (hlow : value low ≤ x)
    (hhigh : x ≤ value (low + 1))
    (h : x - value low < value (low + 1) - x ∨
      x - value low = value (low + 1) - x ∧ low % 2 = 0) : IsNearest x low := by
  have hdistance := distance_of_le hlow le_rfl
  refine ⟨hle, fun other hother => ?_, fun other hother hne htie => ?_⟩
  · rw [hdistance]
    rcases Nat.lt_or_ge low other with hlt | hge
    · rw [distance_of_ge hhigh hlt]
      have := strictMono_value.monotone (show low + 1 ≤ other from hlt)
      rcases h with h | h <;> linarith
    · rw [distance_of_le hlow hge]
      linarith [strictMono_value.monotone hge]
  · rw [hdistance] at htie
    rcases Nat.lt_or_ge low other with hlt | hge
    · rw [distance_of_ge hhigh hlt] at htie
      have := strictMono_value.monotone (show low + 1 ≤ other from hlt)
      exact (h.resolve_left fun h => by linarith).2
    · rw [distance_of_le hlow hge] at htie
      have := strictMono_value (lt_of_le_of_ne hge hne)
      linarith

theorem isNearest_high (hle : low + 1 ≤ infinityBits) (hlow : value low ≤ x)
    (hhigh : x ≤ value (low + 1))
    (h : value (low + 1) - x < x - value low ∨
      value (low + 1) - x = x - value low ∧ (low + 1) % 2 = 0) : IsNearest x (low + 1) := by
  have hdistance := distance_of_ge hhigh le_rfl
  refine ⟨hle, fun other hother => ?_, fun other hother hne htie => ?_⟩
  · rw [hdistance]
    rcases Nat.lt_or_ge low other with hlt | hge
    · rw [distance_of_ge hhigh hlt]
      linarith [strictMono_value.monotone (show low + 1 ≤ other from hlt)]
    · rw [distance_of_le hlow hge]
      have := strictMono_value.monotone hge
      rcases h with h | h <;> linarith
  · rw [hdistance] at htie
    rcases Nat.lt_or_ge low other with hlt | hge
    · rw [distance_of_ge hhigh hlt] at htie
      have := strictMono_value (lt_of_le_of_ne (show low + 1 ≤ other from hlt) (Ne.symm hne))
      linarith
    · rw [distance_of_le hlow hge] at htie
      have := strictMono_value.monotone hge
      exact (h.resolve_left fun h => by linarith).2

theorem isNearest_infinity (h : value infinityBits ≤ x) : IsNearest x infinityBits := by
  refine ⟨le_rfl, fun other hother => ?_, fun _ _ _ _ => by decide⟩
  rw [distance_of_le h le_rfl, distance_of_le h hother]
  linarith [strictMono_value.monotone hother]

/-- Rounding to the nearer of two patterns, and in the middle to the even one: `x` lies `remainder`
parts above the lower pattern, of the `step` parts to the upper one. -/
theorem isNearest_round {part : ℚ} {step remainder : Nat} (hpart : 0 < part)
    (hx : x = value low + remainder * part) (hnext : value (low + 1) = value low + step * part)
    (hlt : remainder < step) :
    IsNearest x (min (low + (step < 2 * remainder ||
      (2 * remainder == step && low % 2 == 1) : Bool).toNat) infinityBits) := by
  have hle : (remainder : ℚ) * part ≤ step * part :=
    mul_le_mul_of_nonneg_right (by exact_mod_cast hlt.le) hpart.le
  have hnonneg : 0 ≤ (remainder : ℚ) * part := by positivity
  have hlow : value low ≤ x := by linarith
  have hhigh : x ≤ value (low + 1) := by linarith
  have hbelow : 2 * remainder < step ↔ x - value low < value (low + 1) - x := by
    rw [hx, hnext, ← Nat.cast_lt (α := ℚ), ← mul_lt_mul_iff_left₀ hpart]
    push_cast
    constructor <;> intro h <;> linarith
  have habove : step < 2 * remainder ↔ value (low + 1) - x < x - value low := by
    rw [hx, hnext, ← Nat.cast_lt (α := ℚ), ← mul_lt_mul_iff_left₀ hpart]
    push_cast
    constructor <;> intro h <;> linarith
  rcases Nat.lt_or_ge low infinityBits with hfinite | hinfinite
  · cases hup : (decide (step < 2 * remainder) || (2 * remainder == step && low % 2 == 1)) with
    | false =>
      rw [Bool.or_eq_false_iff, decide_eq_false_iff_not, Bool.and_eq_false_iff, beq_eq_false_iff_ne,
        beq_eq_false_iff_ne] at hup
      rw [Bool.toNat_false, Nat.add_zero, Nat.min_eq_left hfinite.le]
      refine isNearest_low hfinite.le hlow hhigh ?_
      rcases lt_or_eq_of_le (not_lt.mp (habove.not.mp hup.1)) with hnearer | hmiddle
      · exact .inl hnearer
      · have := hbelow.not.mpr hmiddle.not_lt
        exact .inr ⟨hmiddle, by omega⟩
    | true =>
      rw [Bool.or_eq_true_iff, decide_eq_true_iff, Bool.and_eq_true_iff, beq_iff_eq,
        beq_iff_eq] at hup
      rw [Bool.toNat_true, Nat.min_eq_left hfinite]
      refine isNearest_high hfinite hlow hhigh ?_
      rcases lt_or_eq_of_le (not_lt.mp (hbelow.not.mp (by omega))) with hnearer | hmiddle
      · exact .inl hnearer
      · have := habove.not.mpr hmiddle.not_lt
        exact .inr ⟨hmiddle, by omega⟩
  · rw [Nat.min_eq_right (by omega)]
    exact isNearest_infinity ((strictMono_value.monotone hinfinite).trans hlow)

/-! ## The rounding of ratios -/

/-- A quotient without its last binary places has at most 53 of them, and 53 if any are left out. -/
theorem div_pow_log2_bounds (n : Nat) : n / 2 ^ (n.log2 - 52) < 2 * implicitBit ∧
    (n.log2 - 52 = 0 ∨ implicitBit ≤ n / 2 ^ (n.log2 - 52)) := by
  have hpow : implicitBit = 2 ^ 52 := rfl
  constructor
  · rw [Nat.div_lt_iff_lt_mul (Nat.two_pow_pos _), hpow, ← Nat.pow_succ', ← Nat.pow_add]
    exact Nat.lt_log2_self.trans_le (Nat.pow_le_pow_right (by decide) (by omega))
  · refine or_iff_not_imp_left.mpr fun hshift => ?_
    have hn : n ≠ 0 := by rintro rfl; exact hshift (by decide)
    rw [Nat.le_div_iff_mul_le (Nat.two_pow_pos _), hpow, ← Nat.pow_add,
      Nat.add_sub_cancel' (by omega)]
    exact Nat.log2_self_le hn

section Ratio

variable {den shift quotient : Nat}

/-- What the pattern made of a quotient and its shift stands for, in parts of
`1 / (den * scale)`. -/
theorem value_shifted (hden : 0 < den) (hle : quotient ≤ 2 * implicitBit)
    (h : shift = 0 ∨ implicitBit ≤ quotient) :
    value (shift * implicitBit + quotient) =
      ((quotient * (den * 2 ^ shift) : Nat) : ℚ) * (1 / (den * scale)) := by
  have hden' : (den : ℚ) ≠ 0 := by exact_mod_cast hden.ne'
  have hscale := scale_pos.ne'
  unfold value
  rw [units_shifted hle h]
  push_cast
  field_simp

theorem shifted_mod_two : (shift * implicitBit + quotient) % 2 = quotient % 2 := by
  have heven : implicitBit % 2 = 0 := by decide
  rw [Nat.add_mod, Nat.mul_mod, heven, Nat.mul_zero, Nat.zero_mod, Nat.zero_add, Nat.mod_mod]

end Ratio

/-- **`nearest` rounds to the nearest double,** a tie to the even one. -/
theorem nearest_isNearest (num : Nat) {den : Nat} (hden : 0 < den) :
    IsNearest (num / den) (nearest num den) := by
  unfold nearest
  generalize hscaled : num * scale = scaled
  obtain ⟨hlt, hge⟩ := div_pow_log2_bounds (scaled / den)
  dsimp only
  rw [Nat.pow_eq]
  generalize (scaled / den).log2 - 52 = shift at hlt hge ⊢
  have hpart : (0 : ℚ) < 1 / (den * scale) :=
    one_div_pos.mpr (mul_pos (by exact_mod_cast hden) scale_pos)
  have hstep : 0 < den * 2 ^ shift := Nat.mul_pos hden (Nat.two_pow_pos shift)
  rw [Nat.div_div_eq_div_mul] at hlt hge
  rw [← shifted_mod_two]
  refine isNearest_round hpart ?_ ?_ (Nat.mod_lt scaled hstep)
  · have hdivision : ((scaled / (den * 2 ^ shift) * (den * 2 ^ shift) : Nat) : ℚ) +
        (scaled % (den * 2 ^ shift) : Nat) = num * scale := by
      rw [← Nat.cast_add, Nat.div_add_mod', ← hscaled, Nat.cast_mul]
    have hscale := scale_pos.ne'
    rw [value_shifted hden hlt.le hge, ← add_mul, hdivision, mul_one_div,
      mul_div_mul_right _ _ hscale]
  · rw [Nat.add_assoc, value_shifted hden hlt (hge.imp id Nat.le_succ_of_le),
      value_shifted hden hlt.le hge, ← add_mul, Nat.succ_mul, Nat.cast_add]

/-- The double nearest to a number that is not negative. -/
def Rounds (x : ℚ) (double : Float) : Prop :=
  ∃ bits, IsNearest x bits ∧ double = Float.ofBits (UInt64.ofNat bits)

theorem Rounds.unique {x : ℚ} {a b : Float} : Rounds x a → Rounds x b → a = b
  | ⟨_, ha, ea⟩, ⟨_, hb, eb⟩ => by rw [ea, eb, ha.unique hb]

end Lox.Binary64

/-! ## Literals -/

namespace Lox.Number

/-- The number that digits and, behind a point, more digits stand for. -/
def decimal (whole fraction : List Char) : ℚ :=
  Nat.ofDigitChars 10 whole 0 + Nat.ofDigitChars 10 fraction 0 / 10 ^ fraction.length

theorem decimal_eq_ratio (whole fraction : List Char) :
    decimal whole fraction =
      (Nat.ofDigitChars 10 (whole ++ fraction) 0 : ℚ) / (10 ^ fraction.length : Nat) := by
  have hpow : ((10 : ℚ) ^ fraction.length) ≠ 0 := pow_ne_zero _ (by norm_num)
  unfold decimal
  have hbehind (sofar : Nat) : Nat.ofDigitChars 10 fraction sofar =
      10 ^ fraction.length * sofar + Nat.ofDigitChars 10 fraction 0 :=
    Nat.ofDigitChars_eq_ofDigitChars_zero
  rw [Nat.ofDigitChars_append, hbehind (Nat.ofDigitChars 10 whole 0)]
  push_cast
  field_simp

theorem rounds_ofDigits (whole fraction : List Char) :
    Binary64.Rounds (decimal whole fraction) (ofDigits whole fraction) := by
  rw [decimal_eq_ratio]
  exact ⟨_, Binary64.nearest_isNearest _ (Nat.pow_pos (by decide)), rfl⟩

theorem ne_point_of_isDigit {c : Char} (h : c.isDigit = true) : (c != '.') = true := by
  rw [bne_iff_ne]
  rintro rfl
  cases h

theorem rounds_read_whole {whole : List Char} (h : ∀ c ∈ whole, c.isDigit = true) :
    Binary64.Rounds (decimal whole []) (read whole) := by
  have hpoint : ∀ c ∈ whole, (c != '.') = true := fun c hc => ne_point_of_isDigit (h c hc)
  unfold read
  rw [List.takeWhile_eq_self_iff.mpr hpoint, List.dropWhile_eq_nil_iff.mpr hpoint]
  exact rounds_ofDigits whole []

/-- **A literal reads as the double nearest to what it stands for,** whether it has a point or
not. -/
theorem rounds_read_fraction {whole : List Char} (fraction : List Char)
    (h : ∀ c ∈ whole, c.isDigit = true) :
    Binary64.Rounds (decimal whole fraction) (read (whole ++ '.' :: fraction)) := by
  have hpoint : ∀ c ∈ whole, (c != '.') = true := fun c hc => ne_point_of_isDigit (h c hc)
  unfold read
  rw [List.takeWhile_append_of_pos hpoint, List.dropWhile_append_of_pos hpoint,
    List.takeWhile_cons_of_neg (by decide), List.dropWhile_cons_of_neg (by decide), List.append_nil]
  exact rounds_ofDigits whole fraction

end Lox.Number
