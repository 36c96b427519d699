import Lox.Proofs.Packing
import Lox.Proofs.Scanning.LongestMatch
import Lox.Proofs.Scanning.Separators
import Lox.Proofs.Shortest

/-!
# Printed numbers as tokens

What a print statement writes for a finite double is a literal, behind a minus sign if the sign of
the double is set (`Number.printed_eq`).  A whole number below the limit keeps all its digits
(`Number.printed_whole`), and whether it is written in this way or by the shortest digits, the
literal means the double without its sign (`Number.means_magnitude`).  So the text has one token for
the literal and one for the sign, with any separator or nothing behind it (`Reader.items_printed`).
-/

namespace Lox

open Binary64 (isNegative magnitudeBits infinityBits)

namespace Number

/-- The text of a magnitude in print. -/
def magnitudeText (bits : Nat) : List Char :=
  (wholeBelow? (Nat.pow 10 15) bits).elim (positional bits) (Nat.toDigits 10)

/-- **The text of a finite double** is its sign and the text of its magnitude. -/
theorem printed_eq {x : Float} (h : x.isFinite = true) :
    printed x = signed (isNegative x) (magnitudeText (magnitudeBits x)) := by
  have hnan : ¬ x.isNaN = true := fun hnan => Binary64.not_isFinite_of_isNaN hnan h
  unfold printed magnitudeText
  rw [if_neg hnan]
  dsimp only
  cases wholeBelow? (Nat.pow 10 15) (magnitudeBits x) <;> rfl

/-! ## Magnitudes as literals -/

section Magnitude

variable {bits n limit : Nat}

theorem value_eq_natCast_iff : Binary64.value bits = n ↔
    Binary64.units bits % Binary64.scale = 0 ∧ Binary64.units bits / Binary64.scale = n := by
  have hpos : 0 < Binary64.scale := Nat.cast_pos.mp Binary64.scale_pos
  unfold Binary64.value
  generalize Binary64.scale = scale at hpos ⊢
  rw [div_eq_iff (Nat.cast_ne_zero.mpr hpos.ne'), ← Nat.cast_mul, Nat.cast_inj]
  constructor
  · intro h
    rw [h, Nat.mul_mod_left, Nat.mul_div_cancel _ hpos]
    exact ⟨rfl, rfl⟩
  · rintro ⟨hmod, rfl⟩
    exact (Nat.div_mul_cancel (Nat.dvd_of_mod_eq_zero hmod)).symm

/-- **A magnitude is written as an integer** if it is one, and below the limit. -/
theorem wholeBelow?_eq_some_iff (hbits : bits < infinityBits) :
    wholeBelow? limit bits = some n ↔ Binary64.value bits = n ∧ n < limit := by
  unfold wholeBelow? Binary64.wholePart?
  rw [value_eq_natCast_iff, Option.filter_eq_some_iff, decide_eq_true_iff,
    Option.ite_none_right_eq_some, Bool.and_eq_true, decide_eq_true_iff, beq_iff_eq,
    Option.some.injEq]
  exact and_congr_left fun _ => and_congr_left fun _ => and_iff_right hbits

/-- **A whole number below `10¹⁵` is written** with its sign and all its digits. -/
theorem printed_whole {x : Float} (h : x.isFinite = true) (hn : n < 10 ^ 15)
    (hvalue : Binary64.value (magnitudeBits x) = n) :
    printed x = signed (isNegative x) (Nat.toDigits 10 n) := by
  have hwhole : wholeBelow? (Nat.pow 10 15) (magnitudeBits x) = some n :=
    (wholeBelow?_eq_some_iff ((Binary64.isFinite_iff x).mp h)).mpr ⟨hvalue, hn⟩
  rw [printed_eq h, magnitudeText, hwhole]
  rfl

/-- At the limit the shortest digits of a whole number take over. -/
example :
    printed (Float.ofBits 0xC30C6BF52633FFF8) = "-999999999999999".toList ∧
      printed (Float.ofBits 0xC30C6BF526340000) = "-1000000000000000".toList := by
  decide +kernel

theorem means_whole (hbits : bits ≤ infinityBits) (h : Binary64.value bits = n) :
    Piece.Means .number (Nat.toDigits 10 n)
      (some (.number (Float.ofBits (UInt64.ofNat bits)))) := by
  refine .whole (Decimal.digits_toDigits n) ⟨bits, ?_, rfl⟩
  rw [Decimal.decimal_toDigits, ← h]
  exact Binary64.isNearest_value hbits

theorem means_decimal {d : Decimal} (hd : d.significand ≠ 0) :
    Piece.Means .number d.positional (some (.number (Float.ofBits (UInt64.ofNat d.bits)))) := by
  rcases lt_or_ge d.exponent 0 with h | h
  · obtain ⟨whole, fraction, hlayout, hne, htext⟩ := Decimal.exists_layout_fraction h hd
    rw [htext]
    refine .fraction hlayout.digits ⟨hne, hlayout.behind⟩ ⟨d.bits, ?_, rfl⟩
    rw [hlayout.value]
    exact d.isNearest_bits
  · have hlayout := Decimal.layout_whole h hd
    refine .whole hlayout.digits ⟨d.bits, ?_, rfl⟩
    rw [hlayout.value]
    exact d.isNearest_bits

theorem means_positional (hbits : bits < infinityBits) :
    Piece.Means .number (positional bits)
      (some (.number (Float.ofBits (UInt64.ofNat bits)))) := by
  by_cases hzero : bits = 0
  · have htext : positional bits = Nat.toDigits 10 0 := if_pos hzero
    rw [htext]
    refine means_whole hbits.le ?_
    rw [hzero, Binary64.value_zero, Nat.cast_zero]
  · have hread : (Decimal.shortest .up bits).bits = bits := Decimal.bits_shortest hbits.le
    have hd := Decimal.significand_ne_zero (hread.trans_ne hzero)
    have hmeans := means_decimal hd
    rw [hread] at hmeans
    unfold positional
    rwa [if_neg hzero, if_pos hbits]

/-- **The text of a magnitude means the double** that has this magnitude and no sign. -/
theorem means_magnitudeText (hbits : bits < infinityBits) :
    Piece.Means .number (magnitudeText bits)
      (some (.number (Float.ofBits (UInt64.ofNat bits)))) := by
  unfold magnitudeText
  cases hwhole : wholeBelow? (Nat.pow 10 15) bits with
  | none => exact means_positional hbits
  | some n => exact means_whole hbits.le ((wholeBelow?_eq_some_iff hbits).mp hwhole).1

end Magnitude

theorem means_magnitude {x : Float} (h : x.isFinite = true) :
    Piece.Means .number (magnitudeText (magnitudeBits x))
      (some (.number (if isNegative x then -x else x))) := by
  have hmeans := means_magnitudeText ((Binary64.isFinite_iff x).mp h)
  cases hsign : isNegative x with
  | false => rwa [Binary64.ofBits_magnitudeBits h hsign] at hmeans
  | true =>
    have hneg : isNegative (-x) = false := by rw [Binary64.isNegative_neg h, hsign, Bool.not_true]
    rwa [← Binary64.magnitudeBits_neg h,
      Binary64.ofBits_magnitudeBits (Binary64.isFinite_neg h) hneg,
      Binary64.magnitudeBits_neg h] at hmeans

/-- The tokens of the text of a double on a line: its sign, and the literal behind it. -/
def tokens (x : Float) (line : Nat) : List Token :=
  let literal := String.ofList (magnitudeText (magnitudeBits x))
  if isNegative x then [⟨.symbol .minus, "-", line⟩, ⟨.number (-x), literal, line⟩]
  else [⟨.number x, literal, line⟩]

end Number

/-! ## The items of the text -/

section Literal

variable {text rest : List Char} {kind : Token.Kind}

theorem Piece.Means.spelled_number (h : Piece.Means .number text (some kind)) :
    Piece.Spelled .number text := by
  cases h with
  | whole h => exact .whole h
  | fraction hwhole hfraction => exact .fraction hwhole hfraction

theorem Piece.Spelled.newline_notMem (h : Piece.Spelled .number text) : '\n' ∉ text := by
  have hdigits {digits : List Char} (h : Digits digits) : '\n' ∉ digits :=
    fun hmem => absurd (h.2 _ hmem) (by decide)
  cases h with
  | whole h => exact hdigits h
  | fraction hwhole hfraction =>
    rw [List.mem_append, List.mem_cons]
    rintro (hmem | hmem | hmem)
    · exact hdigits hwhole hmem
    · cases hmem
    · exact hdigits hfraction hmem

theorem Reader.items_literal (h : Piece.Means .number text (some kind))
    (hrest : ∀ d ∈ rest.head?, Separates d) (line : Nat) :
    (Reader.mk (text ++ rest) line false).items =
      .token ⟨kind, String.ofList text, line⟩ :: (Reader.mk rest line false).items := by
  have hcount := List.count_eq_zero.mpr h.spelled_number.newline_notMem
  obtain ⟨c, cs, rfl⟩ := List.exists_cons_of_ne_nil h.spelled_number.ne_nil
  have hcut : Cut.ofText c (cs ++ rest) = _ := Cut.ofText_spelled h.spelled_number nofun hrest
  rw [List.cons_append, items_cons, hcut, hcount, h.item?_eq]
  rfl

/-- No symbol but the minus sign itself begins with one. -/
theorem Cut.ofText_minus (cs : List Char) : ofText '-' cs = ⟨.symbol .minus, ['-'], cs⟩ := by
  rw [ofText_symbol rfl (by rintro ⟨⟨⟩, -⟩)]
  unfold symbol
  split
  · next hlonger => cases hlonger
  · rfl

end Literal

/-- **The items of a printed number** come before those of what it is separated from. -/
theorem Reader.items_printed {x : Float} (h : x.isFinite = true) (rest : List Char)
    (hrest : ∀ d ∈ rest.head?, Separates d) (line : Nat) :
    (Reader.mk (Number.printed x ++ rest) line false).items =
      (Number.tokens x line).map .token ++ (Reader.mk rest line false).items := by
  have hmeans := Number.means_magnitude h
  unfold Number.tokens
  rw [Number.printed_eq h]
  cases hsign : isNegative x with
  | false =>
    rw [hsign] at hmeans
    exact items_literal hmeans hrest line
  | true =>
    rw [hsign] at hmeans
    show (Reader.mk ('-' :: (_ ++ rest)) line false).items = _
    rw [items_cons, Cut.ofText_minus]
    exact congrArg _ (items_literal hmeans hrest line)

end Lox
