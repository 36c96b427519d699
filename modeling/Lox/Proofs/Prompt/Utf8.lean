import Mathlib.Data.List.Forall2
import Lox.Text.Utf8

/-!
# Bytes that encode a text

`Utf8.decode` reads bytes as a text if and only if they are the encoding of that text
(`Utf8.decode_eq_ok_iff`).  A first byte restricts the bytes behind it to intervals; if they lie in
them, the character that is put together from all of them is the one that they encode
(`Utf8.encode_assemble`), and a character's encoding is always such a run of bytes
(`Utf8.following_encode`).
-/

namespace Lox.Utf8

/-- Whether bytes encode a text. -/
def Encodes (text : List Char) (bytes : List UInt8) : Prop :=
  text.flatMap String.utf8EncodeChar = bytes

/-- Whether bytes lie in their intervals, one for one. -/
def Within (ranges : List (UInt8 × UInt8)) (bytes : List UInt8) : Prop :=
  List.Forall₂ (fun range byte => range.1 ≤ byte ∧ byte ≤ range.2) ranges bytes

/-! ## Bytes in intervals -/

theorem fitting_eq_length_iff {ranges : List (UInt8 × UInt8)} {bytes : List UInt8} :
    fitting ranges bytes = ranges.length ↔ Within ranges (bytes.take ranges.length) := by
  induction ranges generalizing bytes with
  | nil => exact iff_of_true rfl .nil
  | cons range ranges ih =>
    cases bytes with
    | nil => exact iff_of_false nofun nofun
    | cons byte bytes =>
      rw [List.length_cons, List.take_succ_cons, Within, List.forall₂_cons, ← Within, ← ih, fitting]
      split
      · next h =>
        rw [Bool.and_eq_true, decide_eq_true_iff, decide_eq_true_iff] at h
        simp only [h, and_self, true_and, Nat.add_right_cancel_iff]
      · next h =>
        rw [Bool.and_eq_true, decide_eq_true_iff, decide_eq_true_iff] at h
        exact iff_of_false nofun fun hboth => h hboth.1

/-- **The intervals behind a first byte.** -/
theorem following_eq_some_iff {first : UInt8} {ranges : List (UInt8 × UInt8)} :
    following first = some ranges ↔
      first.toNat < 0x80 ∧ ranges = [] ∨
      (0xC2 ≤ first.toNat ∧ first.toNat < 0xE0) ∧ ranges = [anyTail] ∨
      first.toNat = 0xE0 ∧ ranges = [(0xA0, 0xBF), anyTail] ∨
      first.toNat = 0xED ∧ ranges = [(0x80, 0x9F), anyTail] ∨
      (0xE1 ≤ first.toNat ∧ first.toNat < 0xF0 ∧ first.toNat ≠ 0xED) ∧ ranges = [anyTail, anyTail] ∨
      first.toNat = 0xF0 ∧ ranges = [(0x90, 0xBF), anyTail, anyTail] ∨
      (0xF1 ≤ first.toNat ∧ first.toNat < 0xF4) ∧ ranges = [anyTail, anyTail, anyTail] ∨
      first.toNat = 0xF4 ∧ ranges = [(0x80, 0x8F), anyTail, anyTail] := by
  unfold following
  simp only [UInt8.lt_iff_toNat_lt, ← UInt8.toNat_inj]
  constructor
  · intro h
    simp only [UInt8.reduceToNat] at h
    repeat' split at h
    all_goals cases h
    all_goals simp [anyTail]
    all_goals omega
  · intro h
    rcases h with ⟨h, rfl⟩ | ⟨h, rfl⟩ | ⟨h, rfl⟩ | ⟨h, rfl⟩ | ⟨h, rfl⟩ | ⟨h, rfl⟩ | ⟨h, rfl⟩ | ⟨h, rfl⟩
    all_goals simp (disch := omega) only [UInt8.reduceToNat, if_pos, if_neg]

/-! ## Characters and their bytes -/

theorem encode_ofNat {n : Nat} (h : n.isValidChar) : String.utf8EncodeChar (.ofNat n) =
    if n ≤ 127 then [.ofNat n]
    else if n ≤ 2047 then [.ofNat (n / 64 % 32 + 192), .ofNat (n % 64 + 128)]
    else if n ≤ 65535 then
      [.ofNat (n / 4096 % 16 + 224), .ofNat (n / 64 % 64 + 128), .ofNat (n % 64 + 128)]
    else
      [.ofNat (n / 262144 % 8 + 240), .ofNat (n / 4096 % 64 + 128), .ofNat (n / 64 % 64 + 128),
        .ofNat (n % 64 + 128)] := by
  have hcode : (Char.ofNat n).val.toNat = n := by
    rw [Char.ofNat, dif_pos h]
    rfl
  rw [String.utf8EncodeChar, hcode]

theorem ofNat_eq (byte : UInt8) {n : Nat} (h : n = byte.toNat) : UInt8.ofNat n = byte := by
  rw [h, UInt8.ofNat_toNat]

section Assembled

variable {first a b c : UInt8}

/-- Whether a byte continues a character. -/
def Continues (byte : UInt8) : Prop :=
  0x80 ≤ byte.toNat ∧ byte.toNat ≤ 0xBF

theorem encode_one (h : first.toNat < 0x80) :
    String.utf8EncodeChar (assemble first []) = [first] := by
  have hassemble : assemble first [] = .ofNat first.toNat := rfl
  rw [hassemble, encode_ofNat (by omega), if_pos (by omega), ofNat_eq first rfl]

theorem encode_two (h : 0xC2 ≤ first.toNat ∧ first.toNat < 0xE0) (ha : Continues a) :
    String.utf8EncodeChar (assemble first [a]) = [first, a] := by
  have hassemble : assemble first [a] = .ofNat (first.toNat % 32 * 64 + a.toNat % 64) := rfl
  unfold Continues at ha
  rw [hassemble, encode_ofNat (by omega)]
  simp (disch := omega) only [if_neg, if_pos]
  rw [ofNat_eq first (by omega), ofNat_eq a (by omega)]

theorem encode_three (h : 0xE0 ≤ first.toNat ∧ first.toNat < 0xF0) (ha : Continues a)
    (hb : Continues b) (hleast : first.toNat = 0xE0 → 0xA0 ≤ a.toNat)
    (hgreatest : first.toNat = 0xED → a.toNat ≤ 0x9F) :
    String.utf8EncodeChar (assemble first [a, b]) = [first, a, b] := by
  have hassemble : assemble first [a, b] =
    .ofNat ((first.toNat % 16 * 64 + a.toNat % 64) * 64 + b.toNat % 64) := rfl
  unfold Continues at ha hb
  rw [hassemble, encode_ofNat (by omega)]
  simp (disch := omega) only [if_neg, if_pos]
  rw [ofNat_eq first (by omega), ofNat_eq a (by omega), ofNat_eq b (by omega)]

theorem encode_four (h : 0xF0 ≤ first.toNat ∧ first.toNat ≤ 0xF4) (ha : Continues a)
    (hb : Continues b) (hc : Continues c) (hleast : first.toNat = 0xF0 → 0x90 ≤ a.toNat)
    (hgreatest : first.toNat = 0xF4 → a.toNat ≤ 0x8F) :
    String.utf8EncodeChar (assemble first [a, b, c]) = [first, a, b, c] := by
  have hassemble : assemble first [a, b, c] = .ofNat
    (((first.toNat % 8 * 64 + a.toNat % 64) * 64 + b.toNat % 64) * 64 + c.toNat % 64) := rfl
  unfold Continues at ha hb hc
  rw [hassemble, encode_ofNat (by omega)]
  simp (disch := omega) only [if_neg]
  rw [ofNat_eq first (by omega), ofNat_eq a (by omega), ofNat_eq b (by omega),
    ofNat_eq c (by omega)]

end Assembled

theorem Within.cons {range : UInt8 × UInt8} {ranges : List (UInt8 × UInt8)} {tail : List UInt8}
    (h : Within (range :: ranges) tail) : ∃ byte others, tail = byte :: others ∧
      (range.1.toNat ≤ byte.toNat ∧ byte.toNat ≤ range.2.toNat) ∧ Within ranges others := by
  obtain ⟨byte, others, hbyte, hothers, rfl⟩ := List.forall₂_cons_left_iff.mp h
  exact ⟨byte, others, rfl, hbyte, hothers⟩

theorem Within.nil {tail : List UInt8} (h : Within [] tail) : tail = [] :=
  List.forall₂_nil_left_iff.mp h

/-- **A character that is put together** from a first byte and bytes in its intervals is the one that
they encode. -/
theorem encode_assemble {first : UInt8} {ranges : List (UInt8 × UInt8)} {tail : List UInt8}
    (hranges : following first = some ranges) (htail : Within ranges tail) :
    String.utf8EncodeChar (assemble first tail) = first :: tail := by
  rcases following_eq_some_iff.mp hranges with
    ⟨h, rfl⟩ | ⟨h, rfl⟩ | ⟨h, rfl⟩ | ⟨h, rfl⟩ | ⟨h, rfl⟩ | ⟨h, rfl⟩ | ⟨h, rfl⟩ | ⟨h, rfl⟩
  · rw [htail.nil]
    exact encode_one h
  · obtain ⟨a, _, rfl, ha, hnil⟩ := htail.cons
    rw [hnil.nil]
    exact encode_two h ha
  · obtain ⟨a, _, rfl, ha, htail⟩ := htail.cons
    obtain ⟨b, _, rfl, hb, hnil⟩ := htail.cons
    rw [hnil.nil]
    exact encode_three (by omega) ⟨Nat.le_trans (by decide) ha.1, ha.2⟩ hb (fun _ => ha.1) (by omega)
  · obtain ⟨a, _, rfl, ha, htail⟩ := htail.cons
    obtain ⟨b, _, rfl, hb, hnil⟩ := htail.cons
    rw [hnil.nil]
    exact encode_three (by omega) ⟨ha.1, Nat.le_trans ha.2 (by decide)⟩ hb (by omega) fun _ => ha.2
  · obtain ⟨a, _, rfl, ha, htail⟩ := htail.cons
    obtain ⟨b, _, rfl, hb, hnil⟩ := htail.cons
    rw [hnil.nil]
    exact encode_three (by omega) ha hb (by omega) (by omega)
  · obtain ⟨a, _, rfl, ha, htail⟩ := htail.cons
    obtain ⟨b, _, rfl, hb, htail⟩ := htail.cons
    obtain ⟨c, _, rfl, hc, hnil⟩ := htail.cons
    rw [hnil.nil]
    exact encode_four (by omega) ⟨Nat.le_trans (by decide) ha.1, ha.2⟩ hb hc (fun _ => ha.1)
      (by omega)
  · obtain ⟨a, _, rfl, ha, htail⟩ := htail.cons
    obtain ⟨b, _, rfl, hb, htail⟩ := htail.cons
    obtain ⟨c, _, rfl, hc, hnil⟩ := htail.cons
    rw [hnil.nil]
    exact encode_four (by omega) ha hb hc (by omega) (by omega)
  · obtain ⟨a, _, rfl, ha, htail⟩ := htail.cons
    obtain ⟨b, _, rfl, hb, htail⟩ := htail.cons
    obtain ⟨c, _, rfl, hc, hnil⟩ := htail.cons
    rw [hnil.nil]
    exact encode_four (by omega) ⟨ha.1, Nat.le_trans ha.2 (by decide)⟩ hb hc (by omega) fun _ => ha.2

theorem within_cons {low high : UInt8} {ranges : List (UInt8 × UInt8)} {n : Nat}
    {others : List UInt8} (hlow : low.toNat ≤ n) (hhigh : n ≤ high.toNat)
    (hothers : Within ranges others) : Within ((low, high) :: ranges) (.ofNat n :: others) := by
  have hbyte : (UInt8.ofNat n).toNat = n :=
    UInt8.toNat_ofNat_of_lt (Nat.lt_of_le_of_lt hhigh high.toNat_lt)
  refine List.Forall₂.cons ⟨?_, ?_⟩ hothers <;> rw [UInt8.le_iff_toNat_le, hbyte]
  · exact hlow
  · exact hhigh

/-- The last six bits below some bits make a byte that continues a character. -/
theorem within_anyTail {ranges : List (UInt8 × UInt8)} {others : List UInt8} (n : Nat)
    (hothers : Within ranges others) :
    Within (anyTail :: ranges) (.ofNat (n % 64 + 128) :: others) := by
  have hlow : (0x80 : UInt8).toNat = 128 := rfl
  have hhigh : (0xBF : UInt8).toNat = 191 := rfl
  exact within_cons (by omega) (by omega) hothers

/-- **The encoding of a character** is a first byte and bytes in its intervals. -/
theorem following_encode (c : Char) : ∃ first tail ranges,
    String.utf8EncodeChar c = first :: tail ∧ following first = some ranges ∧
      Within ranges tail := by
  obtain ⟨n, hn⟩ : ∃ n, n = c.val.toNat := ⟨_, rfl⟩
  have hvalid : n.isValidChar := hn ▸ c.valid
  have hnil : Within [] [] := List.Forall₂.nil
  have hbyte (k : Nat) : (UInt8.ofNat k).toNat = k % 256 := UInt8.toNat_ofNat'
  unfold String.utf8EncodeChar
  simp only [← hn, following_eq_some_iff]
  split
  · exact ⟨_, _, _, rfl, .inl ⟨by rw [hbyte]; omega, rfl⟩, hnil⟩
  split
  · exact ⟨_, _, _, rfl, .inr (.inl ⟨by rw [hbyte]; omega, rfl⟩), within_anyTail n hnil⟩
  split
  · have hlast := within_anyTail n hnil
    -- Long forms and surrogates are what the narrower intervals keep out.
    obtain h | h | h : n < 0x1000 ∨ 0xD000 ≤ n ∧ n < 0xD800 ∨
        0x1000 ≤ n ∧ (n < 0xD000 ∨ 0xE000 ≤ n) := by omega
    · exact ⟨_, _, _, rfl, .inr (.inr (.inl ⟨by rw [hbyte]; omega, rfl⟩)),
        within_cons (by change 0xA0 ≤ _; omega) (by change _ ≤ 0xBF; omega) hlast⟩
    · exact ⟨_, _, _, rfl, .inr (.inr (.inr (.inl ⟨by rw [hbyte]; omega, rfl⟩))),
        within_cons (by change 0x80 ≤ _; omega) (by change _ ≤ 0x9F; omega) hlast⟩
    · exact ⟨_, _, _, rfl, .inr (.inr (.inr (.inr (.inl ⟨by rw [hbyte]; omega, rfl⟩)))),
        within_anyTail (n / 64) hlast⟩
  · have hlast := within_anyTail (n / 64) (within_anyTail n hnil)
    obtain h | h | h : n < 0x40000 ∨ 0x40000 ≤ n ∧ n < 0x100000 ∨ 0x100000 ≤ n := by omega
    · exact ⟨_, _, _, rfl, .inr (.inr (.inr (.inr (.inr (.inl ⟨by rw [hbyte]; omega, rfl⟩))))),
        within_cons (by change 0x90 ≤ _; omega) (by change _ ≤ 0xBF; omega) hlast⟩
    · exact ⟨_, _, _, rfl,
        .inr (.inr (.inr (.inr (.inr (.inr (.inl ⟨by rw [hbyte]; omega, rfl⟩)))))),
        within_anyTail (n / 4096) hlast⟩
    · exact ⟨_, _, _, rfl,
        .inr (.inr (.inr (.inr (.inr (.inr (.inr ⟨by rw [hbyte]; omega, rfl⟩)))))),
        within_cons (by change 0x80 ≤ _; omega) (by change _ ≤ 0x8F; omega) hlast⟩

/-! ## Chunks -/

theorem Within.length {ranges : List (UInt8 × UInt8)} {tail : List UInt8}
    (h : Within ranges tail) : tail.length = ranges.length :=
  (List.Forall₂.length_eq h).symm

/-- **A chunk that is a character** takes the bytes that encode it, -/
theorem encode_of_firstChunk {first : UInt8} {rest : List UInt8} {c : Char} {size count : Nat}
    (h : firstChunk first rest = (.char c size, count)) :
    String.utf8EncodeChar c ++ rest.drop count = first :: rest := by
  unfold firstChunk at h
  cases hranges : following first with
  | none => simp [hranges] at h
  | some ranges =>
    simp only [hranges] at h
    split at h
    · next hfitting =>
      cases h
      have hwithin := fitting_eq_length_iff.mp hfitting
      rw [hfitting, encode_assemble hranges hwithin, List.cons_append, List.take_append_drop]
    · split at h <;> cases h

theorem encode_injective : Function.Injective String.utf8EncodeChar := by
  intro c c' h
  have hdecode (c : Char) : (String.utf8EncodeChar c).toByteArray.utf8DecodeChar? 0 = some c := by
    have happend := ByteArray.utf8DecodeChar?_utf8EncodeChar_append (b := .empty) (c := c)
    rwa [ByteArray.append_empty] at happend
  have hsome := hdecode c
  rw [h, hdecode c'] at hsome
  exact (Option.some.inj hsome).symm

/-- and the bytes that encode a character are such a chunk. -/
theorem firstChunk_encode (c : Char) (rest : List UInt8) : ∃ first tail size,
    String.utf8EncodeChar c = first :: tail ∧
      firstChunk first (tail ++ rest) = (.char c size, tail.length) := by
  obtain ⟨first, tail, ranges, hencode, hranges, hwithin⟩ := following_encode c
  have hlength := hwithin.length
  have hfitting : fitting ranges (tail ++ rest) = ranges.length := by
    rw [fitting_eq_length_iff, ← hlength, List.take_left]
    exact hwithin
  have hchar : assemble first tail = c :=
    encode_injective ((encode_assemble hranges hwithin).trans hencode.symm)
  refine ⟨first, tail, ranges.length + 1, hencode, ?_⟩
  unfold firstChunk
  simp only [hranges, hfitting, if_pos, ← hlength, List.take_left, hchar]

/-! ## Texts -/

theorem encodes_of_textOf (bytes : List UInt8) {offset : Nat} {text : List Char}
    (h : textOf offset (chunks bytes) = .ok text) : Encodes text bytes := by
  induction bytes using chunks.induct generalizing offset text with
  | case1 =>
    rw [chunks] at h
    cases h
    rfl
  | case2 first rest chunk count hchunk ih =>
    rw [chunks, hchunk] at h
    cases chunk with
    | invalid => cases h
    | truncated => cases h
    | char c size =>
      dsimp only at h
      rw [textOf] at h
      cases hothers : textOf (offset + size) (chunks (rest.drop count)) with
      | error fault =>
        rw [hothers] at h
        cases h
      | ok others =>
        rw [hothers] at h
        cases h
        unfold Encodes
        rw [List.flatMap_cons, ih hothers]
        exact encode_of_firstChunk hchunk

theorem textOf_of_encodes {text : List Char} (offset : Nat) {bytes : List UInt8}
    (h : Encodes text bytes) : textOf offset (chunks bytes) = .ok text := by
  induction text generalizing offset bytes with
  | nil =>
    cases h
    rw [List.flatMap_nil, chunks]
    rfl
  | cons c text ih =>
    cases h
    obtain ⟨first, tail, size, hencode, hchunk⟩ :=
      firstChunk_encode c (text.flatMap String.utf8EncodeChar)
    rw [List.flatMap_cons, hencode, List.cons_append, chunks, hchunk]
    dsimp only
    rw [List.drop_left, textOf, ih (offset + size) rfl]
    rfl

/-- **Bytes are read as a text** if and only if they encode it. -/
theorem decode_eq_ok_iff {bytes : List UInt8} {text : List Char} :
    decode bytes = .ok text ↔ Encodes text bytes :=
  ⟨encodes_of_textOf bytes, textOf_of_encodes 0⟩

end Lox.Utf8
