import Lox.Proofs.Prompt.Utf8

/-!
# Positions in the bytes of a text

A text is read by its bytes, but only a position between two of its characters may begin or end a
slice.  `IsBoundary` tells such a position by the byte behind it.  The ends of the parts of a text
are positions of this kind (`Utf8.isBoundary_encode`), and the bytes between two of them decode to
the part between them (`Utf8.decodeLossy_encode`).

A byte below 128 is a character of its own, and no byte of another character is one
(`Utf8.charOf_of_mem_encode`).  So what concerns such characters only can be found byte by byte
(`Utf8.takeWhile_encode`).
-/

namespace Lox

/-- Whether a position stands between two characters, or at an end, of the text with these bytes: no
byte that continues a character comes next. -/
def IsBoundary (bytes : List UInt8) (i : Nat) : Prop :=
  i = 0 ∨ i = bytes.length ∨ ∃ b ∈ bytes[i]?, b.toNat < 128 ∨ 192 ≤ b.toNat

instance (bytes : List UInt8) (i : Nat) : Decidable (IsBoundary bytes i) := by
  unfold IsBoundary
  infer_instance

namespace Utf8

/-- The bytes of a text. -/
def encode (text : List Char) : List UInt8 :=
  text.flatMap String.utf8EncodeChar

/-- The character whose code is this byte. -/
def charOf (b : UInt8) : Char :=
  .ofNat b.toNat

/-- Whether a property is one of characters with codes below 128 only. -/
def Ascii (p : Char → Bool) : Prop :=
  ∀ c, p c = true → c.toNat < 128

variable {c : Char} {text front rest : List Char} {b : UInt8}

@[simp]
theorem encode_nil : encode [] = [] := rfl

@[simp]
theorem encode_cons : encode (c :: text) = String.utf8EncodeChar c ++ encode text := rfl

@[simp]
theorem encode_append : encode (front ++ rest) = encode front ++ encode rest :=
  List.flatMap_append

/-! ## The bytes of one character -/

theorem toNat_charOf (b : UInt8) : (charOf b).toNat = b.toNat := by
  have hlt := b.toNat_lt
  have hvalid : b.toNat.isValidChar := by omega
  rw [charOf, Char.ofNat, dif_pos hvalid]
  rfl

/-- **A character is one byte or several:** below 128 it is its own code, and else the first byte is
at least 192 and the others are below. -/
theorem encode_cases (c : Char) :
    (∃ b, String.utf8EncodeChar c = [b] ∧ charOf b = c ∧ c.toNat < 128) ∨
      ∃ lead tail, String.utf8EncodeChar c = lead :: tail ∧ 128 ≤ c.toNat ∧ 192 ≤ lead.toNat ∧
        ∀ b ∈ tail, 128 ≤ b.toNat := by
  have hcode : c.val.toNat = c.toNat := rfl
  have hbyte (k : Nat) : (UInt8.ofNat k).toNat = k % 256 := UInt8.toNat_ofNat'
  unfold String.utf8EncodeChar
  simp only [hcode]
  split
  · next h =>
    refine .inl ⟨_, rfl, ?_, by omega⟩
    rw [charOf, hbyte, Nat.mod_eq_of_lt (by omega), Char.ofNat_toNat]
  have hlast (k : Nat) : 128 ≤ (UInt8.ofNat (k % 64 + 128)).toNat := by
    rw [hbyte]
    omega
  split
  · refine .inr ⟨_, _, rfl, by omega, by rw [hbyte]; omega, ?_⟩
    exact List.forall_mem_singleton.mpr (hlast _)
  split
  · refine .inr ⟨_, _, rfl, by omega, by rw [hbyte]; omega, ?_⟩
    exact List.forall_mem_cons.mpr ⟨hlast _, List.forall_mem_singleton.mpr (hlast _)⟩
  · refine .inr ⟨_, _, rfl, by omega, by rw [hbyte]; omega, ?_⟩
    exact List.forall_mem_cons.mpr
      ⟨hlast _, List.forall_mem_cons.mpr ⟨hlast _, List.forall_mem_singleton.mpr (hlast _)⟩⟩

/-- **A byte of a character** is that character itself, or it has no code below 128 and neither has
the character. -/
theorem charOf_of_mem_encode (h : b ∈ String.utf8EncodeChar c) :
    charOf b = c ∨ 128 ≤ (charOf b).toNat ∧ 128 ≤ c.toNat := by
  rcases encode_cases c with ⟨d, hd, hcode, -⟩ | ⟨lead, tail, hencode, hcode, hlead, htail⟩
  · rw [hd, List.mem_singleton] at h
    exact .inl (h ▸ hcode)
  · rw [hencode, List.mem_cons] at h
    rw [toNat_charOf]
    rcases h with rfl | h
    · exact .inr ⟨by omega, hcode⟩
    · exact .inr ⟨htail b h, hcode⟩

/-- A property of characters below 128 holds of a character if it does of any of its bytes. -/
theorem Ascii.charOf_eq {p : Char → Bool} (hp : Ascii p) (h : b ∈ String.utf8EncodeChar c) :
    p (charOf b) = p c := by
  have hnot {d : Char} (hd : 128 ≤ d.toNat) : p d = false := by
    rw [Bool.eq_false_iff]
    intro hpd
    have := hp d hpd
    omega
  rcases charOf_of_mem_encode h with hsame | ⟨hbyte, hchar⟩
  · rw [hsame]
  · rw [hnot hbyte, hnot hchar]

theorem Ascii.beq (h : c.toNat < 128) : Ascii (· == c) := fun d hd => by
  rw [beq_iff_eq] at hd
  rwa [hd]

theorem encode_ne_nil (c : Char) : String.utf8EncodeChar c ≠ [] := by
  rcases encode_cases c with ⟨d, hd, -⟩ | ⟨lead, tail, hencode, -⟩
  · rw [hd]
    exact List.cons_ne_nil _ _
  · rw [hencode]
    exact List.cons_ne_nil _ _

theorem length_le_encode (text : List Char) : text.length ≤ (encode text).length := by
  induction text with
  | nil => exact Nat.le_refl 0
  | cons c text ih =>
    have hpos : 0 < (String.utf8EncodeChar c).length := List.length_pos_iff.mpr (encode_ne_nil c)
    rw [encode_cons, List.length_append, List.length_cons]
    omega

theorem length_encode (h : c.toNat < 128) : (String.utf8EncodeChar c).length = 1 := by
  rcases encode_cases c with ⟨b, hb, -⟩ | ⟨lead, tail, -, hcode, -⟩
  · rw [hb]
    rfl
  · omega

/-! ## Byte by byte -/

/-- Characters other than a given one below 128 are those none of whose bytes is it. -/
theorem takeWhile_encode {stop : Char} (hstop : stop.toNat < 128) (text : List Char) :
    (encode text).takeWhile (charOf · != stop) = encode (text.takeWhile (· != stop)) := by
  have hascii := Ascii.beq hstop
  induction text with
  | nil => rfl
  | cons c text ih =>
    rw [encode_cons]
    by_cases hc : c = stop
    · rw [List.takeWhile_cons_of_neg (by simp [hc])]
      obtain ⟨b, bs, hencode⟩ := List.exists_cons_of_ne_nil (encode_ne_nil c)
      have hb := hascii.charOf_eq (hencode ▸ List.mem_cons_self (a := b) (l := bs))
      rw [hencode, List.cons_append, List.takeWhile_cons_of_neg, encode_nil]
      simp_all
    · have hbytes : ∀ b ∈ String.utf8EncodeChar c, (charOf b != stop) = true := by
        intro b hb
        have hsame := hascii.charOf_eq hb
        simp_all
      rw [List.takeWhile_append_of_pos hbytes, List.takeWhile_cons_of_pos (by simp [hc]), ih,
        encode_cons]

theorem countP_encode {d : Char} (hd : d.toNat < 128) (text : List Char) :
    (encode text).countP (charOf · == d) = text.count d := by
  have hascii := Ascii.beq hd
  induction text with
  | nil => rfl
  | cons c text ih =>
    rw [encode_cons, List.countP_append, ih, List.count_cons, Nat.add_comm]
    congr 1
    by_cases hc : c = d
    · subst hc
      rcases encode_cases c with ⟨b, hb, hcode, -⟩ | ⟨lead, tail, -, hcode, -⟩
      · simp [hb, hcode]
      · omega
    · rw [if_neg (by simpa using hc), List.countP_eq_zero]
      intro b hb
      have hsame := hascii.charOf_eq hb
      simp_all

/-! ## Positions between characters -/

theorem isBoundary_encode (front rest : List Char) :
    IsBoundary (encode (front ++ rest)) (encode front).length := by
  cases rest with
  | nil =>
    rw [List.append_nil]
    exact .inr (.inl rfl)
  | cons c rest =>
    refine .inr (.inr ?_)
    rw [encode_append, List.getElem?_append_right (Nat.le_refl _), Nat.sub_self, encode_cons]
    rcases encode_cases c with ⟨b, hb, hcode, hlt⟩ | ⟨lead, tail, hencode, -, hlead, -⟩
    · rw [hb]
      exact ⟨b, rfl, .inl (by rw [← toNat_charOf, hcode]; exact hlt)⟩
    · rw [hencode]
      exact ⟨lead, rfl, .inr hlead⟩

theorem decodeLossy_encode (text : List Char) : decodeLossy (encode text) = text := by
  induction text with
  | nil =>
    rw [encode_nil, decodeLossy, chunks]
    rfl
  | cons c text ih =>
    obtain ⟨first, tail, size, hencode, hchunk⟩ := firstChunk_encode c (encode text)
    rw [encode_cons, hencode, List.cons_append, decodeLossy, chunks, hchunk]
    dsimp only
    rw [List.drop_left, List.map_cons]
    exact congrArg (c :: ·) ih

end Utf8

end Lox
