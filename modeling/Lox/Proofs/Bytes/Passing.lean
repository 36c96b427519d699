import Lox.Proofs.Bytes.Reader

/-!
# Passing bytes

The bytes of a text are passed while the cursor stands between two of its characters.  `Holds` says
where a part of a text is, and `within` is the place behind it.  From there the next character below
128 is passed as one byte (`Scan.advance_within`), every loop passes as much of the text as it
should, and the part itself is a slice (`Scan.slice_eq`).
-/

namespace Lox.Scan

open Utf8

variable {α β : Type} {bytes : List UInt8} {front text rest : List Char} {c : Char}
  {r r' : ByteReader} {line rounds : Nat}

theorem bind_of_pure {x : Scan α} {f : α → Scan β} {a : α} (h : x r = pure (a, r')) :
    (x >>= f) r = f a r' := by
  show (x r >>= fun p => f p.1 p.2) = _
  rw [h, pure_bind]

/-! ## Accesses -/

/-- What is seen at a position: the byte there, or zero past the end. -/
def seen (bytes : List UInt8) (i : Nat) : Char :=
  charOf (bytes[i]?.getD 0)

theorem look_eq (ahead : Nat) :
    look bytes ahead r = pure (seen bytes (r.cursor + ahead), r) := rfl

theorem atEnd_eq : atEnd bytes r = pure (decide (bytes.length ≤ r.cursor), r) := rfl

/-- At the end of a part of a text the first character behind it is seen, as far as it is known by
a property of characters below 128. -/
theorem seen_encode {p : Char → Bool} (hp : Ascii p) (hzero : p '\x00' = false) :
    p (seen (encode (front ++ rest)) (encode front).length) = rest.head?.any p := by
  unfold seen
  rw [encode_append, List.getElem?_append_right (Nat.le_refl _), Nat.sub_self]
  cases rest with
  | nil => exact hzero
  | cons c rest =>
    obtain ⟨b, bs, hencode⟩ := List.exists_cons_of_ne_nil (encode_ne_nil c)
    rw [encode_cons, hencode]
    show p (charOf b) = p c
    exact hp.charOf_eq (hencode ▸ List.mem_cons_self)

theorem advance_eq {before behind : List UInt8} {b : UInt8} (hr : r.cursor = before.length) :
    advance (before ++ b :: behind) r = pure (charOf b, { r with cursor := r.cursor + 1 }) := by
  have hlt : r.cursor < (before ++ b :: behind).length := by
    rw [hr, List.length_append, List.length_cons]
    omega
  have hb : (before ++ b :: behind)[r.cursor] = b := by
    rw [List.getElem_append_right (by omega)]
    simp [hr]
  unfold advance
  have hget : (get : Scan ByteReader) r = pure (r, r) := rfl
  rw [bind_of_pure hget, dif_pos hlt, hb]
  rfl

/-! ## Parts of a text -/

/-- The place behind a part of a lexeme that begins behind some text. -/
def within (front text : List Char) (line : Nat) : ByteReader :=
  ⟨(encode front).length, (encode (front ++ text)).length, line⟩

theorem within_append_ascii (hc : c.toNat < 128) : within front (text ++ [c]) line =
    { within front text line with cursor := (within front text line).cursor + 1 } := by
  simp [within, length_encode hc, Nat.add_assoc]

/-- Whether these are the bytes of a text with a part of a lexeme in it. -/
def Holds (bytes : List UInt8) (front text rest : List Char) : Prop :=
  bytes = encode (front ++ (text ++ rest))

theorem Holds.more {more : List Char} (h : Holds bytes front text (more ++ rest)) :
    Holds bytes front (text ++ more) rest := by
  rw [Holds, h, List.append_assoc]

theorem Holds.eq_append (h : Holds bytes front text rest) :
    bytes = encode (front ++ text) ++ encode rest := by
  rw [h, ← encode_append, List.append_assoc]

theorem Holds.length_lt (h : Holds bytes front text rest) (hrounds : bytes.length < rounds) :
    rest.length < rounds := by
  rw [h.eq_append, List.length_append] at hrounds
  exact Nat.lt_of_le_of_lt (length_le_encode rest) (by omega)

theorem Holds.seen (h : Holds bytes front text rest) {p : Char → Bool} (hp : Ascii p)
    (hzero : p '\x00' = false) :
    p (seen bytes ((within front text line).cursor + 0)) = rest.head?.any p := by
  rw [h, ← List.append_assoc]
  exact seen_encode hp hzero

theorem advance_within (h : Holds bytes front text (c :: rest)) (hc : c.toNat < 128) :
    advance bytes (within front text line) = pure (c, within front (text ++ [c]) line) := by
  rcases encode_cases c with ⟨b, hb, hcode, -⟩ | ⟨lead, tail, -, hcode, -⟩
  · have hbytes : bytes = encode (front ++ text) ++ b :: encode rest := by
      rw [h.eq_append, encode_cons, hb]
      rfl
    rw [hbytes, advance_eq rfl, hcode, within_append_ascii hc]
  · omega

theorem atEnd_within (h : Holds bytes front text rest) :
    atEnd bytes (within front text line) = pure (rest.isEmpty, within front text line) := by
  have hend : decide (bytes.length ≤ (within front text line).cursor) = rest.isEmpty := by
    rw [h.eq_append, List.length_append]
    cases rest with
    | nil => simp [within]
    | cons c rest =>
      have hpos : 0 < (String.utf8EncodeChar c).length :=
        List.length_pos_iff.mpr (encode_ne_nil c)
      rw [encode_cons, List.length_append, List.isEmpty_cons, decide_eq_false_iff_not]
      show ¬ _ ≤ (encode (front ++ text)).length
      omega
  rw [atEnd_eq, hend]

theorem accept_within {d : Char} (line : Nat) (h : Holds bytes front text rest) (hd : d.toNat < 128)
    (hzero : d ≠ '\x00') : accept bytes d (within front text line) =
      if rest.head? = some d then pure (true, within front (text ++ [d]) line)
      else pure (false, within front text line) := by
  have hseen : (seen bytes ((within front text line).cursor + 0) == d) = rest.head?.any (· == d) :=
    h.seen (Ascii.beq hd) (by simpa using hzero.symm)
  rw [accept, bind_of_pure (look_eq 0), bind_of_pure (atEnd_within h)]
  by_cases hnext : rest.head? = some d
  · obtain ⟨rest, rfl⟩ := List.head?_eq_some_iff.mp hnext
    rw [if_pos hnext, if_pos ⟨by simpa using hseen, by simp⟩, bind_of_pure rfl,
      within_append_ascii hd]
    rfl
  · have hother : ¬ seen bytes ((within front text line).cursor + 0) = d := by
      rw [← beq_iff_eq, hseen]
      cases rest with
      | nil => exact Bool.false_ne_true
      | cons e rest => simpa using hnext
    rw [if_neg hnext, if_neg fun hboth => hother hboth.1]
    rfl

/-- **A part of a text is a slice** of its bytes. -/
theorem slice_eq (h : Holds bytes front text rest) :
    slice bytes (encode front).length (encode (front ++ text)).length r = pure (text, r) := by
  have hguard : (encode front).length ≤ (encode (front ++ text)).length ∧
      (encode (front ++ text)).length ≤ bytes.length ∧
      IsBoundary bytes (encode front).length ∧
      IsBoundary bytes (encode (front ++ text)).length := by
    refine ⟨by simp, by simp [h.eq_append], ?_, ?_⟩
    · rw [h]
      exact isBoundary_encode front (text ++ rest)
    · rw [h.eq_append, ← encode_append]
      exact isBoundary_encode (front ++ text) rest
  have hbytes : (bytes.take (encode (front ++ text)).length).drop (encode front).length =
      encode text := by
    rw [h.eq_append, List.take_left, encode_append, List.drop_left]
  unfold slice
  rw [if_pos hguard, hbytes, decodeLossy_encode]
  rfl

theorem lexeme_within (h : Holds bytes front text rest) :
    lexeme bytes (within front text line) = pure (text, within front text line) :=
  slice_eq h

/-! ## Loops -/

theorem passWhile_within {p : Char → Bool} (hp : Ascii p) (hzero : p '\x00' = false) :
    ∀ {rest text : List Char} {rounds : Nat}, Holds bytes front text rest → rest.length < rounds →
      passWhile bytes p rounds (within front text line) =
        pure ((), within front (text ++ rest.takeWhile p) line)
  | [], text, rounds + 1, h, _ => by
    rw [passWhile, bind_of_pure (look_eq 0), h.seen hp hzero, if_neg (by simp),
      List.takeWhile_nil, List.append_nil]
    rfl
  | c :: rest, text, rounds + 1, h, hrounds => by
    rw [passWhile, bind_of_pure (look_eq 0), h.seen hp hzero]
    cases hc : p c with
    | false =>
      rw [if_neg (by simp [hc]), List.takeWhile_cons_of_neg (by simp [hc]), List.append_nil]
      rfl
    | true =>
      have hmore : Holds bytes front (text ++ [c]) rest := h.more
      rw [if_pos (by simpa using hc), List.takeWhile_cons_of_pos hc,
        bind_of_pure (advance_within h (hp c hc)),
        passWhile_within hp hzero hmore (Nat.lt_of_succ_lt_succ hrounds), List.append_assoc]
      rfl

theorem passString_eq : ∀ (behind before : List UInt8) (r : ByteReader) (rounds : Nat),
    r.cursor = before.length → behind.length < rounds →
      passString (before ++ behind) rounds r = pure ((), { r with
        cursor := r.cursor + (behind.takeWhile (charOf · != '"')).length
        line := r.line + (behind.takeWhile (charOf · != '"')).countP (charOf · == '\n') })
  | [], before, r, rounds + 1, hr, _ => by
    rw [passString, bind_of_pure atEnd_eq, bind_of_pure (look_eq 0), if_neg (by simp [hr])]
    rfl
  | b :: behind, before, r, rounds + 1, hr, hrounds => by
    have hmore : decide ((before ++ b :: behind).length ≤ r.cursor) = false := by
      rw [hr, List.length_append, List.length_cons, decide_eq_false_iff_not]
      omega
    have hseen : seen (before ++ b :: behind) (r.cursor + 0) = charOf b := by
      unfold seen
      rw [Nat.add_zero, List.getElem?_append_right (by omega), hr, Nat.sub_self]
      rfl
    rw [passString, bind_of_pure atEnd_eq, bind_of_pure (look_eq 0), hseen, hmore]
    by_cases hb : charOf b = '"'
    · rw [if_neg (by simp [hb]), List.takeWhile_cons_of_neg (by simp [hb])]
      rfl
    · have hpassed := passString_eq behind (before ++ [b])
        { r with cursor := r.cursor + 1, line := r.line + if charOf b = '\n' then 1 else 0 }
        rounds (by simp [hr]) (Nat.lt_of_succ_lt_succ hrounds)
      rw [List.append_assoc] at hpassed
      rw [if_pos ⟨Bool.false_ne_true, hb⟩, bind_of_pure (advance_eq hr), bind_of_pure rfl,
        List.takeWhile_cons_of_pos (by simpa using hb)]
      refine hpassed.trans ?_
      simp [List.countP_cons, Nat.add_assoc, Nat.add_comm]

theorem passString_within (h : Holds bytes front text rest) (hrounds : bytes.length < rounds) :
    passString bytes rounds (within front text line) =
      pure ((), within front (text ++ rest.takeWhile (· != '"'))
        (line + (rest.takeWhile (· != '"')).count '\n')) := by
  rw [h.eq_append, List.length_append] at hrounds
  rw [h.eq_append, passString_eq _ _ _ _ rfl (by omega), takeWhile_encode (by decide),
    countP_encode (by decide)]
  simp [within, Nat.add_assoc]

theorem elim_findIdx? {p : UInt8 → Bool} (l : List UInt8) (k : Nat) :
    (l.findIdx? p).elim (k + l.length) (k + ·) = k + (l.takeWhile (! p ·)).length := by
  induction l generalizing k with
  | nil => rfl
  | cons b l ih =>
    rw [List.findIdx?_cons, List.takeWhile_cons]
    cases p b with
    | true => rfl
    | false =>
      have hbehind := ih (k + 1)
      rw [Bool.not_false, if_pos rfl, List.length_cons, List.length_cons]
      cases hfound : l.findIdx? p with
      | none =>
        rw [hfound] at hbehind
        show k + (l.length + 1) = _
        have : k + 1 + l.length = _ := hbehind
        omega
      | some i =>
        rw [hfound] at hbehind
        show k + (i + 1) = _
        have : k + 1 + i = _ := hbehind
        omega

end Lox.Scan
