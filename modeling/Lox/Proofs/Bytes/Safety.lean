import Lox.Proofs.Bytes.Pieces

/-!
# Reading tokens byte by byte is safe

`ByteReader.At` ties a place in the bytes of a text to a place in the text.  From there the next
item is read without a breach and in finitely many steps (`Scan.next?_at`), it is the one of the
text, and the cursor has moved on.  So any number of calls yields the items of the text one by one,
and then nothing any more (`Scan.calls_safe`).
-/

namespace Lox

open Utf8

/-- Whether a place in the bytes of a text is this place in the text.  Behind the end marker the
cursor is one past the end. -/
structure ByteReader.At (text : List Char) (r : ByteReader) (place : Reader) : Prop where
  cursor : ∃ front, front ++ place.rest = text ∧
    r.cursor = (encode front).length + if place.ended then 1 else 0
  line : r.line = place.line
  ended : place.ended = true → place.rest = []

namespace Scan

variable {text front : List Char} {r : ByteReader} {place : Reader} {rounds : Nat}

theorem at_initial (text : List Char) : ByteReader.initial.At text (.ofText text) :=
  ⟨⟨[], rfl, rfl⟩, rfl, fun h => absurd h Bool.false_ne_true⟩

theorem cursor_le_of_at (h : r.At text place) : r.cursor ≤ (encode text).length + 1 := by
  obtain ⟨front, rfl, hcursor⟩ := h.cursor
  rw [hcursor, encode_append, List.length_append]
  split <;> omega

/-- What a call comes to: an item, with which the cursor moves on, or nothing, and then the place
stays. -/
structure Yields (bytes : List UInt8) (rounds : Nat) (r : ByteReader)
    (item? : Option Token.Item) (behind : ByteReader) : Prop where
  result : next? bytes rounds r = .ok (item?, behind)
  cursor_lt : item?.isSome = true → r.cursor < behind.cursor
  stays : item? = none → behind = r
  cursor_le : behind.cursor ≤ bytes.length + 1

/-- Whether an item of the text is yielded in so many rounds, and the cursor moves on to the place
behind it. -/
def Advances (text : List Char) (rounds left : Nat) (r : ByteReader) (place : Reader) : Prop :=
  ∃ item behind place', passToItem (encode text) rounds left r = pure (some item, behind) ∧
    place.next? = some (item, place') ∧ behind.At text place' ∧ r.cursor < behind.cursor

theorem advances_nil {left : Nat} (hcursor : r.cursor = (encode text).length) :
    Advances text rounds (left + 1) r ⟨[], r.line, false⟩ := by
  refine ⟨.token ⟨.eof, "", r.line⟩, { r with cursor := r.cursor + 1 }, ⟨[], r.line, true⟩, ?_,
    Reader.next?_nil r.line, ⟨⟨text, List.append_nil text, ?_⟩, rfl, fun _ => rfl⟩, ?_⟩
  · rw [passToItem, bind_of_pure rfl, if_pos (Nat.le_of_eq hcursor), if_pos hcursor]
    rfl
  · show r.cursor + 1 = _
    rw [hcursor]
    rfl
  · exact Nat.lt_succ_self _

/-- **Piece by piece:** a round yields the item of the first piece, or passes a piece that means
nothing. -/
theorem passToItem_cons {c : Char} {cs : List Char} {left : Nat} (h : front ++ c :: cs = text)
    (hrounds : (encode text).length < rounds) (hcursor : r.cursor = (encode front).length) :
    passToItem (encode text) rounds (left + 1) r =
      match (Cut.ofText c cs).item? (r.line + (Cut.ofText c cs).text.count '\n') with
      | some item => pure (some item, within front (Cut.ofText c cs).text
          (r.line + (Cut.ofText c cs).text.count '\n'))
      | none => passToItem (encode text) rounds left (within front (Cut.ofText c cs).text
          (r.line + (Cut.ofText c cs).text.count '\n')) := by
  subst h
  obtain ⟨result, hfound, hitem⟩ : Finds (found (encode (front ++ c :: cs)) rounds) front [] r.line
      (Cut.ofText c cs) := found_eq rfl hrounds
  have hpos := List.length_pos_iff.mpr (encode_ne_nil c)
  have hlength : (encode (front ++ c :: cs)).length =
      (encode front).length + (String.utf8EncodeChar c).length + (encode cs).length := by
    simp [Nat.add_assoc]
  have hstart : ({ r with start := r.cursor } : ByteReader) = within front [] r.line := by
    simp [within, hcursor]
  have hlexeme : Holds (encode (front ++ c :: cs)) front (Cut.ofText c cs).text
      (Cut.ofText c cs).rest := by
    rw [Holds, Cut.text_append_rest]
  rw [passToItem, bind_of_pure rfl, if_pos (by omega), if_neg (by omega), bind_of_pure rfl, hstart,
    bind_of_pure hfound]
  rw [← hitem]
  cases result with
  | nothing => rfl
  | token kind => exact bind_of_pure (lexeme_within hlexeme)
  | fault f => rfl

/-- From every place in the text on, an item is yielded, in no more rounds than characters come
behind it and one. -/
theorem advances (hrounds : (encode text).length < rounds) :
    ∀ (left : Nat) (rest front : List Char) (r : ByteReader), front ++ rest = text →
      rest.length ≤ left → r.cursor = (encode front).length →
      Advances text rounds (left + 1) r ⟨rest, r.line, false⟩
  | left, [], front, r, htext, _, hcursor => by
    rw [List.append_nil] at htext
    subst htext
    exact advances_nil hcursor
  | left + 1, c :: cs, front, r, htext, hleft, hcursor => by
    have hsplit : front ++ (Cut.ofText c cs).text ++ (Cut.ofText c cs).rest = text := by
      rw [List.append_assoc, Cut.text_append_rest, htext]
    have hnext := Reader.next?_cons c cs r.line false
    have hbytes : passToItem (encode text) rounds (left + 1 + 1) r = _ :=
      passToItem_cons htext hrounds hcursor
    have hlt : r.cursor < (encode (front ++ (Cut.ofText c cs).text)).length := by
      obtain ⟨d, ds, hne⟩ := List.exists_cons_of_ne_nil (Cut.text_ne_nil c cs)
      have hpos := List.length_pos_iff.mpr (encode_ne_nil d)
      rw [hcursor, hne, encode_append, encode_cons, List.length_append, List.length_append]
      omega
    unfold Advances
    rw [hnext, hbytes]
    cases (Cut.ofText c cs).item? (r.line + (Cut.ofText c cs).text.count '\n') with
    | some item =>
      refine ⟨item, within front (Cut.ofText c cs).text _, _, rfl, rfl, ⟨⟨_, hsplit, rfl⟩, rfl, ?_⟩,
        hlt⟩
      exact fun h => absurd h Bool.false_ne_true
    | none =>
      have hshorter : (Cut.ofText c cs).rest.length ≤ left :=
        (Cut.length_rest_le c cs).trans (Nat.le_of_succ_le_succ hleft)
      obtain ⟨item, behind, place', hresult, hplace, hat, hbehind⟩ := advances hrounds left
        (Cut.ofText c cs).rest _ (within front (Cut.ofText c cs).text _) hsplit hshorter rfl
      exact ⟨item, behind, place', hresult, hplace, hat, hlt.trans hbehind⟩

theorem next?_ended (hrounds : (encode text).length < rounds)
    (hcursor : (encode text).length < r.cursor) :
    next? (encode text) rounds r = pure (none, r) := by
  obtain ⟨left, rfl⟩ := Nat.exists_eq_add_of_lt hrounds
  rw [next?, passToItem, bind_of_pure rfl, if_neg (Nat.not_le.mpr hcursor)]
  rfl

/-- **One call** yields the first of the items from a place on, and comes to a place from which the
others are read. -/
theorem next?_at (h : r.At text place) (hrounds : (encode text).length < rounds) :
    ∃ behind place', Yields (encode text) rounds r place.items.head? behind ∧
      behind.At text place' ∧ place'.items = place.items.tail := by
  have hle := cursor_le_of_at h
  obtain ⟨⟨front, hsplit, hcursor⟩, hline, hended⟩ := h
  obtain ⟨rest, line, ended⟩ := place
  obtain rfl : r.line = line := hline
  cases ended with
  | true =>
    obtain rfl : rest = [] := hended rfl
    obtain rfl : front = text := by simpa using hsplit
    have hitems := Reader.items_of_next?_none (Reader.next?_ended r.line)
    have hend : next? (encode front) rounds r = pure (none, r) :=
      next?_ended hrounds (by simp [hcursor])
    refine ⟨r, ⟨[], r.line, true⟩, ?_, ⟨⟨front, hsplit, hcursor⟩, rfl, fun _ => rfl⟩, ?_⟩
    · rw [hitems]
      exact ⟨hend, fun h => absurd h Bool.false_ne_true, fun _ => rfl, hle⟩
    · rw [hitems, List.tail_nil]
  | false =>
    have hshort : rest.length < rounds := by
      have hlength : front.length + rest.length = text.length := by
        rw [← List.length_append]
        exact congrArg List.length hsplit
      have hbytes := length_le_encode text
      omega
    obtain ⟨left, rfl⟩ := Nat.exists_eq_add_of_lt hshort
    obtain ⟨item, behind, place', hresult, hplace, hat, hlt⟩ :=
      advances hrounds (rest.length + left) rest front r hsplit (Nat.le_add_right _ _) hcursor
    rw [Reader.items_of_next? hplace]
    exact ⟨behind, place', ⟨hresult, fun _ => hlt, fun h => absurd h (Option.some_ne_none _),
      cursor_le_of_at hat⟩, hat, rfl⟩

/-- The cursor moves on as long as there are items. -/
theorem Yields.add_min_length_le {bytes : List UInt8} {items : List Token.Item}
    {behind : ByteReader} (h : Yields bytes rounds r items.head? behind) :
    r.cursor + min 1 items.length ≤ behind.cursor := by
  cases items with
  | nil =>
    rw [h.stays rfl]
    exact Nat.le_refl _
  | cons item items =>
    have hlt := h.cursor_lt rfl
    simp only [List.length_cons]
    omega

/-- **Any number of calls** yields the items from a place on, one with each call, and then nothing
any more. -/
theorem calls_at (hrounds : (encode text).length < rounds) :
    ∀ (k : Nat) (r : ByteReader) (place : Reader), r.At text place →
      ∃ behind place', calls (encode text) rounds k r =
          pure ((List.range k).map (place.items[·]?), behind) ∧
        behind.At text place' ∧ place'.items = place.items.drop k ∧
        r.cursor + min k place.items.length ≤ behind.cursor
  | 0, r, place, h => ⟨r, place, rfl, h, rfl, by simp⟩
  | k + 1, r, place, h => by
    obtain ⟨next, place₁, hyields, hnext, hitems₁⟩ := next?_at h hrounds
    obtain ⟨behind, place', hcalls, hat, hitems, hcursor⟩ := calls_at hrounds k next place₁ hnext
    refine ⟨behind, place', ?_, hat, ?_, ?_⟩
    · have hresult : next? (encode text) rounds r = pure (place.items.head?, next) := hyields.result
      rw [calls, bind_of_pure hresult, bind_of_pure hcalls, List.range_succ_eq_map, List.map_cons,
        List.map_map, hitems₁, List.head?_eq_getElem?]
      simp only [List.getElem?_tail]
      rfl
    · rw [hitems, hitems₁, List.drop_tail]
    · rw [hitems₁, List.length_tail] at hcursor
      have hmoves := hyields.add_min_length_le
      omega

/-- **Reading byte by byte is safe.**  However often the next item of a text is asked for, no access
is a breach, and no loop goes on for more than one round for each byte and one.  The calls yield the
items of the text, one each, and then nothing any more.  With each item the cursor moves on, else
the place stays, and the cursor is never more than one past the end.  So there is at most one item
more than there are bytes. -/
theorem calls_safe (text : List Char) (k rounds : Nat) (hrounds : (encode text).length < rounds) :
    (Token.items text).length ≤ (encode text).length + 1 ∧
    ∃ r behind, calls (encode text) rounds k .initial =
        .ok ((List.range k).map ((Token.items text)[·]?), r) ∧
      Yields (encode text) rounds r (Token.items text)[k]? behind := by
  constructor
  · obtain ⟨behind, place', -, hat, -, hcursor⟩ :=
      calls_at hrounds (Token.items text).length _ _ (at_initial text)
    have hle := cursor_le_of_at hat
    have hmin : min (Token.items text).length (Reader.ofText text).items.length =
      (Token.items text).length := Nat.min_self _
    omega
  · obtain ⟨r, place, hcalls, hat, hitems, -⟩ := calls_at hrounds k _ _ (at_initial text)
    obtain ⟨behind, -, hyields, -, -⟩ := next?_at hat hrounds
    rw [hitems, List.head?_drop] at hyields
    exact ⟨r, behind, hcalls, hyields⟩

/-- A character of two bytes that belongs to no class, and a zero in a string without end. -/
theorem calls_safe_open_string :
    (encode "é\"\x00".toList).length < 5 ∧ ∃ r, calls (encode "é\"\x00".toList) 5 4 .initial =
      .ok ([some (.fault 1 (.unexpectedCharacter 'é')), some (.fault 1 .unterminatedString),
        some (.token ⟨.eof, "", 1⟩), none], r) := by
  have hrounds : (encode "é\"\x00".toList).length < 5 := by decide
  have hitems : (List.range 4).map ((Token.items "é\"\x00".toList)[·]?) =
      [some (.fault 1 (.unexpectedCharacter 'é')), some (.fault 1 .unterminatedString),
        some (.token ⟨.eof, "", 1⟩), none] := by decide +kernel
  obtain ⟨-, r, -, hcalls, -⟩ := calls_safe "é\"\x00".toList 4 5 hrounds
  rw [hitems] at hcalls
  exact ⟨hrounds, r, hcalls⟩

end Scan

end Lox
