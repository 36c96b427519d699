import Lox.Proofs.Rounding
import Lox.Proofs.Scanning.Grammar

/-!
# The longest match

`Tokenized` says what the items of a text are without saying how they are found: at every place the
longest text of any class is taken and means what `Piece.Means` says of it.  A quote that is never
closed costs the rest of the text, any other character of no class costs itself.  The items that a
reader yields are these and no others (`Token.longest_match`).
-/

namespace Lox

/-- What a text of a class means: the kind of its token, or nothing. -/
inductive Piece.Means : Piece → List Char → Option Token.Kind → Prop
  | blank {text : List Char} : Means .blank text none
  | newline {text : List Char} : Means .newline text none
  | comment {text : List Char} : Means .comment text none
  | symbol {s : Symbol} {text : List Char} : Means (.symbol s) text (some (.symbol s))
  | string {content text : List Char} :
      Means (.string content) text (some (.string (String.ofList content)))
  | whole {digits : List Char} {value : Float} (h : Digits digits)
      (hvalue : Binary64.Rounds (Number.decimal digits []) value) :
      Means .number digits (some (.number value))
  | fraction {whole fraction : List Char} {value : Float} (hwhole : Digits whole)
      (hfraction : Digits fraction)
      (hvalue : Binary64.Rounds (Number.decimal whole fraction) value) :
      Means .number (whole ++ '.' :: fraction) (some (.number value))
  | keyword (k : Keyword) : Means .word k.text.toList (some (.keyword k))
  | name {text : List Char} (h : ∀ k : Keyword, text ≠ k.text.toList) :
      Means .word text (some .identifier)

/-- The item for a text of this kind that ends on a line. -/
def Token.Item.ofKind? (kind? : Option Kind) (text : List Char) (line : Nat) : Option Item :=
  kind?.map fun kind => .token ⟨kind, String.ofList text, line⟩

/-- The items of a text that begins on a line. -/
inductive Tokenized : Nat → List Char → List Token.Item → Prop
  | done {line : Nat} : Tokenized line [] [.token ⟨.eof, "", line⟩]
  | piece {line : Nat} {p : Piece} {text rest : List Char} {kind? : Option Token.Kind}
      {items : List Token.Item} (h : p.Longest text rest) (hmeans : p.Means text kind?)
      (hrest : Tokenized (line + text.count '\n') rest items) :
      Tokenized line (text ++ rest)
        ((Token.Item.ofKind? kind? text (line + text.count '\n')).toList ++ items)
  | unterminated {line : Nat} {cs : List Char} (h : '"' ∉ cs) :
      Tokenized line ('"' :: cs)
        [.fault (line + cs.count '\n') .unterminatedString,
          .token ⟨.eof, "", line + cs.count '\n'⟩]
  | illegal {line : Nat} {c : Char} {cs : List Char} {items : List Token.Item} (hquote : c ≠ '"')
      (h : ∀ (p : Piece) (front : List Char), p.Spelled front → ¬ front <+: c :: cs)
      (hrest : Tokenized line cs items) :
      Tokenized line (c :: cs) (.fault line (.unexpectedCharacter c) :: items)

/-! ## What pieces mean -/

namespace Piece

variable {p : Piece} {text rest : List Char} {kind? : Option Token.Kind}

theorem ofWord_keyword (k : Keyword) : Token.Kind.ofWord k.text = .keyword k := by
  cases k <;> decide

theorem ofWord_name (h : ∀ k : Keyword, text ≠ k.text.toList) :
    Token.Kind.ofWord (String.ofList text) = .identifier := by
  have hnone : Keyword.ofText? (String.ofList text) = none := by
    refine List.find?_eq_none.mpr fun k _ hk => h k ?_
    rw [beq_iff_eq.mp hk, String.toList_ofList]
  unfold Token.Kind.ofWord
  rw [hnone]

theorem Means.item?_eq (h : p.Means text kind?) (line : Nat) :
    (Cut.mk p text rest).item? line = Token.Item.ofKind? kind? text line := by
  cases h with
  | whole h hvalue =>
    rw [hvalue.unique (Number.rounds_read_whole h.2)]
    rfl
  | fraction hwhole hfraction hvalue =>
    rw [hvalue.unique (Number.rounds_read_fraction _ hwhole.2)]
    rfl
  | keyword k =>
    show some (Token.Item.token ⟨.ofWord (String.ofList k.text.toList), _, _⟩) = _
    rw [Token.Item.ofKind?, String.ofList_toList, ofWord_keyword]
    rfl
  | name h =>
    show some (Token.Item.token ⟨.ofWord (String.ofList _), _, _⟩) = _
    rw [ofWord_name h]
    rfl
  | _ => rfl

theorem Spelled.exists_means (h : p.Spelled text) : ∃ kind?, p.Means text kind? := by
  cases h with
  | blank => exact ⟨_, .blank⟩
  | newline => exact ⟨_, .newline⟩
  | comment => exact ⟨_, .comment⟩
  | symbol => exact ⟨_, .symbol⟩
  | string => exact ⟨_, .string⟩
  | whole h => exact ⟨_, .whole h (Number.rounds_read_whole h.2)⟩
  | fraction hwhole hfraction =>
    exact ⟨_, .fraction hwhole hfraction (Number.rounds_read_fraction _ hwhole.2)⟩
  | @word c cs =>
    by_cases hkeyword : ∃ k : Keyword, c :: cs = k.text.toList
    · obtain ⟨k, hk⟩ := hkeyword
      rw [hk]
      exact ⟨_, .keyword k⟩
    · exact ⟨_, .name (not_exists.mp hkeyword)⟩

end Piece

/-! ## Readers -/

namespace Tokenized

theorem reader_items {line : Nat} {text : List Char} {items : List Token.Item}
    (h : Tokenized line text items) : (Reader.mk text line false).items = items := by
  induction h with
  | done => exact Reader.items_nil _
  | @piece line p text rest kind? items h hmeans hrest ih =>
    obtain ⟨c, cs, e⟩ := List.exists_cons_of_ne_nil
      (List.append_ne_nil_of_left_ne_nil h.spelled.ne_nil rest)
    rw [e, Reader.items_cons, ((Cut.longest_iff e).mp h).2, hmeans.item?_eq, ih]
  | @unterminated line cs h =>
    rw [Reader.items_cons, Cut.ofText_unterminated h, Reader.items_nil, Cut.count_quote]
    rfl
  | @illegal line c cs items hquote h hrest ih =>
    have hcut := Cut.ofText_illegal hquote h
    rw [Reader.items_cons, hcut, Cut.count_illegal hcut, Nat.add_zero, ih]
    rfl

theorem of_reader : ∀ (text : List Char) (line : Nat),
    Tokenized line text (Reader.mk text line false).items
  | [], line => by
    rw [Reader.items_nil]
    exact .done
  | c :: cs, line => by
    have hsum := Cut.text_append_rest c cs
    have hrest := of_reader (Cut.ofText c cs).rest (line + (Cut.ofText c cs).text.count '\n')
    rw [Reader.items_cons]
    rcases Cut.ofText_cases c cs with hspelled | ⟨rfl, hopen, hcut⟩ | ⟨hquote, hcut⟩
    · obtain ⟨kind?, hmeans⟩ := hspelled.exists_means
      generalize hcut : Cut.ofText c cs = cut at *
      obtain ⟨p, text, rest⟩ := cut
      rw [hmeans.item?_eq, ← hsum]
      exact .piece ((Cut.longest_iff hsum).mpr ⟨hspelled, hcut⟩) hmeans hrest
    · rw [hcut, Reader.items_nil, Cut.count_quote]
      exact .unterminated hopen
    · rw [hcut, Cut.count_illegal hcut, Nat.add_zero] at hrest ⊢
      exact .illegal hquote (fun _ _ => Cut.not_spelled_of_illegal hcut) hrest
termination_by text => text.length
decreasing_by exact Nat.lt_succ_of_le (Cut.length_rest_le c cs)

end Tokenized

/-- **The longest match:** the items of a text are those of its longest pieces. -/
theorem Token.longest_match (text : List Char) (items : List Token.Item) :
    Token.items text = items ↔ Tokenized 1 text items :=
  ⟨fun h => h ▸ Tokenized.of_reader text 1, Tokenized.reader_items⟩

example : Token.items "orx!==§//=".toList =
    [.token ⟨.identifier, "orx", 1⟩, .token ⟨.symbol .bangEqual, "!=", 1⟩,
      .token ⟨.symbol .equal, "=", 1⟩, .fault 1 (.unexpectedCharacter '§'),
      .token ⟨.eof, "", 1⟩] := by
  decide +kernel

end Lox
