import Lox.Proofs.Scanning.LongestMatch

/-!
# Nothing is lost

The stretches of a text are the pieces that a reader takes one after the other, each with its item
if it makes one.  Put together they are the text again, their items with the end marker behind them
are all the items, and each item is on the line on which its stretch ends
(`Token.items_rebuild`).
-/

namespace Lox

/-- A piece of a text and its item, if it makes one. -/
structure Stretch where
  text : List Char
  item? : Option Token.Item

/-- Whether a stretch that ends on a line has the right item: none for a blank, a newline or a
comment, a token that is spelled in this way, or a fault with all of its text. -/
inductive Stretch.Fits : Stretch → Nat → Prop
  | skipped {p : Piece} {text : List Char} {line : Nat} (h : p.Spelled text)
      (hp : p = .blank ∨ p = .newline ∨ p = .comment) : Fits ⟨text, none⟩ line
  | token {t : Token} (hlexeme : t.lexeme ≠ "") (hkind : t.kind ≠ .eof) :
      Fits ⟨t.lexeme.toList, some (.token t)⟩ t.line
  | unexpectedCharacter {c : Char} {line : Nat} :
      Fits ⟨[c], some (.fault line (.unexpectedCharacter c))⟩ line
  | unterminatedString {cs : List Char} {line : Nat} (h : '"' ∉ cs) :
      Fits ⟨'"' :: cs, some (.fault line .unterminatedString)⟩ line

/-- Whether a source that begins on a line, and the items read from it, are rebuilt by stretches. -/
structure Rebuilt (line : Nat) (source : List Char) (items : List Token.Item)
    (stretches : List Stretch) : Prop where
  /-- The stretches are the source, cut into slices. -/
  text_eq : (stretches.map Stretch.text).flatten = source
  /-- Behind their items stands one end marker, on the last line. -/
  items_eq : items =
    stretches.filterMap Stretch.item? ++ [.token ⟨.eof, "", line + source.count '\n'⟩]
  /-- The line of an item is that of the end of its stretch. -/
  fits : ∀ {before : List Stretch} {s : Stretch} {after : List Stretch},
    stretches = before ++ s :: after →
      s.Fits (line + ((before.map Stretch.text).flatten ++ s.text).count '\n')
  /-- An open string ends with the source. -/
  last : ∀ {before : List Stretch} {s : Stretch} {after : List Stretch},
    stretches = before ++ s :: after →
      ∀ l, s.item? = some (.fault l .unterminatedString) → after = []

namespace Stretch

theorem Fits.text_ne_nil {s : Stretch} {line : Nat} (h : s.Fits line) : s.text ≠ [] := by
  cases h with
  | skipped h => exact h.ne_nil
  | token hlexeme => exact fun h => hlexeme (String.toList_eq_nil_iff.mp h)
  | _ => exact List.cons_ne_nil _ _

theorem fits_of_means {p : Piece} {text : List Char} {kind? : Option Token.Kind}
    (hspelled : p.Spelled text) (h : p.Means text kind?) (line : Nat) :
    Fits ⟨text, Token.Item.ofKind? kind? text line⟩ line := by
  have htoken {kind : Token.Kind} (hkind : kind ≠ .eof) :
      Fits ⟨text, Token.Item.ofKind? (some kind) text line⟩ line := by
    have hlexeme : String.ofList text ≠ "" := fun hempty =>
      hspelled.ne_nil (String.ofList_inj.mp hempty)
    have hfits : Fits ⟨(String.ofList text).toList, some (.token ⟨kind, String.ofList text, line⟩)⟩
        line := .token (t := ⟨kind, String.ofList text, line⟩) hlexeme hkind
    rwa [String.toList_ofList] at hfits
  cases h with
  | blank => exact .skipped hspelled (.inl rfl)
  | newline => exact .skipped hspelled (.inr (.inl rfl))
  | comment => exact .skipped hspelled (.inr (.inr rfl))
  | _ => exact htoken nofun

theorem fits_ofText (c : Char) (cs : List Char) (line : Nat) :
    Fits ⟨(Cut.ofText c cs).text, (Cut.ofText c cs).item? line⟩ line := by
  rcases Cut.ofText_cases c cs with hspelled | ⟨rfl, hopen, hcut⟩ | ⟨-, hcut⟩
  · obtain ⟨kind?, hmeans⟩ := hspelled.exists_means
    generalize Cut.ofText c cs = cut at *
    obtain ⟨p, text, rest⟩ := cut
    rw [hmeans.item?_eq]
    exact fits_of_means hspelled hmeans line
  · rw [hcut]
    exact .unterminatedString hopen
  · rw [hcut]
    exact .unexpectedCharacter

theorem rest_of_unterminatedString {c : Char} {cs : List Char} {line l : Nat}
    (h : (Cut.ofText c cs).item? line = some (.fault l .unterminatedString)) :
    (Cut.ofText c cs).rest = [] := by
  rcases Cut.ofText_cases c cs with hspelled | ⟨-, -, hcut⟩ | ⟨-, hcut⟩
  · obtain ⟨kind?, hmeans⟩ := hspelled.exists_means
    have hitem : (Cut.ofText c cs).item? line =
        Token.Item.ofKind? kind? (Cut.ofText c cs).text line := hmeans.item?_eq line
    rw [h] at hitem
    cases kind? <;> cases hitem
  · rw [hcut]
  · rw [hcut] at h
    cases h

end Stretch

namespace Rebuilt

theorem nil (line : Nat) : Rebuilt line [] (Reader.mk [] line false).items [] where
  text_eq := rfl
  items_eq := Reader.items_nil line
  fits h := by simp at h
  last h := by simp at h

/-- Stretches are never empty, and so there is none in an empty source. -/
theorem eq_nil {line : Nat} {source : List Char} {items : List Token.Item}
    {stretches : List Stretch} (h : Rebuilt line source items stretches) (hsource : source = []) :
    stretches = [] := by
  cases stretches with
  | nil => rfl
  | cons s after =>
    have htext := h.text_eq
    rw [hsource, List.map_cons, List.flatten_cons] at htext
    have hfits := h.fits (List.nil_append (s :: after)).symm
    exact absurd (List.append_eq_nil_iff.mp htext).1 hfits.text_ne_nil

/-- **One piece more:** what follows a piece is rebuilt, and so is all with the piece. -/
theorem cons {c : Char} {cs : List Char} {line : Nat} {stretches : List Stretch}
    (h : Rebuilt (line + (Cut.ofText c cs).text.count '\n') (Cut.ofText c cs).rest
      (Reader.mk (Cut.ofText c cs).rest (line + (Cut.ofText c cs).text.count '\n') false).items
      stretches) :
    Rebuilt line (c :: cs) (Reader.mk (c :: cs) line false).items
      (⟨(Cut.ofText c cs).text,
        (Cut.ofText c cs).item? (line + (Cut.ofText c cs).text.count '\n')⟩ :: stretches) where
  text_eq := by
    rw [List.map_cons, List.flatten_cons, h.text_eq, Cut.text_append_rest]
  items_eq := by
    have hcount : (c :: cs).count '\n' =
        (Cut.ofText c cs).text.count '\n' + (Cut.ofText c cs).rest.count '\n' := by
      rw [← List.count_append, Cut.text_append_rest]
    rw [Reader.items_cons, h.items_eq, hcount, ← Nat.add_assoc, ← List.append_assoc]
    congr 1
    cases (Cut.ofText c cs).item? (line + (Cut.ofText c cs).text.count '\n') <;> rfl
  fits := by
    intro before s after e
    cases before with
    | nil =>
      cases e
      exact Stretch.fits_ofText c cs _
    | cons first before =>
      rw [List.cons_append] at e
      obtain ⟨rfl, hbehind⟩ := List.cons.inj e
      have hfits := h.fits hbehind
      rw [Nat.add_assoc, ← List.count_append, ← List.append_assoc] at hfits
      exact hfits
  last := by
    intro before s after e l hs
    cases before with
    | nil =>
      obtain ⟨rfl, rfl⟩ := List.cons.inj e
      exact h.eq_nil (Stretch.rest_of_unterminatedString hs)
    | cons first before => exact h.last (List.cons.inj e).2 l hs

end Rebuilt

theorem Reader.exists_rebuilt : ∀ (source : List Char) (line : Nat),
    ∃ stretches, Rebuilt line source (Reader.mk source line false).items stretches
  | [], line => ⟨[], .nil line⟩
  | c :: cs, line =>
    have ⟨_, h⟩ := exists_rebuilt (Cut.ofText c cs).rest _
    ⟨_, .cons h⟩
termination_by source => source.length
decreasing_by exact Nat.lt_succ_of_le (Cut.length_rest_le c cs)

/-- **Nothing is lost:** the items of a source are those of consecutive stretches, which together
are the source. -/
theorem Token.items_rebuild (source : List Char) :
    ∃ stretches, Rebuilt 1 source (Token.items source) stretches :=
  Reader.exists_rebuilt source 1

example : Token.items "\"a\nb\" // c\n\"d\n".toList =
    [.token ⟨.string "a\nb", "\"a\nb\"", 2⟩, .fault 4 .unterminatedString,
      .token ⟨.eof, "", 4⟩] := by
  decide +kernel

end Lox
