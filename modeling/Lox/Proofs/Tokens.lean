import Lox.Token.Reader
import Lox.Syntax.Basic

/-!
# Tokens of a text

What a reader yields, piece by piece (`Reader.items_cons`), and what is known of every token of a
text: a name is never spelled like a reserved word, and a reserved word is spelled in its one way.
-/

namespace Lox

namespace Reader

theorem next?_nil (line : Nat) :
    (Reader.mk [] line false).next? = some (.token ⟨.eof, "", line⟩, ⟨[], line, true⟩) := by
  rw [next?]
  rfl

theorem next?_ended (line : Nat) : (Reader.mk [] line true).next? = none := by
  rw [next?]
  rfl

theorem next?_cons (c : Char) (cs : List Char) (line : Nat) (ended : Bool) :
    (Reader.mk (c :: cs) line ended).next? =
      match (Cut.ofText c cs).item? (line + (Cut.ofText c cs).text.count '\n') with
      | some item => some (item,
          ⟨(Cut.ofText c cs).rest, line + (Cut.ofText c cs).text.count '\n', ended⟩)
      | none => (Reader.mk (Cut.ofText c cs).rest (line + (Cut.ofText c cs).text.count '\n')
          ended).next? := by
  rw [next?]
  rfl

theorem items_of_next? {r behind : Reader} {item : Token.Item} (h : r.next? = some (item, behind)) :
    r.items = item :: behind.items := by
  rw [items]
  split
  · next h' => rw [h] at h'; cases h'
  · next h' => rw [h] at h'; cases h'; rfl

theorem items_of_next?_none {r : Reader} (h : r.next? = none) : r.items = [] := by
  rw [items]
  split
  · rfl
  · next h' => rw [h] at h'; cases h'

theorem items_nil (line : Nat) :
    (Reader.mk [] line false).items = [.token ⟨.eof, "", line⟩] := by
  rw [items_of_next? (next?_nil line), items_of_next?_none (next?_ended line)]

/-- **The items of a text** are that of its first piece, if it means anything, and those behind
it. -/
theorem items_cons (c : Char) (cs : List Char) (line : Nat) :
    (Reader.mk (c :: cs) line false).items =
      ((Cut.ofText c cs).item? (line + (Cut.ofText c cs).text.count '\n')).toList ++
        (Reader.mk (Cut.ofText c cs).rest (line + (Cut.ofText c cs).text.count '\n')
          false).items := by
  have hnext := next?_cons c cs line false
  cases hitem : (Cut.ofText c cs).item? (line + (Cut.ofText c cs).text.count '\n') with
  | some item =>
    rw [hitem] at hnext
    rw [items_of_next? hnext]
    rfl
  | none =>
    rw [hitem] at hnext
    cases hbehind : (Reader.mk (Cut.ofText c cs).rest
        (line + (Cut.ofText c cs).text.count '\n') false).next? with
    | none => rw [items_of_next?_none (hnext.trans hbehind), items_of_next?_none hbehind]; rfl
    | some found =>
      obtain ⟨item, behind⟩ := found
      rw [items_of_next? (hnext.trans hbehind), items_of_next? hbehind]
      rfl

end Reader

/-! ## Texts without faults -/

theorem Token.tokens_of_items {text : List Char} {ts : List Token}
    (h : items text = ts.map .token) : tokens text = ts ∧ faults text = [] := by
  rw [tokens, faults, h, List.filterMap_map, List.filterMap_map]
  exact ⟨List.filterMap_some, List.filterMap_eq_nil_iff.mpr fun _ _ => rfl⟩

/-! ## Names and reserved words -/

/-- Whether a name is one that a program can give to something of its own. -/
def Plain (name : String) : Prop := name ≠ thisName ∧ name ≠ superName

/-- What a token's kind says of its spelling. -/
def Token.WellSpelled (t : Token) : Prop :=
  (t.kind = .identifier → Plain t.lexeme) ∧ (t.kind = .keyword .this → t.lexeme = thisName)

theorem Token.Kind.ofWord_this : ofWord thisName = .keyword .this := by decide

theorem Token.Kind.ofWord_super : ofWord superName = .keyword .super := by decide

theorem Token.Kind.text_of_ofWord {word : String} {k : Keyword} (h : ofWord word = .keyword k) :
    word = k.text := by
  unfold ofWord at h
  split at h
  · next found hfound =>
    injection h with hk
    have htext := List.find?_some hfound
    rw [hk] at htext
    exact (beq_iff_eq.mp htext).symm
  · cases h

theorem Token.wellSpelled_ofWord (word : String) (line : Nat) :
    Token.WellSpelled ⟨.ofWord word, word, line⟩ := by
  constructor
  · intro (h : Kind.ofWord word = .identifier)
    constructor
    · rintro rfl
      rw [Kind.ofWord_this] at h
      cases h
    · rintro rfl
      rw [Kind.ofWord_super] at h
      cases h
  · exact Kind.text_of_ofWord

theorem Cut.wellSpelled_item? {cut : Cut} {line : Nat} {t : Token}
    (h : cut.item? line = some (.token t)) : t.WellSpelled := by
  unfold Cut.item? at h
  split at h <;> cases h
  case h_7 => exact Token.wellSpelled_ofWord _ _
  all_goals exact ⟨nofun, nofun⟩

theorem Reader.wellSpelled_items : ∀ (text : List Char) (line : Nat) (t : Token),
    .token t ∈ (Reader.mk text line false).items → t.WellSpelled
  | [], line, t, ht => by
    rw [items_nil, List.mem_singleton] at ht
    cases ht
    exact ⟨nofun, nofun⟩
  | c :: cs, line, t, ht => by
    rw [items_cons, List.mem_append, Option.mem_toList] at ht
    rcases ht with ht | ht
    · exact Cut.wellSpelled_item? ht
    · exact wellSpelled_items _ _ t ht
termination_by text => text.length
decreasing_by exact Nat.lt_succ_of_le (Cut.length_rest_le c cs)

/-- **Names are no reserved words**, in any text. -/
theorem Token.wellSpelled_tokens {text : List Char} {t : Token} (h : t ∈ Token.tokens text) :
    t.WellSpelled := by
  obtain ⟨item, hitem, ht⟩ := List.mem_filterMap.mp h
  cases item with
  | token t' =>
    cases ht
    exact Reader.wellSpelled_items text 1 t hitem
  | fault => cases ht

end Lox
