import Lox.Proofs.Joining.Moved
import Lox.Proofs.Scanning.Separators

/-!
# Tokens of joined texts

A newline ends every piece but an open string, so behind a text without faults and a newline, another
text is cut as it is on its own (`Reader.items_append`); only its lines are later
(`Reader.items_moved`).
-/

namespace Lox

/-! ## Items -/

/-- The item on a later line. -/
def Token.Item.moved (shift : Shift) : Token.Item → Token.Item
  | token t => token (t.moved shift)
  | fault line f => fault (line + shift.lines) f

namespace Cut

theorem item?_moved (cut : Cut) (line : Nat) (shift : Shift) :
    cut.item? (line + shift.lines) = (cut.item? line).map (Token.Item.moved shift) := by
  unfold item?
  cases cut.piece <;> rfl

end Cut

namespace Reader

/-- **Later lines** are the only thing that a place in a text has to do with its items. -/
theorem items_moved (shift : Shift) : ∀ (text : List Char) (line : Nat),
    (Reader.mk text (line + shift.lines) false).items =
      (Reader.mk text line false).items.map (Token.Item.moved shift)
  | [], line => by
    rw [items_nil, items_nil]
    rfl
  | c :: cs, line => by
    have hline : line + shift.lines + (Cut.ofText c cs).text.count '\n' =
        line + (Cut.ofText c cs).text.count '\n' + shift.lines := by omega
    rw [items_cons, items_cons, hline, Cut.item?_moved, items_moved shift _ _, List.map_append]
    congr 1
    cases (Cut.ofText c cs).item? (line + (Cut.ofText c cs).text.count '\n') <;> rfl
termination_by text => text.length
decreasing_by exact Nat.lt_succ_of_le (Cut.length_rest_le c cs)

theorem items_newline (more : List Char) (line : Nat) :
    (Reader.mk ('\n' :: more) line false).items = (Reader.mk more (line + 1) false).items := by
  rw [items_cons]
  rfl

/-- **The items of joined texts:** behind a text without an open string and a newline, the items of
another text follow in place of the end marker. -/
theorem items_append (more text : List Char) (line : Nat)
    (h : ∀ l, .fault l .unterminatedString ∉ (Reader.mk text line false).items) :
    ∃ front last, (Reader.mk text line false).items = front ++ [.token last] ∧ last.kind = .eof ∧
      (∀ t, .token t ∈ front → t.kind ≠ .eof) ∧
      (Reader.mk (text ++ '\n' :: more) line false).items =
        front ++ (Reader.mk more (line + (text.count '\n' + 1)) false).items := by
  have hclosed : TextEnd.of text ≠ .string := fun hopen =>
    have ⟨l, hl⟩ := exists_unterminated text line hopen
    h l hl
  obtain ⟨front, hfront, hkinds, hjoined⟩ :=
    items_separator .newline more text line hclosed (.inl rfl)
  rw [items_newline] at hjoined
  exact ⟨front, _, hfront, rfl, hkinds, hjoined⟩

end Reader

end Lox
