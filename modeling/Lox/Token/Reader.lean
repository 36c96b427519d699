import Lox.Token.Cut
import Lox.Number.Text
import Lox.Diagnostic

/-!
# Reading tokens

A `Reader` stands somewhere in a text and knows its line.  `Reader.next?` yields the next item, a
token or a fault, and where the reader stands then.  Pieces without meaning are passed over, a fault
costs its own piece and nothing around it, and the last item is a token that marks the end.
`Reader.items` are all items of a text in order.
-/

namespace Lox

/-- What makes a piece of text no token. -/
inductive Token.Fault
  | unexpectedCharacter (c : Char)
  | unterminatedString
  deriving DecidableEq, Repr

/-- What is said of a fault. -/
def Token.Fault.message : Token.Fault → String
  | unexpectedCharacter c => "Unexpected character: " ++ String.ofList [c]
  | unterminatedString => "Unterminated string."

/-- What a reader yields: a token, or a fault with the line on which its text ends. -/
inductive Token.Item
  | token (token : Token)
  | fault (line : Nat) (fault : Token.Fault)
  deriving DecidableEq

namespace Cut

/-- The item for a piece whose text ends on this line, if the piece means anything. -/
def item? (cut : Cut) (line : Nat) : Option Token.Item :=
  let token kind := some (.token ⟨kind, String.ofList cut.text, line⟩)
  match cut.piece with
  | .blank => none
  | .newline => none
  | .comment => none
  | .symbol s => token (.symbol s)
  | .string content => token (.string (String.ofList content))
  | .number => token (.number (Number.read cut.text))
  | .word => token (.ofWord (String.ofList cut.text))
  | .unterminated => some (.fault line .unterminatedString)
  | .illegal c => some (.fault line (.unexpectedCharacter c))

end Cut

/-- A place in a text: what is left of it, the line of the place, and whether the end has been
announced. -/
structure Reader where
  rest : List Char
  line : Nat
  ended : Bool
  deriving DecidableEq, Repr

namespace Reader

/-- At the beginning of a text. -/
def ofText (text : List Char) : Reader :=
  ⟨text, 1, false⟩

/-- The place behind a piece. -/
def past (r : Reader) (cut : Cut) : Reader :=
  { r with rest := cut.rest, line := r.line + cut.text.count '\n' }

/-- The next item and the place behind it; nothing once the end has been announced. -/
def next? (r : Reader) : Option (Token.Item × Reader) :=
  match _rest : r.rest with
  | [] =>
    if r.ended then none else some (.token ⟨.eof, "", r.line⟩, { r with ended := true })
  | c :: cs =>
    let cut := Cut.ofText c cs
    let behind := r.past cut
    match cut.item? behind.line with
    | some item => some (item, behind)
    | none => next? behind
termination_by r.rest.length
decreasing_by
  rw [_rest]
  exact Nat.lt_succ_of_le (Cut.length_rest_le c cs)

/-- How many items a reader can yield at most: one for each character, and the end. -/
def bound (r : Reader) : Nat :=
  r.rest.length + if r.ended then 0 else 1

/-- **Every item is progress:** the reader behind it can yield fewer. -/
theorem bound_lt_of_next? {r behind : Reader} {item : Token.Item}
    (h : r.next? = some (item, behind)) : behind.bound < r.bound := by
  fun_induction next? r with
  | case1 => simp at h
  | case2 r hr hended =>
    obtain ⟨-, rfl⟩ := by simpa using h
    simp_all [bound]
  | case3 r c cs hr cut next found hitem =>
    obtain ⟨-, rfl⟩ := by simpa using h
    have := Cut.length_rest_le c cs
    simp only [bound, past, hr, List.length_cons, next, cut]
    omega
  | case4 r c cs hr cut next hitem ih =>
    have shorter := ih h
    have := Cut.length_rest_le c cs
    simp only [bound, past, hr, List.length_cons, next, cut] at shorter ⊢
    omega

/-- All items from a place on. -/
def items (r : Reader) : List Token.Item :=
  match _next : r.next? with
  | none => []
  | some (item, behind) => item :: items behind
termination_by r.bound
decreasing_by exact bound_lt_of_next? _next

/-- Where a reader stands when it has nothing more to yield. -/
def final (r : Reader) : Reader :=
  match _next : r.next? with
  | none => r
  | some (_, behind) => final behind
termination_by r.bound
decreasing_by exact bound_lt_of_next? _next

end Reader

namespace Token

/-- The items of a text. -/
def items (text : List Char) : List Item :=
  (Reader.ofText text).items

/-- The token of an item. -/
def Item.token? : Item → Option Token
  | token t => some t
  | fault _ _ => none

/-- The fault of an item, as a diagnostic. -/
def Item.diagnostic? : Item → Option Diagnostic
  | token _ => none
  | fault line f => some (.lex line f.message)

/-- The tokens of a text. -/
def tokens (text : List Char) : List Token :=
  (items text).filterMap Item.token?

/-- The faults of a text. -/
def faults (text : List Char) : List Diagnostic :=
  (items text).filterMap Item.diagnostic?

end Token

end Lox
