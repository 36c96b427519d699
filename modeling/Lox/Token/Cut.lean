import Lox.Token.Basic

/-!
# The front of a text

`Cut.ofText c cs` cuts the text `c :: cs` in two: the longest piece of one of the lexical classes,
and what comes after it.  Nothing is lost (`Cut.text_append_rest`), and a piece is never empty
(`Cut.text_ne_nil`), so cutting again and again comes to an end (`Cut.length_rest_le`).
-/

namespace Lox

/-- The lexical classes.  Blanks, newlines and comments mean nothing; an `unterminated` string runs
to the end of the text; an `illegal` character belongs to no class. -/
inductive Piece
  | blank
  | newline
  | comment
  | symbol (symbol : Symbol)
  | string (content : List Char)
  | number
  | word
  | unterminated
  | illegal (c : Char)
  deriving DecidableEq, Repr

/-- A text cut into its first piece and the rest. -/
structure Cut where
  piece : Piece
  text : List Char
  rest : List Char
  deriving DecidableEq, Repr

namespace Cut

/-- Characters that separate words and mean nothing. -/
def isBlank (c : Char) : Bool :=
  c == ' ' || c == '\t' || c == '\r'

/-- Characters that begin a word. -/
def isWordStart (c : Char) : Bool :=
  c.isAlpha || c == '_'

/-- Characters that continue a word. -/
def isWordTail (c : Char) : Bool :=
  c.isAlphanum || c == '_'

/-- A comment begun by `c`: all that comes before the next newline. -/
def comment (c : Char) (cs : List Char) : Cut :=
  ⟨.comment, c :: cs.takeWhile (· != '\n'), cs.dropWhile (· != '\n')⟩

/-- A string opened by `c`: all up to the next quote, or to the end if there is none. -/
def string (c : Char) (cs : List Char) : Cut :=
  match cs.dropWhile (· != '"') with
  | [] => ⟨.unterminated, c :: cs, []⟩
  | quote :: rest =>
    let content := cs.takeWhile (· != '"')
    ⟨.string content, c :: content ++ [quote], rest⟩

/-- A number begun by the digit `c`: more digits, and a point if a digit follows it. -/
def number (c : Char) (cs : List Char) : Cut :=
  let whole := cs.takeWhile Char.isDigit
  match cs.dropWhile Char.isDigit with
  | '.' :: d :: rest =>
    if d.isDigit then
      ⟨.number, c :: whole ++ '.' :: d :: rest.takeWhile Char.isDigit, rest.dropWhile Char.isDigit⟩
    else ⟨.number, c :: whole, '.' :: d :: rest⟩
  | rest => ⟨.number, c :: whole, rest⟩

/-- A word begun by `c`. -/
def word (c : Char) (cs : List Char) : Cut :=
  ⟨.word, c :: cs.takeWhile isWordTail, cs.dropWhile isWordTail⟩

/-- A symbol begun by `c`, of two characters if these spell one. -/
def symbol (c : Char) (s : Symbol) (cs : List Char) : Cut :=
  match cs, s.withEqual? with
  | '=' :: rest, some longer => ⟨.symbol longer, [c, '='], rest⟩
  | rest, _ => ⟨.symbol s, [c], rest⟩

/-- The text `c :: cs` cut behind its first piece. -/
def ofText (c : Char) (cs : List Char) : Cut :=
  if isBlank c then ⟨.blank, [c], cs⟩
  else if c = '\n' then ⟨.newline, [c], cs⟩
  else if c = '"' then string c cs
  else if c.isDigit then number c cs
  else if isWordStart c then word c cs
  else if c = '/' ∧ cs.head? = some '/' then comment c cs
  else match Symbol.ofChar? c with
    | some s => symbol c s cs
    | none => ⟨.illegal c, [c], cs⟩

/-! ## Nothing is lost -/

theorem text_append_rest_string (c : Char) (cs : List Char) :
    (string c cs).text ++ (string c cs).rest = c :: cs := by
  unfold string
  split
  · simp
  · next quote rest h =>
    have := List.takeWhile_append_dropWhile (p := (· != '"')) (l := cs)
    rw [h] at this
    simp [this]

theorem text_append_rest_number (c : Char) (cs : List Char) :
    (number c cs).text ++ (number c cs).rest = c :: cs := by
  have whole := List.takeWhile_append_dropWhile (p := Char.isDigit) (l := cs)
  unfold number
  dsimp only
  split
  · next d rest h =>
    rw [h] at whole
    split
    · have := List.takeWhile_append_dropWhile (p := Char.isDigit) (l := rest)
      simp [this, whole]
    · simp [whole]
  · simp [whole]

theorem text_append_rest_symbol (c : Char) (s : Symbol) (cs : List Char) :
    (symbol c s cs).text ++ (symbol c s cs).rest = c :: cs := by
  unfold symbol
  split <;> simp

/-- **Nothing is lost:** the piece and the rest make up the text. -/
theorem text_append_rest (c : Char) (cs : List Char) :
    (ofText c cs).text ++ (ofText c cs).rest = c :: cs := by
  unfold ofText
  split
  · rfl
  split
  · rfl
  split
  · exact text_append_rest_string c cs
  split
  · exact text_append_rest_number c cs
  split
  · simp [word]
  split
  · simp [comment]
  split
  · exact text_append_rest_symbol c _ cs
  · rfl

/-- **A piece is never empty:** it begins with the first character of the text. -/
theorem head?_text (c : Char) (cs : List Char) : (ofText c cs).text.head? = some c := by
  unfold ofText string number symbol word comment
  repeat' split
  all_goals rfl

theorem text_ne_nil (c : Char) (cs : List Char) : (ofText c cs).text ≠ [] := by
  intro h
  simpa [h] using head?_text c cs

theorem length_rest_le (c : Char) (cs : List Char) : (ofText c cs).rest.length ≤ cs.length := by
  have sum := congrArg List.length (text_append_rest c cs)
  have positive := List.length_pos_iff.2 (text_ne_nil c cs)
  simp only [List.length_append, List.length_cons] at sum
  omega

end Cut

end Lox
