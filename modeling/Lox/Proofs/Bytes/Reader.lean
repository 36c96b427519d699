import Lox.Proofs.Bytes.Positions
import Lox.Token.Reader

/-!
# Reading tokens byte by byte

`Scan.next?` reads the next item from the bytes of a text.  It looks at one byte at a time, and a
lexeme is the slice of the bytes between two positions.  Nothing guards these accesses: a byte that
is not there or a slice whose ends are not right is a `Breach`, and so is a loop that goes on for
more rounds than it may.
-/

namespace Lox

/-- What must not happen: an access to a byte that is not there, or to a slice whose ends are out of
order, out of the text or inside a character, and a loop with too many rounds. -/
inductive Breach
  | byte
  | slice
  | rounds
  deriving DecidableEq, Repr

/-- A place in the bytes of a text: where the current lexeme begins, what is read next, and the
line. -/
structure ByteReader where
  start : Nat
  cursor : Nat
  line : Nat
  deriving DecidableEq, Repr

/-- At the beginning of a text. -/
def ByteReader.initial : ByteReader := ⟨0, 0, 1⟩

/-- What reads from the bytes of a text, or comes to a breach. -/
abbrev Scan := StateT ByteReader (Except Breach)

/-- What is found at a place: nothing of meaning, a token, or a fault. -/
inductive Scan.Found
  | nothing
  | token (kind : Token.Kind)
  | fault (fault : Token.Fault)

namespace Scan

open Utf8

variable (bytes : List UInt8)

/-! ## Accesses -/

/-- The byte at the cursor, which is passed. -/
def advance : Scan Char := do
  let r ← get
  if h : r.cursor < bytes.length then
    set { r with cursor := r.cursor + 1 }
    return charOf bytes[r.cursor]
  else throw .byte

/-- The text between two positions. -/
def slice (first last : Nat) : Scan (List Char) := do
  if first ≤ last ∧ last ≤ bytes.length ∧ IsBoundary bytes first ∧ IsBoundary bytes last then
    return decodeLossy ((bytes.take last).drop first)
  else throw .slice

/-- The bytes from a position on. -/
def bytesFrom (first : Nat) : Scan (List UInt8) := do
  if first ≤ bytes.length then return bytes.drop first else throw .slice

/-- A look at the byte so far behind the cursor, which is zero past the end. -/
def look (ahead : Nat) : Scan Char := do
  return charOf (bytes[(← get).cursor + ahead]?.getD 0)

/-- Whether the cursor is at the end. -/
def atEnd : Scan Bool := do
  return bytes.length ≤ (← get).cursor

/-- Passes the next byte if it is this one. -/
def accept (expected : Char) : Scan Bool := do
  if (← look bytes 0) = expected ∧ ¬ (← atEnd bytes) then
    modify fun r => { r with cursor := r.cursor + 1 }
    return true
  else return false

/-- The current lexeme. -/
def lexeme : Scan (List Char) := do
  let r ← get
  slice bytes r.start r.cursor

/-! ## Loops -/

/-- Passes bytes as long as they are of a kind. -/
def passWhile (p : Char → Bool) : Nat → Scan Unit
  | 0 => throw .rounds
  | rounds + 1 => do
    if p (← look bytes 0) then
      let _ ← advance bytes
      passWhile p rounds

/-- Passes bytes up to a quote or the end, and counts the lines. -/
def passString : Nat → Scan Unit
  | 0 => throw .rounds
  | rounds + 1 => do
    if ¬ (← atEnd bytes) ∧ (← look bytes 0) ≠ '"' then
      let c ← advance bytes
      modify fun r => { r with line := r.line + if c = '\n' then 1 else 0 }
      passString rounds

/-! ## Tokens -/

variable (rounds : Nat)

/-- A comment, up to the next newline. -/
def comment : Scan Found := do
  let rest ← bytesFrom bytes (← get).cursor
  modify fun r => { r with
    cursor := (rest.findIdx? (charOf · == '\n')).elim bytes.length (r.cursor + ·) }
  return .nothing

/-- A string, whose opening quote has been read. -/
def string : Scan Found := do
  passString bytes rounds
  if ← atEnd bytes then return .fault .unterminatedString
  else
    let _ ← advance bytes
    let r ← get
    return .token (.string (String.ofList (← slice bytes (r.start + 1) (r.cursor - 1))))

/-- A number, whose first digit has been read. -/
def number : Scan Found := do
  passWhile bytes Char.isDigit rounds
  if (← look bytes 0) = '.' ∧ (← look bytes 1).isDigit then
    let _ ← advance bytes
    passWhile bytes Char.isDigit rounds
  return .token (.number (Number.read (← lexeme bytes)))

/-- A word, whose first letter has been read. -/
def word : Scan Found := do
  passWhile bytes Cut.isWordTail rounds
  return .token (.ofWord (String.ofList (← lexeme bytes)))

/-- A symbol, which has been read, or a longer one. -/
def symbol (s : Symbol) : Scan Found := do
  match s.withEqual? with
  | some longer => return .token (.symbol (if ← accept bytes '=' then longer else s))
  | none => return .token (.symbol s)

/-- What belongs to no class: the whole character, which may have more bytes. -/
def unexpected : Scan Found := do
  let c := (← slice bytes (← get).start bytes.length).headD '\uFFFD'
  modify fun r => { r with cursor := r.start + c.utf8Size }
  return .fault (.unexpectedCharacter c)

/-- What stands at the cursor. -/
def found : Scan Found := do
  let c ← advance bytes
  if Cut.isBlank c then return .nothing
  else if c = '\n' then
    modify fun r => { r with line := r.line + 1 }
    return .nothing
  else if c = '"' then string bytes rounds
  else if c.isDigit then number bytes rounds
  else if Cut.isWordStart c then word bytes rounds
  else match Symbol.ofChar? c with
    | some s =>
      if s = .slash then
        if ← accept bytes '/' then comment bytes else symbol bytes s
      else symbol bytes s
    | none => unexpected bytes

/-- Passes what means nothing, up to the next item, if there is one. -/
def passToItem : Nat → Scan (Option Token.Item)
  | 0 => throw .rounds
  | left + 1 => do
    let r ← get
    if r.cursor ≤ bytes.length then
      if r.cursor = bytes.length then
        set { r with cursor := r.cursor + 1 }
        return some (.token ⟨.eof, "", r.line⟩)
      else
        set { r with start := r.cursor }
        match ← found bytes rounds with
        | .fault fault => return some (.fault (← get).line fault)
        | .token kind => return some (.token ⟨kind, String.ofList (← lexeme bytes), (← get).line⟩)
        | .nothing => passToItem left
    else return none

/-- The next item, if there is one.  No loop on the way may go on for more than so many rounds. -/
def next? : Scan (Option Token.Item) :=
  passToItem bytes rounds rounds

/-- What so many calls yield. -/
def calls : Nat → Scan (List (Option Token.Item))
  | 0 => return []
  | n + 1 => do
    let item? ← next? bytes rounds
    return item? :: (← calls n)

end Scan

end Lox
