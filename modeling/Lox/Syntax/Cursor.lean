import Lox.Syntax.Fault

/-!
# A place in a list of tokens

A `Cursor` holds the tokens that are still to be read and the end marker behind them, the next
unused node identity, and the faults reported so far.  A `Rule` reads some tokens and builds
something from them.  It can *report* a fault and go on, or *stop* at a fault, which leaves the
rest to whoever recovers from it.
-/

namespace Lox.Syntax

/-- A place in a list of tokens.  No token of `rest` marks the end; `last` does. -/
structure Cursor where
  rest : List Token
  last : Token
  nextId : NodeId
  reports : List Fault

/-- Why a rule stops: at a fault, or because the bound on its recursion was too low. -/
inductive Stop
  | fault (fault : Fault)
  | outOfFuel
  deriving DecidableEq

/-- What reads tokens from a cursor. -/
abbrev Rule := EStateM Stop Cursor

namespace Cursor

/-- The end marker of a list that has none. -/
def implicitEnd : Token := ⟨.eof, "", 0⟩

/-- At the beginning of a list of tokens, which is read up to its first end marker. -/
def ofTokens (tokens : List Token) (nextId : NodeId) : Cursor where
  rest := tokens.takeWhile (·.kind != .eof)
  last := (tokens.dropWhile (·.kind != .eof)).headD implicitEnd
  nextId := nextId
  reports := []

/-- The token to be read next. -/
def peek (c : Cursor) : Token :=
  c.rest.headD c.last

/-- Behind the next token. -/
def advance (c : Cursor) : Cursor :=
  { c with rest := c.rest.tail }

/-- With one more report. -/
def report (c : Cursor) (fault : Fault) : Cursor :=
  { c with reports := c.reports ++ [fault] }

/-- The keywords that begin a statement, so that reading can go on before them. -/
def beginsStatement : Token.Kind → Bool
  | .keyword .cls => true
  | .keyword .fun => true
  | .keyword .var => true
  | .keyword .for => true
  | .keyword .if => true
  | .keyword .while => true
  | .keyword .print => true
  | .keyword .return => true
  | _ => false

/-- The tokens from the first statement boundary on, if `before` was just passed: behind a
semicolon, or before a keyword that begins a statement. -/
def boundary (before : Token) : List Token → List Token
  | [] => []
  | token :: rest =>
    if before.kind = .symbol .semicolon ∨ beginsStatement token.kind then token :: rest
    else boundary token rest

/-- Recovery after a fault: passes one token and goes on to the next statement boundary. -/
def recover (c : Cursor) : Cursor :=
  match c.rest with
  | [] => c
  | token :: rest => { c with rest := boundary token rest }

end Cursor

namespace Rule

/-- The token to be read next. -/
def peek : Rule Token :=
  return (← get).peek

/-- Passes the next token. -/
def advance : Rule Unit :=
  modify Cursor.advance

/-- Stops because the bound on the recursion was too low. -/
def outOfFuel {α : Type} : Rule α :=
  throw .outOfFuel

/-- Stops at the next token. -/
def fail {α : Type} (cause : Cause) : Rule α := do
  throw (.fault ⟨← peek, cause⟩)

/-- Reports a fault and goes on. -/
def report (token : Token) (cause : Cause) : Rule Unit :=
  modify (·.report ⟨token, cause⟩)

/-- Reads the next token if it is of this kind. -/
def accept? (kind : Token.Kind) : Rule (Option Token) := do
  let token ← peek
  if token.kind = kind then
    advance
    return some token
  else return none

/-- Reads a token of this kind, or stops. -/
def expect (kind : Token.Kind) (cause : Cause) : Rule Token := do
  match ← accept? kind with
  | some token => return token
  | none => fail cause

/-- Reads a name, or stops. -/
def expectName (cause : Cause) : Rule Name := do
  let token ← expect .identifier cause
  return ⟨token.lexeme, token.line⟩

/-- A new reference. -/
def reference (name : Name) : Rule Reference := fun c =>
  .ok ⟨c.nextId, name⟩ { c with nextId := c.nextId + 1 }

/-- The most arguments of a call, and parameters of a function. -/
def maxArguments : Nat := 255

/-- Reports at the next token if there are as many items before it as there may be. -/
def limit (count : Nat) (cause : Cause) : Rule Unit := do
  if maxArguments ≤ count then report (← peek) cause

/-- A list of items, which is empty if the next token is of this kind. -/
def listUnless {α : Type} (stop : Token.Kind) (items : Rule (List α)) : Rule (List α) := do
  if (← peek).kind = stop then return [] else items

end Rule

end Lox.Syntax
