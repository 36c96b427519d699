import Lox.Machine.Interpret
import Lox.Token.Reader

/-!
# Sessions

A session runs one program text after the other on the same machine, so that what one declares the
next can use.  A text with a fault of its tokens, its syntax or its names is not run at all, and a
text that fails while it runs leaves the session usable.
-/

namespace Lox

/-- What running a text comes to. -/
inductive Outcome
  | ok
  | failed (diagnostic : Diagnostic)
  | outOfFuel

/-- A machine, and the first node identity that no tree of the session uses. -/
structure Session where
  machine : Machine
  nextId : NodeId

namespace Session

/-- A session before its first text. -/
def initial (sink : Sink) (clock : Clock) : Session :=
  ⟨.initial sink clock, 0⟩

/-- What a run of the machine comes to. -/
def outcomeOf : EStateM.Result Machine.Stop Machine Unit → Outcome × Machine
  | .ok _ m => (.ok, m)
  | .error (.fault fault) m => (.failed fault.diagnostic, m)
  | .error .outOfFuel m => (.outOfFuel, m)

/-- The program that a text spells, and the next unused node identity; or all faults of its tokens
and its syntax, in this order. -/
def programOf (text : List Char) (nextId : NodeId) : Except (List Diagnostic) Program × NodeId :=
  let lexical := Token.faults text
  match Program.ofTokens (Token.tokens text) nextId with
  | (.ok program, nextId) => (if lexical.isEmpty then .ok program else .error lexical, nextId)
  | (.error faults, nextId) => (.error (lexical ++ faults.map Syntax.Fault.diagnostic), nextId)

/-- The program that a text spells and its distances, or its faults. -/
def check (text : List Char) (nextId : NodeId) :
    Except (List Diagnostic) (Program × Distances) × NodeId :=
  match programOf text nextId with
  | (.ok program, nextId) => (program.resolve.map fun distances => (program, distances), nextId)
  | (.error faults, nextId) => (.error faults, nextId)

/-- Runs a text. -/
def run (session : Session) (fuel : Nat) (text : List Char) : Outcome × Session :=
  match check text session.nextId with
  | (.error faults, nextId) => (.failed (.batch faults), { session with nextId })
  | (.ok (program, distances), nextId) =>
    let (outcome, machine) := outcomeOf (Machine.interpret fuel program distances session.machine)
    (outcome, ⟨machine, nextId⟩)

end Session

end Lox
