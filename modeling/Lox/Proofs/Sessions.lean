import Lox.Proofs.Scoping.Check

/-!
# Texts one after the other

A session is what is left behind by the texts that were run in it (`Session.after`).  Behind any
texts the machine has distances only of identities that were given out, and the outermost frame is
the current one.
-/

namespace Lox

/-- Whether a run came to a fault of the machine itself. -/
def Outcome.IsInternal (outcome : Outcome) : Prop :=
  ∃ message, outcome = .failed (.internal message)

instance (outcome : Outcome) : Decidable outcome.IsInternal :=
  match outcome with
  | .failed (.internal message) => .isTrue ⟨message, rfl⟩
  | .ok | .outOfFuel | .failed (.lex ..) | .failed (.parse ..) | .failed (.resolve ..)
  | .failed (.batch _) | .failed (.runtime ..) | .failed (.io _) | .failed (.utf8 _) =>
    .isFalse nofun

namespace Session

/-- The session behind texts that are run one after the other, each with so much fuel. -/
def after (session : Session) (texts : List (Nat × List Char)) : Session :=
  texts.foldl (fun session entry => (session.run entry.1 entry.2).2) session

/-- What texts come to that are run one after the other. -/
def outcomes (session : Session) : List (Nat × List Char) → List Outcome
  | [] => []
  | (fuel, text) :: texts => (session.run fuel text).1 :: (session.run fuel text).2.outcomes texts

theorem run_of_error {session : Session} {fuel : Nat} {text : List Char}
    {faults : List Diagnostic} {nextId : NodeId}
    (h : check text session.nextId = (.error faults, nextId)) :
    session.run fuel text = (.failed (.batch faults), { session with nextId }) := by
  rw [run, h]

theorem run_of_ok {session : Session} {fuel : Nat} {text : List Char} {program : Program}
    {distances : Distances} {nextId : NodeId}
    (h : check text session.nextId = (.ok (program, distances), nextId)) :
    session.run fuel text =
      ((outcomeOf (Machine.interpret fuel program distances session.machine)).1,
        ⟨(outcomeOf (Machine.interpret fuel program distances session.machine)).2, nextId⟩) := by
  rw [run, h]

end Session

end Lox
