import Lox.Session
import Lox.Report

/-!
# The prompt

Lines are read one by one and run in one session.  Before each line stands the prompt, also before
the end of the input, which is then answered by a newline.  A line that fails is reported, and the
next one is run all the same; only a line that is no text ends the process.  Behind a line whose run
does not end nothing is read.
-/

namespace Lox

namespace Outcome

/-- What is reported of a text: its fault on a line, if it failed. -/
def report : Outcome → String
  | ok | outOfFuel => ""
  | failed diagnostic => diagnostic.text ++ "\n"

/-- The exit code of a process that runs just this text, if the run has come to its end. -/
def status : Outcome → Option Nat
  | ok => some 0
  | failed diagnostic => some diagnostic.exitCode
  | outOfFuel => none

end Outcome

namespace Session

/-- A session without bounds on its output. -/
def fresh (clock : Clock) : Session :=
  .initial .unbounded clock

/-- What a session has written, and the session with all of that taken away. -/
def drain (session : Session) : ByteArray × Session :=
  (session.machine.sink.written,
    { session with
      machine := { session.machine with
        sink := { session.machine.sink with written := .empty } } })

/-- The session with its clock set. -/
def withClock (session : Session) (clock : Clock) : Session :=
  { session with machine := { session.machine with clock } }

end Session

namespace Prompt

/-- What asks for a line. -/
def text : String := "> "

/-- The lines of an input.  Each ends with a newline, which does not belong to it, nor does a
carriage return just before; the last line may lack its newline. -/
def splitLines (bytes : List UInt8) : List (List UInt8) :=
  match bytes with
  | [] => []
  | first :: others =>
    let line := (first :: others).takeWhile (· != 10)
    match _rest : (first :: others).dropWhile (· != 10) with
    | [] => [line]
    | _ :: rest => (if line.getLast? = some 13 then line.dropLast else line) :: splitLines rest
termination_by bytes.length
decreasing_by
  have sum := congrArg List.length
    (List.takeWhile_append_dropWhile (p := (· != 10)) (l := first :: others))
  rw [_rest] at sum
  simp only [List.length_append, List.length_cons] at sum ⊢
  omega

/-- What a line that is no text ends the process with. -/
def notText : Report := .failure "stream did not contain valid UTF-8"

/-- What one line does: what it comes to, its output, and the session behind it; nothing if the line
is no text. -/
def turn? (fuel : Nat) (session : Session) (line : List UInt8) :
    Option (Outcome × ByteArray × Session) :=
  match Utf8.decode line with
  | .error _ => none
  | .ok source =>
    let (outcome, behind) := session.run fuel source
    some (outcome, behind.drain)

/-- Runs lines in order, each with so much fuel. -/
def run (fuel : Nat) (session : Session) : List (List UInt8) → Report
  | [] => .success (text ++ "\n")
  | line :: others =>
    match turn? fuel session line with
    | none => notText.after text.toUTF8 ""
    | some (.outOfFuel, printed, _) => ⟨text.toUTF8 ++ printed, "", none⟩
    | some (outcome, printed, behind) =>
      (run fuel behind others).after (text.toUTF8 ++ printed) outcome.report

end Prompt

end Lox
