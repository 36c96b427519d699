import Lox.Session
import Lox.Proofs.Interpret

/-!
# What is written to the sink

A line is written as far as the sink takes it (`Machine.Run.writeLine_eq`).  So what a program of one
print statement comes to is a matter of the sink alone, once its expression has a value
(`Machine.interpret_print`).
-/

namespace Lox.Machine

namespace Run

theorem writeLine_eq (text : String) (m : Machine) :
    writeLine text m =
      (if (m.sink.write (text ++ "\n").toUTF8).2 then EStateM.Result.ok ()
        else EStateM.Result.error (.fault .sinkFull))
        { m with sink := (m.sink.write (text ++ "\n").toUTF8).1 } := by
  show (unless (m.sink.write (text ++ "\n").toUTF8).2 do
    fail .sinkFull : Run Unit) _ = _
  cases (m.sink.write (text ++ "\n").toUTF8).2 <;> rfl

end Run

/-! ## Programs of one print statement -/

open Run

variable {e : Expr} {fuel : Nat} {v : Value} {m m' : Machine}

theorem execute_print (h : evaluate fuel e m = .ok v m') : execute (fuel + 1) (.print e) m =
    (writeLine (m'.heap.display v) >>= fun _ => pure .normal) m' :=
  Steps.bind_of_ok h

theorem runProgram_print (h : evaluate fuel e m = .ok v m') :
    runProgram (fuel + 1) [.print e] m = writeLine (m'.heap.display v) m' := by
  have hprint := execute_print h
  show (execute (fuel + 1) (.print e) >>= fun _ => pure ()) m = _
  cases hwrite : writeLine (m'.heap.display v) m' with
  | ok _ behind =>
    rw [Steps.bind_of_ok (hprint.trans (Steps.bind_of_ok hwrite))]
    rfl
  | error stop behind => rw [Steps.bind_of_error (hprint.trans (Steps.bind_of_error hwrite))]

/-- **A program of one print statement** writes one line, and ends well if the sink takes the line
and can be flushed. -/
theorem interpret_print (h : evaluate fuel e m = .ok v m) :
    let line := (m.heap.display v ++ "\n").toUTF8
    let ends := Session.outcomeOf (interpret (fuel + 1) [.print e] [] m)
    ends.2.sink = (m.sink.write line).1 ∧
      (ends.1 = .ok ↔ (m.sink.write line).2 = true ∧ m.sink.flushFails = false) := by
  intro line ends
  have hwrite := Run.writeLine_eq (m.heap.display v) m
  have hrun := (runProgram_print h).trans hwrite
  cases hfits : (m.sink.write line).2 with
  | false =>
    rw [hfits] at hrun
    have hends : interpret (fuel + 1) [.print e] [] m = .error (.fault .sinkFull) _ :=
      interpret_of_error hrun
    show (Session.outcomeOf (interpret (fuel + 1) [.print e] [] m)).2.sink = _ ∧
      ((Session.outcomeOf (interpret (fuel + 1) [.print e] [] m)).1 = .ok ↔ _)
    rw [hends]
    exact ⟨rfl, nofun, nofun⟩
  | true =>
    rw [hfits] at hrun
    have hends : interpret (fuel + 1) [.print e] [] m =
        flush { m with sink := (m.sink.write line).1 } := interpret_of_ok hrun
    show (Session.outcomeOf (interpret (fuel + 1) [.print e] [] m)).2.sink = _ ∧
      ((Session.outcomeOf (interpret (fuel + 1) [.print e] [] m)).1 = .ok ↔ _)
    -- A write leaves alone whether a flush fails.
    have hfails : (m.sink.write line).1.flushFails = m.sink.flushFails := rfl
    rw [hends, Run.flush_eq, hfails]
    cases m.sink.flushFails with
    | false => exact ⟨rfl, fun _ => ⟨rfl, rfl⟩, fun _ => rfl⟩
    | true => exact ⟨rfl, nofun, nofun⟩

end Lox.Machine
