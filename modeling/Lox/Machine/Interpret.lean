import Lox.Machine.Evaluate

/-!
# Running programs

`interpret` adds the distances of a program to the machine's and runs its statements in order.
Behind a program the sink is flushed.  If the program ran to its end, the caller learns whether that
fails; otherwise the fault that ended it is what the caller learns.
-/

namespace Lox.Machine

open Run

/-- Fuel for programs that are run for their effects: no program that ends in practice takes as many
steps. -/
def ampleFuel : Nat := Nat.pow 2 60

/-- Runs the statements of a program.  A return on the outermost level ends its own statement
only. -/
def runProgram (fuel : Nat) : Program → Run Unit
  | [] => return ()
  | first :: others => do
    let _ ← execute fuel first
    runProgram fuel others

/-- Adds the distances of one more program. -/
def addDistances (distances : Distances) : Run Unit :=
  modify fun m => { m with distances := m.distances.merge distances }

/-- Runs what follows; if it stops, the current frame is the outermost one again. -/
def backToGlobals (inner : Run Unit) : Run Unit := fun m =>
  match inner m with
  | .ok a m => .ok a m
  | .error stop m => .error stop { m with environment := m.globals }

/-- Runs what follows, and flushes the sink if it stops; whether that fails makes no difference. -/
def flushOnStop (inner : Run Unit) : Run Unit := fun m =>
  match inner m with
  | .ok a m => .ok a m
  | .error stop m => .error stop { m with flushes := m.flushes + 1 }

/-- Runs a program with the distances of its references. -/
def interpret (fuel : Nat) (program : Program) (distances : Distances) : Run Unit := do
  addDistances distances
  flushOnStop (backToGlobals (runProgram fuel program))
  flush

/-- Runs statements as a block whose frame lies inside the outermost one and binds these names to
begin with. -/
def interpretBlock (fuel : Nat) (bindings : Table Value) (body : List Stmt) : Run Flow := do
  let globals := (← get).globals
  let frame ← allocate (·.newFrame (some globals) bindings)
  withFrame frame (runAll (execute fuel) body)

end Lox.Machine
