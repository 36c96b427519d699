import Lox.Proofs.Lexical.Sessions

/-!
# Counting loops run directly

The parser builds a counting loop from a loop with a condition alone, and from blocks.  Here is the
rule that such a loop stands for, as a way of running programs by lexical scoping: wherever a tree is
read as a counting loop (`Reading`), its parts are run by `Loop.run`, and its blocks are not looked
at.  The initializer opens the loop's scope, in which condition, body and increment are run round
after round; what the body declares in its own blocks is gone before the increment comes.

Fuel bounds how deep a part stands in the tree, so a part of a loop is run with as much of it as the
depth of the part leaves.
-/

namespace Lox

/-- Whether a statement declares nothing in the scope around it, and neither do the statements that it
chooses from or repeats. -/
def Stmt.isStatement : Stmt → Bool
  | .var _ _ | .function _ | .classDecl _ _ _ => false
  | .ifElse _ thenBranch none => thenBranch.isStatement
  | .ifElse _ thenBranch (some elseBranch) => thenBranch.isStatement && elseBranch.isStatement
  | .whileDo _ body => body.isStatement
  | .expr _ | .print _ | .block _ | .ret _ _ => true

/-- A counting loop, whose clauses may be absent. -/
structure Loop where
  initializer : Option Stmt
  condition : Option Expr
  increment : Option Expr
  body : Stmt
  isStatement : body.isStatement = true

/-- The tree that the parser builds. -/
def Loop.tree (loop : Loop) : Stmt :=
  .forLoop loop.initializer loop.condition loop.increment loop.body

/-- Which trees are read as counting loops. -/
structure Reading where
  loop? : Stmt → Option Loop
  tree_eq : ∀ s loop, loop? s = some loop → loop.tree = s

namespace Lexical

/-- What evaluates expressions and runs statements. -/
structure Steps where
  evaluate : Env → Option String → Expr → Run Value
  execute : Env → Stmt → Run (Machine.Flow × Env)

/-! ## Loops -/

/-- Whether the condition of a loop holds.  An absent one does. -/
def conditionHolds (steps : Steps) (scope : Env) : Option Expr → Run Bool
  | none => return true
  | some condition => return (← steps.evaluate scope none condition).isTruthy

/-- Evaluates the increment of a loop, if there is one. -/
def increment (steps : Steps) (scope : Env) : Option Expr → Run Unit
  | none => return ()
  | some step => do
    let _ ← steps.evaluate scope none step

/-- How deep the body of a loop stands in its tree, and the increment one deeper. -/
def bodyDepth (loop : Loop) : Nat :=
  if loop.increment.isSome then 1 else 0

/-- **Round after round** while the condition holds, for at most so many rounds: the body and then the
increment.  A return in the body leaves the loop at once. -/
def rounds (less : Nat → Steps) (scope : Env) (loop : Loop) : Nat → Run Machine.Flow
  | 0 => outOfFuel
  | left + 1 => do
    if ← conditionHolds (less 0) scope loop.condition then
      let (flow, _) ← (less (bodyDepth loop)).execute scope loop.body
      match flow with
      | .normal => do
        increment (less (bodyDepth loop + 1)) scope loop.increment
        rounds less scope loop left
      | .returned value => return .returned value
    else return .normal

/-- **Runs a loop.**  An initializer opens a scope for the loop and is run there.  The names of the
scope are gone behind the loop. -/
def runLoop (fuel : Nat) (less : Nat → Steps) (env : Env) (loop : Loop) :
    Run (Machine.Flow × Env) := do
  match loop.initializer with
  | none => do
    let flow ← rounds less env loop fuel
    return (flow, env)
  | some first => do
    let (flow, scope) ← (less 0).execute env.inside first
    match flow with
    | .normal => do
      let flow ← rounds (fun depth => less (depth + 1)) scope loop (fuel - 1)
      return (flow, env)
    | .returned value => return (.returned value, env)

/-! ## Programs -/

namespace Direct

/-- Takes one step into a tree.  Loops are run directly, everything else as by lexical scoping. -/
def stepsWith (reading : Reading) (strict : Bool) (fuel : Nat) (less : Nat → Steps) : Steps where
  evaluate env own e := evaluateWith ((less 0).evaluate env own) (less 0).execute env own e
  execute env s :=
    match reading.loop? s with
    | some loop => runLoop fuel less env loop
    | none => executeWith strict (less 0).evaluate (less 0).execute fuel env s

/-- How parts of a tree are run so deep in it, with so much fuel for the tree. -/
def steps (reading : Reading) (strict : Bool) : (fuel depth : Nat) → Steps
  | 0, _ => ⟨fun _ _ _ => outOfFuel, fun _ _ => outOfFuel⟩
  | fuel + 1, 0 => stepsWith reading strict fuel (steps reading strict fuel)
  | fuel + 1, depth + 1 => steps reading strict fuel depth

/-- Runs the statements of a program. -/
def runProgram (reading : Reading) (strict : Bool) (fuel : Nat) : Program → Run Unit
  | [] => return ()
  | first :: others => do
    let _ ← (steps reading strict fuel 0).execute .global first
    runProgram reading strict fuel others

/-- Runs a program, and flushes the sink behind it. -/
def interpret (reading : Reading) (strict : Bool) (fuel : Nat) (program : Program) : Run Unit := do
  runProgram reading strict fuel program
  flush

/-- Runs a text if it is accepted. -/
def run (reading : Reading) (strict : Bool) (session : Session) (fuel : Nat) (text : List Char) :
    Except String Outcome × Session :=
  match Lox.Session.check text session.nextId with
  | (.error faults, nextId) => (.ok (.failed (.batch faults)), { session with nextId })
  | (.ok (program, _), nextId) =>
    let (outcome, state) :=
      Session.outcomeOf (interpret reading strict fuel program session.state)
    (outcome, ⟨state, nextId⟩)

/-- The session behind texts that are run one after the other, each with so much fuel. -/
def after (reading : Reading) (strict : Bool) (session : Session)
    (texts : List (Nat × List Char)) : Session :=
  texts.foldl (fun session entry => (run reading strict session entry.1 entry.2).2) session

end Direct

end Lexical

end Lox
