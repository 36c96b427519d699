import Lox.Syntax.Grammar.Stmt

/-!
# Programs from tokens

`Program.ofTokens` reads declarations up to the end of the tokens.  A declaration that stops at a
fault is given up: the fault is reported, the tokens up to the next statement boundary are passed,
and reading goes on there, so one pass reports every fault.  Only without any report are the
statements a program.
-/

namespace Lox

/-- A program: its statements in order. -/
abbrev Program := List Stmt

namespace Program

open Syntax

/-- The statements from a cursor on, and the cursor at the end.  Each of the `rounds` reads or gives
up one declaration, with `fuel` for its nesting. -/
def declarations (fuel : Nat) : (rounds : Nat) → Cursor → List Stmt × Cursor
  | 0, c => ([], c)
  | rounds + 1, c =>
    if c.rest.isEmpty then ([], c)
    else match Rule.declaration fuel c with
      | .ok first behind =>
        let (others, final) := declarations fuel rounds behind
        (first :: others, final)
      | .error (.fault fault) behind => declarations fuel rounds (behind.report fault).recover
      | .error .outOfFuel behind => ([], behind)

/-- What reading a list of tokens comes to, and the next unused node identity.  Every declaration
reads or passes a token, so there are no more rounds than tokens; a token adds at most one level of
nesting, and an expression statement has three levels of its own. -/
def ofTokens (tokens : List Token) (nextId : NodeId) :
    Except (List Fault) Program × NodeId :=
  let start := Cursor.ofTokens tokens nextId
  let count := start.rest.length
  let (statements, final) := declarations (count + 4) (count + 1) start
  (if final.reports.isEmpty then .ok statements else .error final.reports, final.nextId)

end Program

end Lox
