import Lox.Syntax.Basic
import Lox.Diagnostic

/-!
# Faults of a running program

Each cause names what the user has to know.  The first ten are mistakes of the program, the next
five can only come from distances that do not fit the program, and the last two from the sink.
-/

namespace Lox.Machine

/-- Why a running program fails. -/
inductive Fault
  | undefinedVariable (name : Name)
  | undefinedProperty (name : Name)
  | superclassNotClass (line : Nat)
  | operandNotNumber (line : Nat)
  | operandsNotNumbers (line : Nat)
  | operandsNotAddable (line : Nat)
  | notCallable (line : Nat)
  | argumentCount (line expected given : Nat)
  | noProperties (line : Nat)
  | noFields (line : Nat)
  | unbound (name : String) (stepsLeft : Nat)
  | unresolved (name : Name)
  | superNotClass (typeName : String)
  | superWithoutReceiver
  | receiverNotInstance (typeName : String)
  | sinkFull
  | sinkClosed
  deriving DecidableEq, Repr

/-- A fault as the user sees it. -/
def Fault.diagnostic : Fault → Diagnostic
  | undefinedVariable name => .runtime name.line s!"Undefined variable '{name.text}'."
  | undefinedProperty name => .runtime name.line s!"Undefined property '{name.text}'."
  | superclassNotClass line => .runtime line "Superclass must be a class."
  | operandNotNumber line => .runtime line "Operand must be a number."
  | operandsNotNumbers line => .runtime line "Operands must be numbers."
  | operandsNotAddable line => .runtime line "Operands must be two numbers or two strings."
  | notCallable line => .runtime line "Can only call functions and classes."
  | argumentCount line expected given =>
    .runtime line s!"Expected {expected} arguments but got {given}."
  | noProperties line => .runtime line "Only instances have properties."
  | noFields line => .runtime line "Only instances have fields."
  | unbound name stepsLeft =>
    .internal s!"'{name}' is not bound {stepsLeft} frame(s) out from the current scope"
  | unresolved name => .internal s!"'{name.text}' on line {name.line} was never resolved"
  | superNotClass typeName => .internal s!"'super' is bound to a {typeName}"
  | superWithoutReceiver => .internal "'super' resolved at distance 0"
  | receiverNotInstance typeName => .internal s!"'this' is bound to a {typeName}"
  | sinkFull => .io "sink full"
  | sinkClosed => .io "sink closed"

end Lox.Machine
