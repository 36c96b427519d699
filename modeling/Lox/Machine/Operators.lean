import Lox.Machine.Fault
import Lox.Store.Value

/-!
# Operators

What operators make of the values of their operands.  Numbers and texts are never converted into
each other.
-/

namespace Lox.Machine

/-- What a unary operator makes of a value. -/
def applyUnary (op : UnaryOp) (line : Nat) (operand : Value) : Except Fault Value :=
  match op with
  | .not => .ok (.bool !operand.isTruthy)
  | .negate =>
    match operand with
    | .number x => .ok (.number (-x))
    | _ => .error (.operandNotNumber line)

/-- What a function of two numbers makes of two values. -/
def onNumbers (line : Nat) (left right : Value) (f : Float → Float → Value) :
    Except Fault Value :=
  match left, right with
  | .number x, .number y => .ok (f x y)
  | _, _ => .error (.operandsNotNumbers line)

/-- The sum of two numbers, or two texts one after the other. -/
def addValues (line : Nat) (left right : Value) : Except Fault Value :=
  match left, right with
  | .number x, .number y => .ok (.number (x + y))
  | .string s, .string t => .ok (.string (s ++ t))
  | _, _ => .error (.operandsNotAddable line)

/-- What a binary operator makes of two values. -/
def applyBinary (op : BinaryOp) (line : Nat) (left right : Value) : Except Fault Value :=
  match op with
  | .equal => .ok (.bool (left.same right))
  | .notEqual => .ok (.bool !(left.same right))
  | .add => addValues line left right
  | .subtract => onNumbers line left right fun x y => .number (x - y)
  | .multiply => onNumbers line left right fun x y => .number (x * y)
  | .divide => onNumbers line left right fun x y => .number (x / y)
  | .greater => onNumbers line left right fun x y => .bool (x > y)
  | .greaterEqual => onNumbers line left right fun x y => .bool (x ≥ y)
  | .less => onNumbers line left right fun x y => .bool (x < y)
  | .lessEqual => onNumbers line left right fun x y => .bool (x ≤ y)

/-- Whether a logical operator leaves out its second operand behind this value of the first. -/
def settles (op : LogicalOp) (left : Value) : Bool :=
  match op with
  | .or => left.isTruthy
  | .and => !left.isTruthy

end Lox.Machine
