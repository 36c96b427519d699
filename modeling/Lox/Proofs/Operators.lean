import Lox.Machine.Operators

/-!
# What operators come to

Operators make data, which nobody can call and which has no properties; and where they fail, the
mistake is one about their operands, at their own line.
-/

namespace Lox.Machine

/-- **What an operator on a line comes to.** -/
inductive Computed (line : Nat) : Except Fault Value → Prop
  | bool (value : Bool) : Computed line (.ok (.bool value))
  | number (value : Float) : Computed line (.ok (.number value))
  | string (value : String) : Computed line (.ok (.string value))
  | operandNotNumber : Computed line (.error (.operandNotNumber line))
  | operandsNotNumbers : Computed line (.error (.operandsNotNumbers line))
  | operandsNotAddable : Computed line (.error (.operandsNotAddable line))

theorem computed_applyUnary (op : UnaryOp) (line : Nat) (operand : Value) :
    Computed line (applyUnary op line operand) := by
  cases op with
  | not => exact .bool _
  | negate =>
    cases operand with
    | number x => exact .number (-x)
    | _ => exact .operandNotNumber

theorem computed_onNumbers (line : Nat) (left right : Value) {f : Float → Float → Value}
    (hf : ∀ x y, Computed line (.ok (f x y))) : Computed line (onNumbers line left right f) := by
  unfold onNumbers
  split
  · exact hf _ _
  · exact .operandsNotNumbers

theorem computed_addValues (line : Nat) (left right : Value) :
    Computed line (addValues line left right) := by
  unfold addValues
  split
  · exact .number _
  · exact .string _
  · exact .operandsNotAddable

theorem computed_applyBinary (op : BinaryOp) (line : Nat) (left right : Value) :
    Computed line (applyBinary op line left right) := by
  cases op with
  | equal | notEqual => exact .bool _
  | add => exact computed_addValues line left right
  | subtract | multiply | divide => exact computed_onNumbers line left right fun _ _ => .number _
  | greater | greaterEqual | less | lessEqual =>
    exact computed_onNumbers line left right fun _ _ => .bool _

end Lox.Machine
