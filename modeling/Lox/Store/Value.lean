import Lox.Syntax.Basic

/-!
# Values

A value is a number, a text, a truth value or nothing, or it stands for an object of the store.  Of
an object a value holds only the identity, so two values are the same object exactly if they hold
the same identity, and what the object holds can change behind them.
-/

namespace Lox

/-- The identity of a frame. -/
structure FrameId where
  index : Nat
  deriving DecidableEq, Inhabited, Repr

/-- The identity of a function. -/
structure FunctionId where
  index : Nat
  deriving DecidableEq, Inhabited, Repr

/-- The identity of a class. -/
structure ClassId where
  index : Nat
  deriving DecidableEq, Inhabited, Repr

/-- The identity of an instance. -/
structure InstanceId where
  index : Nat
  deriving DecidableEq, Inhabited, Repr

/-- The functions that every program finds ready. -/
inductive Native
  | clock
  deriving DecidableEq, Repr

/-- The name under which a program finds such a function. -/
def Native.name : Native → String
  | clock => "clock"

/-- How many arguments such a function takes. -/
def Native.arity : Native → Nat
  | clock => 0

/-- What an expression comes to. -/
inductive Value
  | nil
  | bool (value : Bool)
  | number (value : Float)
  | string (value : String)
  | native (function : Native)
  | function (id : FunctionId)
  | cls (id : ClassId)
  | inst (id : InstanceId)
  deriving DecidableEq

/-- What can be called. -/
inductive Callable
  | native (function : Native)
  | function (id : FunctionId)
  | cls (id : ClassId)
  deriving DecidableEq, Repr

namespace Value

/-- Only `nil` and `false` count as false. -/
def isTruthy : Value → Bool
  | nil => false
  | bool value => value
  | _ => true

/-- Whether two numbers count as equal: they are equal, or both are undefined. -/
def sameNumber (x y : Float) : Bool :=
  x == y || (x.isNaN && y.isNaN)

/-- Whether two values count as equal.  Values of different types never do. -/
def same : Value → Value → Bool
  | nil, nil => true
  | bool a, bool b => a == b
  | number x, number y => sameNumber x y
  | string s, string t => s == t
  | native f, native g => f == g
  | function f, function g => f == g
  | .cls c, .cls d => c == d
  | .inst i, .inst j => i == j
  | _, _ => false

/-- What a value is as something to call. -/
def callable? : Value → Option Callable
  | native f => some (.native f)
  | function id => some (.function id)
  | .cls id => some (.cls id)
  | _ => none

/-- The name of a value's type. -/
def typeName : Value → String
  | nil => "nil"
  | bool _ => "boolean"
  | number _ => "number"
  | string _ => "string"
  | native _ => "function"
  | function _ => "function"
  | .cls _ => "class"
  | .inst _ => "instance"

/-- The value of a constant. -/
def ofLiteral : Literal → Value
  | .nil => nil
  | .bool value => bool value
  | .number value => number value
  | .string value => string value

end Value

end Lox
