import Lox.Syntax.Cursor

/-!
# Expressions from tokens

    expression  → target "=" expression | or
    or          → and ( "or" and )*
    and         → equality ( "and" equality )*
    equality    → comparison ( ( "!=" | "==" ) comparison )*
    comparison  → term ( ( ">" | ">=" | "<" | "<=" ) term )*
    term        → factor ( ( "-" | "+" ) factor )*
    factor      → unary ( ( "/" | "*" ) unary )*
    unary       → ( "!" | "-" ) unary | call
    call        → primary ( "(" arguments? ")" | "." NAME )*
    primary     → constant | "this" | NAME | "(" expression ")" | "super" "." NAME

Each rule below takes the rule for a whole expression as a parameter, and `expression` closes the
circle.  Its fuel bounds the nesting of expressions and the length of each chain; as every step
reads a token, a bound above the number of tokens is never reached.
-/

namespace Lox.Syntax.Rule

/-- The operators of one level, with what they build from a line and two operands. -/
abbrev Level := Token.Kind → Option (Nat → Expr → Expr → Expr)

/-- The node of a binary operator. -/
def binary (op : BinaryOp) (line : Nat) (left right : Expr) : Expr :=
  .binary left op line right

/-- The node of a logical operator, which keeps no line. -/
def logical (op : LogicalOp) (_line : Nat) (left right : Expr) : Expr :=
  .logical left op right

/-- The operator `or`. -/
def orLevel : Level
  | .keyword .or => some (logical .or)
  | _ => none

/-- The operator `and`. -/
def andLevel : Level
  | .keyword .and => some (logical .and)
  | _ => none

/-- Equality. -/
def equalityLevel : Level
  | .symbol .bangEqual => some (binary .notEqual)
  | .symbol .equalEqual => some (binary .equal)
  | _ => none

/-- Order. -/
def comparisonLevel : Level
  | .symbol .greater => some (binary .greater)
  | .symbol .greaterEqual => some (binary .greaterEqual)
  | .symbol .less => some (binary .less)
  | .symbol .lessEqual => some (binary .lessEqual)
  | _ => none

/-- Sums. -/
def termLevel : Level
  | .symbol .minus => some (binary .subtract)
  | .symbol .plus => some (binary .add)
  | _ => none

/-- Products. -/
def factorLevel : Level
  | .symbol .slash => some (binary .divide)
  | .symbol .star => some (binary .multiply)
  | _ => none

/-- The chain of operators of one level behind `left`, grouped to the left. -/
def chain (level : Level) (operand : Rule Expr) : Nat → Expr → Rule Expr
  | 0, _ => outOfFuel
  | fuel + 1, left => do
    let token ← peek
    match level token.kind with
    | none => return left
    | some build => do
      advance
      let right ← operand
      chain level operand fuel (build token.line left right)

/-- Operands joined by the operators of one level. -/
def leftAssoc (level : Level) (operand : Rule Expr) (fuel : Nat) : Rule Expr := do
  let first ← operand
  chain level operand fuel first

/-- A nonempty list of arguments, if `count` are there already. -/
def arguments (expression : Rule Expr) : Nat → (count : Nat) → Rule (List Expr)
  | 0, _ => outOfFuel
  | fuel + 1, count => do
    limit count .tooManyArguments
    let first ← expression
    match ← accept? (.symbol .comma) with
    | some _ => return first :: (← arguments expression fuel (count + 1))
    | none => return [first]

/-- The arguments of a call, whose opening parenthesis has been read. -/
def finishCall (expression : Rule Expr) (fuel : Nat) (callee : Expr) : Rule Expr := do
  let args ← listUnless (.symbol .rightParen) (arguments expression fuel 0)
  let close ← expect (.symbol .rightParen) .argumentsEnd
  return .call callee close.line args

/-- Calls and property accesses behind an expression. -/
def suffixes (expression : Rule Expr) : Nat → Expr → Rule Expr
  | 0, _ => outOfFuel
  | fuel + 1, object => do
    match (← peek).kind with
    | .symbol .leftParen => do
      advance
      let call ← finishCall expression fuel object
      suffixes expression fuel call
    | .symbol .dot => do
      advance
      let name ← expectName .propertyName
      suffixes expression fuel (.get object name)
    | _ => return object

/-- Passes the next token, which is this constant. -/
def constant (value : Literal) : Rule Expr := do
  advance
  return .literal value

/-- What stands for itself, or in parentheses. -/
def primary (expression : Rule Expr) : Rule Expr := do
  let token ← peek
  match token.kind with
  | .keyword .false => constant (.bool false)
  | .keyword .true => constant (.bool true)
  | .keyword .nil => constant .nil
  | .number value => constant (.number value)
  | .string value => constant (.string value)
  | .keyword .this => do
    advance
    return .this (← reference ⟨token.lexeme, token.line⟩)
  | .keyword .super => do
    advance
    let _ ← expect (.symbol .dot) .superDot
    let method ← expectName .superMethod
    return .super (← reference ⟨token.lexeme, token.line⟩) method
  | .identifier => do
    advance
    return .var (← reference ⟨token.lexeme, token.line⟩)
  | .symbol .leftParen => do
    advance
    let inner ← expression
    let _ ← expect (.symbol .rightParen) .groupEnd
    return .group inner
  | _ => fail .expression

/-- Signs before a primary expression and its suffixes. -/
def unary (expression : Rule Expr) : Nat → Rule Expr
  | 0 => outOfFuel
  | fuel + 1 => do
    let token ← peek
    match token.kind with
    | .symbol .bang => do
      advance
      return .unary .not token.line (← unary expression fuel)
    | .symbol .minus => do
      advance
      return .unary .negate token.line (← unary expression fuel)
    | _ => do
      let first ← primary expression
      suffixes expression fuel first

/-- The levels of operators, the loosest first. -/
def operators (expression : Rule Expr) (fuel : Nat) : Rule Expr :=
  leftAssoc orLevel (leftAssoc andLevel (leftAssoc equalityLevel (leftAssoc comparisonLevel
    (leftAssoc termLevel (leftAssoc factorLevel (unary expression fuel) fuel) fuel) fuel) fuel)
    fuel) fuel

/-- What assigns `value` to the place that `target` denotes.  If it denotes none, the equals sign is
reported and the target stays as it is. -/
def assignTo (target : Expr) (equals : Token) (value : Expr) : Rule Expr :=
  match target with
  | .var place => return .assign (← reference place.name) value
  | .get object name => return .set object name value
  | other => do
    report equals .assignmentTarget
    return other

/-- An assignment, or a chain of operators. -/
def assignment (expression : Rule Expr) (fuel : Nat) : Rule Expr := do
  let target ← operators expression fuel
  match ← accept? (.symbol .equal) with
  | none => return target
  | some equals => do
    let value ← expression
    assignTo target equals value

/-- An expression. -/
def expression : Nat → Rule Expr
  | 0 => outOfFuel
  | fuel + 1 => assignment (expression fuel) fuel

end Lox.Syntax.Rule
