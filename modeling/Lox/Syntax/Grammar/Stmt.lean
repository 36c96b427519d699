import Lox.Syntax.Grammar.Expr

/-!
# Statements from tokens

    declaration → "class" NAME ( "<" NAME )? "{" subroutine* "}"
                | "fun" subroutine | "var" variable | statement
    subroutine  → NAME "(" ( NAME ( "," NAME )* )? ")" block
    variable    → NAME ( "=" expression )? ";"
    statement   → "for" "(" initializer expression? ";" expression? ")" statement
                | "if" "(" expression ")" statement ( "else" statement )?
                | "while" "(" expression ")" statement
                | "return" expression? ";" | "print" expression ";" | block | expression ";"
    initializer → "var" variable | expression ";" | ";"
    block       → "{" declaration* "}"

The rules for statements take the rule for a block as a parameter, and `declaration` closes the
circle.  Fuel bounds the nesting, as it does for expressions.
-/

namespace Lox.Syntax.Rule

/-- An expression, unless the next token is of this kind. -/
def expressionUnless (stop : Token.Kind) (fuel : Nat) : Rule (Option Expr) := do
  if (← peek).kind = stop then return none
  else return some (← expression fuel)

/-- A variable's declaration behind its keyword. -/
def variableDeclaration (fuel : Nat) : Rule Stmt := do
  let name ← expectName .variableName
  match ← accept? (.symbol .equal) with
  | some _ => do
    let value ← expression fuel
    let _ ← expect (.symbol .semicolon) .variableEnd
    return .var name (some value)
  | none => do
    let _ ← expect (.symbol .semicolon) .variableEnd
    return .var name none

/-- An expression with the semicolon that ends its statement. -/
def terminated (fuel : Nat) (missing : Cause) : Rule Expr := do
  let value ← expression fuel
  let _ ← expect (.symbol .semicolon) missing
  return value

/-- An expression as a statement. -/
def expressionStatement (fuel : Nat) : Rule Stmt :=
  return .expr (← terminated fuel .expressionEnd)

/-- What a counting loop begins with. -/
def forInitializer (fuel : Nat) : Rule (Option Stmt) := do
  match (← peek).kind with
  | .symbol .semicolon => do
    advance
    return none
  | .keyword .var => do
    advance
    return some (← variableDeclaration fuel)
  | _ => return some (← expressionStatement fuel)

/-- A counting loop behind its keyword. -/
def forStatement (statement : Rule Stmt) (fuel : Nat) : Rule Stmt := do
  let _ ← expect (.symbol .leftParen) .forStart
  let initializer ← forInitializer fuel
  let condition ← expressionUnless (.symbol .semicolon) fuel
  let _ ← expect (.symbol .semicolon) .forConditionEnd
  let increment ← expressionUnless (.symbol .rightParen) fuel
  let _ ← expect (.symbol .rightParen) .forEnd
  return .forLoop initializer condition increment (← statement)

/-- A condition with the parentheses around it. -/
def parenthesized (fuel : Nat) (noStart noEnd : Cause) : Rule Expr := do
  let _ ← expect (.symbol .leftParen) noStart
  let condition ← expression fuel
  let _ ← expect (.symbol .rightParen) noEnd
  return condition

/-- A choice behind its keyword.  An `else` belongs to the nearest choice that can take it. -/
def ifStatement (statement : Rule Stmt) (fuel : Nat) : Rule Stmt := do
  let condition ← parenthesized fuel .ifStart .ifEnd
  let thenBranch ← statement
  match ← accept? (.keyword .else) with
  | some _ => return .ifElse condition thenBranch (some (← statement))
  | none => return .ifElse condition thenBranch none

/-- A loop behind its keyword. -/
def whileStatement (statement : Rule Stmt) (fuel : Nat) : Rule Stmt := do
  let condition ← parenthesized fuel .whileStart .whileEnd
  return .whileDo condition (← statement)

/-- A return behind its keyword. -/
def returnStatement (keyword : Token) (fuel : Nat) : Rule Stmt := do
  let value ← expressionUnless (.symbol .semicolon) fuel
  let _ ← expect (.symbol .semicolon) .returnEnd
  return .ret ⟨keyword.lexeme, keyword.line⟩ value

/-- A statement that declares nothing.  `block` reads a block behind its brace. -/
def statement (block : Rule (List Stmt)) : Nat → Rule Stmt
  | 0 => outOfFuel
  | fuel + 1 => do
    let token ← peek
    match token.kind with
    | .keyword .for => do
      advance
      forStatement (statement block fuel) fuel
    | .keyword .if => do
      advance
      ifStatement (statement block fuel) fuel
    | .keyword .while => do
      advance
      whileStatement (statement block fuel) fuel
    | .keyword .return => do
      advance
      returnStatement token fuel
    | .symbol .leftBrace => do
      advance
      return .block (← block)
    | .keyword .print => do
      advance
      return .print (← terminated fuel .printEnd)
    | _ => expressionStatement fuel

/-- A nonempty list of parameters, if `count` are there already. -/
def parameters : Nat → (count : Nat) → Rule (List Name)
  | 0, _ => outOfFuel
  | fuel + 1, count => do
    limit count .tooManyParameters
    let first ← expectName .parameterName
    match ← accept? (.symbol .comma) with
    | some _ => return first :: (← parameters fuel (count + 1))
    | none => return [first]

/-- A function or method from its name on. -/
def subroutine (block : Rule (List Stmt)) (kind : Subroutine) (fuel : Nat) : Rule FunctionDecl := do
  let name ← expectName (.subroutineName kind)
  let _ ← expect (.symbol .leftParen) (.parametersStart kind)
  let params ← listUnless (.symbol .rightParen) (parameters fuel 0)
  let _ ← expect (.symbol .rightParen) .parametersEnd
  let _ ← expect (.symbol .leftBrace) (.subroutineBodyStart kind)
  return ⟨name, params, ← block⟩

/-- As many items as there are before a closing brace or the end of the tokens. -/
def untilBrace {α : Type} (item : Rule α) : Nat → Rule (List α)
  | 0 => outOfFuel
  | fuel + 1 => do
    let token ← peek
    if token.kind = .symbol .rightBrace ∨ token.kind = .eof then return []
    else
      let first ← item
      return first :: (← untilBrace item fuel)

/-- A block behind its opening brace. -/
def blockOf (declaration : Rule Stmt) (fuel : Nat) : Rule (List Stmt) := do
  let body ← untilBrace declaration fuel
  let _ ← expect (.symbol .rightBrace) .blockEnd
  return body

/-- The superclass that a class names, if it names one. -/
def superclass : Rule (Option Reference) := do
  match ← accept? (.symbol .less) with
  | some _ => return some (← reference (← expectName .superclassName))
  | none => return none

/-- A class behind its keyword. -/
def classDeclaration (block : Rule (List Stmt)) (fuel : Nat) : Rule Stmt := do
  let name ← expectName .className
  let parent ← superclass
  let _ ← expect (.symbol .leftBrace) .classBodyStart
  let methods ← untilBrace (subroutine block .method fuel) fuel
  let _ ← expect (.symbol .rightBrace) .classBodyEnd
  return .classDecl name parent methods

/-- A declaration or a statement. -/
def declaration : Nat → Rule Stmt
  | 0 => outOfFuel
  | fuel + 1 => do
    let block := blockOf (declaration fuel) fuel
    match (← peek).kind with
    | .keyword .cls => do
      advance
      classDeclaration block fuel
    | .keyword .fun => do
      advance
      return .function (← subroutine block .function fuel)
    | .keyword .var => do
      advance
      variableDeclaration fuel
    | _ => statement block fuel

end Lox.Syntax.Rule
