import Lox.Syntax.Basic
import Lox.Token.Basic
import Lox.Diagnostic

/-!
# Syntax faults

Why a list of tokens is no program, and at which token this shows.
-/

namespace Lox.Syntax

/-- The two kinds of declarations with parameters and a body. -/
inductive Subroutine
  | function
  | method
  deriving DecidableEq, Repr

/-- The word for a kind of subroutine. -/
def Subroutine.word : Subroutine → String
  | function => "function"
  | method => "method"

/-- What is missing, or what there is too much of. -/
inductive Cause
  | className | superclassName | classBodyStart | classBodyEnd
  | subroutineName (kind : Subroutine) | parametersStart (kind : Subroutine)
  | parameterName | parametersEnd | subroutineBodyStart (kind : Subroutine)
  | variableName | variableEnd
  | forStart | forConditionEnd | forEnd
  | ifStart | ifEnd | whileStart | whileEnd
  | printEnd | returnEnd | expressionEnd | blockEnd
  | propertyName | argumentsEnd | superDot | superMethod | groupEnd | expression
  | tooManyParameters | tooManyArguments | assignmentTarget
  deriving DecidableEq, Repr

/-- What is said of a cause. -/
def Cause.message : Cause → String
  | className => "Expect class name."
  | superclassName => "Expect superclass name."
  | classBodyStart => "Expect '\x7b' before class body."
  | classBodyEnd => "Expect '\x7d' after class body."
  | subroutineName kind => "Expect " ++ kind.word ++ " name."
  | parametersStart kind => "Expect '(' after " ++ kind.word ++ " name."
  | parameterName => "Expect parameter name."
  | parametersEnd => "Expect ')' after parameters."
  | subroutineBodyStart kind => "Expect '\x7b' before " ++ kind.word ++ " body."
  | variableName => "Expect variable name."
  | variableEnd => "Expect ';' after variable declaration."
  | forStart => "Expect '(' after 'for'."
  | forConditionEnd => "Expect ';' after loop condition."
  | forEnd => "Expect ')' after for clauses."
  | ifStart => "Expect '(' after 'if'."
  | ifEnd => "Expect ')' after if condition."
  | whileStart => "Expect '(' after 'while'."
  | whileEnd => "Expect ')' after condition."
  | printEnd => "Expect ';' after value."
  | returnEnd => "Expect ';' after return value."
  | expressionEnd => "Expect ';' after expression."
  | blockEnd => "Expect '\x7d' after block."
  | propertyName => "Expect property name after '.'."
  | argumentsEnd => "Expect ')' after arguments."
  | superDot => "Expect '.' after 'super'."
  | superMethod => "Expect superclass method name."
  | groupEnd => "Expect ')' after expression."
  | expression => "Expect expression."
  | tooManyParameters => "Can't have more than 255 parameters."
  | tooManyArguments => "Can't have more than 255 arguments."
  | assignmentTarget => "Invalid assignment target."

/-- A cause, and the token at which it shows. -/
structure Fault where
  token : Token
  cause : Cause
  deriving DecidableEq

/-- A syntax fault as the user sees it. -/
def Fault.diagnostic (fault : Fault) : Diagnostic :=
  .parse fault.token.line fault.token.lexeme fault.cause.message

end Lox.Syntax
