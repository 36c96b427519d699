/-!
# Syntax trees

Expressions and statements of a program.  Names keep the line they were written on, operators and
calls the line that a failure there is reported with.  Every node that stands for a variable holds
a `Reference`, whose identity distinguishes it from all other nodes of a session: what is found out
about a reference is recorded under that identity.

There is no node for a counting loop.  It is a block of its initializer and a `while` statement.
-/

namespace Lox

/-- A name as it was written, with its line. -/
structure Name where
  text : String
  line : Nat
  deriving DecidableEq, Repr

/-- The identity of a reference. -/
abbrev NodeId := Nat

/-- A place that refers to a variable. -/
structure Reference where
  id : NodeId
  name : Name
  deriving DecidableEq, Repr

/-- A constant written in the program. -/
inductive Literal
  | nil
  | bool (value : Bool)
  | number (value : Float)
  | string (value : String)
  deriving DecidableEq

/-- Operators of one operand. -/
inductive UnaryOp
  | negate
  | not
  deriving DecidableEq, Repr

/-- Operators that need both operands. -/
inductive BinaryOp
  | add | subtract | multiply | divide
  | greater | greaterEqual | less | lessEqual
  | equal | notEqual
  deriving DecidableEq, Repr

/-- Operators that may leave out the second operand. -/
inductive LogicalOp
  | and
  | or
  deriving DecidableEq, Repr

/-- Expressions.  The line of a call is that of its closing parenthesis. -/
inductive Expr
  | literal (value : Literal)
  | group (inner : Expr)
  | unary (op : UnaryOp) (line : Nat) (operand : Expr)
  | binary (left : Expr) (op : BinaryOp) (line : Nat) (right : Expr)
  | logical (left : Expr) (op : LogicalOp) (right : Expr)
  | var (reference : Reference)
  | assign (target : Reference) (value : Expr)
  | call (callee : Expr) (line : Nat) (arguments : List Expr)
  | get (object : Expr) (name : Name)
  | set (object : Expr) (name : Name) (value : Expr)
  | this (keyword : Reference)
  | super (keyword : Reference) (method : Name)

mutual

/-- Statements. -/
inductive Stmt
  | expr (value : Expr)
  | print (value : Expr)
  | var (name : Name) (initializer : Option Expr)
  | block (body : List Stmt)
  | ifElse (condition : Expr) (thenBranch : Stmt) (elseBranch : Option Stmt)
  | whileDo (condition : Expr) (body : Stmt)
  | function (declaration : FunctionDecl)
  | ret (keyword : Name) (value : Option Expr)
  | classDecl (name : Name) (superclass : Option Reference) (methods : List FunctionDecl)

/-- A function or method: its name, its parameters, and what it does. -/
structure FunctionDecl where
  name : Name
  params : List Name
  body : List Stmt

end

instance : Inhabited FunctionDecl := ⟨⟨⟨"", 0⟩, [], []⟩⟩

/-- The name under which a class declares how its instances begin. -/
def initializerName : String := "init"

/-- The name that means the receiver of a method. -/
def thisName : String := "this"

/-- The name that means the class whose methods a method overrides. -/
def superName : String := "super"

/-- Whether a method is its class's initializer. -/
def FunctionDecl.isInitializer (method : FunctionDecl) : Bool :=
  method.name.text == initializerName

/-- A loop with an initializer, a condition and an increment, each of which may be left out.  The
increment runs behind the body, out of sight of the body's own names. -/
def Stmt.forLoop (initializer : Option Stmt) (condition increment : Option Expr) (body : Stmt) :
    Stmt :=
  let body := match increment with
    | some step => .block [body, .expr step]
    | none => body
  let loop := .whileDo (condition.getD (.literal (.bool true))) body
  match initializer with
  | some first => .block [first, loop]
  | none => loop

end Lox
