import Lox.Scope.Findings

/-!
# A program with one local variable renamed

A local scope of a program is found by a path: the number of the statement, of the method or of the
branch to go into, at each form that has several (`Stmt.scopeAmong`).  A variable or a parameter of
that scope is renamed together with the uses that are bound to it, and these are known by their
distances: inside the scope, what is bound as many scopes out as the place lies scopes further in
(`Program.renamed`).

Nothing else changes.  Names of functions and classes stay what they are, since a program can show
them; so do the identities of references and the lines of names.
-/

namespace Lox

/-! ## Paths -/

/-- Where the scope lies that is meant, seen from a place: it is entered further on, by a path; it
is one of the scopes around the place, so many scopes out; or it lies elsewhere. -/
inductive Aim
  | ahead (path : List Nat)
  | around (distance : Nat)
  | elsewhere

namespace Aim

/-- The aim at the first of several parts. -/
def first : Aim → Aim
  | ahead (0 :: path) => ahead path
  | ahead _ => elsewhere
  | aim => aim

/-- The aim at the parts behind the first one. -/
def others : Aim → Aim
  | ahead ((n + 1) :: path) => ahead (n :: path)
  | ahead _ => elsewhere
  | aim => aim

/-- The aim in a scope that is entered.  It is the one that is meant if the path ends here. -/
def enter : Aim → Aim
  | ahead [] => around 0
  | around distance => around (distance + 1)
  | aim => aim

/-- The aim around the methods of a class. -/
def enterClass (superclass : Option Reference) : Aim → Aim
  | around distance => around (distance + if superclass.isSome then 2 else 1)
  | aim => aim

/-- Whether a variable with this distance belongs to the scope that is meant. -/
def Hits : Aim → Option Nat → Prop
  | around distance, found => found = some distance
  | _, _ => False

instance : ∀ (aim : Aim) (found : Option Nat), Decidable (aim.Hits found)
  | around distance, found => inferInstanceAs (Decidable (found = some distance))
  | ahead _, _ | elsewhere, _ => inferInstanceAs (Decidable False)

end Aim

/-! ## Renaming -/

section
variable (x y : String)

/-- The name, with `y` in the place of `x`. -/
def Name.renamed (name : Name) : Name :=
  if name.text = x then ⟨y, name.line⟩ else name

/-- The name, renamed if it is declared in the scope that is meant. -/
def Name.renamedAt (aim : Aim) (name : Name) : Name :=
  if aim.Hits (some 0) then name.renamed x y else name

variable (distances : Distances)

/-- The reference, renamed if it is bound in the scope that is meant. -/
def Reference.renamedAt (aim : Aim) (reference : Reference) : Reference :=
  if aim.Hits (distances.get? reference.id) then ⟨reference.id, reference.name.renamed x y⟩
  else reference

mutual

/-- The expression with the uses of the variable renamed. -/
def Expr.renamed (aim : Aim) : Expr → Expr
  | .literal value => .literal value
  | .group inner => .group (inner.renamed aim)
  | .unary op line operand => .unary op line (operand.renamed aim)
  | .binary left op line right => .binary (left.renamed aim) op line (right.renamed aim)
  | .logical left op right => .logical (left.renamed aim) op (right.renamed aim)
  | .var reference => .var (reference.renamedAt x y distances aim)
  | .assign target value => .assign (target.renamedAt x y distances aim) (value.renamed aim)
  | .call callee line args => .call (callee.renamed aim) line (Expr.allRenamed aim args)
  | .get object name => .get (object.renamed aim) name
  | .set object name value => .set (object.renamed aim) name (value.renamed aim)
  | .this keyword => .this keyword
  | .super keyword method => .super keyword method

/-- Several expressions with the uses of the variable renamed. -/
def Expr.allRenamed (aim : Aim) : List Expr → List Expr
  | [] => []
  | first :: others => first.renamed aim :: Expr.allRenamed aim others

end

mutual

/-- The statement with the variable renamed. -/
def Stmt.renamed (aim : Aim) : Stmt → Stmt
  | .expr value => .expr (value.renamed x y distances aim)
  | .print value => .print (value.renamed x y distances aim)
  | .var name initializer =>
    .var (name.renamedAt x y aim) (initializer.map (Expr.renamed x y distances aim))
  | .block body => .block (Stmt.allRenamed aim.enter body)
  | .ifElse condition thenBranch none =>
    .ifElse (condition.renamed x y distances aim) (thenBranch.renamed aim.first) none
  | .ifElse condition thenBranch (some elseBranch) =>
    .ifElse (condition.renamed x y distances aim) (thenBranch.renamed aim.first)
      (some (elseBranch.renamed aim.others.first))
  | .whileDo condition body => .whileDo (condition.renamed x y distances aim) (body.renamed aim)
  | .function declaration => .function (declaration.renamed aim)
  | .ret keyword value => .ret keyword (value.map (Expr.renamed x y distances aim))
  | .classDecl name superclass methods =>
    .classDecl name (superclass.map (Reference.renamedAt x y distances aim))
      (FunctionDecl.allRenamed (aim.enterClass superclass) methods)

/-- The function with the variable renamed. -/
def FunctionDecl.renamed (aim : Aim) : FunctionDecl → FunctionDecl
  | ⟨name, params, body⟩ =>
    ⟨name, params.map (Name.renamedAt x y aim.enter), Stmt.allRenamed aim.enter body⟩

/-- Several functions with the variable renamed. -/
def FunctionDecl.allRenamed (aim : Aim) : List FunctionDecl → List FunctionDecl
  | [] => []
  | first :: others => first.renamed aim.first :: FunctionDecl.allRenamed aim.others others

/-- Several statements with the variable renamed. -/
def Stmt.allRenamed (aim : Aim) : List Stmt → List Stmt
  | [] => []
  | first :: others => first.renamed aim.first :: Stmt.allRenamed aim.others others

end

end

/-- **The program with a variable renamed** that is declared in the scope at a path. -/
def Program.renamed (program : Program) (distances : Distances) (path : List Nat) (x y : String) :
    Program :=
  Stmt.allRenamed x y distances (.ahead path) program

/-! ## Scopes -/

/-- A local scope: the parameters and the statements of a function, or the statements of a block. -/
structure LocalScope where
  params : List Name
  body : List Stmt

mutual

/-- The scope at a path. -/
def Stmt.scopeAt (path : List Nat) : Stmt → Option LocalScope
  | .block body => if path = [] then some ⟨[], body⟩ else Stmt.scopeAmong path body
  | .ifElse _ thenBranch none =>
    match path with
    | 0 :: path => thenBranch.scopeAt path
    | _ => none
  | .ifElse _ thenBranch (some elseBranch) =>
    match path with
    | 0 :: path => thenBranch.scopeAt path
    | 1 :: path => elseBranch.scopeAt path
    | _ => none
  | .whileDo _ body => body.scopeAt path
  | .function declaration => declaration.scopeAt path
  | .classDecl _ _ methods => FunctionDecl.scopeAmong path methods
  | .expr _ | .print _ | .var _ _ | .ret _ _ => none

/-- The scope at a path from a function. -/
def FunctionDecl.scopeAt (path : List Nat) : FunctionDecl → Option LocalScope
  | ⟨_, params, body⟩ => if path = [] then some ⟨params, body⟩ else Stmt.scopeAmong path body

/-- The scope at a path that begins with the number of a function. -/
def FunctionDecl.scopeAmong (path : List Nat) : List FunctionDecl → Option LocalScope
  | [] => none
  | first :: others =>
    match path with
    | 0 :: path => first.scopeAt path
    | (n + 1) :: path => FunctionDecl.scopeAmong (n :: path) others
    | [] => none

/-- The scope at a path that begins with the number of a statement. -/
def Stmt.scopeAmong (path : List Nat) : List Stmt → Option LocalScope
  | [] => none
  | first :: others =>
    match path with
    | 0 :: path => first.scopeAt path
    | (n + 1) :: path => Stmt.scopeAmong (n :: path) others
    | [] => none

end

/-- The name of the variable that a statement declares. -/
def Stmt.variableName? : Stmt → Option Name
  | .var name _ => some name
  | _ => none

/-- The variables and the parameters of a scope. -/
def LocalScope.variables (scope : LocalScope) : List Name :=
  scope.params ++ scope.body.filterMap Stmt.variableName?

end Lox
