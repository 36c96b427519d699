import Lox.Scope.Basic

/-!
# Findings of a program

The walk over a program in its order.  An expression leaves the scopes as they are, so its findings
are a function of the scopes around it; a statement may declare a name in the innermost one, and
gives the scopes behind it too.
-/

namespace Lox

/-- What is found at `super`: whether it may stand here, and where the superclass is. -/
def Scopes.superFindings (scopes : Scopes) (context : ClassContext) (keyword : Reference) :
    List Finding :=
  (match context with
    | .none => [.violation keyword.name .superOutsideClass]
    | .plain => [.violation keyword.name .superWithoutSuperclass]
    | .subclass => []) ++ scopes.bind keyword.id superName

mutual

/-- The findings of an expression. -/
def Expr.findings (context : ClassContext) (scopes : Scopes) : Expr → List Finding
  | .literal _ => []
  | .group inner => inner.findings context scopes
  | .unary _ _ operand => operand.findings context scopes
  | .binary left _ _ right => left.findings context scopes ++ right.findings context scopes
  | .logical left _ right => left.findings context scopes ++ right.findings context scopes
  | .var reference => scopes.read reference
  | .assign target value => value.findings context scopes ++ scopes.bind target.id target.name.text
  | .call callee _ args => callee.findings context scopes ++ Expr.allFindings context scopes args
  | .get object _ => object.findings context scopes
  | .set object _ value => object.findings context scopes ++ value.findings context scopes
  | .this keyword =>
    if context = .none then [.violation keyword.name .thisOutsideClass]
    else scopes.bind keyword.id thisName
  | .super keyword _ => scopes.superFindings context keyword

/-- The findings of several expressions. -/
def Expr.allFindings (context : ClassContext) (scopes : Scopes) : List Expr → List Finding
  | [] => []
  | first :: others => first.findings context scopes ++ Expr.allFindings context scopes others

end

/-- The findings of an expression that may be absent. -/
def Expr.findings? (context : ClassContext) (scopes : Scopes) : Option Expr → List Finding
  | some value => value.findings context scopes
  | none => []

/-- What is found at a `return` before its value. -/
def FunctionContext.returnFindings (context : FunctionContext) (keyword : Name) (hasValue : Bool) :
    List Finding :=
  (if context = .none then [.violation keyword .returnOutsideFunction] else []) ++
    (if hasValue ∧ context = .initializer then [.violation keyword .returnValueFromInitializer]
      else [])

/-- What is found at the name of a superclass. -/
def Scopes.superclassFindings (scopes : Scopes) (name : Name) : Option Reference → List Finding
  | some superclass =>
    (if superclass.name.text = name.text then [.violation superclass.name .inheritsFromItself]
      else []) ++ scopes.read superclass
  | none => []

/-- The scopes around the methods of a class: one for `super` if there is a superclass, and one for
`this`. -/
def Scopes.enterClass (scopes : Scopes) : Option Reference → Scopes
  | some _ => .single thisName true :: .single superName true :: scopes
  | none => .single thisName true :: scopes

/-- What a class is to its methods. -/
def ClassContext.ofSuperclass : Option Reference → ClassContext
  | .some _ => .subclass
  | .none => .plain

/-- What a method is to its body. -/
def FunctionContext.ofMethod (method : FunctionDecl) : FunctionContext :=
  if method.isInitializer then .initializer else .method

mutual

/-- The findings of a statement, and the scopes behind it. -/
def Stmt.walk (around : Surroundings) (scopes : Scopes) : Stmt → Scopes × List Finding
  | .expr value => (scopes, value.findings around.inClass scopes)
  | .print value => (scopes, value.findings around.inClass scopes)
  | .var name initializer =>
    let (declared, first) := scopes.declare name
    (declared.ready name, first ++ Expr.findings? around.inClass declared initializer)
  | .block body => (scopes, (Stmt.walkAll around scopes.enter body).2)
  | .ifElse condition thenBranch none =>
    let (behind, found) := thenBranch.walk around scopes
    (behind, condition.findings around.inClass scopes ++ found)
  | .ifElse condition thenBranch (some elseBranch) =>
    let (between, first) := thenBranch.walk around scopes
    let (behind, second) := elseBranch.walk around between
    (behind, condition.findings around.inClass scopes ++ first ++ second)
  | .whileDo condition body =>
    let (behind, found) := body.walk around scopes
    (behind, condition.findings around.inClass scopes ++ found)
  | .function declaration =>
    let (declared, first) := scopes.declareReady declaration.name
    (declared, first ++ declaration.findings ⟨.function, around.inClass⟩ declared)
  | .ret keyword value =>
    (scopes, around.inFunction.returnFindings keyword value.isSome ++
      Expr.findings? around.inClass scopes value)
  | .classDecl name superclass methods =>
    let (declared, first) := scopes.declareReady name
    (declared, first ++ declared.superclassFindings name superclass ++
      FunctionDecl.allFindings (.ofSuperclass superclass) (declared.enterClass superclass) methods)

/-- The findings of a function, whose parameters and body share one scope. -/
def FunctionDecl.findings (inside : Surroundings) (scopes : Scopes) : FunctionDecl → List Finding
  | ⟨_, params, body⟩ =>
    let (declared, first) := scopes.enter.declareAll params
    first ++ (Stmt.walkAll inside declared body).2

/-- The findings of the methods of a class. -/
def FunctionDecl.allFindings (context : ClassContext) (scopes : Scopes) :
    List FunctionDecl → List Finding
  | [] => []
  | method :: others =>
    method.findings ⟨.ofMethod method, context⟩ scopes ++
      FunctionDecl.allFindings context scopes others

/-- The findings of several statements, and the scopes behind them. -/
def Stmt.walkAll (around : Surroundings) (scopes : Scopes) : List Stmt → Scopes × List Finding
  | [] => (scopes, [])
  | first :: others =>
    let (between, found) := first.walk around scopes
    let (behind, rest) := Stmt.walkAll around between others
    (behind, found ++ rest)

end

/-- How far out the variables are that references mean; references to variables of the outermost
level have no entry. -/
abbrev Distances := List (NodeId × Nat)

/-- The distance of a reference.  Of two entries under one identity the first counts. -/
def Distances.get? (distances : Distances) (id : NodeId) : Option Nat :=
  distances.lookup id

/-- Two tables in one; entries of the `newer` one count first. -/
def Distances.merge (older newer : Distances) : Distances :=
  newer ++ older

namespace Program

/-- The findings of a program. -/
def findings (program : Program) : List Finding :=
  (Stmt.walkAll .none [] program).2

/-- The violations in a program. -/
def violations (program : Program) : List Diagnostic :=
  program.findings.filterMap Finding.diagnostic?

/-- The distances of a program's references. -/
def distances (program : Program) : Distances :=
  program.findings.filterMap Finding.distance?

/-- The distances of a program without violations, or its violations. -/
def resolve (program : Program) : Except (List Diagnostic) Distances :=
  if program.violations.isEmpty then .ok program.distances else .error program.violations

end Program

end Lox
