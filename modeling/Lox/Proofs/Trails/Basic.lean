import Lox.Scope.Findings

/-!
# Trails

The trail of a program is the walk over its tree as a list of steps: a local scope is opened or left,
a name is declared, a variable is referred to.  Nothing is kept on the way.  What lies around a
reference is read off the steps before it: a scope is around it that was opened and not left, and a
declaration is in that scope if the scope was the innermost one then.  `Trail.Nearest` is the distance
of a name in these terms, and `Trail.Recorded` says of a table that it holds the distances of a trail
and nothing else.
-/

namespace Lox

/-- A step of the walk over a program. -/
inductive Trail.Step
  | enter
  | leave
  | declare (name : String)
  | refer (id : NodeId) (name : String)
  deriving DecidableEq, Repr

/-- The steps of a walk, in their order. -/
abbrev Trail := List Trail.Step

/-! ## Trails of trees -/

/-- The trail of names that are declared one after the other. -/
def Trail.ofNames (names : List Name) : Trail :=
  names.map fun name => .declare name.text

/-- A walk in a scope of its own. -/
def Trail.scope (trail : Trail) : Trail :=
  .enter :: (trail ++ [.leave])

/-- The trail of a class behind its name: its methods stand in a scope of `this`, and that stands in
one of `super` if there is a superclass, which is referred to before. -/
def Trail.ofClass (methods : Trail) : Option Reference → Trail
  | none => .scope (.declare thisName :: methods)
  | some superclass => .refer superclass.id superclass.name.text ::
      Trail.scope (.declare superName :: Trail.scope (.declare thisName :: methods))

mutual

/-- The trail of an expression. -/
def Expr.trail : Expr → Trail
  | .literal _ => []
  | .group inner => inner.trail
  | .unary _ _ operand => operand.trail
  | .binary left _ _ right => left.trail ++ right.trail
  | .logical left _ right => left.trail ++ right.trail
  | .var reference => [.refer reference.id reference.name.text]
  | .assign target value => value.trail ++ [.refer target.id target.name.text]
  | .call callee _ args => callee.trail ++ Expr.allTrail args
  | .get object _ => object.trail
  | .set object _ value => object.trail ++ value.trail
  | .this keyword => [.refer keyword.id thisName]
  | .super keyword _ => [.refer keyword.id superName]

/-- The trail of several expressions. -/
def Expr.allTrail : List Expr → Trail
  | [] => []
  | first :: others => first.trail ++ Expr.allTrail others

end

/-- The trail of an expression that may be absent. -/
def Expr.trail? : Option Expr → Trail
  | some value => value.trail
  | none => []

mutual

/-- The trail of a statement. -/
def Stmt.trail : Stmt → Trail
  | .expr value => value.trail
  | .print value => value.trail
  | .var name initializer => .declare name.text :: Expr.trail? initializer
  | .block body => .scope (Stmt.allTrail body)
  | .ifElse condition thenBranch none => condition.trail ++ thenBranch.trail
  | .ifElse condition thenBranch (some elseBranch) =>
    condition.trail ++ thenBranch.trail ++ elseBranch.trail
  | .whileDo condition body => condition.trail ++ body.trail
  | .function declaration => .declare declaration.name.text :: declaration.trail
  | .ret _ value => Expr.trail? value
  | .classDecl name superclass methods =>
    .declare name.text :: Trail.ofClass (FunctionDecl.allTrail methods) superclass

/-- The trail of a function behind its name: its parameters and its body share one scope. -/
def FunctionDecl.trail : FunctionDecl → Trail
  | ⟨_, params, body⟩ => .scope (.ofNames params ++ Stmt.allTrail body)

/-- The trail of the methods of a class. -/
def FunctionDecl.allTrail : List FunctionDecl → Trail
  | [] => []
  | method :: others => method.trail ++ FunctionDecl.allTrail others

/-- The trail of several statements. -/
def Stmt.allTrail : List Stmt → Trail
  | [] => []
  | first :: others => first.trail ++ Stmt.allTrail others

end

namespace Trail

/-! ## What lies around the end of a walk -/

/-- How many scopes are open behind a walk that begins in so many; none if it leaves a scope that is
not open. -/
def opened : Nat → Trail → Option Nat
  | n, [] => some n
  | n, .enter :: trail => opened (n + 1) trail
  | 0, .leave :: _ => none
  | n + 1, .leave :: trail => opened n trail
  | n, .declare _ :: trail => opened n trail
  | n, .refer _ _ :: trail => opened n trail

/-- Whether a name was declared in the scope around the end of a walk that is so many scopes out: in
a scope that was not left since, and so many were opened since and not left.  The outermost level is
no scope. -/
def Declares (before : Trail) (name : String) (distance : Nat) : Prop :=
  ∃ earlier since outside, before = earlier ++ .declare name :: since ∧
    opened 0 earlier = some (outside + 1) ∧ opened 0 since = some distance

/-- Whether the innermost of the scopes around the end of a walk in which a name was declared is so
many scopes out. -/
def Nearest (before : Trail) (name : String) (distance : Nat) : Prop :=
  Declares before name distance ∧ ∀ nearer < distance, ¬Declares before name nearer

/-- The identities that a walk refers to variables by, in their order. -/
def ids (trail : Trail) : List NodeId :=
  trail.filterMap fun
    | .refer id _ => some id
    | .enter | .leave | .declare _ => none

/-- **Whether a table holds the distances of a trail, and nothing else**: every scope is left in the
end, a reference has an entry if and only if a scope around it has a declaration of its name before
it, and its entry is the distance of the innermost such scope; declarations of the outermost level
give no entry; and there is one entry for each reference that has one. -/
structure Recorded (trail : Trail) (distances : Distances) : Prop where
  closed : opened 0 trail = some 0
  nearest : ∀ before id name after, trail = before ++ .refer id name :: after →
    ∀ distance, distances.get? id = some distance ↔ Nearest before name distance
  outermost : ∀ before id name after, trail = before ++ .refer id name :: after →
    (∀ earlier since, before = earlier ++ .declare name :: since → opened 0 earlier = some 0) →
    distances.get? id = none
  only : ∀ id distance, (id, distance) ∈ distances → ∃ before name after,
    trail = before ++ .refer id name :: after ∧ Nearest before name distance
  nodup : (distances.map Prod.fst).Nodup

end Trail

/-- The trail of a program. -/
def Program.trail (program : Program) : Trail :=
  Stmt.allTrail program

end Lox
