import Lox.Table
import Lox.Syntax.Program

/-!
# Scopes

Before a program runs, every reference is told how far out the variable is that it means, and the
rules that can be checked without running are checked.  A scope is a table of the names declared in
it so far, each with a flag whether it is *ready*, which a variable is only behind its initializer.
What is found is a list of findings, in the order of the program: references that are bound by a
local scope, and violations.  References without a finding mean variables of the outermost level,
which are looked up by name when the program runs.
-/

namespace Lox

/-- The scopes around a place, the innermost first.  The outermost level is no scope. -/
abbrev Scopes := List (Table Bool)

/-- The innermost function around a place. -/
inductive FunctionContext
  | none
  | function
  | method
  | initializer
  deriving DecidableEq, Repr

/-- The innermost class around a place. -/
inductive ClassContext
  | none
  | plain
  | subclass
  deriving DecidableEq, Repr

/-- What is around a place, apart from scopes. -/
structure Surroundings where
  inFunction : FunctionContext
  inClass : ClassContext
  deriving DecidableEq, Repr

/-- Around the whole program there is nothing. -/
def Surroundings.none : Surroundings := ⟨.none, .none⟩

/-- The rules that can be checked without running. -/
inductive ScopeRule
  | readInOwnInitializer
  | declaredTwice
  | returnOutsideFunction
  | returnValueFromInitializer
  | thisOutsideClass
  | superOutsideClass
  | superWithoutSuperclass
  | inheritsFromItself
  deriving DecidableEq, Repr

/-- What is said of a violation. -/
def ScopeRule.message : ScopeRule → String
  | readInOwnInitializer => "Can't read local variable in its own initializer."
  | declaredTwice => "Already a variable with this name in this scope."
  | returnOutsideFunction => "Can't return from top-level code."
  | returnValueFromInitializer => "Can't return a value from an initializer."
  | thisOutsideClass => "Can't use 'this' outside of a class."
  | superOutsideClass => "Can't use 'super' outside of a class."
  | superWithoutSuperclass => "Can't use 'super' in a class with no superclass."
  | inheritsFromItself => "A class can't inherit from itself."

/-- What is found out about a program: a reference is bound so many scopes out, or a rule is
violated at a name. -/
inductive Finding
  | bound (id : NodeId) (distance : Nat)
  | violation (name : Name) (rule : ScopeRule)
  deriving DecidableEq, Repr

/-- The distance of a finding, under the identity of its reference. -/
def Finding.distance? : Finding → Option (NodeId × Nat)
  | bound id distance => some (id, distance)
  | violation _ _ => none

/-- The violation of a finding, as the user sees it. -/
def Finding.diagnostic? : Finding → Option Diagnostic
  | bound _ _ => none
  | violation name rule => some (.resolve name.line name.text rule.message)

namespace Scopes

/-- One more scope, without names. -/
def enter (scopes : Scopes) : Scopes :=
  Table.empty :: scopes

/-- A name declared in the innermost scope, and not ready. -/
def declare (scopes : Scopes) (name : Name) : Scopes × List Finding :=
  match scopes with
  | [] => ([], [])
  | scope :: outer =>
    (scope.put name.text false :: outer,
      if scope.contains name.text then [.violation name .declaredTwice] else [])

/-- A name of the innermost scope, ready from now on. -/
def ready (scopes : Scopes) (name : Name) : Scopes :=
  match scopes with
  | [] => []
  | scope :: outer => scope.put name.text true :: outer

/-- A name declared in the innermost scope, and ready at once. -/
def declareReady (scopes : Scopes) (name : Name) : Scopes × List Finding :=
  let (declared, findings) := scopes.declare name
  (declared.ready name, findings)

/-- Names declared one after the other, each ready at once. -/
def declareAll (scopes : Scopes) : List Name → Scopes × List Finding
  | [] => (scopes, [])
  | name :: names =>
    let (declared, first) := scopes.declareReady name
    let (final, others) := declareAll declared names
    (final, first ++ others)

/-- How far out the innermost scope is that has a name. -/
def distance? (scopes : Scopes) (name : String) : Option Nat :=
  scopes.findIdx? (·.contains name)

/-- What is found when a reference means this name. -/
def bind (scopes : Scopes) (id : NodeId) (name : String) : List Finding :=
  match scopes.distance? name with
  | some distance => [.bound id distance]
  | none => []

/-- Whether the innermost scope has a name that is not ready. -/
def pending (scopes : Scopes) (name : String) : Bool :=
  match scopes with
  | [] => false
  | scope :: _ => scope.get? name == some false

/-- What is found where a variable is read. -/
def read (scopes : Scopes) (reference : Reference) : List Finding :=
  (if scopes.pending reference.name.text then [.violation reference.name .readInOwnInitializer]
    else []) ++ scopes.bind reference.id reference.name.text

end Scopes

end Lox
