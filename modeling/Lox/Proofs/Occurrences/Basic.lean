import Lox.Syntax.Program

/-!
# Occurrences

What a program mentions at which place, in the order of its tree.  A place is known by the local
scopes around it: what each of them was opened for, and which names were declared in it before the
place is reached.  No state is carried along that would have to be restored; what lies around a
place is read off the place alone (`Place.function?`, `Place.class?`).
-/

namespace Lox

/-- What a local scope is opened for: a block, the parameters and the body of a function, or those
of a method of a class with this superclass clause. -/
inductive Enclosure
  | block
  | function
  | method (name : Name) (superclass : Option Reference)

namespace Enclosure

/-- Whether it is that of a function or method. -/
def isFunction : Enclosure → Bool
  | block => false
  | function | method _ _ => true

/-- The superclass clause of the class, for a method. -/
def superclass? : Enclosure → Option (Option Reference)
  | block | function => none
  | method _ superclass => some superclass

end Enclosure

/-- A local scope around a place: what it was opened for, and the names declared in it before the
place, in their order. -/
structure Level where
  enclosure : Enclosure
  names : List String

/-- The local scopes around a place, the innermost first. -/
abbrev Place := List Level

namespace Place

/-- A place in a new scope with these names. -/
def inside (place : Place) (enclosure : Enclosure) (names : List Name) : Place :=
  ⟨enclosure, names.map Name.text⟩ :: place

/-- The place behind the declarations of names.  The outermost level is no scope. -/
def behind (place : Place) (names : List Name) : Place :=
  match place with
  | [] => []
  | level :: outer => { level with names := level.names ++ names.map Name.text } :: outer

/-- The innermost function or method around a place. -/
def function? (place : Place) : Option Enclosure :=
  (place.map Level.enclosure).find? Enclosure.isFunction

/-- The innermost class around a place, given by its superclass clause. -/
def class? (place : Place) : Option (Option Reference) :=
  (place.map Level.enclosure).findSome? Enclosure.superclass?

end Place

/-- What a program mentions: a name that it declares, a variable that it reads or assigns to, `this`
or `super`, a `return` with or without a value, or a class as the superclass of another. -/
inductive Mention
  | declared (name : Name)
  | read (reference : Reference)
  | assigned (target : Reference)
  | this (keyword : Reference)
  | super (keyword : Reference)
  | returned (keyword : Name) (hasValue : Bool)
  | inherits (cls : Name) (superclass : Name)

/-- A mention at its place.  `own` is the variable in whose initializer it stands. -/
structure Occurrence where
  mention : Mention
  place : Place
  own : Option Name

/-- Where a user finds an occurrence. -/
def Occurrence.name (o : Occurrence) : Name :=
  match o.mention with
  | .declared name | .returned name _ | .inherits _ name => name
  | .read reference | .assigned reference | .this reference | .super reference => reference.name

/-! ## Expressions -/

mutual

/-- The occurrences in an expression. -/
def Expr.occurrences (place : Place) (own : Option Name) : Expr → List Occurrence
  | .literal _ => []
  | .group inner => inner.occurrences place own
  | .unary _ _ operand => operand.occurrences place own
  | .binary left _ _ right => left.occurrences place own ++ right.occurrences place own
  | .logical left _ right => left.occurrences place own ++ right.occurrences place own
  | .var reference => [⟨.read reference, place, own⟩]
  | .assign target value => value.occurrences place own ++ [⟨.assigned target, place, own⟩]
  | .call callee _ args => callee.occurrences place own ++ Expr.allOccurrences place own args
  | .get object _ => object.occurrences place own
  | .set object _ value => object.occurrences place own ++ value.occurrences place own
  | .this keyword => [⟨.this keyword, place, own⟩]
  | .super keyword _ => [⟨.super keyword, place, own⟩]

/-- The occurrences in several expressions. -/
def Expr.allOccurrences (place : Place) (own : Option Name) : List Expr → List Occurrence
  | [] => []
  | first :: others => first.occurrences place own ++ Expr.allOccurrences place own others

end

/-- The occurrences in an expression that may be absent. -/
def Expr.occurrences? (place : Place) (own : Option Name) : Option Expr → List Occurrence
  | some e => e.occurrences place own
  | none => []

/-! ## Statements -/

/-- The names that a statement declares in the scope around it. -/
def Stmt.declares : Stmt → List Name
  | .var name _ => [name]
  | .function declaration => [declaration.name]
  | .classDecl name _ _ => [name]
  | .ifElse _ thenBranch none => thenBranch.declares
  | .ifElse _ thenBranch (some elseBranch) => thenBranch.declares ++ elseBranch.declares
  | .whileDo _ body => body.declares
  | .expr _ | .print _ | .block _ | .ret _ _ => []

/-- The occurrences in a list of parameters, each declared behind those before it. -/
def Place.parameters (place : Place) : List Name → List Occurrence
  | [] => []
  | param :: params => ⟨.declared param, place, none⟩ :: (place.behind [param]).parameters params

/-- The occurrences in a superclass clause. -/
def Place.superclass (place : Place) (cls : Name) : Option Reference → List Occurrence
  | some reference =>
    [⟨.inherits cls reference.name, place, none⟩, ⟨.read reference, place, none⟩]
  | none => []

mutual

/-- The occurrences in a statement. -/
def Stmt.occurrences (place : Place) : Stmt → List Occurrence
  | .expr value => value.occurrences place none
  | .print value => value.occurrences place none
  | .var name initializer =>
    ⟨.declared name, place, none⟩ ::
      Expr.occurrences? (place.behind [name]) (some name) initializer
  | .block body => Stmt.allOccurrences (place.inside .block []) body
  | .ifElse condition thenBranch none =>
    condition.occurrences place none ++ thenBranch.occurrences place
  | .ifElse condition thenBranch (some elseBranch) =>
    condition.occurrences place none ++ thenBranch.occurrences place ++
      elseBranch.occurrences (place.behind thenBranch.declares)
  | .whileDo condition body => condition.occurrences place none ++ body.occurrences place
  | .function declaration =>
    ⟨.declared declaration.name, place, none⟩ ::
      declaration.occurrences .function (place.behind [declaration.name])
  | .ret keyword value =>
    ⟨.returned keyword value.isSome, place, none⟩ :: Expr.occurrences? place none value
  | .classDecl name superclass methods =>
    ⟨.declared name, place, none⟩ :: ((place.behind [name]).superclass name superclass ++
      FunctionDecl.allOccurrences superclass (place.behind [name]) methods)

/-- The occurrences in a function, behind its name. -/
def FunctionDecl.occurrences (enclosure : Enclosure) (place : Place) :
    FunctionDecl → List Occurrence
  | ⟨_, params, body⟩ => Place.parameters (place.inside enclosure []) params ++
      Stmt.allOccurrences (place.inside enclosure params) body

/-- The occurrences in the methods of a class with this superclass clause. -/
def FunctionDecl.allOccurrences (superclass : Option Reference) (place : Place) :
    List FunctionDecl → List Occurrence
  | [] => []
  | method :: others => method.occurrences (.method method.name superclass) place ++
      FunctionDecl.allOccurrences superclass place others

/-- The occurrences in several statements, each behind those before it. -/
def Stmt.allOccurrences (place : Place) : List Stmt → List Occurrence
  | [] => []
  | first :: others =>
    first.occurrences place ++ Stmt.allOccurrences (place.behind first.declares) others

end

/-- The occurrences in a program. -/
def Program.occurrences (program : Program) : List Occurrence :=
  Stmt.allOccurrences [] program

end Lox
