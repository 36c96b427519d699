import Lox.Proofs.Frames
import Lox.Proofs.Occurrences.Basic
import Lox.Scope.Findings

/-!
# Findings of occurrences

The walk over a program keeps scopes, the innermost function and the innermost class, and changes
them on its way in and out.  At each occurrence they are what its place says
(`Place.scopes`, `Place.surroundings`), and the findings of a program are those of its occurrences,
one after the other (`Program.findings_eq`).
-/

namespace Lox

/-! ## What the walk knows at a place -/

/-- The scope of a level: each name is ready. -/
def Level.scope (level : Level) : Table Bool :=
  level.names.foldl (fun scope name => scope.put name true) .empty

/-- The scopes around what is opened for a block, a function or a method: for a method those of its
class are added. -/
def Enclosure.around (enclosure : Enclosure) (scopes : Scopes) : Scopes :=
  match enclosure with
  | block | function => scopes
  | method _ superclass => scopes.enterClass superclass

namespace Place

/-- The scopes that the walk has at a place. -/
def scopes : Place → Scopes
  | [] => []
  | level :: outer => level.scope :: level.enclosure.around (scopes outer)

/-- The innermost function, as the walk knows it. -/
def inFunction (place : Place) : FunctionContext :=
  match place.function? with
  | none => .none
  | some (.method name _) => if name.text == initializerName then .initializer else .method
  | some _ => .function

/-- The innermost class, as the walk knows it. -/
def inClass (place : Place) : ClassContext :=
  match place.class? with
  | none => .none
  | some superclass => .ofSuperclass superclass

/-- What the walk knows apart from scopes. -/
def surroundings (place : Place) : Surroundings :=
  ⟨place.inFunction, place.inClass⟩

/-! ## Places behind declarations -/

theorem behind_nil (place : Place) : place.behind [] = place := by
  cases place with
  | nil => rfl
  | cons level outer =>
    show { level with names := level.names ++ [] } :: outer = _
    rw [List.append_nil]

theorem behind_append (place : Place) (names others : List Name) :
    place.behind (names ++ others) = (place.behind names).behind others := by
  cases place with
  | nil => rfl
  | cons level outer =>
    show { level with names := level.names ++ (names ++ others).map Name.text } :: outer =
      { level with
        names := level.names ++ names.map Name.text ++ others.map Name.text } :: outer
    rw [List.map_append, List.append_assoc]

theorem inside_behind (place : Place) (enclosure : Enclosure) (names : List Name) :
    (place.inside enclosure []).behind names = place.inside enclosure names := rfl

theorem enclosure_behind (place : Place) (names : List Name) :
    (place.behind names).map Level.enclosure = place.map Level.enclosure := by
  cases place <;> rfl

theorem surroundings_behind (place : Place) (names : List Name) :
    (place.behind names).surroundings = place.surroundings := by
  simp only [surroundings, inFunction, inClass, function?, class?, enclosure_behind]

theorem inClass_behind (place : Place) (names : List Name) :
    (place.behind names).inClass = place.inClass :=
  congrArg Surroundings.inClass (place.surroundings_behind names)

theorem surroundings_function (place : Place) (names : List Name) :
    (place.inside .function names).surroundings = ⟨.function, place.inClass⟩ := rfl

theorem scope_concat (level : Level) (name : String) :
    Level.scope { level with names := level.names ++ [name] } = level.scope.put name true :=
  List.foldl_append

theorem scopes_declareReady (place : Place) (name : Name) :
    (place.scopes.declareReady name).1 = (place.behind [name]).scopes := by
  cases place with
  | nil => rfl
  | cons level outer =>
    show (level.scope.put name.text false).put name.text true :: _ =
      Level.scope { level with names := level.names ++ [name.text] } :: _
    rw [scope_concat, Table.put_put]

/-- A name is as good as declared for the first time where it is declared but not ready. -/
theorem scopes_declare_behind (place : Place) (name : Name) :
    ((place.behind [name]).scopes.declare name).1 = (place.scopes.declare name).1 := by
  cases place with
  | nil => rfl
  | cons level outer =>
    show (Level.scope { level with names := level.names ++ [name.text] }).put name.text false :: _ =
      level.scope.put name.text false :: _
    rw [scope_concat, Table.put_put]

end Place

/-! ## What is found at an occurrence -/

/-- The scopes that the walk has at a place in the initializer of `own`, if there is one: the
variable is not ready there. -/
def Place.scopesWith (place : Place) (own : Option Name) : Scopes :=
  match own with
  | none => place.scopes
  | some name => (place.scopes.declare name).1

/-- The scopes that the walk has at an occurrence. -/
def Occurrence.scopes (o : Occurrence) : Scopes :=
  o.place.scopesWith o.own

/-- What the walk finds at an occurrence. -/
def Occurrence.findings (o : Occurrence) : List Finding :=
  match o.mention with
  | .declared name => (o.place.scopes.declare name).2
  | .read reference => o.scopes.read reference
  | .assigned target => o.scopes.bind target.id target.name.text
  | .this keyword =>
    if o.place.inClass = .none then [.violation keyword.name .thisOutsideClass]
    else o.scopes.bind keyword.id thisName
  | .super keyword => o.scopes.superFindings o.place.inClass keyword
  | .returned keyword hasValue => o.place.inFunction.returnFindings keyword hasValue
  | .inherits cls superclass =>
    if superclass.text = cls.text then [.violation superclass .inheritsFromItself] else []

/-! ## Expressions -/

section
variable (place : Place) (own : Option Name)

mutual

/-- **The findings of an expression** are those of its occurrences, one after the other. -/
theorem Expr.findings_eq : ∀ e : Expr,
    e.findings place.inClass (place.scopesWith own) =
      (e.occurrences place own).flatMap Occurrence.findings
  | .literal _ => rfl
  | .group inner => Expr.findings_eq inner
  | .unary _ _ operand => Expr.findings_eq operand
  | .get object _ => Expr.findings_eq object
  | .binary left _ _ right | .logical left _ right | .set left _ right => by
    rw [Expr.findings, Expr.occurrences, List.flatMap_append, Expr.findings_eq left,
      Expr.findings_eq right]
  | .call callee _ args => by
    rw [Expr.findings, Expr.occurrences, List.flatMap_append, Expr.findings_eq callee,
      Expr.allFindings_eq args]
  | .assign target value => by
    rw [Expr.findings, Expr.occurrences, List.flatMap_append, Expr.findings_eq value,
      List.flatMap_singleton]
    rfl
  | .var _ | .this _ | .super _ _ => (List.flatMap_singleton ..).symm

theorem Expr.allFindings_eq : ∀ es : List Expr,
    Expr.allFindings place.inClass (place.scopesWith own) es =
      (Expr.allOccurrences place own es).flatMap Occurrence.findings
  | [] => rfl
  | first :: others => by
    rw [Expr.allFindings, Expr.allOccurrences, List.flatMap_append, Expr.findings_eq first,
      Expr.allFindings_eq others]

end

theorem Expr.findings?_eq : ∀ e : Option Expr,
    Expr.findings? place.inClass (place.scopesWith own) e =
      (Expr.occurrences? place own e).flatMap Occurrence.findings
  | some e => e.findings_eq place own
  | none => rfl

end

/-! ## Statements -/

theorem Place.declareReady_eq (place : Place) (name : Name) :
    place.scopes.declareReady name =
      ((place.behind [name]).scopes, Occurrence.findings ⟨.declared name, place, none⟩) :=
  Prod.ext (place.scopes_declareReady name) rfl

theorem Place.declareAll_eq : ∀ (place : Place) (params : List Name),
    place.scopes.declareAll params =
      ((place.behind params).scopes, (place.parameters params).flatMap Occurrence.findings)
  | place, [] => by rw [behind_nil]; rfl
  | place, param :: params => by
    have hbehind : (place.behind [param]).behind params = place.behind (param :: params) :=
      (place.behind_append [param] params).symm
    rw [Scopes.declareAll, place.declareReady_eq param]
    simp only
    rw [Place.declareAll_eq, hbehind, Place.parameters, List.flatMap_cons]

theorem Place.superclassFindings_eq (place : Place) (name : Name) :
    ∀ superclass : Option Reference, place.scopes.superclassFindings name superclass =
      (place.superclass name superclass).flatMap Occurrence.findings
  | some _ => by
    rw [Place.superclass, List.flatMap_cons, List.flatMap_singleton]
    rfl
  | none => rfl

mutual

/-- **The walk over a statement** comes to the scopes of the place behind it, and finds what is found
at its occurrences. -/
theorem Stmt.walk_eq : ∀ (place : Place) (s : Stmt),
    s.walk place.surroundings place.scopes =
      ((place.behind s.declares).scopes, (s.occurrences place).flatMap Occurrence.findings)
  | place, .expr value | place, .print value => by
    rw [Stmt.walk, Stmt.declares, Place.behind_nil]
    exact congrArg (Prod.mk _) (value.findings_eq place none)
  | place, .var name initializer => by
    have hinitializer := Expr.findings?_eq (place.behind [name]) (some name) initializer
    rw [Place.scopesWith, place.scopes_declare_behind, place.inClass_behind] at hinitializer
    rw [Stmt.walk, Stmt.occurrences, List.flatMap_cons, ← hinitializer]
    exact congrArg (Prod.mk · _) (place.scopes_declareReady name)
  | place, .block body => by
    have hbody := Stmt.walkAll_eq (place.inside .block []) body
    rw [Stmt.walk, Stmt.declares, Place.behind_nil, Stmt.occurrences]
    exact congrArg (Prod.mk _) hbody
  | place, .ifElse condition thenBranch none => by
    rw [Stmt.walk, Stmt.walk_eq place thenBranch, Stmt.occurrences, List.flatMap_append,
      ← condition.findings_eq place none]
    rfl
  | place, .ifElse condition thenBranch (some elseBranch) => by
    have helse := Stmt.walk_eq (place.behind thenBranch.declares) elseBranch
    rw [place.surroundings_behind, ← place.behind_append] at helse
    rw [Stmt.walk, Stmt.walk_eq place thenBranch, Stmt.occurrences, List.flatMap_append,
      List.flatMap_append, ← condition.findings_eq place none]
    simp only [helse]
    rfl
  | place, .whileDo condition body => by
    rw [Stmt.walk, Stmt.walk_eq place body, Stmt.occurrences, List.flatMap_append,
      ← condition.findings_eq place none]
    rfl
  | place, .function declaration => by
    have hfunction :=
      FunctionDecl.findings_eq .function (place.behind [declaration.name]) declaration
    rw [Place.surroundings_function, place.inClass_behind] at hfunction
    rw [Stmt.walk, place.declareReady_eq, Stmt.occurrences, List.flatMap_cons, ← hfunction]
    rfl
  | place, .ret keyword value => by
    rw [Stmt.walk, Stmt.declares, Place.behind_nil, Stmt.occurrences, List.flatMap_cons,
      ← Expr.findings?_eq place none value]
    rfl
  | place, .classDecl name superclass methods => by
    rw [Stmt.walk, place.declareReady_eq, Stmt.occurrences, List.flatMap_cons, List.flatMap_append,
      ← Place.superclassFindings_eq,
      ← FunctionDecl.allFindings_eq superclass (place.behind [name]) methods, ← List.append_assoc]
    rfl

theorem FunctionDecl.findings_eq : ∀ (enclosure : Enclosure) (place : Place) (f : FunctionDecl),
    f.findings (place.inside enclosure []).surroundings (enclosure.around place.scopes) =
      (f.occurrences enclosure place).flatMap Occurrence.findings
  | enclosure, place, ⟨_, params, body⟩ => by
    have hparams := Place.declareAll_eq (place.inside enclosure []) params
    have hbody := Stmt.walkAll_eq (place.inside enclosure params) body
    rw [Place.inside_behind] at hparams
    rw [← Place.inside_behind, Place.surroundings_behind, Place.inside_behind] at hbody
    have henter : (enclosure.around place.scopes).enter = (place.inside enclosure []).scopes := rfl
    rw [FunctionDecl.findings, henter, hparams, FunctionDecl.occurrences, List.flatMap_append,
      ← hbody]

theorem FunctionDecl.allFindings_eq : ∀ (superclass : Option Reference) (place : Place)
    (fs : List FunctionDecl),
    FunctionDecl.allFindings (.ofSuperclass superclass) (place.scopes.enterClass superclass) fs =
      (FunctionDecl.allOccurrences superclass place fs).flatMap Occurrence.findings
  | _, _, [] => rfl
  | superclass, place, method :: others => by
    have hmethod := FunctionDecl.findings_eq (.method method.name superclass) place method
    rw [FunctionDecl.allFindings, FunctionDecl.allOccurrences, List.flatMap_append,
      FunctionDecl.allFindings_eq superclass place others, ← hmethod]
    rfl

theorem Stmt.walkAll_eq : ∀ (place : Place) (ss : List Stmt),
    (Stmt.walkAll place.surroundings place.scopes ss).2 =
      (Stmt.allOccurrences place ss).flatMap Occurrence.findings
  | _, [] => rfl
  | place, first :: others => by
    have hothers := Stmt.walkAll_eq (place.behind first.declares) others
    rw [place.surroundings_behind] at hothers
    rw [Stmt.walkAll, Stmt.walk_eq place first, Stmt.allOccurrences, List.flatMap_append, ← hothers]

end

/-- **The findings of a program** are those of its occurrences, one after the other. -/
theorem Program.findings_eq (program : Program) :
    program.findings = program.occurrences.flatMap Occurrence.findings :=
  Stmt.walkAll_eq [] program

end Lox
