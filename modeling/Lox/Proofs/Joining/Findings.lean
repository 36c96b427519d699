import Lox.Scope.Findings
import Lox.Proofs.Joining.Moved

/-!
# Findings of moved trees

What is found out about a tree on later lines is what was found out about it before, under the later
identities and at the names on the later lines (`Stmt.walk_moved`).  Scopes hold no lines, so they
are the same on both walks.
-/

namespace Lox

variable (shift : Shift)

theorem Finding.violation_moved (p : Prop) [Decidable p] (name : Name) (rule : ScopeRule) :
    (if p then [violation (name.moved shift) rule] else []) =
      (if p then [violation name rule] else []).map (Finding.moved shift) := by
  by_cases hp : p
  · simp only [if_pos hp]
    rfl
  · simp only [if_neg hp]
    rfl

namespace Scopes

theorem declare_moved (scopes : Scopes) (name : Name) :
    scopes.declare (name.moved shift) =
      ((scopes.declare name).1, (scopes.declare name).2.map (Finding.moved shift)) := by
  cases scopes with
  | nil => rfl
  | cons scope outer =>
    have htwice := Finding.violation_moved shift (scope.contains name.text) name .declaredTwice
    exact congrArg (Prod.mk (scope.put name.text false :: outer)) htwice

theorem ready_moved (scopes : Scopes) (name : Name) :
    scopes.ready (name.moved shift) = scopes.ready name := by
  cases scopes <;> rfl

theorem declareReady_moved (scopes : Scopes) (name : Name) :
    scopes.declareReady (name.moved shift) =
      ((scopes.declareReady name).1, (scopes.declareReady name).2.map (Finding.moved shift)) := by
  simp only [declareReady, declare_moved, ready_moved]

theorem declareAll_moved : ∀ (names : List Name) (scopes : Scopes),
    scopes.declareAll (names.map (Name.moved shift)) =
      ((scopes.declareAll names).1, (scopes.declareAll names).2.map (Finding.moved shift))
  | [], _ => rfl
  | name :: names, scopes => by
    simp only [List.map_cons, declareAll, declareReady_moved, declareAll_moved names,
      List.map_append]

theorem bind_moved (scopes : Scopes) (id : Nat) (name : String) :
    scopes.bind (shift.ids + id) name = (scopes.bind id name).map (Finding.moved shift) := by
  unfold bind
  split <;> rfl

theorem read_moved (scopes : Scopes) (r : Reference) :
    scopes.read (r.moved shift) = (scopes.read r).map (Finding.moved shift) := by
  have hpending := Finding.violation_moved shift (scopes.pending r.name.text) r.name
    .readInOwnInitializer
  have hbind := bind_moved shift scopes r.id r.name.text
  unfold read
  rw [List.map_append, ← hpending, ← hbind]
  rfl

theorem superFindings_moved (scopes : Scopes) (context : ClassContext) (keyword : Reference) :
    scopes.superFindings context (keyword.moved shift) =
      (scopes.superFindings context keyword).map (Finding.moved shift) := by
  have hbind := bind_moved shift scopes keyword.id superName
  simp only [superFindings, List.map_append]
  rw [← hbind]
  cases context <;> rfl

end Scopes

/-! ## Expressions -/

mutual

/-- **Findings of an expression** on later lines. -/
theorem Expr.findings_moved (context : ClassContext) (scopes : Scopes) : ∀ e : Expr,
    (e.moved shift).findings context scopes =
      (e.findings context scopes).map (Finding.moved shift)
  | .literal _ => rfl
  | .group inner => Expr.findings_moved context scopes inner
  | .unary _ _ operand => Expr.findings_moved context scopes operand
  | .binary left _ _ right | .logical left _ right | .set left _ right => by
    simp only [Expr.moved, Expr.findings, Expr.findings_moved context scopes left,
      Expr.findings_moved context scopes right, List.map_append]
  | .var r => scopes.read_moved shift r
  | .assign r value => by
    have hbind := scopes.bind_moved shift r.id r.name.text
    simp only [Expr.moved, Expr.findings, Expr.findings_moved context scopes value,
      List.map_append, ← hbind]
    rfl
  | .call callee _ args => by
    simp only [Expr.moved, Expr.findings, Expr.findings_moved context scopes callee,
      Expr.allFindings_moved context scopes args, List.map_append]
  | .get object _ => Expr.findings_moved context scopes object
  | .this keyword => by
    have hbind := scopes.bind_moved shift keyword.id thisName
    simp only [Expr.moved, Expr.findings]
    split
    · rfl
    · exact hbind
  | .super keyword _ => scopes.superFindings_moved shift context keyword

theorem Expr.allFindings_moved (context : ClassContext) (scopes : Scopes) : ∀ es : List Expr,
    Expr.allFindings context scopes (Expr.allMoved shift es) =
      (Expr.allFindings context scopes es).map (Finding.moved shift)
  | [] => rfl
  | e :: es => by
    simp only [Expr.allMoved, Expr.allFindings, Expr.findings_moved context scopes e,
      Expr.allFindings_moved context scopes es, List.map_append]

end

theorem Expr.findings?_moved (context : ClassContext) (scopes : Scopes) (e : Option Expr) :
    Expr.findings? context scopes (e.map (Expr.moved shift)) =
      (Expr.findings? context scopes e).map (Finding.moved shift) := by
  cases e with
  | none => rfl
  | some e => exact e.findings_moved shift context scopes

/-! ## Statements -/

theorem FunctionContext.returnFindings_moved (context : FunctionContext) (keyword : Name)
    (hasValue : Bool) : context.returnFindings (keyword.moved shift) hasValue =
      (context.returnFindings keyword hasValue).map (Finding.moved shift) := by
  simp only [returnFindings, Finding.violation_moved, List.map_append]

theorem Scopes.superclassFindings_moved (scopes : Scopes) (name : Name) (r : Option Reference) :
    scopes.superclassFindings (name.moved shift) (r.map (Reference.moved shift)) =
      (scopes.superclassFindings name r).map (Finding.moved shift) := by
  cases r with
  | none => rfl
  | some r =>
    have hself := Finding.violation_moved shift (r.name.text = name.text) r.name .inheritsFromItself
    simp only [superclassFindings, Option.map_some, scopes.read_moved shift r, List.map_append,
      ← hself]
    rfl

theorem Scopes.enterClass_moved (scopes : Scopes) (r : Option Reference) :
    scopes.enterClass (r.map (Reference.moved shift)) = scopes.enterClass r := by
  cases r <;> rfl

theorem ClassContext.ofSuperclass_moved (r : Option Reference) :
    ClassContext.ofSuperclass (r.map (Reference.moved shift)) = ClassContext.ofSuperclass r := by
  cases r <;> rfl

theorem FunctionContext.ofMethod_moved (f : FunctionDecl) :
    FunctionContext.ofMethod (f.moved shift) = FunctionContext.ofMethod f := by
  unfold ofMethod
  rw [FunctionDecl.moved_isInitializer]

mutual

/-- **Findings of a statement** on later lines; the scopes behind it are the same. -/
theorem Stmt.walk_moved (around : Surroundings) : ∀ (s : Stmt) (scopes : Scopes),
    (s.moved shift).walk around scopes =
      ((s.walk around scopes).1, (s.walk around scopes).2.map (Finding.moved shift))
  | .expr value, scopes | .print value, scopes => by
    simp only [Stmt.moved, Stmt.walk, value.findings_moved]
  | .var name initializer, scopes => by
    simp only [Stmt.moved, Stmt.walk, Scopes.declare_moved, Scopes.ready_moved,
      Expr.findings?_moved, List.map_append]
  | .block body, scopes => by
    simp only [Stmt.moved, Stmt.walk, Stmt.walkAll_moved around body]
  | .ifElse condition thenBranch none, scopes => by
    simp only [Stmt.moved, Stmt.walk, condition.findings_moved, Stmt.walk_moved around thenBranch,
      List.map_append]
  | .ifElse condition thenBranch (some elseBranch), scopes => by
    simp only [Stmt.moved, Stmt.walk, condition.findings_moved, Stmt.walk_moved around thenBranch,
      Stmt.walk_moved around elseBranch, List.map_append]
  | .whileDo condition body, scopes => by
    simp only [Stmt.moved, Stmt.walk, condition.findings_moved, Stmt.walk_moved around body,
      List.map_append]
  | .function declaration, scopes => by
    simp only [Stmt.moved, Stmt.walk, FunctionDecl.moved_name, Scopes.declareReady_moved,
      FunctionDecl.findings_moved _ declaration, List.map_append]
  | .ret keyword value, scopes => by
    simp only [Stmt.moved, Stmt.walk, FunctionContext.returnFindings_moved, Option.isSome_map,
      Expr.findings?_moved, List.map_append]
  | .classDecl name superclass methods, scopes => by
    simp only [Stmt.moved, Stmt.walk, Scopes.declareReady_moved, Scopes.superclassFindings_moved,
      Scopes.enterClass_moved, ClassContext.ofSuperclass_moved,
      FunctionDecl.allFindings_moved _ methods, List.map_append]

theorem FunctionDecl.findings_moved (inside : Surroundings) : ∀ (f : FunctionDecl)
    (scopes : Scopes), (f.moved shift).findings inside scopes =
      (f.findings inside scopes).map (Finding.moved shift)
  | ⟨_, params, body⟩, scopes => by
    simp only [FunctionDecl.moved, FunctionDecl.findings, Scopes.declareAll_moved,
      Stmt.walkAll_moved inside body, List.map_append]

theorem FunctionDecl.allFindings_moved (context : ClassContext) : ∀ (fs : List FunctionDecl)
    (scopes : Scopes), FunctionDecl.allFindings context scopes (FunctionDecl.allMoved shift fs) =
      (FunctionDecl.allFindings context scopes fs).map (Finding.moved shift)
  | [], _ => rfl
  | f :: fs, scopes => by
    simp only [FunctionDecl.allMoved, FunctionDecl.allFindings, FunctionContext.ofMethod_moved,
      FunctionDecl.findings_moved _ f, FunctionDecl.allFindings_moved context fs, List.map_append]

theorem Stmt.walkAll_moved (around : Surroundings) : ∀ (ss : List Stmt) (scopes : Scopes),
    Stmt.walkAll around scopes (Stmt.allMoved shift ss) =
      ((Stmt.walkAll around scopes ss).1,
        (Stmt.walkAll around scopes ss).2.map (Finding.moved shift))
  | [], _ => rfl
  | s :: ss, scopes => by
    simp only [Stmt.allMoved, Stmt.walkAll, Stmt.walk_moved around s, Stmt.walkAll_moved around ss,
      List.map_append]

end

/-! ## Programs -/

namespace Program

theorem findings_moved (program : Program) :
    Program.findings (Stmt.allMoved shift program) =
      program.findings.map (Finding.moved shift) := by
  simp only [findings, Stmt.walkAll_moved]

/-- A program on later lines breaks no rule that it did not break before. -/
theorem violations_moved {program : Program} (h : program.violations = []) :
    Program.violations (Stmt.allMoved shift program) = [] := by
  unfold violations at h ⊢
  rw [findings_moved, List.filterMap_map, List.filterMap_eq_nil_iff] at *
  intro finding hfinding
  have hnone := h finding hfinding
  cases finding with
  | bound => rfl
  | violation => cases hnone

/-- Later identities change nothing about the rules that a program breaks. -/
theorem violations_later (program : Program) (ids : Nat) :
    Program.violations (Stmt.allMoved ⟨ids, 0⟩ program) = program.violations := by
  unfold violations
  rw [findings_moved, List.filterMap_map]
  congr 1
  funext finding
  cases finding <;> rfl

theorem distances_moved_down (program : Program) (lines : Nat) :
    Program.distances (Stmt.allMoved (.down lines) program) = program.distances := by
  unfold distances
  rw [findings_moved, List.filterMap_map]
  congr 1
  funext finding
  cases finding with
  | bound id d => exact congrArg (fun key => some (key, d)) (Nat.zero_add id)
  | violation => rfl

end Program

end Lox
