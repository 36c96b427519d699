import Lox.Proofs.Copies.Steps
import Lox.Proofs.Interpret

/-!
# Runs on a copy

A program comes to the same on a copy of the machine, if its own references are given the copy's
identities too (`copied_program`).  Each form of expression and statement is copied if its parts
are, so all are, by induction on the fuel.
-/

namespace Lox.Machine

open Run

variable {c : Copy} {m : Machine} {evaluate : Expr → Run Value} {execute : Stmt → Run Flow}

/-- Whether every expression comes to the same on a copy. -/
def CopiesExpressions (c : Copy) (evaluate : Expr → Run Value) : Prop :=
  ∀ (e : Expr) {m : Machine}, m.distances = c.table →
    Copied c m (evaluate e) (evaluate (e.renumbered c.ids))

/-- Whether every statement comes to the same on a copy. -/
def CopiesStatements (c : Copy) (execute : Stmt → Run Flow) : Prop :=
  ∀ (s : Stmt) {m : Machine}, m.distances = c.table →
    Copied c m (execute s) (execute (s.renumbered c.ids))

/-! ## Lists of statements and expressions -/

theorem copied_runAll (hexecute : CopiesStatements c execute) : ∀ (ss : List Stmt) {m : Machine},
    m.distances = c.table →
    Copied c m (runAll execute ss) (runAll execute (Stmt.allRenumbered c.ids ss))
  | [], _, h => .pure h Flow.normal
  | s :: ss, _, h => by
    refine .bind (hexecute s h) fun flow m₁ h₁ => ?_
    cases flow with
    | normal => exact copied_runAll hexecute ss h₁
    | returned value => exact .pure h₁ (Flow.returned value)

theorem copied_evaluateAll (hevaluate : CopiesExpressions c evaluate) : ∀ (es : List Expr)
    {m : Machine}, m.distances = c.table →
    Copied c m (evaluateAll evaluate es) (evaluateAll evaluate (Expr.allRenumbered c.ids es))
  | [], _, h => .pure h []
  | e :: es, _, h =>
    .bind (hevaluate e h) fun value _ h₁ =>
      .bind (copied_evaluateAll hevaluate es h₁) fun values _ h₂ => .pure h₂ (value :: values)

/-! ## Calls -/

theorem copied_callFunction (hexecute : CopiesStatements c execute) (h : m.distances = c.table)
    (id : FunctionId) (args : List Value) :
    Copied c m (callFunction execute id args) (callFunction execute id args) := by
  unfold callFunction
  refine .getHeap ?_
  simp only [Heap.function_renumbered, FunctionObject.renumbered, FunctionDecl.renumbered_params,
    FunctionDecl.renumbered_body]
  refine .bind (.newFrame h _ _) fun frame m₁ h₁ => ?_
  refine .bind (.withFrame (copied_runAll hexecute _ h₁)) fun flow m₂ h₂ => ?_
  cases (m.heap.function id).isInitializer with
  | true => exact .getAt h₂ _ 0 thisName
  | false => exact .pure h₂ flow.result

theorem copied_construct (hexecute : CopiesStatements c execute) (h : m.distances = c.table)
    (id : ClassId) (args : List Value) :
    Copied c m (construct execute id args) (construct execute id args) := by
  unfold construct
  have hnew : Copied c m (allocate (·.newInstance id)) (allocate (·.newInstance id)) :=
    .step rfl rfl h
  refine .bind hnew fun receiver m₁ h₁ => .getHeap ?_
  simp only [Heap.findMethod?_renumbered]
  cases m₁.heap.findMethod? id initializerName with
  | none => exact .pure h₁ (Value.inst receiver)
  | some init =>
    exact .bind (.bindMethod h₁ init receiver) fun bound _ h₂ =>
      .bind (copied_callFunction hexecute h₂ bound args) fun _ _ h₃ =>
        .pure h₃ (Value.inst receiver)

theorem copied_callValue (hexecute : CopiesStatements c execute) (h : m.distances = c.table)
    (line : Nat) (callee : Value) (args : List Value) :
    Copied c m (callValue execute line callee args) (callValue execute line callee args) := by
  unfold callValue
  cases callee.callable? with
  | none => exact .fail h (.notCallable line)
  | some target =>
    refine .getHeap ?_
    simp only [Heap.arity_renumbered]
    split
    · cases target with
      | native f =>
        cases f
        exact .bind (.readClock h) fun time _ h₁ => .pure h₁ (Value.number time)
      | function id => exact copied_callFunction hexecute h id args
      | cls id => exact copied_construct hexecute h id args
    · exact .fail h (.argumentCount line _ _)

/-! ## Expressions -/

theorem copied_ofExcept {α : Type} (h : m.distances = c.table) (result : Except Fault α) :
    Copied c m (Run.ofExcept result) (Run.ofExcept result) := by
  cases result with
  | ok a => exact .pure h a
  | error fault => exact .fail h fault

/-- **Expressions are copied** if their parts are. -/
theorem copied_evaluateWith (hevaluate : CopiesExpressions c evaluate)
    (hexecute : CopiesStatements c execute) :
    CopiesExpressions c (evaluateWith evaluate execute) := by
  intro e m h
  cases e with
  | literal value => exact .pure h (Value.ofLiteral value)
  | group inner => exact hevaluate inner h
  | unary op line operand =>
    exact .bind (hevaluate operand h) fun a _ h₁ => copied_ofExcept h₁ (applyUnary op line a)
  | binary left op line right =>
    exact .bind (hevaluate left h) fun a _ h₁ => .bind (hevaluate right h₁) fun b _ h₂ =>
      copied_ofExcept h₂ (applyBinary op line a b)
  | logical left op right =>
    refine .bind (hevaluate left h) fun a m₁ h₁ => ?_
    cases settles op a with
    | true => exact .pure h₁ a
    | false => exact hevaluate right h₁
  | var r => exact .lookUp h r
  | assign target value =>
    exact .bind (hevaluate value h) fun a _ h₁ => .bind (.store h₁ target a) fun _ _ h₂ =>
      .pure h₂ a
  | call callee line args =>
    exact .bind (hevaluate callee h) fun f _ h₁ =>
      .bind (copied_evaluateAll hevaluate args h₁) fun values _ h₂ =>
        copied_callValue hexecute h₂ line f values
  | get object name =>
    refine .bind (hevaluate object h) fun a m₁ h₁ => ?_
    cases a with
    | inst id => exact .property h₁ id name
    | _ => exact .fail h₁ (.noProperties name.line)
  | set object name value =>
    refine .bind (hevaluate object h) fun a m₁ h₁ => ?_
    cases a with
    | inst id =>
      exact .bind (hevaluate value h₁) fun b _ h₂ => .bind (.step rfl rfl h₂) fun _ _ h₃ =>
        .pure h₃ b
    | _ => exact .fail h₁ (.noFields name.line)
  | this keyword => exact .lookUp h keyword
  | super keyword method => exact .superMethod h keyword method

/-! ## Classes -/

theorem copied_superclassOf (h : m.distances = c.table) (r : Option Reference) :
    Copied c m (superclassOf r) (superclassOf (r.map (Reference.renumbered c.ids))) := by
  cases r with
  | none => exact .pure h none
  | some r =>
    refine .bind (.lookUp h r) fun value _ h₁ => ?_
    cases value with
    | cls id => exact .pure h₁ (some id)
    | _ => exact .fail h₁ (.superclassNotClass r.name.line)

theorem copied_methodFrame (h : m.distances = c.table) (parent : Option ClassId) :
    Copied c m (methodFrame parent) (methodFrame parent) := by
  cases parent with
  | none => exact .get (.pure h m.environment)
  | some parent => exact .get (.newFrame h _ _)

theorem copied_makeMethods (frame : FrameId) : ∀ (fs : List FunctionDecl)
    (methods : Table FunctionId) {m : Machine}, m.distances = c.table →
    Copied c m (makeMethods frame methods fs)
      (makeMethods frame methods (FunctionDecl.allRenumbered c.ids fs))
  | [], methods, _, h => .pure h methods
  | f :: fs, methods, _, h => by
    have hnew := Copied.newFunction h ⟨f, frame, f.isInitializer⟩
    simp only [FunctionDecl.allRenumbered, makeMethods, FunctionDecl.renumbered_isInitializer,
      FunctionDecl.renumbered_name]
    exact .bind hnew fun id _ h₁ => copied_makeMethods frame fs _ h₁

theorem copied_assignName (h : m.distances = c.table) (name : Name) (value : Value) :
    Copied c m (assignName name value) (assignName name value) := by
  refine .get ?_
  simp only [copied_heap, copied_environment, Heap.renumbered_frames]
  cases m.heap.frames.holder? m.environment name.text with
  | some frame => exact .modifyFrames h _
  | none => exact .fail h (.undefinedVariable name)

theorem copied_declareClass (h : m.distances = c.table) (name : Name)
    (superclass : Option Reference) (methods : List FunctionDecl) :
    Copied c m (declareClass name superclass methods)
      (declareClass name (superclass.map (Reference.renumbered c.ids))
        (FunctionDecl.allRenumbered c.ids methods)) := by
  simp only [declareClass_eq]
  refine .bind (.define h name.text .nil) fun _ _ h₁ => ?_
  refine .bind (copied_superclassOf h₁ superclass) fun parent _ h₂ => ?_
  refine .bind (copied_methodFrame h₂ parent) fun frame _ h₃ => ?_
  refine .bind (copied_makeMethods frame methods .empty h₃) fun table m₄ h₄ => ?_
  have hnew : Copied c m₄ (allocate (·.newClass ⟨name.text, parent, table⟩))
      (allocate (·.newClass ⟨name.text, parent, table⟩)) := .step rfl rfl h₄
  exact .bind hnew fun id _ h₅ => copied_assignName h₅ name (.cls id)

/-! ## Statements -/

theorem copied_loop {condition : Expr} {body : Stmt} (hevaluate : CopiesExpressions c evaluate)
    (hexecute : CopiesStatements c execute) : ∀ (rounds : Nat) {m : Machine},
    m.distances = c.table → Copied c m (loop (evaluate condition) (execute body) rounds)
      (loop (evaluate (condition.renumbered c.ids)) (execute (body.renumbered c.ids)) rounds)
  | 0, _, h => .outOfFuel h
  | rounds + 1, _, h => by
    refine .bind (hevaluate condition h) fun value m₁ h₁ => ?_
    cases value.isTruthy with
    | false => exact .pure h₁ Flow.normal
    | true =>
      refine .bind (hexecute body h₁) fun flow m₂ h₂ => ?_
      cases flow with
      | normal => exact copied_loop hevaluate hexecute rounds h₂
      | returned value => exact .pure h₂ (Flow.returned value)

theorem copied_evaluate? (hevaluate : CopiesExpressions c evaluate) (h : m.distances = c.table)
    (e : Option Expr) : Copied c m (evaluate? evaluate e)
      (evaluate? evaluate (e.map (Expr.renumbered c.ids))) := by
  cases e with
  | none => exact .pure h Value.nil
  | some e => exact hevaluate e h

/-- **Statements are copied** if their parts are. -/
theorem copied_executeWith (hevaluate : CopiesExpressions c evaluate)
    (hexecute : CopiesStatements c execute) (rounds : Nat) :
    CopiesStatements c (executeWith evaluate execute rounds) := by
  intro s m h
  cases s with
  | expr value => exact .bind (hevaluate value h) fun _ _ h₁ => .pure h₁ Flow.normal
  | print value =>
    refine .bind (hevaluate value h) fun a m₁ h₁ => .getHeap ?_
    simp only [Heap.display_renumbered]
    exact .bind (.writeLine h₁ _) fun _ _ h₂ => .pure h₂ Flow.normal
  | var name initializer =>
    exact .bind (copied_evaluate? hevaluate h initializer) fun a _ h₁ =>
      .bind (.define h₁ name.text a) fun _ _ h₂ => .pure h₂ Flow.normal
  | block body =>
    refine .get (.bind (.newFrame h _ _) fun frame m₁ h₁ => ?_)
    exact .withFrame (copied_runAll hexecute body h₁)
  | ifElse condition thenBranch elseBranch =>
    cases elseBranch with
    | none =>
      refine .bind (hevaluate condition h) fun a m₁ h₁ => ?_
      cases a.isTruthy with
      | true => exact hexecute thenBranch h₁
      | false => exact .pure h₁ Flow.normal
    | some elseBranch =>
      refine .bind (hevaluate condition h) fun a m₁ h₁ => ?_
      cases a.isTruthy with
      | true => exact hexecute thenBranch h₁
      | false => exact hexecute elseBranch h₁
  | whileDo condition body => exact copied_loop hevaluate hexecute rounds h
  | function declaration =>
    have hnew := Copied.newFunction h ⟨declaration, m.environment, false⟩
    cases declaration
    exact .get (.bind hnew fun id _ h₁ =>
      .bind (.define h₁ _ (.function id)) fun _ _ h₂ => .pure h₂ Flow.normal)
  | ret keyword value =>
    exact .bind (copied_evaluate? hevaluate h value) fun a _ h₁ => .pure h₁ (Flow.returned a)
  | classDecl name superclass methods =>
    exact .bind (copied_declareClass h name superclass methods) fun _ _ h₁ =>
      .pure h₁ Flow.normal

theorem evaluate_execute_copied (c : Copy) : ∀ fuel : Nat,
    CopiesExpressions c (Machine.evaluate fuel) ∧ CopiesStatements c (Machine.execute fuel)
  | 0 => ⟨fun _ _ h => .outOfFuel h, fun _ _ h => .outOfFuel h⟩
  | fuel + 1 => by
    obtain ⟨hevaluate, hexecute⟩ := evaluate_execute_copied c fuel
    exact ⟨copied_evaluateWith hevaluate hexecute, copied_executeWith hevaluate hexecute fuel⟩

/-! ## Programs -/

theorem copied_runProgram (fuel : Nat) : ∀ (program : Program) {m : Machine},
    m.distances = c.table →
    Copied c m (runProgram fuel program) (runProgram fuel (Stmt.allRenumbered c.ids program))
  | [], _, h => .pure h ()
  | s :: program, _, h =>
    .bind ((evaluate_execute_copied c fuel).2 s h) fun _ _ h₁ => copied_runProgram fuel program h₁

theorem Copied.backToGlobals {x y : Run Unit} (h : Copied c m x y) :
    Copied c m (Machine.backToGlobals x) (Machine.backToGlobals y) := by
  obtain ⟨m₁, h₁, ⟨a, hx, hy⟩ | ⟨stop, hx, hy⟩⟩ := h
  · exact ⟨m₁, h₁, .inl ⟨a, backToGlobals_of_ok hx, backToGlobals_of_ok hy⟩⟩
  · exact ⟨{ m₁ with environment := m₁.globals }, h₁,
      .inr ⟨stop, backToGlobals_of_error hx, backToGlobals_of_error hy⟩⟩

theorem Copied.flushOnStop {x y : Run Unit} (h : Copied c m x y) :
    Copied c m (Machine.flushOnStop x) (Machine.flushOnStop y) := by
  obtain ⟨m₁, h₁, ⟨a, hx, hy⟩ | ⟨stop, hx, hy⟩⟩ := h
  · exact ⟨m₁, h₁, .inl ⟨a, flushOnStop_of_ok hx, flushOnStop_of_ok hy⟩⟩
  · exact ⟨{ m₁ with flushes := m₁.flushes + 1 }, h₁,
      .inr ⟨stop, flushOnStop_of_error hx, flushOnStop_of_error hy⟩⟩

/-- **A program comes to the same on a copy**, up to its end and the flush behind it. -/
theorem copied_program (fuel : Nat) (program : Program) (h : m.distances = c.table) :
    Copied c m
      (Machine.flushOnStop (Machine.backToGlobals (runProgram fuel program)) >>= fun _ => flush)
      (Machine.flushOnStop
        (Machine.backToGlobals (runProgram fuel (Stmt.allRenumbered c.ids program))) >>=
          fun _ => flush) :=
  .bind (copied_runProgram fuel program h).backToGlobals.flushOnStop fun _ _ h₁ => .flush h₁

end Lox.Machine
