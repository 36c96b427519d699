import Lox.Machine.Evaluate
import Lox.Proofs.Joining.Primitives
import Lox.Proofs.Operators

/-!
# Expressions and calls vary

If the runs of the parts of an expression are followed on other lines, then so is the run of the
expression (`evaluateWith_follows`).  A call may go from new code to old code and back: a body is of
the origin that its function is marked with.
-/

namespace Lox.Joining

open Machine Run

variable {σ : Setting} {m : Machine} {marks : List Bool} {new : Bool}
  {evaluate : Expr → Run Value} {execute : Stmt → Run Flow}

/-- Whether the run of every known expression is followed on other lines. -/
def FollowsExpressions (σ : Setting) (evaluate : Expr → Run Value) : Prop :=
  ∀ {new : Bool} {e : Expr} {m : Machine} {marks : List Bool}, e.From (σ.origin new) →
    Fits σ m marks → Follows σ m marks (evaluate e) (fun v => evaluate (e.moved (v.shift new)))

/-- Whether the run of every known statement is followed on other lines. -/
def FollowsStatements (σ : Setting) (execute : Stmt → Run Flow) : Prop :=
  ∀ {new : Bool} {s : Stmt} {m : Machine} {marks : List Bool}, s.From (σ.origin new) →
    Fits σ m marks → Follows σ m marks (execute s) (fun v => execute (s.moved (v.shift new)))

/-! ## Operators -/

theorem applyUnary_moved (op : UnaryOp) (line : Nat) (shift : Shift) (operand : Value) :
    applyUnary op (line + shift.lines) operand =
      (applyUnary op line operand).mapError (Fault.moved shift) := by
  cases op <;> cases operand <;> rfl

theorem onNumbers_moved (line : Nat) (shift : Shift) (left right : Value)
    (f : Float → Float → Value) : onNumbers (line + shift.lines) left right f =
      (onNumbers line left right f).mapError (Fault.moved shift) := by
  unfold onNumbers
  split <;> rfl

theorem addValues_moved (line : Nat) (shift : Shift) (left right : Value) :
    addValues (line + shift.lines) left right =
      (addValues line left right).mapError (Fault.moved shift) := by
  unfold addValues
  split <;> rfl

theorem applyBinary_moved (op : BinaryOp) (line : Nat) (shift : Shift) (left right : Value) :
    applyBinary op (line + shift.lines) left right =
      (applyBinary op line left right).mapError (Fault.moved shift) := by
  cases op with
  | equal | notEqual => rfl
  | add => exact addValues_moved line shift left right
  | _ => exact onNumbers_moved line shift left right _

theorem line?_of_computed {line : Nat} {fault : Fault} (h : Computed line (.error fault)) :
    fault.line? = some line := by
  cases h <;> rfl

/-- What operators make of values is the same on every line, but for the line of the fault. -/
theorem Follows.ofExcept (h : Fits σ m marks) {result : Except Fault Value} {line : Nat}
    (hline : (σ.origin new).line line) (hresult : Computed line result) :
    Follows σ m marks (Run.ofExcept result)
      (fun v => Run.ofExcept (result.mapError (Fault.moved (v.shift new)))) := by
  cases result with
  | ok value => exact .pure h value
  | error fault =>
    refine .fail h fault ?_
    intro l hl
    rw [Stop.line?, line?_of_computed hresult] at hl
    cases hl
    exact hline

/-! ## Lists of statements and expressions -/

theorem runAll_follows (hexecute : FollowsStatements σ execute) : ∀ {ss : List Stmt} {m : Machine}
    {marks : List Bool}, Stmt.AllFrom (σ.origin new) ss → Fits σ m marks →
    Follows σ m marks (runAll execute ss)
      (fun v => runAll execute (Stmt.allMoved (v.shift new) ss))
  | [], _, _, _, h => .pure h Flow.normal
  | _ :: _, _, _, hfrom, h => by
    refine .bind (hexecute hfrom.1 h) fun flow m₁ marks₁ _ h₁ => ?_
    cases flow with
    | normal => exact runAll_follows hexecute hfrom.2 h₁
    | returned value => exact .pure h₁ (Flow.returned value)

theorem evaluateAll_follows (hevaluate : FollowsExpressions σ evaluate) : ∀ {es : List Expr}
    {m : Machine} {marks : List Bool}, Expr.AllFrom (σ.origin new) es → Fits σ m marks →
    Follows σ m marks (evaluateAll evaluate es)
      (fun v => evaluateAll evaluate (Expr.allMoved (v.shift new) es))
  | [], _, _, _, h => .pure h []
  | _ :: _, _, _, hfrom, h =>
    .bind (hevaluate hfrom.1 h) fun value _ _ _ h₁ =>
      .bind (evaluateAll_follows hevaluate hfrom.2 h₁) fun values _ _ _ h₂ =>
        .pure h₂ (value :: values)

/-! ## Calls -/

theorem bindParams_moved (shift : Shift) (params : List Name) (args : List Value) :
    bindParams (params.map (Name.moved shift)) args = bindParams params args := by
  rw [bindParams, bindParams, List.zip_map_left, List.foldl_map]
  rfl

/-- **A function's body** is run on the lines of the function's origin. -/
theorem callFunction_follows (hexecute : FollowsStatements σ execute) (h : Fits σ m marks)
    (id : FunctionId) (args : List Value) :
    Follows σ m marks (callFunction execute id args) (fun _ => callFunction execute id args) := by
  have hbody := h.held.body_from id
  unfold callFunction
  refine .getHeap ?_
  simp only [h.held.function_moved, FunctionObject.moved, FunctionDecl.moved_params,
    FunctionDecl.moved_body, bindParams_moved]
  refine .bind (.newFrame h _ _) fun frame m₁ marks₁ _ h₁ => ?_
  refine .bind (.withFrame (runAll_follows hexecute hbody (h₁.withEnvironment frame)))
    fun flow m₂ marks₂ _ h₂ => ?_
  cases (m.heap.function id).isInitializer with
  | true => exact .getAt h₂ _ 0 thisName
  | false => exact .pure h₂ flow.result

theorem construct_follows (hexecute : FollowsStatements σ execute) (h : Fits σ m marks)
    (id : ClassId) (args : List Value) :
    Follows σ m marks (construct execute id args) (fun _ => construct execute id args) := by
  unfold construct
  have hnew : Follows σ m marks (allocate (·.newInstance id)) (fun _ => allocate (·.newInstance id)) :=
    .step (h.withInstances _) rfl fun _ => rfl
  refine .bind hnew fun receiver m₁ marks₁ _ h₁ => .getHeap ?_
  simp only [findMethod?_moved]
  cases hfound : m₁.heap.findMethod? id initializerName with
  | none => exact .pure h₁ (Value.inst receiver)
  | some init =>
    have hlt := h₁.held.lt_of_findMethod? hfound
    exact .bind (.bindMethod h₁ hlt receiver) fun bound m₂ marks₂ _ h₂ =>
      .bind (callFunction_follows hexecute h₂ bound args) fun _ _ _ _ h₃ =>
        .pure h₃ (Value.inst receiver)

theorem call_follows (hexecute : FollowsStatements σ execute) (h : Fits σ m marks)
    (callee : Callable) (args : List Value) :
    Follows σ m marks (call execute callee args) (fun _ => call execute callee args) := by
  cases callee with
  | native f =>
    cases f
    exact .bind (.readClock h) fun time _ _ _ h₁ => .pure h₁ (Value.number time)
  | function id => exact callFunction_follows hexecute h id args
  | cls id => exact construct_follows hexecute h id args

theorem callValue_follows (hexecute : FollowsStatements σ execute) (h : Fits σ m marks) {line : Nat}
    (hline : (σ.origin new).line line) (callee : Value) (args : List Value) :
    Follows σ m marks (callValue execute line callee args)
      (fun v => callValue execute (line + (v.shift new).lines) callee args) := by
  unfold callValue
  cases callee.callable? with
  | none => exact .fail h (.notCallable line) (by rintro _ ⟨⟩; exact hline)
  | some target =>
    refine .getHeap ?_
    simp only [h.held.arity_moved]
    split
    · exact call_follows hexecute h target args
    · exact .fail h (.argumentCount line _ _) (by rintro _ ⟨⟩; exact hline)

/-! ## Expressions -/

/-- **Expressions are followed** if their parts are. -/
theorem evaluateWith_follows (hevaluate : FollowsExpressions σ evaluate)
    (hexecute : FollowsStatements σ execute) :
    FollowsExpressions σ (evaluateWith evaluate execute) := by
  intro new e m marks hfrom h
  cases e with
  | literal value => exact .pure h (Value.ofLiteral value)
  | group inner => exact hevaluate hfrom h
  | unary op line operand =>
    refine .bind (hevaluate hfrom.2 h) fun a m₁ marks₁ _ h₁ => ?_
    simp only [applyUnary_moved]
    exact .ofExcept h₁ hfrom.1 (computed_applyUnary _ _ _)
  | binary left op line right =>
    refine .bind (hevaluate hfrom.2.1 h) fun a m₁ marks₁ _ h₁ => ?_
    refine .bind (hevaluate hfrom.2.2 h₁) fun b m₂ marks₂ _ h₂ => ?_
    simp only [applyBinary_moved]
    exact .ofExcept h₂ hfrom.1 (computed_applyBinary _ _ _ _)
  | logical left op right =>
    refine .bind (hevaluate hfrom.1 h) fun a m₁ marks₁ _ h₁ => ?_
    cases hsettles : settles op a with
    | true => exact .pure h₁ a
    | false => exact hevaluate hfrom.2 h₁
  | var r => exact .lookUp h hfrom
  | assign target value =>
    exact .bind (hevaluate hfrom.2 h) fun a m₁ marks₁ _ h₁ =>
      .bind (.store h₁ hfrom.1 a) fun _ m₂ marks₂ _ h₂ => .pure h₂ a
  | call callee line args =>
    exact .bind (hevaluate hfrom.2.1 h) fun f m₁ marks₁ _ h₁ =>
      .bind (evaluateAll_follows hevaluate hfrom.2.2 h₁) fun values m₂ marks₂ _ h₂ =>
        callValue_follows hexecute h₂ hfrom.1 f values
  | get object name =>
    refine .bind (hevaluate hfrom.2 h) fun a m₁ marks₁ _ h₁ => ?_
    cases a with
    | inst id => exact .property h₁ id hfrom.1
    | _ => exact .fail h₁ (.noProperties name.line) (by rintro _ ⟨⟩; exact hfrom.1)
  | set object name value =>
    refine .bind (hevaluate hfrom.2.1 h) fun a m₁ marks₁ _ h₁ => ?_
    cases a with
    | inst id =>
      refine .bind (hevaluate hfrom.2.2 h₁) fun b m₂ marks₂ _ h₂ => ?_
      exact .bind (.step (h₂.withInstances _) rfl fun _ => rfl) fun _ m₃ marks₃ _ h₃ => .pure h₃ b
    | _ => exact .fail h₁ (.noFields name.line) (by rintro _ ⟨⟩; exact hfrom.1)
  | this keyword => exact .lookUp h hfrom
  | super keyword method => exact .superMethod h hfrom.1 hfrom.2

end Lox.Joining
