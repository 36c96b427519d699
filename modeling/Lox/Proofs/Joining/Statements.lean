import Lox.Proofs.Joining.Expressions
import Lox.Proofs.Restoring

/-!
# Statements and programs vary

The run of a statement is followed on other lines (`execute_follows`), by induction on the fuel, and
so is the run of a program (`runProgram_follows`): what is old stays on its lines, and all lines of
what is new are later by the same number.
-/

namespace Lox.Joining

open Machine Run

variable {σ : Setting} {m : Machine} {marks : List Bool} {new : Bool}
  {evaluate : Expr → Run Value} {execute : Stmt → Run Flow}

/-! ## Classes -/

theorem superclassOf_follows (h : Fits σ m marks) {r : Option Reference}
    (hr : Reference.From? (σ.origin new) r) :
    Follows σ m marks (superclassOf r)
      (fun v => superclassOf (r.map (Reference.moved (v.shift new)))) := by
  cases r with
  | none => exact .pure h none
  | some r =>
    refine .bind (.lookUp h hr) fun value m₁ marks₁ _ h₁ => ?_
    cases value with
    | cls id => exact .pure h₁ (some id)
    | _ => exact .fail h₁ (.superclassNotClass r.name.line) (by rintro _ ⟨⟩; exact hr.2)

theorem methodFrame_follows (h : Fits σ m marks) (parent : Option ClassId) :
    Follows σ m marks (methodFrame parent) (fun _ => methodFrame parent) := by
  cases parent with
  | none => exact .get (.pure h m.environment)
  | some parent => exact .get (.newFrame h _ _)

theorem makeMethods_follows (frame : FrameId) : ∀ {fs : List FunctionDecl}
    (methods : Table FunctionId) {m : Machine} {marks : List Bool},
    FunctionDecl.AllFrom (σ.origin new) fs → Fits σ m marks →
    Follows σ m marks (makeMethods frame methods fs)
      (fun v => makeMethods frame methods (FunctionDecl.allMoved (v.shift new) fs))
  | [], methods, _, _, _, h => .pure h methods
  | f :: fs, methods, m, marks, hfrom, h => by
    have hnew := Follows.newFunction h ⟨f, frame, f.isInitializer⟩ hfrom.1
    simp only [FunctionDecl.allMoved, makeMethods, FunctionDecl.moved_isInitializer,
      FunctionDecl.moved_name, Name.moved_text]
    exact .bind hnew fun id m₁ marks₁ _ h₁ => makeMethods_follows frame _ hfrom.2 h₁

theorem lt_of_makeMethods (frame : FrameId) : ∀ {fs : List FunctionDecl}
    {methods table : Table FunctionId} {m m' : Machine},
    makeMethods frame methods fs m = .ok table m' →
    (∀ name id, methods.get? name = some id → id.index < m.heap.functions.size) →
    ∀ name id, table.get? name = some id → id.index < m'.heap.functions.size
  | [], _, _, _, _, hmade, hmethods => by
    cases hmade
    exact hmethods
  | f :: fs, methods, table, m, m', hmade, hmethods => by
    unfold makeMethods at hmade
    obtain ⟨id, m₁, hid, hrest⟩ := Steps.bind_eq_ok.mp hmade
    cases hid
    refine lt_of_makeMethods frame hrest fun name id hget => ?_
    have hsize : (m.heap.functions.push ⟨f, frame, f.isInitializer⟩).size =
        m.heap.functions.size + 1 := Array.size_push _
    show id.index < (m.heap.functions.push ⟨f, frame, f.isInitializer⟩).size
    by_cases hname : name = f.name.text
    · subst hname
      rw [Table.get?_put_self] at hget
      cases hget
      show m.heap.functions.size < _
      omega
    · rw [Table.get?_put_of_ne _ _ hname] at hget
      have hlt := hmethods name id hget
      omega

theorem newClass_follows (h : Fits σ m marks) (object : ClassObject)
    (hmethods : ∀ name id, object.methods.get? name = some id →
      id.index < m.heap.functions.size) :
    Follows σ m marks (allocate (·.newClass object)) (fun _ => allocate (·.newClass object)) := by
  have hheld : Held σ (m.heap.newClass object).2 marks := by
    refine ⟨h.held.length, h.held.known, fun i c hc name id hid => ?_⟩
    have hc : (m.heap.classes.push object)[i]? = some c := hc
    rw [Array.getElem?_push] at hc
    split at hc
    · cases hc
      exact hmethods name id hid
    · exact h.held.methods i c hc name id hid
  have hfits : Fits σ { m with heap := (m.heap.newClass object).2 } marks :=
    ⟨hheld, h.distances, h.flushes⟩
  exact .step hfits rfl fun _ => rfl

theorem assignName_follows (h : Fits σ m marks) {name : Name}
    (hname : (σ.origin new).line name.line) (value : Value) :
    Follows σ m marks (assignName name value)
      (fun v => assignName (name.moved (v.shift new)) value) := by
  unfold assignName
  refine .get ?_
  simp only [moved_frames, moved_environment, Name.moved_text]
  cases m.heap.frames.holder? m.environment name.text with
  | some frame => exact .modifyFrames h _
  | none => exact .fail h (.undefinedVariable name) (by rintro _ ⟨⟩; exact hname)

/-- **A class is declared** on other lines. -/
theorem declareClass_follows (h : Fits σ m marks) {name : Name} {superclass : Option Reference}
    {methods : List FunctionDecl} (hname : (σ.origin new).line name.line)
    (hsuperclass : Reference.From? (σ.origin new) superclass)
    (hmethods : FunctionDecl.AllFrom (σ.origin new) methods) :
    Follows σ m marks (declareClass name superclass methods)
      (fun v => declareClass (name.moved (v.shift new))
        (superclass.map (Reference.moved (v.shift new)))
        (FunctionDecl.allMoved (v.shift new) methods)) := by
  simp only [declareClass_eq]
  refine .bind (.define h name.text .nil) fun _ m₁ marks₁ _ h₁ => ?_
  refine .bind (superclassOf_follows h₁ hsuperclass) fun parent m₂ marks₂ _ h₂ => ?_
  refine .bind (methodFrame_follows h₂ parent) fun frame m₃ marks₃ _ h₃ => ?_
  refine .bind (makeMethods_follows frame .empty hmethods h₃) fun table m₄ marks₄ hmade h₄ => ?_
  have htable := lt_of_makeMethods frame hmade nofun
  refine .bind (newClass_follows h₄ ⟨name.text, parent, table⟩ htable) fun id m₅ marks₅ _ h₅ => ?_
  exact assignName_follows h₅ hname (.cls id)

/-! ## Statements -/

theorem loop_follows {condition : Expr} {body : Stmt} (hevaluate : FollowsExpressions σ evaluate)
    (hexecute : FollowsStatements σ execute) (hcondition : condition.From (σ.origin new))
    (hbody : body.From (σ.origin new)) : ∀ (rounds : Nat) {m : Machine} {marks : List Bool},
    Fits σ m marks → Follows σ m marks (loop (evaluate condition) (execute body) rounds)
      (fun v => loop (evaluate (condition.moved (v.shift new)))
        (execute (body.moved (v.shift new))) rounds)
  | 0, _, _, h => .outOfFuel h
  | rounds + 1, _, _, h => by
    refine .bind (hevaluate hcondition h) fun value m₁ marks₁ _ h₁ => ?_
    cases value.isTruthy with
    | false => exact .pure h₁ Flow.normal
    | true =>
      refine .bind (hexecute hbody h₁) fun flow m₂ marks₂ _ h₂ => ?_
      cases flow with
      | normal => exact loop_follows hevaluate hexecute hcondition hbody rounds h₂
      | returned value => exact .pure h₂ (Flow.returned value)

theorem evaluate?_follows (hevaluate : FollowsExpressions σ evaluate) (h : Fits σ m marks)
    {e : Option Expr} (he : Expr.From? (σ.origin new) e) :
    Follows σ m marks (evaluate? evaluate e)
      (fun v => evaluate? evaluate (e.map (Expr.moved (v.shift new)))) := by
  cases e with
  | none => exact .pure h Value.nil
  | some e => exact hevaluate he h

/-- **Statements are followed** if their parts are. -/
theorem executeWith_follows (hevaluate : FollowsExpressions σ evaluate)
    (hexecute : FollowsStatements σ execute) (rounds : Nat) :
    FollowsStatements σ (executeWith evaluate execute rounds) := by
  intro new s m marks hfrom h
  cases s with
  | expr value => exact .bind (hevaluate hfrom h) fun _ _ _ _ h₁ => .pure h₁ Flow.normal
  | print value =>
    refine .bind (hevaluate hfrom h) fun a m₁ marks₁ _ h₁ => .getHeap ?_
    simp only [h₁.held.display_moved]
    exact .bind (.writeLine h₁ _) fun _ _ _ _ h₂ => .pure h₂ Flow.normal
  | var name initializer =>
    exact .bind (evaluate?_follows hevaluate h hfrom) fun a _ _ _ h₁ =>
      .bind (.define h₁ name.text a) fun _ _ _ _ h₂ => .pure h₂ Flow.normal
  | block body =>
    refine .get (.bind (.newFrame h _ _) fun frame m₁ marks₁ _ h₁ => ?_)
    exact .withFrame (runAll_follows hexecute hfrom (h₁.withEnvironment frame))
  | ifElse condition thenBranch elseBranch =>
    cases elseBranch with
    | none =>
      refine .bind (hevaluate hfrom.1 h) fun a m₁ marks₁ _ h₁ => ?_
      cases a.isTruthy with
      | true => exact hexecute hfrom.2 h₁
      | false => exact .pure h₁ Flow.normal
    | some elseBranch =>
      refine .bind (hevaluate hfrom.1 h) fun a m₁ marks₁ _ h₁ => ?_
      cases a.isTruthy with
      | true => exact hexecute hfrom.2.1 h₁
      | false => exact hexecute hfrom.2.2 h₁
  | whileDo condition body => exact loop_follows hevaluate hexecute hfrom.1 hfrom.2 rounds h
  | function declaration =>
    have hnew := Follows.newFunction h ⟨declaration, m.environment, false⟩ hfrom
    cases declaration
    exact .get (.bind hnew fun id m₁ marks₁ _ h₁ =>
      .bind (.define h₁ _ (.function id)) fun _ _ _ _ h₂ => .pure h₂ Flow.normal)
  | ret keyword value =>
    exact .bind (evaluate?_follows hevaluate h hfrom) fun a _ _ _ h₁ =>
      .pure h₁ (Flow.returned a)
  | classDecl name superclass methods =>
    exact .bind (declareClass_follows h hfrom.1 hfrom.2.1 hfrom.2.2) fun _ _ _ _ h₁ =>
      .pure h₁ Flow.normal

theorem evaluate_execute_follows (σ : Setting) : ∀ fuel : Nat,
    FollowsExpressions σ (Machine.evaluate fuel) ∧ FollowsStatements σ (Machine.execute fuel)
  | 0 => ⟨fun _ h => .outOfFuel h, fun _ h => .outOfFuel h⟩
  | fuel + 1 => by
    obtain ⟨hevaluate, hexecute⟩ := evaluate_execute_follows σ fuel
    exact ⟨evaluateWith_follows hevaluate hexecute, executeWith_follows hevaluate hexecute fuel⟩

/-- **Every statement is followed** on other lines. -/
theorem execute_follows (σ : Setting) (fuel : Nat) : FollowsStatements σ (Machine.execute fuel) :=
  (evaluate_execute_follows σ fuel).2

end Lox.Joining
