import Lox.Proofs.Observed.Runs
import Lox.Proofs.Restoring
import Lox.Proofs.Sessions

/-!
# Observation changes nothing

Without its record, an observed run is the machine's run (`Erases`): it ends alike and leaves the
same machine behind.  So an observed session comes to what the session comes to
(`Session.erased_after`, `Session.outcomes_eq`).
-/

namespace Lox.Observed

/-- What a run comes to, without the record. -/
def erased {α : Type} :
    EStateM.Result Machine.Stop State α → EStateM.Result Machine.Stop Machine α
  | .ok a s => .ok a s.machine
  | .error stop s => .error stop s.machine

/-- **Whether an observed run is a run of the machine**, whatever was recorded before. -/
def Erases {α : Type} (x : Run α) (y : Machine.Run α) : Prop :=
  ∀ s, erased (x s) = y s.machine

namespace Erases

variable {α β : Type} {x : Run α} {y : Machine.Run α} {f : α → Run β} {g : α → Machine.Run β}

theorem pure (a : α) : Erases (Pure.pure a) (Pure.pure a) := fun _ => rfl

theorem lift (y : Machine.Run α) : Erases (lift y) y := by
  intro s
  unfold Observed.lift
  cases hy : y s.machine with
  | ok a m => rfl
  | error stop m => rfl

theorem bind (h : Erases x y) (hfg : ∀ a, Erases (f a) (g a)) : Erases (x >>= f) (y >>= g) := by
  intro s
  have hs := h s
  cases hx : x s with
  | ok a s₁ =>
    rw [hx] at hs
    rw [Steps.bind_of_ok hx, Steps.bind_of_ok hs.symm]
    exact hfg a s₁
  | error stop s₁ =>
    rw [hx] at hs
    rw [Steps.bind_of_error hx, Steps.bind_of_error hs.symm]
    rfl

theorem lift_bind {y : Machine.Run α} (hfg : ∀ a, Erases (f a) (g a)) :
    Erases (Observed.lift y >>= f) (y >>= g) :=
  (lift y).bind hfg

theorem bind_pure (h : Erases x y) (k : α → β) :
    Erases (x >>= fun a => Pure.pure (k a)) (y >>= fun a => Pure.pure (k a)) :=
  h.bind fun a => pure (k a)

theorem get {f : State → Run β} {g : Machine → Machine.Run β}
    (h : ∀ s, Erases (f s) (g s.machine)) :
    Erases (MonadState.get >>= f) (MonadState.get >>= g) :=
  fun s => h s s

/-- What is only recorded is not there without the record. -/
theorem visit {node : Node} {position : Position} {f : Unit → Run α} (h : Erases (f ()) y) :
    Erases (visit node position >>= f) y :=
  fun s => h { s with visits := s.visits ++ [⟨node, position, s.machine⟩] }

theorem note {id : FunctionId} {position : Position} {f : Unit → Run α} (h : Erases (f ()) y) :
    Erases (note id position >>= f) y :=
  fun s => h { s with origin := fun other => if other = id then position else s.origin other }

theorem originOf {id : FunctionId} {f : Position → Run α} (h : ∀ position, Erases (f position) y) :
    Erases (originOf id >>= f) y :=
  fun s => h (s.origin id) s

theorem ite {c : Prop} [Decidable c] {x' : Run α} {y' : Machine.Run α} (h : Erases x y)
    (h' : Erases x' y') : Erases (if c then x else x') (if c then y else y') := by
  by_cases hc : c
  · rw [if_pos hc, if_pos hc]
    exact h
  · rw [if_neg hc, if_neg hc]
    exact h'

theorem withFrame (frame : FrameId) (h : Erases x y) :
    Erases (withFrame frame x) (Machine.Run.withFrame frame y) := by
  intro s
  have hs := h (s.moveTo frame)
  unfold Observed.withFrame Machine.Run.withFrame
  cases hx : x (s.moveTo frame) with
  | ok a s₁ | error a s₁ =>
    rw [hx] at hs
    have hs : _ = y { s.machine with environment := frame } := hs
    rw [← hs]
    rfl

theorem backToGlobals {x : Run Unit} {y : Machine.Run Unit} (h : Erases x y) :
    Erases (backToGlobals x) (Machine.backToGlobals y) := by
  intro s
  have hs := h s
  unfold Observed.backToGlobals Machine.backToGlobals
  cases hx : x s with
  | ok a s₁ | error a s₁ =>
    rw [hx] at hs
    rw [← hs]
    rfl

theorem flushOnStop {x : Run Unit} {y : Machine.Run Unit} (h : Erases x y) :
    Erases (flushOnStop x) (Machine.flushOnStop y) := by
  intro s
  have hs := h s
  unfold Observed.flushOnStop Machine.flushOnStop
  cases hx : x s with
  | ok a s₁ | error a s₁ =>
    rw [hx] at hs
    rw [← hs]
    rfl

/-! ## Objects -/

theorem bindMethod (method : FunctionId) (receiver : InstanceId) :
    Erases (Observed.bind method receiver) (Machine.Run.allocate (·.bind method receiver)) :=
  lift_bind (g := Pure.pure) fun bound => originOf fun _ => note (pure bound)

theorem property (id : InstanceId) (name : Name) :
    Erases (property id name) (Machine.Run.property id name) := by
  refine lift_bind fun heap => ?_
  cases heap.property? id name.text with
  | none => exact lift _
  | some found =>
    cases found with
    | field value => exact pure value
    | method method => exact (bindMethod method id).bind_pure _

theorem superMethod (keyword : Reference) (method : Name) :
    Erases (superMethod keyword method) (Machine.Run.superMethod keyword method) := by
  refine get fun s => ?_
  cases s.machine.distances.get? keyword.id with
  | none => exact lift _
  | some distance =>
    refine lift_bind fun parent => ?_
    cases distance with
    | zero => exact lift _
    | succ inner =>
      refine lift_bind fun receiver => lift_bind fun heap => ?_
      cases heap.findMethod? parent method.text with
      | none => exact lift _
      | some found => exact (bindMethod found receiver).bind_pure _

/-! ## Calls -/

variable {evaluate : Position → Expr → Run Value} {evaluate' : Expr → Machine.Run Value}
  {execute : Position → Stmt → Run Machine.Flow} {execute' : Stmt → Machine.Run Machine.Flow}

theorem runAll (hx : ∀ position s, Erases (execute position s) (execute' s)) :
    ∀ (ss : List Stmt) (position : Position),
      Erases (runAll execute position ss) (Machine.runAll execute' ss)
  | [], _ => pure Machine.Flow.normal
  | first :: others, position => by
    refine (hx position first).bind fun flow => ?_
    cases flow with
    | normal => exact runAll hx others _
    | returned v => exact pure (Machine.Flow.returned v)

theorem callFunction (hx : ∀ position s, Erases (execute position s) (execute' s))
    (id : FunctionId) (args : List Value) :
    Erases (callFunction execute id args) (Machine.callFunction execute' id args) := by
  refine lift_bind fun heap => originOf fun position => lift_bind fun frame =>
    (withFrame frame (runAll hx _ _)).bind fun flow => ?_
  exact .ite (lift _) (pure flow.result)

theorem construct (hx : ∀ position s, Erases (execute position s) (execute' s)) (id : ClassId)
    (args : List Value) :
    Erases (construct execute id args) (Machine.construct execute' id args) := by
  refine lift_bind fun receiver => lift_bind fun heap => ?_
  cases heap.findMethod? id initializerName with
  | none => exact pure (Value.inst receiver)
  | some init =>
    exact (bindMethod init receiver).bind fun bound => (callFunction hx bound args).bind_pure _

theorem call (hx : ∀ position s, Erases (execute position s) (execute' s)) (callee : Callable)
    (args : List Value) : Erases (call execute callee args) (Machine.call execute' callee args) := by
  cases callee with
  | native f => exact lift (Machine.callNative f)
  | function id => exact callFunction hx id args
  | cls id => exact construct hx id args

theorem callValue (hx : ∀ position s, Erases (execute position s) (execute' s)) (line : Nat)
    (callee : Value) (args : List Value) :
    Erases (callValue execute line callee args) (Machine.callValue execute' line callee args) := by
  unfold Observed.callValue Machine.callValue
  cases callee.callable? with
  | none => exact lift _
  | some target => exact lift_bind fun heap => .ite (call hx target args) (lift _)

/-! ## Expressions and statements -/

theorem evaluateAll {evaluate : Expr → Run Value} (he : ∀ e, Erases (evaluate e) (evaluate' e))
    (es : List Expr) : Erases (evaluateAll evaluate es) (Machine.evaluateAll evaluate' es) := by
  induction es with
  | nil => exact pure []
  | cons first others ih => exact (he first).bind fun _ => ih.bind_pure _

theorem evaluateWith {evaluate : Expr → Run Value} (he : ∀ e, Erases (evaluate e) (evaluate' e))
    (hx : ∀ position s, Erases (execute position s) (execute' s)) :
    ∀ e : Expr, Erases (evaluateWith evaluate execute e) (Machine.evaluateWith evaluate' execute' e)
  | .literal value => pure (Value.ofLiteral value)
  | .group inner => he inner
  | .unary _ _ operand => (he operand).bind fun _ => lift _
  | .binary left _ _ right => (he left).bind fun _ => (he right).bind fun _ => lift _
  | .logical left _ right => (he left).bind fun a => .ite (pure a) (he right)
  | .var _ | .this _ => lift _
  | .assign _ value => (he value).bind fun v => lift_bind fun _ => pure v
  | .call callee line args =>
    (he callee).bind fun f => (evaluateAll he args).bind fun values => callValue hx line f values
  | .get object name => by
    refine (he object).bind fun a => ?_
    cases a with
    | inst id => exact property id name
    | _ => exact lift _
  | .set object _ value => by
    refine (he object).bind fun a => ?_
    cases a with
    | inst id => exact (he value).bind fun v => lift_bind fun _ => pure v
    | _ => exact lift _
  | .super keyword method => superMethod keyword method

theorem superclassOf (position : Position) : ∀ superclass : Option Reference,
    Erases (superclassOf position superclass) (Machine.superclassOf superclass)
  | none => pure none
  | some reference => by
    refine visit (lift_bind fun value => ?_)
    cases value with
    | cls id => exact pure (some id)
    | _ => exact lift _

theorem makeMethods (position : Position) (frame : FrameId) :
    ∀ (fs : List FunctionDecl) (methods : Table FunctionId),
      Erases (makeMethods position frame methods fs) (Machine.makeMethods frame methods fs)
  | [], methods => pure methods
  | _ :: others, _ => lift_bind fun _ => note (makeMethods position frame others _)

theorem declareClass (position : Position) (name : Name) (superclass : Option Reference)
    (methods : List FunctionDecl) : Erases (declareClass position name superclass methods)
      (Machine.declareClass name superclass methods) := by
  rw [Machine.declareClass_eq]
  exact lift_bind fun _ => (superclassOf _ superclass).bind fun parent => lift_bind fun frame =>
    (makeMethods _ frame methods .empty).bind fun table => lift_bind fun id => lift _

theorem declareFunction (position : Position) (declaration : FunctionDecl) :
    Erases (declareFunction position declaration) (do
      let current := (← MonadState.get).environment
      let id ← Machine.Run.allocate (·.newFunction ⟨declaration, current, false⟩)
      Machine.Run.define declaration.name.text (.function id)) :=
  get fun _ => lift_bind fun _ => note (lift _)

theorem loop {condition : Run Value} {condition' : Machine.Run Value} {body : Run Machine.Flow}
    {body' : Machine.Run Machine.Flow} (hc : Erases condition condition') (hb : Erases body body') :
    ∀ rounds : Nat, Erases (loop condition body rounds) (Machine.loop condition' body' rounds)
  | 0 => lift _
  | rounds + 1 => by
    refine hc.bind fun a => .ite (hb.bind fun flow => ?_) (pure Machine.Flow.normal)
    cases flow with
    | normal => exact loop hc hb rounds
    | returned v => exact pure (Machine.Flow.returned v)

theorem evaluate? {evaluate : Expr → Run Value} (he : ∀ e, Erases (evaluate e) (evaluate' e)) :
    ∀ e : Option Expr, Erases (evaluate? evaluate e) (Machine.evaluate? evaluate' e)
  | none => pure Value.nil
  | some e => he e

theorem executeWith (he : ∀ position e, Erases (evaluate position e) (evaluate' e))
    (hx : ∀ position s, Erases (execute position s) (execute' s)) (rounds : Nat)
    (position : Position) : ∀ s : Stmt,
      Erases (executeWith evaluate execute rounds position s)
        (Machine.executeWith evaluate' execute' rounds s)
  | .expr value => (he position value).bind_pure _
  | .print value => (he position value).bind fun _ => lift_bind fun _ => (lift _).bind_pure _
  | .var name initializer =>
    (evaluate? (he (position.declaring name)) initializer).bind fun _ => (lift _).bind_pure _
  | .block body => get fun _ => lift_bind fun frame => withFrame frame (runAll hx body _)
  | .ifElse condition thenBranch elseBranch => by
    refine (he position condition).bind fun a => .ite (hx position thenBranch) ?_
    cases elseBranch with
    | none => exact pure Machine.Flow.normal
    | some branch => exact hx _ branch
  | .whileDo condition body => loop (he position condition) (hx position body) rounds
  | .function declaration => (declareFunction position declaration).bind_pure _
  | .ret _ value => (evaluate? (he position) value).bind_pure _
  | .classDecl name superclass methods => (declareClass position name superclass methods).bind_pure _

end Erases

mutual

/-- **Expressions are evaluated** as without observation, by induction on the fuel, -/
theorem erases_evaluate : ∀ (fuel : Nat) (position : Position) (e : Expr),
    Erases (evaluate fuel position e) (Machine.evaluate fuel e)
  | 0, _, _ => .lift _
  | fuel + 1, position, e =>
    .visit (.evaluateWith (erases_evaluate fuel position) (erases_execute fuel) e)

/-- and statements are run as without observation. -/
theorem erases_execute : ∀ (fuel : Nat) (position : Position) (s : Stmt),
    Erases (execute fuel position s) (Machine.execute fuel s)
  | 0, _, _ => .lift _
  | fuel + 1, position, s =>
    .visit (.executeWith (erases_evaluate fuel) (erases_execute fuel) fuel position s)

end

/-! ## Programs and sessions -/

theorem erases_runProgram (fuel : Nat) : ∀ (program : Program) (position : Position),
    Erases (runProgram fuel position program) (Machine.runProgram fuel program)
  | [], _ => .pure ()
  | first :: others, position =>
    (erases_execute fuel position first).bind fun _ => erases_runProgram fuel others _

theorem erases_interpret (fuel : Nat) (program : Program) (distances : Distances) :
    Erases (interpret fuel program distances) (Machine.interpret fuel program distances) := by
  have hrun : Erases _ (Machine.interpret fuel program distances) :=
    .lift_bind (y := Machine.addDistances distances) fun _ =>
      ((erases_runProgram fuel program .outermost).backToGlobals.flushOnStop).bind fun _ => .lift _
  exact fun s => hrun { s with sites := s.sites ++ program.sites }

namespace Session

variable {session : Session}

theorem erased_outcomeOf (result : EStateM.Result Machine.Stop State Unit) :
    Lox.Session.outcomeOf (Observed.erased result) =
      ((outcomeOf result).1, (outcomeOf result).2.machine) := by
  cases result with
  | ok a s => rfl
  | error stop s => cases stop <;> rfl

theorem run_erased (session : Session) (fuel : Nat) (text : List Char) :
    session.erased.run fuel text =
      ((session.run fuel text).1, (session.run fuel text).2.erased) := by
  have hnext : session.erased.nextId = session.nextId := rfl
  unfold Lox.Session.run run
  rw [hnext]
  cases Lox.Session.check text session.nextId with
  | mk result nextId =>
    cases result with
    | error faults => rfl
    | ok accepted =>
      obtain ⟨program, distances⟩ := accepted
      have hrun := erases_interpret fuel program distances session.state
      have houtcome := erased_outcomeOf (interpret fuel program distances session.state)
      rw [hrun] at houtcome
      show _ = _
      simp only [erased, houtcome]

/-- **Observed texts leave the session behind** that they leave behind without observation, -/
theorem erased_after : ∀ (texts : List (Nat × List Char)) (session : Session),
    (session.after texts).erased = session.erased.after texts
  | [], _ => rfl
  | (fuel, text) :: texts, session => by
    have hothers := erased_after texts (session.run fuel text).2
    have hfirst : (session.run fuel text).2.erased = (session.erased.run fuel text).2 := by
      rw [run_erased]
    rw [hfirst] at hothers
    exact hothers

/-- and come to the same. -/
theorem outcomes_eq : ∀ (texts : List (Nat × List Char)) (session : Session),
    session.outcomes texts = session.erased.outcomes texts
  | [], _ => rfl
  | (fuel, text) :: texts, session => by
    rw [outcomes, Lox.Session.outcomes, run_erased, outcomes_eq texts]

end Session

end Lox.Observed
