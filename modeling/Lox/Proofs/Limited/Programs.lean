import Lox.Proofs.Limited.Runs

/-!
# Programs that are cut

A limit of the sink only cuts a program, at whatever depth of calls and statements it strikes: this is
so of every form of expression and statement if it is so of its parts (`Cuts.evaluateWith`,
`Cuts.executeWith`), and of a print statement because its line is the only thing that is written
(`Cuts.print`).
-/

namespace Lox.Observed

open Machine (Flow)

variable {n : Nat}

namespace Cuts

variable {α β : Type} {x x' : Run α}

theorem lift_bind {y : Machine.Run α} {f : α → Run β} (h : Machine.Blind y)
    (hf : ∀ a, Cuts n (f a)) : Cuts n (Observed.lift y >>= f) :=
  (lift h).bind hf

theorem fail (fault : Machine.Fault) : Cuts n (Observed.lift (Machine.Run.fail fault) : Run α) :=
  lift (.fail fault)

theorem ite {c : Prop} [Decidable c] (h : Cuts n x) (h' : Cuts n x') :
    Cuts n (if c then x else x') := by
  by_cases hc : c
  · rw [if_pos hc]
    exact h
  · rw [if_neg hc]
    exact h'

/-! ## Objects -/

theorem bindMethod (method : FunctionId) (receiver : InstanceId) :
    Cuts n (Observed.bind method receiver) :=
  lift_bind (.allocate _) fun bound => originOf fun _ => (note _ _).bind fun _ => pure bound

theorem property (id : InstanceId) (name : Name) : Cuts n (Observed.property id name) := by
  refine lift_bind .getHeap fun heap => ?_
  cases heap.property? id name.text with
  | none => exact fail _
  | some found =>
    cases found with
    | field value => exact pure value
    | method method => exact (bindMethod method id).bind fun bound => pure (Value.function bound)

theorem superMethod (keyword : Reference) (method : Name) :
    Cuts n (Observed.superMethod keyword method) := by
  refine get (fun s => ?_) fun _ => rfl
  cases s.machine.distances.get? keyword.id with
  | none => exact fail _
  | some distance =>
    refine lift_bind (.superclassAt _) fun parent => ?_
    cases distance with
    | zero => exact fail _
    | succ inner =>
      refine lift_bind (.receiverAt _) fun receiver => lift_bind .getHeap fun heap => ?_
      cases heap.findMethod? parent method.text with
      | none => exact fail _
      | some found =>
        exact (bindMethod found receiver).bind fun bound => pure (Value.function bound)

/-! ## Calls -/

variable {evaluate : Expr → Run Value} {execute : Position → Stmt → Run Flow}

theorem runAll (hx : ∀ position s, Cuts n (execute position s)) :
    ∀ (ss : List Stmt) (position : Position), Cuts n (Observed.runAll execute position ss)
  | [], _ => pure Flow.normal
  | first :: others, position => by
    refine (hx position first).bind fun flow => ?_
    cases flow with
    | normal => exact runAll hx others _
    | returned v => exact pure (Flow.returned v)

theorem callFunction (hx : ∀ position s, Cuts n (execute position s)) (id : FunctionId)
    (args : List Value) : Cuts n (Observed.callFunction execute id args) :=
  lift_bind .getHeap fun _ => originOf fun _ => lift_bind (.allocate _) fun frame =>
    (withFrame frame (runAll hx _ _)).bind fun flow =>
      ite (lift (.getAt _ _ _)) (pure flow.result)

theorem construct (hx : ∀ position s, Cuts n (execute position s)) (id : ClassId)
    (args : List Value) : Cuts n (Observed.construct execute id args) := by
  refine lift_bind (.allocate _) fun receiver => lift_bind .getHeap fun heap => ?_
  cases heap.findMethod? id initializerName with
  | none => exact pure (Value.inst receiver)
  | some init =>
    exact (bindMethod init receiver).bind fun bound => (callFunction hx bound args).bind fun _ =>
      pure (Value.inst receiver)

theorem call (hx : ∀ position s, Cuts n (execute position s)) (callee : Callable)
    (args : List Value) : Cuts n (Observed.call execute callee args) := by
  cases callee with
  | native f => exact lift (.callNative f)
  | function id => exact callFunction hx id args
  | cls id => exact construct hx id args

theorem callValue (hx : ∀ position s, Cuts n (execute position s)) (line : Nat) (callee : Value)
    (args : List Value) : Cuts n (Observed.callValue execute line callee args) := by
  unfold Observed.callValue
  cases callee.callable? with
  | none => exact fail _
  | some target => exact lift_bind .getHeap fun heap => ite (call hx target args) (fail _)

/-! ## Expressions and statements -/

theorem evaluateAll (he : ∀ e, Cuts n (evaluate e)) (es : List Expr) :
    Cuts n (Observed.evaluateAll evaluate es) := by
  induction es with
  | nil => exact pure []
  | cons first others ih =>
    exact (he first).bind fun value => ih.bind fun values => pure (value :: values)

/-- **One step into an expression** is only cut if the steps into its parts are. -/
theorem evaluateWith (he : ∀ e, Cuts n (evaluate e)) (hx : ∀ position s, Cuts n (execute position s)) :
    ∀ e : Expr, Cuts n (Observed.evaluateWith evaluate execute e)
  | .literal value => pure (Value.ofLiteral value)
  | .group inner => he inner
  | .unary _ _ operand => (he operand).bind fun _ => lift (.ofExcept _)
  | .binary left _ _ right => (he left).bind fun _ => (he right).bind fun _ => lift (.ofExcept _)
  | .logical left _ right => (he left).bind fun a => ite (pure a) (he right)
  | .var _ | .this _ => lift (.lookUp _)
  | .assign target value => (he value).bind fun v => lift_bind (.store target v) fun _ => pure v
  | .call callee line args =>
    (he callee).bind fun f => (evaluateAll he args).bind fun values => callValue hx line f values
  | .get object name => by
    refine (he object).bind fun a => ?_
    cases a with
    | inst id => exact property id name
    | _ => exact fail _
  | .set object _ value => by
    refine (he object).bind fun a => ?_
    cases a with
    | inst id => exact (he value).bind fun v => lift_bind (.setField _ _ v) fun _ => pure v
    | _ => exact fail _
  | .super keyword method => superMethod keyword method

theorem superclassOf (position : Position) : ∀ superclass : Option Reference,
    Cuts n (Observed.superclassOf position superclass)
  | none => pure none
  | some reference => by
    refine (visit _ _).bind fun _ => lift_bind (.lookUp _) fun value => ?_
    cases value with
    | cls id => exact pure (some id)
    | _ => exact fail _

theorem makeMethods (position : Position) (frame : FrameId) :
    ∀ (fs : List FunctionDecl) (methods : Table FunctionId),
      Cuts n (Observed.makeMethods position frame methods fs)
  | [], methods => pure methods
  | _ :: others, _ => lift_bind (.allocate _) fun _ => (note _ _).bind fun _ =>
    makeMethods position frame others _

theorem declareClass (position : Position) (name : Name) (superclass : Option Reference)
    (methods : List FunctionDecl) :
    Cuts n (Observed.declareClass position name superclass methods) :=
  lift_bind (.define _ _) fun _ => (superclassOf _ superclass).bind fun parent =>
    lift_bind (.methodFrame parent) fun frame => (makeMethods _ frame methods .empty).bind
      fun _ => lift_bind (.allocate _) fun id => lift (.assignName name (.cls id))

theorem declareFunction (position : Position) (declaration : FunctionDecl) :
    Cuts n (Observed.declareFunction position declaration) :=
  get (fun _ => lift_bind (.allocate _) fun _ => (note _ _).bind fun _ => lift (.define _ _))
    fun _ => rfl

theorem loop {condition : Run Value} {body : Run Flow} (hc : Cuts n condition) (hb : Cuts n body) :
    ∀ rounds : Nat, Cuts n (Observed.loop condition body rounds)
  | 0 => lift .outOfFuel
  | rounds + 1 => by
    refine hc.bind fun a => ite (hb.bind fun flow => ?_) (pure Flow.normal)
    cases flow with
    | normal => exact loop hc hb rounds
    | returned v => exact pure (Flow.returned v)

theorem evaluate? (he : ∀ e, Cuts n (evaluate e)) :
    ∀ e : Option Expr, Cuts n (Observed.evaluate? evaluate e)
  | none => pure Value.nil
  | some e => he e

/-- **One step into a statement** that prints nothing itself is only cut if the steps into its parts
are. -/
theorem executeWith {evaluate : Position → Expr → Run Value}
    (he : ∀ position e, Cuts n (evaluate position e))
    (hx : ∀ position s, Cuts n (execute position s)) (rounds : Nat) (position : Position) :
    ∀ s : Stmt, (∀ e, s ≠ .print e) →
      Cuts n (Observed.executeWith evaluate execute rounds position s)
  | .expr value, _ => (he position value).bind fun _ => pure Flow.normal
  | .print value, h => absurd rfl (h value)
  | .var name initializer, _ => (evaluate? (he (position.declaring name)) initializer).bind fun _ =>
    lift_bind (.define _ _) fun _ => pure Flow.normal
  | .block body, _ => get (fun _ => lift_bind (.allocate _) fun frame =>
      withFrame frame (runAll hx body _)) fun _ => rfl
  | .ifElse condition thenBranch elseBranch, _ => by
    refine (he position condition).bind fun a => ite (hx position thenBranch) ?_
    cases elseBranch with
    | none => exact pure Flow.normal
    | some branch => exact hx _ branch
  | .whileDo condition body, _ => loop (he position condition) (hx position body) rounds
  | .function declaration, _ => (declareFunction position declaration).bind fun _ => pure Flow.normal
  | .ret _ value, _ => (evaluate? (he position) value).bind fun v => pure (Flow.returned v)
  | .classDecl name superclass methods, _ =>
    (declareClass position name superclass methods).bind fun _ => pure Flow.normal

/-- **A print statement** is cut at its own line if that does not fit, which is a moment when its
expression has been evaluated. -/
theorem print {fuel : Nat} {position : Position} {e : Expr}
    (he : Cuts n (Observed.evaluate fuel position e)) :
    Cuts n (Observed.execute (fuel + 1) position (.print e)) := by
  have hline : ∀ heap : Heap, ∀ value : Value, Onward (do
      Observed.lift (Machine.Run.writeLine (heap.display value))
      return Flow.normal) := fun heap value =>
    (onward_writeLine (heap.display value)).bind fun _ => (pure (n := n) Flow.normal).onward
  have hwritten : ∀ value : Value, Onward (do
      let heap ← Observed.lift Machine.Run.getHeap
      Observed.lift (Machine.Run.writeLine (heap.display value))
      return Flow.normal) := fun value => (onward_lift .getHeap).bind fun heap => hline heap value
  have hshown : Onward (do
      let value ← Observed.evaluate fuel position e
      let heap ← Observed.lift Machine.Run.getHeap
      Observed.lift (Machine.Run.writeLine (heap.display value))
      return Flow.normal) := he.onward.bind hwritten
  refine ⟨(visit (n := n) _ _).onward.bind fun _ => hshown, fun s hs hsize => ?_⟩
  refine ((visit _ _).lockstep s hs hsize).bind (visit (n := n) _ _).onward (fun _ => hshown) hs
    fun _ begun hvisit hbegun hsize₁ => ?_
  have hlast : begun.visits.getLast? = some ⟨.stmt (.print e), position, begun.machine⟩ := by
    cases hvisit
    exact List.getLast?_concat
  refine (he.lockstep begun hbegun hsize₁).bind he.onward hwritten hbegun
    fun value t hvalue ht hsize₂ => ?_
  have hsince : Further begun t := behind_of_ok hvalue ▸ he.onward begun hbegun
  refine (lockstep_lift .getHeap hsize₂).bind (onward_lift .getHeap) (fun heap => hline heap value) ht
    fun heap t' hheap ht' hsize₃ => ?_
  cases hheap
  -- here the expression has been evaluated, and what is left is to write
  refine (lockstep_writeLine ht hsize₂ fun hfull => ?_).bind (onward_writeLine _)
    (fun _ => (pure (n := n) Flow.normal).onward) ht fun _ t'' _ ht'' hsize₄ =>
      (pure Flow.normal).lockstep t'' ht'' hsize₄
  exact ⟨hsize₂, hfull, begun, position, e, fuel, value, hlast, hvalue, hsince, rfl⟩

end Cuts

mutual

/-- **Expressions are only cut**, by induction on the fuel, -/
theorem cuts_evaluate : ∀ (fuel : Nat) (position : Position) (e : Expr),
    Cuts n (evaluate fuel position e)
  | 0, _, _ => .lift .outOfFuel
  | fuel + 1, position, e => (Cuts.visit _ _).bind fun _ =>
    .evaluateWith (cuts_evaluate fuel position) (cuts_execute fuel) e

/-- **and so are statements.** -/
theorem cuts_execute : ∀ (fuel : Nat) (position : Position) (s : Stmt),
    Cuts n (execute fuel position s)
  | 0, _, _ => .lift .outOfFuel
  | fuel + 1, position, s => by
    by_cases hprint : ∃ e, s = .print e
    · obtain ⟨e, rfl⟩ := hprint
      exact .print (cuts_evaluate fuel position e)
    · exact (Cuts.visit _ _).bind fun _ => .executeWith (cuts_evaluate fuel) (cuts_execute fuel) fuel
        position s fun e he => hprint ⟨e, he⟩

end

theorem cuts_runProgram (fuel : Nat) : ∀ (program : Program) (position : Position),
    Cuts n (runProgram fuel position program)
  | [], _ => .pure ()
  | first :: others, position =>
    (cuts_execute fuel position first).bind fun _ => cuts_runProgram fuel others _

end Lox.Observed
