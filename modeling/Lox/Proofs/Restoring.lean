import Lox.Proofs.Interpret

/-!
# Frames that are restored

A running program changes its current frame in two ways: it runs statements inside another frame
(`withFrame`), and it exchanges the frame while the methods of a class are made.  However a run
ends, at whatever depth it stops, the machine that it leaves behind has the current frame, the
outermost frame and the distances that it had before, and its sink was not flushed (`Restores`).  For
the class this rests on the fact that nothing between the two exchanges can stop
(`declareClass_eq`).

So between two requests of its caller a machine is always in its outermost frame, and the step that
goes back there when a program stops has nothing to do (`environment_of_requests`).
-/

namespace Lox.Machine

open Run

/-- Whether a machine has the current frame, the outermost frame and the distances of another, and
its sink was flushed as often. -/
structure SameSetting (m m' : Machine) : Prop where
  environment : m'.environment = m.environment
  globals : m'.globals = m.globals
  distances : m'.distances = m.distances
  flushes : m'.flushes = m.flushes

theorem SameSetting.refl (m : Machine) : SameSetting m m := ⟨rfl, rfl, rfl, rfl⟩

theorem SameSetting.trans {m₁ m₂ m₃ : Machine} (h : SameSetting m₁ m₂) (h' : SameSetting m₂ m₃) :
    SameSetting m₁ m₃ :=
  ⟨h'.environment.trans h.environment, h'.globals.trans h.globals, h'.distances.trans h.distances,
    h'.flushes.trans h.flushes⟩

/-- The machine that a run leaves behind, however it ends. -/
def Run.behind {α : Type} (x : Run α) (m : Machine) : Machine :=
  match x m with
  | .ok _ m' => m'
  | .error _ m' => m'

/-- **Whether a run restores** the current frame, the outermost frame and the distances, from every
machine and however it ends, and flushes nothing. -/
def Restores {α : Type} (x : Run α) : Prop :=
  ∀ m, SameSetting m (x.behind m)

namespace Restores

variable {α β : Type} {x : Run α} {f : α → Run β}

theorem pure (a : α) : Restores (Pure.pure a : Run α) := fun m => .refl m

theorem fail (fault : Fault) : Restores (Run.fail fault : Run α) := fun m => .refl m

theorem outOfFuel : Restores (Run.outOfFuel : Run α) := fun m => .refl m

theorem get : Restores (MonadState.get : Run Machine) := fun m => .refl m

theorem getHeap : Restores Run.getHeap := fun m => .refl m

theorem bind (h : Restores x) (hf : ∀ a, Restores (f a)) : Restores (x >>= f) := by
  intro m
  have hm := h m
  unfold Run.behind at hm ⊢
  cases hx : x m with
  | ok a m₁ =>
    rw [hx] at hm
    rw [Steps.bind_of_ok hx]
    exact hm.trans (hf a m₁)
  | error stop m₁ =>
    rw [hx] at hm
    rw [Steps.bind_of_error hx]
    exact hm

/-- A run inside another frame comes back, whether or not it ends well. -/
theorem withFrame (frame : FrameId) (h : Restores x) : Restores (Run.withFrame frame x) := by
  intro m
  have hm := h { m with environment := frame }
  unfold Run.behind Run.withFrame at *
  cases hx : x { m with environment := frame } with
  | ok a m₁ | error a m₁ =>
    rw [hx] at hm
    exact ⟨rfl, hm.globals, hm.distances, hm.flushes⟩

theorem allocate (make : Heap → α × Heap) : Restores (Run.allocate make) :=
  fun _ => ⟨rfl, rfl, rfl, rfl⟩

theorem modifyFrames (change : Frames → Frames) : Restores (Run.modifyFrames change) :=
  fun _ => ⟨rfl, rfl, rfl, rfl⟩

theorem define (name : String) (value : Value) : Restores (Run.define name value) :=
  fun _ => ⟨rfl, rfl, rfl, rfl⟩

/-! ## Small steps -/

theorem getAt (frame : FrameId) (distance : Nat) (name : String) :
    Restores (Run.getAt frame distance name) := by
  refine getHeap.bind fun heap => ?_
  cases heap.frames.getAt frame distance name with
  | ok value => exact .pure value
  | error left => exact .fail _

theorem lookUp (reference : Reference) : Restores (Run.lookUp reference) := by
  refine get.bind fun m => ?_
  cases m.distances.get? reference.id with
  | some distance => exact .getAt _ _ _
  | none =>
    dsimp only
    cases m.heap.frames.get? m.globals reference.name.text with
    | some value => exact .pure value
    | none => exact .fail _

theorem holder (reference : Reference) : Restores (Run.holder reference) := by
  refine get.bind fun m => ?_
  cases m.distances.get? reference.id with
  | some distance =>
    dsimp only
    cases m.heap.frames.holderAt m.environment distance reference.name.text with
    | ok frame => exact .pure frame
    | error left => exact .fail _
  | none =>
    dsimp only
    cases m.heap.frames.holder? m.globals reference.name.text with
    | some frame => exact .pure frame
    | none => exact .fail _

theorem store (reference : Reference) (value : Value) : Restores (Run.store reference value) :=
  (holder reference).bind fun _ => .modifyFrames _

theorem writeLine (text : String) : Restores (Run.writeLine text) := by
  refine .bind (fun _ => ⟨rfl, rfl, rfl, rfl⟩) fun fits => ?_
  cases fits with
  | true => exact .pure ()
  | false => exact .fail _

theorem readClock : Restores Run.readClock := fun _ => ⟨rfl, rfl, rfl, rfl⟩

theorem property (id : InstanceId) (name : Name) : Restores (Run.property id name) := by
  refine getHeap.bind fun heap => ?_
  cases heap.property? id name.text with
  | none => exact .fail _
  | some found =>
    cases found with
    | field value => exact .pure value
    | method method => exact .bind (.allocate _) fun bound => .pure (Value.function bound)

theorem superclassAt (distance : Nat) : Restores (Run.superclassAt distance) := by
  refine get.bind fun m => .bind (.getAt _ _ _) fun value => ?_
  cases value with
  | cls id => exact .pure id
  | _ => exact .fail _

theorem receiverAt (distance : Nat) : Restores (Run.receiverAt distance) := by
  refine get.bind fun m => .bind (.getAt _ _ _) fun value => ?_
  cases value with
  | inst id => exact .pure id
  | _ => exact .fail _

theorem superMethod (keyword : Reference) (method : Name) :
    Restores (Run.superMethod keyword method) := by
  refine get.bind fun m => ?_
  cases m.distances.get? keyword.id with
  | none => exact .fail _
  | some distance =>
    refine (superclassAt distance).bind fun parent => ?_
    cases distance with
    | zero => exact .fail _
    | succ inner =>
      refine (receiverAt inner).bind fun receiver => getHeap.bind fun heap => ?_
      cases heap.findMethod? parent method.text with
      | none => exact .fail _
      | some found => exact .bind (.allocate _) fun bound => .pure (Value.function bound)

theorem ofExcept (result : Except Fault α) : Restores (Run.ofExcept result) := by
  cases result with
  | ok a => exact .pure a
  | error fault => exact .fail fault

end Restores

/-! ## Declarations of classes -/

/-- **Making methods never stops**, and changes nothing but the heap, whatever frame is the current
one. -/
theorem exists_makeMethods_eq (frame : FrameId) : ∀ (fs : List FunctionDecl)
    (methods : Table FunctionId) (m : Machine), ∃ table heap, ∀ environment : FrameId,
      makeMethods frame methods fs { m with environment } = .ok table { m with heap, environment }
  | [], methods, m => ⟨methods, m.heap, fun _ => rfl⟩
  | f :: fs, methods, m => by
    obtain ⟨id, heap, hmade⟩ : ∃ id heap,
      m.heap.newFunction ⟨f, frame, f.isInitializer⟩ = (id, heap) := ⟨_, _, rfl⟩
    obtain ⟨table, heap', hothers⟩ :=
      exists_makeMethods_eq frame fs (methods.put f.name.text id) { m with heap }
    refine ⟨table, heap', fun environment => ?_⟩
    have hfirst : allocate (·.newFunction ⟨f, frame, f.isInitializer⟩) { m with environment } =
        .ok id { m with heap, environment } := by
      show EStateM.Result.ok (m.heap.newFunction ⟨f, frame, f.isInitializer⟩).1 { m with
        heap := (m.heap.newFunction ⟨f, frame, f.isInitializer⟩).2, environment } = _
      rw [hmade]
    rw [makeMethods, Steps.bind_of_ok hfirst]
    exact hothers environment

/-- **A class is declared** as if its methods were made from outside their frame: the exchange of
frames is always taken back. -/
theorem declareClass_eq (name : Name) (superclass : Option Reference)
    (methods : List FunctionDecl) :
    declareClass name superclass methods = (do
      define name.text .nil
      let parent ← superclassOf superclass
      let frame ← methodFrame parent
      let table ← makeMethods frame .empty methods
      let id ← allocate (·.newClass ⟨name.text, parent, table⟩)
      assignName name (.cls id)) := by
  refine bind_congr fun _ => bind_congr fun parent => bind_congr fun frame => funext fun m => ?_
  obtain ⟨table, heap, hmade⟩ := exists_makeMethods_eq frame methods .empty m
  have houtside : makeMethods frame .empty methods m = .ok table { m with heap } :=
    hmade m.environment
  have hentered : exchangeFrame frame m = .ok m.environment { m with environment := frame } := rfl
  rw [Steps.bind_of_ok houtside, Steps.bind_of_ok hentered]
  show (makeMethods frame .empty methods >>= _) { m with environment := frame } = _
  rw [Steps.bind_of_ok (hmade frame)]
  rfl

namespace Restores

theorem superclassOf : ∀ superclass : Option Reference, Restores (Machine.superclassOf superclass)
  | none => .pure none
  | some reference => by
    refine (lookUp reference).bind fun value => ?_
    cases value with
    | cls id => exact .pure (some id)
    | _ => exact .fail _

theorem methodFrame : ∀ parent : Option ClassId, Restores (Machine.methodFrame parent)
  | none => get.bind fun m => .pure m.environment
  | some _ => get.bind fun _ => .allocate _

theorem makeMethods (frame : FrameId) (methods : Table FunctionId) (fs : List FunctionDecl) :
    Restores (Machine.makeMethods frame methods fs) := by
  intro m
  obtain ⟨table, heap, hmade⟩ := exists_makeMethods_eq frame fs methods m
  have hmade : Machine.makeMethods frame methods fs m = .ok table { m with heap } :=
    hmade m.environment
  unfold Run.behind
  rw [hmade]
  exact ⟨rfl, rfl, rfl, rfl⟩

theorem assignName (name : Name) (value : Value) : Restores (Machine.assignName name value) := by
  refine get.bind fun m => ?_
  cases m.heap.frames.holder? m.environment name.text with
  | some frame => exact .modifyFrames _
  | none => exact .fail _

theorem declareClass (name : Name) (superclass : Option Reference) (methods : List FunctionDecl) :
    Restores (Machine.declareClass name superclass methods) := by
  rw [declareClass_eq]
  exact (define name.text .nil).bind fun _ => (superclassOf superclass).bind fun parent =>
    (methodFrame parent).bind fun frame => (makeMethods frame .empty methods).bind fun table =>
      .bind (.allocate _) fun id => assignName name (.cls id)

/-! ## Calls, expressions and statements -/

variable {evaluate : Expr → Run Value} {execute : Stmt → Run Flow}

theorem runAll (hx : ∀ s, Restores (execute s)) :
    ∀ body : List Stmt, Restores (Machine.runAll execute body)
  | [] => .pure Flow.normal
  | first :: others => by
    refine (hx first).bind fun flow => ?_
    cases flow with
    | normal => exact runAll hx others
    | returned value => exact .pure (Flow.returned value)

theorem callFunction (hx : ∀ s, Restores (execute s)) (id : FunctionId) (args : List Value) :
    Restores (Machine.callFunction execute id args) := by
  refine getHeap.bind fun heap => .bind (.allocate _) fun frame =>
    (withFrame frame (runAll hx _)).bind fun flow => ?_
  cases (heap.function id).isInitializer with
  | true => exact .getAt _ _ _
  | false => exact .pure flow.result

theorem construct (hx : ∀ s, Restores (execute s)) (id : ClassId) (args : List Value) :
    Restores (Machine.construct execute id args) := by
  refine .bind (.allocate _) fun receiver => getHeap.bind fun heap => ?_
  cases heap.findMethod? id initializerName with
  | none => exact .pure (Value.inst receiver)
  | some init =>
    exact .bind (.allocate _) fun bound => (callFunction hx bound args).bind fun _ =>
      .pure (Value.inst receiver)

theorem call (hx : ∀ s, Restores (execute s)) (callee : Callable) (args : List Value) :
    Restores (Machine.call execute callee args) := by
  cases callee with
  | native f =>
    cases f
    exact readClock.bind fun time => .pure (Value.number time)
  | function id => exact callFunction hx id args
  | cls id => exact construct hx id args

theorem callValue (hx : ∀ s, Restores (execute s)) (line : Nat) (callee : Value)
    (args : List Value) : Restores (Machine.callValue execute line callee args) := by
  unfold Machine.callValue
  cases callee.callable? with
  | none => exact .fail _
  | some target =>
    refine getHeap.bind fun heap => ?_
    by_cases hlength : args.length = heap.arity target
    · rw [if_pos hlength]
      exact call hx target args
    · rw [if_neg hlength]
      exact .fail _

theorem evaluateAll (he : ∀ e, Restores (evaluate e)) (es : List Expr) :
    Restores (Machine.evaluateAll evaluate es) := by
  induction es with
  | nil => exact .pure []
  | cons first others ih =>
    exact (he first).bind fun value => ih.bind fun values => .pure (value :: values)

/-- **One step into an expression** restores if the steps into its parts do. -/
theorem evaluateWith (he : ∀ e, Restores (evaluate e)) (hx : ∀ s, Restores (execute s)) :
    ∀ e : Expr, Restores (Machine.evaluateWith evaluate execute e)
  | .literal value => .pure (Value.ofLiteral value)
  | .group inner => he inner
  | .unary op line operand => (he operand).bind fun a => ofExcept (applyUnary op line a)
  | .binary left op line right =>
    (he left).bind fun a => (he right).bind fun b => ofExcept (applyBinary op line a b)
  | .logical left op right => by
    refine (he left).bind fun a => ?_
    cases settles op a with
    | true => exact .pure a
    | false => exact he right
  | .var reference => lookUp reference
  | .assign target value => (he value).bind fun v => (store target v).bind fun _ => .pure v
  | .call callee line args =>
    (he callee).bind fun f => (evaluateAll he args).bind fun values => callValue hx line f values
  | .get object name => by
    refine (he object).bind fun a => ?_
    cases a with
    | inst id => exact property id name
    | _ => exact .fail _
  | .set object name value => by
    refine (he object).bind fun a => ?_
    cases a with
    | inst id => exact (he value).bind fun v => .bind (fun _ => ⟨rfl, rfl, rfl, rfl⟩) fun _ => .pure v
    | _ => exact .fail _
  | .this keyword => lookUp keyword
  | .super keyword method => superMethod keyword method

theorem loop {condition : Run Value} {body : Run Flow} (hc : Restores condition)
    (hb : Restores body) : ∀ rounds : Nat, Restores (Machine.loop condition body rounds)
  | 0 => .outOfFuel
  | rounds + 1 => by
    refine hc.bind fun a => ?_
    cases a.isTruthy with
    | false => exact .pure Flow.normal
    | true =>
      refine hb.bind fun flow => ?_
      cases flow with
      | normal => exact loop hc hb rounds
      | returned value => exact .pure (Flow.returned value)

theorem evaluate? (he : ∀ e, Restores (evaluate e)) :
    ∀ e : Option Expr, Restores (Machine.evaluate? evaluate e)
  | none => .pure Value.nil
  | some e => he e

/-- **One step into a statement** restores if the steps into its parts do. -/
theorem executeWith (he : ∀ e, Restores (evaluate e)) (hx : ∀ s, Restores (execute s))
    (rounds : Nat) : ∀ s : Stmt, Restores (Machine.executeWith evaluate execute rounds s)
  | .expr value => (he value).bind fun _ => .pure Flow.normal
  | .print value => (he value).bind fun v => getHeap.bind fun heap =>
    (writeLine (heap.display v)).bind fun _ => .pure Flow.normal
  | .var name initializer => (evaluate? he initializer).bind fun v =>
    (define name.text v).bind fun _ => .pure Flow.normal
  | .block body => get.bind fun _ => .bind (.allocate _) fun frame => withFrame frame (runAll hx body)
  | .ifElse condition thenBranch elseBranch => by
    refine (he condition).bind fun a => ?_
    cases a.isTruthy with
    | true => exact hx thenBranch
    | false =>
      cases elseBranch with
      | none => exact .pure Flow.normal
      | some branch => exact hx branch
  | .whileDo condition body => loop (he condition) (hx body) rounds
  | .function declaration => get.bind fun _ => .bind (.allocate _) fun id =>
    (define declaration.name.text (.function id)).bind fun _ => .pure Flow.normal
  | .ret _ value => (evaluate? he value).bind fun v => .pure (Flow.returned v)
  | .classDecl name superclass methods =>
    (declareClass name superclass methods).bind fun _ => .pure Flow.normal

end Restores

mutual

/-- **Expressions restore**, by induction on the fuel, -/
theorem restores_evaluate : ∀ (fuel : Nat) (e : Expr), Restores (evaluate fuel e)
  | 0, _ => .outOfFuel
  | fuel + 1, e => .evaluateWith (restores_evaluate fuel) (restores_execute fuel) e

/-- and so do statements. -/
theorem restores_execute : ∀ (fuel : Nat) (s : Stmt), Restores (execute fuel s)
  | 0, _ => .outOfFuel
  | fuel + 1, s => .executeWith (restores_evaluate fuel) (restores_execute fuel) fuel s

end

/-! ## Requests -/

theorem restores_runProgram (fuel : Nat) : ∀ program : Program, Restores (runProgram fuel program)
  | [] => .pure ()
  | first :: others => (restores_execute fuel first).bind fun _ => restores_runProgram fuel others

/-- What a caller can ask of a machine: to run a program with the distances of its references, or
one statement, one expression, or the statements of a block in a frame of the caller's choice. -/
inductive Request
  | interpret (program : Program) (distances : Distances)
  | execute (s : Stmt)
  | evaluate (e : Expr)
  | block (frame : FrameId) (body : List Stmt)

/-- What a request leaves behind, whatever it comes to. -/
def Request.behind (fuel : Nat) : Request → Machine → Machine
  | interpret program distances => (Machine.interpret fuel program distances).behind
  | execute s => (Machine.execute fuel s).behind
  | evaluate e => (Machine.evaluate fuel e).behind
  | block frame body => (withFrame frame (runAll (Machine.execute fuel) body)).behind

/-- What requests leave behind one after the other, each with so much fuel. -/
def requests (m : Machine) (rs : List (Nat × Request)) : Machine :=
  rs.foldl (fun m r => r.2.behind r.1 m) m

/-- Whether the step that goes back to the outermost frame changes nothing, however the program that
it follows ends. -/
def GuardIdle (m : Machine) : Prop :=
  ∀ (fuel : Nat) (program : Program) (distances : Distances),
    backToGlobals (runProgram fuel program) { m with distances } =
      runProgram fuel program { m with distances }

/-- A run that restores stops in the outermost frame if it began there. -/
theorem backToGlobals_eq {x : Run Unit} (h : Restores x) {m : Machine}
    (hm : m.environment = m.globals) : backToGlobals x m = x m := by
  have hx := h m
  unfold Run.behind at hx
  unfold backToGlobals
  cases hstop : x m with
  | ok a m₁ => rfl
  | error stop m₁ =>
    rw [hstop] at hx
    obtain ⟨heap, globals, environment, distances, sink, flushes, clock⟩ := m₁
    have hback : globals = environment := hx.globals.trans (hm.symm.trans hx.environment.symm)
    subst hback
    rfl

/-- Behind a program the outermost frame is the current one if it was so before, and the sink was
flushed once more. -/
theorem restores_interpret (fuel : Nat) (program : Program) (distances : Distances) (m : Machine) :
    let left := (interpret fuel program distances).behind m
    (m.environment = m.globals → left.environment = left.globals) ∧
      left.flushes = m.flushes + 1 := by
  have hrun := restores_runProgram fuel program { m with distances := m.distances.merge distances }
  unfold Run.behind at hrun ⊢
  cases hx : runProgram fuel program { m with distances := m.distances.merge distances } with
  | ok a m' =>
    rw [hx] at hrun
    rw [interpret_of_ok hx, flush_eq]
    have hback : m.environment = m.globals → m'.environment = m'.globals := fun hm =>
      hrun.environment.trans (hm.trans hrun.globals.symm)
    have hflushes : m'.flushes + 1 = m.flushes + 1 := congrArg (· + 1) hrun.flushes
    cases m'.sink.flushFails <;> exact ⟨hback, hflushes⟩
  | error stop m' =>
    rw [hx] at hrun
    rw [interpret_of_error hx]
    exact ⟨fun _ => rfl, congrArg (· + 1) hrun.flushes⟩

theorem environment_of_behind (fuel : Nat) (r : Request) {m : Machine}
    (hm : m.environment = m.globals) :
    (r.behind fuel m).environment = (r.behind fuel m).globals := by
  cases r with
  | interpret program distances => exact (restores_interpret fuel program distances m).1 hm
  | execute s =>
    have h := restores_execute fuel s m
    exact h.environment.trans (hm.trans h.globals.symm)
  | evaluate e =>
    have h := restores_evaluate fuel e m
    exact h.environment.trans (hm.trans h.globals.symm)
  | block frame body =>
    have h := Restores.withFrame frame (.runAll (restores_execute fuel) body) m
    exact h.environment.trans (hm.trans h.globals.symm)

/-- Between two requests the outermost frame is the current one. -/
theorem environment_of_requests : ∀ (rs : List (Nat × Request)) {m : Machine},
    m.environment = m.globals → (m.requests rs).environment = (m.requests rs).globals
  | [], _, hm => hm
  | r :: rs, _, hm => environment_of_requests rs (environment_of_behind r.1 r.2 hm)

/-- **Every change of the frame is taken back.**  Whatever the machine, its distances and what it is
asked to run, and however the run ends, a statement, an expression and a block in any frame leave
the current frame, the outermost frame and the distances as they were, and do not flush the sink.  So
after any requests to a new machine the outermost frame is the current one, and the step that goes
back there when a program stops changes nothing. -/
theorem setting_restored :
    (∀ (m : Machine) (fuel : Nat),
      (∀ s, SameSetting m ((execute fuel s).behind m)) ∧
      (∀ e, SameSetting m ((evaluate fuel e).behind m)) ∧
      ∀ frame body, SameSetting m ((withFrame frame (runAll (execute fuel) body)).behind m)) ∧
    ∀ (sink : Sink) (clock : Clock) (rs : List (Nat × Request)),
      ((initial sink clock).requests rs).environment =
          ((initial sink clock).requests rs).globals ∧
        GuardIdle ((initial sink clock).requests rs) := by
  refine ⟨fun m fuel => ⟨fun s => restores_execute fuel s m, fun e => restores_evaluate fuel e m,
    fun frame body => Restores.withFrame frame (.runAll (restores_execute fuel) body) m⟩,
    fun sink clock rs => ?_⟩
  have houtermost := environment_of_requests rs (m := initial sink clock) rfl
  exact ⟨houtermost, fun fuel program distances =>
    backToGlobals_eq (restores_runProgram fuel program) houtermost⟩

end Lox.Machine
