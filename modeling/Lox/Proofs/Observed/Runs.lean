import Lox.Proofs.Observed.Sites
import Lox.Session

/-!
# Observed runs

The machine runs as ever, and beside it a record is kept of what it visits: each expression and
statement at the moment when its run begins, with the machine as it is then.  A visit has a position.
That is what the walk over the program knew at this place, which instance the method around it was
bound to when it was fetched, and which class the superclass clause of the class around it came to.
The functions keep the position at which they were declared, or bound, for the visits of their
bodies.
-/

namespace Lox.Observed

open Machine (Flow bindParams settles applyUnary applyBinary)
open Machine.Run (getHeap allocate lookUp store fail)

/-- Where in a program a run is. -/
structure Position where
  /-- The function and the class around it, as the walk knew them. -/
  around : Surroundings
  /-- The scopes that the walk had there. -/
  scopes : Scopes
  /-- The instance to which the method around it was bound. -/
  receiver : Option InstanceId
  /-- The class to which the superclass clause of the class around it came. -/
  parent : Option ClassId

namespace Position

/-- Outside everything. -/
def outermost : Position := ⟨.none, [], none, none⟩

/-- In a new block. -/
def inside (position : Position) : Position :=
  { position with scopes := position.scopes.enter }

/-- In the initializer of a variable. -/
def declaring (position : Position) (name : Name) : Position :=
  { position with scopes := (position.scopes.declare name).1 }

/-- Behind the declaration of a name. -/
def declared (position : Position) (name : Name) : Position :=
  { position with scopes := (position.scopes.declareReady name).1 }

/-- Behind a statement. -/
def behind (position : Position) (s : Stmt) : Position :=
  { position with scopes := (s.walk position.around position.scopes).1 }

/-- Around the parameters of a function that is declared here. -/
def inFunction (position : Position) (name : Name) : Position :=
  { position.declared name with around := ⟨.function, position.around.inClass⟩ }

/-- Among the methods of a class that is declared here, which are not bound to an instance. -/
def inClass (position : Position) (superclass : Option Reference) (parent : Option ClassId) :
    Position where
  around := ⟨position.around.inFunction, .ofSuperclass superclass⟩
  scopes := position.scopes.enterClass superclass
  receiver := none
  parent := parent

/-- Around the parameters of one of the methods. -/
def inMethod (position : Position) (method : FunctionDecl) : Position :=
  { position with around := ⟨.ofMethod method, position.around.inClass⟩ }

/-- In the body of a function. -/
def inBody (position : Position) (f : FunctionDecl) : Position :=
  { position with scopes := (position.scopes.enter.declareAll f.params).1 }

end Position

/-- What is visited, where, and the machine that begins to run it. -/
structure Visit where
  node : Node
  position : Position
  machine : Machine

/-- What the walk came by when it was there. -/
def Visit.site (v : Visit) : Site :=
  ⟨v.node, v.position.around, v.position.scopes⟩

/-- A machine and the record of its runs: where its functions come from, what the walks over its
programs came by, and what was visited. -/
structure State where
  machine : Machine
  origin : FunctionId → Position
  sites : List Site
  visits : List Visit

/-- The state with another current frame. -/
def State.moveTo (s : State) (frame : FrameId) : State :=
  { s with machine := { s.machine with environment := frame } }

/-- What changes a machine and its record, and yields something. -/
abbrev Run := EStateM Machine.Stop State

/-! ## Steps -/

/-- A step of the machine, of which nothing is recorded. -/
def lift {α : Type} (x : Machine.Run α) : Run α := fun s =>
  match x s.machine with
  | .ok a machine => .ok a { s with machine }
  | .error stop machine => .error stop { s with machine }

/-- Records that a run begins. -/
def visit (node : Node) (position : Position) : Run Unit :=
  modify fun s => { s with visits := s.visits ++ [⟨node, position, s.machine⟩] }

/-- Records where a function comes from. -/
def note (id : FunctionId) (position : Position) : Run Unit :=
  modify fun s => { s with origin := fun other => if other = id then position else s.origin other }

/-- Where a function comes from. -/
def originOf (id : FunctionId) : Run Position :=
  return (← get).origin id

/-- Runs inside another frame and comes back to the current one. -/
def withFrame {α : Type} (frame : FrameId) (inner : Run α) : Run α := fun s =>
  let outer := s.machine.environment
  match inner (s.moveTo frame) with
  | .ok a s => .ok a (s.moveTo outer)
  | .error stop s => .error stop (s.moveTo outer)

/-- Binds a method to an instance.  That is where the bound method comes from. -/
def bind (method : FunctionId) (receiver : InstanceId) : Run FunctionId := do
  let bound ← lift (allocate (·.bind method receiver))
  let position ← originOf method
  note bound { position with receiver := some receiver }
  return bound

/-- The value of a property of an instance. -/
def property (id : InstanceId) (name : Name) : Run Value := do
  match (← lift getHeap).property? id name.text with
  | some (.field value) => return value
  | some (.method method) => return .function (← bind method id)
  | none => lift (fail (.undefinedProperty name))

/-- The method that `super` and a name mean. -/
def superMethod (keyword : Reference) (method : Name) : Run Value := do
  match (← get).machine.distances.get? keyword.id with
  | none => lift (fail (.unresolved keyword.name))
  | some distance => do
    let parent ← lift (Machine.Run.superclassAt distance)
    match distance with
    | 0 => lift (fail .superWithoutReceiver)
    | inner + 1 => do
      let receiver ← lift (Machine.Run.receiverAt inner)
      match (← lift getHeap).findMethod? parent method.text with
      | some found => return .function (← bind found receiver)
      | none => lift (fail (.undefinedProperty method))

/-! ## Calls -/

/-- Runs statements in order up to the first that is on the way out of a function, each behind those
before it. -/
def runAll (execute : Position → Stmt → Run Flow) : Position → List Stmt → Run Flow
  | _, [] => return .normal
  | position, first :: others => do
    match ← execute position first with
    | .normal => runAll execute (position.behind first) others
    | .returned value => return .returned value

/-- Evaluates expressions in order. -/
def evaluateAll (evaluate : Expr → Run Value) : List Expr → Run (List Value)
  | [] => return []
  | first :: others => do
    let value ← evaluate first
    return value :: (← evaluateAll evaluate others)

/-- Runs the body of a loop while its condition is truthy, for at most so many rounds. -/
def loop (condition : Run Value) (body : Run Flow) : Nat → Run Flow
  | 0 => lift Machine.Run.outOfFuel
  | rounds + 1 => do
    if (← condition).isTruthy then
      match ← body with
      | .normal => loop condition body rounds
      | .returned value => return .returned value
    else return .normal

/-- Calls a function. -/
def callFunction (execute : Position → Stmt → Run Flow) (id : FunctionId) (args : List Value) :
    Run Value := do
  let object := (← lift getHeap).function id
  let position ← originOf id
  let frame ← lift (allocate
    (·.newFrame (some object.closure) (bindParams object.declaration.params args)))
  let flow ← withFrame frame
    (runAll execute (position.inBody object.declaration) object.declaration.body)
  if object.isInitializer then lift (Machine.Run.getAt object.closure 0 thisName)
  else return flow.result

/-- Makes an instance of a class, and runs its initializer on it if it has one. -/
def construct (execute : Position → Stmt → Run Flow) (id : ClassId) (args : List Value) :
    Run Value := do
  let receiver ← lift (allocate (·.newInstance id))
  match (← lift getHeap).findMethod? id initializerName with
  | some init => do
    let bound ← bind init receiver
    let _ ← callFunction execute bound args
    return .inst receiver
  | none => return .inst receiver

/-- Calls what can be called. -/
def call (execute : Position → Stmt → Run Flow) (callee : Callable) (args : List Value) :
    Run Value :=
  match callee with
  | .native f => lift (Machine.callNative f)
  | .function id => callFunction execute id args
  | .cls id => construct execute id args

/-- Calls a value with as many arguments as it takes. -/
def callValue (execute : Position → Stmt → Run Flow) (line : Nat) (callee : Value)
    (args : List Value) : Run Value := do
  match callee.callable? with
  | none => lift (fail (.notCallable line))
  | some target => do
    let expected := (← lift getHeap).arity target
    if args.length = expected then call execute target args
    else lift (fail (.argumentCount line expected args.length))

/-! ## Expressions -/

/-- Evaluates an expression by runs of its parts. -/
def evaluateWith (evaluate : Expr → Run Value) (execute : Position → Stmt → Run Flow) :
    Expr → Run Value
  | .literal value => return .ofLiteral value
  | .group inner => evaluate inner
  | .unary op line operand => do
    let a ← evaluate operand
    lift (Machine.Run.ofExcept (applyUnary op line a))
  | .binary left op line right => do
    let a ← evaluate left
    let b ← evaluate right
    lift (Machine.Run.ofExcept (applyBinary op line a b))
  | .logical left op right => do
    let a ← evaluate left
    if settles op a then return a else evaluate right
  | .var reference => lift (lookUp reference)
  | .assign target value => do
    let v ← evaluate value
    lift (store target v)
    return v
  | .call callee line args => do
    let f ← evaluate callee
    let values ← evaluateAll evaluate args
    callValue execute line f values
  | .get object name => do
    match ← evaluate object with
    | .inst id => property id name
    | _ => lift (fail (.noProperties name.line))
  | .set object name value => do
    match ← evaluate object with
    | .inst id => do
      let v ← evaluate value
      lift (modify fun m => { m with heap := m.heap.setField id name.text v })
      return v
    | _ => lift (fail (.noFields name.line))
  | .this keyword => lift (lookUp keyword)
  | .super keyword method => superMethod keyword method

/-! ## Statements -/

/-- The class that a superclass clause names. -/
def superclassOf (position : Position) : Option Reference → Run (Option ClassId)
  | none => return none
  | some reference => do
    visit (.superclass reference) position
    match ← lift (lookUp reference) with
    | .cls id => return some id
    | _ => lift (fail (.superclassNotClass reference.name.line))

/-- Makes the methods of a class, at the position among them. -/
def makeMethods (position : Position) (frame : FrameId) (methods : Table FunctionId) :
    List FunctionDecl → Run (Table FunctionId)
  | [] => return methods
  | method :: others => do
    let id ← lift (allocate (·.newFunction ⟨method, frame, method.isInitializer⟩))
    note id (position.inMethod method)
    makeMethods position frame (methods.put method.name.text id) others

/-- Declares a class. -/
def declareClass (position : Position) (name : Name) (superclass : Option Reference)
    (methods : List FunctionDecl) : Run Unit := do
  lift (Machine.Run.define name.text .nil)
  let parent ← superclassOf (position.declared name) superclass
  let frame ← lift (Machine.methodFrame parent)
  let table ← makeMethods ((position.declared name).inClass superclass parent) frame .empty methods
  let id ← lift (allocate (·.newClass ⟨name.text, parent, table⟩))
  lift (Machine.assignName name (.cls id))

/-- Declares a function. -/
def declareFunction (position : Position) (declaration : FunctionDecl) : Run Unit := do
  let current := (← get).machine.environment
  let id ← lift (allocate (·.newFunction ⟨declaration, current, false⟩))
  note id (position.inFunction declaration.name)
  lift (Machine.Run.define declaration.name.text (.function id))

/-- Runs statements in a new frame inside the current one. -/
def runBlock (execute : Position → Stmt → Run Flow) (position : Position) (body : List Stmt) :
    Run Flow := do
  let current := (← get).machine.environment
  let frame ← lift (allocate (·.newFrame (some current) .empty))
  withFrame frame (runAll execute position.inside body)

/-- The value of an expression that may be absent. -/
def evaluate? (evaluate : Expr → Run Value) : Option Expr → Run Value
  | some value => evaluate value
  | none => return .nil

/-- Runs a statement by runs of its parts. -/
def executeWith (evaluate : Position → Expr → Run Value) (execute : Position → Stmt → Run Flow)
    (rounds : Nat) (position : Position) : Stmt → Run Flow
  | .expr value => do
    let _ ← evaluate position value
    return .normal
  | .print value => do
    let v ← evaluate position value
    let heap ← lift getHeap
    lift (Machine.Run.writeLine (heap.display v))
    return .normal
  | .var name initializer => do
    let v ← evaluate? (evaluate (position.declaring name)) initializer
    lift (Machine.Run.define name.text v)
    return .normal
  | .block body => runBlock execute position body
  | .ifElse condition thenBranch elseBranch => do
    if (← evaluate position condition).isTruthy then execute position thenBranch
    else match elseBranch with
      | some branch => execute (position.behind thenBranch) branch
      | none => return .normal
  | .whileDo condition body => loop (evaluate position condition) (execute position body) rounds
  | .function declaration => do
    declareFunction position declaration
    return .normal
  | .ret _ value => do
    let v ← evaluate? (evaluate position) value
    return .returned v
  | .classDecl name superclass methods => do
    declareClass position name superclass methods
    return .normal

mutual

/-- Evaluates an expression, and records that it does. -/
def evaluate : (fuel : Nat) → Position → Expr → Run Value
  | 0, _, _ => lift Machine.Run.outOfFuel
  | fuel + 1, position, e => do
    visit (.expr e) position
    evaluateWith (evaluate fuel position) (execute fuel) e

/-- Runs a statement, and records that it does. -/
def execute : (fuel : Nat) → Position → Stmt → Run Flow
  | 0, _, _ => lift Machine.Run.outOfFuel
  | fuel + 1, position, s => do
    visit (.stmt s) position
    executeWith (evaluate fuel) (execute fuel) fuel position s

end

/-! ## Programs and sessions -/

/-- Runs the statements of a program. -/
def runProgram (fuel : Nat) : Position → Program → Run Unit
  | _, [] => return ()
  | position, first :: others => do
    let _ ← execute fuel position first
    runProgram fuel (position.behind first) others

/-- Runs what follows; if it stops, the current frame is the outermost one again. -/
def backToGlobals (inner : Run Unit) : Run Unit := fun s =>
  match inner s with
  | .ok a s => .ok a s
  | .error stop s => .error stop (s.moveTo s.machine.globals)

/-- Runs what follows, and flushes the sink if it stops. -/
def flushOnStop (inner : Run Unit) : Run Unit := fun s =>
  match inner s with
  | .ok a s => .ok a s
  | .error stop s => .error stop { s with machine.flushes := s.machine.flushes + 1 }

/-- Runs a program with the distances of its references, behind the walk over it. -/
def interpret (fuel : Nat) (program : Program) (distances : Distances) : Run Unit := do
  modify fun s => { s with sites := s.sites ++ program.sites }
  lift (Machine.addDistances distances)
  flushOnStop (backToGlobals (runProgram fuel .outermost program))
  lift Machine.Run.flush

/-- A machine with its record, and the first node identity that no tree of the session uses. -/
structure Session where
  state : State
  nextId : NodeId

namespace Session

/-- A session before its first text, of which nothing is recorded. -/
def initial (sink : Sink) (clock : Clock) : Session :=
  ⟨⟨.initial sink clock, fun _ => .outermost, [], []⟩, 0⟩

/-- The session without the record. -/
def erased (session : Session) : Lox.Session :=
  ⟨session.state.machine, session.nextId⟩

/-- What a run comes to. -/
def outcomeOf : EStateM.Result Machine.Stop State Unit → Outcome × State
  | .ok _ s => (.ok, s)
  | .error (.fault fault) s => (.failed fault.diagnostic, s)
  | .error .outOfFuel s => (.outOfFuel, s)

/-- Runs a text. -/
def run (session : Session) (fuel : Nat) (text : List Char) : Outcome × Session :=
  match Lox.Session.check text session.nextId with
  | (.error faults, nextId) => (.failed (.batch faults), { session with nextId })
  | (.ok (program, distances), nextId) =>
    let (outcome, state) := outcomeOf (interpret fuel program distances session.state)
    (outcome, ⟨state, nextId⟩)

/-- The session behind texts that are run one after the other, each with so much fuel. -/
def after (session : Session) (texts : List (Nat × List Char)) : Session :=
  texts.foldl (fun session entry => (session.run entry.1 entry.2).2) session

/-- What texts come to that are run one after the other. -/
def outcomes (session : Session) : List (Nat × List Char) → List Outcome
  | [] => []
  | (fuel, text) :: texts => (session.run fuel text).1 :: (session.run fuel text).2.outcomes texts

end Session

end Lox.Observed
