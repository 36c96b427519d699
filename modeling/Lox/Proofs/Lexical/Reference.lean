import Lox.Session

/-!
# Programs run by lexical scoping

A second way of running programs, which knows nothing of frames and distances.  An environment is a
map from names to locations that never changes.  Whatever a program binds inside a block or a
function gets a new location, and the map is extended for what follows; a function keeps the map of
the place where it is declared, with its own name; and a name that the map does not have is looked
up among the outermost variables whenever it is used.

There is one more parameter, which plain runs (`strict = false`) do not use.  A *strict* run stops
where a program assigns to a local variable inside the variable's own initializer.
-/

namespace Lox.Lexical

/-- The place of a value in the store. -/
abbrev Location := Nat

/-- A map from names to locations, and whether it is that of a place inside a block or a function. -/
structure Env where
  names : List (String × Location)
  isLocal : Bool
  deriving Inhabited

/-- A function with the map of the place where it is declared. -/
structure Closure where
  declaration : FunctionDecl
  env : Env
  isInitializer : Bool
  deriving Inhabited

/-- The values of all locations, the outermost variables, the objects, where output goes, and what
the clock shows. -/
structure State where
  store : List Value
  globals : Table Value
  functions : List Closure
  classes : Array ClassObject
  instances : Array InstanceObject
  sink : Sink
  clock : Clock

/-- Why a run stops.  Only strict runs stop at an assignment to a variable being initialized. -/
inductive Stop
  | fault (fault : Machine.Fault)
  | ownAssignment (name : String)
  | outOfFuel

/-- What changes a state and yields something. -/
abbrev Run := EStateM Stop State

/-- On the outermost level the map is empty. -/
def Env.global : Env := ⟨[], false⟩

/-- Inside a block or a function. -/
def Env.inside (env : Env) : Env := { env with isLocal := true }

/-- The map with one more name. -/
def Env.extend (env : Env) (name : String) (location : Location) : Env :=
  { env with names := (name, location) :: env.names }

/-- A state before its first program. -/
def State.initial (sink : Sink) (clock : Clock) : State where
  store := []
  globals := .single Native.clock.name (.native .clock)
  functions := []
  classes := #[]
  instances := #[]
  sink := sink
  clock := clock

/-- The objects of a state as a heap without frames, to which all questions about them are put. -/
def State.heap (s : State) : Heap where
  frames := .empty
  functions := (s.functions.map fun f => ⟨f.declaration, default, f.isInitializer⟩).toArray
  classes := s.classes
  instances := s.instances

/-! ## Small steps -/

/-- Stops at a fault. -/
def fail {α : Type} (fault : Machine.Fault) : Run α :=
  throw (.fault fault)

/-- Stops because the fuel ran out. -/
def outOfFuel {α : Type} : Run α :=
  throw .outOfFuel

/-- Binds a name to a new location with this value. -/
def bindLocal (env : Env) (name : String) (value : Value) : Run Env :=
  modifyGet fun s => (env.extend name s.store.length, { s with store := s.store ++ [value] })

/-- Declares a name: at a new location, or among the outermost variables. -/
def declare (env : Env) (name : String) (value : Value) : Run Env := do
  if env.isLocal then bindLocal env name value
  else
    modify fun s => { s with globals := s.globals.put name value }
    return env

/-- The value that a name means. -/
def lookUp (env : Env) (name : Name) : Run Value := do
  let s ← get
  match env.names.lookup name.text with
  | some location => return s.store.getD location .nil
  | none =>
    match s.globals.get? name.text with
    | some value => return value
    | none => fail (.undefinedVariable name)

/-- Writes to what a name means. -/
def assign (env : Env) (name : Name) (value : Value) : Run Unit := do
  let s ← get
  match env.names.lookup name.text with
  | some location => set { s with store := s.store.set location value }
  | none =>
    if s.globals.contains name.text then
      set { s with globals := s.globals.put name.text value }
    else fail (.undefinedVariable name)

/-- A new function. -/
def newFunction (closure : Closure) : Run FunctionId :=
  modifyGet fun s => (⟨s.functions.length⟩, { s with functions := s.functions ++ [closure] })

/-- The function with this identity. -/
def closure (id : FunctionId) : Run Closure :=
  return ((← get).functions[id.index]?).getD default

/-- A method bound to an instance: the same function, whose map has `this` too. -/
def bind (method : FunctionId) (receiver : InstanceId) : Run FunctionId := do
  let function ← closure method
  let env ← bindLocal function.env thisName (.inst receiver)
  newFunction { function with env }

/-- Writes a text and a newline to the sink. -/
def writeLine (text : String) : Run Unit := do
  let fits ← modifyGet fun s =>
    let (sink, fits) := s.sink.write (text ++ "\n").toUTF8
    (fits, { s with sink })
  unless fits do fail .sinkFull

/-- Flushes the sink. -/
def flush : Run Unit := do
  if (← get).sink.flushFails then fail .sinkClosed

/-- The value of a property of an instance. -/
def property (id : InstanceId) (name : Name) : Run Value := do
  match (← get).heap.property? id name.text with
  | some (.field value) => return value
  | some (.method method) => return .function (← bind method id)
  | none => fail (.undefinedProperty name)

/-- The method that `super` and a name mean. -/
def superMethod (env : Env) (keyword method : Name) : Run Value := do
  match ← lookUp env ⟨superName, keyword.line⟩, ← lookUp env ⟨thisName, keyword.line⟩ with
  | .cls parent, .inst receiver =>
    match (← get).heap.findMethod? parent method.text with
    | some found => return .function (← bind found receiver)
    | none => fail (.undefinedProperty method)
  | _, _ => fail (.unresolved keyword)

/-- What operators make of values, as a run. -/
def ofExcept {α : Type} : Except Machine.Fault α → Run α
  | .ok a => return a
  | .error fault => fail fault

/-! ## Calls -/

/-- Parameters bound to arguments, in order. -/
def bindParams (env : Env) : List Name → List Value → Run Env
  | param :: params, arg :: args => do bindParams (← bindLocal env param.text arg) params args
  | _, _ => return env

/-- Runs statements in order up to the first that is on the way out of a function.  Each runs in the
map that is left behind by the one before it. -/
def runAll (execute : Env → Stmt → Run (Machine.Flow × Env)) : Env → List Stmt → Run Machine.Flow
  | _, [] => return .normal
  | env, first :: others => do
    let (flow, behind) ← execute env first
    match flow with
    | .normal => runAll execute behind others
    | .returned value => return .returned value

/-- Calls a function. -/
def callFunction (execute : Env → Stmt → Run (Machine.Flow × Env)) (id : FunctionId)
    (args : List Value) : Run Value := do
  let function ← closure id
  let env ← bindParams function.env.inside function.declaration.params args
  let flow ← runAll execute env function.declaration.body
  if function.isInitializer then lookUp function.env ⟨thisName, 0⟩ else return flow.result

/-- Makes an instance of a class, and runs its initializer on it if it has one. -/
def construct (execute : Env → Stmt → Run (Machine.Flow × Env)) (id : ClassId)
    (args : List Value) : Run Value := do
  let receiver ← modifyGet fun s =>
    (⟨s.instances.size⟩, { s with instances := s.instances.push ⟨id, .empty⟩ })
  match (← get).heap.findMethod? id initializerName with
  | some init => do
    let bound ← bind init receiver
    let _ ← callFunction execute bound args
    return .inst receiver
  | none => return .inst receiver

/-- Calls a native function. -/
def callNative : Native → Run Value
  | .clock => modifyGet fun s => (.number s.clock.now, { s with clock := s.clock.next })

/-- Calls what can be called. -/
def call (execute : Env → Stmt → Run (Machine.Flow × Env)) (callee : Callable)
    (args : List Value) : Run Value :=
  match callee with
  | .native f => callNative f
  | .function id => callFunction execute id args
  | .cls id => construct execute id args

/-- Calls a value with as many arguments as it takes. -/
def callValue (execute : Env → Stmt → Run (Machine.Flow × Env)) (line : Nat) (callee : Value)
    (args : List Value) : Run Value := do
  match callee.callable? with
  | none => fail (.notCallable line)
  | some target => do
    let expected := (← get).heap.arity target
    if args.length = expected then call execute target args
    else fail (.argumentCount line expected args.length)

/-! ## Expressions -/

/-- Evaluates expressions in order. -/
def evaluateAll (evaluate : Expr → Run Value) : List Expr → Run (List Value)
  | [] => return []
  | first :: others => do
    let value ← evaluate first
    return value :: (← evaluateAll evaluate others)

/-- Evaluates an expression by runs of its parts.  In a strict run `own` is the local variable whose
initializer this is part of. -/
def evaluateWith (evaluate : Expr → Run Value) (execute : Env → Stmt → Run (Machine.Flow × Env))
    (env : Env) (own : Option String) : Expr → Run Value
  | .literal value => return .ofLiteral value
  | .group inner => evaluate inner
  | .unary op line operand => do
    ofExcept (Machine.applyUnary op line (← evaluate operand))
  | .binary left op line right => do
    let a ← evaluate left
    let b ← evaluate right
    ofExcept (Machine.applyBinary op line a b)
  | .logical left op right => do
    let a ← evaluate left
    if Machine.settles op a then return a else evaluate right
  | .var reference => lookUp env reference.name
  | .assign target value => do
    let v ← evaluate value
    if own = some target.name.text then throw (.ownAssignment target.name.text)
    else
      assign env target.name v
      return v
  | .call callee line args => do
    let f ← evaluate callee
    let values ← evaluateAll evaluate args
    callValue execute line f values
  | .get object name => do
    match ← evaluate object with
    | .inst id => property id name
    | _ => fail (.noProperties name.line)
  | .set object name value => do
    match ← evaluate object with
    | .inst id => do
      let v ← evaluate value
      modify fun s => { s with instances := (s.heap.setField id name.text v).instances }
      return v
    | _ => fail (.noFields name.line)
  | .this keyword => lookUp env keyword.name
  | .super keyword method => superMethod env keyword.name method

/-! ## Statements -/

/-- The class that a superclass clause names. -/
def superclassOf (env : Env) : Option Reference → Run (Option ClassId)
  | none => return none
  | some reference => do
    match ← lookUp env reference.name with
    | .cls id => return some id
    | _ => fail (.superclassNotClass reference.name.line)

/-- The map in which the methods of a class are declared. -/
def methodEnv (env : Env) : Option ClassId → Run Env
  | none => return env
  | some parent => bindLocal env superName (.cls parent)

/-- Makes the methods of a class.  Of two under one name the later counts. -/
def makeMethods (env : Env) (methods : Table FunctionId) :
    List FunctionDecl → Run (Table FunctionId)
  | [] => return methods
  | method :: others => do
    let id ← newFunction ⟨method, env, method.isInitializer⟩
    makeMethods env (methods.put method.name.text id) others

/-- Declares a class.  Its name is bound before its superclass is looked up. -/
def declareClass (env : Env) (name : Name) (superclass : Option Reference)
    (methods : List FunctionDecl) : Run Env := do
  let behind ← declare env name.text .nil
  let parent ← superclassOf behind superclass
  let inside ← methodEnv behind parent
  let table ← makeMethods inside .empty methods
  let id ← modifyGet fun s =>
    (⟨s.classes.size⟩, { s with classes := s.classes.push ⟨name.text, parent, table⟩ })
  assign behind name (.cls id)
  return behind

/-- Runs the body of a loop while its condition is truthy, for at most so many rounds. -/
def loop (condition : Run Value) (body : Run Machine.Flow) : Nat → Run Machine.Flow
  | 0 => outOfFuel
  | rounds + 1 => do
    if (← condition).isTruthy then
      match ← body with
      | .normal => loop condition body rounds
      | .returned value => return .returned value
    else return .normal

/-- Evaluates an expression that may be absent. -/
def evaluate? (evaluate : Expr → Run Value) : Option Expr → Run Value
  | some value => evaluate value
  | none => return .nil

/-- The variable that an initializer belongs to, as far as a run has to know. -/
def ownName (strict : Bool) (env : Env) (name : Name) : Option String :=
  if strict && env.isLocal then some name.text else none

/-- Runs a statement that is not in a scope of its own, and leaves the map as it is. -/
def within (env : Env) (run : Run (Machine.Flow × Env)) : Run (Machine.Flow × Env) := do
  let (flow, _) ← run
  return (flow, env)

/-- Runs a statement by runs of its parts, and gives the map for what follows it. -/
def executeWith (strict : Bool) (evaluate : Env → Option String → Expr → Run Value)
    (execute : Env → Stmt → Run (Machine.Flow × Env)) (rounds : Nat) (env : Env) :
    Stmt → Run (Machine.Flow × Env)
  | .expr value => do
    let _ ← evaluate env none value
    return (.normal, env)
  | .print value => do
    let v ← evaluate env none value
    writeLine ((← get).heap.display v)
    return (.normal, env)
  | .var name initializer => do
    let v ← evaluate? (evaluate env (ownName strict env name)) initializer
    let behind ← declare env name.text v
    return (.normal, behind)
  | .block body => do
    let flow ← runAll execute env.inside body
    return (flow, env)
  | .ifElse condition thenBranch elseBranch => do
    if (← evaluate env none condition).isTruthy then within env (execute env thenBranch)
    else match elseBranch with
      | some branch => within env (execute env branch)
      | none => return (.normal, env)
  | .whileDo condition body => do
    let round := do
      let (flow, _) ← execute env body
      return flow
    let flow ← loop (evaluate env none condition) round rounds
    return (flow, env)
  | .function declaration => do
    let behind ← declare env declaration.name.text .nil
    let id ← newFunction ⟨declaration, behind, false⟩
    assign behind declaration.name (.function id)
    return (.normal, behind)
  | .ret _ value => do
    let v ← evaluate? (evaluate env none) value
    return (.returned v, env)
  | .classDecl name superclass methods => do
    let behind ← declareClass env name superclass methods
    return (.normal, behind)

mutual

/-- Evaluates an expression. -/
def evaluate (strict : Bool) : (fuel : Nat) → Env → Option String → Expr → Run Value
  | 0, _, _, _ => outOfFuel
  | fuel + 1, env, own, e =>
    evaluateWith (evaluate strict fuel env own) (execute strict fuel) env own e

/-- Runs a statement. -/
def execute (strict : Bool) : (fuel : Nat) → Env → Stmt → Run (Machine.Flow × Env)
  | 0, _, _ => outOfFuel
  | fuel + 1, env, s =>
    executeWith strict (evaluate strict fuel) (execute strict fuel) fuel env s

end

/-- Runs the statements of a program. -/
def runProgram (strict : Bool) (fuel : Nat) : Program → Run Unit
  | [] => return ()
  | first :: others => do
    let _ ← execute strict fuel .global first
    runProgram strict fuel others

/-- Runs a program, and flushes the sink behind it. -/
def interpret (strict : Bool) (fuel : Nat) (program : Program) : Run Unit := do
  runProgram strict fuel program
  flush

end Lox.Lexical
