import Lox.Machine.Basic
import Lox.Machine.Operators

/-!
# Running expressions and statements

Each form of expression and statement is given by what it does with runs of its parts:
`evaluateWith` and `executeWith` take the run of an expression and of a statement as parameters, and
`evaluate` and `execute` close the circle.  One unit of fuel is spent on each step from a whole to a
part, into a function's body, or to a loop's next round; a run that ends does so with every larger
fuel too.
-/

namespace Lox.Machine

open Run

/-- Runs statements in order up to the first that is on the way out of a function. -/
def runAll (execute : Stmt → Run Flow) : List Stmt → Run Flow
  | [] => return .normal
  | first :: others => do
    match ← execute first with
    | .normal => runAll execute others
    | .returned value => return .returned value

/-- Evaluates expressions in order. -/
def evaluateAll (evaluate : Expr → Run Value) : List Expr → Run (List Value)
  | [] => return []
  | first :: others => do
    let value ← evaluate first
    return value :: (← evaluateAll evaluate others)

/-- Runs the body of a loop while its condition is truthy, for at most so many rounds. -/
def loop (condition : Run Value) (body : Run Flow) : Nat → Run Flow
  | 0 => outOfFuel
  | rounds + 1 => do
    if (← condition).isTruthy then
      match ← body with
      | .normal => loop condition body rounds
      | .returned value => return .returned value
    else return .normal

/-! ## Calls -/

/-- Parameters bound to arguments, in order.  What has no partner is left out. -/
def bindParams (params : List Name) (args : List Value) : Table Value :=
  (params.zip args).foldl (fun table (param, arg) => table.put param.text arg) .empty

/-- What a finished body hands to the caller of an ordinary function. -/
def Flow.result : Flow → Value
  | normal => .nil
  | .returned value => value

/-- Calls a function: its body runs in a new frame around which its closure lies.  An initializer
always hands back its receiver. -/
def callFunction (execute : Stmt → Run Flow) (id : FunctionId) (args : List Value) : Run Value := do
  let object := (← getHeap).function id
  let frame ← allocate
    (·.newFrame (some object.closure) (bindParams object.declaration.params args))
  let flow ← withFrame frame (runAll execute object.declaration.body)
  if object.isInitializer then getAt object.closure 0 thisName
  else return flow.result

/-- Makes an instance of a class, and runs its initializer on it if it has one. -/
def construct (execute : Stmt → Run Flow) (id : ClassId) (args : List Value) : Run Value := do
  let receiver ← allocate (·.newInstance id)
  match (← getHeap).findMethod? id initializerName with
  | some init => do
    let bound ← allocate (·.bind init receiver)
    let _ ← callFunction execute bound args
    return .inst receiver
  | none => return .inst receiver

/-- Calls a native function. -/
def callNative : Native → Run Value
  | .clock => return .number (← readClock)

/-- Calls what can be called, without a look at the number of arguments. -/
def call (execute : Stmt → Run Flow) (callee : Callable) (args : List Value) : Run Value :=
  match callee with
  | .native f => callNative f
  | .function id => callFunction execute id args
  | .cls id => construct execute id args

/-- Calls a value with as many arguments as it takes. -/
def callValue (execute : Stmt → Run Flow) (line : Nat) (callee : Value) (args : List Value) :
    Run Value := do
  match callee.callable? with
  | none => fail (.notCallable line)
  | some target => do
    let expected := (← getHeap).arity target
    if args.length = expected then call execute target args
    else fail (.argumentCount line expected args.length)

/-! ## Expressions -/

/-- What operators make of values, as a run. -/
def Run.ofExcept {α : Type} : Except Fault α → Run α
  | .ok a => return a
  | .error fault => fail fault

/-- Evaluates an expression by runs of its parts. -/
def evaluateWith (evaluate : Expr → Run Value) (execute : Stmt → Run Flow) : Expr → Run Value
  | .literal value => return .ofLiteral value
  | .group inner => evaluate inner
  | .unary op line operand => do
    ofExcept (applyUnary op line (← evaluate operand))
  | .binary left op line right => do
    let a ← evaluate left
    let b ← evaluate right
    ofExcept (applyBinary op line a b)
  | .logical left op right => do
    let a ← evaluate left
    if settles op a then return a else evaluate right
  | .var reference => lookUp reference
  | .assign target value => do
    let v ← evaluate value
    store target v
    return v
  | .call callee line args => do
    let f ← evaluate callee
    let values ← evaluateAll evaluate args
    callValue execute line f values
  | .get object name => do
    match ← evaluate object with
    | .inst id => property id name
    | _ => fail (.noProperties name.line)
  | .set object name value => do
    match ← evaluate object with
    | .inst id => do
      let v ← evaluate value
      modify fun m => { m with heap := m.heap.setField id name.text v }
      return v
    | _ => fail (.noFields name.line)
  | .this keyword => lookUp keyword
  | .super keyword method => superMethod keyword method

/-! ## Statements -/

/-- The class that a superclass clause names. -/
def superclassOf : Option Reference → Run (Option ClassId)
  | none => return none
  | some reference => do
    match ← lookUp reference with
    | .cls id => return some id
    | _ => fail (.superclassNotClass reference.name.line)

/-- The frame in which the methods of a class are declared: the current one, or a new one that binds
the superclass. -/
def methodFrame : Option ClassId → Run FrameId
  | none => return (← get).environment
  | some parent => do
    let current := (← get).environment
    allocate (·.newFrame (some current) (.single superName (.cls parent)))

/-- Makes the methods of a class.  Of two under one name the later counts. -/
def makeMethods (frame : FrameId) (methods : Table FunctionId) :
    List FunctionDecl → Run (Table FunctionId)
  | [] => return methods
  | method :: others => do
    let id ← allocate (·.newFunction ⟨method, frame, method.isInitializer⟩)
    makeMethods frame (methods.put method.name.text id) others

/-- Writes to a name that the current frame, or one around it, binds. -/
def assignName (name : Name) (value : Value) : Run Unit := do
  let m ← get
  match m.heap.frames.holder? m.environment name.text with
  | some frame => modifyFrames (·.define frame name.text value)
  | none => fail (.undefinedVariable name)

/-- Declares a class.  Its name is bound before its superclass is looked up.  While its methods are
made, the frame that they are declared in is the current one. -/
def declareClass (name : Name) (superclass : Option Reference) (methods : List FunctionDecl) :
    Run Unit := do
  define name.text .nil
  let parent ← superclassOf superclass
  let outer ← exchangeFrame (← methodFrame parent)
  let table ← makeMethods (← get).environment .empty methods
  let id ← allocate (·.newClass ⟨name.text, parent, table⟩)
  let _ ← exchangeFrame outer
  assignName name (.cls id)

/-- Runs statements in a new frame inside the current one. -/
def runBlock (execute : Stmt → Run Flow) (body : List Stmt) : Run Flow := do
  let current := (← get).environment
  let frame ← allocate (·.newFrame (some current) .empty)
  withFrame frame (runAll execute body)

/-- The value of an expression that may be absent. -/
def evaluate? (evaluate : Expr → Run Value) : Option Expr → Run Value
  | some value => evaluate value
  | none => return .nil

/-- Runs a statement by runs of its parts. -/
def executeWith (evaluate : Expr → Run Value) (execute : Stmt → Run Flow) (rounds : Nat) :
    Stmt → Run Flow
  | .expr value => do
    let _ ← evaluate value
    return .normal
  | .print value => do
    let v ← evaluate value
    writeLine ((← getHeap).display v)
    return .normal
  | .var name initializer => do
    let v ← evaluate? evaluate initializer
    define name.text v
    return .normal
  | .block body => runBlock execute body
  | .ifElse condition thenBranch elseBranch => do
    if (← evaluate condition).isTruthy then execute thenBranch
    else match elseBranch with
      | some branch => execute branch
      | none => return .normal
  | .whileDo condition body => loop (evaluate condition) (execute body) rounds
  | .function declaration => do
    let current := (← get).environment
    let id ← allocate (·.newFunction ⟨declaration, current, false⟩)
    define declaration.name.text (.function id)
    return .normal
  | .ret _ value => do
    let v ← evaluate? evaluate value
    return .returned v
  | .classDecl name superclass methods => do
    declareClass name superclass methods
    return .normal

mutual

/-- Evaluates an expression. -/
def evaluate : (fuel : Nat) → Expr → Run Value
  | 0, _ => outOfFuel
  | fuel + 1, e => evaluateWith (evaluate fuel) (execute fuel) e

/-- Runs a statement. -/
def execute : (fuel : Nat) → Stmt → Run Flow
  | 0, _ => outOfFuel
  | fuel + 1, s => executeWith (evaluate fuel) (execute fuel) fuel s

end

end Lox.Machine
