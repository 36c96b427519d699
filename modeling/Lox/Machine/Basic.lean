import Lox.Machine.Clock
import Lox.Machine.Fault
import Lox.Machine.Sink
import Lox.Scope.Findings
import Lox.Store.Heap

/-!
# The machine

The state of a session while programs run, and the small steps that running is made of.  A `Run`
changes the machine and yields something, or stops: at a fault, or because its fuel ran out.  What
was changed before a stop stays changed.

The frame in which names are declared and looked up is part of the state.  Two steps of a running
program change it: `withFrame`, which restores it however the inner run ends, and `exchangeFrame`,
which leaves it to the caller to come back.
-/

namespace Lox

/-- The objects, the frame of the outermost variables, the current frame, the distances of all
programs so far, where output goes, how often it was to be flushed, and what the clock shows. -/
structure Machine where
  heap : Heap
  globals : FrameId
  environment : FrameId
  distances : Distances
  sink : Sink
  flushes : Nat
  clock : Clock

namespace Machine

/-- Why a run stops. -/
inductive Stop
  | fault (fault : Fault)
  | outOfFuel
  deriving DecidableEq, Repr

/-- What changes a machine and yields something. -/
abbrev Run := EStateM Stop Machine

/-- How a statement ends: normally, or on the way out of a function with its value. -/
inductive Flow
  | normal
  | returned (value : Value)
  deriving DecidableEq

/-- A machine before its first program.  Its one frame binds the native functions. -/
def initial (sink : Sink) (clock : Clock) : Machine :=
  let (globals, heap) := Heap.empty.newFrame none (.single Native.clock.name (.native .clock))
  { heap, globals, environment := globals, distances := [], sink, flushes := 0, clock }

namespace Run

/-- Stops at a fault. -/
def fail {α : Type} (fault : Fault) : Run α :=
  throw (.fault fault)

/-- Stops because the fuel ran out. -/
def outOfFuel {α : Type} : Run α :=
  throw .outOfFuel

/-- The heap. -/
def getHeap : Run Heap :=
  return (← get).heap

/-- Makes an object. -/
def allocate {α : Type} (make : Heap → α × Heap) : Run α :=
  modifyGet fun m =>
    let (id, heap) := make m.heap
    (id, { m with heap })

/-- Changes the frames. -/
def modifyFrames (change : Frames → Frames) : Run Unit :=
  modify fun m => { m with heap := { m.heap with frames := change m.heap.frames } }

/-- Runs inside another frame and comes back to the current one. -/
def withFrame {α : Type} (frame : FrameId) (inner : Run α) : Run α := fun m =>
  let outer := m.environment
  match inner { m with environment := frame } with
  | .ok a m => .ok a { m with environment := outer }
  | .error stop m => .error stop { m with environment := outer }

/-- Makes another frame the current one, and yields the one that was. -/
def exchangeFrame (frame : FrameId) : Run FrameId :=
  modifyGet fun m => (m.environment, { m with environment := frame })

/-- Declares a name in the current frame. -/
def define (name : String) (value : Value) : Run Unit :=
  modify fun m =>
    { m with heap := { m.heap with frames := m.heap.frames.define m.environment name value } }

/-- The value of a name in the frame so many steps out of `frame`. -/
def getAt (frame : FrameId) (distance : Nat) (name : String) : Run Value := do
  match (← getHeap).frames.getAt frame distance name with
  | .ok value => return value
  | .error left => fail (.unbound name left)

/-- The value that a reference means: in the frame at its distance, or among the outermost
variables. -/
def lookUp (reference : Reference) : Run Value := do
  let m ← get
  match m.distances.get? reference.id with
  | some distance => getAt m.environment distance reference.name.text
  | none =>
    match m.heap.frames.get? m.globals reference.name.text with
    | some value => return value
    | none => fail (.undefinedVariable reference.name)

/-- The frame that binds the variable that a reference means. -/
def holder (reference : Reference) : Run FrameId := do
  let m ← get
  match m.distances.get? reference.id with
  | some distance =>
    match m.heap.frames.holderAt m.environment distance reference.name.text with
    | .ok frame => return frame
    | .error left => fail (.unbound reference.name.text left)
  | none =>
    match m.heap.frames.holder? m.globals reference.name.text with
    | some frame => return frame
    | none => fail (.undefinedVariable reference.name)

/-- Writes to the variable that a reference means. -/
def store (reference : Reference) (value : Value) : Run Unit := do
  let frame ← holder reference
  modifyFrames (·.define frame reference.name.text value)

/-- Writes a text and a newline to the sink. -/
def writeLine (text : String) : Run Unit := do
  let fits ← modifyGet fun m =>
    let (sink, fits) := m.sink.write (text ++ "\n").toUTF8
    (fits, { m with sink })
  unless fits do fail .sinkFull

/-- Flushes the sink. -/
def flush : Run Unit := do
  modify fun m => { m with flushes := m.flushes + 1 }
  if (← get).sink.flushFails then fail .sinkClosed

/-- Reads the clock. -/
def readClock : Run Float :=
  modifyGet fun m => (m.clock.now, { m with clock := m.clock.next })

/-- The value of a property of an instance: of a field what was written to it, of a method the
method bound to the instance. -/
def property (id : InstanceId) (name : Name) : Run Value := do
  match (← getHeap).property? id name.text with
  | some (.field value) => return value
  | some (.method method) => return .function (← allocate (·.bind method id))
  | none => fail (.undefinedProperty name)

/-- The class that the frame so many steps out binds to `super`. -/
def superclassAt (distance : Nat) : Run ClassId := do
  match ← getAt (← get).environment distance superName with
  | .cls id => return id
  | other => fail (.superNotClass other.typeName)

/-- The instance that the frame so many steps out binds to `this`. -/
def receiverAt (distance : Nat) : Run InstanceId := do
  match ← getAt (← get).environment distance thisName with
  | .inst id => return id
  | other => fail (.receiverNotInstance other.typeName)

/-- The method that `super` and a name mean: that of the class which the frame at the distance of
`super` binds, bound to the receiver that the frame one step before it binds. -/
def superMethod (keyword : Reference) (method : Name) : Run Value := do
  match (← get).distances.get? keyword.id with
  | none => fail (.unresolved keyword.name)
  | some distance => do
    let parent ← superclassAt distance
    match distance with
    | 0 => fail .superWithoutReceiver
    | inner + 1 => do
      let receiver ← receiverAt inner
      match (← getHeap).findMethod? parent method.text with
      | some found => return .function (← allocate (·.bind found receiver))
      | none => fail (.undefinedProperty method)

end Run

end Machine

end Lox
