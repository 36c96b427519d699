import Lox.Store.Frames
import Lox.Number.Text

/-!
# The heap

Everything that outlives the statement that made it: frames, functions, classes and instances.
Identities are given out in order and never again, so the heap only grows.  A method is found by
`Heap.findMethod?`, in the class itself or else in the nearest class that it inherits from.
-/

namespace Lox

/-- A function with the frame in which it was declared. -/
structure FunctionObject where
  declaration : FunctionDecl
  closure : FrameId
  isInitializer : Bool
  deriving Inhabited

/-- A class: its name, what it inherits from, and its own methods. -/
structure ClassObject where
  name : String
  superclass : Option ClassId
  methods : Table FunctionId

/-- An instance: its class, and the fields written so far. -/
structure InstanceObject where
  classId : ClassId
  fields : Table Value

/-- What a name can mean on an instance. -/
inductive Property
  | field (value : Value)
  | method (id : FunctionId)
  deriving DecidableEq

instance : Inhabited ClassObject := ⟨⟨"", none, .empty⟩⟩

instance : Inhabited InstanceObject := ⟨⟨default, .empty⟩⟩

/-- All objects. -/
structure Heap where
  frames : Frames
  functions : Array FunctionObject
  classes : Array ClassObject
  instances : Array InstanceObject

namespace Heap

/-- No objects. -/
def empty : Heap := ⟨.empty, #[], #[], #[]⟩

/-- The function with this identity. -/
def function (heap : Heap) (id : FunctionId) : FunctionObject :=
  heap.functions[id.index]?.getD default

/-- The class with this identity. -/
def classObject (heap : Heap) (id : ClassId) : ClassObject :=
  heap.classes[id.index]?.getD default

/-- The instance with this identity. -/
def instanceObject (heap : Heap) (id : InstanceId) : InstanceObject :=
  heap.instances[id.index]?.getD default

/-- One more frame. -/
def newFrame (heap : Heap) (enclosing : Option FrameId) (bindings : Table Value) :
    FrameId × Heap :=
  let (id, frames) := heap.frames.push ⟨bindings, enclosing⟩
  (id, { heap with frames })

/-- One more function. -/
def newFunction (heap : Heap) (object : FunctionObject) : FunctionId × Heap :=
  (⟨heap.functions.size⟩, { heap with functions := heap.functions.push object })

/-- One more class. -/
def newClass (heap : Heap) (object : ClassObject) : ClassId × Heap :=
  (⟨heap.classes.size⟩, { heap with classes := heap.classes.push object })

/-- One more instance, without fields. -/
def newInstance (heap : Heap) (classId : ClassId) : InstanceId × Heap :=
  (⟨heap.instances.size⟩, { heap with instances := heap.instances.push ⟨classId, .empty⟩ })

/-- Writes to a field, whether or not the instance has it already. -/
def setField (heap : Heap) (id : InstanceId) (name : String) (value : Value) : Heap :=
  { heap with
    instances := heap.instances.modify id.index fun object =>
      { object with fields := object.fields.put name value } }

/-- A class and the classes that it inherits from, the nearest first.  A class is always younger
than the one it inherits from, so the line comes to an end. -/
def lineage (heap : Heap) (id : ClassId) : List ClassId :=
  id :: match (heap.classObject id).superclass with
    | some parent => if parent.index < id.index then lineage heap parent else []
    | none => []
termination_by id.index

/-- The method that a class has under a name, its own or an inherited one. -/
def findMethod? (heap : Heap) (id : ClassId) (name : String) : Option FunctionId :=
  (heap.lineage id).findSome? fun owner => (heap.classObject owner).methods.get? name

/-- How many arguments a function takes. -/
def functionArity (heap : Heap) (id : FunctionId) : Nat :=
  (heap.function id).declaration.params.length

/-- How many arguments a call takes; for a class, as many as its initializer. -/
def arity (heap : Heap) : Callable → Nat
  | .native f => f.arity
  | .function id => heap.functionArity id
  | .cls id =>
    match heap.findMethod? id initializerName with
    | some init => heap.functionArity init
    | none => 0

/-- A method bound to an instance: the same function, with one more frame around its body that binds
the receiver. -/
def bind (heap : Heap) (method : FunctionId) (receiver : InstanceId) : FunctionId × Heap :=
  let object := heap.function method
  let (frame, heap) := heap.newFrame (some object.closure) (.single thisName (.inst receiver))
  heap.newFunction { object with closure := frame }

/-- What a name means on an instance: a field, or else a method. -/
def property? (heap : Heap) (id : InstanceId) (name : String) : Option Property :=
  match (heap.instanceObject id).fields.get? name with
  | some value => some (.field value)
  | none => (heap.findMethod? (heap.instanceObject id).classId name).map .method

/-! ## Values as text -/

/-- The name of a function in print. -/
def functionText (heap : Heap) (id : FunctionId) : String :=
  "<fn " ++ (heap.function id).declaration.name.text ++ ">"

/-- What a print statement writes for a value. -/
def display (heap : Heap) : Value → String
  | .nil => "nil"
  | .bool true => "true"
  | .bool false => "false"
  | .number value => String.ofList (Number.printed value)
  | .string value => value
  | .native _ => "<native fn>"
  | .function id => heap.functionText id
  | .cls id => (heap.classObject id).name
  | .inst id => (heap.classObject (heap.instanceObject id).classId).name ++ " instance"

/-- A value in a listing: strings are quoted. -/
def debug (heap : Heap) : Value → String
  | .string value => String.ofList (Quoted.debug value.toList)
  | value => heap.display value

end Heap

end Lox
