import Lox.Machine.Evaluate
import Lox.Proofs.Heap
import Lox.Proofs.Restoring
import Lox.Proofs.Copies.Trees

/-!
# Copies of a machine

A copy of a machine has the same objects in the same frames, but the references in its code have
other identities, which another table of distances knows, and its output stands behind earlier output.
A run is `Copied` if on the copy it comes to the same, and leaves a copy of what it leaves: so are all
small steps, and rows of copied runs (`Copied.bind`).
-/

namespace Lox

/-! ## Earlier output -/

/-- A sink with room for as much as this one, behind earlier output. -/
def Sink.behind (earlier : ByteArray) (sink : Sink) : Sink :=
  { sink with
    written := earlier ++ sink.written
    capacity := sink.capacity.map (earlier.size + ·) }

/-- **What is written behind earlier output** is written as without it. -/
theorem Sink.write_behind (earlier : ByteArray) (sink : Sink) (bytes : ByteArray) :
    (sink.behind earlier).write bytes =
      ((sink.write bytes).1.behind earlier, (sink.write bytes).2) := by
  have hroom : (sink.behind earlier).room bytes.size = sink.room bytes.size := by
    unfold room behind
    cases sink.capacity with
    | none => rfl
    | some capacity =>
      simp only [Option.map_some, ByteArray.size_append]
      omega
  unfold write
  rw [hroom]
  simp only [behind, ByteArray.append_assoc]

/-! ## Heaps -/

def FunctionObject.renumbered (ids : NodeId → NodeId) (object : FunctionObject) : FunctionObject :=
  { object with declaration := object.declaration.renumbered ids }

/-- The heap with other identities in the code of its functions. -/
def Heap.renumbered (ids : NodeId → NodeId) (heap : Heap) : Heap :=
  { heap with functions := heap.functions.map (FunctionObject.renumbered ids) }

section
variable (ids : NodeId → NodeId) (heap : Heap)

@[simp] theorem Heap.renumbered_frames : (heap.renumbered ids).frames = heap.frames := rfl

theorem Heap.function_renumbered (id : FunctionId) :
    (heap.renumbered ids).function id = (heap.function id).renumbered ids := by
  unfold Heap.function Heap.renumbered
  rw [Array.getElem?_map]
  cases heap.functions[id.index]? <;> rfl

theorem Heap.newFunction_renumbered (object : FunctionObject) :
    (heap.renumbered ids).newFunction (object.renumbered ids) =
      ((heap.newFunction object).1, (heap.newFunction object).2.renumbered ids) := by
  unfold Heap.newFunction Heap.renumbered
  rw [Array.map_push, Array.size_map]

theorem Heap.bind_renumbered (method : FunctionId) (receiver : InstanceId) :
    (heap.renumbered ids).bind method receiver =
      ((heap.bind method receiver).1, (heap.bind method receiver).2.renumbered ids) := by
  unfold Heap.bind
  rw [function_renumbered]
  let enclosed := heap.newFrame (some (heap.function method).closure)
    (.single thisName (.inst receiver))
  let bound : FunctionObject := { heap.function method with closure := enclosed.1 }
  exact newFunction_renumbered ids enclosed.2 bound

theorem Heap.findMethod?_renumbered (id : ClassId) (name : String) :
    (heap.renumbered ids).findMethod? id name = heap.findMethod? id name :=
  have hclasses : (heap.renumbered ids).classes = heap.classes := rfl
  Heap.findMethod?_congr hclasses id name

theorem Heap.property?_renumbered (id : InstanceId) (name : String) :
    (heap.renumbered ids).property? id name = heap.property? id name :=
  have hclasses : (heap.renumbered ids).classes = heap.classes := rfl
  have hinstances : (heap.renumbered ids).instances = heap.instances := rfl
  Heap.property?_congr hclasses hinstances id name

theorem Heap.arity_renumbered (callee : Callable) :
    (heap.renumbered ids).arity callee = heap.arity callee := by
  have hfunction (id : FunctionId) :
      (heap.renumbered ids).functionArity id = heap.functionArity id := by
    rw [Heap.functionArity, function_renumbered]
    exact congrArg List.length (FunctionDecl.renumbered_params ids _)
  cases callee with
  | native f => rfl
  | function id => exact hfunction id
  | cls id =>
    simp only [Heap.arity, findMethod?_renumbered]
    cases heap.findMethod? id initializerName with
    | some init => exact hfunction init
    | none => rfl

theorem Heap.display_renumbered (value : Value) :
    (heap.renumbered ids).display value = heap.display value := by
  cases value with
  | bool value => cases value <;> rfl
  | function id =>
    simp only [Heap.display, Heap.functionText, function_renumbered]
    rw [FunctionObject.renumbered, FunctionDecl.renumbered_name]
  | _ => rfl

end

/-! ## Copies -/

/-- How a copy differs: its identities, its table of distances, which answers for them as that of the
machine does, its earlier output, and how often that was flushed. -/
structure Copy where
  ids : NodeId → NodeId
  table : Distances
  other : Distances
  agrees : ∀ id, other.get? (ids id) = table.get? id
  earlier : ByteArray
  flushes : Nat

namespace Machine

/-- A copy of a machine. -/
def copied (c : Copy) (m : Machine) : Machine :=
  { m with
    heap := m.heap.renumbered c.ids
    distances := c.other
    sink := m.sink.behind c.earlier
    flushes := c.flushes + m.flushes }

/-- **Whether a run comes to the same on a copy**, where `y` is run for it, and leaves a copy of what
it leaves. -/
def Copied {α : Type} (c : Copy) (m : Machine) (x y : Run α) : Prop :=
  ∃ m' : Machine, m'.distances = c.table ∧
    ((∃ a, x m = .ok a m' ∧ y (m.copied c) = .ok a (m'.copied c)) ∨
      ∃ stop, x m = .error stop m' ∧ y (m.copied c) = .error stop (m'.copied c))

section
variable (c : Copy) (m : Machine)

@[simp] theorem copied_heap : (m.copied c).heap = m.heap.renumbered c.ids := rfl

@[simp] theorem copied_environment : (m.copied c).environment = m.environment := rfl

@[simp] theorem copied_globals : (m.copied c).globals = m.globals := rfl

theorem get?_copied {c : Copy} {m : Machine} (h : m.distances = c.table) (r : Reference) :
    (m.copied c).distances.get? (r.renumbered c.ids).id = m.distances.get? r.id := by
  rw [h]
  exact c.agrees r.id

end

namespace Copied

variable {α β : Type} {c : Copy} {m m' : Machine} {x y : Run α} {f g : α → Run β}

/-! ## Rows of runs -/

theorem step {a : α} (hx : x m = .ok a m') (hy : y (m.copied c) = .ok a (m'.copied c))
    (h : m'.distances = c.table) : Copied c m x y :=
  ⟨m', h, .inl ⟨a, hx, hy⟩⟩

theorem pure (h : m.distances = c.table) (a : α) : Copied c m (Pure.pure a) (Pure.pure a) :=
  step rfl rfl h

theorem fail (h : m.distances = c.table) (fault : Fault) :
    Copied c m (Run.fail (α := α) fault) (Run.fail fault) :=
  ⟨m, h, .inr ⟨.fault fault, rfl, rfl⟩⟩

theorem outOfFuel (h : m.distances = c.table) :
    Copied c m (Run.outOfFuel (α := α)) Run.outOfFuel :=
  ⟨m, h, .inr ⟨.outOfFuel, rfl, rfl⟩⟩

/-- **Rows of copied runs are copied.** -/
theorem bind (h : Copied c m x y)
    (hf : ∀ a m', m'.distances = c.table → Copied c m' (f a) (g a)) :
    Copied c m (x >>= f) (y >>= g) := by
  obtain ⟨m₁, h₁, ⟨a, hx, hy⟩ | ⟨stop, hx, hy⟩⟩ := h
  · obtain ⟨m₂, h₂, hends⟩ := hf a m₁ h₁
    refine ⟨m₂, h₂, ?_⟩
    rw [Steps.bind_of_ok hx, Steps.bind_of_ok hy]
    exact hends
  · refine ⟨m₁, h₁, .inr ⟨stop, ?_, ?_⟩⟩
    · rw [Steps.bind_of_error hx]
    · rw [Steps.bind_of_error hy]

theorem get {f g : Machine → Run β} (h : Copied c m (f m) (g (m.copied c))) :
    Copied c m (MonadState.get >>= f) (MonadState.get >>= g) := h

theorem getHeap {f g : Heap → Run β} (h : Copied c m (f m.heap) (g (m.heap.renumbered c.ids))) :
    Copied c m (Run.getHeap >>= f) (Run.getHeap >>= g) := h

theorem withFrame {frame : FrameId} (h : Copied c { m with environment := frame } x y) :
    Copied c m (Run.withFrame frame x) (Run.withFrame frame y) := by
  obtain ⟨m₁, h₁, hends⟩ := h
  refine ⟨{ m₁ with environment := m.environment }, h₁, ?_⟩
  rcases hends with ⟨a, hx, hy⟩ | ⟨stop, hx, hy⟩
  · refine .inl ⟨a, ?_, ?_⟩
    · simp only [Run.withFrame, hx]
    · have hy : y { m.copied c with environment := frame } = _ := hy
      simp only [Run.withFrame, hy]
      rfl
  · refine .inr ⟨stop, ?_, ?_⟩
    · simp only [Run.withFrame, hx]
    · have hy : y { m.copied c with environment := frame } = _ := hy
      simp only [Run.withFrame, hy]
      rfl

/-! ## Frames and variables -/

theorem define (h : m.distances = c.table) (name : String) (value : Value) :
    Copied c m (Run.define name value) (Run.define name value) :=
  step rfl rfl h

theorem modifyFrames (h : m.distances = c.table) (change : Frames → Frames) :
    Copied c m (Run.modifyFrames change) (Run.modifyFrames change) :=
  step rfl rfl h

theorem newFrame (h : m.distances = c.table) (enclosing : Option FrameId)
    (bindings : Table Value) : Copied c m (Run.allocate (·.newFrame enclosing bindings))
      (Run.allocate (·.newFrame enclosing bindings)) :=
  step rfl rfl h

theorem getAt (h : m.distances = c.table) (frame : FrameId) (distance : Nat) (name : String) :
    Copied c m (Run.getAt frame distance name) (Run.getAt frame distance name) := by
  unfold Run.getAt
  refine .getHeap ?_
  have hframes : (m.heap.renumbered c.ids).frames = m.heap.frames := rfl
  rw [hframes]
  cases m.heap.frames.getAt frame distance name with
  | ok value => exact .pure h value
  | error left => exact .fail h (.unbound name left)

/-- **A variable is looked up** where it was, by the other table. -/
theorem lookUp (h : m.distances = c.table) (r : Reference) :
    Copied c m (Run.lookUp r) (Run.lookUp (r.renumbered c.ids)) := by
  unfold Run.lookUp
  refine .get ?_
  simp only [get?_copied h, copied_heap, copied_environment, copied_globals,
    Heap.renumbered_frames, Reference.renumbered_name]
  cases m.distances.get? r.id with
  | some distance => exact .getAt h m.environment distance r.name.text
  | none =>
    dsimp only
    cases m.heap.frames.get? m.globals r.name.text with
    | some value => exact .pure h value
    | none => exact .fail h (.undefinedVariable r.name)

theorem holder (h : m.distances = c.table) (r : Reference) :
    Copied c m (Run.holder r) (Run.holder (r.renumbered c.ids)) := by
  unfold Run.holder
  refine .get ?_
  simp only [get?_copied h, copied_heap, copied_environment, copied_globals,
    Heap.renumbered_frames, Reference.renumbered_name]
  cases m.distances.get? r.id with
  | some distance =>
    dsimp only
    cases m.heap.frames.holderAt m.environment distance r.name.text with
    | ok frame => exact .pure h frame
    | error left => exact .fail h (.unbound r.name.text left)
  | none =>
    dsimp only
    cases m.heap.frames.holder? m.globals r.name.text with
    | some frame => exact .pure h frame
    | none => exact .fail h (.undefinedVariable r.name)

theorem store (h : m.distances = c.table) (r : Reference) (value : Value) :
    Copied c m (Run.store r value) (Run.store (r.renumbered c.ids) value) :=
  .bind (.holder h r) fun _ _ h' => .modifyFrames h' _

/-! ## Output -/

theorem writeLine (h : m.distances = c.table) (text : String) :
    Copied c m (Run.writeLine text) (Run.writeLine text) := by
  have hwritten : Copied c m
      (modifyGet fun m =>
        ((m.sink.write (text ++ "\n").toUTF8).2,
          { m with sink := (m.sink.write (text ++ "\n").toUTF8).1 }))
      (modifyGet fun m =>
        ((m.sink.write (text ++ "\n").toUTF8).2,
          { m with sink := (m.sink.write (text ++ "\n").toUTF8).1 })) := by
    refine .step rfl ?_ h
    have hwrite := Sink.write_behind c.earlier m.sink (text ++ "\n").toUTF8
    show EStateM.Result.ok ((m.sink.behind c.earlier).write (text ++ "\n").toUTF8).2
      { m.copied c with sink := ((m.sink.behind c.earlier).write (text ++ "\n").toUTF8).1 } = _
    rw [hwrite]
    rfl
  refine .bind hwritten fun fits m' h' => ?_
  cases fits with
  | true => exact .pure h' ()
  | false => exact .fail h' .sinkFull

theorem flush (h : m.distances = c.table) : Copied c m Run.flush Run.flush := by
  have hcounted : Copied c m (modify fun m => { m with flushes := m.flushes + 1 })
      (modify fun m => { m with flushes := m.flushes + 1 }) := .step rfl rfl h
  refine .bind hcounted fun _ m' h' => .get ?_
  have hsame : (m'.copied c).sink.flushFails = m'.sink.flushFails := rfl
  rw [hsame]
  cases m'.sink.flushFails with
  | true => exact .fail h' .sinkClosed
  | false => exact .pure h' ()

theorem readClock (h : m.distances = c.table) : Copied c m Run.readClock Run.readClock :=
  .step rfl rfl h

/-! ## Functions and properties -/

/-- **A function that is made** is made with the other identities. -/
theorem newFunction (h : m.distances = c.table) (object : FunctionObject) :
    Copied c m (Run.allocate (·.newFunction object))
      (Run.allocate (·.newFunction (object.renumbered c.ids))) := by
  refine .step rfl ?_ h
  show EStateM.Result.ok ((m.heap.renumbered c.ids).newFunction (object.renumbered c.ids)).1
    { m.copied c with
      heap := ((m.heap.renumbered c.ids).newFunction (object.renumbered c.ids)).2 } = _
  rw [Heap.newFunction_renumbered]
  rfl

theorem bindMethod (h : m.distances = c.table) (method : FunctionId) (receiver : InstanceId) :
    Copied c m (Run.allocate (·.bind method receiver)) (Run.allocate (·.bind method receiver)) := by
  refine .step rfl ?_ h
  show EStateM.Result.ok ((m.heap.renumbered c.ids).bind method receiver).1
    { m.copied c with heap := ((m.heap.renumbered c.ids).bind method receiver).2 } = _
  rw [Heap.bind_renumbered]
  rfl

theorem property (h : m.distances = c.table) (id : InstanceId) (name : Name) :
    Copied c m (Run.property id name) (Run.property id name) := by
  unfold Run.property
  refine .getHeap ?_
  simp only [Heap.property?_renumbered]
  cases m.heap.property? id name.text with
  | none => exact .fail h (.undefinedProperty name)
  | some found =>
    cases found with
    | field value => exact .pure h value
    | method method =>
      exact .bind (.bindMethod h method id) fun bound _ h' => .pure h' (Value.function bound)

theorem superclassAt (h : m.distances = c.table) (distance : Nat) :
    Copied c m (Run.superclassAt distance) (Run.superclassAt distance) := by
  refine .get (.bind (.getAt h m.environment distance superName) fun value _ h' => ?_)
  cases value with
  | cls id => exact .pure h' id
  | _ => exact .fail h' (.superNotClass _)

theorem receiverAt (h : m.distances = c.table) (distance : Nat) :
    Copied c m (Run.receiverAt distance) (Run.receiverAt distance) := by
  refine .get (.bind (.getAt h m.environment distance thisName) fun value _ h' => ?_)
  cases value with
  | inst id => exact .pure h' id
  | _ => exact .fail h' (.receiverNotInstance _)

theorem superMethod (h : m.distances = c.table) (keyword : Reference) (method : Name) :
    Copied c m (Run.superMethod keyword method)
      (Run.superMethod (keyword.renumbered c.ids) method) := by
  unfold Run.superMethod
  refine .get ?_
  simp only [get?_copied h, Reference.renumbered_name]
  cases m.distances.get? keyword.id with
  | none => exact .fail h (.unresolved keyword.name)
  | some distance =>
    refine .bind (.superclassAt h distance) fun parent m₁ h₁ => ?_
    cases distance with
    | zero => exact .fail h₁ .superWithoutReceiver
    | succ inner =>
      refine .bind (.receiverAt h₁ inner) fun receiver m₂ h₂ => .getHeap ?_
      simp only [Heap.findMethod?_renumbered]
      cases m₂.heap.findMethod? parent method.text with
      | none => exact .fail h₂ (.undefinedProperty method)
      | some found =>
        exact .bind (.bindMethod h₂ found receiver) fun bound _ h₃ => .pure h₃ (Value.function bound)

end Copied

end Machine

end Lox
