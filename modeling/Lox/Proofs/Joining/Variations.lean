import Lox.Machine.Basic
import Lox.Proofs.Heap
import Lox.Proofs.Joining.Moved
import Lox.Proofs.Joining.Origins

/-!
# Machines that vary

A machine runs code of two origins: what its heap holds already, and a new text.  The new text may
stand on any lines, the machine may know more distances than the code asks for, and its sink may have
been flushed more often.  A `Variation` chooses these; `Machine.moved` is the machine under a
variation.  Its code differs from that of the machine in the lines of those functions alone that the
marks say are new, one mark for each function.
-/

namespace Lox.Joining

open Machine

/-! ## Variations -/

/-- A table of distances, what code may mention, old code (`false`) and new code (`true`), and
whether the sink refuses to be flushed. -/
structure Setting where
  distances : Distances
  origin : Bool → Origin
  flushFails : Bool

/-- How many lines new code stands later, a table that agrees with the setting's on all references of
the code, and how many more flushes there were. -/
structure Variation (σ : Setting) where
  lines : Nat
  table : Distances
  agrees : ∀ (new : Bool) (id : NodeId), (σ.origin new).id id →
    table.get? id = σ.distances.get? id
  flushes : Nat

variable {σ : Setting}

/-- How far code moves under a variation: old code does not. -/
def Variation.shift (v : Variation σ) (new : Bool) : Shift :=
  .downIf new v.lines

end Lox.Joining

namespace Lox

open Joining

def FunctionObject.moved (shift : Shift) (object : FunctionObject) : FunctionObject :=
  { object with declaration := object.declaration.moved shift }

/-- The heap with the functions that are marked as new on later lines. -/
def Heap.moved (marks : List Bool) (lines : Nat) (heap : Heap) : Heap :=
  { heap with
    functions := heap.functions.mapIdx fun i object =>
      object.moved (.downIf (marks.getD i false) lines) }

@[simp] theorem Heap.moved_frames (marks : List Bool) (lines : Nat) (heap : Heap) :
    (heap.moved marks lines).frames = heap.frames := rfl

namespace Machine

/-- A machine under a variation. -/
def moved {σ : Setting} (v : Variation σ) (marks : List Bool) (m : Machine) : Machine :=
  { m with
    heap := m.heap.moved marks v.lines
    distances := v.table
    flushes := v.flushes + m.flushes }

section
variable {σ : Setting} (v : Variation σ) (marks : List Bool) (m : Machine)

@[simp] theorem moved_frames : (m.moved v marks).heap.frames = m.heap.frames := rfl

@[simp] theorem moved_environment : (m.moved v marks).environment = m.environment := rfl

@[simp] theorem moved_globals : (m.moved v marks).globals = m.globals := rfl

end

/-- The line that a fault is reported with. -/
def Fault.line? : Fault → Option Nat
  | undefinedVariable name | undefinedProperty name | unresolved name => some name.line
  | superclassNotClass line | operandNotNumber line | operandsNotNumbers line
  | operandsNotAddable line | notCallable line | argumentCount line _ _ | noProperties line
  | noFields line => some line
  | unbound _ _ | superNotClass _ | superWithoutReceiver | receiverNotInstance _ | sinkFull
  | sinkClosed => none

/-- A fault that is reported with a later line. -/
def Fault.moved (shift : Shift) : Fault → Fault
  | undefinedVariable name => undefinedVariable (name.moved shift)
  | undefinedProperty name => undefinedProperty (name.moved shift)
  | unresolved name => unresolved (name.moved shift)
  | superclassNotClass line => superclassNotClass (line + shift.lines)
  | operandNotNumber line => operandNotNumber (line + shift.lines)
  | operandsNotNumbers line => operandsNotNumbers (line + shift.lines)
  | operandsNotAddable line => operandsNotAddable (line + shift.lines)
  | notCallable line => notCallable (line + shift.lines)
  | argumentCount line expected given => argumentCount (line + shift.lines) expected given
  | noProperties line => noProperties (line + shift.lines)
  | noFields line => noFields (line + shift.lines)
  | unbound name left => unbound name left
  | superNotClass typeName => superNotClass typeName
  | superWithoutReceiver => superWithoutReceiver
  | receiverNotInstance typeName => receiverNotInstance typeName
  | sinkFull => sinkFull
  | sinkClosed => sinkClosed

theorem Fault.moved_zero (fault : Fault) : fault.moved .zero = fault := by
  cases fault <;> rfl

/-- A stop that is reported with a later line. -/
def Stop.moved (shift : Shift) : Stop → Stop
  | fault f => fault (f.moved shift)
  | outOfFuel => outOfFuel

/-- The line that a stop is reported with. -/
def Stop.line? : Stop → Option Nat
  | fault f => f.line?
  | outOfFuel => none

end Machine

namespace Joining

open Machine

/-! ## What a variation leaves as it is -/

/-- Whether a heap holds only functions of the setting's origins, as the marks say, and its classes
have methods that are there. -/
structure Held (σ : Setting) (heap : Heap) (marks : List Bool) : Prop where
  length : marks.length = heap.functions.size
  known : ∀ (i : Nat) (f : FunctionObject), heap.functions[i]? = some f →
    f.declaration.From (σ.origin (marks.getD i false))
  methods : ∀ (i : Nat) (c : ClassObject), heap.classes[i]? = some c →
    ∀ (name : String) (id : FunctionId), c.methods.get? name = some id →
      id.index < heap.functions.size

variable {heap : Heap} {marks : List Bool}

theorem getElem?_moved (lines : Nat) (i : Nat) : (heap.moved marks lines).functions[i]? =
    (heap.functions[i]?).map (FunctionObject.moved (.downIf (marks.getD i false) lines)) := by
  simp only [Heap.moved, Array.getElem?_mapIdx]

theorem Held.function_moved (h : Held σ heap marks) (lines : Nat) (id : FunctionId) :
    (heap.moved marks lines).function id =
      (heap.function id).moved (.downIf (marks.getD id.index false) lines) := by
  unfold Heap.function
  rw [getElem?_moved]
  cases hid : heap.functions[id.index]? with
  | some f => rfl
  | none =>
    have hsize := Array.getElem?_eq_none_iff.mp hid
    have hmark : marks.getD id.index false = false := by
      rw [List.getD_eq_getElem?_getD, List.getElem?_eq_none (by rw [h.length]; exact hsize)]
      rfl
    rw [hmark]
    rfl

theorem Held.function_from (h : Held σ heap marks) {id : FunctionId}
    (hid : id.index < heap.functions.size) :
    (heap.function id).declaration.From (σ.origin (marks.getD id.index false)) := by
  have hget := Array.getElem?_eq_getElem hid
  have hfunction : heap.function id = heap.functions[id.index] := by
    unfold Heap.function
    rw [hget]
    rfl
  rw [hfunction]
  exact h.known id.index _ hget

/-- Also of a function that is not there the body is known: it does nothing. -/
theorem Held.body_from (h : Held σ heap marks) (id : FunctionId) :
    Stmt.AllFrom (σ.origin (marks.getD id.index false)) (heap.function id).declaration.body := by
  by_cases hid : id.index < heap.functions.size
  · exact (h.function_from hid).body
  · unfold Heap.function
    rw [Array.getElem?_eq_none (Nat.le_of_not_lt hid)]
    trivial

theorem Held.lt_of_findMethod? (h : Held σ heap marks) {id : ClassId} {name : String}
    {method : FunctionId} (hfound : heap.findMethod? id name = some method) :
    method.index < heap.functions.size := by
  obtain ⟨i, c, hc, hmethod⟩ := Heap.exists_of_findMethod? hfound
  exact h.methods i c hc name method hmethod

theorem findMethod?_moved (lines : Nat) (id : ClassId) (name : String) :
    (heap.moved marks lines).findMethod? id name = heap.findMethod? id name := by
  have hclasses : (heap.moved marks lines).classes = heap.classes := rfl
  exact Heap.findMethod?_congr hclasses id name

theorem property?_moved (lines : Nat) (id : InstanceId) (name : String) :
    (heap.moved marks lines).property? id name = heap.property? id name := by
  have hclasses : (heap.moved marks lines).classes = heap.classes := rfl
  have hinstances : (heap.moved marks lines).instances = heap.instances := rfl
  exact Heap.property?_congr hclasses hinstances id name

theorem Held.functionArity_moved (h : Held σ heap marks) (lines : Nat) (id : FunctionId) :
    (heap.moved marks lines).functionArity id = heap.functionArity id := by
  unfold Heap.functionArity
  rw [h.function_moved, FunctionObject.moved, FunctionDecl.moved_params, List.length_map]

theorem Held.arity_moved (h : Held σ heap marks) (lines : Nat) (callee : Callable) :
    (heap.moved marks lines).arity callee = heap.arity callee := by
  cases callee with
  | native f => rfl
  | function id => exact h.functionArity_moved lines id
  | cls id =>
    simp only [Heap.arity, findMethod?_moved]
    cases heap.findMethod? id initializerName with
    | some init => exact h.functionArity_moved lines init
    | none => rfl

theorem Held.display_moved (h : Held σ heap marks) (lines : Nat) (value : Value) :
    (heap.moved marks lines).display value = heap.display value := by
  cases value with
  | bool value => cases value <;> rfl
  | function id =>
    simp only [Heap.display, Heap.functionText, h.function_moved, FunctionObject.moved,
      FunctionDecl.moved_name, Name.moved_text]
  | _ => rfl

/-! ## New functions -/

theorem getD_append_lt {marks more : List Bool} {i : Nat} (h : i < marks.length) :
    (marks ++ more).getD i false = marks.getD i false := by
  rw [List.getD_eq_getElem?_getD, List.getElem?_append_left h, ← List.getD_eq_getElem?_getD]

theorem getD_append_length (marks : List Bool) (mark : Bool) :
    (marks ++ [mark]).getD marks.length false = mark := by
  rw [List.getD_eq_getElem?_getD, List.getElem?_append_right (Nat.le_refl _), Nat.sub_self]
  rfl

/-- **A new function** of a known origin gets a mark of its own. -/
theorem Held.newFunction (h : Held σ heap marks) {object : FunctionObject} {new : Bool}
    (hobject : object.declaration.From (σ.origin new)) :
    Held σ (heap.newFunction object).2 (marks ++ [new]) := by
  have hsize : (heap.functions.push object).size = heap.functions.size + 1 := Array.size_push _
  refine ⟨?_, fun i f hf => ?_, fun i c hc name id hid => ?_⟩
  · show (marks ++ [new]).length = (heap.functions.push object).size
    rw [List.length_append, hsize, h.length]
    rfl
  · have hf : (heap.functions.push object)[i]? = some f := hf
    rw [Array.getElem?_push] at hf
    split at hf
    · next hi =>
      cases hf
      rw [hi, ← h.length, getD_append_length]
      exact hobject
    · obtain ⟨hlt, -⟩ := Array.getElem?_eq_some_iff.mp hf
      rw [getD_append_lt (by rw [h.length]; exact hlt)]
      exact h.known i f hf
  · have hlt := h.methods i c hc name id hid
    show id.index < (heap.functions.push object).size
    omega

theorem Held.newFunction_moved (h : Held σ heap marks) (lines : Nat) (object : FunctionObject)
    (new : Bool) : (heap.moved marks lines).newFunction (object.moved (.downIf new lines)) =
      ((heap.newFunction object).1, (heap.newFunction object).2.moved (marks ++ [new]) lines) := by
  have hfunctions : ((heap.moved marks lines).functions.push (object.moved (.downIf new lines))) =
      (heap.functions.push object).mapIdx fun i f =>
        f.moved (.downIf ((marks ++ [new]).getD i false) lines) := by
    rw [Array.mapIdx_push, ← h.length, getD_append_length]
    congr 1
    refine Array.mapIdx_eq_mapIdx_iff.mpr fun i hi => ?_
    rw [getD_append_lt (by rw [h.length]; exact hi)]
  have hsize : (heap.moved marks lines).functions.size = heap.functions.size := Array.size_mapIdx
  unfold Heap.newFunction
  rw [hfunctions, hsize]
  rfl

end Joining

end Lox
