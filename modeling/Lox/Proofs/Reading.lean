import Lox.Machine.Basic
import Lox.Proofs.Frames
import Lox.Proofs.Steps

/-!
# What is read at a distance

If the frame so many steps out binds a name, then this is what a reference with the distance means.
For `super` two frames are read: that of the superclass, and that of the receiver one step before it.
-/

namespace Lox.Machine.Run

/-- The method that a class has or inherits, bound to an instance. -/
def boundMethod (receiver : InstanceId) (parent : ClassId) (method : Name) : Run Value := do
  match (← getHeap).findMethod? parent method.text with
  | some found => return .function (← allocate (·.bind found receiver))
  | none => fail (.undefinedProperty method)

variable {m : Machine} {g : FrameId} {d : Nat}

theorem get_eq (m : Machine) : (get : Run Machine) m = .ok m m := rfl

theorem getAt_eq_ok {frame : FrameId} {x : String} {v : Value}
    (hout : m.heap.frames.out frame d = .ok g) (hv : m.heap.frames.binding? g x = some v) :
    getAt frame d x m = .ok v m := by
  have hget : m.heap.frames.getAt frame d x = .ok v := Frames.getAt_eq_ok hout hv
  have hheap : getHeap m = .ok m.heap m := rfl
  rw [getAt, Steps.bind_of_ok hheap, hget]
  rfl

theorem lookUp_eq_ok {reference : Reference} {v : Value}
    (hd : m.distances.get? reference.id = some d)
    (hout : m.heap.frames.out m.environment d = .ok g)
    (hv : m.heap.frames.binding? g reference.name.text = some v) : lookUp reference m = .ok v m := by
  rw [lookUp, Steps.bind_of_ok (get_eq m), hd]
  exact getAt_eq_ok hout hv

theorem superclassAt_eq_ok {parent : ClassId} (hout : m.heap.frames.out m.environment d = .ok g)
    (hv : m.heap.frames.binding? g superName = some (.cls parent)) :
    superclassAt d m = .ok parent m := by
  rw [superclassAt, Steps.bind_of_ok (get_eq m), Steps.bind_of_ok (getAt_eq_ok hout hv)]
  rfl

theorem receiverAt_eq_ok {receiver : InstanceId} (hout : m.heap.frames.out m.environment d = .ok g)
    (hv : m.heap.frames.binding? g thisName = some (.inst receiver)) :
    receiverAt d m = .ok receiver m := by
  rw [receiverAt, Steps.bind_of_ok (get_eq m), Steps.bind_of_ok (getAt_eq_ok hout hv)]
  rfl

/-- What `super` comes to if the frames at its distance bind a class and an instance. -/
theorem superMethod_eq {keyword : Reference} {receiver : InstanceId} {parent : ClassId}
    (method : Name) (hd : m.distances.get? keyword.id = some (d + 1))
    (hparent : superclassAt (d + 1) m = .ok parent m) (hreceiver : receiverAt d m = .ok receiver m) :
    superMethod keyword method m = boundMethod receiver parent method m := by
  rw [superMethod, Steps.bind_of_ok (get_eq m), hd]
  exact (Steps.bind_of_ok hparent).trans (Steps.bind_of_ok hreceiver)

end Lox.Machine.Run
