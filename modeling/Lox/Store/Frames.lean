import Lox.Table
import Lox.Store.Value
import Lox.Text.Quoted

/-!
# Frames

A frame binds names to values and may be enclosed by an older frame.  Frames are shared: whoever
knows a frame sees what is written to it.  A name is found in one of two ways:

* `Frames.get?` takes the nearest frame on the way out that binds the name;
* `Frames.getAt` takes the frame so many steps out, and no other.

`Frames.assign?` and `Frames.assignAt` write to the binding that these read, and never make a new
one; only `Frames.define` does.
-/

namespace Lox

/-- Bindings of names, and the frame around them. -/
structure Frame where
  bindings : Table Value
  enclosing : Option FrameId

/-- All frames that were ever made, each under its identity. -/
structure Frames where
  all : Array Frame

namespace Frames

/-- No frames. -/
def empty : Frames := ⟨#[]⟩

/-- The frame with this identity. -/
def frame? (frames : Frames) (id : FrameId) : Option Frame :=
  frames.all[id.index]?

/-- What a frame binds to a name. -/
def binding? (frames : Frames) (id : FrameId) (name : String) : Option Value :=
  (frames.frame? id).bind fun frame => frame.bindings.get? name

/-- The frame around a frame. -/
def enclosing? (frames : Frames) (id : FrameId) : Option FrameId :=
  (frames.frame? id).bind Frame.enclosing

/-- One more frame. -/
def push (frames : Frames) (frame : Frame) : FrameId × Frames :=
  (⟨frames.all.size⟩, ⟨frames.all.push frame⟩)

/-- Binds a name in this frame, whether or not the frame binds it already. -/
def define (frames : Frames) (id : FrameId) (name : String) (value : Value) : Frames :=
  ⟨frames.all.modify id.index fun frame => { frame with bindings := frame.bindings.put name value }⟩

/-- A frame and the frames around it, outward.  A frame is always younger than the one around it, so
the way out comes to an end. -/
def path (frames : Frames) (id : FrameId) : List FrameId :=
  id :: match frames.enclosing? id with
    | some outer => if outer.index < id.index then path frames outer else []
    | none => []
termination_by id.index

/-- The nearest frame on the way out that binds a name. -/
def holder? (frames : Frames) (id : FrameId) (name : String) : Option FrameId :=
  (frames.path id).find? fun frame => (frames.binding? frame name).isSome

/-- The value of a name in the nearest frame that binds it. -/
def get? (frames : Frames) (id : FrameId) (name : String) : Option Value :=
  (frames.holder? id name).bind fun frame => frames.binding? frame name

/-- Writes to a name in the nearest frame that binds it. -/
def assign? (frames : Frames) (id : FrameId) (name : String) (value : Value) : Option Frames :=
  (frames.holder? id name).map fun frame => frames.define frame name value

/-- The frame so many steps out, or how many steps are left where the way ends. -/
def out (frames : Frames) (id : FrameId) : Nat → Except Nat FrameId
  | 0 => .ok id
  | distance + 1 =>
    match frames.enclosing? id with
    | some outer => frames.out outer distance
    | none => .error (distance + 1)

/-- The frame so many steps out if it binds a name, or how many steps are left where the search
ends. -/
def holderAt (frames : Frames) (id : FrameId) (distance : Nat) (name : String) :
    Except Nat FrameId :=
  match frames.out id distance with
  | .ok frame => if (frames.binding? frame name).isSome then .ok frame else .error 0
  | .error left => .error left

/-- The value of a name in the frame so many steps out, which must bind it. -/
def getAt (frames : Frames) (id : FrameId) (distance : Nat) (name : String) : Except Nat Value :=
  match frames.out id distance with
  | .ok frame =>
    match frames.binding? frame name with
    | some value => .ok value
    | none => .error 0
  | .error left => .error left

/-- Writes to a name in the frame so many steps out, which must bind it. -/
def assignAt (frames : Frames) (id : FrameId) (distance : Nat) (name : String) (value : Value) :
    Except Nat Frames :=
  match frames.holderAt id distance name with
  | .ok frame => .ok (frames.define frame name value)
  | .error left => .error left

/-- A listing of a frame: its names in order, and whether it is enclosed. -/
def listing (frames : Frames) (id : FrameId) : String :=
  let names := match frames.frame? id with
    | some frame => frame.bindings.names.mergeSort
    | none => []
  let quoted := names.map fun name => String.ofList (Quoted.debug name.toList)
  "Environment \x7b names: [" ++ ", ".intercalate quoted ++ "], has_enclosing: " ++
    (if (frames.enclosing? id).isSome then "true" else "false") ++ " \x7d"

end Frames

end Lox
