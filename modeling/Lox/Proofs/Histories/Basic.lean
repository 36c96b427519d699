import Lox.Store.Frames

/-!
# Histories of frames

What was ever done to frames, step by step: frames were made, and names were bound in them or
written to.  A step is about frames that earlier steps made, so a history is indexed by how many
there are.

All that a history says of frames is read off its steps, the latest first, and nothing is stored.
The way out of a frame is fixed when the frame is made (`History.path`).  What a frame binds to a
name is what was last written there (`History.written?`), where a step writes either to the frame
that it names, or to the one in which the name would have been found at that moment.
`History.frames` are the frames that the same steps leave.
-/

namespace Lox

/-- What was done to frames, which made so many of them. -/
inductive History : Nat → Type
  | start : History 0
  | root {n : Nat} (earlier : History n) : History (n + 1)
  | child {n : Nat} (earlier : History n) (outer : Fin n) : History (n + 1)
  | define {n : Nat} (earlier : History n) (frame : Fin n) (name : String) (value : Value) :
    History n
  | assign {n : Nat} (earlier : History n) (frame : Fin n) (name : String) (value : Value) :
    History n
  | assignAt {n : Nat} (earlier : History n) (frame : Fin n) (distance : Nat) (name : String)
    (value : Value) : History n

namespace History

/-- A frame and the frames around it, outward. -/
def path : {n : Nat} → History n → FrameId → List FrameId
  | _, .start, _ => []
  | n + 1, .root earlier, frame => if frame.index = n then [frame] else earlier.path frame
  | n + 1, .child earlier outer, frame =>
    if frame.index = n then frame :: earlier.path ⟨outer⟩ else earlier.path frame
  | _, .define earlier .., frame => earlier.path frame
  | _, .assign earlier .., frame => earlier.path frame
  | _, .assignAt earlier .., frame => earlier.path frame

/-- What was last written to a name in a frame, if the frame binds it. -/
def written? : {n : Nat} → History n → FrameId → String → Option Value
  | _, .start, _, _ => none
  | _, .root earlier, f, x => earlier.written? f x
  | _, .child earlier _, f, x => earlier.written? f x
  | _, .define earlier frame name value, f, x =>
    if f = ⟨frame⟩ ∧ x = name then some value else earlier.written? f x
  | _, .assign earlier frame name value, f, x =>
    if (earlier.path ⟨frame⟩).find? (fun g => (earlier.written? g name).isSome) = some f ∧ x = name
    then some value else earlier.written? f x
  | _, .assignAt earlier frame distance name value, f, x =>
    if (earlier.path ⟨frame⟩)[distance]?.filter (fun g => (earlier.written? g name).isSome) = some f ∧
      x = name
    then some value else earlier.written? f x

variable {n : Nat}

/-- The nearest frame on the way out that binds a name. -/
def nearest? (h : History n) (frame : FrameId) (name : String) : Option FrameId :=
  (h.path frame).find? fun g => (h.written? g name).isSome

/-- The frame so many steps out, if it binds a name. -/
def holderAt? (h : History n) (frame : FrameId) (distance : Nat) (name : String) : Option FrameId :=
  (h.path frame)[distance]?.filter fun g => (h.written? g name).isSome

/-- The frames that the steps of a history leave.  A write that fails leaves them as they are. -/
def frames : {n : Nat} → History n → Frames
  | _, .start => .empty
  | _, .root earlier => (earlier.frames.push ⟨.empty, none⟩).2
  | _, .child earlier outer => (earlier.frames.push ⟨.empty, some ⟨outer⟩⟩).2
  | _, .define earlier frame name value => earlier.frames.define ⟨frame⟩ name value
  | _, .assign earlier frame name value =>
    (earlier.frames.assign? ⟨frame⟩ name value).getD earlier.frames
  | _, .assignAt earlier frame distance name value =>
    (earlier.frames.assignAt ⟨frame⟩ distance name value).toOption.getD earlier.frames

end History

end Lox
