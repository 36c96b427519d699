import Lox.Proofs.Joining.Follows

/-!
# Small steps vary

The small steps of a machine are followed by the same steps of known code on other lines.  Frames,
classes and instances hold no lines, so most steps do the same to every varied machine; a variable is
looked up at the distance that all tables agree on; only a step that makes a function has to say of
which origin it is.
-/

namespace Lox.Joining

open Machine Run

variable {σ : Setting} {m : Machine} {marks : List Bool} {new : Bool}

namespace Follows

/-! ## Frames -/

theorem define (h : Fits σ m marks) (name : String) (value : Value) :
    Follows σ m marks (Run.define name value) (fun _ => Run.define name value) :=
  step (h.withFrames _) rfl fun _ => rfl

theorem modifyFrames (h : Fits σ m marks) (change : Frames → Frames) :
    Follows σ m marks (Run.modifyFrames change) (fun _ => Run.modifyFrames change) :=
  step (h.withFrames _) rfl fun _ => rfl

theorem newFrame (h : Fits σ m marks) (enclosing : Option FrameId) (bindings : Table Value) :
    Follows σ m marks (allocate (·.newFrame enclosing bindings))
      (fun _ => allocate (·.newFrame enclosing bindings)) :=
  step (h.withFrames _) rfl fun _ => rfl

theorem getAt (h : Fits σ m marks) (frame : FrameId) (distance : Nat) (name : String) :
    Follows σ m marks (Run.getAt frame distance name)
      (fun _ => Run.getAt frame distance name) := by
  unfold Run.getAt
  refine .getHeap ?_
  simp only [Heap.moved_frames]
  cases m.heap.frames.getAt frame distance name with
  | ok value => exact .pure h value
  | error left => exact .failPlainly h (.unbound name left) rfl

/-! ## Variables -/

/-- **A variable is looked up** where it was, by whatever table. -/
theorem lookUp (h : Fits σ m marks) {r : Reference} (hr : r.From (σ.origin new)) :
    Follows σ m marks (Run.lookUp r) (fun v => Run.lookUp (r.moved (v.shift new))) := by
  unfold Run.lookUp
  refine .get ?_
  simp only [h.get?_moved hr, moved_frames, moved_environment, moved_globals,
    Reference.moved_name, Name.moved_text]
  cases m.distances.get? r.id with
  | some distance => exact .getAt h m.environment distance r.name.text
  | none =>
    dsimp only
    cases m.heap.frames.get? m.globals r.name.text with
    | some value => exact .pure h value
    | none => exact .fail h (.undefinedVariable r.name) (by rintro _ ⟨⟩; exact hr.2)

theorem holder (h : Fits σ m marks) {r : Reference} (hr : r.From (σ.origin new)) :
    Follows σ m marks (Run.holder r) (fun v => Run.holder (r.moved (v.shift new))) := by
  unfold Run.holder
  refine .get ?_
  simp only [h.get?_moved hr, moved_frames, moved_environment, moved_globals,
    Reference.moved_name, Name.moved_text]
  cases m.distances.get? r.id with
  | some distance =>
    dsimp only
    cases m.heap.frames.holderAt m.environment distance r.name.text with
    | ok frame => exact .pure h frame
    | error left => exact .failPlainly h (.unbound r.name.text left) rfl
  | none =>
    dsimp only
    cases m.heap.frames.holder? m.globals r.name.text with
    | some frame => exact .pure h frame
    | none => exact .fail h (.undefinedVariable r.name) (by rintro _ ⟨⟩; exact hr.2)

theorem store (h : Fits σ m marks) {r : Reference} (hr : r.From (σ.origin new)) (value : Value) :
    Follows σ m marks (Run.store r value) (fun v => Run.store (r.moved (v.shift new)) value) := by
  unfold Run.store
  exact .bind (.holder h hr) fun frame m' marks' _ h' => .modifyFrames h' _

/-! ## Output -/

theorem writeLine (h : Fits σ m marks) (text : String) :
    Follows σ m marks (Run.writeLine text) (fun _ => Run.writeLine text) := by
  unfold Run.writeLine
  have hwritten : Fits σ { m with sink := (m.sink.write (text ++ "\n").toUTF8).1 } marks :=
    ⟨h.held, h.distances, h.flushes⟩
  refine .bind (.step hwritten rfl fun _ => rfl) fun fits m' marks' _ h' => ?_
  cases fits with
  | true => exact .pure h' ()
  | false => exact .failPlainly h' .sinkFull rfl

theorem flush (h : Fits σ m marks) :
    Follows σ m marks Run.flush (fun _ => Run.flush) := by
  unfold Run.flush
  refine .bind (.step (h.withFlushes (m.flushes + 1)) rfl fun _ => rfl) fun _ m' _ _ h' => .get ?_
  show Follows σ m' _ _ fun _ => if m'.sink.flushFails then Run.fail .sinkClosed else return ()
  rw [h'.flushes]
  cases σ.flushFails with
  | true => exact .failPlainly h' .sinkClosed rfl
  | false => exact .pure h' ()

theorem readClock (h : Fits σ m marks) :
    Follows σ m marks Run.readClock (fun _ => Run.readClock) :=
  .step (h.withClock m.clock.next) rfl fun _ => rfl

/-! ## Functions -/

/-- **A function that is made** of known code is made on other lines under a variation. -/
theorem newFunction (h : Fits σ m marks) (object : FunctionObject)
    (hobject : object.declaration.From (σ.origin new)) :
    Follows σ m marks (allocate (·.newFunction object))
      (fun v => allocate (·.newFunction (object.moved (v.shift new)))) := by
  refine ⟨{ m with heap := (m.heap.newFunction object).2 }, marks ++ [new],
    ⟨h.held.newFunction hobject, h.distances, h.flushes⟩, List.prefix_append marks [new],
    .inl ⟨(m.heap.newFunction object).1, rfl, fun v => ?_⟩⟩
  have hmoved : (m.heap.moved marks v.lines).newFunction (object.moved (v.shift new)) = _ :=
    h.held.newFunction_moved v.lines object new
  show EStateM.Result.ok ((m.heap.moved marks v.lines).newFunction (object.moved (v.shift new))).1
    { m.moved v marks with
      heap := ((m.heap.moved marks v.lines).newFunction (object.moved (v.shift new))).2 } = _
  rw [hmoved]
  rfl

theorem bindMethod (h : Fits σ m marks) {method : FunctionId}
    (hmethod : method.index < m.heap.functions.size) (receiver : InstanceId) :
    Follows σ m marks (allocate (·.bind method receiver))
      (fun _ => allocate (·.bind method receiver)) := by
  let object := m.heap.function method
  let enclosed := (m.heap.newFrame (some object.closure) (.single thisName (.inst receiver))).2
  let bound : FunctionObject := { object with
    closure := (m.heap.newFrame (some object.closure) (.single thisName (.inst receiver))).1 }
  have hframe : Fits σ { m with heap := enclosed } marks := h.withFrames _
  have hbound : Follows σ { m with heap := enclosed } marks (allocate (·.newFunction bound))
      (fun v => allocate (·.newFunction
        (bound.moved (v.shift (marks.getD method.index false))))) :=
    .newFunction hframe bound (h.held.function_from hmethod)
  obtain ⟨m', marks', hfits, hgrows, ⟨id, hx, hy⟩ | ⟨stop, new, hx, -⟩⟩ := hbound
  · refine ⟨m', marks', hfits, hgrows, .inl ⟨id, hx, fun v => ?_⟩⟩
    have hbind : (m.heap.moved marks v.lines).bind method receiver =
        (enclosed.moved marks v.lines).newFunction
          (bound.moved (v.shift (marks.getD method.index false))) := by
      unfold Heap.bind
      rw [h.held.function_moved]
      rfl
    rw [← hy v]
    show EStateM.Result.ok ((m.heap.moved marks v.lines).bind method receiver).1
      { m.moved v marks with heap := ((m.heap.moved marks v.lines).bind method receiver).2 } = _
    rw [hbind]
    rfl
  · cases hx

/-! ## Properties -/

theorem property (h : Fits σ m marks) (id : InstanceId) {name : Name}
    (hname : (σ.origin new).line name.line) :
    Follows σ m marks (Run.property id name)
      (fun v => Run.property id (name.moved (v.shift new))) := by
  unfold Run.property
  refine .getHeap ?_
  simp only [property?_moved, Name.moved_text]
  cases hfound : m.heap.property? id name.text with
  | none => exact .fail h (.undefinedProperty name) (by rintro _ ⟨⟩; exact hname)
  | some found =>
    cases found with
    | field value => exact .pure h value
    | method method =>
      have hmethod := h.held.lt_of_findMethod? (Heap.findMethod?_of_property?_method hfound)
      exact .bind (.bindMethod h hmethod id) fun bound m' marks' _ h' => .pure h' (Value.function bound)

theorem superclassAt (h : Fits σ m marks) (distance : Nat) :
    Follows σ m marks (Run.superclassAt distance) (fun _ => Run.superclassAt distance) := by
  unfold Run.superclassAt
  refine .get (.bind (.getAt h m.environment distance superName) fun value m' marks' _ h' => ?_)
  cases value with
  | cls id => exact .pure h' id
  | _ => exact .failPlainly h' (.superNotClass _) rfl

theorem receiverAt (h : Fits σ m marks) (distance : Nat) :
    Follows σ m marks (Run.receiverAt distance) (fun _ => Run.receiverAt distance) := by
  unfold Run.receiverAt
  refine .get (.bind (.getAt h m.environment distance thisName) fun value m' marks' _ h' => ?_)
  cases value with
  | inst id => exact .pure h' id
  | _ => exact .failPlainly h' (.receiverNotInstance _) rfl

theorem superMethod (h : Fits σ m marks) {keyword : Reference} {method : Name}
    (hkeyword : keyword.From (σ.origin new)) (hmethod : (σ.origin new).line method.line) :
    Follows σ m marks (Run.superMethod keyword method)
      (fun v => Run.superMethod (keyword.moved (v.shift new)) (method.moved (v.shift new))) := by
  unfold Run.superMethod
  refine .get ?_
  simp only [h.get?_moved hkeyword]
  cases m.distances.get? keyword.id with
  | none => exact .fail h (.unresolved keyword.name) (by rintro _ ⟨⟩; exact hkeyword.2)
  | some distance =>
    refine .bind (.superclassAt h distance) fun parent m₁ marks₁ _ h₁ => ?_
    cases distance with
    | zero => exact .failPlainly h₁ .superWithoutReceiver rfl
    | succ inner =>
      refine .bind (.receiverAt h₁ inner) fun receiver m₂ marks₂ _ h₂ => .getHeap ?_
      simp only [findMethod?_moved, Name.moved_text]
      cases hfound : m₂.heap.findMethod? parent method.text with
      | none => exact .fail h₂ (.undefinedProperty method) (by rintro _ ⟨⟩; exact hmethod)
      | some found =>
        have hlt := h₂.held.lt_of_findMethod? hfound
        exact .bind (.bindMethod h₂ hlt receiver) fun bound m₃ marks₃ _ h₃ =>
          .pure h₃ (Value.function bound)

end Follows

end Lox.Joining
