import Lox.Proofs.Observed.Keeps
import Lox.Proofs.Writing

/-!
# Steps that keep a state sound

What the machine does in one step: it writes to variables and to the sink, and it makes objects.  The
steps of a program write only to names of the program's own, so the frames that bind `this` and
`super` are as good as constant.
-/

namespace Lox.Observed

open Machine.Run (allocate lookUp store)

variable {α β : Type} {bound : NodeId} {s : State}

/-! ## Steps of the machine -/

/-- What a row begins with may be given by the state that it comes to. -/
theorem Keeps.jump {x y : Run α} {Q : State → α → Prop} {t : State} (hx : x s = y t)
    (hs : Becomes bound s t) (h : Keeps bound t y Q) : Keeps bound s x Q := by
  obtain ⟨s₂, hs₂, hends⟩ := h
  exact ⟨s₂, hs.trans hs₂, by rw [hx]; exact hends⟩

theorem keeps_lookUp {reference : Reference} (h : Sound bound s) :
    Keeps bound s (lift (lookUp reference)) fun s' v => s' = s ∧ ValueOk s' v :=
  (Keeps.reads h .lookUp).mono fun v s' _ ⟨hsame, g, x, hv⟩ =>
    ⟨hsame, by rw [hsame]; exact h.bindings g x v hv⟩

theorem Reads.holder {m : Machine} {reference : Reference} :
    Reads m (Machine.Run.holder reference) fun _ => True := by
  refine get ?_
  cases m.distances.get? reference.id with
  | some distance =>
    dsimp only
    cases m.heap.frames.holderAt m.environment distance reference.name.text with
    | ok frame => exact pure trivial
    | error left => exact fail
  | none =>
    dsimp only
    cases m.heap.frames.holder? m.globals reference.name.text with
    | some frame => exact pure trivial
    | none => exact fail

theorem keeps_store {target : Reference} {v : Value} (h : Sound bound s)
    (hx : Plain target.name.text) (hv : ValueOk s v) :
    Keeps bound s (lift (store target v)) fun _ _ => True := by
  have hreads : Reads s.machine (Machine.Run.holder target) fun _ => True := .holder
  rcases hreads with ⟨frame, hy, -⟩ | ⟨stop, hy⟩
  · refine .step (t := s.define frame target.name.text v) (a := ()) ?_
      (h.define hx (hv.mono (.define frame v hx))) trivial
    rw [lift, store, Steps.bind_of_ok hy]
    rfl
  · exact ⟨s, .refl h, .inr ⟨stop, by rw [lift, store, Steps.bind_of_error hy]⟩⟩

theorem keeps_assignName {name : Name} {v : Value} (h : Sound bound s) (hx : Plain name.text)
    (hv : ValueOk s v) : Keeps bound s (lift (Machine.assignName name v)) fun _ _ => True := by
  cases hholder : s.machine.heap.frames.holder? s.machine.environment name.text with
  | some frame =>
    refine .step (t := s.define frame name.text v) (a := ()) ?_
      (h.define hx (hv.mono (.define frame v hx))) trivial
    rw [lift, Machine.assignName, Steps.get_bind, hholder]
    rfl
  | none =>
    refine ⟨s, .refl h, .inr ⟨.fault (.undefinedVariable name), ?_⟩⟩
    rw [lift, Machine.assignName, Steps.get_bind, hholder]
    rfl

/-- The state with another sink, which was flushed so often, and another clock. -/
def State.withOutside (s : State) (sink : Sink) (flushes : Nat) (clock : Clock) : State :=
  { s with machine := { s.machine with sink, flushes, clock } }

theorem Sound.withOutside {sink : Sink} {flushes : Nat} {clock : Clock} (h : Sound bound s) :
    Becomes bound s (s.withOutside sink flushes clock) :=
  h.becomes { Grows.refl s with } ⟨rfl, rfl, rfl⟩ (fun _ _ _ hv => .inl hv)
    (fun _ _ _ _ hc _ => .inl hc) (fun i o x v ho hv => .inl (h.fields i o x v ho hv))
    fun _ hv => .inl hv

theorem keeps_writeLine {text : String} (h : Sound bound s) :
    Keeps bound s (lift (Machine.Run.writeLine text)) fun _ _ => True := by
  refine ⟨s.withOutside (s.machine.sink.write (text ++ "\n").toUTF8).1 s.machine.flushes
    s.machine.clock, h.withOutside, ?_⟩
  unfold lift
  rw [Machine.Run.writeLine_eq]
  cases (s.machine.sink.write (text ++ "\n").toUTF8).2 with
  | true => exact .inl ⟨(), rfl, trivial⟩
  | false => exact .inr ⟨_, rfl⟩

theorem keeps_flush (h : Sound bound s) :
    Keeps bound s (lift Machine.Run.flush) fun _ _ => True := by
  refine ⟨s.withOutside s.machine.sink (s.machine.flushes + 1) s.machine.clock, h.withOutside, ?_⟩
  unfold lift
  rw [Machine.Run.flush_eq]
  cases s.machine.sink.flushFails with
  | true => exact .inr ⟨_, rfl⟩
  | false => exact .inl ⟨(), rfl, trivial⟩

theorem keeps_callNative {f : Native} (h : Sound bound s) :
    Keeps bound s (lift (Machine.callNative f)) ValueOk := by
  cases f
  exact .step (a := .number s.machine.clock.now)
    (t := s.withOutside s.machine.sink s.machine.flushes s.machine.clock.next) rfl h.withOutside
    trivial

theorem keeps_visit {node : Node} {position : Position} (h : Sound bound s)
    (hsite : ⟨node, position.around, position.scopes⟩ ∈ s.sites) (ha : At s.machine position) :
    Keeps bound s (visit node position) fun s' _ => s'.machine = s.machine := by
  refine .step (a := ())
    (t := { s with visits := s.visits ++ [⟨node, position, s.machine⟩] }) rfl ?_ rfl
  refine h.becomes { Grows.refl s with } ⟨rfl, rfl, rfl⟩ (fun _ _ _ hv => .inl hv)
    (fun _ _ _ _ hc _ => .inl hc) (fun i o x v ho hv => .inl (h.fields i o x v ho hv))
    fun v hv => ?_
  rcases List.mem_append.mp hv with hv | hv
  · exact .inl hv
  · cases List.mem_singleton.mp hv
    exact .inr ⟨hsite, ha, bound, h.recorded _ hsite⟩

/-! ## New objects -/

/-- The state with one more frame. -/
def State.addFrame (s : State) (outer : FrameId) (bindings : Table Value) : State :=
  s.withFrames (s.machine.heap.frames.push ⟨bindings, some outer⟩).2

/-- The identity of the next frame. -/
def State.nextFrame (s : State) : FrameId :=
  ⟨s.machine.heap.frames.all.size⟩

theorem Grows.addFrame {outer : FrameId} {bindings : Table Value} :
    Grows s (s.addFrame outer bindings) :=
  .withFrames (.push _ _)

theorem Sound.addFrame {outer : FrameId} {bindings : Table Value} (h : Sound bound s)
    (hbindings : ∀ x v, bindings.get? x = some v → ValueOk s v) :
    Becomes bound s (s.addFrame outer bindings) := by
  refine h.withFrames (.push _ _) fun g x v hv => ?_
  unfold Frames.binding? at hv
  rw [Frames.frame?_push] at hv
  split at hv
  · exact .inr ((hbindings x v hv).mono .addFrame)
  · exact .inl hv

theorem State.enclosing?_addFrame {outer : FrameId} {bindings : Table Value} :
    (s.addFrame outer bindings).machine.heap.frames.enclosing? s.nextFrame = some outer :=
  Frames.enclosing?_push_self s.machine.heap.frames ⟨bindings, some outer⟩

theorem State.binding?_addFrame {outer : FrameId} {bindings : Table Value} {x : String} :
    (s.addFrame outer bindings).machine.heap.frames.binding? s.nextFrame x = bindings.get? x :=
  Frames.binding?_push_self s.machine.heap.frames ⟨bindings, some outer⟩

/-- The state with one more function, which comes from this position. -/
def State.addFunction (s : State) (f : FunctionObject) (position : Position) : State where
  machine := { s.machine with
    heap := { s.machine.heap with functions := s.machine.heap.functions.push f } }
  origin id := if id = ⟨s.machine.heap.functions.size⟩ then position else s.origin id
  sites := s.sites
  visits := s.visits

/-- The identity of the next function. -/
def State.nextFunction (s : State) : FunctionId :=
  ⟨s.machine.heap.functions.size⟩

section
variable {f : FunctionObject} {position : Position}

theorem State.function_addFunction :
    (s.addFunction f position).machine.heap.functions[s.nextFunction.index]? = some f :=
  Array.getElem?_push_size

theorem State.origin_addFunction : (s.addFunction f position).origin s.nextFunction = position :=
  if_pos rfl

theorem Grows.addFunction : Grows s (s.addFunction f position) where
  frames := .refl _
  functions i g hg := by
    have hlt := (Array.getElem?_eq_some_iff.mp hg).1
    show (s.machine.heap.functions.push f)[i]? = some g
    rw [Array.getElem?_push_lt hlt, ← Array.getElem?_eq_getElem hlt, hg]
  origins id hid := if_neg fun h => by
    rw [h] at hid
    exact absurd hid (Nat.lt_irrefl _)
  globals := rfl
  sites _ h := h

/-- What is new is only a function, which nobody knows yet. -/
theorem Sound.addFunction (h : Sound bound s) : Becomes bound s (s.addFunction f position) :=
  h.becomes .addFunction ⟨rfl, rfl, rfl⟩ (fun _ _ _ hv => .inl hv)
    (fun _ _ _ _ hc _ => .inl hc) (fun i o x v ho hv => .inl (h.fields i o x v ho hv))
    fun _ hv => .inl hv

end

theorem keeps_newClass {c : ClassObject} (h : Sound bound s)
    (hmethods : ∀ x id, c.methods.get? x = some id → MethodOk s id) :
    Keeps bound s (lift (allocate (·.newClass c))) fun _ _ => True := by
  have hgrows : Grows s { s with machine := { s.machine with
      heap := (s.machine.heap.newClass c).2 } } := { Grows.refl s with }
  refine .step rfl (h.becomes hgrows ⟨rfl, rfl, rfl⟩ (fun _ _ _ hv => .inl hv) ?_
    (fun i o x v ho hv => .inl (h.fields i o x v ho hv)) fun _ hv => .inl hv) trivial
  intro i c' x id hc hx
  have hc : (s.machine.heap.classes.push c)[i]? = some c' := hc
  rw [Array.getElem?_push] at hc
  split at hc
  · cases hc
    exact .inr ((hmethods x id hx).mono hgrows)
  · exact .inl hc

/-- The state with other instances. -/
def State.withInstances (s : State) (instances : Array InstanceObject) : State :=
  { s with machine := { s.machine with heap := { s.machine.heap with instances } } }

theorem Sound.withInstances {instances : Array InstanceObject} (h : Sound bound s)
    (hfields : ∀ (i : Nat) o x v, instances[i]? = some o → o.fields.get? x = some v →
      ValueOk s v) : Becomes bound s (s.withInstances instances) :=
  h.becomes { Grows.refl s with } ⟨rfl, rfl, rfl⟩ (fun _ _ _ hv => .inl hv)
    (fun _ _ _ _ hc _ => .inl hc) (fun i o x v ho hv => .inl (hfields i o x v ho hv))
    fun _ hv => .inl hv

theorem keeps_newInstance {id : ClassId} (h : Sound bound s) :
    Keeps bound s (lift (allocate (·.newInstance id))) fun s' _ =>
      s'.machine.heap.functions = s.machine.heap.functions ∧
        s'.machine.heap.classes = s.machine.heap.classes := by
  refine .step (t := s.withInstances (s.machine.heap.instances.push ⟨id, .empty⟩)) rfl
    (h.withInstances fun i o x v ho hv => ?_) ⟨rfl, rfl⟩
  rw [Array.getElem?_push] at ho
  split at ho
  · cases ho
    cases hv
  · exact h.fields i o x v ho hv

theorem keeps_setField {id : InstanceId} {name : String} {v : Value} (h : Sound bound s)
    (hv : ValueOk s v) :
    Keeps bound s (lift (modify fun m => { m with heap := m.heap.setField id name v }))
      fun _ _ => True := by
  refine .step (a := ()) (t := s.withInstances (s.machine.heap.setField id name v).instances) rfl
    (h.withInstances fun i o field u ho hu => ?_) trivial
  obtain ⟨old, hold, -, hfields⟩ := Heap.exists_of_getElem?_setField ho
  rcases hfields field u hu with rfl | hu
  · exact hv
  · exact h.fields i old field u hold hu

end Lox.Observed
