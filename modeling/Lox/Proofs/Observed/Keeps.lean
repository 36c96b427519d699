import Lox.Proofs.Steps
import Lox.Proofs.Observed.World

/-!
# Runs that keep a state sound

A run `Keeps` a state sound if it leaves a sound one behind, into which the state has grown, however
it ends.  Rows of such runs are such runs (`Keeps.bind`).  A step that only asks the machine something
`Reads`; all other steps bring something new into the state, and it is enough to look at what is new
(`Sound.becomes`).
-/

namespace Lox.Observed

open Machine.Run (getHeap allocate lookUp store fail)

/-- Whether a sound state is one that another has become with the same current frame and the same
distances. -/
structure Becomes (bound : NodeId) (s s' : State) : Prop where
  grows : Grows s s'
  sound : Sound bound s'
  environment : s'.machine.environment = s.machine.environment
  distances : s'.machine.distances = s.machine.distances
  sites : s'.sites = s.sites

/-- **Whether a run keeps a state sound**, with a result that `Q` holds of. -/
def Keeps {α : Type} (bound : NodeId) (s : State) (x : Run α) (Q : State → α → Prop) : Prop :=
  ∃ s', Becomes bound s s' ∧
    ((∃ a, x s = .ok a s' ∧ Q s' a) ∨ ∃ stop, x s = .error stop s')

/-- Whether a step changes nothing, with a result that `P` holds of. -/
def Reads {α : Type} (m : Machine) (y : Machine.Run α) (P : α → Prop) : Prop :=
  (∃ a, y m = .ok a m ∧ P a) ∨ ∃ stop, y m = .error stop m

variable {α β : Type} {bound : NodeId} {s s₁ s₂ : State}

theorem Becomes.refl (h : Sound bound s) : Becomes bound s s :=
  ⟨.refl s, h, rfl, rfl, rfl⟩

theorem Becomes.trans (h : Becomes bound s s₁) (h' : Becomes bound s₁ s₂) : Becomes bound s s₂ :=
  ⟨h.grows.trans h'.grows, h'.sound, h'.environment.trans h.environment,
    h'.distances.trans h.distances, h'.sites.trans h.sites⟩

theorem At.becomes {position : Position} (h : At s.machine position) (hs : Becomes bound s s₁) :
    At s₁.machine position :=
  h.mono hs.grows hs.environment

namespace Keeps

variable {x : Run α} {f : α → Run β} {Q : State → α → Prop} {R : State → β → Prop}

theorem step {a : α} {t : State} (hx : x s = .ok a t) (hs : Becomes bound s t) (hq : Q t a) :
    Keeps bound s x Q :=
  ⟨t, hs, .inl ⟨a, hx, hq⟩⟩

theorem pure {a : α} (h : Sound bound s) (hq : Q s a) : Keeps bound s (Pure.pure a) Q :=
  step rfl (.refl h) hq

theorem reads {y : Machine.Run α} {P : α → Prop} (h : Sound bound s) (hy : Reads s.machine y P) :
    Keeps bound s (lift y) fun s' a => s' = s ∧ P a := by
  rcases hy with ⟨a, hy, ha⟩ | ⟨stop, hy⟩
  · exact ⟨s, .refl h, .inl ⟨a, by rw [lift, hy], rfl, ha⟩⟩
  · exact ⟨s, .refl h, .inr ⟨stop, by rw [lift, hy]⟩⟩

theorem fail {fault : Machine.Fault} (h : Sound bound s) :
    Keeps bound s (lift (Machine.Run.fail fault)) Q :=
  ⟨s, .refl h, .inr ⟨.fault fault, rfl⟩⟩

theorem outOfFuel (h : Sound bound s) : Keeps bound s (lift Machine.Run.outOfFuel) Q :=
  ⟨s, .refl h, .inr ⟨.outOfFuel, rfl⟩⟩

/-- **Rows of runs that keep a state sound** keep it sound. -/
theorem bind (h : Keeps bound s x Q)
    (hf : ∀ a s', Becomes bound s s' → Q s' a → Keeps bound s' (f a) R) :
    Keeps bound s (x >>= f) R := by
  obtain ⟨s₁, hs₁, ⟨a, hx, hq⟩ | ⟨stop, hx⟩⟩ := h
  · obtain ⟨s₂, hs₂, hends⟩ := hf a s₁ hs₁ hq
    refine ⟨s₂, hs₁.trans hs₂, ?_⟩
    rw [Steps.bind_of_ok hx]
    exact hends
  · exact ⟨s₁, hs₁, .inr ⟨stop, Steps.bind_of_error hx⟩⟩

theorem mono {P : State → α → Prop} (h : Keeps bound s x Q)
    (hq : ∀ a s', Becomes bound s s' → Q s' a → P s' a) : Keeps bound s x P := by
  obtain ⟨s₁, hs₁, ⟨a, hx, ha⟩ | hstop⟩ := h
  · exact ⟨s₁, hs₁, .inl ⟨a, hx, hq a s₁ hs₁ ha⟩⟩
  · exact ⟨s₁, hs₁, .inr hstop⟩

theorem get {f : State → Run β} (h : Keeps bound s (f s) R) :
    Keeps bound s (MonadState.get >>= f) R := h

theorem getHeap {f : Heap → Run β} (h : Keeps bound s (f s.machine.heap) R) :
    Keeps bound s (lift Machine.Run.getHeap >>= f) R := h

theorem originOf {id : FunctionId} {f : Position → Run β} (h : Keeps bound s (f (s.origin id)) R) :
    Keeps bound s (originOf id >>= f) R := h

end Keeps

/-! ## Other frames -/

theorem Grows.moveTo (s : State) (frame : FrameId) : Grows s (s.moveTo frame) :=
  { Grows.refl s with }

theorem Grows.of_moveTo (s : State) (frame : FrameId) : Grows (s.moveTo frame) s :=
  { Grows.refl s with }

theorem Sound.moveTo (h : Sound bound s) (frame : FrameId) : Sound bound (s.moveTo frame) where
  outermost := h.outermost
  bindings g x v hv := (h.bindings g x v hv).mono (.moveTo s frame)
  methods i c x id hc hx := (h.methods i c x id hc hx).mono (.moveTo s frame)
  fields i o x v ho hv := (h.fields i o x v ho hv).mono (.moveTo s frame)
  recorded := h.recorded
  visits v hv := (h.visits v hv).mono (.moveTo s frame)

theorem Keeps.withFrame {frame : FrameId} {x : Run α} {Q : State → α → Prop}
    (h : Keeps bound (s.moveTo frame) x Q) :
    Keeps bound s (withFrame frame x) fun s' a => Q (s'.moveTo frame) a := by
  obtain ⟨s₁, hs₁, hends⟩ := h
  have henv : s₁.machine.environment = frame := hs₁.environment
  have hback : (s₁.moveTo s.machine.environment).moveTo frame = s₁ := by
    subst henv
    rfl
  refine ⟨s₁.moveTo s.machine.environment, ⟨((Grows.moveTo s frame).trans hs₁.grows).trans
    (.moveTo s₁ _), hs₁.sound.moveTo _, rfl, hs₁.distances, hs₁.sites⟩, ?_⟩
  rcases hends with ⟨a, hx, hq⟩ | ⟨stop, hx⟩
  · rw [← hback] at hq
    exact .inl ⟨a, by rw [Observed.withFrame, hx], hq⟩
  · exact .inr ⟨stop, by rw [Observed.withFrame, hx]⟩

/-! ## What is new in a state -/

/-- **A state stays sound** if what is new in it is sound. -/
theorem Sound.becomes (h : Sound bound s) (hgrows : Grows s s₁)
    (hkept : s₁.machine.environment = s.machine.environment ∧
      s₁.machine.distances = s.machine.distances ∧ s₁.sites = s.sites)
    (hbindings : ∀ g x v, s₁.machine.heap.frames.binding? g x = some v →
      s.machine.heap.frames.binding? g x = some v ∨ ValueOk s₁ v)
    (hmethods : ∀ (i : Nat) c x id, s₁.machine.heap.classes[i]? = some c →
      c.methods.get? x = some id → s.machine.heap.classes[i]? = some c ∨ MethodOk s₁ id)
    (hfields : ∀ (i : Nat) o x v, s₁.machine.heap.instances[i]? = some o →
      o.fields.get? x = some v → ValueOk s v ∨ ValueOk s₁ v)
    (hvisits : ∀ v ∈ s₁.visits, v ∈ s.visits ∨ VisitOk s₁ v) : Becomes bound s s₁ where
  grows := hgrows
  environment := hkept.1
  distances := hkept.2.1
  sites := hkept.2.2
  sound := {
    outermost := by rw [hgrows.globals]; exact hgrows.frames.outermost _ h.outermost
    bindings := fun g x v hv => (hbindings g x v hv).elim
      (fun hold => (h.bindings g x v hold).mono hgrows) id
    methods := fun i c x method hc hx => (hmethods i c x method hc hx).elim
      (fun hold => (h.methods i c x method hold hx).mono hgrows) id
    fields := fun i o x v ho hv => (hfields i o x v ho hv).elim (fun hold => hold.mono hgrows) id
    recorded := by rw [hkept.2.1, hkept.2.2]; exact h.recorded
    visits := fun v hv => (hvisits v hv).elim (fun hold => (h.visits v hold).mono hgrows) id }

/-- The state with other frames. -/
def State.withFrames (s : State) (frames : Frames) : State :=
  { s with machine := { s.machine with heap := { s.machine.heap with frames } } }

theorem Grows.withFrames {frames : Frames} (h : s.machine.heap.frames.Grow frames) :
    Grows s (s.withFrames frames) :=
  { Grows.refl s with frames := h }

theorem Sound.withFrames {frames : Frames} (h : Sound bound s)
    (hgrow : s.machine.heap.frames.Grow frames)
    (hbindings : ∀ g x v, frames.binding? g x = some v →
      s.machine.heap.frames.binding? g x = some v ∨ ValueOk (s.withFrames frames) v) :
    Becomes bound s (s.withFrames frames) :=
  h.becomes (.withFrames hgrow) ⟨rfl, rfl, rfl⟩ hbindings (fun _ _ _ _ hc _ => .inl hc)
    (fun i o x v ho hv => .inl (h.fields i o x v ho hv)) fun _ hv => .inl hv

/-- The state in which a frame binds a name. -/
def State.define (s : State) (frame : FrameId) (x : String) (v : Value) : State :=
  s.withFrames (s.machine.heap.frames.define frame x v)

theorem Grows.define {x : String} (frame : FrameId) (v : Value) (hx : Plain x) :
    Grows s (s.define frame x v) :=
  .withFrames (.define _ frame v hx)

/-- **A name of the program's own may be bound** to what can be called then. -/
theorem Sound.define {frame : FrameId} {x : String} {v : Value} (h : Sound bound s) (hx : Plain x)
    (hv : ValueOk (s.define frame x v) v) : Becomes bound s (s.define frame x v) :=
  h.withFrames (.define _ frame v hx) fun _ _ _ hu =>
    (Frames.binding?_define_cases hu).imp_right fun hsame => by rw [hsame]; exact hv

theorem keeps_define {x : String} {v : Value} (h : Sound bound s) (hx : Plain x)
    (hv : ValueOk (s.define s.machine.environment x v) v) :
    Keeps bound s (lift (Machine.Run.define x v))
      fun s' _ => s' = s.define s.machine.environment x v :=
  .step (a := ()) rfl (h.define hx hv) rfl

/-! ## Questions to the machine -/

namespace Reads

variable {m : Machine} {y : Machine.Run α} {P : α → Prop}

theorem pure {a : α} (ha : P a) : Reads m (Pure.pure a) P := .inl ⟨a, rfl, ha⟩

theorem fail {fault : Machine.Fault} : Reads m (Machine.Run.fail fault) P := .inr ⟨_, rfl⟩

theorem get {f : Machine → Machine.Run α} (h : Reads m (f m) P) :
    Reads m (MonadState.get >>= f) P := h

theorem getHeap {f : Heap → Machine.Run α} (h : Reads m (f m.heap) P) :
    Reads m (Machine.Run.getHeap >>= f) P := h

theorem bind {f : α → Machine.Run β} {R : β → Prop} (h : Reads m y P)
    (hf : ∀ a, P a → Reads m (f a) R) : Reads m (y >>= f) R := by
  rcases h with ⟨a, hy, ha⟩ | ⟨stop, hy⟩
  · have hends := hf a ha
    unfold Reads at hends ⊢
    rw [Steps.bind_of_ok hy]
    exact hends
  · exact .inr ⟨stop, Steps.bind_of_error hy⟩

/-- Whether a frame binds something to a value. -/
def Bound (m : Machine) (v : Value) : Prop :=
  ∃ g x, m.heap.frames.binding? g x = some v

theorem getAt {frame : FrameId} {d : Nat} {x : String} :
    Reads m (Machine.Run.getAt frame d x) (Bound m) := by
  refine getHeap ?_
  unfold Frames.getAt
  cases m.heap.frames.out frame d with
  | error left => exact fail
  | ok g =>
    cases hv : m.heap.frames.binding? g x with
    | none => simp only [hv]; exact fail
    | some v => simp only [hv]; exact pure ⟨g, x, hv⟩

theorem lookUp {reference : Reference} : Reads m (Machine.Run.lookUp reference) (Bound m) := by
  refine get ?_
  cases m.distances.get? reference.id with
  | some distance => exact getAt
  | none =>
    unfold Frames.get?
    cases m.heap.frames.holder? m.globals reference.name.text with
    | none => exact fail
    | some g =>
      cases hv : m.heap.frames.binding? g reference.name.text with
      | none => simp only [Option.bind_some, hv]; exact fail
      | some v => simp only [Option.bind_some, hv]; exact pure ⟨g, _, hv⟩

theorem superclassAt {d : Nat} : Reads m (Machine.Run.superclassAt d) fun _ => True := by
  refine get (bind getAt fun v _ => ?_)
  cases v with
  | cls id => exact pure trivial
  | _ => exact fail

theorem receiverAt {d : Nat} : Reads m (Machine.Run.receiverAt d) fun _ => True := by
  refine get (bind getAt fun v _ => ?_)
  cases v with
  | inst id => exact pure trivial
  | _ => exact fail

end Reads

end Lox.Observed
