import Lox.Proofs.Steps
import Lox.Proofs.Joining.Variations

/-!
# Runs that vary

A run is followed by a family of runs, one for each variation, if each of them does on the varied
machine what the run does on the machine: it yields the same, or stops for the same reason, and
leaves the varied machine behind (`Follows`).  Marks of functions are never taken back, and which
functions are new does not depend on the variation.  Rows of followed runs are followed
(`Follows.bind`).
-/

namespace Lox.Joining

open Machine Run

variable {σ : Setting} {m m' : Machine} {marks marks' : List Bool} {new : Bool}

/-- Whether a machine runs code of the setting only, on a sink that is flushed as the setting says. -/
structure Fits (σ : Setting) (m : Machine) (marks : List Bool) : Prop where
  held : Held σ m.heap marks
  distances : m.distances = σ.distances
  flushes : m.sink.flushFails = σ.flushFails

/-- Whether a stop is reported with a line of an origin, if it is reported with one. -/
def Known (o : Origin) (stop : Stop) : Prop :=
  ∀ line ∈ stop.line?, o.line line

/-- **Whether a family of runs follows a run** from a machine. -/
def Follows {α : Type} (σ : Setting) (m : Machine) (marks : List Bool) (x : Run α)
    (y : Variation σ → Run α) : Prop :=
  ∃ m' marks', Fits σ m' marks' ∧ marks <+: marks' ∧
    ((∃ a, x m = .ok a m' ∧ ∀ v, y v (m.moved v marks) = .ok a (m'.moved v marks')) ∨
      ∃ stop new, x m = .error stop m' ∧ Known (σ.origin new) stop ∧
        ∀ v, y v (m.moved v marks) = .error (stop.moved (v.shift new)) (m'.moved v marks'))

/-! ## Machines that fit -/

namespace Fits

theorem withFrames (h : Fits σ m marks) (frames : Frames) :
    Fits σ { m with heap := { m.heap with frames } } marks :=
  ⟨⟨h.held.length, h.held.known, h.held.methods⟩, h.distances, h.flushes⟩

theorem withInstances (h : Fits σ m marks) (instances : Array InstanceObject) :
    Fits σ { m with heap := { m.heap with instances } } marks :=
  ⟨⟨h.held.length, h.held.known, h.held.methods⟩, h.distances, h.flushes⟩

theorem withEnvironment (h : Fits σ m marks) (environment : FrameId) :
    Fits σ { m with environment } marks :=
  ⟨h.held, h.distances, h.flushes⟩

theorem withFlushes (h : Fits σ m marks) (flushes : Nat) : Fits σ { m with flushes } marks :=
  ⟨h.held, h.distances, h.flushes⟩

theorem withClock (h : Fits σ m marks) (clock : Clock) : Fits σ { m with clock } marks :=
  ⟨h.held, h.distances, h.flushes⟩

/-- The distance of a reference of known code is the same under every variation. -/
theorem get?_moved (h : Fits σ m marks) {r : Reference} (hr : r.From (σ.origin new))
    (v : Variation σ) : (m.moved v marks).distances.get? (r.moved (v.shift new)).id =
      m.distances.get? r.id := by
  have hid : (r.moved (v.shift new)).id = r.id := Reference.moved_down_id _ r
  rw [h.distances, hid]
  exact v.agrees new r.id hr.1

end Fits

/-! ## Rows of runs -/

namespace Follows

variable {α β : Type} {x : Run α} {y : Variation σ → Run α} {f : α → Run β}
  {g : Variation σ → α → Run β}

theorem step {a : α} (h : Fits σ m' marks) (hx : x m = .ok a m')
    (hy : ∀ v, y v (m.moved v marks) = .ok a (m'.moved v marks)) : Follows σ m marks x y :=
  ⟨m', marks, h, List.prefix_refl marks, .inl ⟨a, hx, hy⟩⟩

theorem pure (h : Fits σ m marks) (a : α) :
    Follows σ m marks (Pure.pure a) (fun _ => Pure.pure a) :=
  step h rfl fun _ => rfl

theorem fail (h : Fits σ m marks) (fault : Fault) (hfault : Known (σ.origin new) (.fault fault)) :
    Follows σ m marks (Run.fail (α := α) fault)
      (fun v => Run.fail (fault.moved (v.shift new))) :=
  ⟨m, marks, h, List.prefix_refl marks, .inr ⟨.fault fault, new, rfl, hfault, fun _ => rfl⟩⟩

theorem failPlainly (h : Fits σ m marks) (fault : Fault) (hfault : fault.line? = none) :
    Follows σ m marks (Run.fail (α := α) fault) (fun _ => Run.fail fault) := by
  have hknown : Known (σ.origin false) (.fault fault) := by
    intro line hline
    rw [Stop.line?, hfault] at hline
    cases hline
  have hmoved : ∀ v : Variation σ, fault.moved (v.shift false) = fault := fun _ =>
    fault.moved_zero
  have hfail := fail (α := α) h fault hknown
  simp only [hmoved] at hfail
  exact hfail

theorem outOfFuel (h : Fits σ m marks) :
    Follows σ m marks (Run.outOfFuel (α := α)) (fun _ => Run.outOfFuel) :=
  ⟨m, marks, h, List.prefix_refl marks, .inr ⟨.outOfFuel, false, rfl, nofun, fun _ => rfl⟩⟩

/-- **Rows of followed runs are followed.** -/
theorem bind (h : Follows σ m marks x y)
    (hf : ∀ a m' marks', x m = .ok a m' → Fits σ m' marks' →
      Follows σ m' marks' (f a) (fun v => g v a)) :
    Follows σ m marks (x >>= f) (fun v => y v >>= g v) := by
  obtain ⟨m₁, marks₁, hfits, hgrows, ⟨a, hx, hy⟩ | ⟨stop, new, hx, hknown, hy⟩⟩ := h
  · obtain ⟨m₂, marks₂, hfits₂, hgrows₂, hends⟩ := hf a m₁ marks₁ hx hfits
    refine ⟨m₂, marks₂, hfits₂, hgrows.trans hgrows₂, ?_⟩
    rw [Steps.bind_of_ok hx]
    rcases hends with ⟨b, hb, hfamily⟩ | ⟨stop, new, hstop, hknown, hfamily⟩
    · exact .inl ⟨b, hb, fun v => (Steps.bind_of_ok (hy v)).trans (hfamily v)⟩
    · exact .inr ⟨stop, new, hstop, hknown, fun v =>
        (Steps.bind_of_ok (hy v)).trans (hfamily v)⟩
  · exact ⟨m₁, marks₁, hfits, hgrows, .inr ⟨stop, new, Steps.bind_of_error hx, hknown, fun v =>
      Steps.bind_of_error (hy v)⟩⟩

theorem get {f : Machine → Run β} {g : Variation σ → Machine → Run β}
    (h : Follows σ m marks (f m) (fun v => g v (m.moved v marks))) :
    Follows σ m marks (MonadState.get >>= f) (fun v => MonadState.get >>= g v) := h

theorem getHeap {f : Heap → Run β} {g : Variation σ → Heap → Run β}
    (h : Follows σ m marks (f m.heap) (fun v => g v (m.heap.moved marks v.lines))) :
    Follows σ m marks (Run.getHeap >>= f) (fun v => Run.getHeap >>= g v) := h

/-- **What is followed in one frame** is followed from there as a run in that frame. -/
theorem withFrame {frame : FrameId} (h : Follows σ { m with environment := frame } marks x y) :
    Follows σ m marks (Run.withFrame frame x) (fun v => Run.withFrame frame (y v)) := by
  obtain ⟨m₁, marks₁, hfits, hgrows, hends⟩ := h
  refine ⟨{ m₁ with environment := m.environment }, marks₁, hfits.withEnvironment _, hgrows, ?_⟩
  rcases hends with ⟨a, hx, hy⟩ | ⟨stop, new, hx, hknown, hy⟩
  · refine .inl ⟨a, ?_, fun v => ?_⟩
    · simp only [Run.withFrame, hx]
    · have hv : y v { m.moved v marks with environment := frame } = _ := hy v
      simp only [Run.withFrame, hv]
      rfl
  · refine .inr ⟨stop, new, ?_, hknown, fun v => ?_⟩
    · simp only [Run.withFrame, hx]
    · have hv : y v { m.moved v marks with environment := frame } = _ := hy v
      simp only [Run.withFrame, hv]
      rfl

end Follows

end Lox.Joining
