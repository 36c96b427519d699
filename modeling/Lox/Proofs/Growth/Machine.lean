import Lox.Machine.Basic
import Lox.Syntax.Outline
import Lox.Proofs.Growth.Heap

/-!
# How a machine moves on

A running program changes the heap, enters a frame that binds only names of programs' own, or writes
to the sink, flushes it or reads the clock (`Machine.Change`).  A row of changes passes some moments on
its way (`Machine.Passes`).  If the machine was formed at its beginning then it is so at each of these
moments and at the end, and every later one of them continues every earlier one
(`Machine.Formed.passes`): it is what the earlier one has become, and the names in all functions of
that are as far away as they were.
-/

namespace Lox.Machine

/-- **Whether a machine is formed**: its heap is, around the outermost frame, and the current frame
binds only names of the program's own. -/
structure Formed (known : FunctionDecl → Prop) (m : Machine) : Prop where
  heap : m.heap.Formed known m.globals
  environment : m.heap.frames.OpenAt m.environment

/-- **Whether a machine is what another has become.** -/
structure Grows (m m' : Machine) : Prop where
  globals : m'.globals = m.globals
  heap : m.heap.Grows m'.heap

/-- **Whether a machine continues another**: it is what the other has become, and the names in all
functions of the other are as far away as they were. -/
structure Continues (m m' : Machine) : Prop extends Grows m m' where
  meanings : ∀ (i : Nat) f, m.heap.functions[i]? = some f → ∀ id ∈ f.declaration.references,
    m'.distances.get? id = m.distances.get? id

/-- **One change** that a program can make to a machine. -/
inductive Change (known : FunctionDecl → Prop) (m : Machine) : Machine → Prop
  | heap {heap : Heap} (hc : m.heap.Change known heap) : Change known m { m with heap }
  | enter {frame : FrameId} (hframe : m.heap.frames.OpenAt frame) :
      Change known m { m with environment := frame }
  | outside (sink : Sink) (flushes : Nat) (clock : Clock) :
      Change known m { m with sink, flushes, clock }

/-- **Whether changes lead from one machine to another**, by way of these moments. -/
inductive Passes (known : FunctionDecl → Prop) : Machine → List Machine → Machine → Prop
  | done (m : Machine) : Passes known m [] m
  | change {m m₁ m₂ : Machine} {moments : List Machine} (hc : Change known m m₁)
      (h : Passes known m₁ moments m₂) : Passes known m moments m₂
  | moment {m m₂ : Machine} {moments : List Machine} (h : Passes known m moments m₂) :
      Passes known m (m :: moments) m₂

variable {known known' : FunctionDecl → Prop} {m m₁ m₂ : Machine} {moments moments' : List Machine}

theorem Change.distances (h : Change known m m₁) : m₁.distances = m.distances := by
  cases h <;> rfl

theorem Grows.refl (m : Machine) : Grows m m := ⟨rfl, .refl _⟩

theorem Grows.trans (h : Grows m m₁) (h' : Grows m₁ m₂) : Grows m m₂ :=
  ⟨h'.globals.trans h.globals, h.heap.trans h'.heap⟩

theorem Continues.refl (m : Machine) : Continues m m := ⟨.refl m, fun _ _ _ _ _ => rfl⟩

theorem Continues.trans (h : Continues m m₁) (h' : Continues m₁ m₂) : Continues m m₂ where
  toGrows := h.toGrows.trans h'.toGrows
  meanings i f hf id hid := (h'.meanings i f (h.heap.functions i f hf) id hid).trans
    (h.meanings i f hf id hid)

/-- With the same distances all names are as far away as they were. -/
theorem Grows.continues (h : Grows m m₁) (hdistances : m₁.distances = m.distances) :
    Continues m m₁ :=
  ⟨h, fun _ _ _ _ _ => by rw [hdistances]⟩

namespace Passes

theorem single (hc : Change known m m₁) : Passes known m [] m₁ := .change hc (.done m₁)

theorem trans (h : Passes known m moments m₁) (h' : Passes known m₁ moments' m₂) :
    Passes known m (moments ++ moments') m₂ := by
  induction h with
  | done => exact h'
  | change hc _ ih => exact .change hc (ih h')
  | moment _ ih => exact .moment (ih h')

end Passes

namespace Formed

theorem mono (h : m.Formed known) (hknown : ∀ f, known f → known' f) : m.Formed known' where
  heap := { h.heap with
    functions := fun i f hf => ⟨hknown _ (h.heap.functions i f hf).1, (h.heap.functions i f hf).2⟩ }
  environment := h.environment

/-- **Every change is growth, and leaves a formed machine formed.** -/
theorem step (h : m.Formed known) (hc : Change known m m₁) : m₁.Formed known ∧ Grows m m₁ := by
  cases hc with
  | heap hc =>
    have hgrows := h.heap.grows hc
    exact ⟨⟨h.heap.step hc, hgrows.openAt h.environment⟩, rfl, hgrows⟩
  | enter hframe => exact ⟨⟨h.heap, hframe⟩, rfl, .refl _⟩
  | outside => exact ⟨⟨h.heap, h.environment⟩, rfl, .refl _⟩

/-- **A row of changes** keeps a machine formed at every moment, and each moment continues all before
it. -/
theorem passes (h : m.Formed known) (hpasses : Passes known m moments m₁) :
    (∀ moment ∈ moments, moment.Formed known) ∧ m₁.Formed known ∧
      (m :: (moments ++ [m₁])).Pairwise Continues := by
  induction hpasses with
  | done m => exact ⟨nofun, h, .cons (fun _ hm => List.mem_singleton.mp hm ▸ .refl m)
      (List.pairwise_singleton _ m)⟩
  | change hc _ ih =>
    obtain ⟨hformed, hgrows⟩ := h.step hc
    obtain ⟨hmoments, hlast, hpairs⟩ := ih hformed
    obtain ⟨hfirst, hothers⟩ := List.pairwise_cons.mp hpairs
    have hcontinues := hgrows.continues hc.distances
    exact ⟨hmoments, hlast, .cons (fun other hother => hcontinues.trans (hfirst other hother)) hothers⟩
  | moment _ ih =>
    obtain ⟨hmoments, hlast, hpairs⟩ := ih h
    refine ⟨List.forall_mem_cons.mpr ⟨h, hmoments⟩, hlast, .cons (fun other hother => ?_) hpairs⟩
    rcases List.mem_cons.mp hother with rfl | hother
    · exact .refl _
    · exact (List.pairwise_cons.mp hpairs).1 other hother

theorem continues_of_passes (h : m.Formed known) (hpasses : Passes known m moments m₁) :
    Continues m m₁ :=
  (List.pairwise_cons.mp (h.passes hpasses).2.2).1 m₁
    (List.mem_append_right _ (List.mem_singleton_self m₁))

end Formed

end Lox.Machine
