import Lox.Proofs.Steps
import Lox.Proofs.Lexical.Updates

/-!
# Runs side by side

Two runs are `Coupled` from a world if the one of its machine and the one of its state end alike and
leave a sound world behind, into which the old one has grown.  Rows of coupled runs are coupled
(`Coupled.bind`), so a program's runs are compared piece by piece.
-/

namespace Lox

/-- Whether a fault is one of the machine itself. -/
def Machine.Fault.IsInternal (f : Fault) : Prop :=
  ∃ message, f.diagnostic = .internal message

namespace Lexical

/-- Whether two runs stop for the same reason, which is no fault of the machine itself; or else the
state's run stops at an assignment to a variable in its own initializer, and the machine's does not
find the variable. -/
def Alike : Machine.Stop → Stop → Prop
  | .fault f, .fault f' => f = f' ∧ ¬f.IsInternal
  | .fault f, .ownAssignment x => f = .unbound x 0
  | .outOfFuel, .outOfFuel => True
  | _, _ => False

/-- Whether a world is a sound one that another has become, with the same current frame. -/
structure World.Becomes (opened : Option FrameId) (w w' : World) : Prop where
  grows : w.Grows opened w'
  sound : w'.Sound
  environment : w'.machine.environment = w.machine.environment

/-- **Whether two runs from a world end alike**, with results that `Q` relates. -/
def Coupled {α β : Type} (opened : Option FrameId) (w : World) (x : Machine.Run α) (y : Run β)
    (Q : World → α → β → Prop) : Prop :=
  ∃ w', w.Becomes opened w' ∧
    ((∃ a b, x w.machine = .ok a w'.machine ∧ y w.state = .ok b w'.state ∧ Q w' a b) ∨
      ∃ stop stop', x w.machine = .error stop w'.machine ∧ y w.state = .error stop' w'.state ∧
        Alike stop stop')

namespace World.Becomes

variable {opened : Option FrameId} {w w₁ w₂ : World}

theorem refl (h : w.Sound) : w.Becomes opened w := ⟨Grows.refl w, h, rfl⟩

theorem trans (h₁ : w.Becomes opened w₁) (h₂ : w₁.Becomes opened w₂) : w.Becomes opened w₂ :=
  ⟨h₁.grows.trans h₂.grows, h₂.sound, h₂.environment.trans h₁.environment⟩

theorem opening (h : w.Becomes none w₁) : w.Becomes opened w₁ :=
  ⟨h.grows.opening, h.sound, h.environment⟩

end World.Becomes

namespace Coupled

variable {α β γ δ : Type} {opened : Option FrameId} {w : World} {x : Machine.Run α} {y : Run β}
  {f : α → Machine.Run γ} {g : β → Run δ} {Q : World → α → β → Prop} {R : World → γ → δ → Prop}

theorem step (w' : World) {a : α} {b : β} (hx : x w.machine = .ok a w'.machine)
    (hy : y w.state = .ok b w'.state) (hw : w.Becomes opened w') (hq : Q w' a b) :
    Coupled opened w x y Q :=
  ⟨w', hw, .inl ⟨a, b, hx, hy, hq⟩⟩

theorem stop {e : Machine.Stop} {e' : Stop} (hx : x w.machine = .error e w.machine)
    (hy : y w.state = .error e' w.state) (h : w.Sound) (he : Alike e e') :
    Coupled opened w x y Q :=
  ⟨w, .refl h, .inr ⟨e, e', hx, hy, he⟩⟩

theorem pure {a : α} {b : β} (h : w.Sound) (hq : Q w a b) :
    Coupled opened w (Pure.pure a) (Pure.pure b) Q :=
  step w rfl rfl (.refl h) hq

theorem fail {fault : Machine.Fault} (h : w.Sound) (hfault : ¬fault.IsInternal) :
    Coupled opened w (Machine.Run.fail fault) (Lexical.fail fault) Q :=
  stop rfl rfl h ⟨rfl, hfault⟩

theorem outOfFuel (h : w.Sound) :
    Coupled opened w Machine.Run.outOfFuel Lexical.outOfFuel Q :=
  stop rfl rfl h trivial

/-- **Rows of coupled runs are coupled.** -/
theorem bind (h : Coupled opened w x y Q)
    (hfg : ∀ a b w', w.Becomes opened w' → Q w' a b → Coupled opened w' (f a) (g b) R) :
    Coupled opened w (x >>= f) (y >>= g) R := by
  obtain ⟨w₁, hw₁, ⟨a, b, hx, hy, hq⟩ | ⟨e, e', hx, hy, he⟩⟩ := h
  · obtain ⟨w₂, hw₂, hends⟩ := hfg a b w₁ hw₁ hq
    refine ⟨w₂, hw₁.trans hw₂, ?_⟩
    rw [Steps.bind_of_ok hx, Steps.bind_of_ok hy]
    exact hends
  · refine ⟨w₁, hw₁, .inr ⟨e, e', ?_, ?_, he⟩⟩
    · rw [Steps.bind_of_error hx]
    · rw [Steps.bind_of_error hy]

theorem mono {P : World → α → β → Prop} (h : Coupled opened w x y Q)
    (hq : ∀ a b w', w.Becomes opened w' → Q w' a b → P w' a b) : Coupled opened w x y P := by
  obtain ⟨w₁, hw₁, ⟨a, b, hx, hy, hab⟩ | hstop⟩ := h
  · exact ⟨w₁, hw₁, .inl ⟨a, b, hx, hy, hq a b w₁ hw₁ hab⟩⟩
  · exact ⟨w₁, hw₁, .inr hstop⟩

/-- The state's run may yield something else in the end. -/
theorem yields {g : β → δ} {R : World → α → δ → Prop} (h : Coupled opened w x y Q)
    (hr : ∀ a b w', w.Becomes opened w' → Q w' a b → R w' a (g b)) :
    Coupled opened w x (y >>= fun b => Pure.pure (g b)) R := by
  obtain ⟨w₁, hw₁, ⟨a, b, hx, hy, hq⟩ | ⟨e, e', hx, hy, he⟩⟩ := h
  · refine ⟨w₁, hw₁, .inl ⟨a, g b, hx, ?_, hr a b w₁ hw₁ hq⟩⟩
    rw [Steps.bind_of_ok hy]
    rfl
  · refine ⟨w₁, hw₁, .inr ⟨e, e', hx, ?_, he⟩⟩
    rw [Steps.bind_of_error hy]

theorem opening (h : Coupled none w x y Q) : Coupled opened w x y Q := by
  obtain ⟨w₁, hw₁, hends⟩ := h
  exact ⟨w₁, hw₁.opening, hends⟩

theorem after (w' : World) {a : α} {b : β} (hx : x w.machine = .ok a w'.machine)
    (hy : y w.state = .ok b w'.state) (hw : w.Becomes opened w')
    (h : Coupled opened w' (f a) (g b) R) : Coupled opened w (x >>= f) (y >>= g) R :=
  bind (Q := fun w₁ a₁ b₁ => w₁ = w' ∧ a₁ = a ∧ b₁ = b) (step w' hx hy hw ⟨rfl, rfl, rfl⟩)
    fun _ _ _ _ ⟨hw₁, ha, hb⟩ => by rw [hw₁, ha, hb]; exact h

theorem get_left {f : Machine → Machine.Run γ} {z : Run δ}
    (h : Coupled opened w (f w.machine) z R) : Coupled opened w (get >>= f) z R := h

theorem getHeap_left {f : Heap → Machine.Run γ} {z : Run δ}
    (h : Coupled opened w (f w.machine.heap) z R) :
    Coupled opened w (Machine.Run.getHeap >>= f) z R := h

theorem get_right {z : Machine.Run γ} {g : State → Run δ}
    (h : Coupled opened w z (g w.state) R) : Coupled opened w z (get >>= g) R := h

end Coupled

end Lexical

end Lox
