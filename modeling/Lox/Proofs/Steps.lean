/-!
# Steps in a row

What a row of steps comes to that change a state and may stop.
-/

namespace Lox.Steps

variable {ε σ α β : Type} {x : EStateM ε σ α} {f : α → EStateM ε σ β} {s s₁ s₂ : σ}

theorem bind_of_ok {a : α} (h : x s = .ok a s₁) : (x >>= f) s = f a s₁ := by
  simp only [bind, EStateM.bind, h]

theorem bind_of_error {e : ε} (h : x s = .error e s₁) : (x >>= f) s = .error e s₁ := by
  simp only [bind, EStateM.bind, h]

theorem get_bind {g : σ → EStateM ε σ β} : (get >>= g) s = g s s := rfl

theorem bind_eq_ok {b : β} :
    (x >>= f) s = .ok b s₂ ↔ ∃ a s₁, x s = .ok a s₁ ∧ f a s₁ = .ok b s₂ := by
  constructor
  · intro h
    cases hx : x s with
    | ok a s₁ => exact ⟨a, s₁, rfl, by rwa [bind_of_ok hx] at h⟩
    | error e s₁ => rw [bind_of_error hx] at h; cases h
  · rintro ⟨a, s₁, hx, hf⟩
    rw [bind_of_ok hx, hf]

theorem bind_eq_bind {y : EStateM ε σ α} {g : α → EStateM ε σ β} (h : x s = y s)
    (hf : ∀ a s₁, y s = .ok a s₁ → f a s₁ = g a s₁) : (x >>= f) s = (y >>= g) s := by
  cases hy : y s with
  | ok a s₁ => rw [bind_of_ok (h.trans hy), bind_of_ok hy, hf a s₁ hy]
  | error e s₁ => rw [bind_of_error (h.trans hy), bind_of_error hy]

end Lox.Steps
