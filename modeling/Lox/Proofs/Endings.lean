import Mathlib

/-!
# How computations end

A computation that may stop ends in a value or a reason, and in a state either way. The lemmas here
take a composed computation apart at its first step.
-/

namespace Lox
namespace Ending

universe u

variable {ε σ α β : Type u} {s s' : σ}

/-- The state in which a computation ended. -/
def state : EStateM.Result ε σ α → σ
  | .ok _ s => s
  | .error _ s => s

@[simp] theorem state_ok (a : α) : state (.ok a s : EStateM.Result ε σ α) = s := rfl

@[simp] theorem state_error (e : ε) : state (.error e s : EStateM.Result ε σ α) = s := rfl

theorem bind_ok {p : EStateM ε σ α} {f : α → EStateM ε σ β} {a : α} (h : p s = .ok a s') :
    (p >>= f) s = f a s' := by
  show EStateM.bind p f s = _
  simp only [EStateM.bind, h]

theorem bind_error {p : EStateM ε σ α} {f : α → EStateM ε σ β} {e : ε} (h : p s = .error e s') :
    (p >>= f) s = .error e s' := by
  show EStateM.bind p f s = _
  simp only [EStateM.bind, h]

theorem bind_eq_ok {p : EStateM ε σ α} {f : α → EStateM ε σ β} {b : β} :
    (p >>= f) s = .ok b s' ↔ ∃ a s₁, p s = .ok a s₁ ∧ f a s₁ = .ok b s' := by
  cases h : p s with
  | ok a s₁ => simp [bind_ok h, and_assoc]
  | error e s₁ => simp [bind_error h]

theorem bind_eq_error {p : EStateM ε σ α} {f : α → EStateM ε σ β} {e : ε} :
    (p >>= f) s = .error e s' ↔
      p s = .error e s' ∨ ∃ a s₁, p s = .ok a s₁ ∧ f a s₁ = .error e s' := by
  cases h : p s with
  | ok a s₁ => simp [bind_ok h, and_assoc]
  | error e s₁ => simp [bind_error h]

@[simp] theorem pure_apply (a : α) : (pure a : EStateM ε σ α) s = .ok a s := rfl

theorem pure_eq_ok {a b : α} : (pure a : EStateM ε σ α) s = .ok b s' ↔ a = b ∧ s = s' := by
  simp

theorem map_eq_ok {p : EStateM ε σ α} {f : α → β} {b : β} :
    (f <$> p) s = .ok b s' ↔ ∃ a, p s = .ok a s' ∧ f a = b := by
  show EStateM.map f p s = _ ↔ _
  cases h : p s with
  | ok a s₁ =>
    simp only [EStateM.map, h, EStateM.Result.ok.injEq]
    constructor
    · rintro ⟨rfl, rfl⟩
      exact ⟨a, ⟨rfl, rfl⟩, rfl⟩
    · rintro ⟨a, ⟨rfl, rfl⟩, rfl⟩
      exact ⟨rfl, rfl⟩
  | error e s₁ => simp [EStateM.map, h]

@[simp] theorem get_apply : (get : EStateM ε σ σ) s = .ok s s := rfl

end Ending
end Lox
