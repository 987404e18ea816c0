import Mathlib.Tactic.Common
/-!
# Chains of checks

A chain of computations each of which may raise, and what it ensures: that
it raises nothing of a kind, and that what it returns is as it should be.
A chain ensures what its last link does, given what the links before it do.
-/

namespace Congine

variable {ε α β : Type}

/-- A chain returns where each link does. -/
theorem bind_eq_ok {x : Except ε α} {f : α → Except ε β} {b : β} :
    (x >>= f) = .ok b ↔ ∃ a, x = .ok a ∧ f a = .ok b := by
  cases x with
  | error e => exact ⟨fun h => (by cases h), fun ⟨a, h, _⟩ => by cases h⟩
  | ok a => exact ⟨fun h => ⟨a, rfl, h⟩, fun ⟨a', h, h'⟩ => by cases h; exact h'⟩

/-- Nothing of a kind is raised, and what is returned satisfies `P`. -/
def Ensures (raises : ε → Prop) (P : α → Prop) : Except ε α → Prop
  | .error e => ¬ raises e
  | .ok a => P a

variable {raises : ε → Prop} {P : α → Prop} {Q : β → Prop} {x : Except ε α}

theorem Ensures.mono {P' : α → Prop} (h : Ensures raises P x) (hP : ∀ a, P a → P' a) :
    Ensures raises P' x := by
  cases x with
  | error e => exact h
  | ok a => exact hP a h

theorem Ensures.mono_raises {raises' : ε → Prop} (h : Ensures raises P x)
    (hraises : ∀ e, raises' e → raises e) : Ensures raises' P x := by
  cases x with
  | error e => exact fun he => h (hraises e he)
  | ok a => exact h

theorem Ensures.bind {f : α → Except ε β} (h : Ensures raises P x)
    (hf : ∀ a, P a → Ensures raises Q (f a)) : Ensures raises Q (x >>= f) := by
  cases x with
  | error e => exact h
  | ok a => exact hf a h

theorem Ensures.map {f : α → β} (h : Ensures raises P x) (hf : ∀ a, P a → Q (f a)) :
    Ensures raises Q (x.map f) := by
  cases x with
  | error e => exact h
  | ok a => exact hf a h

theorem Ensures.not_raised {e : ε} (h : Ensures raises P x) (hx : x = .error e) : ¬ raises e := by
  rw [hx] at h
  exact h

end Congine
