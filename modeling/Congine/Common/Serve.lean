import Mathlib.Tactic.Common
/-!
# Serving a history

A system that answers each operation, or fails on it, run over a list of
them. A relation that one step keeps, under the same operation and with the
same answer, makes the one system answer a whole history as the other does.
-/

namespace Congine

variable {Op Answer State Spec Err : Type*}

/-- The answers to a list of operations, and the state they leave. -/
def serve (step : Op → State → Except Err (Answer × State)) :
    List Op → State → Except Err (List Answer × State)
  | [], s => .ok ([], s)
  | op :: ops, s =>
      (step op s).bind fun (answer, s) =>
        (serve step ops s).map fun (answers, s) => (answer :: answers, s)

/-- The same, of a system that fails on no operation. -/
def serveTotal (step : Op → Spec → Answer × Spec) : List Op → Spec → List Answer × Spec
  | [], t => ([], t)
  | op :: ops, t =>
      let (answer, t) := step op t
      ((answer :: (serveTotal step ops t).1), (serveTotal step ops t).2)

/-- One more operation is answered after the others. -/
theorem serveTotal_concat (step : Op → Spec → Answer × Spec) (ops : List Op) (op : Op) (t : Spec) :
    serveTotal step (ops ++ [op]) t =
      ((serveTotal step ops t).1 ++ [(step op (serveTotal step ops t).2).1],
        (step op (serveTotal step ops t).2).2) := by
  induction ops generalizing t with
  | nil => rfl
  | cons op' ops ih =>
    simp only [List.cons_append, serveTotal]
    rw [ih]

/-- **Refinement, from one step to a history.** -/
theorem serve_refines {step : Op → State → Except Err (Answer × State)}
    {spec : Op → Spec → Answer × Spec} {R : State → Spec → Prop}
    (hstep : ∀ op s t, R s t → ∃ s', step op s = .ok ((spec op t).1, s') ∧ R s' (spec op t).2)
    (ops : List Op) {s : State} {t : Spec} (h : R s t) :
    ∃ s', serve step ops s = .ok ((serveTotal spec ops t).1, s') ∧
      R s' (serveTotal spec ops t).2 := by
  induction ops generalizing s t with
  | nil => exact ⟨s, rfl, h⟩
  | cons op ops ih =>
    obtain ⟨s₁, hop, h₁⟩ := hstep op s t h
    obtain ⟨s₂, hops, h₂⟩ := ih h₁
    refine ⟨s₂, ?_, h₂⟩
    rw [serve, hop]
    simp only [Except.bind]
    rw [hops]
    rfl

end Congine
