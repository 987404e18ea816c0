import Mathlib.Tactic.Common
/-!
# Loops that may raise

A loop over a list whose body yields entries or fails: the entries are
gathered in order and the first failure ends the loop. So the loop
returns exactly where its body does on every element.
-/

namespace Congine

variable {ε α β : Type*}

/-- Run `f` on each element and gather what it yields. -/
def collect (f : α → Except ε (List β)) : List α → Except ε (List β)
  | [] => .ok []
  | x :: xs => (f x).bind fun ys => (collect f xs).map (ys ++ ·)

/-- **A loop is silent exactly where its body is** on every element. -/
theorem collect_eq_ok_nil {f : α → Except ε (List β)} {xs : List α} :
    collect f xs = .ok [] ↔ ∀ x ∈ xs, f x = .ok [] := by
  induction xs with
  | nil => simp [collect]
  | cons x xs ih =>
    rw [List.forall_mem_cons, ← ih, collect]
    cases hx : f x with
    | error e => simp [Except.bind]
    | ok ys =>
      cases hxs : collect f xs with
      | error e => simp [Except.bind, Except.map]
      | ok zs => simp [Except.bind, Except.map]

/-- What a loop gathers is what its body yields, element by element. -/
theorem mem_of_collect {f : α → Except ε (List β)} {xs : List α} {ys : List β}
    (h : collect f xs = .ok ys) {y : β} : y ∈ ys ↔ ∃ x ∈ xs, ∃ zs, f x = .ok zs ∧ y ∈ zs := by
  induction xs generalizing ys with
  | nil =>
    obtain rfl : [] = ys := Except.ok.inj h
    simp
  | cons x xs ih =>
    rw [collect] at h
    rcases hx : f x with e | us
    · simp [hx, Except.bind] at h
    · rcases hxs : collect f xs with e | vs
      · simp [hx, hxs, Except.bind, Except.map] at h
      · obtain rfl : us ++ vs = ys := by simpa [hx, hxs, Except.bind, Except.map] using h
        rw [List.mem_append, ih hxs]
        constructor
        · rintro (hy | ⟨x', hx', zs, hzs, hy⟩)
          · exact ⟨x, List.mem_cons_self, us, hx, hy⟩
          · exact ⟨x', List.mem_cons_of_mem x hx', zs, hzs, hy⟩
        · rintro ⟨x', hx', zs, hzs, hy⟩
          rcases List.mem_cons.mp hx' with rfl | hx'
          · rw [hx] at hzs
            exact Or.inl (Except.ok.inj hzs ▸ hy)
          · exact Or.inr ⟨x', hx', zs, hzs, hy⟩

/-! ## Returning -/

/-- A computation that may raise returns. -/
def Returns (x : Except ε α) : Prop := ∃ a, x = .ok a

instance : ∀ x : Except ε α, Decidable (Returns x)
  | .ok a => isTrue ⟨a, rfl⟩
  | .error _ => isFalse (by rintro ⟨a, h⟩; cases h)

@[simp] theorem returns_ok (a : α) : Returns (.ok a : Except ε α) := ⟨a, rfl⟩

@[simp] theorem not_returns_error (e : ε) : ¬ Returns (.error e : Except ε α) := by
  rintro ⟨a, h⟩
  cases h

@[simp] theorem returns_map {x : Except ε α} {f : α → β} : Returns (x.map f) ↔ Returns x := by
  rcases x with e | a
  · exact ⟨fun h => absurd h (not_returns_error e), fun h => absurd h (not_returns_error e)⟩
  · exact ⟨fun _ => returns_ok a, fun _ => returns_ok (f a)⟩

theorem returns_bind {x : Except ε α} {f : α → Except ε β} :
    Returns (x.bind f) ↔ ∃ a, x = .ok a ∧ Returns (f a) := by
  rcases x with e | a
  · simp [Except.bind]
  · simp [Except.bind]

theorem collect_returns_iff {f : α → Except ε (List β)} {xs : List α} :
    Returns (collect f xs) ↔ ∀ x ∈ xs, Returns (f x) := by
  induction xs with
  | nil => simp [collect]
  | cons x xs ih =>
    rw [List.forall_mem_cons, ← ih, collect, returns_bind]
    simp only [returns_map]
    constructor
    · rintro ⟨ys, hx, hxs⟩
      exact ⟨⟨ys, hx⟩, hxs⟩
    · rintro ⟨⟨ys, hx⟩, hxs⟩
      exact ⟨ys, hx, hxs⟩

/-- Two loops raise alike where their bodies differ only on elements on
which both return. -/
theorem collect_eq_error_of {f g : α → Except ε (List β)} {xs : List α} {e : ε}
    (h : ∀ x ∈ xs, f x = g x ∨ Returns (f x) ∧ Returns (g x)) (herr : collect f xs = .error e) :
    collect g xs = .error e := by
  induction xs with
  | nil => cases herr
  | cons x xs ih =>
    have htail := ih fun x' hx' => h x' (List.mem_cons_of_mem x hx')
    rw [collect] at herr ⊢
    rcases h x List.mem_cons_self with heq | ⟨⟨ys, hf⟩, ⟨zs, hg⟩⟩
    · rw [← heq]
      rcases hf : f x with e' | ys
      · rw [hf] at herr
        exact herr
      · rcases hxs : collect f xs with e' | us
        · simp only [hf, hxs, Except.bind, Except.map, Except.error.injEq] at herr
          simp [htail (herr ▸ hxs), Except.bind, Except.map]
        · simp [hf, hxs, Except.bind, Except.map] at herr
    · rcases hxs : collect f xs with e' | us
      · simp only [hf, hxs, Except.bind, Except.map, Except.error.injEq] at herr
        simp [hg, htail (herr ▸ hxs), Except.bind, Except.map]
      · simp [hf, hxs, Except.bind, Except.map] at herr

/-- **A loop that returns gathers, in order, what its body yields.** -/
theorem collect_eq_ok_flatMap_iff {f : α → Except ε (List β)} {g : α → List β} {xs : List α}
    (h : ∀ x ∈ xs, Returns (f x) → f x = .ok (g x)) :
    collect f xs = .ok (xs.flatMap g) ↔ ∀ x ∈ xs, Returns (f x) := by
  constructor
  · exact fun hcollect => collect_returns_iff.mp ⟨_, hcollect⟩
  · intro hreturns
    induction xs with
    | nil => rfl
    | cons x xs ih =>
      obtain ⟨hx, hxs⟩ := List.forall_mem_cons.mp hreturns
      rw [collect, h x List.mem_cons_self hx,
        ih (fun x' hx' => h x' (List.mem_cons_of_mem x hx')) hxs, List.flatMap_cons]
      rfl

theorem mapM_returns {f : α → Except ε β} {xs : List α} (h : ∀ x ∈ xs, Returns (f x)) :
    Returns (xs.mapM f) := by
  induction xs with
  | nil => exact ⟨[], rfl⟩
  | cons x xs ih =>
    obtain ⟨y, hy⟩ := h x List.mem_cons_self
    obtain ⟨ys, hys⟩ := ih fun x' hx' => h x' (List.mem_cons_of_mem x hx')
    rw [List.mapM_cons, hy, hys]
    exact ⟨y :: ys, rfl⟩

end Congine
