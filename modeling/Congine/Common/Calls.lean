import Mathlib.Tactic.Common
/-!
# Calls that take their steps in any order

The calls in progress are a list, each where it stands. One of them moves
at a time, and a new one comes in at the end. `Excludes` is what a lock is
for: a call is inside exactly when the lock is held by it. `Owns` is what
a resource each call has for itself comes to: two calls never have the
same one, and all that are had have been handed out.
-/

namespace Congine

variable {Call : Type*} {calls : List Call} {i j : ℕ} {call call' call₀ : Call}

/-- A call that is there after one has moved is the one that moved, or
another that was there before. -/
theorem getElem?_moved (hi : calls[i]? = some call) (h : (calls.set i call')[j]? = some call₀) :
    i = j ∧ call₀ = call' ∨ i ≠ j ∧ calls[j]? = some call₀ := by
  rcases eq_or_ne i j with rfl | hij
  · refine .inl ⟨rfl, ?_⟩
    have hself : (calls.set i call')[i]? = some call' :=
      List.getElem?_set_self (List.getElem?_eq_some_iff.mp hi).1
    exact Option.some.inj (h.symm.trans hself)
  · exact .inr ⟨hij, (List.getElem?_set_ne hij).symm.trans h⟩

theorem getElem?_moved_self (hi : calls[i]? = some call) :
    (calls.set i call')[i]? = some call' :=
  List.getElem?_set_self (List.getElem?_eq_some_iff.mp hi).1

/-- A call that is there after one has come in is the new one, or was there
before. -/
theorem getElem?_joined (h : (calls ++ [call])[j]? = some call₀) :
    calls[j]? = some call₀ ∨ j = calls.length ∧ call₀ = call := by
  rcases Nat.lt_or_ge j calls.length with hlt | hge
  · exact .inl ((List.getElem?_append_left hlt).symm.trans h)
  · rw [List.getElem?_append_right hge] at h
    have hzero : j - calls.length = 0 := by
      have hlt := (List.getElem?_eq_some_iff.mp h).1
      simp only [List.length_singleton] at hlt
      omega
    rw [hzero] at h
    exact .inr ⟨by omega, (Option.some.inj h).symm⟩

theorem getElem?_joined_old (h : calls[j]? = some call₀) : (calls ++ [call])[j]? = some call₀ := by
  rw [List.getElem?_append_left (List.getElem?_eq_some_iff.mp h).1]
  exact h

/-- Another call than the one that moved stays where it was. -/
theorem mem_moved (hi : calls[i]? = some call) (hne : call ≠ call₀) (h : call₀ ∈ calls) :
    call₀ ∈ calls.set i call' := by
  obtain ⟨j, hj⟩ := List.getElem?_of_mem h
  have hij : i ≠ j := by
    rintro rfl
    exact hne (Option.some.inj (hi.symm.trans hj))
  exact List.mem_of_getElem? ((List.getElem?_set_ne hij).trans hj)

/-- A move changes how many calls are of a kind by the one that moved. -/
theorem countP_moved (kind : Call → Bool) (hi : calls[i]? = some call) (call' : Call) :
    (calls.set i call').countP kind + (kind call).toNat =
      calls.countP kind + (kind call').toNat := by
  obtain ⟨hlt, rfl⟩ := List.getElem?_eq_some_iff.mp hi
  have hpos : kind calls[i] = true → 0 < calls.countP kind := fun h =>
    List.countP_pos_iff.mpr ⟨_, List.getElem_mem hlt, h⟩
  rw [List.countP_set hlt]
  cases hold : kind calls[i] with
  | false => cases kind call' <;> simp
  | true =>
    have hone : 0 < calls.countP kind := hpos hold
    cases kind call' <;> simp <;> omega

/-! ## A lock -/

/-- The lock is held by the call that is inside, if any is. -/
def Excludes (inside : Call → Bool) (calls : List Call) (lock : Option ℕ) : Prop :=
  ∀ i, calls[i]?.any inside = true ↔ lock = some i

namespace Excludes

variable {inside : Call → Bool} {lock : Option ℕ}

theorem nil : Excludes inside [] none := fun i => by simp

/-- No two calls are inside. -/
theorem eq_of_inside (h : Excludes inside calls lock) (hi : calls[i]? = some call)
    (hin : inside call = true) (hj : calls[j]? = some call₀) (hin₀ : inside call₀ = true) :
    i = j := by
  have hlock : lock = some i := (h i).mp (by simp [hi, hin])
  have hlock₀ : lock = some j := (h j).mp (by simp [hj, hin₀])
  exact Option.some.inj (hlock.symm.trans hlock₀)

theorem move (h : Excludes inside calls lock) (hi : calls[i]? = some call)
    (hsame : inside call' = inside call) : Excludes inside (calls.set i call') lock := by
  intro j
  rw [← h j]
  rcases eq_or_ne i j with rfl | hij
  · rw [getElem?_moved_self hi, hi, Option.any_some, Option.any_some, hsame]
  · rw [List.getElem?_set_ne hij]

/-- A call takes the lock, which is free. -/
theorem enter (h : Excludes inside calls none) (hi : calls[i]? = some call)
    (hin : inside call' = true) : Excludes inside (calls.set i call') (some i) := by
  intro j
  rcases eq_or_ne i j with rfl | hij
  · simp [getElem?_moved_self hi, hin]
  · rw [List.getElem?_set_ne hij, h j]
    simp [hij]

/-- The call inside lets the lock go. -/
theorem leave (h : Excludes inside calls lock) (hi : calls[i]? = some call)
    (hin : inside call = true) (hout : inside call' = false) :
    Excludes inside (calls.set i call') none := by
  intro j
  refine iff_of_false (fun hj => ?_) (by simp)
  rcases eq_or_ne i j with rfl | hij
  · simp [getElem?_moved_self hi, hout] at hj
  · rw [List.getElem?_set_ne hij] at hj
    obtain ⟨call₀, hcall, hin₀⟩ := (Option.any_eq_true _ _).mp hj
    exact hij (h.eq_of_inside hi hin hcall hin₀)

theorem join (h : Excludes inside calls lock) (hout : inside call = false) :
    Excludes inside (calls ++ [call]) lock := by
  intro j
  rw [← h j]
  rcases Nat.lt_or_ge j calls.length with hlt | hge
  · rw [List.getElem?_append_left hlt]
  · rw [List.getElem?_append_right hge, List.getElem?_eq_none hge]
    cases j - calls.length <;> simp [hout]

end Excludes

/-! ## A resource of one's own -/

/-- What the calls have is below the bound, and no two have the same. -/
structure Owns (has : Call → Option ℕ) (calls : List Call) (bound : ℕ) : Prop where
  lt : ∀ (i : ℕ) call r, calls[i]? = some call → has call = some r → r < bound
  eq : ∀ (i j : ℕ) call call' r, calls[i]? = some call → calls[j]? = some call' →
    has call = some r → has call' = some r → i = j

namespace Owns

variable {has : Call → Option ℕ} {bound : ℕ}

theorem nil (bound : ℕ) : Owns has [] bound where
  lt i call r h := by simp at h
  eq i j call call' r h := by simp at h

/-- A call keeps what it has, or gives it away. -/
theorem move (h : Owns has calls bound) (hi : calls[i]? = some call)
    (hhas : ∀ r, has call' = some r → has call = some r) : Owns has (calls.set i call') bound := by
  have hback : ∀ (j : ℕ) call₀ r, (calls.set i call')[j]? = some call₀ → has call₀ = some r →
      ∃ call₁, calls[j]? = some call₁ ∧ has call₁ = some r := by
    intro j call₀ r hj hr
    rcases getElem?_moved hi hj with ⟨rfl, rfl⟩ | ⟨-, hold⟩
    · exact ⟨call, hi, hhas r hr⟩
    · exact ⟨call₀, hold, hr⟩
  constructor
  · intro j call₀ r hj hr
    obtain ⟨call₁, hcall, hhad⟩ := hback j call₀ r hj hr
    exact h.lt j call₁ r hcall hhad
  · intro j k call₀ call₁ r hj hk hr hr'
    obtain ⟨call₂, hcall, hhad⟩ := hback j call₀ r hj hr
    obtain ⟨call₃, hcall', hhad'⟩ := hback k call₁ r hk hr'
    exact h.eq j k call₂ call₃ r hcall hcall' hhad hhad'

/-- A call is handed the next one. -/
theorem take (h : Owns has calls bound) (hi : calls[i]? = some call)
    (hhas : has call' = some bound) : Owns has (calls.set i call') (bound + 1) := by
  constructor
  · intro j call₀ r hj hr
    rcases getElem?_moved hi hj with ⟨-, rfl⟩ | ⟨-, hold⟩
    · rw [← Option.some.inj (hhas.symm.trans hr)]
      exact Nat.lt_succ_self bound
    · exact Nat.lt_succ_of_lt (h.lt j call₀ r hold hr)
  · intro j k call₀ call₁ r hj hk hr hr'
    rcases getElem?_moved hi hj with ⟨rfl, rfl⟩ | ⟨-, hold⟩ <;>
      rcases getElem?_moved hi hk with ⟨rfl, rfl⟩ | ⟨-, hold'⟩
    · rfl
    · have hlt := h.lt k call₁ r hold' hr'
      rw [← Option.some.inj (hhas.symm.trans hr)] at hlt
      exact absurd hlt (Nat.lt_irrefl bound)
    · have hlt := h.lt j call₀ r hold hr
      rw [← Option.some.inj (hhas.symm.trans hr')] at hlt
      exact absurd hlt (Nat.lt_irrefl bound)
    · exact h.eq j k call₀ call₁ r hold hold' hr hr'

theorem join (h : Owns has calls bound) (hnone : has call = none) :
    Owns has (calls ++ [call]) bound := by
  have hold : ∀ (j : ℕ) call₀ r, (calls ++ [call])[j]? = some call₀ → has call₀ = some r →
      calls[j]? = some call₀ := by
    intro j call₀ r hj hr
    rcases getElem?_joined hj with hold | ⟨-, rfl⟩
    · exact hold
    · rw [hnone] at hr
      cases hr
  constructor
  · exact fun j call₀ r hj hr => h.lt j call₀ r (hold j call₀ r hj hr) hr
  · intro j k call₀ call₁ r hj hk hr hr'
    exact h.eq j k call₀ call₁ r (hold j call₀ r hj hr) (hold k call₁ r hk hr') hr hr'

end Owns

end Congine
