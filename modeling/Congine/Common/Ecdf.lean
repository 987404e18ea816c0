import Mathlib.Algebra.Order.Field.Basic
import Mathlib.Data.Finset.Max
import Mathlib.Order.Bounds.Basic
import Mathlib.Algebra.Order.Group.Abs
import Mathlib.Tactic.Linarith
/-!
# Empirical distribution functions

The empirical distribution function of a sample is the share of it at or
below a point. It changes only at points of the sample, so the distance
of two of them has its supremum at a point of one of the samples.
-/

namespace Congine

variable {α R : Type*} [LinearOrder α] [Field R]
variable {xs ys xs' ys' : List α} {x m : α}

/-- The share of a sample at or below a point. -/
def ecdf (R : Type*) [Field R] (xs : List α) (x : α) : R :=
  (xs.countP fun a => a ≤ x : ℕ) / (xs.length : ℕ)

theorem ecdf_perm (h : xs.Perm xs') (x : α) : ecdf R xs x = ecdf R xs' x := by
  rw [ecdf, ecdf, h.countP_eq, h.length_eq]

/-- **Nothing changes between two points of the sample.** -/
theorem ecdf_eq_of_gap (h : ∀ a ∈ xs, a ≤ x ↔ a ≤ m) : ecdf R xs x = ecdf R xs m := by
  have hcount : (xs.countP fun a => a ≤ x) = xs.countP fun a => a ≤ m :=
    List.countP_congr fun a ha => by simpa using h a ha
  rw [ecdf, ecdf, hcount]

theorem ecdf_eq_zero (h : ∀ a ∈ xs, ¬ a ≤ x) : ecdf R xs x = 0 := by
  have hcount : (xs.countP fun a => a ≤ x) = 0 :=
    List.countP_eq_zero.mpr fun a ha => by simpa using h a ha
  rw [ecdf, hcount, Nat.cast_zero, zero_div]

variable [LinearOrder R]

/-- How far two samples are apart at a point. -/
def ecdfDistance (R : Type*) [Field R] [LinearOrder R] (xs ys : List α) (x : α) : R :=
  |ecdf R xs x - ecdf R ys x|

theorem ecdfDistance_perm (hx : xs.Perm xs') (hy : ys.Perm ys') (x : α) :
    ecdfDistance R xs ys x = ecdfDistance R xs' ys' x := by
  rw [ecdfDistance, ecdfDistance, ecdf_perm hx, ecdf_perm hy]

theorem ecdfDistance_comm (xs ys : List α) (x : α) :
    ecdfDistance R xs ys x = ecdfDistance R ys xs x := abs_sub_comm _ _

variable [IsStrictOrderedRing R]

theorem ecdf_nonneg (xs : List α) (x : α) : 0 ≤ ecdf R xs x :=
  div_nonneg (Nat.cast_nonneg _) (Nat.cast_nonneg _)

theorem ecdf_le_one (xs : List α) (x : α) : ecdf R xs x ≤ 1 := by
  refine div_le_one_of_le₀ ?_ (Nat.cast_nonneg _)
  exact_mod_cast List.countP_le_length

theorem ecdfDistance_le_one (xs ys : List α) (x : α) : ecdfDistance R xs ys x ≤ 1 := by
  have hx := ecdf_nonneg (R := R) xs x
  have hy := ecdf_nonneg (R := R) ys x
  have hx' := ecdf_le_one (R := R) xs x
  have hy' := ecdf_le_one (R := R) ys x
  exact abs_sub_le_iff.mpr ⟨by linarith, by linarith⟩

/-! ## The supremum -/

/-- The last point of a sample at or below `x`, where there is one. -/
theorem exists_last_le {merged : List α} (h : ∃ a ∈ merged, a ≤ x) :
    ∃ m ∈ merged, m ≤ x ∧ ∀ a ∈ merged, a ≤ x → a ≤ m := by
  obtain ⟨a, ha, hax⟩ := h
  have hne : (merged.toFinset.filter (· ≤ x)).Nonempty :=
    ⟨a, Finset.mem_filter.mpr ⟨List.mem_toFinset.mpr ha, hax⟩⟩
  obtain ⟨m, hm, hmax⟩ := Finset.exists_max_image _ id hne
  obtain ⟨hmem, hmx⟩ := Finset.mem_filter.mp hm
  exact ⟨m, List.mem_toFinset.mp hmem, hmx, fun b hb hbx =>
    hmax b (Finset.mem_filter.mpr ⟨List.mem_toFinset.mpr hb, hbx⟩)⟩

/-- Away from the points of both samples the distance is zero, or what it
is at one of them. -/
theorem ecdfDistance_eq_or (xs ys : List α) (x : α) :
    ecdfDistance R xs ys x = 0 ∨
      ∃ m ∈ xs ++ ys, ecdfDistance R xs ys x = ecdfDistance R xs ys m := by
  by_cases h : ∃ a ∈ xs ++ ys, a ≤ x
  · right
    obtain ⟨m, hm, hmx, hlast⟩ := exists_last_le h
    have hgap : ∀ a ∈ xs ++ ys, a ≤ x ↔ a ≤ m :=
      fun a ha => ⟨hlast a ha, fun ham => ham.trans hmx⟩
    refine ⟨m, hm, ?_⟩
    rw [ecdfDistance, ecdfDistance,
      ecdf_eq_of_gap fun a ha => hgap a (List.mem_append_left ys ha),
      ecdf_eq_of_gap fun a ha => hgap a (List.mem_append_right xs ha)]
  · left
    push Not at h
    have hnone : ∀ a ∈ xs ++ ys, ¬ a ≤ x := fun a ha => not_le.mpr (h a ha)
    rw [ecdfDistance, ecdf_eq_zero fun a ha => hnone a (List.mem_append_left ys ha),
      ecdf_eq_zero fun a ha => hnone a (List.mem_append_right xs ha), sub_zero, abs_zero]

/-- **The greatest distance at a point of the samples is the supremum of
all of them.** -/
theorem isLUB_ecdfDistance {d : R} (hmem : ∃ m ∈ xs ++ ys, ecdfDistance R xs ys m = d)
    (hmax : ∀ m ∈ xs ++ ys, ecdfDistance R xs ys m ≤ d) :
    IsLUB (Set.range (ecdfDistance R xs ys)) d := by
  obtain ⟨m, -, hm⟩ := hmem
  constructor
  · rintro _ ⟨x, rfl⟩
    rcases ecdfDistance_eq_or (R := R) xs ys x with hzero | ⟨m', hm', heq⟩
    · rw [hzero, ← hm]
      exact abs_nonneg _
    · rw [heq]
      exact hmax m' hm'
  · intro bound hbound
    rw [← hm]
    exact hbound ⟨m, rfl⟩

end Congine
