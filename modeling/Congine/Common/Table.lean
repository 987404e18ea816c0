import Mathlib.Algebra.BigOperators.Group.List.Basic
import Mathlib.Algebra.GroupWithZero.Nat
import Mathlib.Data.List.Nodup
/-!
# Tables

A list as a table of numbered entries, one entry replaced at a time. What a
table adds up to changes by what the entry does.
-/

namespace Congine

variable {α : Type*}

/-- **A sum over a table changes by the one entry.** -/
theorem sum_map_set (f : α → ℕ) {l : List α} {i : ℕ} {a : α} (h : l[i]? = some a) (a' : α) :
    ((l.set i a').map f).sum + f a = (l.map f).sum + f a' := by
  induction l generalizing i with
  | nil => cases h
  | cons x l ih =>
    rcases i with _ | i
    · obtain rfl : x = a := by simpa using h
      simp only [List.set_cons_zero, List.map_cons, List.sum_cons]
      omega
    · have hrest := ih (i := i) (by simpa using h)
      simp only [List.set_cons_succ, List.map_cons, List.sum_cons]
      omega

/-- Two counts together, entry by entry. -/
theorem countP_add_countP_le {p q : α → Bool} {f : α → ℕ} {l : List α}
    (h : ∀ a ∈ l, (if p a then 1 else 0) + (if q a then 1 else 0) ≤ f a) :
    l.countP p + l.countP q ≤ (l.map f).sum := by
  induction l with
  | nil => exact Nat.le_refl 0
  | cons x l ih =>
    have hx := h x List.mem_cons_self
    have hrest := ih fun a ha => h a (List.mem_cons_of_mem x ha)
    rw [List.countP_cons, List.countP_cons, List.map_cons, List.sum_cons]
    omega

/-- What every entry satisfies, and the new one does. -/
theorem forall_mem_set {P : α → Prop} {l : List α} (h : ∀ a ∈ l, P a) {a' : α} (ha' : P a')
    (i : ℕ) : ∀ a ∈ l.set i a', P a := by
  intro a ha
  rcases List.mem_or_eq_of_mem_set ha with hl | rfl
  · exact h a hl
  · exact ha'

/-- Distinct numbers of entries of a kind are no more than the entries of it. -/
theorem length_le_countP {p : α → Bool} {l : List α} {is : List ℕ} (hnodup : is.Nodup)
    (h : ∀ i ∈ is, ∃ a, l[i]? = some a ∧ p a = true) : is.length ≤ l.countP p := by
  induction l generalizing is with
  | nil =>
    rcases is with _ | ⟨i, is⟩
    · exact Nat.le_refl 0
    · obtain ⟨a, ha, -⟩ := h i List.mem_cons_self
      cases ha
  | cons x l ih =>
    -- The numbers but zero, read as numbers of the rest.
    have hrest : ((is.filter (· ≠ 0)).map (· - 1)).length ≤ l.countP p := by
      refine ih ?_ fun j hj => ?_
      · refine List.Nodup.map_on ?_ (hnodup.filter _)
        intro i hi j hj hij
        have hi' : i ≠ 0 := by simpa using (List.mem_filter.mp hi).2
        have hj' : j ≠ 0 := by simpa using (List.mem_filter.mp hj).2
        omega
      · obtain ⟨i, hi, rfl⟩ := List.mem_map.mp hj
        obtain ⟨hmem, hne⟩ := List.mem_filter.mp hi
        obtain ⟨a, ha, hp⟩ := h i hmem
        have hpos : i ≠ 0 := by simpa using hne
        obtain ⟨k, rfl⟩ := Nat.exists_eq_succ_of_ne_zero hpos
        exact ⟨a, by simpa using ha, hp⟩
    rw [List.length_map] at hrest
    have hsplit : is.length = (is.filter (· ≠ 0)).length + is.count 0 := by
      rw [List.length_eq_countP_add_countP (p := (· ≠ 0)) (l := is), List.countP_eq_length_filter]
      congr 1
      rw [List.count]
      refine List.countP_congr fun i _ => ?_
      simp
    have hzero := List.nodup_iff_count_le_one.mp hnodup 0
    rw [List.countP_cons]
    by_cases hmem : 0 ∈ is
    · obtain ⟨a, ha, hp⟩ := h 0 hmem
      obtain rfl : x = a := by simpa using ha
      rw [if_pos hp]
      omega
    · have := List.count_eq_zero.mpr hmem
      omega

end Congine
