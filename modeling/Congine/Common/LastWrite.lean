import Mathlib.Data.List.Basic
/-!
# The last write to a key

A log of writes, read back as the map it leaves: under each key the value
written last.
-/

namespace Congine

variable {κ α : Type*} [DecidableEq κ]

/-- The value a log leaves under a key. -/
def lastWrite (k : κ) (ws : List (κ × α)) : Option α := ws.reverse.lookup k

@[simp] theorem lastWrite_nil (k : κ) : lastWrite k ([] : List (κ × α)) = none := rfl

/-- **A later log shadows an earlier one** where it writes at all. -/
theorem lastWrite_append (k : κ) (ws vs : List (κ × α)) :
    lastWrite k (ws ++ vs) = (lastWrite k vs).or (lastWrite k ws) := by
  rw [lastWrite, List.reverse_append, List.lookup_append]
  rfl

@[simp] theorem lastWrite_concat_self (k : κ) (v : α) (ws : List (κ × α)) :
    lastWrite k (ws ++ [(k, v)]) = some v := by
  simp [lastWrite]

theorem lastWrite_concat_ne {k k' : κ} (h : k' ≠ k) (v : α) (ws : List (κ × α)) :
    lastWrite k' (ws ++ [(k, v)]) = lastWrite k' ws := by
  have hb : (k' == k) = false := by simpa using h
  rw [lastWrite, List.reverse_append, List.reverse_singleton, List.singleton_append,
    List.lookup_cons, hb]
  rfl

theorem lastWrite_cons (k : κ) (w : κ × α) (ws : List (κ × α)) :
    lastWrite k (w :: ws) = (lastWrite k ws).or (if k = w.1 then some w.2 else none) := by
  obtain ⟨k', v⟩ := w
  have hw : lastWrite k [(k', v)] = if k = k' then some v else none := by
    rw [lastWrite, List.reverse_singleton, List.lookup_cons]
    by_cases h : k = k'
    · simp [h]
    · simp [h, beq_eq_false_iff_ne.mpr h]
  rw [← List.singleton_append, lastWrite_append, hw]

theorem lastWrite_eq_none_iff {k : κ} {ws : List (κ × α)} :
    lastWrite k ws = none ↔ k ∉ ws.map Prod.fst := by
  simp only [lastWrite, List.lookup_eq_none_iff, List.mem_reverse, List.mem_map, not_exists,
    not_and, bne_iff_ne]
  exact ⟨fun h w hw hk => h w hw hk.symm, fun h w hw hk => h w hw hk.symm⟩

/-- The last write splits its log: none after it is to its key. -/
theorem lastWrite_eq_some_iff {k : κ} {v : α} {ws : List (κ × α)} :
    lastWrite k ws = some v ↔
      ∃ before after, ws = before ++ (k, v) :: after ∧ k ∉ after.map Prod.fst := by
  rw [lastWrite, List.lookup_eq_some_iff]
  constructor
  · rintro ⟨after, before, heq, hafter⟩
    refine ⟨before.reverse, after.reverse, ?_, fun hmem => ?_⟩
    · rw [← List.reverse_reverse ws, heq]
      simp
    · obtain ⟨w, hw, rfl⟩ := List.mem_map.mp hmem
      simpa using hafter w (List.mem_reverse.mp hw)
  · rintro ⟨before, after, rfl, hafter⟩
    refine ⟨after.reverse, before.reverse, by simp, fun w hw => bne_iff_ne.mpr ?_⟩
    rintro rfl
    exact hafter (List.mem_map_of_mem (List.mem_reverse.mp hw))

end Congine
