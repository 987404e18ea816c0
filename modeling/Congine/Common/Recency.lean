import Mathlib.Data.Finset.Dedup
import Mathlib.Data.Finset.Card
import Mathlib.Data.List.TakeWhile
/-!
# Recency

A history is a list of touches, the oldest first. `recency` lists what has
been touched, each thing once and the one touched last at the front: the
order of the latest touches. Cut off after `capacity` places it is what a
cache holds that gives up, when it is full, the thing not touched for
longest; `refresh` is one touch of such a cache, and a thing is held
exactly while fewer than `capacity` others have been touched since.
-/

namespace Congine

variable {α : Type*} [DecidableEq α] {history : List α} {a b x : α}

/-- What has been touched, from the latest to the earliest. -/
def recency (history : List α) : List α := history.dedup.reverse

/-- How many touches ago the latest one was. -/
def age (history : List α) (a : α) : ℕ := history.reverse.idxOf a

/-- The touches since the latest one of `a`, the newest first. -/
def touchedSince (history : List α) (a : α) : List α := history.reverse.takeWhile (· ≠ a)

/-- One touch of a bounded recency list. -/
def refresh (capacity : ℕ) (a : α) (held : List α) : List α :=
  a :: (held.erase a).take (capacity - 1)

/-! ## The order of the latest touches -/

@[simp] theorem mem_recency : a ∈ recency history ↔ a ∈ history := by
  simp [recency]

theorem nodup_recency (history : List α) : (recency history).Nodup :=
  List.nodup_reverse.mpr (List.nodup_dedup history)

theorem dedup_concat (history : List α) (x : α) :
    (history ++ [x]).dedup = history.dedup.erase x ++ [x] := by
  induction history with
  | nil => rfl
  | cons a history ih =>
    rw [List.cons_append]
    rcases eq_or_ne a x with rfl | hne
    · -- An earlier touch of what is touched now no longer counts.
      rw [List.dedup_cons_of_mem (by simp), ih]
      by_cases hmem : a ∈ history
      · rw [List.dedup_cons_of_mem hmem]
      · rw [List.dedup_cons_of_notMem hmem, List.erase_cons_head, List.erase_of_not_mem (by simpa)]
    · by_cases hmem : a ∈ history
      · rw [List.dedup_cons_of_mem (by simp [hmem]), List.dedup_cons_of_mem hmem, ih]
      · rw [List.dedup_cons_of_notMem (by simp [hmem, hne]), List.dedup_cons_of_notMem hmem,
          List.erase_cons_tail (by simpa using hne), ih, List.cons_append]

theorem reverse_erase_of_nodup {held : List α} (h : held.Nodup) (x : α) :
    (held.erase x).reverse = held.reverse.erase x := by
  rw [h.erase_eq_filter, (List.nodup_reverse.mpr h).erase_eq_filter, List.filter_reverse]

/-- **A touch moves what it touches to the front**, and nothing else. -/
theorem recency_concat (history : List α) (x : α) :
    recency (history ++ [x]) = x :: (recency history).erase x := by
  rw [recency, recency, dedup_concat, List.reverse_append, List.reverse_singleton,
    List.singleton_append, reverse_erase_of_nodup (List.nodup_dedup history)]

theorem age_concat_self (history : List α) (x : α) : age (history ++ [x]) x = 0 := by
  simp [age]

theorem age_concat_of_ne (h : a ≠ x) : age (history ++ [x]) a = age history a + 1 := by
  rw [age, age, List.reverse_append, List.reverse_singleton, List.singleton_append,
    List.idxOf_cons_ne _ h.symm]

/-- **The recency list is in the order of the latest touches.** -/
theorem recency_pairwise_age (history : List α) :
    (recency history).Pairwise fun a b => age history a < age history b := by
  induction history using List.reverseRecOn with
  | nil => exact List.Pairwise.nil
  | append_singleton history x ih =>
    rw [recency_concat]
    have hne : ∀ b ∈ (recency history).erase x, b ≠ x := by
      intro b hb
      exact ((nodup_recency history).mem_erase_iff.mp hb).1
    refine List.pairwise_cons.mpr ⟨fun b hb => ?_, ?_⟩
    · rw [age_concat_self, age_concat_of_ne (hne b hb)]
      omega
    · refine (ih.sublist List.erase_sublist).imp_of_mem fun ha hb hlt => ?_
      rw [age_concat_of_ne (hne _ ha), age_concat_of_ne (hne _ hb)]
      omega

/-! ## What a bounded list holds -/

/-- **A bounded recency list stays one** from touch to touch. -/
theorem refresh_take_recency {capacity : ℕ} (h : 0 < capacity) (history : List α) (x : α) :
    refresh capacity x ((recency history).take capacity) =
      (recency (history ++ [x])).take capacity := by
  obtain ⟨n, rfl⟩ := Nat.exists_eq_succ_of_ne_zero h.ne'
  rw [refresh, recency_concat, List.take_succ_cons, Nat.succ_sub_one]
  congr 1
  have hnodup := nodup_recency history
  generalize recency history = held at hnodup
  clear h
  induction held generalizing n with
  | nil => rfl
  | cons a held ih =>
    obtain ⟨-, hrest⟩ := List.nodup_cons.mp hnodup
    rcases eq_or_ne a x with rfl | hne
    · rw [List.take_succ_cons, List.erase_cons_head, List.erase_cons_head, List.take_take,
        min_self]
    · rw [List.take_succ_cons, List.erase_cons_tail (by simpa using hne),
        List.erase_cons_tail (by simpa using hne)]
      rcases n with _ | n
      · rfl
      · rw [List.take_succ_cons, List.take_succ_cons, ih n hrest]

theorem refresh_eq_take {capacity : ℕ} (h : 0 < capacity) (a : α) (held : List α) :
    refresh capacity a held = (a :: held.erase a).take capacity := by
  obtain ⟨n, rfl⟩ := Nat.exists_eq_succ_of_ne_zero h.ne'
  rfl

/-- Touching what is held lets nothing go. -/
theorem refresh_of_mem {capacity : ℕ} {held : List α} (h : held.length ≤ capacity)
    (ha : a ∈ held) : refresh capacity a held = a :: held.erase a := by
  have hlength := List.length_erase_of_mem ha
  rw [refresh, List.take_of_length_le (by omega)]

/-- Ahead of `a` the recency list has what was touched since. -/
theorem recency_eq_append (h : a ∈ history) :
    ∃ older, recency history = recency (touchedSince history a).reverse ++ a :: older := by
  obtain ⟨newer, earlier, hsplit, hnot⟩ :=
    List.eq_append_cons_of_mem (List.mem_reverse.mpr h)
  have hsince : touchedSince history a = newer := by
    rw [touchedSince, hsplit, List.takeWhile_append_of_pos]
    · simp
    · intro b hb
      exact decide_eq_true fun heq => hnot (heq ▸ hb)
  have hhistory : history = earlier.reverse ++ a :: newer.reverse := by
    rw [← List.reverse_reverse history, hsplit]
    simp
  have hdedup : (a :: newer.reverse).dedup = a :: newer.reverse.dedup :=
    List.dedup_cons_of_notMem (by simpa using hnot)
  obtain ⟨earliest, hearliest⟩ :=
    List.suffix_union_right earlier.reverse (a :: newer.reverse.dedup)
  refine ⟨earliest.reverse, ?_⟩
  rw [hsince, recency, recency, hhistory, List.dedup_append, hdedup, ← hearliest]
  simp

/-- **What a bounded recency list holds**: what has been touched, and fewer
than `capacity` others since. -/
theorem mem_take_recency_iff {capacity : ℕ} :
    a ∈ (recency history).take capacity ↔
      a ∈ history ∧ (touchedSince history a).toFinset.card < capacity := by
  by_cases h : a ∈ history
  · obtain ⟨older, heq⟩ := recency_eq_append h
    have hnot : a ∉ recency (touchedSince history a).reverse := by
      rw [mem_recency, List.mem_reverse]
      intro hmem
      simpa using List.mem_takeWhile_imp hmem
    have hlength : (recency (touchedSince history a).reverse).length =
        (touchedSince history a).toFinset.card := by
      rw [← List.toFinset_reverse, List.card_toFinset, recency, List.length_reverse]
    rw [List.mem_take_iff_idxOf_lt (mem_recency.mpr h), heq, List.idxOf_append_of_notMem hnot,
      List.idxOf_cons_self, hlength]
    simp [h]
  · simp only [h, false_and, iff_false]
    exact fun hmem => h (mem_recency.mp (List.mem_of_mem_take hmem))

end Congine
