import Mathlib.Data.List.TakeWhile
import Mathlib.Tactic.Common
/-!
# Cutting a list

A list is cut at the first element of a kind, or after the last occurrence
of a separator. Either cut is the only one of its shape, so what a reader
that cuts finds is what a writer put there.
-/

namespace Congine

variable {α : Type*}

/-! ## At the first of a kind -/

/-- What stands before the first element of a kind, all of it where there
is none. -/
def upTo (stop : α → Bool) (xs : List α) : List α := xs.takeWhile fun x => !stop x

/-- What is left of a list from the first element of a kind on. -/
def onFrom (stop : α → Bool) (xs : List α) : List α := xs.dropWhile fun x => !stop x

/-- The list is empty or begins with an element of a kind. -/
def Stops (stop : α → Bool) : List α → Prop
  | [] => True
  | x :: _ => stop x = true

variable {stop : α → Bool} {xs ys zs : List α}

theorem stops_iff : Stops stop xs ↔ xs.head?.all stop = true := by
  cases xs with
  | nil => exact iff_of_true trivial rfl
  | cons x xs => exact Iff.rfl

theorem upTo_append_onFrom (stop : α → Bool) (xs : List α) : upTo stop xs ++ onFrom stop xs = xs :=
  List.takeWhile_append_dropWhile

theorem stop_of_mem_upTo {x : α} (h : x ∈ upTo stop xs) : stop x = false := by
  have := List.mem_takeWhile_imp h
  simpa using this

theorem stops_onFrom (stop : α → Bool) (xs : List α) : Stops stop (onFrom stop xs) := by
  induction xs with
  | nil => trivial
  | cons x xs ih =>
    by_cases hx : stop x = true
    · simp [onFrom, Stops, hx]
    · simpa [onFrom, hx] using ih

/-- **There is one cut at the first of a kind.** -/
theorem upTo_append (hxs : ∀ x ∈ xs, stop x = false) (hys : Stops stop ys) :
    upTo stop (xs ++ ys) = xs ∧ onFrom stop (xs ++ ys) = ys := by
  induction xs with
  | nil =>
    cases ys with
    | nil => exact ⟨rfl, rfl⟩
    | cons y ys =>
      have hy : stop y = true := hys
      simp [upTo, onFrom, hy]
  | cons x xs ih =>
    obtain ⟨hx, hxs⟩ := List.forall_mem_cons.mp hxs
    obtain ⟨hup, hon⟩ := ih hxs
    simp only [upTo, onFrom] at hup hon
    simp [upTo, onFrom, hx, hup, hon]

theorem upTo_eq_self (h : ∀ x ∈ xs, stop x = false) : upTo stop xs = xs := by
  have hcut := (upTo_append h (show Stops stop [] from trivial)).1
  rwa [List.append_nil] at hcut

/-! ## At the first separator -/

variable [DecidableEq α]

/-- What stands after the first separator, nothing where there is none. -/
def pastFirst (sep : α) (xs : List α) : List α := (onFrom (· = sep) xs).tail

variable {sep : α}

theorem notMem_upTo (sep : α) (xs : List α) : sep ∉ upTo (· = sep) xs := by
  intro h
  simpa using stop_of_mem_upTo h

theorem upTo_sep_append (h : sep ∉ xs) (ys : List α) :
    upTo (· = sep) (xs ++ sep :: ys) = xs ∧ pastFirst sep (xs ++ sep :: ys) = ys := by
  have hclear : ∀ x ∈ xs, (decide (x = sep)) = false := by
    intro x hx
    exact decide_eq_false fun heq => h (heq ▸ hx)
  have hstops : Stops (fun x => decide (x = sep)) (sep :: ys) := by simp [Stops]
  obtain ⟨hup, hon⟩ := upTo_append hclear hstops
  exact ⟨hup, by rw [pastFirst, hon]; rfl⟩

theorem upTo_sep_eq_self (h : sep ∉ xs) : upTo (· = sep) xs = xs :=
  upTo_eq_self fun _ hx => decide_eq_false fun heq => h (heq ▸ hx)

/-- **A list with a separator is its part before, the separator, and its
part after.** -/
theorem upTo_sep_of_mem (h : sep ∈ xs) :
    xs = upTo (· = sep) xs ++ sep :: pastFirst sep xs := by
  have hsplit := upTo_append_onFrom (· = sep) xs
  have hstops := stops_onFrom (fun x => decide (x = sep)) xs
  rcases hon : onFrom (fun x => decide (x = sep)) xs with _ | ⟨x, ys⟩
  · rw [hon, List.append_nil] at hsplit
    have hclear := notMem_upTo sep xs
    rw [hsplit] at hclear
    exact absurd h hclear
  · rw [hon] at hstops
    obtain rfl : x = sep := by simpa [Stops] using hstops
    rw [pastFirst, hon, List.tail_cons, ← hon]
    exact hsplit.symm

/-! ## After the last separator -/

/-- What stands after the last separator, all of it where there is none. -/
def pastLast (sep : α) (xs : List α) : List α := (upTo (· = sep) xs.reverse).reverse

/-- **There is one cut after the last separator.** -/
theorem pastLast_iff {sep : α} {ys zs : List α} :
    pastLast sep zs = ys ↔
      sep ∉ ys ∧ ∃ xs, zs = xs ++ ys ∧ (xs = [] ∨ ∃ front, xs = front ++ [sep]) := by
  constructor
  · rintro rfl
    refine ⟨fun h => notMem_upTo sep zs.reverse (List.mem_reverse.mp h), ?_⟩
    by_cases hmem : sep ∈ zs
    · have hcut := upTo_sep_of_mem (List.mem_reverse.mpr hmem)
      refine ⟨(pastFirst sep zs.reverse).reverse ++ [sep], ?_, .inr ⟨_, rfl⟩⟩
      rw [pastLast, ← List.reverse_cons, ← List.reverse_append, ← hcut, List.reverse_reverse]
    · refine ⟨[], ?_, .inl rfl⟩
      rw [pastLast, upTo_sep_eq_self (fun h => hmem (List.mem_reverse.mp h)),
        List.reverse_reverse, List.nil_append]
  · rintro ⟨hys, xs, rfl, rfl | ⟨front, rfl⟩⟩
    · rw [List.nil_append, pastLast, upTo_sep_eq_self fun h => hys (List.mem_reverse.mp h),
        List.reverse_reverse]
    · have hrev : (front ++ [sep] ++ ys).reverse = ys.reverse ++ sep :: front.reverse := by simp
      rw [pastLast, hrev, (upTo_sep_append (fun h => hys (List.mem_reverse.mp h)) _).1,
        List.reverse_reverse]

end Congine
