import Mathlib.Tactic.Common
/-!
# Runs of a system

A run takes one event after the other. What every step keeps, a run
keeps; a condition on the steps is met along a run when each step meets
it in the state it is taken in.
-/

namespace Congine

variable {Event State : Type*} (step : Event → State → State)

/-- The state after a list of events. -/
def run : List Event → State → State
  | [], s => s
  | e :: es, s => run es (step e s)

/-- Every step of a run meets a condition in the state it is taken in. -/
def Along (ok : Event → State → Prop) : List Event → State → Prop
  | [], _ => True
  | e :: es, s => ok e s ∧ Along ok es (step e s)

variable {step}

@[simp] theorem run_nil (s : State) : run step [] s = s := rfl

@[simp] theorem run_cons (e : Event) (es : List Event) (s : State) :
    run step (e :: es) s = run step es (step e s) := rfl

theorem run_append (es es' : List Event) (s : State) :
    run step (es ++ es') s = run step es' (run step es s) := by
  induction es generalizing s with
  | nil => rfl
  | cons e es ih => exact ih (step e s)

theorem run_concat (es : List Event) (e : Event) (s : State) :
    run step (es ++ [e]) s = step e (run step es s) := by
  rw [run_append]
  rfl

/-- **What the steps of a run keep, the run keeps.** -/
theorem run_invariant {inv : State → Prop} {ok : Event → State → Prop}
    (hstep : ∀ e s, ok e s → inv s → inv (step e s)) {es : List Event} {s : State}
    (hok : Along step ok es s) (hs : inv s) : inv (run step es s) := by
  induction es generalizing s with
  | nil => exact hs
  | cons e es ih =>
    obtain ⟨he, hes⟩ := hok
    exact ih hes (hstep e s he hs)

/-- Under an invariant, a condition met along a run implies what it
implies of each step. -/
theorem along_of_invariant {inv : State → Prop} {ok P : Event → State → Prop}
    (hstep : ∀ e s, ok e s → inv s → inv (step e s)) (hP : ∀ e s, ok e s → inv s → P e s)
    {es : List Event} {s : State} (hok : Along step ok es s) (hs : inv s) : Along step P es s := by
  induction es generalizing s with
  | nil => trivial
  | cons e es ih =>
    obtain ⟨he, hes⟩ := hok
    exact ⟨hP e s he hs, ih hes (hstep e s he hs)⟩

/-- What every step keeps, whatever the event, holds along every run. -/
theorem along_of_kept {inv : State → Prop} {P : Event → State → Prop}
    (hstep : ∀ e s, inv s → inv (step e s)) (hP : ∀ e s, inv s → P e s) {s : State} (hs : inv s)
    (es : List Event) : inv (run step es s) ∧ Along step P es s := by
  induction es generalizing s with
  | nil => exact ⟨hs, trivial⟩
  | cons e es ih =>
    obtain ⟨hrun, halong⟩ := ih (hstep e s hs)
    exact ⟨hrun, hP e s hs, halong⟩

theorem run_of_kept {inv : State → Prop} (hstep : ∀ e s, inv s → inv (step e s)) {s : State}
    (hs : inv s) (es : List Event) : inv (run step es s) :=
  (along_of_kept hstep (fun _ _ => id) hs es).1

theorem along_mono {ok P : Event → State → Prop} (h : ∀ e s, ok e s → P e s)
    {es : List Event} {s : State} (hok : Along step ok es s) : Along step P es s :=
  along_of_invariant (fun _ _ _ _ => trivial) (fun e s he (_ : True) => h e s he) hok trivial

theorem along_of_forall {ok : Event → State → Prop} {es : List Event}
    (h : ∀ e ∈ es, ∀ s, ok e s) (s : State) : Along step ok es s := by
  induction es generalizing s with
  | nil => trivial
  | cons e es ih =>
    exact ⟨h e List.mem_cons_self s, ih (fun e' he' => h e' (List.mem_cons_of_mem _ he')) _⟩

/-- **A part of a system runs as it runs alone**, where each step of the
system is some steps of the part. -/
theorem run_project {Event' State' : Type*} {step' : Event' → State' → State'}
    (proj : State → State') (h : ∀ e s, ∃ es', proj (step e s) = run step' es' (proj s))
    (es : List Event) (s : State) : ∃ es', proj (run step es s) = run step' es' (proj s) := by
  induction es generalizing s with
  | nil => exact ⟨[], rfl⟩
  | cons e es ih =>
    obtain ⟨head, hhead⟩ := h e s
    obtain ⟨tail, htail⟩ := ih (step e s)
    refine ⟨head ++ tail, ?_⟩
    rw [run_cons, htail, hhead, run_append]

/-- A part that may be missing runs where it is there. -/
theorem run_option (es : List Event) (o : Option State) :
    run (fun e => Option.map (step e)) es o = o.map (run step es) := by
  induction es generalizing o with
  | nil => cases o <;> rfl
  | cons e es ih =>
    rw [run_cons, ih]
    cases o <;> rfl

/-! ## What a run has been through -/

/-- A predicate held at one moment of a run. -/
def Once (step : Event → State → State) (P : State → Prop) (es : List Event) (s : State) : Prop :=
  ∃ past, past <+: es ∧ P (run step past s)

theorem Once.now {P : State → Prop} {es : List Event} {s : State} (h : P (run step es s)) :
    Once step P es s := ⟨es, List.prefix_rfl, h⟩

theorem Once.later {P : State → Prop} {es : List Event} {s : State} (h : Once step P es s)
    (e : Event) : Once step P (es ++ [e]) s := by
  obtain ⟨past, hpast, hP⟩ := h
  exact ⟨past, hpast.trans (List.prefix_append es [e]), hP⟩

/-- An invariant may speak of the events so far. -/
theorem run_history {inv : List Event → State → Prop}
    (hstep : ∀ past e s, inv past s → inv (past ++ [e]) (step e s)) {past : List Event} {s : State}
    (hs : inv past s) (es : List Event) : inv (past ++ es) (run step es s) := by
  induction es generalizing past s with
  | nil =>
    rw [List.append_nil]
    exact hs
  | cons e es ih =>
    rw [← List.singleton_append, ← List.append_assoc]
    exact ih (hstep past e s hs)

/-! ## What a run may cost -/

/-- What the steps of a run cost together. -/
def charge (step : Event → State → State) (cost : Event → State → ℕ) : List Event → State → ℕ
  | [], _ => 0
  | e :: es, s => cost e s + charge step cost es (step e s)

@[simp] theorem charge_nil (cost : Event → State → ℕ) (s : State) : charge step cost [] s = 0 := rfl

@[simp] theorem charge_cons (cost : Event → State → ℕ) (e : Event) (es : List Event) (s : State) :
    charge step cost (e :: es) s = cost e s + charge step cost es (step e s) := rfl

/-- **A run costs no more than is saved up for it**, where each step is paid
from what it takes off the savings. -/
theorem charge_add_le {inv : State → Prop} {cost : Event → State → ℕ} {savings : State → ℕ}
    (hinv : ∀ e s, inv s → inv (step e s))
    (hpaid : ∀ e s, inv s → cost e s + savings (step e s) ≤ savings s) {s : State} (hs : inv s)
    (es : List Event) : charge step cost es s + savings (run step es s) ≤ savings s := by
  induction es generalizing s with
  | nil => simp
  | cons e es ih =>
    have hhead := hpaid e s hs
    have htail := ih (hinv e s hs)
    simp only [charge_cons, run_cons]
    omega

/-- A counter that each step advances by its cost reads what the run costs. -/
theorem run_counter {inv : State → Prop} {cost : Event → State → ℕ} {counter : State → ℕ}
    (hinv : ∀ e s, inv s → inv (step e s))
    (hstep : ∀ e s, inv s → counter (step e s) = counter s + cost e s) {s : State} (hs : inv s)
    (es : List Event) : counter (run step es s) = counter s + charge step cost es s := by
  induction es generalizing s with
  | nil => rfl
  | cons e es ih =>
    rw [run_cons, ih (hinv e s hs), hstep e s hs, charge_cons, Nat.add_assoc]

/-- **A quantity that only events of one kind raise, by one each**, is no more
than it was and what there were of them. -/
theorem run_le_countP {inv : State → Prop} {size : State → ℕ} {kind : Event → Bool}
    (hinv : ∀ e s, inv s → inv (step e s))
    (hstep : ∀ e s, inv s → size (step e s) ≤ size s + if kind e then 1 else 0) {s : State}
    (hs : inv s) (es : List Event) : size (run step es s) ≤ size s + es.countP kind := by
  induction es generalizing s with
  | nil => exact Nat.le_refl _
  | cons e es ih =>
    have hhead := hstep e s hs
    have htail := ih (hinv e s hs)
    rw [run_cons, List.countP_cons]
    omega

/-! ## The recent past -/

/-- The events since the last one of a kind, the newest first. -/
def sinceLast (kind : Event → Bool) (es : List Event) : List Event :=
  es.reverse.takeWhile fun e => !kind e

@[simp] theorem sinceLast_nil (kind : Event → Bool) : sinceLast kind [] = [] := rfl

@[simp] theorem sinceLast_concat (kind : Event → Bool) (es : List Event) (e : Event) :
    sinceLast kind (es ++ [e]) = if kind e then [] else e :: sinceLast kind es := by
  cases h : kind e <;> simp [sinceLast, h]

end Congine
