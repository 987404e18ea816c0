import Congine.Infrastructure.ExecutorBooks
/-!
# What a call is told

`LoadShedError` says that the function never executes, `TimeoutError` that
it began and overran its budget, and else a call ends in what its function
ended in. The first holds. The second fails of a call whose budget runs out
in the queue, and of a function that raises a `TimeoutError` of its own; the
third of an exception asyncio hands over as another.
-/

namespace Congine

variable {V : Type}

/-- What a call is told is so. Nothing is asked here of a call that found the
executor closed (`foundClosed_run` does), or whose caller was cancelled. -/
def Call.Truthful (now : ℚ) (c : Call V) : Prop :=
  match c.outcome with
  | some .loadShedError => c.began = false
  | some .timeoutError => c.began = true ∧ c.elapsed now = true
  | some (.delivered result) => c.result = some result
  | some .lifecycleError | some .cancelledError | none => True

namespace BoundedValidationExecutor

variable {convert : Exc → Option Exc} {s : BoundedValidationExecutor V} {i : ℕ} {c c' : Call V}
variable {e : Event V}

structure Told (c : Call V) : Prop where
  outcome_stage : c.outcome ≠ none → c.stage = .refused ∨ c.stage = .ended
  result_iff : c.result ≠ none ↔ c.future = some .finished
  cancelled_stage : c.future = some .cancelled → c.stage = .ended

theorem fire_told (c : Call V) :
    c.fire.future = c.future ∧ c.fire.result = c.result := by
  unfold Call.fire
  split <;> exact ⟨rfl, rfl⟩

theorem addDoneCallback_told (c : Call V) :
    c.addDoneCallback.future = c.future ∧ c.addDoneCallback.result = c.result := by
  unfold Call.addDoneCallback
  split <;> exact ⟨rfl, rfl⟩

theorem cancel_told (c : Call V) :
    (c.cancel.future = c.future ∨
        c.future = some .pending ∧ c.cancel.future = some .cancelled) ∧
      c.cancel.result = c.result := by
  unfold Call.cancel
  split
  · next hpending =>
    obtain ⟨hfuture, hresult⟩ := fire_told { c with future := some .cancelled }
    exact ⟨.inr ⟨hpending, hfuture⟩, hresult⟩
  · exact ⟨.inl rfl, rfl⟩

theorem told_fresh (hfresh : Fresh s c) : Told c := by
  cases hfresh with
  | acquired async timeoutMs hopen => exact ⟨fun h => absurd rfl h, by simp, fun h => by cases h⟩
  | shed async timeoutMs => exact ⟨fun _ => .inl rfl, by simp, fun h => by cases h⟩
  | refused async timeoutMs hclosed => exact ⟨fun _ => .inl rfl, by simp, fun h => by cases h⟩

/-- The end of a wait. -/
theorem Told.ended (hc : Told c)
    (hfuture : c'.future = c.future ∨
      c.future = some .pending ∧ c'.future = some .cancelled)
    (hresult : c'.result = c.result) (outcome : Option (Outcome V)) :
    Told { c' with stage := .ended, outcome } where
  outcome_stage _ := .inr rfl
  result_iff := by
    have hiff := hc.result_iff
    simp only [hresult]
    rcases hfuture with hsame | ⟨hpending, hcancelled⟩
    · rw [hsame]
      exact hiff
    · rw [hiff, hpending, hcancelled]
      simp
  cancelled_stage _ := rfl

theorem Told.of_change (hc : Told c) (hsound : c.Sound) (h : Change convert s i e c c') :
    Told c' := by
  have htold := hc
  obtain ⟨houtcome, hresult, hcancelled⟩ := hc
  -- Inside the lock nothing was told and nothing cancelled.
  have hinside : ∀ {stage : Stage} {outcome : Option (Outcome V)},
      c.stage ≠ .refused → c.stage ≠ .ended →
      (outcome = c.outcome ∨ stage = .refused) → Told { c with stage, outcome } := by
    intro stage outcome hrefused hended hnew
    refine ⟨fun h => ?_, hresult, fun h => absurd (hcancelled h) hended⟩
    rcases hnew with rfl | rfl
    · exact absurd (houtcome h) (by simp [hrefused, hended])
    · exact .inl rfl
  cases h with
  | counted hlock hstage => exact hinside (by simp [hstage]) (by simp [hstage]) (.inl rfl)
  | uncounted hlock hstage hclosed => exact hinside (by simp [hstage]) (by simp [hstage]) (.inl rfl)
  | restored hlock hstage => exact hinside (by simp [hstage]) (by simp [hstage]) (.inl rfl)
  | refused hlock hstage => exact hinside (by simp [hstage]) (by simp [hstage]) (.inr rfl)
  | submitted hlock hstage hqueue =>
    have hnone : c.future = none := hsound.future_iff.mpr (by rw [hstage]; rfl)
    refine ⟨fun h => by simpa [hstage] using houtcome h, ?_, fun h => by cases h⟩
    rw [hnone] at hresult
    simpa using hresult
  | registered hstage =>
    obtain ⟨hfuture, hresult'⟩ := addDoneCallback_told c
    refine ⟨fun h => ?_, by simp only [hfuture, hresult']; exact hresult, fun h => ?_⟩
    · simp only [addDoneCallback_outcome] at h
      simpa [hstage] using houtcome h
    · simp only [hfuture] at h
      simpa [hstage] using hcancelled h
  | started hqueue hpending =>
    refine ⟨houtcome, ?_, fun h => by cases h⟩
    rw [hpending] at hresult
    simpa using hresult
  | finished result hrunning =>
    obtain ⟨hfuture, hresult'⟩ := fire_told
      { c with future := some .finished, result := some result }
    refine ⟨fun h => ?_, by rw [hfuture, hresult']; simp, fun h => ?_⟩
    · rw [fire_outcome] at h
      rw [Call.fire_stage]
      exact houtcome h
    · rw [hfuture] at h
      cases h
  | countedOut hentering => exact ⟨houtcome, hresult, hcancelled⟩
  | released hleaving => exact ⟨houtcome, hresult, hcancelled⟩
  | timedOut hstage hsync hdone helapsed => exact htold.ended (.inl rfl) rfl _
  | timedOutAsync hstage hasync helapsed =>
    obtain ⟨hfuture, hresult'⟩ := cancel_told c
    exact htold.ended hfuture hresult' _
  | callerCancelled hstage hasync =>
    obtain ⟨hfuture, hresult'⟩ := cancel_told c
    exact htold.ended hfuture hresult' _
  | delivered result hstage hfinished hresult' => exact htold.ended (.inl rfl) rfl _

/-- What holds of every reachable state. -/
structure Inv (s : BoundedValidationExecutor V) : Prop where
  books : Books s
  shed : ShedRefused s
  told : ∀ (i : ℕ) (c : Call V), s.calls[i]? = some c → Told c

theorem Inv.of_step (convert : Exc → Option Exc) (e : Event V) (h : Inv s) :
    Inv (step convert e s) where
  books := h.books.of_step convert e
  shed := h.shed.of_step convert e h.books
  told i c' hi' := by
    rcases step_back convert e hi' with ⟨c, hi, rfl | hchange⟩ | ⟨-, hfresh⟩
    · exact h.told i c' hi
    · exact (h.told i c hi).of_change (h.books.sound_of hi) hchange
    · exact told_fresh hfresh

theorem inv_new (maxWorkers maxPending : ℕ) :
    Inv (new maxWorkers maxPending : BoundedValidationExecutor V) where
  books := books_new maxWorkers maxPending
  shed i c hi := by cases hi
  told i c hi := by cases hi

/-- **An outcome is final.** -/
theorem outcome_step (convert : Exc → Option Exc) (e : Event V) (h : Inv s)
    (hi : s.calls[i]? = some c) {outcome : Outcome V} (houtcome : c.outcome = some outcome) :
    ∃ c', (step convert e s).calls[i]? = some c' ∧ c'.outcome = some outcome := by
  obtain ⟨c', hi', rfl | hchange⟩ := step_get convert e hi
  · exact ⟨c', hi', houtcome⟩
  · refine ⟨c', hi', ?_⟩
    rcases hchange.outcome_eq with heq | ⟨hstage, -⟩
    · rw [heq, houtcome]
    · have hended := (h.told i c hi).outcome_stage (by rw [houtcome]; exact Option.some_ne_none _)
      rcases hstage with hstage | hstage <;> simp [hstage] at hended

/-- The call is told that the executor is closed, or leaves the lock to be
told so. -/
def Closed (c : Call V) : Prop :=
  c.outcome = some .lifecycleError ∨ c.stage = .uncounted ∨ c.stage = .restored

theorem elapsed_mono {now now' : ℚ} (h : now ≤ now') (helapsed : c.elapsed now = true) :
    c.elapsed now' = true := by
  simp only [Call.elapsed, decide_eq_true_eq] at helapsed ⊢
  exact le_trans helapsed h

/-- A call whose outcome stands stays truthful. -/
theorem Truthful.kept {now now' : ℚ} (hnow : now ≤ now') (h : c.Truthful now)
    (houtcome : c'.outcome = c.outcome) (hbegan : c.began = true → c'.began = true)
    (hshed : c.outcome = some .loadShedError → c' = c)
    (hwait : c'.waitFrom = c.waitFrom ∧ c'.timeoutMs = c.timeoutMs)
    (hresult : c.result ≠ none → c'.result = c.result) : c'.Truthful now' := by
  unfold Call.Truthful at h ⊢
  rw [houtcome]
  rcases hc : c.outcome with _ | ⟨result⟩ | _ | _ | _ | _
  all_goals simp only [hc] at h ⊢
  · rw [hresult (by rw [h]; exact Option.some_ne_none _), h]
  · refine ⟨hbegan h.1, ?_⟩
    have helapsed := elapsed_mono hnow h.2
    unfold Call.elapsed at helapsed ⊢
    rw [hwait.1, hwait.2]
    exact helapsed
  · rw [hshed hc]
    exact h

theorem inv_run (convert : Exc → Option Exc) (es : List (Event V)) (maxWorkers maxPending : ℕ) :
    Inv (run (step convert) es (new maxWorkers maxPending)) :=
  run_of_kept (fun e _ h => h.of_step convert e) (inv_new maxWorkers maxPending) es

end BoundedValidationExecutor

end Congine
