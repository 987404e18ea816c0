import Congine.Infrastructure.ExecutorOutcomes
/-!
# What the executor reports

A value a call is handed is the one its function returned. A call that
comes in is shed exactly where it counts as rejected; nothing else counts
one, and no function ends in a `LoadShedError` by raising it.
-/

namespace Congine

variable {V : Type}

/-- What a call was handed: a value its function returned, or an exception
that is no deadline. -/
structure Call.Reported (c : Call V) : Prop where
  value : ∀ v, c.outcome = some (.delivered (.ok v)) →
    c.future = some .finished ∧ c.result = some (.ok v)
  exception : ∀ exc, c.outcome = some (.delivered (.error exc)) → exc.isTimeoutError = false

def Outcome.isShed : Outcome V → Bool
  | .loadShedError => true
  | _ => false

theorem Outcome.isShed_iff {outcome : Outcome V} :
    outcome.isShed = true ↔ outcome = .loadShedError := by
  cases outcome <;> simp [isShed]

/-- The call was shed. -/
def Call.isShed (c : Call V) : Bool := c.outcome.any Outcome.isShed

theorem Call.isShed_iff {c : Call V} : c.isShed = true ↔ c.outcome = some .loadShedError := by
  unfold Call.isShed
  cases c.outcome with
  | none => simp
  | some outcome => simp [Outcome.isShed_iff]

namespace BoundedValidationExecutor

variable {convert : Exc → Option Exc} {s : BoundedValidationExecutor V} {i : ℕ} {c c' : Call V}
variable {e : Event V}

theorem reported_of_none (h : c.outcome = none) : c.Reported where
  value v hv := by
    rw [h] at hv
    cases hv
  exception exc hexc := by
    rw [h] at hexc
    cases hexc

theorem reported_of_outcome {outcome : Outcome V} (h : c.outcome = some outcome)
    (hne : ∀ result, outcome ≠ .delivered result) : c.Reported where
  value _ hv := absurd (Option.some.inj (h.symm.trans hv)) (hne _)
  exception _ hexc := absurd (Option.some.inj (h.symm.trans hexc)) (hne _)

theorem reported_fresh (hfresh : Fresh s c) : c.Reported := by
  cases hfresh with
  | acquired async timeoutMs hopen => exact reported_of_none rfl
  | shed async timeoutMs => exact reported_of_outcome rfl fun _ h => by cases h
  | refused async timeoutMs hclosed => exact reported_of_outcome rfl fun _ h => by cases h

/-- A call keeps its report with what it was told and what its function
ended in. -/
theorem reported_kept (h : c.Reported) (houtcome : c'.outcome = c.outcome)
    (hfuture : c.future = some .finished → c'.future = c.future ∧ c'.result = c.result) :
    c'.Reported where
  value v hv := by
    obtain ⟨hfinished, hvalue⟩ := h.value v (houtcome ▸ hv)
    obtain ⟨hsame, hresult⟩ := hfuture hfinished
    exact ⟨hsame.trans hfinished, hresult.trans hvalue⟩
  exception exc hexc := h.exception exc (houtcome ▸ hexc)

theorem report_value {result : Except Exc V} {v : V} (h : report result = .delivered (.ok v)) :
    result = .ok v := by
  rcases report_eq result with htimeout | hdelivered
  · rw [htimeout] at h
    cases h
  · rw [hdelivered] at h
    exact Outcome.delivered.inj h

theorem report_exception {result : Except Exc V} {exc : Exc}
    (h : report result = .delivered (.error exc)) : exc.isTimeoutError = false := by
  unfold report at h
  split at h
  · cases Outcome.delivered.inj h
  · split at h
    · cases h
    · next hne =>
      obtain rfl := Except.error.inj (Outcome.delivered.inj h)
      simpa using hne

/-- A value is handed over as the function returned it, whatever asyncio
makes of exceptions. -/
theorem handed_value {v : V} (h : handed convert c = some (.ok v)) : c.result = some (.ok v) := by
  unfold handed at h
  obtain ⟨result, hresult, h⟩ := Option.bind_eq_some_iff.mp h
  rw [hresult]
  split at h
  · cases result with
    | ok v' =>
      rw [deliveredAsync] at h
      exact h
    | error exc =>
      rw [deliveredAsync] at h
      obtain ⟨exc', -, h⟩ := Option.map_eq_some_iff.mp h
      cases h
  · exact h

theorem reported_of_change (hc : c.Reported) (hsound : c.Sound) (h : Change convert s i e c c') :
    c'.Reported := by
  cases h with
  | counted hlock hstage => exact reported_kept hc rfl fun _ => ⟨rfl, rfl⟩
  | uncounted hlock hstage hclosed => exact reported_kept hc rfl fun _ => ⟨rfl, rfl⟩
  | submitted hlock hstage hqueue =>
    have hnone : c.future = none := hsound.future_iff.mpr (by rw [hstage]; rfl)
    refine reported_kept hc rfl fun h => ?_
    rw [hnone] at h
    cases h
  | restored hlock hstage => exact reported_kept hc rfl fun _ => ⟨rfl, rfl⟩
  | refused hlock hstage => exact reported_of_outcome rfl fun _ h => by cases h
  | registered hstage =>
    exact reported_kept hc (addDoneCallback_outcome c) fun _ => addDoneCallback_told c
  | started hqueue hpending =>
    refine reported_kept hc rfl fun h => ?_
    rw [hpending] at h
    cases h
  | finished result hrunning =>
    refine reported_kept hc (fire_outcome _) fun h => ?_
    rw [hrunning] at h
    cases h
  | countedOut hentering => exact reported_kept hc rfl fun _ => ⟨rfl, rfl⟩
  | released hleaving => exact reported_kept hc rfl fun _ => ⟨rfl, rfl⟩
  | timedOut hstage hsync hdone helapsed => exact reported_of_outcome rfl fun _ h => by cases h
  | timedOutAsync hstage hasync helapsed => exact reported_of_outcome rfl fun _ h => by cases h
  | callerCancelled hstage hasync => exact reported_of_outcome rfl fun _ h => by cases h
  | delivered result hstage hfinished hresult =>
    constructor
    · intro v hv
      obtain rfl := report_value (Option.some.inj hv)
      exact ⟨hfinished, handed_value hresult⟩
    · exact fun exc hexc => report_exception (Option.some.inj hexc)

/-- **Reports stay true**, step by step. -/
theorem reported_step (convert : Exc → Option Exc) (e : Event V) (hs : Inv s)
    (h : ∀ (i : ℕ) c, s.calls[i]? = some c → c.Reported) :
    ∀ (i : ℕ) c, (step convert e s).calls[i]? = some c → c.Reported := by
  intro i c' hi'
  rcases step_back convert e hi' with ⟨c, hi, rfl | hchange⟩ | ⟨-, hfresh⟩
  · exact h i c' hi
  · exact reported_of_change (h i c hi) (hs.books.sound_of hi) hchange
  · exact reported_fresh hfresh

/-- What a call's function ended in is what it has just been seen to end in,
or was there. -/
theorem result_step (convert : Exc → Option Exc) (e : Event V)
    (hi : (step convert e s).calls[i]? = some c') {result : Except Exc V}
    (hresult : c'.result = some result) :
    (∃ c, s.calls[i]? = some c ∧ c.result = some result) ∨ e = .finish i result := by
  rcases step_back convert e hi with ⟨c, hold, rfl | hchange⟩ | ⟨-, hfresh⟩
  · exact .inl ⟨c', hold, hresult⟩
  · cases hchange with
    | finished result' hrunning =>
      rw [(fire_told _).2] at hresult
      exact .inr (congrArg _ (Option.some.inj hresult))
    | registered hstage =>
      exact .inl ⟨c, hold, by rw [← (addDoneCallback_told c).2]; exact hresult⟩
    | timedOutAsync hstage hasync helapsed =>
      exact .inl ⟨c, hold, by rw [← (cancel_told c).2]; exact hresult⟩
    | callerCancelled hstage hasync =>
      exact .inl ⟨c, hold, by rw [← (cancel_told c).2]; exact hresult⟩
    | _ => exact .inl ⟨c, hold, hresult⟩
  · cases hfresh <;> cases hresult

/-! ## What is shed -/

/-- No step sheds a call that was taken, or takes one that was shed. -/
theorem shed_step (convert : Exc → Option Exc) (e : Event V) (hs : Inv s)
    (hi : s.calls[i]? = some c) :
    ∃ c', (step convert e s).calls[i]? = some c' ∧ c'.isShed = c.isShed := by
  obtain ⟨c', hi', hc'⟩ := step_get convert e hi
  refine ⟨c', hi', ?_⟩
  rw [Bool.eq_iff_iff, Call.isShed_iff, Call.isShed_iff]
  refine ⟨fun h => ?_, fun h => ?_⟩
  · rcases hc' with rfl | hchange
    · exact h
    · rcases hchange.outcome_eq with heq | ⟨-, outcome, heq, hne⟩
      · rw [← heq, h]
      · exact absurd (Option.some.inj (heq.symm.trans h)) hne
  · obtain ⟨c'', hi'', houtcome⟩ := outcome_step convert e hs hi h
    obtain rfl := Option.some.inj (hi'.symm.trans hi'')
    exact houtcome

/-- No call has come in and none has been counted as rejected. -/
structure SameCallers (s s' : BoundedValidationExecutor V) : Prop where
  length_eq : s'.calls.length = s.calls.length
  rejectedTotal_eq : s'.rejectedTotal = s.rejectedTotal

theorem SameCallers.put (s : BoundedValidationExecutor V) (i : ℕ) (c : Call V) :
    SameCallers s (s.put i c) := ⟨List.length_set, rfl⟩

theorem SameCallers.semRelease {s' : BoundedValidationExecutor V} (h : SameCallers s s') :
    SameCallers s s'.semRelease := by
  unfold BoundedValidationExecutor.semRelease
  split
  · exact ⟨h.length_eq, h.rejectedTotal_eq⟩
  · exact ⟨h.length_eq, h.rejectedTotal_eq⟩

/-- Only a call that comes in is one more, and only it is counted as
rejected. -/
theorem sameCallers_step (convert : Exc → Option Exc) (e : Event V)
    (hcall : ∀ async timeoutMs, e ≠ .call async timeoutMs) (s : BoundedValidationExecutor V) :
    SameCallers s (step convert e s) := by
  have hmove : ∀ (i : ℕ) ready (go : Call V → BoundedValidationExecutor V),
      (∀ c, SameCallers s (go c)) → SameCallers s (s.move i ready go) :=
    fun i ready go hgo => move_of ⟨rfl, rfl⟩ fun c _ _ => hgo c
  have hput : ∀ i c, SameCallers s (s.put i c) := .put s
  cases e with
  | call async timeoutMs => exact absurd rfl (hcall async timeoutMs)
  | proceed =>
    simp only [step]
    split
    · exact ⟨rfl, rfl⟩
    · refine hmove _ _ _ fun c => ?_
      unfold proceed
      split
      · exact ⟨(hput _ _).length_eq, rfl⟩
      · split <;> exact ⟨(hput _ _).length_eq, rfl⟩
      · exact (hput _ _).semRelease
      · exact ⟨(hput _ _).length_eq, rfl⟩
      · exact ⟨rfl, rfl⟩
  | register i => exact hmove _ _ _ fun c => hput _ _
  | take =>
    simp only [step, take]
    split
    · exact ⟨rfl, rfl⟩
    · split
      · split
        · exact ⟨rfl, rfl⟩
        · split
          · exact ⟨(hput _ _).length_eq, rfl⟩
          · exact ⟨rfl, rfl⟩
      · exact ⟨rfl, rfl⟩
  | finish i result => exact hmove _ _ _ fun c => hput _ _
  | countOut i => exact hmove _ _ _ fun c => ⟨(hput _ _).length_eq, rfl⟩
  | release i => exact hmove _ _ _ fun c => (hput _ _).semRelease
  | timeout i => exact hmove _ _ _ fun c => hput _ _
  | timeoutAsync i => exact hmove _ _ _ fun c => hput _ _
  | cancelCaller i => exact hmove _ _ _ fun c => hput _ _
  | deliver i => exact hmove _ _ _ fun c => hput _ _
  | shutdown =>
    simp only [step]
    split <;> exact ⟨rfl, rfl⟩
  | closePool => exact ⟨rfl, rfl⟩
  | tick elapsed =>
    simp only [step]
    split <;> exact ⟨rfl, rfl⟩

/-- **A call that finds the lock free** comes in at the end of the table,
and counts as rejected exactly where it is shed. -/
theorem enter_spec (hlock : s.lock = none) (async : Bool) (timeoutMs : ℤ) :
    ∃ c, (s.enter async timeoutMs).calls = s.calls ++ [c] ∧
      (s.enter async timeoutMs).rejectedTotal =
        s.rejectedTotal + c.isShed.toNat ∧ c.result = none := by
  rw [enter, if_neg (by simp [hlock])]
  split
  · exact ⟨_, rfl, rfl, rfl⟩
  · split
    · exact ⟨_, rfl, rfl, rfl⟩
    · exact ⟨_, rfl, rfl, rfl⟩

end BoundedValidationExecutor

end Congine
