import Congine.Infrastructure.BoundedExecutor
import Mathlib.Algebra.Order.Ring.Rat
/-!
# What a step of the executor does to the calls

A step leaves the calls alone, admits one at the end of the table or
changes one, and `Change` lists the ways it can. What holds of the calls in
every state is read off it.
-/

namespace Congine

variable {V : Type}

namespace BoundedValidationExecutor

variable {convert : Exc → Option Exc} {s : BoundedValidationExecutor V} {i : ℕ} {c c' : Call V}
variable {e : Event V}

/-- **A step of a call is taken or not**, so what holds before and after it
holds. -/
theorem move_of {P : BoundedValidationExecutor V → Prop} {ready : Call V → Bool}
    {go : Call V → BoundedValidationExecutor V} (hs : P s)
    (hgo : ∀ c, s.calls[i]? = some c → ready c = true → P (go c)) : P (s.move i ready go) := by
  unfold move
  rcases hi : s.calls[i]? with _ | c
  · exact hs
  · by_cases hready : ready c = true
    · simp only [hready, if_true]
      exact hgo c hi hready
    · simp only [hready]
      exact hs

theorem move_eq {ready : Call V → Bool} {go : Call V → BoundedValidationExecutor V}
    (hi : s.calls[i]? = some c) : s.move i ready go = if ready c then go c else s := by
  rw [move, hi]

@[simp] theorem semRelease_calls (s : BoundedValidationExecutor V) :
    s.semRelease.calls = s.calls := by
  unfold semRelease
  split <;> rfl

/-- A call that enters the lock, or is turned away. -/
inductive Fresh (s : BoundedValidationExecutor V) : Call V → Prop
  | acquired (async : Bool) (timeoutMs : ℤ) (hopen : s.shutdown = false) :
      Fresh s { async, timeoutMs, stage := .acquired }
  | shed (async : Bool) (timeoutMs : ℤ) :
      Fresh s { async, timeoutMs, stage := .refused, outcome := some .loadShedError }
  | refused (async : Bool) (timeoutMs : ℤ) (hclosed : s.shutdown = true) :
      Fresh s { async, timeoutMs, stage := .refused, outcome := some .lifecycleError }

/-- What an event can do to the call numbered `i`. -/
inductive Change (convert : Exc → Option Exc) (s : BoundedValidationExecutor V) (i : ℕ) :
    Event V → Call V → Call V → Prop
  | counted {c : Call V} (hlock : s.lock = some i) (hstage : c.stage = .acquired) :
      Change convert s i .proceed c { c with stage := .counted }
  | uncounted {c : Call V} (hlock : s.lock = some i) (hstage : c.stage = .counted)
      (hclosed : s.poolClosed = true) :
      Change convert s i .proceed c { c with stage := .uncounted }
  | submitted {c : Call V} (hlock : s.lock = some i) (hstage : c.stage = .counted)
      (hqueue : (step convert .proceed s).queue = s.queue ++ [i]) :
      Change convert s i .proceed c { c with stage := .submitted, future := some .pending }
  | restored {c : Call V} (hlock : s.lock = some i) (hstage : c.stage = .uncounted) :
      Change convert s i .proceed c { c with stage := .restored }
  | refused {c : Call V} (hlock : s.lock = some i) (hstage : c.stage = .restored) :
      Change convert s i .proceed c
        { c with stage := .refused, outcome := some .lifecycleError }
  | registered {c : Call V} (hstage : c.stage = .submitted) :
      Change convert s i (.register i) c
        { c.addDoneCallback with stage := .waiting, waitFrom := s.now }
  | started {c : Call V} (hqueue : s.queue = i :: (step convert .take s).queue)
      (hpending : c.future = some .pending) :
      Change convert s i .take c { c with future := some .running }
  | finished {c : Call V} (result : Except Exc V) (hrunning : c.future = some .running) :
      Change convert s i (.finish i result) c
        ({ c with future := some .finished, result := some result } : Call V).fire
  | countedOut {c : Call V} (hentering : 0 < c.entering) :
      Change convert s i (.countOut i) c
        { c with entering := c.entering - 1, leaving := c.leaving + 1 }
  | released {c : Call V} (hleaving : 0 < c.leaving) :
      Change convert s i (.release i) c
        { c with leaving := c.leaving - 1, releases := c.releases + 1 }
  | timedOut {c : Call V} (hstage : c.stage = .waiting) (hsync : c.async = false)
      (hdone : c.done = false) (helapsed : c.elapsed s.now = true) :
      Change convert s i (.timeout i) c
        { c with stage := .ended, outcome := some .timeoutError }
  | timedOutAsync {c : Call V} (hstage : c.stage = .waiting) (hasync : c.async = true)
      (helapsed : c.elapsed s.now = true) :
      Change convert s i (.timeoutAsync i) c
        { c.cancel with stage := .ended, outcome := some .timeoutError }
  | callerCancelled {c : Call V} (hstage : c.stage = .waiting) (hasync : c.async = true) :
      Change convert s i (.cancelCaller i) c
        { c.cancel with stage := .ended, outcome := some .cancelledError }
  | delivered {c : Call V} (result : Except Exc V) (hstage : c.stage = .waiting)
      (hfinished : c.future = some .finished) (hresult : handed convert c = some result) :
      Change convert s i (.deliver i) c
        { c with stage := .ended, outcome := some (report result) }

/-- **What a step does to the calls.** -/
inductive Calls (convert : Exc → Option Exc) (s : BoundedValidationExecutor V) (e : Event V) :
    List (Call V) → Prop
  | same : Calls convert s e s.calls
  | joined {c : Call V} (h : Fresh s c) : Calls convert s e (s.calls ++ [c])
  | changed {i : ℕ} {c c' : Call V} (hi : s.calls[i]? = some c) (h : Change convert s i e c c') :
      Calls convert s e (s.calls.set i c')

theorem enter_calls (async : Bool) (timeoutMs : ℤ) (s : BoundedValidationExecutor V) :
    Calls convert s e (s.enter async timeoutMs).calls := by
  unfold enter
  split
  · exact .same
  · split
    · next hclosed => exact .joined (.refused async timeoutMs hclosed)
    · next hopen =>
      split
      · exact .joined (.shed async timeoutMs)
      · exact .joined (.acquired async timeoutMs (by simpa using hopen))

theorem proceed_calls (hlock : s.lock = some i) (hi : s.calls[i]? = some c) :
    Calls convert s .proceed (s.proceed i c).calls := by
  have hstep : step convert .proceed s = s.proceed i c := by
    simp only [step, hlock, move, hi, if_true]
  -- By the statement the call inside the lock stands at.
  unfold proceed
  split
  · next hstage => exact .changed hi (.counted hlock hstage)
  · next hstage =>
    split
    · next hclosed => exact .changed hi (.uncounted hlock hstage hclosed)
    · next hopen =>
      refine .changed hi (.submitted hlock hstage ?_)
      rw [hstep]
      simp only [proceed, hstage, hopen]
      rfl
  · next hstage =>
    rw [semRelease_calls]
    exact .changed hi (.restored hlock hstage)
  · next hstage => exact .changed hi (.refused hlock hstage)
  · exact .same

theorem take_calls (s : BoundedValidationExecutor V) : Calls convert s .take s.take.calls := by
  rcases hqueue : s.queue with _ | ⟨i, queue⟩
  · rw [take, hqueue]
    exact .same
  · by_cases hbusy : s.busy < s.maxWorkers
    · rcases hi : s.calls[i]? with _ | c
      · simp only [take, hqueue, if_pos hbusy, hi]
        exact .same
      · by_cases hpending : c.future = some .pending
        · have htake : s.take = { s.put i { c with future := some .running } with queue } := by
            simp only [take, hqueue, if_pos hbusy, hi, if_pos hpending]
          rw [htake]
          refine .changed hi (.started ?_ hpending)
          rw [step, htake, hqueue]
        · simp only [take, hqueue, if_pos hbusy, hi, if_neg hpending]
          exact .same
    · simp only [take, hqueue, if_neg hbusy]
      exact .same

/-- **Every step is one of these.** -/
theorem step_calls (convert : Exc → Option Exc) (e : Event V) (s : BoundedValidationExecutor V) :
    Calls convert s e (step convert e s).calls := by
  cases e with
  | call async timeoutMs => exact enter_calls async timeoutMs s
  | proceed =>
    simp only [step]
    split
    · exact .same
    · next i hlock =>
      exact move_of (P := fun t => Calls convert s .proceed t.calls) .same
        fun c hi _ => proceed_calls hlock hi
  | register i =>
    refine move_of (P := fun t => Calls convert s _ t.calls) .same fun c hi hready => ?_
    exact .changed hi (.registered (by simpa using hready))
  | take => exact take_calls s
  | finish i result =>
    refine move_of (P := fun t => Calls convert s _ t.calls) .same fun c hi hready => ?_
    exact .changed hi (.finished result (by simpa using hready))
  | countOut i =>
    refine move_of (P := fun t => Calls convert s _ t.calls) .same fun c hi hready => ?_
    simp only [Bool.and_eq_true, decide_eq_true_eq] at hready
    exact .changed hi (.countedOut hready.1)
  | release i =>
    refine move_of (P := fun t => Calls convert s _ t.calls) .same fun c hi hready => ?_
    rw [semRelease_calls]
    exact .changed hi (.released (by simpa using hready))
  | timeout i =>
    refine move_of (P := fun t => Calls convert s _ t.calls) .same fun c hi hready => ?_
    simp only [Bool.and_eq_true, decide_eq_true_eq, Bool.not_eq_true'] at hready
    exact .changed hi (.timedOut hready.1.1.1 hready.1.1.2 hready.1.2 hready.2)
  | timeoutAsync i =>
    refine move_of (P := fun t => Calls convert s _ t.calls) .same fun c hi hready => ?_
    simp only [Bool.and_eq_true, decide_eq_true_eq] at hready
    exact .changed hi (.timedOutAsync hready.1.1 hready.1.2 hready.2)
  | cancelCaller i =>
    refine move_of (P := fun t => Calls convert s _ t.calls) .same fun c hi hready => ?_
    simp only [Bool.and_eq_true, decide_eq_true_eq] at hready
    exact .changed hi (.callerCancelled hready.1 hready.2)
  | deliver i =>
    refine move_of (P := fun t => Calls convert s _ t.calls) .same fun c hi hready => ?_
    simp only [Bool.and_eq_true, decide_eq_true_eq] at hready
    obtain ⟨result, hresult⟩ := Option.isSome_iff_exists.mp hready.2
    rw [hresult]
    exact .changed hi (.delivered result hready.1.1 hready.1.2 hresult)
  | shutdown =>
    simp only [step]
    split
    · exact .same
    · exact .same
  | closePool => exact .same
  | tick elapsed =>
    simp only [step]
    split
    · exact .same
    · exact .same

/-! ## One call through a step -/

theorem fire_outcome (c : Call V) : c.fire.outcome = c.outcome := by
  unfold Call.fire
  split <;> rfl

theorem addDoneCallback_outcome (c : Call V) : c.addDoneCallback.outcome = c.outcome := by
  unfold Call.addDoneCallback
  split <;> rfl

/-- A wait hands over the result, or a timeout for it. -/
theorem report_eq (result : Except Exc V) :
    report result = .timeoutError ∨ report result = .delivered result := by
  unfold report
  split
  · exact .inr rfl
  · split
    · exact .inl rfl
    · exact .inr rfl

theorem report_ne_loadShedError (result : Except Exc V) : report result ≠ .loadShedError := by
  rcases report_eq result with h | h <;> simp [h]

/-- **A call ends once**, from its wait or from a refusal of the pool, and
not by load shedding. -/
theorem Change.outcome_eq (h : Change convert s i e c c') :
    c'.outcome = c.outcome ∨
      (c.stage = .restored ∨ c.stage = .waiting) ∧
        ∃ outcome, c'.outcome = some outcome ∧ outcome ≠ .loadShedError := by
  cases h
  case refused hlock hstage => exact .inr ⟨.inl hstage, _, rfl, by simp⟩
  case registered hstage => exact .inl (addDoneCallback_outcome c)
  case finished result hrunning => exact .inl (fire_outcome _)
  case timedOut hstage hsync hdone helapsed => exact .inr ⟨.inr hstage, _, rfl, by simp⟩
  case timedOutAsync hstage hasync helapsed => exact .inr ⟨.inr hstage, _, rfl, by simp⟩
  case callerCancelled hstage hasync => exact .inr ⟨.inr hstage, _, rfl, by simp⟩
  case delivered result hstage hfinished hresult =>
    exact .inr ⟨.inr hstage, _, rfl, report_ne_loadShedError result⟩
  all_goals exact .inl rfl

/-- A call that was there is there, as it was or changed. -/
theorem step_get (convert : Exc → Option Exc) (e : Event V) (hi : s.calls[i]? = some c) :
    ∃ c', (step convert e s).calls[i]? = some c' ∧ (c' = c ∨ Change convert s i e c c') := by
  rcases h : (step convert e s).calls, step_calls convert e s with ⟨_, hcalls⟩
  rcases hcalls with _ | hfresh | ⟨hj, hchange⟩
  · exact ⟨c, hi, .inl rfl⟩
  · refine ⟨c, ?_, .inl rfl⟩
    rw [List.getElem?_append_left (List.getElem?_eq_some_iff.mp hi).1]
    exact hi
  · next j c₀ c' =>
    by_cases hij : j = i
    · subst hij
      obtain rfl : c₀ = c := Option.some.inj (hj.symm.trans hi)
      refine ⟨c', ?_, .inr hchange⟩
      rw [List.getElem?_set_self (List.getElem?_eq_some_iff.mp hi).1]
    · exact ⟨c, by rw [List.getElem?_set_ne hij]; exact hi, .inl rfl⟩

/-- A call that is there was there, or has just come. -/
theorem step_back (convert : Exc → Option Exc) (e : Event V)
    (hi : (step convert e s).calls[i]? = some c') :
    (∃ c, s.calls[i]? = some c ∧ (c' = c ∨ Change convert s i e c c')) ∨
      s.calls[i]? = none ∧ Fresh s c' := by
  rcases hold : s.calls[i]? with _ | c
  · right
    refine ⟨rfl, ?_⟩
    rcases h : (step convert e s).calls, step_calls convert e s with ⟨_, hcalls⟩
    rw [h] at hi
    rcases hcalls with _ | hfresh | ⟨hj, hchange⟩
    · rw [hold] at hi
      cases hi
    · rw [List.getElem?_append_right (List.getElem?_eq_none_iff.mp hold)] at hi
      have hmem := List.mem_of_getElem? hi
      rw [List.mem_singleton.mp hmem]
      exact hfresh
    · have := List.getElem?_eq_none_iff.mp hold
      rw [List.getElem?_eq_none_iff.mpr (by rw [List.length_set]; exact this)] at hi
      cases hi
  · obtain ⟨c'', hi', hchange⟩ := step_get convert e hold
    obtain rfl : c' = c'' := Option.some.inj (hi.symm.trans hi')
    exact .inl ⟨c, rfl, hchange⟩

/-! ## What no step takes back -/

structure Keeps (s s' : BoundedValidationExecutor V) : Prop where
  capacity_eq : s'.capacity = s.capacity
  shutdown_of : s.shutdown = true → s'.shutdown = true
  now_le : s.now ≤ s'.now

theorem Keeps.refl (s : BoundedValidationExecutor V) : Keeps s s := ⟨rfl, id, le_refl _⟩

theorem Keeps.semRelease {s' : BoundedValidationExecutor V} (h : Keeps s s') :
    Keeps s s'.semRelease := by
  unfold BoundedValidationExecutor.semRelease
  split <;> exact ⟨h.capacity_eq, h.shutdown_of, h.now_le⟩

theorem keeps_enter (async : Bool) (timeoutMs : ℤ) (s : BoundedValidationExecutor V) :
    Keeps s (s.enter async timeoutMs) := by
  unfold enter
  split_ifs <;> exact ⟨rfl, id, le_refl _⟩

theorem keeps_proceed (i : ℕ) (c : Call V) (s : BoundedValidationExecutor V) :
    Keeps s (s.proceed i c) := by
  unfold proceed
  split
  · exact ⟨rfl, id, le_refl _⟩
  · split_ifs <;> exact ⟨rfl, id, le_refl _⟩
  · exact Keeps.semRelease ⟨rfl, id, le_refl _⟩
  · exact ⟨rfl, fun _ => rfl, le_refl _⟩
  · exact .refl s

theorem keeps_take (s : BoundedValidationExecutor V) : Keeps s s.take := by
  unfold take
  split
  · exact .refl s
  · split_ifs
    · split
      · exact .refl s
      · split_ifs <;> exact ⟨rfl, id, le_refl _⟩
    · exact .refl s

theorem step_keeps (convert : Exc → Option Exc) (e : Event V) (s : BoundedValidationExecutor V) :
    Keeps s (step convert e s) := by
  cases e with
  | call async timeoutMs => exact keeps_enter async timeoutMs s
  | proceed =>
    simp only [step]
    split
    · exact .refl s
    · next i hlock => exact move_of (.refl s) fun c _ _ => keeps_proceed i c s
  | register i => exact move_of (.refl s) fun c _ _ => ⟨rfl, id, le_refl _⟩
  | take => exact keeps_take s
  | finish i result => exact move_of (.refl s) fun c _ _ => ⟨rfl, id, le_refl _⟩
  | countOut i => exact move_of (.refl s) fun c _ _ => ⟨rfl, id, le_refl _⟩
  | release i => exact move_of (.refl s) fun c _ _ => Keeps.semRelease ⟨rfl, id, le_refl _⟩
  | timeout i => exact move_of (.refl s) fun c _ _ => ⟨rfl, id, le_refl _⟩
  | timeoutAsync i => exact move_of (.refl s) fun c _ _ => ⟨rfl, id, le_refl _⟩
  | cancelCaller i => exact move_of (.refl s) fun c _ _ => ⟨rfl, id, le_refl _⟩
  | deliver i => exact move_of (.refl s) fun c _ _ => ⟨rfl, id, le_refl _⟩
  | shutdown =>
    simp only [step]
    split_ifs
    · exact .refl s
    · exact ⟨rfl, fun _ => rfl, le_refl _⟩
  | closePool => exact ⟨rfl, id, le_refl _⟩
  | tick elapsed =>
    simp only [step]
    split_ifs with helapsed
    · exact ⟨rfl, id, le_add_of_nonneg_right helapsed⟩
    · exact .refl s

end BoundedValidationExecutor

end Congine
