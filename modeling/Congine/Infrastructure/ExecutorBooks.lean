import Congine.Infrastructure.ExecutorSteps
import Mathlib.Algebra.Order.BigOperators.Group.List
/-!
# The books of the bounded executor

A permit is with the semaphore or with one call, from the statement that
takes it to the one that gives it back, and a call is counted in for a part
of that time. So the count and the free permits never exceed the capacity,
in whatever order the threads step.
-/

namespace Congine

variable {V : Type}

namespace Stage

/-- The call has no future. -/
def unsubmitted : Stage → Bool
  | .acquired | .counted | .uncounted | .restored | .refused => true
  | _ => false

/-- The thread of the call is inside the lock. -/
def inside : Stage → Bool
  | .acquired | .counted | .uncounted | .restored => true
  | _ => false

/-- The done-callback is registered. -/
def registered : Stage → Bool
  | .waiting | .ended => true
  | _ => false

end Stage

namespace Call

/-- Permits the call holds. -/
def held (c : Call V) : ℕ :=
  match c.stage with
  | .acquired | .counted | .uncounted => 1
  | .restored | .refused => 0
  | .submitted | .waiting | .ended => 1 - c.releases

/-- What the call counts for in `_in_flight`. -/
def counted (c : Call V) : ℕ :=
  match c.stage with
  | .counted => 1
  | .acquired | .uncounted | .restored | .refused => 0
  | .submitted | .waiting | .ended => 1 - c.leaving - c.releases

/-- One run of `_release` for each future, from when it is done and its
callback registered. -/
structure Sound (c : Call V) : Prop where
  future_iff : c.future = none ↔ c.stage.unsubmitted = true
  callback_iff : c.callback = true ↔ c.stage.registered = true ∧ c.done = false
  runs : c.entering + c.leaving + c.releases =
    if c.stage.registered = true ∧ c.done = true then 1 else 0

theorem counted_le_held (c : Call V) : c.counted ≤ c.held := by
  unfold counted held
  cases c.stage <;> simp only <;> omega

end Call

/-! ## Calls that stay sound -/

namespace Call

@[simp] theorem fire_stage (c : Call V) : c.fire.stage = c.stage := by
  unfold fire
  split <;> rfl

@[simp] theorem fire_leaving (c : Call V) : c.fire.leaving = c.leaving := by
  unfold fire
  split <;> rfl

@[simp] theorem fire_releases (c : Call V) : c.fire.releases = c.releases := by
  unfold fire
  split <;> rfl

@[simp] theorem cancel_stage (c : Call V) : c.cancel.stage = c.stage := by
  unfold cancel
  split
  · rw [fire_stage]
  · rfl

@[simp] theorem cancel_leaving (c : Call V) : c.cancel.leaving = c.leaving := by
  unfold cancel
  split
  · rw [fire_leaving]
  · rfl

@[simp] theorem cancel_releases (c : Call V) : c.cancel.releases = c.releases := by
  unfold cancel
  split
  · rw [fire_releases]
  · rfl

@[simp] theorem addDoneCallback_leaving (c : Call V) : c.addDoneCallback.leaving = c.leaving := by
  unfold addDoneCallback
  split <;> rfl

@[simp] theorem addDoneCallback_releases (c : Call V) :
    c.addDoneCallback.releases = c.releases := by
  unfold addDoneCallback
  split <;> rfl

variable {c : Call V}

theorem held_of_submitted (h : c.stage.unsubmitted = false) : c.held = 1 - c.releases := by
  unfold held
  cases hstage : c.stage <;> simp [hstage, Stage.unsubmitted] at h ⊢

theorem counted_of_submitted (h : c.stage.unsubmitted = false) :
    c.counted = 1 - c.leaving - c.releases := by
  unfold counted
  cases hstage : c.stage <;> simp [hstage, Stage.unsubmitted] at h ⊢

/-- What a call holds once its function is submitted depends on its runs of
`_release` alone. -/
theorem held_eq {c' : Call V} (h : c.stage.unsubmitted = false)
    (h' : c'.stage.unsubmitted = false) (hreleases : c'.releases = c.releases) :
    c'.held = c.held := by
  rw [held_of_submitted h, held_of_submitted h', hreleases]

theorem counted_eq {c' : Call V} (h : c.stage.unsubmitted = false)
    (h' : c'.stage.unsubmitted = false) (hleaving : c'.leaving = c.leaving)
    (hreleases : c'.releases = c.releases) : c'.counted = c.counted := by
  rw [counted_of_submitted h, counted_of_submitted h', hleaving, hreleases]

/-- A call that enters the lock or is turned away. -/
theorem sound_new (async : Bool) (timeoutMs : ℤ) {stage : Stage}
    (hu : stage.unsubmitted = true) (hr : stage.registered = false)
    (outcome : Option (Outcome V)) : Sound { async, timeoutMs, stage, outcome } where
  future_iff := by simp [hu]
  callback_iff := by simp [hr]
  runs := by simp [hr]

/-- Another stage of the same kind. -/
theorem Sound.restage (hc : c.Sound) (stage : Stage)
    (hu : stage.unsubmitted = c.stage.unsubmitted)
    (hr : stage.registered = c.stage.registered) (outcome : Option (Outcome V)) :
    Sound { c with stage, outcome } where
  future_iff := hu ▸ hc.future_iff
  callback_iff := hr ▸ hc.callback_iff
  runs := hr ▸ hc.runs

/-- Before its callback is registered a call runs none. -/
theorem Sound.runs_eq_zero (hc : c.Sound) (hr : c.stage.registered = false) :
    c.callback = false ∧ c.entering + c.leaving + c.releases = 0 := by
  constructor
  · rw [← Bool.not_eq_true, hc.callback_iff, hr]
    exact fun h => Bool.false_ne_true h.1
  · rw [hc.runs, hr, if_neg fun h => Bool.false_ne_true h.1]

/-- The pool takes the function. -/
theorem Sound.submit (hc : c.Sound) (hr : c.stage.registered = false) :
    Sound { c with stage := .submitted, future := some .pending } where
  future_iff := by simp [Stage.unsubmitted]
  callback_iff := by simp [(hc.runs_eq_zero hr).1, Stage.registered]
  runs := by simp [(hc.runs_eq_zero hr).2, Stage.registered]

theorem Sound.register (hc : c.Sound) (hstage : c.stage = .submitted) (now : ℚ) :
    Sound { c.addDoneCallback with stage := .waiting, waitFrom := now } := by
  have hfuture : c.future ≠ none := by
    rw [Ne, hc.future_iff, hstage]
    exact Bool.false_ne_true
  obtain ⟨hcallback, hruns⟩ := hc.runs_eq_zero (by rw [hstage]; rfl)
  rcases hdone : c.done with _ | _
  · rw [addDoneCallback, if_neg (by simp [hdone])]
    rw [done] at hdone
    exact ⟨by simp [Stage.unsubmitted, hfuture], by simp [Stage.registered, done, hdone],
      by simp [Stage.registered, done, hdone, hruns]⟩
  · rw [addDoneCallback, if_pos hdone]
    rw [done] at hdone
    refine ⟨by simp [Stage.unsubmitted, hfuture],
      by simp [Stage.registered, hcallback, done, hdone], ?_⟩
    simp only [Stage.registered, done, hdone, and_self, if_true]
    omega

/-- A worker starts the function. -/
theorem Sound.start (hc : c.Sound) (hpending : c.future = some .pending) :
    Sound { c with future := some .running } where
  future_iff := by simp [← hc.future_iff, hpending]
  callback_iff := by
    have := hc.callback_iff
    simpa [done, hpending, FutureState.done] using this
  runs := by
    have := hc.runs
    simpa [done, hpending, FutureState.done] using this

/-- **The callback of a future that is done runs once.** -/
theorem Sound.fire (hc : c.Sound) (hdone : c.done = false) (hfuture : c.future ≠ none)
    {state : FutureState} (hstate : state.done = true) (result : Option (Except Exc V)) :
    Sound ({ c with future := some state, result } : Call V).fire := by
  have hunsubmitted : c.stage.unsubmitted = false := by
    rw [← Bool.not_eq_true, ← hc.future_iff]
    exact hfuture
  have hruns := hc.runs
  have hcallback := hc.callback_iff
  rw [hdone] at hruns hcallback
  simp only [Bool.false_eq_true, and_false, if_false] at hruns
  rcases hreg : c.stage.registered with _ | _
  · have hno : c.callback = false := by
      rw [← Bool.not_eq_true, hcallback, hreg]
      simp
    rw [Call.fire, if_neg (by simp [hno])]
    exact ⟨by simp [hunsubmitted], by simp [hno, hreg], by simp [hreg, hruns]⟩
  · have hyes : c.callback = true := hcallback.mpr ⟨hreg, rfl⟩
    rw [Call.fire, if_pos hyes]
    refine ⟨by simp [hunsubmitted], by simp [done, hstate], ?_⟩
    simp only [hreg, done, Option.any_some, hstate, and_self, if_true]
    omega

theorem Sound.cancel (hc : c.Sound) : c.cancel.Sound := by
  unfold Call.cancel
  split
  · next hpending =>
    have hdone : c.done = false := by simp [done, hpending, FutureState.done]
    exact hc.fire hdone (by simp [hpending]) rfl c.result
  · exact hc

/-- A run of `_release` goes on. -/
theorem Sound.run (hc : c.Sound) {entering leaving releases : ℕ}
    (h : entering + leaving + releases = c.entering + c.leaving + c.releases) :
    Sound { c with entering, leaving, releases } where
  future_iff := hc.future_iff
  callback_iff := hc.callback_iff
  runs := h.trans hc.runs

/-- A run of `_release` is of a call that holds its permit still. -/
theorem Sound.releases_eq_zero (hc : c.Sound) (hrun : 0 < c.entering + c.leaving) :
    c.stage.unsubmitted = false ∧ c.releases = 0 ∧ c.entering + c.leaving = 1 := by
  have hruns := hc.runs
  split at hruns
  · next hdone =>
    refine ⟨?_, by omega, by omega⟩
    rw [← Bool.not_eq_true, ← hc.future_iff]
    intro hnone
    rw [done, hnone] at hdone
    cases hdone.2
  · omega

end Call

namespace BoundedValidationExecutor

/-! ## The books -/

variable {s : BoundedValidationExecutor V} {i : ℕ} {c : Call V}

structure Books (s : BoundedValidationExecutor V) : Prop where
  sound : ∀ c ∈ s.calls, c.Sound
  sem_add : s.sem + (s.calls.map Call.held).sum = s.capacity
  inFlight_eq : s.inFlight = ((s.calls.map Call.counted).sum : ℕ)
  /-- One call is inside the lock while it is taken. -/
  inside_eq : (s.calls.map fun c => c.stage.inside.toNat).sum = s.lock.isSome.toNat
  closed : s.shutdown = true → s.lock = none
  released : s.overReleased = false

theorem books_new (maxWorkers maxPending : ℕ) :
    Books (new maxWorkers maxPending : BoundedValidationExecutor V) where
  sound c hc := by cases hc
  sem_add := rfl
  inFlight_eq := rfl
  inside_eq := rfl
  closed h := by cases h
  released := rfl

/-- **One call changes**, and the books with it. -/
theorem Books.put {s' : BoundedValidationExecutor V} {c' : Call V} (h : Books s)
    (hi : s.calls[i]? = some c) (hcalls : s'.calls = s.calls.set i c')
    (hcap : s'.capacity = s.capacity) (hsound : c'.Sound)
    (hsem : s'.sem + c'.held = s.sem + c.held)
    (hin : s'.inFlight + c.counted = s.inFlight + c'.counted)
    (hinside : s'.lock.isSome.toNat + c.stage.inside.toNat =
      s.lock.isSome.toNat + c'.stage.inside.toNat)
    (hclosed : s'.shutdown = true → s'.lock = none)
    (hover : s'.overReleased = false) : Books s' where
  sound := by
    rw [hcalls]
    exact forall_mem_set h.sound hsound i
  sem_add := by
    have hsum := sum_map_set Call.held hi c'
    have hbooks := h.sem_add
    rw [hcalls, hcap]
    omega
  inFlight_eq := by
    have hsum := sum_map_set Call.counted hi c'
    have hbooks := h.inFlight_eq
    rw [hcalls]
    omega
  inside_eq := by
    have hsum := sum_map_set (fun c : Call V => c.stage.inside.toNat) hi c'
    have hbooks := h.inside_eq
    rw [hcalls]
    omega
  closed := hclosed
  released := hover

/-- A permit a call holds is not with the semaphore. -/
theorem Books.sem_lt (h : Books s) (hi : s.calls[i]? = some c) (hheld : c.held = 1) :
    s.sem < s.capacity := by
  have hmem : c.held ∈ s.calls.map Call.held :=
    List.mem_map_of_mem (List.mem_of_getElem? hi)
  have hle := List.single_le_sum (fun _ _ => Nat.zero_le _) _ hmem
  have := h.sem_add
  omega

theorem semRelease_of_lt (h : s.sem < s.capacity) :
    s.semRelease = { s with sem := s.sem + 1 } := by
  rw [semRelease, if_pos h]

/-- A call that changes in nothing the books are about. -/
theorem Books.put_same {c' : Call V} (h : Books s) (hi : s.calls[i]? = some c)
    (hsound : c'.Sound) (hheld : c'.held = c.held) (hcounted : c'.counted = c.counted)
    (hinside : c'.stage.inside = c.stage.inside) : Books (s.put i c') :=
  h.put hi rfl rfl hsound (by rw [hheld]; rfl) (by rw [hcounted]; rfl) (by rw [hinside]; rfl)
    h.closed h.released

theorem Books.sound_of (h : Books s) (hi : s.calls[i]? = some c) : c.Sound :=
  h.sound c (List.mem_of_getElem? hi)

/-- A call that joins. -/
theorem Books.add {s' : BoundedValidationExecutor V} (h : Books s)
    (hcalls : s'.calls = s.calls ++ [c]) (hcap : s'.capacity = s.capacity) (hsound : c.Sound)
    (hsem : s'.sem + c.held = s.sem) (hin : s'.inFlight = s.inFlight + c.counted)
    (hinside : s'.lock.isSome.toNat = s.lock.isSome.toNat + c.stage.inside.toNat)
    (hclosed : s'.shutdown = true → s'.lock = none)
    (hover : s'.overReleased = false) : Books s' where
  sound c' hc' := by
    rw [hcalls] at hc'
    rcases List.mem_append.mp hc' with hc' | hc'
    · exact h.sound c' hc'
    · rw [List.mem_singleton.mp hc']
      exact hsound
  sem_add := by
    have hbooks := h.sem_add
    rw [hcalls, hcap, List.map_append, List.sum_append, List.map_singleton, List.sum_singleton]
    omega
  inFlight_eq := by
    have hbooks := h.inFlight_eq
    rw [hcalls, List.map_append, List.sum_append, List.map_singleton, List.sum_singleton]
    omega
  inside_eq := by
    have hbooks := h.inside_eq
    rw [hcalls, List.map_append, List.sum_append, List.map_singleton, List.sum_singleton]
    omega
  closed := hclosed
  released := hover

/-! ## Each step keeps the books -/

theorem Books.enter (h : Books s) (async : Bool) (timeoutMs : ℤ) :
    Books (s.enter async timeoutMs) := by
  unfold BoundedValidationExecutor.enter
  split
  · exact h
  · next hlock =>
    split
    · exact h.add rfl rfl (Call.sound_new async timeoutMs rfl rfl _) rfl (Int.add_zero _).symm
        rfl h.closed h.released
    · next hopen =>
      split
      · exact h.add rfl rfl (Call.sound_new async timeoutMs rfl rfl _) rfl (Int.add_zero _).symm
          rfl h.closed h.released
      -- A permit goes from the semaphore to the new call, which holds the lock.
      · next hsem =>
        have hheld : s.sem - 1 + 1 = s.sem := by omega
        exact h.add rfl rfl (Call.sound_new async timeoutMs rfl rfl none) hheld
          (Int.add_zero _).symm (by simp [hlock, Stage.inside])
          (fun hshut => absurd hshut hopen) h.released

theorem Books.proceed (h : Books s) (hlock : s.lock = some i) (hi : s.calls[i]? = some c) :
    Books (s.proceed i c) := by
  have hopen : s.shutdown ≠ true := by
    intro hshut
    rw [h.closed hshut] at hlock
    cases hlock
  have hc := h.sound_of hi
  unfold BoundedValidationExecutor.proceed
  split
  · next hstage =>
    have hsound := hc.restage .counted (by rw [hstage]; rfl) (by rw [hstage]; rfl) c.outcome
    refine h.put hi rfl rfl hsound ?_ ?_ ?_ (fun hshut => absurd hshut hopen) h.released
    · simp [Call.held, hstage, BoundedValidationExecutor.put]
    · simp [Call.counted, hstage]
    · rw [hstage]; rfl
  · next hstage =>
    split
    · have hsound := hc.restage .uncounted (by rw [hstage]; rfl) (by rw [hstage]; rfl) c.outcome
      refine h.put hi rfl rfl hsound ?_ ?_ ?_ (fun hshut => absurd hshut hopen) h.released
      · simp [Call.held, hstage, BoundedValidationExecutor.put]
      · simp [Call.counted, hstage]
      · rw [hstage]; rfl
    · -- Submitted: the lock is let go, and the permit stays with the call.
      have hruns := hc.runs_eq_zero (by rw [hstage]; rfl)
      refine h.put hi rfl rfl (hc.submit (by rw [hstage]; rfl)) ?_ ?_ ?_ (fun _ => rfl) h.released
      · have hreleases : c.releases = 0 := by omega
        simp [Call.held, hstage, hreleases, BoundedValidationExecutor.put]
      · have hleaving : c.leaving = 0 := by omega
        have hreleases : c.releases = 0 := by omega
        simp [Call.counted, hstage, hreleases, hleaving, BoundedValidationExecutor.put]
      · rw [hstage, hlock]; rfl
  · next hstage =>
    have hsound := hc.restage .restored (by rw [hstage]; rfl) (by rw [hstage]; rfl) c.outcome
    have hlt : s.sem < s.capacity := h.sem_lt hi (by simp [Call.held, hstage])
    rw [semRelease_of_lt (s := s.put i _) hlt]
    refine h.put hi rfl rfl hsound ?_ ?_ ?_ (fun hshut => absurd hshut hopen) h.released
    · simp [Call.held, hstage, BoundedValidationExecutor.put]
    · simp [Call.counted, hstage, BoundedValidationExecutor.put]
    · rw [hstage]; rfl
  · next hstage =>
    have hsound := hc.restage .refused (by rw [hstage]; rfl) (by rw [hstage]; rfl)
      (some .lifecycleError)
    refine h.put hi rfl rfl hsound ?_ ?_ ?_ (fun _ => rfl) h.released
    · simp [Call.held, hstage, BoundedValidationExecutor.put]
    · simp [Call.counted, hstage, BoundedValidationExecutor.put]
    · rw [hstage, hlock]; rfl
  · exact h

theorem Books.take (h : Books s) : Books s.take := by
  unfold BoundedValidationExecutor.take
  split
  · exact h
  · next i queue hqueue =>
    split
    · split
      · exact h
      · next c hi =>
        split
        · next hpending =>
          have hsubmitted : c.stage.unsubmitted = false := by
            rw [← Bool.not_eq_true, ← (h.sound_of hi).future_iff, hpending]
            exact Option.some_ne_none _
          have hsound := (h.sound_of hi).start hpending
          exact h.put hi rfl rfl hsound rfl rfl rfl h.closed h.released
        · exact { h with }
    · exact h

/-- The end of a wait, of a future that is left alone or cancelled. -/
theorem Books.endWait (h : Books s) (hi : s.calls[i]? = some c) (hstage : c.stage = .waiting)
    {c' : Call V} (hc' : c'.Sound) (hstage' : c'.stage = .waiting)
    (hleaving : c'.leaving = c.leaving) (hreleases : c'.releases = c.releases)
    (outcome : Option (Outcome V)) :
    Books (s.put i { c' with stage := .ended, outcome }) := by
  have hu : c.stage.unsubmitted = false := by rw [hstage]; rfl
  refine h.put_same hi (hc'.restage .ended ?_ ?_ outcome) (Call.held_eq hu rfl hreleases)
    (Call.counted_eq hu rfl hleaving hreleases) (by rw [hstage]; rfl)
  · rw [hstage']; rfl
  · rw [hstage']; rfl

/-- **Every step keeps the books.** -/
theorem Books.of_step (convert : Exc → Option Exc) (e : Event V) (h : Books s) :
    Books (step convert e s) := by
  cases e with
  | call async timeoutMs => exact h.enter async timeoutMs
  | proceed =>
    simp only [BoundedValidationExecutor.step]
    split
    · exact h
    · next i hlock =>
      exact move_of h fun c hi _ => h.proceed hlock hi
  | register i =>
    refine move_of h fun c hi hready => ?_
    have hstage : c.stage = .submitted := by simpa using hready
    have hu : c.stage.unsubmitted = false := by rw [hstage]; rfl
    exact h.put_same hi ((h.sound_of hi).register hstage s.now)
      (Call.held_eq hu rfl (Call.addDoneCallback_releases c))
      (Call.counted_eq hu rfl (Call.addDoneCallback_leaving c) (Call.addDoneCallback_releases c))
      (by rw [hstage]; rfl)
  | take => exact h.take
  | finish i result =>
    refine move_of h fun c hi hready => ?_
    have hrunning : c.future = some .running := by simpa using hready
    have hc := h.sound_of hi
    have hu : c.stage.unsubmitted = false := by
      rw [← Bool.not_eq_true, ← hc.future_iff, hrunning]
      exact Option.some_ne_none _
    have hdone : c.done = false := by simp [Call.done, hrunning, FutureState.done]
    refine h.put_same hi (hc.fire hdone (by simp [hrunning]) rfl (some result)) ?_ ?_
      (congrArg Stage.inside (Call.fire_stage _))
    · exact Call.held_eq hu (by rw [Call.fire_stage]; exact hu) (Call.fire_releases _)
    · exact Call.counted_eq hu (by rw [Call.fire_stage]; exact hu) (Call.fire_leaving _)
        (Call.fire_releases _)
  | countOut i =>
    refine move_of h fun c hi hready => ?_
    have hentering : 0 < c.entering := by
      have := (Bool.and_eq_true _ _).mp hready
      simpa using this.1
    have hc := h.sound_of hi
    obtain ⟨hu, hreleases, hone⟩ := hc.releases_eq_zero (by omega)
    refine h.put hi rfl rfl (hc.run (by omega)) ?_ ?_ rfl h.closed h.released
    · exact congrArg (s.sem + ·) (Call.held_eq hu hu rfl)
    · rw [Call.counted_of_submitted hu, Call.counted_of_submitted (by exact hu)]
      simp only
      omega
  | release i =>
    refine move_of h fun c hi hready => ?_
    have hleaving : 0 < c.leaving := by simpa using hready
    have hc := h.sound_of hi
    obtain ⟨hu, hreleases, hone⟩ := hc.releases_eq_zero (by omega)
    have hlt : s.sem < s.capacity :=
      h.sem_lt hi (by rw [Call.held_of_submitted hu, hreleases])
    rw [semRelease_of_lt (s := s.put i _) hlt]
    refine h.put hi rfl rfl (hc.run (by omega)) ?_ ?_ rfl h.closed h.released
    · rw [Call.held_of_submitted hu, Call.held_of_submitted (by exact hu)]
      simp only [BoundedValidationExecutor.put]
      omega
    · rw [Call.counted_of_submitted hu, Call.counted_of_submitted (by exact hu)]
      simp only [BoundedValidationExecutor.put]
      omega
  | timeout i =>
    refine move_of h fun c hi hready => ?_
    simp only [Bool.and_eq_true, decide_eq_true_eq] at hready
    exact h.endWait hi hready.1.1.1 (h.sound_of hi) hready.1.1.1 rfl rfl _
  | timeoutAsync i =>
    refine move_of h fun c hi hready => ?_
    simp only [Bool.and_eq_true, decide_eq_true_eq] at hready
    exact h.endWait hi hready.1.1 (h.sound_of hi).cancel ((Call.cancel_stage c).trans hready.1.1)
      (Call.cancel_leaving c) (Call.cancel_releases c) _
  | cancelCaller i =>
    refine move_of h fun c hi hready => ?_
    simp only [Bool.and_eq_true, decide_eq_true_eq] at hready
    exact h.endWait hi hready.1 (h.sound_of hi).cancel ((Call.cancel_stage c).trans hready.1)
      (Call.cancel_leaving c) (Call.cancel_releases c) _
  | deliver i =>
    refine move_of h fun c hi hready => ?_
    simp only [Bool.and_eq_true, decide_eq_true_eq] at hready
    exact h.endWait hi hready.1.1 (h.sound_of hi) hready.1.1 rfl rfl _
  | shutdown =>
    simp only [BoundedValidationExecutor.step]
    split
    · exact h
    · next hlock =>
      have hnone : s.lock = none := by simpa using hlock
      exact { h with closed := fun _ => hnone }
  | closePool => exact { h with }
  | tick elapsed =>
    simp only [BoundedValidationExecutor.step]
    split
    · exact { h with }
    · exact h

/-! ## Runs -/

theorem books_run (convert : Exc → Option Exc) (es : List (Event V)) (maxWorkers maxPending : ℕ) :
    Books (run (step convert) es (new maxWorkers maxPending)) :=
  run_of_kept (fun e _ h => h.of_step convert e) (books_new maxWorkers maxPending) es

theorem run_capacity_of (convert : Exc → Option Exc) {capacity : ℕ} (h : s.capacity = capacity)
    (es : List (Event V)) : (run (step convert) es s).capacity = capacity := by
  have hkept : ∀ e (t : BoundedValidationExecutor V), t.capacity = capacity →
      (step convert e t).capacity = capacity :=
    fun e t ht => (step_keeps convert e t).capacity_eq.trans ht
  exact run_of_kept hkept h es

theorem run_capacity (convert : Exc → Option Exc) (es : List (Event V))
    (maxWorkers maxPending : ℕ) :
    (run (step convert) es (new maxWorkers maxPending : BoundedValidationExecutor V)).capacity =
      maxWorkers + maxPending :=
  run_capacity_of convert rfl es

/-- **The count and the free permits stay within the capacity.** -/
theorem Books.bounds (h : Books s) :
    0 ≤ s.inFlight ∧ s.inFlight ≤ s.capacity ∧ s.inFlight + s.sem ≤ s.capacity := by
  have hle : (s.calls.map Call.counted).sum ≤ (s.calls.map Call.held).sum :=
    List.sum_le_sum fun c _ => c.counted_le_held
  have hsem := h.sem_add
  have hin := h.inFlight_eq
  omega

/-! ## Calls that were turned away -/

/-- **A call that was refused stays as it is.** -/
theorem not_change_of_refused {convert : Exc → Option Exc} {e : Event V} {c' : Call V}
    (hc : c.Sound) (hstage : c.stage = .refused) : ¬ Change convert s i e c c' := by
  have hfuture : c.future = none := by
    rw [hc.future_iff, hstage]
    rfl
  obtain ⟨-, hruns⟩ := hc.runs_eq_zero (by rw [hstage]; rfl)
  intro hchange
  cases hchange <;> simp_all

theorem refused_run (convert : Exc → Option Exc) (h : Books s) (hi : s.calls[i]? = some c)
    (hstage : c.stage = .refused) (es : List (Event V)) :
    (run (step convert) es s).calls[i]? = some c := by
  have hkept : ∀ e (t : BoundedValidationExecutor V), Books t ∧ t.calls[i]? = some c →
      Books (step convert e t) ∧ (step convert e t).calls[i]? = some c := by
    rintro e t ⟨h, hi⟩
    obtain ⟨c', hi', rfl | hchange⟩ := step_get convert e hi
    · exact ⟨h.of_step convert e, hi'⟩
    · exact absurd hchange (not_change_of_refused (h.sound_of hi) hstage)
  exact (run_of_kept hkept ⟨h, hi⟩ es).2

/-- A call that ended in `LoadShedError` was turned away. -/
def ShedRefused (s : BoundedValidationExecutor V) : Prop :=
  ∀ (i : ℕ) (c : Call V), s.calls[i]? = some c → c.outcome = some .loadShedError →
    c.stage = .refused

theorem ShedRefused.of_step (convert : Exc → Option Exc) (e : Event V) (h : Books s)
    (hshed : ShedRefused s) : ShedRefused (step convert e s) := by
  intro i c' hi' houtcome
  rcases step_back convert e hi' with ⟨c, hi, rfl | hchange⟩ | ⟨-, hfresh⟩
  · exact hshed i c' hi houtcome
  · rcases hchange.outcome_eq with heq | ⟨-, outcome, heq, hne⟩
    · have hstage := hshed i c hi (heq ▸ houtcome)
      exact absurd hchange (not_change_of_refused (h.sound_of hi) hstage)
    · rw [heq, Option.some.injEq] at houtcome
      exact absurd houtcome hne
  · cases hfresh with
    | acquired async timeoutMs hopen => cases houtcome
    | shed async timeoutMs => rfl
    | refused async timeoutMs hclosed => rfl

theorem shedRefused_run (convert : Exc → Option Exc) (es : List (Event V))
    (maxWorkers maxPending : ℕ) :
    ShedRefused (run (step convert) es (new maxWorkers maxPending)) := by
  have hkept : ∀ e (t : BoundedValidationExecutor V), Books t ∧ ShedRefused t →
      Books (step convert e t) ∧ ShedRefused (step convert e t) :=
    fun e t h => ⟨h.1.of_step convert e, h.2.of_step convert e h.1⟩
  refine (run_of_kept hkept ⟨books_new maxWorkers maxPending, ?_⟩ es).2
  intro i c hi
  cases hi

/-! ## After a shutdown -/

/-- **Nothing is accepted once the executor is shut down.** -/
theorem not_accepted_of_shutdown (convert : Exc → Option Exc) (e : Event V) (h : Books s)
    (hshut : s.shutdown = true) {c' : Call V}
    (hi : (step convert e s).calls[i]? = some c')
    (hfuture : c'.future ≠ none) : ∃ c, s.calls[i]? = some c ∧ c.future ≠ none := by
  have hlock := h.closed hshut
  rcases step_back convert e hi with ⟨c, hi, rfl | hchange⟩ | ⟨-, hfresh⟩
  · exact ⟨c', hi, hfuture⟩
  · refine ⟨c, hi, fun hnone => ?_⟩
    have hu := (h.sound_of hi).future_iff.mp hnone
    obtain ⟨hcallback, hruns⟩ : c.callback = false ∧ c.entering + c.leaving + c.releases = 0 := by
      refine (h.sound_of hi).runs_eq_zero ?_
      cases hstage : c.stage <;> simp_all [Stage.unsubmitted, Stage.registered]
    cases hchange <;> simp_all [Stage.unsubmitted]
  · cases hfresh <;> exact absurd rfl hfuture

end BoundedValidationExecutor

end Congine
