import Mathlib.Logic.Function.Basic
import Congine.Common.Runs
import Congine.Infrastructure.CircuitBreaker
/-!
# Overlapping calls through one breaker

Callers that were granted a call report its result later, and the
breaker is not told whose result it is. `Traffic` keeps, beside the
breaker, what each caller was granted: the breaker reads none of it.
-/

namespace Congine

/-- What `allow` granted: a call through a closed breaker, or the probe of
one half-open period. -/
inductive Grant where
  | throughClosed
  | probe (period : ℕ)
  deriving DecidableEq

/-- `period` counts the half-open periods begun so far. -/
structure Traffic (Caller : Type*) where
  breaker : CircuitBreaker
  period : ℕ := 0
  outstanding : Caller → Option Grant := fun _ => none

inductive TrafficEvent (Caller : Type*) where
  | allow (c : Caller) (now : ℚ)
  | state (now : ℚ)
  | success (c : Caller)
  | failure (c : Caller) (now : ℚ)

namespace Traffic

variable {Caller : Type*} [DecidableEq Caller]

/-- The breaker moves on; from open to half open a period begins. -/
def moveTo (s : Traffic Caller) (breaker : CircuitBreaker) : Traffic Caller :=
  { s with
    breaker
    period := if s.breaker.state = .opened ∧ breaker.state = .halfOpen then s.period + 1
      else s.period }

def grant (s : Traffic Caller) (c : Caller) : Traffic Caller :=
  { s with
    outstanding := Function.update s.outstanding c
      (some (if s.breaker.state = .closed then .throughClosed else .probe s.period)) }

def settle (s : Traffic Caller) (c : Caller) : Traffic Caller :=
  { s with outstanding := Function.update s.outstanding c none }

/-- A caller asks when it has no call outstanding, and reports a result
when it has one. -/
def step : TrafficEvent Caller → Traffic Caller → Traffic Caller
  | .allow c now, s =>
    if (s.outstanding c).isSome then s
    else
      let (granted, breaker) := s.breaker.allow now
      if granted then (s.moveTo breaker).grant c else s.moveTo breaker
  | .state now, s => s.moveTo (s.breaker.readState now).2
  | .success c, s =>
    if (s.outstanding c).isSome then (s.moveTo s.breaker.recordSuccess).settle c else s
  | .failure c now, s =>
    if (s.outstanding c).isSome then (s.moveTo (s.breaker.recordFailure now)).settle c else s

/-! ## What is asked of a run -/

/-- At most one call granted in a half-open period is outstanding. -/
def OneProbe (s : Traffic Caller) : Prop :=
  ∀ c c' p p', s.outstanding c = some (.probe p) → s.outstanding c' = some (.probe p') → c = c'

/-- A step leaves the tripped breaker closed only as the success of the
period's own probe, and the result of a call granted before the trip
neither closes the breaker nor frees the probe slot. -/
structure Owned (e : TrafficEvent Caller) (s : Traffic Caller) : Prop where
  closes : s.breaker.state ≠ .closed → (step e s).breaker.state = .closed →
    s.breaker.state = .halfOpen ∧
      ∃ c, e = .success c ∧ s.outstanding c = some (.probe s.period)
  late : ∀ c, s.outstanding c = some .throughClosed →
    (e = .success c ∨ ∃ now, e = .failure c now) →
    (s.breaker.state ≠ .closed → (step e s).breaker.state ≠ .closed) ∧
      (s.breaker.probeInFlight = true → (step e s).breaker.probeInFlight = true)

/-- A success of a call granted through the closed breaker arrives while it
is closed, a failure of one while no probe is in flight. -/
def Timely : TrafficEvent Caller → Traffic Caller → Prop
  | .success c, s => s.outstanding c = some .throughClosed → s.breaker.state = .closed
  | .failure c _, s => s.outstanding c = some .throughClosed → s.breaker.probeInFlight = false
  | _, _ => True

/-! ## The invariant -/

section

variable {s : Traffic Caller} {b : CircuitBreaker} {c : Caller}

def NoProbe (s : Traffic Caller) : Prop := ∀ c p, s.outstanding c ≠ some (.probe p)

/-- An outstanding probe is the running period's, and is the one the
breaker's flag stands for. -/
structure Probing (s : Traffic Caller) : Prop where
  flagged : s.breaker.Flagged
  current : ∀ c p, s.outstanding c = some (.probe p) →
    p = s.period ∧ s.breaker.state = .halfOpen ∧ s.breaker.probeInFlight = true
  one : s.OneProbe

omit [DecidableEq Caller] in
theorem NoProbe.probing (h : s.NoProbe) (hb : s.breaker.Flagged) : s.Probing where
  flagged := hb
  current c p hp := absurd hp (h c p)
  one c _ p _ hp _ := absurd hp (h c p)

omit [DecidableEq Caller] in
theorem Probing.noProbe_of_closed (hs : s.Probing) (h : s.breaker.state = .closed) : s.NoProbe := by
  intro c p hp
  have hhalf := (hs.current c p hp).2.1
  rw [h] at hhalf
  cases hhalf

omit [DecidableEq Caller] in
theorem Probing.noProbe_of_free (hs : s.Probing) (h : s.breaker.probeInFlight = false) :
    s.NoProbe := by
  intro c p hp
  have hflag := (hs.current c p hp).2.2
  rw [h] at hflag
  cases hflag

omit [DecidableEq Caller] in
@[simp] theorem moveTo_breaker : (s.moveTo b).breaker = b := rfl

omit [DecidableEq Caller] in
@[simp] theorem moveTo_outstanding : (s.moveTo b).outstanding = s.outstanding := rfl

omit [DecidableEq Caller] in
theorem moveTo_self : s.moveTo s.breaker = s := by
  have h : ¬ (s.breaker.state = .opened ∧ s.breaker.state = .halfOpen) := by
    rintro ⟨h, h'⟩
    rw [h] at h'
    cases h'
  simp [moveTo, h]

@[simp] theorem settle_breaker : (s.settle c).breaker = s.breaker := rfl

@[simp] theorem grant_breaker : (s.grant c).breaker = s.breaker := rfl

/-- Settling the one probe, or any call where there is none, leaves none. -/
theorem NoProbe.settle (h : s.NoProbe) : (s.settle c).NoProbe := by
  intro c' p hp
  by_cases hc : c' = c
  · subst hc
    simp [Traffic.settle] at hp
  · exact h c' p (by simpa [Traffic.settle, hc] using hp)

theorem Probing.noProbe_settle (hs : s.Probing) {p : ℕ} (h : s.outstanding c = some (.probe p)) :
    (s.settle c).NoProbe := by
  intro c' p' hp
  by_cases hc : c' = c
  · subst hc
    simp [Traffic.settle] at hp
  · exact hc (hs.one c' c p' p (by simpa [Traffic.settle, hc] using hp) h)

/-- A grant where no probe is outstanding. -/
theorem NoProbe.grant (h : s.NoProbe) (hb : s.breaker.Flagged)
    (hflag : s.breaker.state ≠ .closed →
      s.breaker.state = .halfOpen ∧ s.breaker.probeInFlight = true) : (s.grant c).Probing := by
  by_cases hclosed : s.breaker.state = .closed
  · refine NoProbe.probing (fun c' p hp => ?_) hb
    by_cases hc : c' = c
    · subst hc
      simp [Traffic.grant, hclosed] at hp
    · exact h c' p (by simpa [Traffic.grant, hc] using hp)
  · have honly : ∀ c' p, (s.grant c).outstanding c' = some (.probe p) → c' = c ∧ p = s.period := by
      intro c' p hp
      by_cases hc : c' = c
      · subst hc
        simp only [Traffic.grant, hclosed, if_false, Function.update_self, Option.some.injEq,
          Grant.probe.injEq] at hp
        exact ⟨rfl, hp.symm⟩
      · exact absurd (by simpa [Traffic.grant, hc] using hp) (h c' p)
    exact
      { flagged := hb
        current := fun c' p hp => ⟨(honly c' p hp).2, hflag hclosed⟩
        one := fun c₁ c₂ p₁ p₂ h₁ h₂ => (honly c₁ p₁ h₁).1.trans (honly c₂ p₂ h₂).1.symm }

/-! ## What one event does -/

variable {now : ℚ}

theorem step_success (h : (s.outstanding c).isSome) :
    step (.success c) s = (s.moveTo s.breaker.recordSuccess).settle c := by
  simp only [step, h, if_true]

theorem step_failure (h : (s.outstanding c).isSome) :
    step (.failure c now) s = (s.moveTo (s.breaker.recordFailure now)).settle c := by
  simp only [step, h, if_true]

theorem step_success_of_idle (h : ¬ (s.outstanding c).isSome) : step (.success c) s = s := by
  simp only [step, h, Bool.false_eq_true, if_false]

theorem step_failure_of_idle (h : ¬ (s.outstanding c).isSome) :
    step (.failure c now) s = s := by
  simp only [step, h, Bool.false_eq_true, if_false]

theorem step_allow_of_busy (h : (s.outstanding c).isSome) : step (.allow c now) s = s := by
  simp only [step, h, if_true]

theorem step_allow (h : ¬ (s.outstanding c).isSome) :
    step (.allow c now) s =
      if (s.breaker.allow now).1 then (s.moveTo (s.breaker.allow now).2).grant c
      else s.moveTo (s.breaker.allow now).2 := by
  simp only [step, h, Bool.false_eq_true, if_false]

/-- A breaker whose probe is out refuses, so an outstanding probe is left
as it is. -/
theorem Probing.readState (hs : s.Probing) : (step (.state now) s).Probing := by
  by_cases h : s.NoProbe
  · have hm : (s.moveTo (s.breaker.readState now).2).NoProbe := h
    exact hm.probing hs.flagged.maybeHalfOpen
  · simp only [NoProbe, not_forall, not_not] at h
    obtain ⟨c, p, hp⟩ := h
    have hhalf := (hs.current c p hp).2.1
    have hsame : step (.state now) s = s := by
      simp only [step, CircuitBreaker.readState, CircuitBreaker.maybeHalfOpen_of_halfOpen hhalf,
        moveTo_self]
    rwa [hsame]

theorem Probing.allow (hs : s.Probing) : (step (.allow c now) s).Probing := by
  by_cases hsome : (s.outstanding c).isSome
  · rwa [step_allow_of_busy hsome]
  · rw [step_allow hsome]
    by_cases h : s.NoProbe
    · have hm : (s.moveTo (s.breaker.allow now).2).NoProbe := h
      have hflag : (s.breaker.allow now).2.Flagged := hs.flagged.allow
      split
      · rename_i hgranted
        refine hm.grant hflag fun hopen => ?_
        rcases hstate : (s.breaker.maybeHalfOpen now).state with _ | _ | _
        · rw [moveTo_breaker, CircuitBreaker.allow_state] at hopen
          exact absurd hstate hopen
        · rw [CircuitBreaker.allow_of_opened hstate] at hgranted
          cases hgranted
        · rw [moveTo_breaker, CircuitBreaker.allow_of_halfOpen hstate]
          exact ⟨hstate, rfl⟩
      · exact hm.probing hflag
    · simp only [NoProbe, not_forall, not_not] at h
      obtain ⟨c', p, hp⟩ := h
      obtain ⟨-, hhalf, hprobe⟩ := hs.current c' p hp
      simpa only [CircuitBreaker.allow_of_probing hhalf hprobe, Bool.false_eq_true, if_false,
        moveTo_self] using hs

/-- A result settles the probe, or comes where there is none. -/
theorem Probing.settle (hs : s.Probing) (hb : b.Flagged) (hsome : (s.outstanding c).isSome)
    (h : s.outstanding c = some .throughClosed → s.NoProbe) :
    ((s.moveTo b).settle c).Probing := by
  obtain ⟨g, hg⟩ := Option.isSome_iff_exists.mp hsome
  rcases g with _ | p
  · have hm : (s.moveTo b).NoProbe := h hg
    exact hm.settle.probing hb
  · have hnone : (s.settle c).NoProbe := hs.noProbe_settle hg
    have hm : ((s.moveTo b).settle c).NoProbe := hnone
    exact hm.probing hb

/-- **A timely step keeps the invariant.** -/
theorem Probing.step {e : TrafficEvent Caller} (ht : Timely e s) (hs : s.Probing) :
    (step e s).Probing := by
  cases e with
  | allow c now => exact hs.allow
  | state now => exact hs.readState
  | success c =>
    by_cases hsome : (s.outstanding c).isSome
    · rw [step_success hsome]
      exact hs.settle CircuitBreaker.flagged_recordSuccess hsome
        fun h => hs.noProbe_of_closed (ht h)
    · rwa [step_success_of_idle hsome]
  | failure c now =>
    by_cases hsome : (s.outstanding c).isSome
    · rw [step_failure hsome]
      exact hs.settle CircuitBreaker.flagged_recordFailure hsome
        fun h => hs.noProbe_of_free (ht h)
    · rwa [step_failure_of_idle hsome]

/-- **A timely step closes the breaker as the probe's success only, and a
late result does nothing to the probe.** -/
theorem Probing.owned {e : TrafficEvent Caller} (ht : Timely e s) (hs : s.Probing) :
    Owned e s where
  closes hopen hclosed := by
    cases e with
    | allow c now =>
      refine absurd ?_ hopen
      by_cases hsome : (s.outstanding c).isSome
      · rwa [step_allow_of_busy hsome] at hclosed
      · rw [step_allow hsome] at hclosed
        rw [← CircuitBreaker.allow_closed_iff]
        split at hclosed <;> exact hclosed
    | state now => exact absurd (CircuitBreaker.maybeHalfOpen_closed_iff.mp hclosed) hopen
    | success c =>
      by_cases hsome : (s.outstanding c).isSome
      · obtain ⟨g, hg⟩ := Option.isSome_iff_exists.mp hsome
        rcases g with _ | p
        · exact absurd (ht hg) hopen
        · obtain ⟨rfl, hhalf, -⟩ := hs.current c p hg
          exact ⟨hhalf, c, rfl, hg⟩
      · rw [step_success_of_idle hsome] at hclosed
        exact absurd hclosed hopen
    | failure c now =>
      by_cases hsome : (s.outstanding c).isSome
      · rw [step_failure hsome] at hclosed
        exact absurd hclosed (CircuitBreaker.recordFailure_state_ne_closed hopen)
      · rw [step_failure_of_idle hsome] at hclosed
        exact absurd hclosed hopen
  late c hc hevent := by
    have hsome : (s.outstanding c).isSome := by rw [hc]; rfl
    rcases hevent with rfl | ⟨now, rfl⟩
    · have hclosed : s.breaker.state = .closed := ht hc
      refine ⟨fun h => absurd hclosed h, fun hprobe => ?_⟩
      have hhalf := hs.flagged hprobe
      rw [hclosed] at hhalf
      cases hhalf
    · have hfree : s.breaker.probeInFlight = false := ht hc
      refine ⟨fun h => ?_, fun hprobe => ?_⟩
      · rw [step_failure hsome]
        exact CircuitBreaker.recordFailure_state_ne_closed h
      · rw [hfree] at hprobe
        cases hprobe

/-- An untimely result does what a late result must not do. -/
theorem Owned.timely {e : TrafficEvent Caller} (h : Owned e s) : Timely e s := by
  cases e with
  | allow c now => trivial
  | state now => trivial
  | success c =>
    intro hc
    have hsome : (s.outstanding c).isSome := by rw [hc]; rfl
    by_contra hopen
    refine (h.late c hc (.inl rfl)).1 hopen ?_
    rw [step_success hsome]
    rfl
  | failure c now =>
    intro hc
    have hsome : (s.outstanding c).isSome := by rw [hc]; rfl
    by_contra hprobe
    have hkept := (h.late c hc (.inr ⟨now, rfl⟩)).2 (by simpa using hprobe)
    rw [step_failure hsome, settle_breaker, moveTo_breaker,
      CircuitBreaker.recordFailure_probeInFlight] at hkept
    cases hkept

end

/-! ## Over a whole run -/

omit [DecidableEq Caller] in
theorem probing_init {failureThreshold : ℤ} {cooldownSeconds : ℚ} {b : CircuitBreaker}
    (h : CircuitBreaker.init failureThreshold cooldownSeconds = .ok b) :
    ({ breaker := b } : Traffic Caller).Probing := by
  have hnone : ({ breaker := b } : Traffic Caller).NoProbe := fun _ _ hp => by cases hp
  refine hnone.probing fun hprobe => ?_
  rw [(CircuitBreaker.init_eq_ok h).2] at hprobe
  cases hprobe

/-- **A breaker is driven by its own probes exactly when results are timely.**
In a run each step closes the tripped breaker only as the success of the
period's probe, leaves the probe to itself, and keeps at most one probe
outstanding, if and only if no call granted before a trip succeeds while
the breaker is not closed or fails while a probe is in flight. -/
theorem owned_iff_timely {failureThreshold : ℤ} {cooldownSeconds : ℚ} {b : CircuitBreaker}
    (hnew : CircuitBreaker.init failureThreshold cooldownSeconds = .ok b)
    (events : List (TrafficEvent Caller)) :
    Along step (fun e s => Owned e s ∧ OneProbe (step e s)) events { breaker := b } ↔
      Along step Timely events { breaker := b } := by
  constructor
  · exact along_mono fun e s h => h.1.timely
  · intro h
    exact along_of_invariant (fun e s ht hs => Probing.step ht hs)
      (fun e s ht hs => ⟨Probing.owned ht hs, (Probing.step ht hs).one⟩) h (probing_init hnew)

/-- A trip, its cooldown and the probe that closes it. -/
theorem owned_iff_timely_probe :
    Along step (fun e s => Owned e s ∧ OneProbe (step e s))
      [.allow 0 0, .failure 0 1, .allow 1 31, .success 1]
      ({ breaker := { failureThreshold := 1, cooldownSeconds := 30 } } : Traffic ℕ) := by
  have hnew : CircuitBreaker.init 1 30 =
      .ok { failureThreshold := 1, cooldownSeconds := 30 } := rfl
  refine (owned_iff_timely hnew _).mpr ⟨trivial, ?_, trivial, ?_, trivial⟩
  · exact fun _ => by decide +kernel
  · intro h
    exact absurd h (by decide +kernel)

/-- Two calls are granted, one trips the breaker. The success of the other
closes it within the cooldown; its failure during the probe lets a second
probe out beside the first. -/
theorem late_results_drive :
    ¬ Along step (fun e s => Owned e s ∧ OneProbe (step e s))
      [.allow 0 0, .allow 1 0, .failure 0 1, .success 1]
      ({ breaker := { failureThreshold := 1, cooldownSeconds := 30 } } : Traffic ℕ) ∧
    ¬ Along step (fun e s => Owned e s ∧ OneProbe (step e s))
      [.allow 0 0, .allow 1 0, .failure 0 1, .allow 2 31, .failure 1 32, .allow 3 62]
      ({ breaker := { failureThreshold := 1, cooldownSeconds := 30 } } : Traffic ℕ) := by
  constructor
  · rintro ⟨-, -, -, ⟨hsuccess, -⟩, -⟩
    obtain ⟨hhalf, -⟩ := hsuccess.closes (by decide +kernel) (by decide +kernel)
    exact absurd hhalf (by decide +kernel)
  · rintro ⟨-, -, -, -, -, ⟨-, hone⟩, -⟩
    have hprobes := hone 2 3 1 2 (by decide +kernel) (by decide +kernel)
    exact absurd hprobes (by decide)

end Traffic

end Congine
