import Congine.Common.Rounding
import Congine.Kernel.Models
/-!
# The circuit breaker

Closed until a threshold of consecutive failures, then open until a
cooldown has elapsed, then half open for one probe whose outcome closes
it or opens it again. The lock is left out: a call is one step. The
clock's readings and the cooldown are finite doubles, by their values, and
a difference of readings is rounded to a double.
-/

namespace Congine

inductive BreakerState where
  | closed | opened | halfOpen
  deriving DecidableEq

/-- The constructor refuses a threshold that is not positive and a negative
cooldown. -/
structure CircuitBreaker where
  failureThreshold : ℕ := 5
  cooldownSeconds : ℚ := 30
  state : BreakerState := .closed
  consecutiveFailures : ℕ := 0
  openedAt : ℚ := 0
  probeInFlight : Bool := false
  deriving DecidableEq

namespace CircuitBreaker

/-- `__init__`. -/
def init (failureThreshold : ℤ) (cooldownSeconds : ℚ) : Except Exc CircuitBreaker :=
  if failureThreshold ≤ 0 then .error .valueError
  else if cooldownSeconds < 0 then .error .valueError
  else .ok { failureThreshold := failureThreshold.toNat, cooldownSeconds }

/-- `clock() - opened_at >= cooldown_seconds`. -/
def Cooled (cooldownSeconds openedAt now : ℚ) : Prop :=
  cooldownSeconds ≤ binary64.round (now - openedAt)

instance (cooldownSeconds openedAt now : ℚ) : Decidable (Cooled cooldownSeconds openedAt now) :=
  inferInstanceAs (Decidable (_ ≤ _))

/-- What has cooled down stays so. -/
theorem Cooled.mono {cooldownSeconds openedAt now later : ℚ}
    (h : Cooled cooldownSeconds openedAt now) (hle : now ≤ later) :
    Cooled cooldownSeconds openedAt later :=
  le_trans h (binary64.round_mono (sub_le_sub_right hle openedAt))

/-- `_maybe_half_open_locked`. -/
def maybeHalfOpen (b : CircuitBreaker) (now : ℚ) : CircuitBreaker :=
  if b.state = .opened ∧ Cooled b.cooldownSeconds b.openedAt now then
    { b with state := .halfOpen, probeInFlight := false }
  else b

/-- The `state` property, which moves the breaker on as `allow` does. -/
def readState (b : CircuitBreaker) (now : ℚ) : BreakerState × CircuitBreaker :=
  let b := b.maybeHalfOpen now
  (b.state, b)

def allow (b : CircuitBreaker) (now : ℚ) : Bool × CircuitBreaker :=
  let b := b.maybeHalfOpen now
  match b.state with
  | .closed => (true, b)
  | .opened => (false, b)
  -- One probe at a time, taken by the first to ask.
  | .halfOpen => if b.probeInFlight then (false, b) else (true, { b with probeInFlight := true })

def recordSuccess (b : CircuitBreaker) : CircuitBreaker :=
  { b with state := .closed, consecutiveFailures := 0, openedAt := 0, probeInFlight := false }

def recordFailure (b : CircuitBreaker) (now : ℚ) : CircuitBreaker :=
  let b := { b with probeInFlight := false }
  -- A failed probe reopens at once, whatever the count of failures.
  if b.state = .halfOpen then { b with state := .opened, openedAt := now }
  else
    let b := { b with consecutiveFailures := b.consecutiveFailures + 1 }
    if b.failureThreshold ≤ b.consecutiveFailures then { b with state := .opened, openedAt := now }
    else b

theorem init_eq_ok {failureThreshold : ℤ} {cooldownSeconds : ℚ} {b : CircuitBreaker}
    (h : init failureThreshold cooldownSeconds = .ok b) :
    0 < failureThreshold ∧
      b = { failureThreshold := failureThreshold.toNat, cooldownSeconds } := by
  unfold init at h
  split at h
  · cases h
  · split at h
    · cases h
    · exact ⟨by omega, (Except.ok.inj h).symm⟩

/-! ## What `allow` answers -/

section

variable {b : CircuitBreaker} {now : ℚ}

@[simp] theorem maybeHalfOpen_failureThreshold :
    (b.maybeHalfOpen now).failureThreshold = b.failureThreshold := by
  unfold maybeHalfOpen
  split <;> rfl

@[simp] theorem maybeHalfOpen_cooldownSeconds :
    (b.maybeHalfOpen now).cooldownSeconds = b.cooldownSeconds := by
  unfold maybeHalfOpen
  split <;> rfl

@[simp] theorem maybeHalfOpen_openedAt : (b.maybeHalfOpen now).openedAt = b.openedAt := by
  unfold maybeHalfOpen
  split <;> rfl

/-- The lazy transition never closes a breaker, and opens none. -/
theorem maybeHalfOpen_closed_iff : (b.maybeHalfOpen now).state = .closed ↔ b.state = .closed := by
  unfold maybeHalfOpen
  split
  · rename_i h
    simp [h.1]
  · exact Iff.rfl

theorem allow_of_closed (h : (b.maybeHalfOpen now).state = .closed) :
    b.allow now = (true, b.maybeHalfOpen now) := by
  simp only [allow, h]

theorem allow_of_opened (h : (b.maybeHalfOpen now).state = .opened) :
    b.allow now = (false, b.maybeHalfOpen now) := by
  simp only [allow, h]

/-- Half open, the probe slot is taken after the call whoever took it. -/
theorem allow_of_halfOpen (h : (b.maybeHalfOpen now).state = .halfOpen) :
    b.allow now = (!(b.maybeHalfOpen now).probeInFlight,
      { b.maybeHalfOpen now with probeInFlight := true }) := by
  unfold allow
  generalize b.maybeHalfOpen now = m at h ⊢
  obtain ⟨_, _, state, _, _, probeInFlight⟩ := m
  obtain rfl : state = .halfOpen := h
  cases probeInFlight <;> rfl

theorem allow_state : (b.allow now).2.state = (b.maybeHalfOpen now).state := by
  rcases h : (b.maybeHalfOpen now).state with _ | _ | _
  · rw [allow_of_closed h, h]
  · rw [allow_of_opened h, h]
  · rw [allow_of_halfOpen h, h]

theorem allow_closed_iff : (b.allow now).2.state = .closed ↔ b.state = .closed := by
  rw [allow_state, maybeHalfOpen_closed_iff]

theorem maybeHalfOpen_of_halfOpen (h : b.state = .halfOpen) : b.maybeHalfOpen now = b := by
  simp [maybeHalfOpen, h]

/-- While its probe is out a half-open breaker refuses and does not move. -/
theorem allow_of_probing (h : b.state = .halfOpen) (hprobe : b.probeInFlight = true) :
    b.allow now = (false, b) := by
  simp [allow, maybeHalfOpen_of_halfOpen h, h, hprobe]

@[simp] theorem recordFailure_probeInFlight : (b.recordFailure now).probeInFlight = false := by
  unfold recordFailure
  dsimp only
  split
  · rfl
  · split <;> rfl

/-- A failure closes no breaker. -/
theorem recordFailure_state_ne_closed (h : b.state ≠ .closed) :
    (b.recordFailure now).state ≠ .closed := by
  unfold recordFailure
  dsimp only
  split
  · simp
  · split
    · simp
    · exact h

/-! ## The probe flag -/

/-- The flag is up in a half-open breaker only. -/
def Flagged (b : CircuitBreaker) : Prop := b.probeInFlight = true → b.state = .halfOpen

theorem Flagged.maybeHalfOpen (hb : b.Flagged) : (b.maybeHalfOpen now).Flagged := by
  unfold CircuitBreaker.maybeHalfOpen
  split
  · exact fun _ => rfl
  · exact hb

theorem Flagged.allow (hb : b.Flagged) : (b.allow now).2.Flagged := by
  have hm : (b.maybeHalfOpen now).Flagged := hb.maybeHalfOpen
  rcases h : (b.maybeHalfOpen now).state with _ | _ | _
  · rwa [allow_of_closed h]
  · rwa [allow_of_opened h]
  · rw [allow_of_halfOpen h]
    exact fun _ => h

theorem flagged_recordSuccess : b.recordSuccess.Flagged := fun h => by cases h

theorem flagged_recordFailure : (b.recordFailure now).Flagged := fun h => by simp at h

end

end CircuitBreaker

end Congine
