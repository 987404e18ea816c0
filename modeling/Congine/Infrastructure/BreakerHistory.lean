import Mathlib.Data.List.Induction
import Congine.Common.Runs
import Congine.Infrastructure.CircuitBreaker
/-!
# The breaker and its history

What the breaker answers is decided by the calls made on it: by the
failures recorded since the last success, by the time of the last of
them, and by whether the cooldown's probe has been handed out since.
`Tracks` ties these to the fields the breaker keeps, and every operation
keeps `Tracks`.
-/

namespace Congine

inductive BreakerOp where
  | allow | state | recordSuccess | recordFailure
  deriving DecidableEq

/-- One call and the clock's reading in it. -/
structure BreakerCall where
  op : BreakerOp
  now : ℚ
  deriving DecidableEq

namespace BreakerCall

def isAllow (c : BreakerCall) : Bool := c.op = .allow

def isSuccess (c : BreakerCall) : Bool := c.op = .recordSuccess

def isFailure (c : BreakerCall) : Bool := c.op = .recordFailure

def isRecord (c : BreakerCall) : Bool := c.isSuccess || c.isFailure

end BreakerCall

/-! ## What a history says -/

/-- The failures recorded since the last success, or since construction. -/
def failuresSinceSuccess (calls : List BreakerCall) : ℕ :=
  (sinceLast BreakerCall.isSuccess calls).countP BreakerCall.isFailure

/-- The time of the most recent recorded failure. -/
def lastFailureAt (calls : List BreakerCall) : Option ℚ :=
  (calls.reverse.find? BreakerCall.isFailure).map BreakerCall.now

/-- Since the last record call, `allow` was called at a time that had cooled
down. -/
def AskedSince (calls : List BreakerCall) (cooled : ℚ → Prop) : Prop :=
  ∃ c ∈ sinceLast BreakerCall.isRecord calls, c.isAllow ∧ cooled c.now

/-- The clock never goes back, and `now` is its latest reading. -/
def ClockUpTo (calls : List BreakerCall) (now : ℚ) : Prop :=
  (calls.map BreakerCall.now ++ [now]).Pairwise (· ≤ ·)

section

variable (calls : List BreakerCall) (now : ℚ)

@[simp] theorem failuresSinceSuccess_allow :
    failuresSinceSuccess (calls ++ [⟨.allow, now⟩]) = failuresSinceSuccess calls := by
  simp [failuresSinceSuccess, BreakerCall.isSuccess, BreakerCall.isFailure]

@[simp] theorem failuresSinceSuccess_state :
    failuresSinceSuccess (calls ++ [⟨.state, now⟩]) = failuresSinceSuccess calls := by
  simp [failuresSinceSuccess, BreakerCall.isSuccess, BreakerCall.isFailure]

@[simp] theorem failuresSinceSuccess_recordSuccess :
    failuresSinceSuccess (calls ++ [⟨.recordSuccess, now⟩]) = 0 := by
  simp [failuresSinceSuccess, BreakerCall.isSuccess]

@[simp] theorem failuresSinceSuccess_recordFailure :
    failuresSinceSuccess (calls ++ [⟨.recordFailure, now⟩]) = failuresSinceSuccess calls + 1 := by
  simp [failuresSinceSuccess, BreakerCall.isSuccess, BreakerCall.isFailure]

@[simp] theorem lastFailureAt_allow :
    lastFailureAt (calls ++ [⟨.allow, now⟩]) = lastFailureAt calls := by
  simp [lastFailureAt, BreakerCall.isFailure]

@[simp] theorem lastFailureAt_state :
    lastFailureAt (calls ++ [⟨.state, now⟩]) = lastFailureAt calls := by
  simp [lastFailureAt, BreakerCall.isFailure]

@[simp] theorem lastFailureAt_recordFailure :
    lastFailureAt (calls ++ [⟨.recordFailure, now⟩]) = some now := by
  simp [lastFailureAt, BreakerCall.isFailure]

@[simp] theorem askedSince_allow (cooled : ℚ → Prop) :
    AskedSince (calls ++ [⟨.allow, now⟩]) cooled ↔ cooled now ∨ AskedSince calls cooled := by
  simp [AskedSince, BreakerCall.isRecord, BreakerCall.isSuccess, BreakerCall.isFailure,
    BreakerCall.isAllow]

@[simp] theorem askedSince_state (cooled : ℚ → Prop) :
    AskedSince (calls ++ [⟨.state, now⟩]) cooled ↔ AskedSince calls cooled := by
  simp [AskedSince, BreakerCall.isRecord, BreakerCall.isSuccess, BreakerCall.isFailure,
    BreakerCall.isAllow]

@[simp] theorem not_askedSince_recordFailure (cooled : ℚ → Prop) :
    ¬ AskedSince (calls ++ [⟨.recordFailure, now⟩]) cooled := by
  simp [AskedSince, BreakerCall.isRecord, BreakerCall.isFailure]

end

theorem clockUpTo_concat {calls : List BreakerCall} {c : BreakerCall} {now : ℚ}
    (h : ClockUpTo (calls ++ [c]) now) : ClockUpTo calls c.now ∧ c.now ≤ now := by
  unfold ClockUpTo at h ⊢
  rw [List.map_append, List.pairwise_append] at h
  obtain ⟨hcalls, -, hlast⟩ := h
  exact ⟨hcalls, hlast c.now (by simp) now (by simp)⟩

namespace CircuitBreaker

/-- What a call does to the breaker. -/
def call (c : BreakerCall) (b : CircuitBreaker) : CircuitBreaker :=
  match c.op with
  | .allow => (b.allow c.now).2
  | .state => (b.readState c.now).2
  | .recordSuccess => b.recordSuccess
  | .recordFailure => b.recordFailure c.now

/-- A half-open breaker whose probe is out waits for a record, whatever is
asked of it meanwhile. -/
theorem run_of_probing {b : CircuitBreaker} (hhalf : b.state = .halfOpen)
    (hprobe : b.probeInFlight = true) {calls : List BreakerCall}
    (hcalls : ∀ c ∈ calls, c.isRecord = false) : run call calls b = b := by
  induction calls with
  | nil => rfl
  | cons c calls ih =>
    have hc : b.call c = b := by
      have hrecord := hcalls c List.mem_cons_self
      obtain ⟨op, now⟩ := c
      cases op with
      | allow => simp only [call, allow_of_probing hhalf hprobe]
      | state => exact maybeHalfOpen_of_halfOpen hhalf
      | recordSuccess => cases hrecord
      | recordFailure => cases hrecord
    rw [run_cons, hc]
    exact ih fun c hc => hcalls c (List.mem_cons_of_mem _ hc)

/-! ## The invariant -/

/-- The breaker holds what the history says. The counter is exact only
while the breaker is closed, the probe flag only while it is half open. -/
structure Tracks (calls : List BreakerCall) (now : ℚ) (b : CircuitBreaker) : Prop where
  threshold_pos : 0 < b.failureThreshold
  closed : b.state = .closed → b.consecutiveFailures = failuresSinceSuccess calls ∧
    failuresSinceSuccess calls < b.failureThreshold
  tripped : b.state ≠ .closed → b.failureThreshold ≤ failuresSinceSuccess calls ∧
    b.failureThreshold ≤ b.consecutiveFailures ∧ lastFailureAt calls = some b.openedAt
  opened : b.state = .opened → ¬ AskedSince calls (Cooled b.cooldownSeconds b.openedAt)
  halfOpen : b.state = .halfOpen → Cooled b.cooldownSeconds b.openedAt now ∧
    (b.probeInFlight = true ↔ AskedSince calls (Cooled b.cooldownSeconds b.openedAt))

theorem tracks_init {failureThreshold : ℤ} {cooldownSeconds : ℚ} {b : CircuitBreaker}
    (h : init failureThreshold cooldownSeconds = .ok b) (now : ℚ) : b.Tracks [] now := by
  obtain ⟨hpos, rfl⟩ := init_eq_ok h
  have hthreshold : 0 < failureThreshold.toNat := by omega
  exact
    { threshold_pos := hthreshold
      closed := fun _ => ⟨rfl, hthreshold⟩
      tripped := fun h => absurd rfl h
      opened := fun h => by cases h
      halfOpen := fun h => by cases h }

section

variable {calls : List BreakerCall} {clock now : ℚ} {b : CircuitBreaker}

/-- The lazy transition keeps the invariant at its own clock reading. -/
theorem Tracks.maybeHalfOpen (hb : b.Tracks calls clock) (hclock : clock ≤ now) :
    (b.maybeHalfOpen now).Tracks calls now := by
  unfold CircuitBreaker.maybeHalfOpen
  split
  · rename_i h
    have htripped := hb.tripped (by simp [h.1])
    exact
      { threshold_pos := hb.threshold_pos
        closed := fun h => by cases h
        tripped := fun _ => htripped
        opened := fun h => by cases h
        halfOpen := fun _ => ⟨h.2, by simpa using hb.opened h.1⟩ }
  · exact
      { threshold_pos := hb.threshold_pos
        closed := hb.closed
        tripped := hb.tripped
        opened := hb.opened
        halfOpen := fun h => ⟨(hb.halfOpen h).1.mono hclock, (hb.halfOpen h).2⟩ }

/-- A breaker still open after the lazy transition is still cooling down. -/
theorem cooling_of_opened (h : (b.maybeHalfOpen now).state = .opened) :
    ¬ Cooled b.cooldownSeconds b.openedAt now := by
  unfold CircuitBreaker.maybeHalfOpen at h
  split at h
  · cases h
  · rename_i hc
    exact fun hcooled => hc ⟨h, hcooled⟩

theorem Tracks.state (hb : b.Tracks calls now) : b.Tracks (calls ++ [⟨.state, now⟩]) now where
  threshold_pos := hb.threshold_pos
  closed := by simpa using hb.closed
  tripped := by simpa using hb.tripped
  opened := by simpa using hb.opened
  halfOpen := by simpa using hb.halfOpen

theorem Tracks.allow (hb : b.Tracks calls clock) (hclock : clock ≤ now) :
    (b.allow now).2.Tracks (calls ++ [⟨.allow, now⟩]) now := by
  have hm := hb.maybeHalfOpen hclock
  rcases hs : (b.maybeHalfOpen now).state with _ | _ | _
  · rw [allow_of_closed hs]
    exact
      { threshold_pos := hm.threshold_pos
        closed := by simpa using hm.closed
        tripped := by simpa using hm.tripped
        opened := fun h => by simp [hs] at h
        halfOpen := fun h => by simp [hs] at h }
  · rw [allow_of_opened hs]
    have hcooling := cooling_of_opened hs
    exact
      { threshold_pos := hm.threshold_pos
        closed := fun h => by simp [hs] at h
        tripped := by simpa using hm.tripped
        opened := fun _ => by simpa [not_or, hcooling] using hm.opened hs
        halfOpen := fun h => by simp [hs] at h }
  · rw [allow_of_halfOpen hs]
    have hcooled := (hm.halfOpen hs).1
    simp only [maybeHalfOpen_openedAt, maybeHalfOpen_cooldownSeconds] at hcooled
    exact
      { threshold_pos := hm.threshold_pos
        closed := fun h => by simp [hs] at h
        tripped := by simpa using hm.tripped
        opened := fun h => by simp [hs] at h
        halfOpen := fun _ => ⟨by simpa using hcooled, by simp [hcooled]⟩ }

theorem Tracks.recordSuccess (hb : b.Tracks calls clock) :
    b.recordSuccess.Tracks (calls ++ [⟨.recordSuccess, now⟩]) now where
  threshold_pos := hb.threshold_pos
  closed _ := by
    rw [failuresSinceSuccess_recordSuccess]
    exact ⟨rfl, hb.threshold_pos⟩
  tripped h := absurd rfl h
  opened h := by cases h
  halfOpen h := by cases h

theorem Tracks.recordFailure (hb : b.Tracks calls clock) :
    (b.recordFailure now).Tracks (calls ++ [⟨.recordFailure, now⟩]) now := by
  unfold CircuitBreaker.recordFailure
  dsimp only
  split
  · rename_i hs
    obtain ⟨hfailures, hcounter, -⟩ := hb.tripped (by simp [hs])
    exact
      { threshold_pos := hb.threshold_pos
        closed := fun h => by cases h
        tripped := fun _ => ⟨by simp; omega, hcounter, by simp⟩
        opened := fun _ => by simp
        halfOpen := fun h => by cases h }
  · rename_i hs
    have hcount : b.failureThreshold ≤ b.consecutiveFailures + 1 ↔
        b.failureThreshold ≤ failuresSinceSuccess calls + 1 := by
      by_cases hclosed : b.state = .closed
      · rw [(hb.closed hclosed).1]
      · obtain ⟨hfailures, hcounter, -⟩ := hb.tripped hclosed
        omega
    split
    · rename_i hlimit
      exact
        { threshold_pos := hb.threshold_pos
          closed := fun h => by cases h
          tripped := fun _ => ⟨by simpa using hcount.mp hlimit, hlimit, by simp⟩
          opened := fun _ => by simp
          halfOpen := fun h => by cases h }
    · rename_i hlimit
      -- below the threshold the breaker was closed, and stays so
      have hclosed : b.state = .closed := by
        by_contra h
        have := (hb.tripped h).2.1
        omega
      have hcounter := (hb.closed hclosed).1
      have hbelow : failuresSinceSuccess calls + 1 < b.failureThreshold := by omega
      exact
        { threshold_pos := hb.threshold_pos
          closed := fun _ => ⟨by simp [hcounter], by simpa using hbelow⟩
          tripped := fun h => absurd hclosed h
          opened := fun h => by simp [hclosed] at h
          halfOpen := fun h => by simp [hclosed] at h }

/-- **Every call keeps the invariant.** -/
theorem Tracks.call {c : BreakerCall} (hb : b.Tracks calls clock) (hclock : clock ≤ c.now) :
    (b.call c).Tracks (calls ++ [c]) c.now := by
  obtain ⟨op, time⟩ := c
  cases op with
  | allow => exact hb.allow hclock
  | state => exact (hb.maybeHalfOpen hclock).state
  | recordSuccess => exact hb.recordSuccess
  | recordFailure => exact hb.recordFailure

end

/-! ## Over a whole history -/

theorem run_tracks {failureThreshold : ℤ} {cooldownSeconds : ℚ} {b : CircuitBreaker}
    (h : init failureThreshold cooldownSeconds = .ok b)
    {calls : List BreakerCall} {now : ℚ} (hclock : ClockUpTo calls now) :
    ∃ clock ≤ now, (run call calls b).Tracks calls clock := by
  induction calls using List.reverseRecOn generalizing now with
  | nil => exact ⟨now, le_rfl, tracks_init h now⟩
  | append_singleton calls c ih =>
    obtain ⟨hcalls, hnow⟩ := clockUpTo_concat hclock
    obtain ⟨clock, hle, htracks⟩ := ih hcalls
    rw [run_concat]
    exact ⟨c.now, hnow, htracks.call hle⟩

/-- No call changes what the constructor was given. -/
theorem call_parameters (c : BreakerCall) (b : CircuitBreaker) :
    (b.call c).failureThreshold = b.failureThreshold ∧
      (b.call c).cooldownSeconds = b.cooldownSeconds := by
  obtain ⟨op, now⟩ := c
  cases op with
  | allow =>
    rcases hs : (b.maybeHalfOpen now).state with _ | _ | _
    · simp [call, allow_of_closed hs]
    · simp [call, allow_of_opened hs]
    · simp [call, allow_of_halfOpen hs]
  | state => simp [call, readState]
  | recordSuccess => exact ⟨rfl, rfl⟩
  | recordFailure =>
    simp only [call, recordFailure]
    split
    · exact ⟨rfl, rfl⟩
    · split <;> exact ⟨rfl, rfl⟩

theorem run_parameters (calls : List BreakerCall) (b : CircuitBreaker) :
    (run call calls b).failureThreshold = b.failureThreshold ∧
      (run call calls b).cooldownSeconds = b.cooldownSeconds := by
  induction calls generalizing b with
  | nil => exact ⟨rfl, rfl⟩
  | cons c calls ih =>
    rw [run_cons, (ih _).1, (ih _).2]
    exact call_parameters c b

/-! ## What a tracked breaker answers -/

section

variable {calls : List BreakerCall} {clock now : ℚ} {b : CircuitBreaker}

theorem Tracks.closed_iff (hb : b.Tracks calls clock) :
    b.state = .closed ↔ failuresSinceSuccess calls < b.failureThreshold := by
  constructor
  · exact fun h => (hb.closed h).2
  · intro h
    by_contra htripped
    have := (hb.tripped htripped).1
    omega

theorem Tracks.allow_of_below (hb : b.Tracks calls clock)
    (h : failuresSinceSuccess calls < b.failureThreshold) : (b.allow now).1 = true := by
  rw [allow_of_closed (maybeHalfOpen_closed_iff.mpr (hb.closed_iff.mpr h))]

/-- Tripped, the answer is decided by the cooldown and by who asked since. -/
theorem Tracks.allow_iff_of_tripped (hb : b.Tracks calls clock) (hclock : clock ≤ now)
    (h : b.failureThreshold ≤ failuresSinceSuccess calls) :
    ∃ time, lastFailureAt calls = some time ∧
      ((b.allow now).1 = true ↔ Cooled b.cooldownSeconds time now ∧
        ¬ AskedSince calls (Cooled b.cooldownSeconds time)) := by
  have htripped : b.state ≠ .closed := by
    intro hclosed
    have := (hb.closed hclosed).2
    omega
  refine ⟨b.openedAt, (hb.tripped htripped).2.2, ?_⟩
  have hm := hb.maybeHalfOpen hclock
  rcases hs : (b.maybeHalfOpen now).state with _ | _ | _
  · exact absurd (maybeHalfOpen_closed_iff.mp hs) htripped
  · have hcooling := cooling_of_opened hs
    simp [allow_of_opened hs, hcooling]
  · have hcooled := hm.halfOpen hs
    simp only [maybeHalfOpen_openedAt, maybeHalfOpen_cooldownSeconds] at hcooled
    simp [allow_of_halfOpen hs, hcooled.1, ← hcooled.2]

end

/-- **The history law.** The breaker is closed exactly while fewer than
`failureThreshold` failures have been recorded since the last success, and
then it allows every call. Otherwise it allows a call when the time since
the last failure, as doubles have it, has reached the cooldown, and no
caller has asked since it first did. -/
theorem history_law {failureThreshold : ℤ} {cooldownSeconds : ℚ} {b : CircuitBreaker}
    (hnew : init failureThreshold cooldownSeconds = .ok b)
    {calls : List BreakerCall} {now : ℚ} (hclock : ClockUpTo calls now) :
    ((run call calls b).state = .closed ↔ (failuresSinceSuccess calls : ℤ) < failureThreshold) ∧
    (((run call calls b).readState now).1 = .closed ↔
      (failuresSinceSuccess calls : ℤ) < failureThreshold) ∧
    ((failuresSinceSuccess calls : ℤ) < failureThreshold →
      ((run call calls b).allow now).1 = true) ∧
    (failureThreshold ≤ failuresSinceSuccess calls →
      ∃ time, lastFailureAt calls = some time ∧
        (((run call calls b).allow now).1 = true ↔
          Cooled cooldownSeconds time now ∧ ¬ AskedSince calls (Cooled cooldownSeconds time))) := by
  obtain ⟨clock, hle, htracks⟩ := run_tracks hnew hclock
  have hpos := (init_eq_ok hnew).1
  have hthreshold : ((run call calls b).failureThreshold : ℤ) = failureThreshold := by
    rw [(run_parameters calls b).1, (init_eq_ok hnew).2]
    exact Int.toNat_of_nonneg hpos.le
  have hcooldown : (run call calls b).cooldownSeconds = cooldownSeconds := by
    rw [(run_parameters calls b).2, (init_eq_ok hnew).2]
  have hclosed : (run call calls b).state = .closed ↔
      (failuresSinceSuccess calls : ℤ) < failureThreshold := by
    rw [htracks.closed_iff]
    omega
  refine ⟨hclosed, maybeHalfOpen_closed_iff.trans hclosed, fun h => ?_, fun h => ?_⟩
  · exact htracks.allow_of_below (by omega)
  · obtain ⟨time, htime, hallow⟩ := htracks.allow_iff_of_tripped hle (by omega)
    rw [hcooldown] at hallow
    exact ⟨time, htime, hallow⟩

/-- A breaker tripped at 2 by its second failure refuses at 6 and allows at 7. -/
theorem history_law_trips :
    ((run call [⟨.recordFailure, 0⟩, ⟨.recordFailure, 2⟩, ⟨.allow, 6⟩]
      { failureThreshold := 2, cooldownSeconds := 5 }).allow 7).1 = true := by
  have hnew : init 2 5 = .ok { failureThreshold := 2, cooldownSeconds := 5 } := rfl
  have hclock : ClockUpTo [⟨.recordFailure, 0⟩, ⟨.recordFailure, 2⟩, ⟨.allow, 6⟩] 7 := by
    unfold ClockUpTo
    decide
  obtain ⟨time, htime, hallow⟩ := (history_law hnew hclock).2.2.2 (by decide)
  obtain rfl : 2 = time := Option.some.inj htime
  refine hallow.mpr ⟨by decide +kernel, ?_⟩
  rintro ⟨c, hc, -, hcooled⟩
  obtain rfl : c = ⟨.allow, 6⟩ := List.mem_singleton.mp hc
  exact absurd hcooled (by decide +kernel)

/-- The doubles 6.572827763 and 36.572827763, and 6.699677902 and
36.699677902. -/
def early : ℚ × ℚ := (7400346166054313 / 2 ^ 50, 5147167921416629 / 2 ^ 47)

def late : ℚ × ℚ := (7543166725737387 / 2 ^ 50, 5165020491377013 / 2 ^ 47)

/-- **The cooldown is no date.** A call less than 30 seconds after the
failure is allowed, and one at the double the sum of both is, is refused. -/
theorem allow_rounds :
    let tripped := fun time => run call [⟨.recordFailure, time⟩]
      { failureThreshold := 1, cooldownSeconds := 30 }
    (early.2 < early.1 + 30 ∧ ((tripped early.1).allow early.2).1 = true) ∧
      (binary64.round (late.1 + 30) = late.2 ∧ ((tripped late.1).allow late.2).1 = false) := by
  decide +kernel

end CircuitBreaker

end Congine
