import Congine.Infrastructure.BreakerHistory
import Congine.Infrastructure.QueueEventBus
import Congine.UseCases.SyncTotality
/-!
# The breaker's permits

The fetch and the batch shipper ask the shared breaker before they call
out and report what came of it. `Signal`s are what an operation says to
the breaker; a permit is settled when its grant is followed by one record
before the operation is over.
-/

namespace Congine

/-- What an operation says to the breaker: it asks, and is answered; it
records. -/
inductive Signal where
  | allow (granted : Bool)
  | recordSuccess
  | recordFailure
  deriving DecidableEq

/-- Each grant is followed by exactly one record, each refusal by none. -/
def settled : List Signal → Bool
  | [] => true
  | .allow false :: signals => settled signals
  | .allow true :: .recordSuccess :: signals => settled signals
  | .allow true :: .recordFailure :: signals => settled signals
  | _ => false

/-! ## The fetch -/

/-- The breaker after an operation's signals; asking and a failure read the
clock. -/
def replay (clock : ℕ → ℚ) : List Signal → ℕ → CircuitBreaker → CircuitBreaker
  | [], _, b => b
  | .allow _ :: signals, n, b => replay clock signals (n + 1) (b.allow (clock n)).2
  | .recordSuccess :: signals, n, b => replay clock signals n b.recordSuccess
  | .recordFailure :: signals, n, b => replay clock signals (n + 1) (b.recordFailure (clock n))

namespace SyncContractsUseCase

variable (u : SyncContractsUseCase)

/-- What `_fetch_sync` and `_fetch_async` say to the breaker. -/
def fetchSignals (o : Outside) (σ : SyncState) : List Signal :=
  match σ.circuitBreaker with
  | none => []
  | some breaker =>
    if !(breaker.allow (u.clock σ.instants)).1 then [.allow false]
    else
      match fetchActiveContracts u.maxHttpResponseBytes o.exchange with
      | .ok _ => [.allow true, .recordSuccess]
      | .error (.congine .sync) => [.allow true, .recordFailure]
      | .error _ => [.allow true]

/-- A breaker is wired, and lets this fetch through. -/
def Granted (σ : SyncState) : Prop :=
  ∃ breaker, σ.circuitBreaker = some breaker ∧ (breaker.allow (u.clock σ.instants)).1 = true

/-- **The signals are the fetch's own**: what it leaves the breaker in is
what they do to it. -/
theorem fetch_circuitBreaker (o : Outside) (σ : SyncState) :
    (u.fetch o σ).2.circuitBreaker =
      σ.circuitBreaker.map (replay u.clock (u.fetchSignals o σ) σ.instants) := by
  unfold fetch fetchSignals breakerAllows
  rcases hb : σ.circuitBreaker with _ | breaker
  · simp only [Bool.not_true, Bool.false_eq_true, if_false, Option.map_none]
    split
    · simp [breakerRecordSuccess, hb]
    · simp [breakerRecordFailure, hb]
    · exact hb
  · rcases hgranted : (breaker.allow (u.clock σ.instants)).1 with _ | _
    · simp [hgranted, replay]
    · simp only [hgranted, Bool.not_true, Bool.false_eq_true, if_false, Option.map_some]
      rcases fetchActiveContracts u.maxHttpResponseBytes o.exchange with exc | contracts
      · cases exc with
        | congine e => cases e <;> rfl
        | _ => rfl
      · rfl

/-- A fetch settles its permit exactly on the exchanges it has an answer to. -/
theorem settled_fetchSignals_iff (o : Outside) (σ : SyncState) :
    settled (u.fetchSignals o σ) ↔
      (u.Granted σ → QuietExchange u.maxHttpResponseBytes o.exchange) := by
  unfold fetchSignals Granted
  rcases hb : σ.circuitBreaker with _ | breaker
  · simp [settled]
  · rcases hgranted : (breaker.allow (u.clock σ.instants)).1 with _ | _
    · simp [hgranted, settled]
    · have hquiet : _ ↔ QuietExchange u.maxHttpResponseBytes o.exchange :=
        fetchActiveContracts_quiet_iff
      simp only [hgranted, Bool.not_true, Bool.false_eq_true, if_false, Option.some.injEq,
        exists_eq_left', forall_const]
      rw [← hquiet]
      split
      · rename_i hfetch
        simp [hfetch, settled]
      · rename_i hfetch
        simp [hfetch, settled]
      · rename_i exc hother hfetch
        simp only [hfetch, settled, Bool.false_eq_true, false_iff]
        exact fun h => hother (h exc rfl)

/-- **A probe left unsettled is left for ever.** A fetch let through as the
probe that ends in another exception leaves a breaker that refuses every
call until something is recorded, and nobody is left to record it. -/
theorem fetch_wedges {o : Outside} {σ : SyncState} {b : CircuitBreaker}
    (hb : σ.circuitBreaker = some b)
    (hhalf : (b.maybeHalfOpen (u.clock σ.instants)).state = .halfOpen)
    (hloud : ¬ settled (u.fetchSignals o σ)) :
    ∃ b', (u.fetch o σ).2.circuitBreaker = some b' ∧
      ∀ calls : List BreakerCall, (∀ c ∈ calls, c.isRecord = false) →
        ∀ now, ((run CircuitBreaker.call calls b').allow now).1 = false := by
  have hsignals : u.fetchSignals o σ = [.allow true] := by
    unfold fetchSignals at hloud ⊢
    simp only [hb] at hloud ⊢
    split
    · rename_i hrefused
      rw [if_pos hrefused] at hloud
      exact absurd rfl hloud
    · rename_i hgranted
      rw [if_neg hgranted] at hloud
      split <;> rename_i hfetch <;> simp [hfetch, settled] at hloud ⊢
  refine ⟨(b.allow (u.clock σ.instants)).2, ?_, fun calls hcalls now => ?_⟩
  · rw [fetch_circuitBreaker, hsignals, hb]
    rfl
  · have hprobing : (b.allow (u.clock σ.instants)).2.state = .halfOpen ∧
        (b.allow (u.clock σ.instants)).2.probeInFlight = true := by
      rw [CircuitBreaker.allow_of_halfOpen hhalf]
      exact ⟨hhalf, rfl⟩
    rw [CircuitBreaker.run_of_probing hprobing.1 hprobing.2 hcalls,
      CircuitBreaker.allow_of_probing hprobing.1 hprobing.2]

end SyncContractsUseCase

/-! ## The batch shipper -/

/-- What the end of a shipment records. -/
def ShipEnd.recorded : ShipEnd → List Signal
  | .shipped => [.recordSuccess]
  | .exhausted => [.recordFailure]
  | _ => []

namespace QueueEventBus

variable (bus : QueueEventBus)

/-- What `_ship_locked` says to the breaker, where it gets to ask it. -/
def shipSignals (answer : Option Bool) (maxAttempts : Option ℤ) (s : Shipment) : List Signal :=
  match answer with
  | none => []
  | some granted =>
    if bus.configured then
      .allow granted :: (bus.shipLocked answer maxAttempts s).recorded
    else []

/-- A post that fails and is tried again, or given up. -/
def Failed (post : Except Exc Unit) : Prop := ∃ exc, post = .error exc ∧ exc.isException

/-- From attempt `n` on a success or the last failure is reached: until
then posts fail and their backoffs run to the end. -/
def Concludes (attempts : ℤ) (s : Shipment) (n : ℕ) : Prop :=
  ∃ m ≥ n, (m : ℤ) ≤ attempts ∧
    (∀ k, n ≤ k → k < m → Failed (s.post k) ∧ s.stop k = false ∧ bus.delay k ≤ timeoutMax) ∧
    (s.post m = .ok () ∨ Failed (s.post m) ∧ (m : ℤ) = attempts)

section

variable {bus} {attempts : ℤ} {s : Shipment} {n : ℕ}

theorem backOff_eq_none_iff {stopped : Bool} :
    bus.backOff stopped n = none ↔ stopped = false ∧ bus.delay n ≤ timeoutMax := by
  unfold backOff
  split
  · rename_i h
    simp [h]
  · rename_i h
    split
    · rename_i hlong
      simpa using fun _ => hlong
    · rename_i hshort
      simpa [h] using hshort

theorem backOff_recorded {stopped : Bool} {e : ShipEnd} (h : bus.backOff stopped n = some e) :
    e.recorded = [] := by
  unfold backOff at h
  split at h
  · rw [← Option.some.inj h]
    rfl
  · split at h
    · rw [← Option.some.inj h]
      rfl
    · cases h

/-- A backoff that runs to the end hands over to the next attempt. -/
theorem concludes_succ_iff (hfailed : Failed (s.post n)) (hmore : (n : ℤ) < attempts)
    (hstop : s.stop n = false) (hdelay : bus.delay n ≤ timeoutMax) :
    bus.Concludes attempts s n ↔ bus.Concludes attempts s (n + 1) := by
  constructor
  · rintro ⟨m, hm, hle, hbefore, hend⟩
    rcases Nat.eq_or_lt_of_le hm with rfl | hlt
    · obtain ⟨exc, hexc, -⟩ := hfailed
      rcases hend with hok | ⟨-, hlast⟩
      · rw [hexc] at hok
        cases hok
      · omega
    · exact ⟨m, hlt, hle, fun k hk hkm => hbefore k (by omega) hkm, hend⟩
  · rintro ⟨m, hm, hle, hbefore, hend⟩
    refine ⟨m, by omega, hle, fun k hk hkm => ?_, hend⟩
    rcases Nat.eq_or_lt_of_le hk with rfl | hlt
    · exact ⟨hfailed, hstop, hdelay⟩
    · exact hbefore k hlt hkm

/-- **The loop records exactly when it concludes**, by induction on the
attempts still to come. -/
theorem shipAttempts_recorded {remaining : ℕ} (hn : 0 < n)
    (h : attempts.toNat + 1 = n + remaining) :
    (bus.shipAttempts attempts s remaining n).recorded ≠ [] ↔ bus.Concludes attempts s n := by
  induction remaining generalizing n with
  | zero =>
    refine ⟨fun hrec => absurd rfl hrec, ?_⟩
    rintro ⟨m, hm, hle, -⟩
    omega
  | succ remaining ih =>
    unfold shipAttempts
    rcases hpost : s.post n with exc | ⟨⟩
    · by_cases hexc : exc.isException
      · have hfailed : Failed (s.post n) := ⟨exc, hpost, hexc⟩
        by_cases hlast : attempts ≤ n
        · have hend : bus.Concludes attempts s n :=
            ⟨n, le_rfl, by omega, fun k hk hkn => by omega, .inr ⟨hfailed, by omega⟩⟩
          simp [attempt, hexc, hlast, ShipEnd.recorded, hend]
        · simp only [attempt, hexc, hlast, Bool.not_true, Bool.false_eq_true, if_false]
          rcases hback : bus.backOff (s.stop n) n with _ | e
          · obtain ⟨hstop, hdelay⟩ := backOff_eq_none_iff.mp hback
            rw [concludes_succ_iff hfailed (by omega) hstop hdelay]
            exact ih (by omega) (by omega)
          · -- a stop, or a delay no wait takes, ends the loop here
            refine ⟨fun hrec => absurd (backOff_recorded hback) hrec, ?_⟩
            rintro ⟨m, hm, -, hbefore, hend⟩
            rcases Nat.eq_or_lt_of_le hm with rfl | hlt
            · rcases hend with hok | ⟨-, heq⟩
              · rw [hpost] at hok
                cases hok
              · omega
            · have hnone := backOff_eq_none_iff.mpr (hbefore n le_rfl hlt).2
              rw [hback] at hnone
              cases hnone
      · refine ⟨fun hrec => absurd (by simp [attempt, hexc, ShipEnd.recorded]) hrec, ?_⟩
        rintro ⟨m, hm, -, hbefore, hend⟩
        have hnot : ¬ Failed (s.post n) := by
          rintro ⟨exc', hpost', hexc'⟩
          rw [hpost, Except.error.injEq] at hpost'
          exact hexc (hpost' ▸ hexc')
        rcases Nat.eq_or_lt_of_le hm with rfl | hlt
        · rcases hend with hok | ⟨hfailed, -⟩
          · rw [hpost] at hok
            cases hok
          · exact absurd hfailed hnot
        · exact absurd (hbefore n le_rfl hlt).1 hnot
    · have hend : bus.Concludes attempts s n :=
        ⟨n, le_rfl, by omega, fun k hk hkn => by omega, .inl hpost⟩
      simp [attempt, ShipEnd.recorded, hend]

end

/-- A breaker and a control plane are wired, and it lets this batch through. -/
def Granted (answer : Option Bool) : Prop := bus.configured = true ∧ answer = some true

theorem settled_allow_recorded {e : ShipEnd} :
    settled (.allow true :: e.recorded) ↔ e.recorded ≠ [] := by
  cases e <;> simp [ShipEnd.recorded, settled]

/-- A shipment settles its permit exactly where its attempts conclude. -/
theorem settled_shipSignals_iff (answer : Option Bool) (maxAttempts : Option ℤ) (s : Shipment) :
    settled (bus.shipSignals answer maxAttempts s) ↔
      (bus.Granted answer → bus.Concludes (bus.attempts maxAttempts) s 1) := by
  unfold shipSignals shipLocked Granted
  rcases hconf : bus.configured with _ | _
  · rcases answer with _ | granted <;> simp [settled]
  · rcases answer with _ | _ | _
    · simp [settled]
    · simp [settled, ShipEnd.recorded]
    · have hconcludes := @shipAttempts_recorded bus (bus.attempts maxAttempts) s 1
        (bus.attempts maxAttempts).toNat (by omega) (by omega)
      simpa [hconcludes] using @settled_allow_recorded
        (bus.shipAttempts (bus.attempts maxAttempts) s (bus.attempts maxAttempts).toNat 1)

end QueueEventBus

/-! ## Every permit -/

/-- **When permits are settled.** A fetch settles its permit exactly when
the exchange fails as a sync error or decodes to an object, a shipment
exactly when some attempt succeeds or the last one fails before a stop is
signalled, a post escapes `Exception` or a backoff cannot be waited for. -/
theorem permits_settled_iff (u : SyncContractsUseCase) (o : Outside) (σ : SyncState)
    (bus : QueueEventBus) (answer : Option Bool) (maxAttempts : Option ℤ)
    (s : QueueEventBus.Shipment) :
    (settled (u.fetchSignals o σ) ↔
      (u.Granted σ → QuietExchange u.maxHttpResponseBytes o.exchange)) ∧
    (settled (bus.shipSignals answer maxAttempts s) ↔
      (bus.Granted answer → bus.Concludes (bus.attempts maxAttempts) s 1)) :=
  ⟨u.settled_fetchSignals_iff o σ, bus.settled_shipSignals_iff answer maxAttempts s⟩

/-- A body that is not an object, a stop during a backoff and a bus without
retries each leave a permit unsettled. -/
theorem permits_leak :
    settled (SyncContractsUseCase.everyInterval.fetchSignals
      (SyncContractsUseCase.answers (.arr []))
      { schemaStorage := {}, circuitBreaker := some {} }) = false ∧
    settled (({ configured := true } : QueueEventBus).shipSignals (some true) none
      { post := fun _ => .error (.httpError "ConnectError"), stop := fun _ => true }) = false ∧
    settled (({ configured := true, maxRetries := 0 } : QueueEventBus).shipSignals (some true) none
      { post := fun _ => .ok (), stop := fun _ => false }) = false := by
  decide +kernel

end Congine
