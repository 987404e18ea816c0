import Congine.Common.Runs
import Congine.Infrastructure.QueueEventBus
/-!
# No telemetry is lost uncounted

Every published event is delivered, counted as dropped, queued or in the
batch in progress, whatever the publishers, the consumer and the stops do,
and a draining stop leaves none behind. This holds of a bus whose batches
are not empty and whose attempts are at least one, each backoff among
them short enough to wait for.
-/

namespace Congine

/-! ## What is asked of a state -/

structure BusState.Conserved (s : BusState) : Prop where
  accounted : s.published =
    s.delivered + s.droppedTotal + s.queue.length + s.consumer.batch.length
  /-- Each accepted event is in one batch, and the batches follow the queue. -/
  inOrder : s.accepted = s.batches.flatten ++ s.consumer.batch ++ s.queue
  drained : s.firstStop = some true → s.shutdownComplete = true →
    s.published = s.delivered + s.droppedTotal

/-- The configurations that lose nothing. -/
structure QueueEventBus.Sound (bus : QueueEventBus) : Prop where
  attempts : bus.configured = true → 1 ≤ bus.maxRetries
  backoffs : bus.configured = true → ∀ n : ℕ, 1 ≤ n → (n : ℤ) < bus.maxRetries →
    bus.delay n ≤ timeoutMax
  batches : 1 ≤ bus.batchSize

/-! ## The invariant -/

/-- The exit flush allows one attempt, the loop and a plain stop set none. -/
def Override (maxAttempts : Option ℤ) : Prop := maxAttempts = none ∨ maxAttempts = some 1

/-- The consumer is past its loop. -/
def Consumer.late : Consumer → Bool
  | .filling _ final | .asking _ final | .attempting _ final _ | .waiting _ final _ => final.isSome
  | .closing | .finishing | .finishingDrain | .done => true
  | _ => false

/-- The consumer holds a batch it may hold, at an attempt it may be at. -/
def Consumer.Ok (bus : QueueEventBus) : Consumer → Prop
  | .filling batch final => Override final.join ∧ (final = none → batch ≠ [])
  | .asking _ final => Override final.join
  | .attempting _ final n =>
    Override final.join ∧ bus.configured = true ∧ 1 ≤ n ∧ n ≤ bus.attempts final.join
  | .waiting _ final n =>
    Override final.join ∧ bus.configured = true ∧ 1 ≤ n ∧ n < bus.attempts final.join
  | _ => True

namespace QueueEventBus

structure Inv (bus : QueueEventBus) (s : BusState) : Prop where
  accounted : s.published =
    s.delivered + s.droppedTotal + s.queue.length + s.consumer.batch.length
  inOrder : s.accepted = s.batches.flatten ++ s.consumer.batch ++ s.queue
  override : Override s.finalAttempts
  stopped : s.stopEvent = s.closed
  asked : s.firstStop = some true → s.closed = true ∧ s.drainRequested = true
  ok : s.consumer.Ok bus
  late : s.consumer.late = true → s.closed = true
  emptied : s.consumer = .done → s.firstStop = some true → s.queue = []
  complete : s.shutdownComplete = true → s.consumer = .done

section

variable {bus : QueueEventBus} {s : BusState}

theorem Inv.conserved (hs : bus.Inv s) : s.Conserved where
  accounted := hs.accounted
  inOrder := hs.inOrder
  drained hfirst hcomplete := by
    have hdone := hs.complete hcomplete
    have hqueue := hs.emptied hdone hfirst
    have haccounted := hs.accounted
    simpa [hdone, hqueue, Consumer.batch] using haccounted

theorem inv_init : bus.Inv bus.init where
  accounted := by
    unfold init
    cases bus.startWorker <;> rfl
  inOrder := by
    unfold init
    cases bus.startWorker <;> rfl
  override := .inl rfl
  stopped := rfl
  asked h := by cases h
  ok := by
    unfold init
    cases bus.startWorker <;> trivial
  late h := by
    unfold init at h
    cases hstart : bus.startWorker <;> simp [hstart, Consumer.late] at h
  emptied _ h := by cases h
  complete h := by cases h

/-! ## Publishers and callers -/

theorem Inv.publish (hs : bus.Inv s) (event : TelemetryEvent) : bus.Inv (bus.publish event s) := by
  unfold QueueEventBus.publish
  split
  · rename_i haccepted
    have hopen : s.closed = false := by
      simp only [Bool.and_eq_true, Bool.not_eq_true'] at haccepted
      exact haccepted.1
    exact
      { hs with
        accounted := by
          have := hs.accounted
          simp only [List.length_append, List.length_singleton]
          omega
        inOrder := by
          have := hs.inOrder
          simp only [this, List.append_assoc]
        emptied := fun hdone hfirst => by
          have := (hs.asked hfirst).1
          rw [hopen] at this
          cases this }
  · exact { hs with }

theorem Inv.countRefused (hs : bus.Inv s) : bus.Inv (countRefused s) := by
  unfold QueueEventBus.countRefused
  split
  · exact hs
  · exact
      { hs with
        accounted := by
          have := hs.accounted
          dsimp only
          omega }

theorem Inv.start (hs : bus.Inv s) : bus.Inv (start s) := by
  unfold QueueEventBus.start
  split
  · exact hs
  · rename_i hopen
    have hclosed : s.closed = false := by simpa using hopen
    split
    · rename_i habsent
      exact
        { hs with
          accounted := by simpa [habsent, Consumer.batch] using hs.accounted
          inOrder := by simpa [habsent, Consumer.batch] using hs.inOrder
          stopped := hclosed.symm
          ok := trivial
          late := fun h => by cases h
          emptied := fun h => by cases h
          complete := fun h => by
            have := hs.complete h
            rw [habsent] at this
            cases this }
    · rename_i hdone
      have := hs.late (by rw [hdone]; rfl)
      rw [hclosed] at this
      cases this
    · exact hs

theorem Inv.stop (hs : bus.Inv s) {drain : Bool} {maxAttempts : Option ℤ}
    (hmax : Override maxAttempts) : bus.Inv (stop drain maxAttempts s) := by
  have hbatch : (QueueEventBus.stop drain maxAttempts s).consumer.batch = s.consumer.batch := by
    unfold QueueEventBus.stop
    dsimp only
    split
    · rename_i habsent
      rw [habsent]
      split <;> rfl
    · rfl
  exact
    { accounted := by rw [hbatch]; exact hs.accounted
      inOrder := by rw [hbatch]; exact hs.inOrder
      override := by
        rcases hmax with rfl | rfl
        · exact hs.override
        · rcases hs.override with h | h <;> simp [QueueEventBus.stop, h, Override]
      stopped := rfl
      asked := fun h => by
        refine ⟨rfl, ?_⟩
        unfold QueueEventBus.stop at h ⊢
        dsimp only at h ⊢
        split at h
        · rw [(hs.asked h).2]
          rfl
        · rw [Option.some.inj h, Bool.or_true]
      ok := by
        unfold QueueEventBus.stop
        dsimp only
        split
        · split <;> trivial
        · exact hs.ok
      late := fun _ => rfl
      emptied := fun hdone hfirst => by
        unfold QueueEventBus.stop at hdone hfirst ⊢
        dsimp only at hdone hfirst ⊢
        have hconsumer : s.consumer = .done := by
          split at hdone
          · split at hdone <;> cases hdone
          · exact hdone
        have hclosed := hs.late (by rw [hconsumer]; rfl)
        rw [hclosed, if_pos rfl] at hfirst
        exact hs.emptied hconsumer hfirst
      complete := fun h => by
        have hconsumer := hs.complete h
        unfold QueueEventBus.stop
        dsimp only
        rw [hconsumer] }

/-! ## The consumer -/

/-- Only the consumer's place changes: its batch stays, and what the new
place asks for holds. -/
theorem Inv.moveTo (hs : bus.Inv s) {consumer : Consumer}
    (hbatch : consumer.batch = s.consumer.batch) (hok : consumer.Ok bus)
    (hlate : consumer.late = true → s.closed = true) (hdone : consumer ≠ .done)
    (hrunning : s.consumer ≠ .done) : bus.Inv { s with consumer } :=
  { hs with
    accounted := by rw [hbatch]; exact hs.accounted
    inOrder := by rw [hbatch]; exact hs.inOrder
    ok := hok
    late := hlate
    emptied := fun h => absurd h hdone
    complete := fun h => absurd (hs.complete h) hrunning }

/-- The next event goes from the queue to the batch. -/
theorem Inv.take (hs : bus.Inv s) {event : TelemetryEvent} {queue batch : List TelemetryEvent}
    {final : Option (Option ℤ)} (hqueue : s.queue = event :: queue)
    (hbatch : s.consumer.batch = batch) (hfinal : Override final.join)
    (hlate : final.isSome = true → s.closed = true) (hrunning : s.consumer ≠ .done) :
    bus.Inv { s with queue, consumer := .filling (batch ++ [event]) final } :=
  { hs with
    accounted := by
      have := hs.accounted
      rw [hqueue, hbatch] at this
      simp only [Consumer.batch, List.length_append, List.length_singleton]
      simp only [List.length_cons] at this
      omega
    inOrder := by
      have := hs.inOrder
      rw [hqueue, hbatch] at this
      simp [Consumer.batch, this]
    ok := ⟨hfinal, fun _ => by simp⟩
    late := hlate
    emptied := fun h => by cases h
    complete := fun h => absurd (hs.complete h) hrunning }

/-- The thread ends with nothing in its batch and, where the first stop
asked for a drain, nothing in the queue. -/
theorem Inv.finish (hs : bus.Inv s) (hbatch : s.consumer.batch = [])
    (hclosed : s.closed = true) (hqueue : s.firstStop = some true → s.queue = []) :
    bus.Inv (finish s) :=
  { hs with
    accounted := by
      have := hs.accounted
      rw [hbatch] at this
      exact this
    inOrder := by
      have := hs.inOrder
      rw [hbatch] at this
      exact this
    ok := trivial
    late := fun _ => hclosed
    emptied := fun _ => hqueue
    complete := fun _ => rfl }

/-- A shipment that delivers its batch or counts it. -/
theorem Inv.endShipment (hs : bus.Inv s) {e : ShipEnd} {batch : List TelemetryEvent}
    {final : Option (Option ℤ)} (he : e.delivered = !e.counted)
    (hbatch : s.consumer.batch = batch) (hfinal : Override final.join)
    (hlate : final.isSome = true → s.closed = true) (hrunning : s.consumer ≠ .done) :
    bus.Inv (endShipment e batch final s) := by
  -- the batch is delivered or counted, whatever comes next
  have hnext : ∀ consumer : Consumer, consumer.batch = [] → consumer.Ok bus →
      (consumer.late = true → s.closed = true) → consumer ≠ .done →
      bus.Inv
        { s with
          consumer
          droppedTotal := if e.counted then s.droppedTotal + batch.length else s.droppedTotal
          delivered := if e.delivered then s.delivered + batch.length else s.delivered
          batches := s.batches ++ [batch] } := by
    intro consumer hempty hok hplace hdone
    have haccounted := hs.accounted
    have hinOrder := hs.inOrder
    rw [hbatch] at haccounted hinOrder
    exact
      { hs with
        accounted := by
          rw [he, hempty]
          rcases e.counted with _ | _ <;> simp <;> omega
        inOrder := by simpa [hempty] using hinOrder
        ok := hok
        late := hplace
        emptied := fun h => absurd h hdone
        complete := fun h => absurd (hs.complete h) hrunning }
  rcases final with _ | maxAttempts
  · cases e <;> first
      | exact hnext .polling rfl trivial (fun h => by cases h) (by simp)
      | cases he
  · cases e <;> first
      | exact hnext (.filling [] (some maxAttempts)) rfl ⟨hfinal, fun h => by cases h⟩ hlate
          (by simp)
      | cases he

/-- A taken batch is shipped, and an empty one ends the flush. -/
theorem Inv.filled (hs : bus.Inv s) {batch : List TelemetryEvent} {final : Option (Option ℤ)}
    (hconsumer : s.consumer = .filling batch final)
    (hqueue : batch = [] → s.queue = []) : bus.Inv (filled batch final s) := by
  have hok : Override final.join ∧ (final = none → batch ≠ []) := by
    have := hs.ok
    rwa [hconsumer] at this
  have hlate : final.isSome = true → s.closed = true := by
    have := hs.late
    rwa [hconsumer] at this
  have hbatch : s.consumer.batch = batch := by rw [hconsumer]; rfl
  unfold QueueEventBus.filled
  split
  · rename_i hempty
    have hnil : batch = [] := List.isEmpty_iff.mp hempty
    have hsome : final.isSome = true := by
      rcases final with _ | maxAttempts
      · exact absurd hnil (hok.2 rfl)
      · rfl
    exact hs.finish (hbatch.trans hnil) (hlate hsome) fun _ => hqueue hnil
  · exact hs.moveTo hbatch.symm hok.1 hlate (by simp) (by simp [hconsumer])

/-- What the place of the consumer asks for. -/
theorem Inv.of_consumer (hs : bus.Inv s) {consumer : Consumer} (h : s.consumer = consumer) :
    consumer.Ok bus ∧ (consumer.late = true → s.closed = true) := by
  subst h
  exact ⟨hs.ok, hs.late⟩

section

variable {batch : List TelemetryEvent} {final : Option (Option ℤ)} {granted posted : Bool}

/-- A batch is delivered, counted or attempted, since there is an attempt. -/
theorem Inv.work_asking (hbus : bus.Sound) (hs : bus.Inv s)
    (hconsumer : s.consumer = .asking batch final) : bus.Inv (bus.work granted posted s) := by
  obtain ⟨hok, hlate⟩ := hs.of_consumer hconsumer
  have hbatch : s.consumer.batch = batch := by rw [hconsumer]; rfl
  have hrunning : s.consumer ≠ .done := by simp [hconsumer]
  simp only [QueueEventBus.work, hconsumer]
  split
  · exact hs.endShipment rfl hbatch hok hlate hrunning
  · rename_i hconfigured
    split
    · exact hs.endShipment rfl hbatch hok hlate hrunning
    · have hconf : bus.configured = true := by simpa using hconfigured
      have hattempts : 1 ≤ bus.attempts final.join := by
        rcases hok with h | h
        · rw [h]
          exact hbus.attempts hconf
        · rw [h]
          exact le_rfl
      rw [if_neg (by omega)]
      exact hs.moveTo hbatch.symm ⟨hok, hconf, le_rfl, hattempts⟩ hlate (by simp) hrunning

/-- An attempt delivers the batch, counts it or has another attempt to follow. -/
theorem Inv.work_attempting (hs : bus.Inv s) {n : ℕ}
    (hconsumer : s.consumer = .attempting batch final n) :
    bus.Inv (bus.work granted posted s) := by
  obtain ⟨⟨hfinal, hconf, hpos, hle⟩, hlate⟩ := hs.of_consumer hconsumer
  have hbatch : s.consumer.batch = batch := by rw [hconsumer]; rfl
  have hrunning : s.consumer ≠ .done := by simp [hconsumer]
  simp only [QueueEventBus.work, hconsumer]
  rcases posted with _ | _
  · by_cases hlast : bus.attempts final.join ≤ n
    · have hend : bus.Inv (QueueEventBus.endShipment .exhausted batch final s) :=
        hs.endShipment rfl hbatch hfinal hlate hrunning
      simpa [attempt, Exc.isException, hlast] using hend
    · have hwait : bus.Inv { s with consumer := .waiting batch final n } :=
        hs.moveTo hbatch.symm ⟨hfinal, hconf, hpos, by omega⟩ hlate (by simp) hrunning
      simpa [attempt, Exc.isException, hlast] using hwait
  · exact hs.endShipment rfl hbatch hfinal hlate hrunning

/-- A backoff can be waited for; a stop that cuts it short counts the batch. -/
theorem Inv.work_waiting (hbus : bus.Sound) (hs : bus.Inv s) {n : ℕ}
    (hconsumer : s.consumer = .waiting batch final n) : bus.Inv (bus.work granted posted s) := by
  obtain ⟨⟨hfinal, hconf, hpos, hlt⟩, hlate⟩ := hs.of_consumer hconsumer
  have hbatch : s.consumer.batch = batch := by rw [hconsumer]; rfl
  have hrunning : s.consumer ≠ .done := by simp [hconsumer]
  -- past the loop there is one attempt, so no backoff follows it
  have hdelay : bus.delay n ≤ timeoutMax := by
    rcases hfinal with h | h
    · rw [h] at hlt
      exact hbus.backoffs hconf n hpos hlt
    · rw [h] at hlt
      simp only [attempts, Option.getD_some] at hlt
      omega
  simp only [QueueEventBus.work, hconsumer, QueueEventBus.backOff, if_neg (not_lt.mpr hdelay)]
  split
  · rename_i e he
    split at he
    · obtain rfl := Option.some.inj he
      exact hs.endShipment rfl hbatch hfinal hlate hrunning
    · cases he
  · exact hs.moveTo hbatch.symm ⟨hfinal, hconf, by omega, by push_cast; omega⟩ hlate (by simp)
      hrunning

/-- The flush of a draining stop begins with an empty batch. -/
theorem Inv.flush (hs : bus.Inv s) (hbatch : s.consumer.batch = []) (hclosed : s.closed = true)
    (hrunning : s.consumer ≠ .done) :
    bus.Inv { s with consumer := .filling [] (some s.finalAttempts) } :=
  hs.moveTo hbatch.symm ⟨hs.override, fun h => by cases h⟩ (fun _ => hclosed) (by simp) hrunning

/-- **Every step of the consumer keeps the invariant.** -/
theorem Inv.work (hbus : bus.Sound) (hs : bus.Inv s) (granted posted : Bool) :
    bus.Inv (bus.work granted posted s) := by
  cases hconsumer : s.consumer with
  | absent | done => simpa only [QueueEventBus.work, hconsumer] using hs
  | polling =>
    have hbatch : s.consumer.batch = [] := by rw [hconsumer]; rfl
    simp only [QueueEventBus.work, hconsumer]
    split
    · rename_i hstop
      refine hs.moveTo hbatch.symm trivial (fun _ => ?_) (by simp) (by simp [hconsumer])
      rwa [← hs.stopped]
    · exact hs.moveTo hbatch.symm trivial (fun h => by cases h) (by simp) (by simp [hconsumer])
  | receiving =>
    have hbatch : s.consumer.batch = [] := by rw [hconsumer]; rfl
    simp only [QueueEventBus.work, hconsumer]
    split
    · exact hs.moveTo hbatch.symm trivial (fun h => by cases h) (by simp) (by simp [hconsumer])
    · rename_i event queue hqueue
      exact hs.take hqueue hbatch (.inl rfl) (fun h => by cases h) (by simp [hconsumer])
  | filling batch final =>
    obtain ⟨hok, hlate⟩ := hs.of_consumer hconsumer
    simp only [QueueEventBus.work, hconsumer]
    split
    · split
      · rename_i hqueue
        exact hs.filled hconsumer fun _ => hqueue
      · rename_i event queue hqueue
        exact hs.take hqueue (by rw [hconsumer]; rfl) hok.1 hlate (by simp [hconsumer])
    · rename_i hfull
      refine hs.filled hconsumer fun hnil => ?_
      have := hbus.batches
      simp only [hnil, List.length_nil] at hfull
      omega
  | asking batch final => exact hs.work_asking hbus hconsumer
  | attempting batch final n => exact hs.work_attempting hconsumer
  | waiting batch final n => exact hs.work_waiting hbus hconsumer
  | closing =>
    have hclosed : s.closed = true := (hs.of_consumer hconsumer).2 rfl
    have hbatch : s.consumer.batch = [] := by rw [hconsumer]; rfl
    simp only [QueueEventBus.work, hconsumer]
    split
    · exact hs.flush hbatch hclosed (by simp [hconsumer])
    · rename_i hdrain
      exact hs.finish hbatch hclosed fun h => absurd (hs.asked h).2 hdrain
  | finishing =>
    have hclosed : s.closed = true := (hs.of_consumer hconsumer).2 rfl
    have hbatch : s.consumer.batch = [] := by rw [hconsumer]; rfl
    simp only [QueueEventBus.work, hconsumer]
    split
    · exact hs.moveTo hbatch.symm trivial (fun _ => hclosed) (by simp) (by simp [hconsumer])
    · rename_i hdrain
      exact hs.finish hbatch hclosed fun h => absurd (hs.asked h).2 hdrain
  | finishingDrain =>
    have hclosed : s.closed = true := (hs.of_consumer hconsumer).2 rfl
    have hbatch : s.consumer.batch = [] := by rw [hconsumer]; rfl
    simp only [QueueEventBus.work, hconsumer]
    exact hs.flush hbatch hclosed (by simp [hconsumer])

end

theorem Inv.step (hbus : bus.Sound) (e : BusEvent) (hs : bus.Inv s) : bus.Inv (bus.step e s) := by
  cases e with
  | publish event => exact hs.publish event
  | countRefused => exact hs.countRefused
  | start => exact hs.start
  | stop drain => exact hs.stop (.inl rfl)
  | exit => exact hs.stop (.inr rfl)
  | work granted posted => exact hs.work hbus granted posted

/-! ## A closed bus -/

/-- The lifecycle and what publishers put in are not the consumer's to change. -/
theorem work_kept (granted posted : Bool) :
    (bus.work granted posted s).closed = s.closed ∧
      (bus.work granted posted s).accepted = s.accepted := by
  have hend : ∀ e batch final, (endShipment e batch final s).closed = s.closed ∧
      (endShipment e batch final s).accepted = s.accepted := by
    intro e batch final
    unfold endShipment
    dsimp only
    split <;> exact ⟨rfl, rfl⟩
  have hfilled : ∀ batch final, (filled batch final s).closed = s.closed ∧
      (filled batch final s).accepted = s.accepted := by
    intro batch final
    unfold filled
    split <;> exact ⟨rfl, rfl⟩
  unfold work
  split
  · exact ⟨rfl, rfl⟩
  · exact ⟨rfl, rfl⟩
  · exact ⟨rfl, rfl⟩
  · split <;> exact ⟨rfl, rfl⟩
  · split
    · split
      · exact hfilled _ _
      · exact ⟨rfl, rfl⟩
    · exact hfilled _ _
  · split_ifs
    · exact hend _ _ _
    · exact hend _ _ _
    · exact hend _ _ _
    · exact ⟨rfl, rfl⟩
  · dsimp only
    split
    · exact hend _ _ _
    · exact ⟨rfl, rfl⟩
  · split
    · exact hend _ _ _
    · exact ⟨rfl, rfl⟩
  · split <;> exact ⟨rfl, rfl⟩
  · split <;> exact ⟨rfl, rfl⟩
  · exact ⟨rfl, rfl⟩

/-- **A closed bus stays closed, and takes no event.** -/
theorem step_of_closed (e : BusEvent) (h : s.closed = true) :
    (bus.step e s).closed = true ∧ (bus.step e s).accepted = s.accepted := by
  cases e with
  | publish event => simp [step, publish, h]
  | countRefused =>
    simp only [step, countRefused]
    split <;> exact ⟨h, rfl⟩
  | start => simp [step, start, h]
  | stop drain => exact ⟨rfl, rfl⟩
  | exit => exact ⟨rfl, rfl⟩
  | work granted posted =>
    have hkept : (bus.work granted posted s).closed = s.closed ∧
        (bus.work granted posted s).accepted = s.accepted := work_kept granted posted
    exact ⟨hkept.1.trans h, hkept.2⟩

end

/-! ## The configurations that lose events -/

section

variable (bus : QueueEventBus)

theorem hasRoom_nil : bus.hasRoom [] = true := by
  simp only [hasRoom, List.length_nil, Bool.or_eq_true, decide_eq_true_eq]
  omega

/-- The worker takes the one event published. -/
theorem run_to_asking (event : TelemetryEvent) :
    run bus.step [.start, .publish event, .work true false, .work true false, .work true false]
        bus.init =
      { consumer := .asking [event] none, published := 1, accepted := [event] } := by
  have hroom := bus.hasRoom_nil
  rcases hworker : bus.startWorker with _ | _ <;>
    simp [step, start, init, hworker, publish, hroom, work, filled]

/-- A final flush of empty batches takes nothing. -/
theorem not_conserved_of_batchSize (event : TelemetryEvent) (h : bus.batchSize ≤ 0) :
    ¬ (run bus.step [.publish event, .stop true, .work true false, .work true false,
        .work true false] bus.init).Conserved := by
  have hroom := bus.hasRoom_nil
  have hfull : ¬ 0 < bus.batchSize := by omega
  intro hconserved
  have hdrained := hconserved.drained
  rcases hworker : bus.startWorker with _ | _ <;>
    simp [step, init, hworker, publish, hroom, stop, work, filled, hfull, finish] at hdrained

/-- Without an attempt the batch goes nowhere. -/
theorem not_conserved_of_maxRetries (event : TelemetryEvent) (hconf : bus.configured = true)
    (h : bus.maxRetries ≤ 0) :
    ¬ (run bus.step ([.start, .publish event, .work true false, .work true false,
        .work true false] ++ [.work true false]) bus.init).Conserved := by
  rw [run_append, run_to_asking]
  intro hconserved
  have haccounted := hconserved.accounted
  simp [step, work, hconf, attempts, h, endShipment, ShipEnd.counted, ShipEnd.delivered,
    Consumer.batch] at haccounted

/-- Attempts fail and their backoffs run to the end, up to attempt `n`. -/
theorem run_to_attempt (event : TelemetryEvent) {n : ℕ} (hn : 1 ≤ n)
    (hmore : (n : ℤ) ≤ bus.maxRetries)
    (hdelay : ∀ k : ℕ, 1 ≤ k → k < n → bus.delay k ≤ timeoutMax) :
    ∃ events, run bus.step events
        { consumer := .attempting [event] none 1, published := 1, accepted := [event] } =
      { consumer := .attempting [event] none n, published := 1, accepted := [event] } := by
  induction n, hn using Nat.le_induction with
  | base => exact ⟨[], rfl⟩
  | succ n hn ih =>
    obtain ⟨events, hevents⟩ := ih (by push_cast at hmore; omega) fun k hk hkn =>
      hdelay k hk (by omega)
    have hlast : ¬ bus.maxRetries ≤ n := by push_cast at hmore; omega
    have hshort : ¬ timeoutMax < bus.delay n := not_lt.mpr (hdelay n hn (by omega))
    refine ⟨events ++ [.work true false, .work true false], ?_⟩
    rw [run_append, hevents]
    simp [step, work, attempt, attempts, Exc.isException, hlast, backOff, hshort]

/-- A backoff no wait takes ends the thread with the batch in hand. -/
theorem not_conserved_of_delay (event : TelemetryEvent) (hconf : bus.configured = true)
    {n : ℕ} (hn : 1 ≤ n) (hmore : (n : ℤ) < bus.maxRetries) (hlong : timeoutMax < bus.delay n)
    (hdelay : ∀ k : ℕ, 1 ≤ k → k < n → bus.delay k ≤ timeoutMax) :
    ∃ events, ¬ (run bus.step events bus.init).Conserved := by
  obtain ⟨events, hevents⟩ := bus.run_to_attempt event hn hmore.le hdelay
  refine ⟨[.start, .publish event, .work true false, .work true false, .work true false] ++
    ([.work true false] ++ (events ++ [.work true false, .work true false])), ?_⟩
  have hsome : ¬ bus.maxRetries ≤ 0 := by omega
  have hask : run bus.step [.work true false]
      { consumer := .asking [event] none, published := 1, accepted := [event] } =
      { consumer := .attempting [event] none 1, published := 1, accepted := [event] } := by
    simp [step, work, hconf, attempts, hsome]
  rw [run_append, run_to_asking, run_append, hask, run_append, hevents]
  have hlast : ¬ bus.maxRetries ≤ n := by omega
  intro hconserved
  have haccounted := hconserved.accounted
  simp [step, work, attempt, attempts, Exc.isException, hlast, backOff, hlong, endShipment,
    ShipEnd.counted, ShipEnd.delivered, Consumer.batch, finish] at haccounted

end

/-! ## Over every run -/

/-- **Telemetry is conserved exactly by the sound configurations.** In every
interleaving of publishers, stops and the consumer each published event is
delivered, dropped and counted, queued or in the batch in progress, the
batches partition the queue in its order, and a stop that drains from the
start leaves none, if and only if batches hold at least one event and,
where a control plane is configured, there is an attempt and no backoff is
too long to wait for. -/
theorem conserved_iff_sound (bus : QueueEventBus) :
    (∀ events, (run bus.step events bus.init).Conserved) ↔ bus.Sound := by
  constructor
  · intro h
    let event : TelemetryEvent := ⟨"orders", "1", .pass, [], none, none⟩
    refine ⟨fun hconf => ?_, fun hconf => ?_, ?_⟩
    · by_contra hretries
      exact bus.not_conserved_of_maxRetries event hconf (by omega) (h _)
    · intro n
      induction n using Nat.strong_induction_on with
      | _ n ih =>
        intro hn hmore
        by_contra hlong
        obtain ⟨events, hevents⟩ := bus.not_conserved_of_delay event hconf hn hmore
          (not_le.mp hlong) fun k hk hkn => ih k hkn hk (by omega)
        exact hevents (h events)
    · by_contra hbatch
      exact bus.not_conserved_of_batchSize event (by omega) (h _)
  · intro hbus events
    have hinv : bus.Inv (run bus.step events bus.init) :=
      run_of_kept (fun e _ hs => Inv.step hbus e hs) inv_init events
    exact hinv.conserved

/-- A bus without retries loses the batch it takes, and one without room in
a batch keeps what a draining stop should ship. -/
theorem telemetry_lost :
    ¬ (run (step { configured := true, maxRetries := 0 })
        [.publish ⟨"orders", "1", .pass, [], none, none⟩, .work true true, .work true true,
          .work true true, .work true true]
        (init { configured := true, maxRetries := 0 })).Conserved ∧
    ¬ (run (step { batchSize := 0 })
        [.publish ⟨"orders", "1", .pass, [], none, none⟩, .stop true, .work true true,
          .work true true, .work true true]
        (init { batchSize := 0 })).Conserved := by
  constructor
  · intro h
    exact absurd h.accounted (by decide +kernel)
  · intro h
    exact absurd (h.drained (by decide +kernel) (by decide +kernel)) (by decide +kernel)

end QueueEventBus

end Congine
