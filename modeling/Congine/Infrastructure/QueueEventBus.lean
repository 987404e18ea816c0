import Congine.Kernel.Models
/-!
# The queue event bus

Publishers put events into a bounded queue and one consumer thread ships
them in batches: the drain worker, or the finisher a stop starts where
there is no worker. What a shipment can end in is a `ShipEnd`; each end
says what it returns, counts as dropped and tells the circuit breaker.

The HTTP client, the headers and the log are left out. Threads start,
events serialize, and nothing outside `Exception` is raised in the
consumer thread.
-/

namespace Congine

/-! ## What the bus is constructed with -/

structure QueueEventBus where
  /-- `config is not None`. -/
  configured : Bool := false
  maxQueueSize : ℤ := 10000
  batchSize : ℤ := 100
  maxRetries : ℤ := 4
  backoffBase : ℚ := 1 / 2
  backoffMax : ℚ := 8
  startWorker : Bool := true

/-- `threading.TIMEOUT_MAX`: no wait takes a longer timeout. -/
def timeoutMax : ℚ := 9223372036

/-! ## Shipping one batch -/

/-- What a shipment ends in. -/
inductive ShipEnd where
  /-- No control plane is configured. -/
  | drained
  /-- The breaker does not allow the call. -/
  | refused
  | shipped
  /-- The last attempt failed. -/
  | exhausted
  /-- The stop was signalled while backing off. -/
  | interrupted
  /-- No attempt was configured: the loop body never runs. -/
  | unattempted
  | raised (exc : Exc)
  deriving DecidableEq

namespace ShipEnd

/-- What `_ship_locked` returns. -/
def result : ShipEnd → Except Exc Bool
  | drained | shipped => .ok true
  | refused | exhausted | interrupted | unattempted => .ok false
  | raised exc => .error exc

/-- The batch is added to `dropped_total`. -/
def counted : ShipEnd → Bool
  | refused | exhausted | interrupted => true
  | _ => false

/-- The batch was shipped, or drained where there is no control plane. -/
def delivered : ShipEnd → Bool
  | drained | shipped => true
  | _ => false

end ShipEnd

/-- What one attempt leads to: the end of the shipment, or a backoff. -/
inductive Attempted where
  | ends (e : ShipEnd)
  | backsOff

namespace QueueEventBus

variable (bus : QueueEventBus)

/-- The `delay` in force when an attempt has failed. -/
def delay : ℕ → ℚ
  | 0 | 1 => bus.backoffBase
  | attempt + 1 => min (delay attempt * 2) bus.backoffMax

/-- The `try` of one attempt: the post, and `raise_for_status`. -/
def attempt (attempts : ℤ) (n : ℕ) : Except Exc Unit → Attempted
  | .ok () => .ends .shipped
  | .error exc =>
    if !exc.isException then .ends (.raised exc)
    -- No backoff after the last attempt.
    else if attempts ≤ n then .ends .exhausted
    else .backsOff

/-- `_stop_event.wait(delay)`: a wait on a set event returns at once, and
one longer than the platform can time raises. -/
def backOff (stopped : Bool) (n : ℕ) : Option ShipEnd :=
  if stopped then some .interrupted
  else if timeoutMax < bus.delay n then some (.raised (.other "OverflowError"))
  else none

/-- What the outside does to one shipment. -/
structure Shipment where
  /-- Attempt by attempt, from the first. -/
  post : ℕ → Except Exc Unit
  /-- The stop is signalled before this attempt's backoff is over. -/
  stop : ℕ → Bool

/-- `for attempt in range(1, attempts + 1)`, from attempt `n` with
`remaining` still to come. -/
def shipAttempts (attempts : ℤ) (s : Shipment) : ℕ → ℕ → ShipEnd
  | 0, _ => .unattempted
  | remaining + 1, n =>
    match attempt attempts n (s.post n) with
    | .ends e => e
    | .backsOff =>
      match bus.backOff (s.stop n) n with
      | some e => e
      | none => shipAttempts attempts s remaining (n + 1)

/-- `attempts`, after the override of the exit flush. -/
def attempts (maxAttempts : Option ℤ) : ℤ := maxAttempts.getD bus.maxRetries

/-- `_ship_locked`. Where there is a breaker, `answer` is what its `allow`
answers. -/
def shipLocked (answer : Option Bool) (maxAttempts : Option ℤ) (s : Shipment) : ShipEnd :=
  if !bus.configured then .drained
  else if answer = some false then .refused
  else bus.shipAttempts (bus.attempts maxAttempts) s (bus.attempts maxAttempts).toNat 1

end QueueEventBus

/-! ## The consumer thread -/

/-- Where the consumer stands. A batch belongs to the worker's loop, or to
a final flush with its override of the attempts. -/
inductive Consumer where
  | absent
  /-- `while not self._stop_event.is_set()`. -/
  | polling
  /-- `queue.get(timeout=1.0)`. -/
  | receiving
  /-- `queue.get_nowait()` until the batch is full. -/
  | filling (batch : List TelemetryEvent) (final : Option (Option ℤ))
  /-- At the head of `_ship_locked`. -/
  | asking (batch : List TelemetryEvent) (final : Option (Option ℤ))
  | attempting (batch : List TelemetryEvent) (final : Option (Option ℤ)) (n : ℕ)
  | waiting (batch : List TelemetryEvent) (final : Option (Option ℤ)) (n : ℕ)
  /-- The worker, about to read the stop's wishes under the lock. -/
  | closing
  /-- The finisher, about to read `_drain_requested`. -/
  | finishing
  /-- The finisher, about to read `_final_attempts`. -/
  | finishingDrain
  | done

/-- The events taken from the queue and not settled yet. -/
def Consumer.batch : Consumer → List TelemetryEvent
  | filling batch _ | asking batch _ | attempting batch _ _ | waiting batch _ _ => batch
  | _ => []

/-- What the bus holds. The fields from `published` on are a record of what
has happened, which no operation reads. -/
structure BusState where
  consumer : Consumer
  queue : List TelemetryEvent := []
  stopEvent : Bool := false
  closed : Bool := false
  drainRequested : Bool := false
  finalAttempts : Option ℤ := none
  shutdownComplete : Bool := false
  droppedTotal : ℕ := 0
  /-- Publishers that were refused and have not counted it yet. -/
  refused : ℕ := 0
  published : ℕ := 0
  delivered : ℕ := 0
  accepted : List TelemetryEvent := []
  batches : List (List TelemetryEvent) := []
  /-- Whether the first stop asked for a drain. -/
  firstStop : Option Bool := none

/-- A publisher's step, a caller's, or the consumer's, with what the
breaker answers and whether the post succeeds. -/
inductive BusEvent where
  | publish (event : TelemetryEvent)
  | countRefused
  | start
  | stop (drain : Bool)
  /-- `_drain_on_exit`. -/
  | exit
  | work (granted posted : Bool)

namespace QueueEventBus

variable (bus : QueueEventBus)

/-- The constructor, with the worker started or not. -/
def init : BusState where
  consumer := if bus.startWorker then .polling else .absent

/-- `put_nowait` does not raise `queue.Full`: a queue of no positive size
is unbounded. -/
def hasRoom (queue : List TelemetryEvent) : Bool :=
  bus.maxQueueSize ≤ 0 || queue.length < bus.maxQueueSize

/-- Under the lifecycle lock an event is enqueued or refused; the refusal
is counted after the lock is released. -/
def publish (event : TelemetryEvent) (s : BusState) : BusState :=
  if !s.closed && bus.hasRoom s.queue then
    { s with
      queue := s.queue ++ [event]
      published := s.published + 1
      accepted := s.accepted ++ [event] }
  else { s with refused := s.refused + 1 }

def countRefused (s : BusState) : BusState :=
  if s.refused = 0 then s
  else
    { s with
      refused := s.refused - 1
      droppedTotal := s.droppedTotal + 1
      published := s.published + 1 }

/-- A closed bus raises, and a live worker is kept. -/
def start (s : BusState) : BusState :=
  if s.closed then s
  else
    match s.consumer with
    | .absent | .done => { s with stopEvent := false, consumer := .polling }
    | _ => s

/-- `_stop`. The join is left out: it does not wait for the consumer. -/
def stop (drain : Bool) (maxAttempts : Option ℤ) (s : BusState) : BusState :=
  { s with
    closed := true
    drainRequested := s.drainRequested || drain
    finalAttempts :=
      match maxAttempts, s.finalAttempts with
      | none, current => current
      | some m, none => some m
      | some m, some current => some (min current m)
    stopEvent := true
    consumer :=
      match s.consumer with
      | .absent => if s.closed then .absent else .finishing
      | consumer => consumer
    firstStop := if s.closed then s.firstStop else some drain }

/-- The consumer's `finally`. -/
def finish (s : BusState) : BusState :=
  { s with consumer := .done, shutdownComplete := true }

/-- A shipment is over: back to the loop the batch came from. What it
raises ends the thread. -/
def endShipment (e : ShipEnd) (batch : List TelemetryEvent) (final : Option (Option ℤ))
    (s : BusState) : BusState :=
  let s :=
    { s with
      droppedTotal := if e.counted then s.droppedTotal + batch.length else s.droppedTotal
      delivered := if e.delivered then s.delivered + batch.length else s.delivered
      batches := s.batches ++ [batch] }
  match e, final with
  | .raised _, _ => finish s
  | _, none => { s with consumer := .polling }
  | _, some _ => { s with consumer := .filling [] final }

/-- The batch is taken: it is shipped, and an empty one ends the flush. -/
def filled (batch : List TelemetryEvent) (final : Option (Option ℤ)) (s : BusState) : BusState :=
  if batch.isEmpty then finish s else { s with consumer := .asking batch final }

/-- One step of the consumer thread. -/
def work (granted posted : Bool) (s : BusState) : BusState :=
  match s.consumer with
  | .absent | .done => s
  | .polling => { s with consumer := if s.stopEvent then .closing else .receiving }
  | .receiving =>
    match s.queue with
    | [] => { s with consumer := .polling }
    | event :: queue => { s with queue, consumer := .filling [event] none }
  | .filling batch final =>
    if batch.length < bus.batchSize then
      match s.queue with
      | [] => filled batch final s
      | event :: queue => { s with queue, consumer := .filling (batch ++ [event]) final }
    else filled batch final s
  | .asking batch final =>
    if !bus.configured then endShipment .drained batch final s
    else if !granted then endShipment .refused batch final s
    else if bus.attempts final.join ≤ 0 then endShipment .unattempted batch final s
    else { s with consumer := .attempting batch final 1 }
  | .attempting batch final n =>
    let post := if posted then .ok () else .error (.httpError "HTTPError")
    match attempt (bus.attempts final.join) n post with
    | .ends e => endShipment e batch final s
    | .backsOff => { s with consumer := .waiting batch final n }
  | .waiting batch final n =>
    match bus.backOff s.stopEvent n with
    | some e => endShipment e batch final s
    | none => { s with consumer := .attempting batch final (n + 1) }
  | .closing =>
    if s.drainRequested then { s with consumer := .filling [] (some s.finalAttempts) }
    else finish s
  | .finishing => if s.drainRequested then { s with consumer := .finishingDrain } else finish s
  | .finishingDrain => { s with consumer := .filling [] (some s.finalAttempts) }

def step : BusEvent → BusState → BusState
  | .publish event, s => bus.publish event s
  | .countRefused, s => countRefused s
  | .start, s => start s
  | .stop drain, s => stop drain none s
  | .exit, s => stop true (some 1) s
  | .work granted posted, s => bus.work granted posted s

end QueueEventBus

end Congine
