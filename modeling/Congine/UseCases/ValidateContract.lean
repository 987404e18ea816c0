import Congine.Domain.Validator
/-!
# Validating an output against a contract

The staged workflow: measure the payload, resolve and measure the schema,
run the native rules under a budget, run the semantic evaluator under
what is left, and finalise. The clock, the runner, the store, the event
bus and the semantic evaluator are what the use case is constructed with.

A run keeps a trace of the instants it has used, of the stages it handed
to the runner and of the events it handed to the bus. The instant at
which the runner returns is one no code reads; it stands between the
reading that opened the stage and the one that checks it.
-/

namespace Congine

/-! ## What the use case is constructed with -/

/-- What a runner makes of the work of a stage: the work's own value or
exception comes back, or the runner raises in its place. -/
inductive RunOutcome where
  | finished
  | raised (exc : Exc)
  deriving DecidableEq

structure ValidateContractUseCase where
  /-- `schema_storage.get`. -/
  storageGet : String → Except Exc (Option Json)
  /-- `len(json.dumps(value, default=str))`. -/
  dumpsLength : Json → Except Exc ℕ
  /-- `time.monotonic_ns()`, at each instant of the run. -/
  clock : ℕ → ℤ
  /-- `timer.run_with_timeout`, by stage and wait. -/
  runWithTimeout : EvaluationStage → ℤ → RunOutcome
  /-- `timer.run_with_timeout_async`. -/
  runWithTimeoutAsync : EvaluationStage → ℤ → RunOutcome
  /-- `event_bus.publish`. -/
  publish : TelemetryEvent → Except Exc Unit
  semanticValidator : Option (Json → Json → Except Exc (List BreachDetail)) := none
  timeoutMs : ℤ := 100
  nativeTimeoutMs : Option ℤ := none
  semanticTimeoutMs : Option ℤ := none
  failMode : FailMode := .degrade
  maxPayloadBytes : ℤ := 1048576
  maxSchemaBytes : ℤ := 1048576

/-! ## The trace of a run -/

/-- A stage handed to the runner. -/
structure StageRun where
  stage : EvaluationStage
  openedNs : ℤ
  deadlineNs : ℤ
  waitMs : ℤ
  returnedNs : ℤ
  outcome : RunOutcome
  deriving DecidableEq

structure Trace where
  instants : ℕ := 0
  stages : List StageRun := []
  events : List TelemetryEvent := []
  deriving DecidableEq

namespace Trace

/-- One more instant has passed. -/
def tick (t : Trace) : Trace := { t with instants := t.instants + 1 }

def handOff (t : Trace) (s : StageRun) : Trace := { t with stages := t.stages ++ [s] }

def publish (t : Trace) (e : TelemetryEvent) : Trace := { t with events := t.events ++ [e] }

@[simp] theorem stages_tick (t : Trace) : t.tick.stages = t.stages := rfl

@[simp] theorem events_tick (t : Trace) : t.tick.events = t.events := rfl

@[simp] theorem stages_handOff (t : Trace) (s : StageRun) :
    (t.handOff s).stages = t.stages ++ [s] := rfl

@[simp] theorem events_handOff (t : Trace) (s : StageRun) : (t.handOff s).events = t.events := rfl

@[simp] theorem instants_handOff (t : Trace) (s : StageRun) :
    (t.handOff s).instants = t.instants := rfl

@[simp] theorem instants_tick (t : Trace) : t.tick.instants = t.instants + 1 := rfl

@[simp] theorem stages_publish (t : Trace) (e : TelemetryEvent) :
    (t.publish e).stages = t.stages := rfl

@[simp] theorem events_publish (t : Trace) (e : TelemetryEvent) :
    (t.publish e).events = t.events ++ [e] := rfl

end Trace

/-! ## Stage budgets -/

/-- Two absolute deadlines: of the whole validation and of the open stage. -/
structure StageBudget where
  aggregateDeadlineNs : ℤ
  stageDeadlineNs : ℤ

def nsPerMs : ℤ := 1000000

namespace StageBudget

def start (now aggregateTimeoutMs : ℤ) : StageBudget :=
  let deadline := now + aggregateTimeoutMs * nsPerMs
  ⟨deadline, deadline⟩

/-- `open_stage`: the stage deadline is the earlier of its own cap and the
aggregate deadline. -/
def openStage (b : StageBudget) (now : ℤ) (stageCapMs : Option ℤ) : StageBudget :=
  { b with
    stageDeadlineNs := match stageCapMs with
      | some cap => min b.aggregateDeadlineNs (now + cap * nsPerMs)
      | none => b.aggregateDeadlineNs }

/-- The wait `open_stage` returns, rounded down to whole milliseconds. -/
def waitMs (b : StageBudget) (now : ℤ) : ℤ := max 0 ((b.stageDeadlineNs - now) / nsPerMs)

end StageBudget

/-! ## Degraded results -/

def degradedResult (reason : DegradedReason) (stage : Option EvaluationStage) :
    ValidationResult where
  status := .fail
  degraded := true
  degradedReason := some reason
  evaluationStage := stage

/-- The reason of a stage that ran out of budget. -/
def timeoutReason : EvaluationStage → DegradedReason
  | .native => .timeout
  | .semantic => .semanticTimeout

/-- The `except` clauses of `_run_stage`, in order. A shed load is a
timeout by class, so it is caught first. -/
def stageFailure (stage : EvaluationStage) (exc : Exc) : Except Exc ValidationResult :=
  if exc = .loadShedError then .ok (degradedResult .loadShed stage)
  else if exc.isTimeoutError then .ok (degradedResult (timeoutReason stage) stage)
  else if exc = .memoryError ∨ exc = .recursionError then
    .ok (degradedResult .resourceError stage)
  -- What the SDK raises on its own account goes through to the caller.
  else if exc.isCongine then .error exc
  else if exc.isException then .ok (degradedResult .internalError stage)
  else .error exc

/-- The single breach of an input past its bound. -/
def inputBoundsBreach (field message : String) : BreachDetail where
  rule := "INPUT_BOUNDS"
  field := field
  message := some message

def payloadOversizeBreach : BreachDetail :=
  inputBoundsBreach rootPath "Payload exceeds max_payload_bytes budget"

def schemaOversizeBreach : BreachDetail :=
  inputBoundsBreach "<schema>" "Schema exceeds max_schema_bytes budget"

namespace ValidateContractUseCase

variable [Host] (u : ValidateContractUseCase)

/-! ## The stages -/

/-- `_StageBudget.exhausted`: the second clause reads the clock again. -/
def exhausted (b : StageBudget) (t : Trace) : Bool × Trace :=
  if b.stageDeadlineNs ≤ u.clock t.instants then (true, t.tick)
  else (b.aggregateDeadlineNs ≤ u.clock t.tick.instants, t.tick.tick)

/-- `_run_stage`, and `_run_stage_async`, over the awaiting primitive each
uses: a degraded result, or the value of the work. -/
def runStageWith {α : Type} (run : EvaluationStage → ℤ → RunOutcome) (work : Except Exc α)
    (b : StageBudget) (stage : EvaluationStage) (stageCapMs : Option ℤ) (t : Trace) :
    Except Exc (ValidationResult ⊕ α) × Trace :=
  let now := u.clock t.instants
  let b := b.openStage now stageCapMs
  let wait := b.waitMs now
  let t := t.tick
  -- The stage is never started.
  if wait ≤ 0 then (.ok (.inl (degradedResult (timeoutReason stage) stage)), t)
  else
    let outcome := run stage wait
    let t := t.tick.handOff {
      stage := stage
      openedNs := now
      deadlineNs := b.stageDeadlineNs
      waitMs := wait
      returnedNs := u.clock t.instants
      outcome := outcome }
    match outcome, work with
    | .raised exc, _ => ((stageFailure stage exc).map .inl, t)
    | .finished, .error exc => ((stageFailure stage exc).map .inl, t)
    | .finished, .ok value =>
        -- A value that comes too late is dropped.
        let (late, t) := u.exhausted b t
        if late then (.ok (.inl (degradedResult (timeoutReason stage) stage)), t)
        else (.ok (.inr value), t)

/-! ## The size bounds -/

/-- A size bound: a result to finalise where the value is too large or
cannot be measured. -/
def checkSize (value : Json) (maxBytes : ℤ) (reason : DegradedReason) (breach : BreachDetail) :
    Except Exc (Option ValidationResult) :=
  match u.dumpsLength value with
  | .error exc =>
      if exc.isException then .ok (some (degradedResult reason none)) else .error exc
  | .ok size =>
      .ok (if maxBytes < size then some { status := .fail, breaches := [breach] } else none)

def checkPayloadSize (payload : Json) : Except Exc (Option ValidationResult) :=
  u.checkSize payload u.maxPayloadBytes .invalidPayload payloadOversizeBreach

def checkSchemaSize (schema : Json) : Except Exc (Option ValidationResult) :=
  u.checkSize schema u.maxSchemaBytes .invalidContract schemaOversizeBreach

def resolveSchema (contractId : String) : Except Exc Json :=
  (u.storageGet contractId).bind fun found =>
    match found with
    | none | some .null => .error (.congine .contractNotFound)
    | some schema => .ok schema

/-! ## Finalising -/

def merge (native : ValidationResult) (semanticBreaches : List BreachDetail) :
    ValidationResult where
  status := if (native.breaches ++ semanticBreaches).isEmpty then .pass else .fail
  breaches := native.breaches ++ semanticBreaches
  degraded := native.degraded
  degradedReason := native.degradedReason
  evaluationStage := some .semantic

def telemetryEvent (result : ValidationResult) (contractId contractVersion : String) :
    TelemetryEvent where
  contractId := contractId
  contractVersion := contractVersion
  status := result.status
  breachDetails := result.breaches.map fun b =>
    { rule := b.rule
      field := b.field
      message := sanitizeBreachMessage (b.message.getD "") }
  -- A verdict in time carries no reason, whatever its stage.
  degradedReason := if result.degraded then result.degradedReason else none
  evaluationStage := if result.degraded then result.evaluationStage else none

/-- `_finalize`: publish, then apply the fail mode to a failure. -/
def finalize (result : ValidationResult) (contractId contractVersion : String) (t : Trace) :
    Except Exc ValidationResult × Trace :=
  let event := telemetryEvent result contractId contractVersion
  let t := t.publish event
  match u.publish event with
  | .error exc => (.error exc, t)
  | .ok _ =>
      if !result.isPass ∧ u.failMode = .strict then (.error (.congine .validation), t)
      else (.ok result, t)

/-! ## The workflow -/

/-- From the native value on: what is handed to `_finalize`. -/
def afterNative (run : EvaluationStage → ℤ → RunOutcome) (payload schema : Json)
    (b : StageBudget) (native : ValidationResult) (t : Trace) :
    Except Exc ValidationResult × Trace :=
  if native.degraded then (.ok native, t)
  else
    match u.semanticValidator with
    | none => (.ok { native with evaluationStage := some .native }, t)
    | some semanticValidator =>
        if b.aggregateDeadlineNs ≤ u.clock t.instants then
          (.ok (degradedResult .semanticTimeout (some .semantic)), t.tick)
        else
          match u.runStageWith run (semanticValidator payload schema) b .semantic
              u.semanticTimeoutMs t.tick with
          | (.error exc, t) => (.error exc, t)
          | (.ok (.inl degraded), t) => (.ok degraded, t)
          | (.ok (.inr breaches), t) => (.ok (merge native breaches), t)

/-- The stages of one validation: what is handed to `_finalize`. -/
def runStages (run : EvaluationStage → ℤ → RunOutcome) (payload schema : Json) (t : Trace) :
    Except Exc ValidationResult × Trace :=
  let b := StageBudget.start (u.clock t.instants) u.timeoutMs
  match u.runStageWith run (LocalValidator.validate payload schema) b .native u.nativeTimeoutMs
      t.tick with
  | (.error exc, t) => (.error exc, t)
  | (.ok (.inl degraded), t) => (.ok degraded, t)
  | (.ok (.inr native), t) => u.afterNative run payload schema b native t

/-- Everything before `_finalize`, which every path ends in. -/
def evaluateWith (run : EvaluationStage → ℤ → RunOutcome) (payload : Json) (contractId : String)
    (t : Trace) : Except Exc ValidationResult × Trace :=
  match u.checkPayloadSize payload with
  | .error exc => (.error exc, t)
  | .ok (some oversize) => (.ok oversize, t)
  | .ok none =>
      match u.resolveSchema contractId with
      | .error exc => (.error exc, t)
      | .ok schema =>
          match u.checkSchemaSize schema with
          | .error exc => (.error exc, t)
          | .ok (some oversize) => (.ok oversize, t)
          | .ok none => u.runStages run payload schema t

def executeWith (run : EvaluationStage → ℤ → RunOutcome) (payload : Json)
    (contractId contractVersion : String) : Except Exc ValidationResult × Trace :=
  match u.evaluateWith run payload contractId {} with
  | (.error exc, t) => (.error exc, t)
  | (.ok result, t) => u.finalize result contractId contractVersion t

def execute (payload : Json) (contractId contractVersion : String) :
    Except Exc ValidationResult × Trace :=
  u.executeWith u.runWithTimeout payload contractId contractVersion

def executeAsync (payload : Json) (contractId contractVersion : String) :
    Except Exc ValidationResult × Trace :=
  u.executeWith u.runWithTimeoutAsync payload contractId contractVersion

end ValidateContractUseCase

end Congine
