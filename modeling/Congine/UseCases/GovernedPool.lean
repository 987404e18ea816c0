import Congine.Infrastructure.BoundedExecutor
import Congine.UseCases.ValidateContract
/-!
# Validations over the shared pool

The runner of the staged workflow is the bounded executor, and every
validation of a container is a caller of the one pool. A validation hands
its native stage to the pool, waits, hands over its semantic stage, waits,
and finalises; between any two of its steps the other validations, the
workers, the done-callbacks and the clock take theirs.

What the function of a call returns is settled when it is handed over. A
validation has a clock of its own, which need not tell the pool's time: the
pool may find a wait elapsed the workflow finds in time, and the other way
round.
-/

namespace Congine

/-- What the function of a stage returns. -/
abbrev StageValue := ValidationResult ⊕ List BreachDetail

namespace Outcome

variable {V : Type}

/-- What `run_with_timeout` makes of the end of a call. -/
def stageRun : Outcome V → RunOutcome
  | .delivered (.ok _) => .finished
  | .delivered (.error exc) => .raised exc
  | .timeoutError => .raised .timeoutError
  | .loadShedError => .raised .loadShedError
  | .lifecycleError => .raised (.congine .lifecycle)
  | .cancelledError => .raised (.exit "CancelledError")

/-- The value of a native stage that came back; of no other outcome is it
read. -/
def native : Outcome StageValue → Except Exc ValidationResult
  | .delivered (.ok (.inl value)) => .ok value
  | _ => .error .typeError

def semantic : Outcome StageValue → Except Exc (List BreachDetail)
  | .delivered (.ok (.inr breaches)) => .ok breaches
  | _ => .error .typeError

end Outcome

namespace ValidateContractUseCase

variable [Host] (u : ValidateContractUseCase)

/-! ## Where a validation hands over -/

/-- The schema, where both measurements are within their bounds. -/
def preflight (payload : Json) (contractId : String) : Option Json :=
  match u.checkPayloadSize payload, u.resolveSchema contractId with
  | .ok none, .ok schema =>
      match u.checkSchemaSize schema with
      | .ok none => some schema
      | _ => none
  | _, _ => none

/-- The aggregate deadline starts past the preflight. -/
def budget : StageBudget := StageBudget.start (u.clock 0) u.timeoutMs

/-- The wait a stage is handed to the runner with, if it is. -/
def stageWait (b : StageBudget) (stageCapMs : Option ℤ) (t : Trace) : Option ℤ :=
  let now := u.clock t.instants
  let wait := (b.openStage now stageCapMs).waitMs now
  if wait ≤ 0 then none else some wait

def nativeWait : Option ℤ := u.stageWait u.budget u.nativeTimeoutMs (Trace.tick {})

/-- The wait of the semantic stage, past the native value. -/
def semanticWait (native : ValidationResult) (t : Trace) : Option ℤ :=
  if native.degraded ∨ u.semanticValidator.isNone ∨
      u.budget.aggregateDeadlineNs ≤ u.clock t.instants then none
  else u.stageWait u.budget u.semanticTimeoutMs t.tick

/-- The native stage, under what the pool made of its call. -/
def settleNative (o : Outcome StageValue) :
    Except Exc (ValidationResult ⊕ ValidationResult) × Trace :=
  u.runStageWith (fun _ _ => o.stageRun) o.native u.budget .native u.nativeTimeoutMs
    (Trace.tick {})

/-- The rest of the workflow, under what the pool made of the semantic call. -/
def settleSemantic (o : Outcome StageValue) (payload schema : Json) (native : ValidationResult)
    (t : Trace) : Except Exc ValidationResult × Trace :=
  let answered := { u with semanticValidator := some fun _ _ => o.semantic }
  answered.afterNative (fun _ _ => o.stageRun) payload schema u.budget native t

/-- The function of the semantic stage. -/
def semanticWork (payload schema : Json) : Except Exc (List BreachDetail) :=
  match u.semanticValidator with
  | some semanticValidator => semanticValidator payload schema
  | none => .ok []

/-- The end of `execute`, which every path comes to. -/
def conclude (contractId contractVersion : String) :
    Except Exc ValidationResult × Trace → Except Exc ValidationResult × Trace
  | (.error exc, t) => (.error exc, t)
  | (.ok result, t) => u.finalize result contractId contractVersion t

end ValidateContractUseCase

/-! ## Validations in progress -/

/-- A call of `execute`, or of `execute_async`. -/
structure ValidationCall where
  useCase : ValidateContractUseCase
  async : Bool
  payload : Json
  contractId : String
  contractVersion : String

/-- Where a validation stands: waiting for its call in the pool, or ended
with what it returned or raised and the trace of its run. -/
inductive ValidationPhase where
  | native (schema : Json) (call : ℕ)
  | semantic (schema : Json) (native : ValidationResult) (t : Trace) (call : ℕ)
  | ended (out : Except Exc ValidationResult × Trace)

structure Validation extends ValidationCall where
  /-- The calls it has made, which no step reads. -/
  nativeCall : Option ℕ := none
  semanticCall : Option ℕ := none
  phase : ValidationPhase

structure GovernedPool where
  pool : BoundedValidationExecutor StageValue
  /-- What the function of each call ends in, once a worker runs it. -/
  work : List (Except Exc StageValue) := []
  validations : List Validation := []

inductive GovernedEvent where
  | execute (call : ValidationCall)
  /-- The wait of a validation is over. -/
  | resume (i : ℕ)
  /-- A step of the pool that is no call of a validation. -/
  | pool (e : BoundedValidationExecutor.Event StageValue)

namespace GovernedPool

variable [Host]

omit [Host] in
/-- How a call ended. -/
def outcome (s : GovernedPool) (call : ℕ) : Option (Outcome StageValue) :=
  s.pool.calls[call]?.bind Call.outcome

omit [Host] in
/-- A stage is handed to the pool, whose lock is free. -/
def submit (s : GovernedPool) (async : Bool) (waitMs : ℤ) (work : Except Exc StageValue) :
    GovernedPool :=
  { s with pool := s.pool.enter async waitMs, work := s.work ++ [work] }

omit [Host] in
def put (s : GovernedPool) (i : ℕ) (x : Validation) : GovernedPool :=
  { s with validations := s.validations.set i x }

/-- What comes before the first wait. No runner is asked where the native
stage is not handed over. -/
def execute (s : GovernedPool) (call : ValidationCall) : GovernedPool :=
  let u := call.useCase
  match u.preflight call.payload call.contractId, u.nativeWait with
  | some schema, some wait =>
      -- Another thread is inside the lock: the caller waits its turn.
      if s.pool.lock.isSome then s
      else
        let s' := s.submit call.async wait ((LocalValidator.validate call.payload schema).map .inl)
        { s' with
          validations := s.validations ++
            [{ call with
              nativeCall := some s.pool.calls.length
              phase := .native schema s.pool.calls.length }] }
  | _, _ =>
      let out := u.executeWith (fun _ _ => .finished) call.payload call.contractId
        call.contractVersion
      { s with validations := s.validations ++ [{ call with phase := .ended out }] }

/-- A validation ends with what its stages came to. -/
def settle (s : GovernedPool) (i : ℕ) (x : Validation)
    (out : Except Exc ValidationResult × Trace) : GovernedPool :=
  s.put i { x with phase := .ended (x.useCase.conclude x.contractId x.contractVersion out) }

/-- The native call has ended. -/
def resumeNative (s : GovernedPool) (i : ℕ) (x : Validation) (schema : Json)
    (o : Outcome StageValue) : GovernedPool :=
  match x.useCase.settleNative o with
  | (.error exc, t) => s.settle i x (.error exc, t)
  | (.ok (.inl degraded), t) => s.settle i x (.ok degraded, t)
  | (.ok (.inr native), t) =>
      match x.useCase.semanticWait native t with
      | none =>
          s.settle i x (x.useCase.afterNative (fun _ _ => .finished) x.payload schema
            x.useCase.budget native t)
      | some wait =>
          if s.pool.lock.isSome then s
          else
            (s.submit x.async wait ((x.useCase.semanticWork x.payload schema).map .inr)).put i
              { x with
                semanticCall := some s.pool.calls.length
                phase := .semantic schema native t s.pool.calls.length }

def resume (s : GovernedPool) (i : ℕ) : GovernedPool :=
  match s.validations[i]? with
  | none => s
  | some x =>
      match x.phase with
      | .ended _ => s
      | .native schema call =>
          match s.outcome call with
          | none => s
          | some o => s.resumeNative i x schema o
      | .semantic schema native t call =>
          match s.outcome call with
          | none => s
          | some o => s.settle i x (x.useCase.settleSemantic o x.payload schema native t)

omit [Host] in
/-- The function a worker finishes is the one that was handed over. -/
def poolEvent (s : GovernedPool) :
    BoundedValidationExecutor.Event StageValue → Option (BoundedValidationExecutor.Event StageValue)
  | .call _ _ => none
  | .finish call _ => s.work[call]?.map fun result => .finish call result
  | e => some e

/-- One step, where asyncio hands over an exception as `convert` says. -/
def step (convert : Exc → Option Exc) : GovernedEvent → GovernedPool → GovernedPool
  | .execute call, s => s.execute call
  | .resume i, s => s.resume i
  | .pool e, s =>
      match s.poolEvent e with
      | none => s
      | some e => { s with pool := BoundedValidationExecutor.step convert e s.pool }

def new (maxWorkers maxPending : ℕ) : GovernedPool where
  pool := BoundedValidationExecutor.new maxWorkers maxPending

/-- The runner a validation has had: what the pool made of its calls. -/
def runner (s : GovernedPool) (x : Validation) : EvaluationStage → ℤ → RunOutcome := fun stage _ =>
  let call := match stage with
    | .native => x.nativeCall
    | .semantic => x.semanticCall
  match call.bind s.outcome with
  | some o => o.stageRun
  | none => .raised .typeError

end GovernedPool

end Congine
