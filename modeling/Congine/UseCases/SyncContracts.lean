import Congine.Domain.Admission
import Congine.Infrastructure.CircuitBreaker
import Congine.Infrastructure.HttpContractRepository
import Congine.Infrastructure.LfuCache
/-!
# Syncing the contracts

One pass fetches the active contracts, or falls back to the snapshot on
disk, admits each entry, stores what was admitted and writes the fetched
batch to disk. Everything a process keeps between passes is a
`SyncState`; what the outside does during a pass is an `Outside`.

The asynchronous pass awaits the same fetch, and the event loop and the
logger are left out. A pass that raises leaves the state it had reached.
-/

namespace Congine

/-! ## What the use case is constructed with -/

structure SyncContractsUseCase where
  /-- `time.monotonic()`, at each instant of the process. -/
  clock : ℕ → ℚ
  cacheTtlSeconds : ℤ := 300
  semanticValidationEnabled : Bool := false
  semanticFormatChecking : Bool := false
  semanticCapability : Option SemanticCapability := none
  admissionMode : ContractAdmissionMode := .strict
  maxHttpResponseBytes : ℤ
  /-- `type(exc).__name__` where the admission check raises on a schema:
  the stack or the memory it needs is not there. -/
  admissionError : Json → Option String := fun _ => none

/-- What the outside does during a pass. -/
structure Outside where
  exchange : Except Exc HttpResponse
  save : SaveOutcome := .written
  fetchedAt : String := ""

/-! ## The state of a process -/

/-- `_last_admission_failure`. -/
structure AdmissionFailure where
  contractId : Json
  contractVersion : Json
  codes : List String
  detail : String

/-- The admission counters. -/
structure AdmissionHealth where
  contractsRejectedTotal : ℕ := 0
  lastAdmissionFailure : Option AdmissionFailure := none

structure SyncState where
  schemaStorage : LFUCache Json.Key Json
  circuitBreaker : Option CircuitBreaker := none
  snapshot : SnapshotFile := .absent
  health : AdmissionHealth := {}
  /-- Readings of the clock so far. -/
  instants : ℕ := 0
  /-- The schemas put into the store so far, each with its instant. -/
  admissions : List (Json.Key × Json × ℚ) := []

namespace SyncContractsUseCase

variable (u : SyncContractsUseCase)

/-- `_enforced_keywords`: a derived capability wins over the fixed list. -/
def enforcedKeywords : List String :=
  nativeEnforcedKeywords ++
    match u.semanticCapability with
    | some capability => capability.enforcedKeywords
    | none =>
        if u.semanticValidationEnabled then
          semanticEnforcedKeywords ++ if u.semanticFormatChecking then ["format"] else []
        else []

/-! ## Fetching under the breaker -/

def breakerAllows (σ : SyncState) : Bool × SyncState :=
  match σ.circuitBreaker with
  | none => (true, σ)
  | some breaker =>
      let (allowed, breaker) := breaker.allow (u.clock σ.instants)
      (allowed, { σ with circuitBreaker := some breaker, instants := σ.instants + 1 })

def breakerRecordFailure (σ : SyncState) : SyncState :=
  match σ.circuitBreaker with
  | none => σ
  | some breaker =>
      { σ with
        circuitBreaker := some (breaker.recordFailure (u.clock σ.instants))
        instants := σ.instants + 1 }

def breakerRecordSuccess (σ : SyncState) : SyncState :=
  { σ with circuitBreaker := σ.circuitBreaker.map CircuitBreaker.recordSuccess }

/-- `_fetch_sync` and `_fetch_async`: the contracts, and whether they are
fresh. Only a sync error falls back to the snapshot. -/
def fetch (o : Outside) (σ : SyncState) : Except Exc (Option (List Json) × Bool) × SyncState :=
  let (allowed, σ) := u.breakerAllows σ
  -- A refusal of the breaker is no failure: it is not recorded.
  if !allowed then ((loadSnapshot σ.snapshot).map (·, false), σ)
  else
    match fetchActiveContracts u.maxHttpResponseBytes o.exchange with
    | .ok contracts => (.ok (some contracts, true), breakerRecordSuccess σ)
    | .error (.congine .sync) =>
        let σ := u.breakerRecordFailure σ
        ((loadSnapshot σ.snapshot).map (·, false), σ)
    -- Anything else escapes, and the breaker learns nothing of the call.
    | .error exc => (.error exc, σ)

/-! ## Admitting -/

/-- `_record_rejection`. -/
def recordRejection (contractId contract : Json) (codes : List String) (detail : String)
    (σ : SyncState) : SyncState :=
  { σ with
    health := {
      contractsRejectedTotal := σ.health.contractsRejectedTotal + 1
      lastAdmissionFailure := some {
        contractId := contractId
        contractVersion := (contract.get? "version").getD .null
        codes := codes
        detail := detail } } }

section Host

variable [Host]

/-- `_admit`: a check that raises refuses. -/
def admit_ (contractId contract schema : Json) (σ : SyncState) : Bool × SyncState :=
  match u.admissionError schema with
  | some errorType => (false, recordRejection contractId contract ["admission_error"] errorType σ)
  | none =>
      let result := admitContract schema u.admissionMode u.enforcedKeywords u.semanticCapability
      if result.admitted then (true, σ)
      else
        let errors := result.errors
        (false, recordRejection contractId contract (Text.sortedSet (errors.map (·.code.value)))
          ("; ".intercalate ((errors.take 5).map fun i => i.path ++ ": " ++ i.message)) σ)

/-! ## Storing -/

/-- `schema_storage.put(contract_id, schema, cache_ttl_seconds)`: looking an
unhashable id up raises, unless the cache holds nothing at all. -/
def storagePut (contractId schema : Json) (σ : SyncState) : Except Exc Unit × SyncState :=
  if σ.schemaStorage.capacity = 0 then (.ok (), σ)
  else
    let now := u.clock σ.instants
    match contractId.hash? with
    | none => (.error .typeError, { σ with instants := σ.instants + 1 })
    | some key =>
        match σ.schemaStorage.put now key schema (some u.cacheTtlSeconds) with
        | .error exc => (.error exc, { σ with instants := σ.instants + 1 })
        | .ok schemaStorage =>
            (.ok (), { σ with
              schemaStorage := schemaStorage
              instants := σ.instants + 1
              admissions := σ.admissions ++ [(key, schema, now)] })

/-- `_prime_cache`, from an entry on. -/
def primeCache : List Json → ℕ → SyncState → Except Exc ℕ × SyncState
  | [], loaded, σ => (.ok loaded, σ)
  | .obj fields :: contracts, loaded, σ =>
      let contractId := (fields.lookup "id").getD .null
      let schema := (fields.lookup "schema").getD .null
      -- An entry without an id or a schema is passed over, uncounted.
      if !contractId.truthy ∨ schema.isNull then primeCache contracts loaded σ
      else
        match u.admit_ contractId (.obj fields) schema σ with
        | (false, σ) => primeCache contracts loaded σ
        | (true, σ) =>
            match u.storagePut contractId schema σ with
            | (.error exc, σ) => (.error exc, σ)
            | (.ok _, σ) => primeCache contracts (loaded + 1) σ
  | _ :: _, _, σ => (.error .attributeError, σ)

/-- `_apply`: prime the cache, then persist what is fresh. A file system
that fails is logged. -/
def applyContracts (contracts : Option (List Json)) (fetched : Bool) (o : Outside)
    (σ : SyncState) : Except Exc ℕ × SyncState :=
  match contracts with
  | none | some [] => (.ok 0, σ)
  | some contracts =>
      match u.primeCache contracts 0 σ with
      | (.error exc, σ) => (.error exc, σ)
      | (.ok loaded, σ) =>
          -- A snapshot that was loaded is not written back.
          if fetched then
            match saveSnapshot contracts o.fetchedAt o.save σ.snapshot with
            | .ok snapshot => (.ok loaded, { σ with snapshot := snapshot })
            | .error exc => if exc.isOSError then (.ok loaded, σ) else (.error exc, σ)
          else (.ok loaded, σ)

/-! ## Passes -/

def syncOnce (o : Outside) (σ : SyncState) : Except Exc ℕ × SyncState :=
  match u.fetch o σ with
  | (.error exc, σ) => (.error exc, σ)
  | (.ok (contracts, fetched), σ) => u.applyContracts contracts fetched o σ

def syncOnceAsync (o : Outside) (σ : SyncState) : Except Exc ℕ × SyncState := u.syncOnce o σ

def loadSnapshotOnly (o : Outside) (σ : SyncState) : Except Exc ℕ × SyncState :=
  match loadSnapshot σ.snapshot with
  | .error exc => (.error exc, σ)
  | .ok contracts => u.applyContracts contracts false o σ

end Host

end SyncContractsUseCase

end Congine
