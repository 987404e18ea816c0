import Congine.Common.Url
import Congine.Kernel.Dynamic
import Mathlib.Data.Finset.Basic
/-!
# The configuration plane

One immutable instance, made either of arguments or of the environment.
Construction normalises the fields that hold an enumeration, checks the
budgets of the two stages and then the policy of the control plane: what is
not on the loopback needs credentials, and its transport encrypted unless
that is waived.

Floats are read by nothing that is modelled, so the fields that hold one
are left out; that the variable of each parses is checked where it is read.
The level of the log is left out with them. Lower case is that of the
letters of ASCII: no other character has a lower case that stands in a name
the texts here are compared with.
-/

namespace Congine.Configuration

/-! ## Enumerations and their wire values -/

inductive Region where
  | us | eu | apac
  deriving DecidableEq

inductive DeploymentMode where
  | singleTenant | multiTenant
  deriving DecidableEq

inductive ContractSource where
  | http | file
  deriving DecidableEq

/-- A class of `str` members, each with its wire value. -/
class WireEnum (E : Type) where
  className : String
  values : List (String × E)

instance : WireEnum Region := ⟨"Region", [("us", .us), ("eu", .eu), ("apac", .apac)]⟩

instance : WireEnum FailMode :=
  ⟨"FailMode", [("strict", .strict), ("degrade", .degrade), ("silent", .silent)]⟩

instance : WireEnum DeploymentMode :=
  ⟨"DeploymentMode", [("single_tenant", .singleTenant), ("multi_tenant", .multiTenant)]⟩

instance : WireEnum ContractSource := ⟨"ContractSource", [("http", .http), ("file", .file)]⟩

instance : WireEnum ContractAdmissionMode :=
  ⟨"ContractAdmissionMode", [("strict", .strict), ("warn", .warn)]⟩

/-- `_accepted`. -/
def accepted (E : Type) [WireEnum E] : String :=
  ", ".intercalate (Text.sortedSet ((WireEnum.values (E := E)).map Prod.fst))

def lower (cs : List Char) : List Char := cs.map Char.toLower

/-- `str.isspace`, of one character. -/
def isSpace (c : Char) : Bool := Text.isBlank c ∨ (0x1c ≤ c.toNat ∧ c.toNat ≤ 0x1f)

/-- `text.strip()`. -/
def strip (cs : List Char) : List Char :=
  ((cs.dropWhile isSpace).reverse.dropWhile isSpace).reverse

/-- `enum_cls(value.strip().lower())`, where it does not raise. -/
def memberOf (E : Type) [WireEnum E] (value : String) : Option E :=
  WireEnum.values.lookup (String.ofList (lower (strip value.toList)))

/-! ## What construction raises -/

inductive Fault where
  /-- `CongineConfigurationError`, with its message. -/
  | configuration (message : String)
  /-- Another exception, which goes through. -/
  | raised (exc : Exc)
  deriving DecidableEq

/-! ## Instances and arguments -/

def defaultMaxBytes : ℤ := 1048576

/-- The fields no construction changes. -/
structure Settings where
  baseUrl : String
  apiKey : Option String
  projectId : Option String
  tenantId : Option String
  validationTimeoutMs : ℤ := 100
  cacheCapacity : ℤ := 500
  cacheTtlSeconds : ℤ := 300
  syncEnabled : Bool := false
  syncIntervalSeconds : ℤ := 300
  semanticValidationEnabled : Bool := false
  semanticMaxBreaches : ℤ := 100
  semanticFormatChecking : Bool := false
  driftSampleLimit : ℤ := 500
  jsonschemaDraft : String := "draft202012"
  validationMaxWorkers : ℤ := 10
  validationMaxPending : ℤ := 10
  contractsDir : Option String := none
  localContractsDir : Option String := none
  telemetryEnabled : Bool := true
  telemetryQueueSize : ℤ := 10000
  telemetryBatchSize : ℤ := 100
  telemetryMaxRetries : ℤ := 4
  snapshotDir : Option String := none
  requireHttps : Bool := true
  allowCleartext : Bool := false
  logSafeFields : Option (Finset String) := none
  logRedactionEnabled : Bool := true
  breakerFailureThreshold : ℤ := 5
  maxPayloadBytes : ℤ := defaultMaxBytes
  maxSchemaBytes : ℤ := defaultMaxBytes
  maxContractFiles : ℤ := 1000
  maxContractFileBytes : ℤ := defaultMaxBytes
  maxStreamBufferChars : ℤ := 500000
  maxHttpResponseBytes : ℤ := 10485760
  startBackgroundServices : Bool := true
  deriving DecidableEq

/-- An instance: every enumeration is a member of its class by now. -/
structure CongineConfig extends Settings where
  region : Region
  nativeValidationTimeoutMs : Option ℤ := none
  semanticValidationTimeoutMs : Option ℤ := none
  failMode : FailMode := .degrade
  contractSource : ContractSource := .http
  deploymentMode : DeploymentMode := .singleTenant
  contractAdmission : ContractAdmissionMode := .strict
  deriving DecidableEq

/-- What a caller may hand a field that holds an enumeration. A member of
another such class is a text too, but for how a message shows it. -/
inductive RawEnum (E : Type) where
  | member (e : E)
  | text (value : String)
  | other (typeName : String)
  deriving DecidableEq

/-- What a caller may hand a stage cap. -/
inductive RawCap where
  | none
  | int (value : ℤ)
  /-- A `bool` is an `int` by class. -/
  | other (typeName : String)
  deriving DecidableEq

structure Arguments extends Settings where
  region : RawEnum Region
  nativeValidationTimeoutMs : RawCap := .none
  semanticValidationTimeoutMs : RawCap := .none
  failMode : RawEnum FailMode := .member .degrade
  contractSource : RawEnum ContractSource := .member .http
  deploymentMode : RawEnum DeploymentMode := .member .singleTenant
  contractAdmission : RawEnum ContractAdmissionMode := .member .strict

/-! ## The policy of the control plane -/

/-- `_LOCAL_HOSTS`. -/
def localHosts : List String := ["localhost", "127.0.0.1", "::1", "0.0.0.0"]

variable [Host] (checks : Url.NetlocChecks)

omit [Host] in
/-- `is_local_base_url`, where `urlparse` does not raise. -/
def isLocalBaseUrl (baseUrl : String) : Option Bool :=
  let netloc := Url.netloc (Url.clean baseUrl.toList)
  if Url.netlocOk checks netloc then
    some (String.ofList (lower (Url.hostname netloc)) ∈ localHosts)
  else none

/-- `not value`, of an optional text. -/
def missing (value : Option String) : Bool := value = none ∨ value = some ""

/-- The credentials an instance does not have. -/
def Settings.missingCredentials (c : Settings) : List String :=
  ([("api_key", c.apiKey), ("project_id", c.projectId), ("tenant_id", c.tenantId)].filter
    fun (_, value) => missing value).map Prod.fst

def Settings.isHttps (c : Settings) : Bool :=
  "https://".toList.isPrefixOf (lower c.baseUrl.toList)

/-- `validate`. -/
def Settings.validate (c : Settings) : Except Fault Unit :=
  match isLocalBaseUrl checks c.baseUrl with
  | none => .error (.raised .valueError)
  | some true => .ok ()
  | some false =>
      if c.missingCredentials ≠ [] then
        .error (.configuration ("Incomplete configuration for non-local base_url: missing " ++
          Host.repr (.arr (c.missingCredentials.map .str))))
      else if c.requireHttps ∧ !c.allowCleartext ∧ !c.isHttps then
        .error (.configuration ("base_url must use https for a non-local control plane " ++
          "(set CONGINE_ALLOW_CLEARTEXT=true for development / internal " ++
          "deployments, or CONGINE_REQUIRE_HTTPS=false to disable the policy)"))
      else .ok ()

/-! ## Construction -/

/-- One field of `_ENUM_FIELDS`. -/
def normalize {E : Type} [WireEnum E] (name : String) : RawEnum E → Except Fault E
  | .member e => .ok e
  | .other typeName =>
      .error (.configuration ("Invalid " ++ name ++ ": expected " ++
        WireEnum.className E ++ " or one of " ++ accepted E ++ ", got " ++ typeName))
  | .text value =>
      match memberOf E value with
      | some e => .ok e
      | none =>
          .error (.configuration ("Invalid " ++ name ++ ": " ++ Host.repr (.str value) ++
            ". Accepted: " ++ accepted E ++ "."))

/-- A message with an integer in it: one of too many digits is not printed. -/
def printing (value : ℤ) (message : String → Except Fault String) : Except Fault String :=
  match pyStr (.int value) with
  | .ok shown => message shown
  | .error exc => .error (.raised exc)

/-- `_validate_stage_budgets`, of one cap. -/
def stageBudget (name : String) (aggregateMs : ℤ) : RawCap → Except Fault (Option ℤ)
  | .none => .ok none
  | .other typeName =>
      .error (.configuration ("Invalid " ++ name ++
        ": expected a positive integer of milliseconds or None, got " ++ typeName))
  | .int value =>
      if value ≤ 0 then
        (printing value fun shown =>
          .ok ("Invalid " ++ name ++ ": must be greater than 0, got " ++ shown)).bind
          fun message => .error (.configuration message)
      else if aggregateMs < value then
        (printing value fun shown => printing aggregateMs fun aggregate =>
          .ok ("Invalid " ++ name ++ ": " ++ shown ++
            "ms exceeds the aggregate validation_timeout_ms of " ++ aggregate ++
            "ms. A stage cannot be given more time than the whole validation.")).bind
          fun message => .error (.configuration message)
      else .ok (some value)

/-- `__post_init__`: normalise, then check the budgets, then validate. -/
def construct (a : Arguments) : Except Fault CongineConfig := do
  let region ← normalize "region" a.region
  let failMode ← normalize "fail_mode" a.failMode
  let contractSource ← normalize "contract_source" a.contractSource
  let deploymentMode ← normalize "deployment_mode" a.deploymentMode
  let contractAdmission ← normalize "contract_admission" a.contractAdmission
  let native ← stageBudget "native_validation_timeout_ms" a.validationTimeoutMs
    a.nativeValidationTimeoutMs
  let semantic ← stageBudget "semantic_validation_timeout_ms" a.validationTimeoutMs
    a.semanticValidationTimeoutMs
  a.toSettings.validate checks
  return {
    toSettings := a.toSettings
    region := region
    nativeValidationTimeoutMs := native
    semanticValidationTimeoutMs := semantic
    failMode := failMode
    contractSource := contractSource
    deploymentMode := deploymentMode
    contractAdmission := contractAdmission }

/-! ## The environment -/

/-- `os.getenv`. -/
abbrev Env := String → Option String

/-- `_TRUE_VALUES` and `_FALSE_VALUES`. -/
def trueValues : List String := ["1", "true", "yes", "on"]

def falseValues : List String := ["0", "false", "no", "off"]

def shown (value : String) : String := Host.repr (.str value)

def envBool (env : Env) (name : String) (default : Bool) : Except Fault Bool :=
  match env name with
  | none => .ok default
  | some raw =>
      let normalized := String.ofList (lower (strip raw.toList))
      if normalized ∈ falseValues then .ok false
      else if normalized ∈ trueValues then .ok true
      else .error (.configuration ("Invalid boolean for " ++ name ++ ": " ++ shown raw ++
        ". Accepted values: " ++
        ", ".intercalate (Text.sortedSet (trueValues ++ falseValues)) ++ "."))

omit [Host] in
def envOptionalPath (env : Env) (name : String) : Except Fault (Option String) :=
  match env name with
  | none => .ok none
  | some raw =>
      if strip raw.toList = [] then
        .error (.configuration (name ++ " is set but empty. Leave it unset to disable the " ++
          "feature, or provide a directory path."))
      else .ok (some raw)

def readInt (name raw : String) : Except Fault ℤ :=
  match Text.parseInt raw with
  | some value => .ok value
  | none => .error (.configuration ("Invalid integer for " ++ name ++ ": " ++ shown raw))

def envInt (env : Env) (name : String) (default : ℤ) : Except Fault ℤ :=
  match env name with
  | none => .ok default
  | some raw => readInt name raw

/-- An empty value is no absent one. -/
def envOptionalInt (env : Env) (name : String) : Except Fault (Option ℤ) :=
  match env name with
  | none => .ok none
  | some raw =>
      if strip raw.toList = [] then
        .error (.configuration ("Invalid integer for " ++ name ++
          ": empty value. Unset the variable to inherit the aggregate budget."))
      else (readInt name raw).map some

/-- `_env_float`, of a variable whose value nothing reads. `floats` tells the
texts `float` takes. -/
def envFloat (floats : String → Bool) (env : Env) (name : String) : Except Fault Unit :=
  match env name with
  | none => .ok ()
  | some raw =>
      if floats raw then .ok ()
      else .error (.configuration ("Invalid float for " ++ name ++ ": " ++ shown raw))

omit [Host] in
def envFrozenset (env : Env) (name : String) : Option (Finset String) :=
  (env name).map fun raw =>
    (((raw.toList.splitOn ',').map strip).filter (· ≠ [])).map String.ofList |>.toFinset

/-- A variable that holds an enumeration. Two of the five messages name what
is accepted. -/
def envEnum (E : Type) [WireEnum E] (env : Env) (name default : String) (namesAccepted : Bool) :
    Except Fault E :=
  let raw := (env name).getD default
  match memberOf E raw with
  | some e => .ok e
  | none =>
      .error (.configuration ("Invalid " ++ name ++ ": " ++ shown raw ++
        if namesAccepted then ". Accepted: " ++ accepted E ++ "." else ""))

/-- `deployment_mode_from_env`: the one variable, and none of the others. -/
def deploymentModeFromEnv (env : Env) : Except Fault DeploymentMode :=
  envEnum DeploymentMode env "CONGINE_DEPLOYMENT_MODE" "single_tenant" false

omit [Host] in
def wireValue : Region → String
  | .us => "us"
  | .eu => "eu"
  | .apac => "apac"

/-- `base_url_from_env`: a region never selects an endpoint. -/
def baseUrlFromEnv (env : Env) (region : Region) : Except Fault String :=
  match env "CONGINE_BASE_URL" with
  | some explicit =>
      if explicit ≠ "" then .ok explicit else fallback
  | none => fallback
where
  fallback : Except Fault String :=
    if missing (env "CONGINE_REGION") then .ok "http://localhost:8080"
    else .error (.configuration ("CONGINE_REGION=" ++ shown (wireValue region) ++
      " declares a remote deployment, but CONGINE_BASE_URL is not set. Region is metadata " ++
      "and no longer selects an endpoint (the previous regional hostnames were unverified " ++
      "placeholders). Set CONGINE_BASE_URL explicitly."))

/-- What `from_env` hands the constructor, in the order it is read, less the
enumerations. -/
def readSettings (floats : String → Bool) (env : Env) (region : Region) :
    Except Fault (Settings × Option ℤ × Option ℤ) := do
  let baseUrl ← baseUrlFromEnv env region
  let validationTimeoutMs ← envInt env "CONGINE_TIMEOUT_MS" 100
  let native ← envOptionalInt env "CONGINE_NATIVE_TIMEOUT_MS"
  let semantic ← envOptionalInt env "CONGINE_SEMANTIC_TIMEOUT_MS"
  let cacheCapacity ← envInt env "CONGINE_CACHE_CAPACITY" 500
  let cacheTtlSeconds ← envInt env "CONGINE_CACHE_TTL" 300
  let syncEnabled ← envBool env "CONGINE_SYNC_ENABLED" false
  let syncIntervalSeconds ← envInt env "CONGINE_SYNC_INTERVAL" 300
  let semanticValidationEnabled ← envBool env "CONGINE_SEMANTIC_VALIDATION" false
  let semanticMaxBreaches ← envInt env "CONGINE_SEMANTIC_MAX_BREACHES" 100
  let semanticFormatChecking ← envBool env "CONGINE_SEMANTIC_FORMAT_CHECKING" false
  envFloat floats env "CONGINE_DRIFT_THRESHOLD"
  let driftSampleLimit ← envInt env "CONGINE_DRIFT_SAMPLE_LIMIT" 500
  let validationMaxWorkers ← envInt env "CONGINE_VALIDATION_WORKERS" 10
  let validationMaxPending ← envInt env "CONGINE_VALIDATION_PENDING" 10
  let contractsDir ← envOptionalPath env "CONGINE_CONTRACTS_DIR"
  let localContractsDir ← envOptionalPath env "CONGINE_LOCAL_CONTRACTS_DIR"
  envFloat floats env "CONGINE_CACHE_SWEEP_INTERVAL_SECONDS"
  envFloat floats env "CONGINE_CONTROL_PLANE_HTTP_TIMEOUT"
  let telemetryEnabled ← envBool env "CONGINE_TELEMETRY_ENABLED" true
  let telemetryQueueSize ← envInt env "CONGINE_TELEMETRY_QUEUE_SIZE" 10000
  let telemetryBatchSize ← envInt env "CONGINE_TELEMETRY_BATCH_SIZE" 100
  let telemetryMaxRetries ← envInt env "CONGINE_TELEMETRY_MAX_RETRIES" 4
  envFloat floats env "CONGINE_TELEMETRY_BACKOFF_BASE"
  envFloat floats env "CONGINE_TELEMETRY_BACKOFF_MAX"
  envFloat floats env "CONGINE_SNAPSHOT_LOCK_TIMEOUT"
  let requireHttps ← envBool env "CONGINE_REQUIRE_HTTPS" true
  let allowCleartext ← envBool env "CONGINE_ALLOW_CLEARTEXT" false
  let logRedactionEnabled ← envBool env "CONGINE_LOG_REDACTION" true
  let breakerFailureThreshold ← envInt env "CONGINE_BREAKER_FAILURE_THRESHOLD" 5
  envFloat floats env "CONGINE_BREAKER_COOLDOWN_SECONDS"
  let maxPayloadBytes ← envInt env "CONGINE_MAX_PAYLOAD_BYTES" defaultMaxBytes
  let maxSchemaBytes ← envInt env "CONGINE_MAX_SCHEMA_BYTES" defaultMaxBytes
  let maxContractFiles ← envInt env "CONGINE_MAX_CONTRACT_FILES" 1000
  let maxContractFileBytes ← envInt env "CONGINE_MAX_CONTRACT_FILE_BYTES" defaultMaxBytes
  let maxStreamBufferChars ← envInt env "CONGINE_MAX_STREAM_BUFFER_CHARS" 500000
  let maxHttpResponseBytes ← envInt env "CONGINE_MAX_HTTP_RESPONSE_BYTES" 10485760
  let startBackgroundServices ← envBool env "CONGINE_START_BACKGROUND_SERVICES" true
  return ({
    baseUrl := baseUrl
    apiKey := env "CONGINE_API_KEY"
    projectId := env "CONGINE_PROJECT_ID"
    tenantId := env "CONGINE_TENANT_ID"
    validationTimeoutMs := validationTimeoutMs
    cacheCapacity := cacheCapacity
    cacheTtlSeconds := cacheTtlSeconds
    syncEnabled := syncEnabled
    syncIntervalSeconds := syncIntervalSeconds
    semanticValidationEnabled := semanticValidationEnabled
    semanticMaxBreaches := semanticMaxBreaches
    semanticFormatChecking := semanticFormatChecking
    driftSampleLimit := driftSampleLimit
    jsonschemaDraft := (env "CONGINE_JSONSCHEMA_DRAFT").getD "draft202012"
    validationMaxWorkers := validationMaxWorkers
    validationMaxPending := validationMaxPending
    contractsDir := contractsDir
    localContractsDir := localContractsDir
    telemetryEnabled := telemetryEnabled
    telemetryQueueSize := telemetryQueueSize
    telemetryBatchSize := telemetryBatchSize
    telemetryMaxRetries := telemetryMaxRetries
    snapshotDir := env "CONGINE_SNAPSHOT_DIR"
    requireHttps := requireHttps
    allowCleartext := allowCleartext
    logSafeFields := envFrozenset env "CONGINE_LOG_SAFE_FIELDS"
    logRedactionEnabled := logRedactionEnabled
    breakerFailureThreshold := breakerFailureThreshold
    maxPayloadBytes := maxPayloadBytes
    maxSchemaBytes := maxSchemaBytes
    maxContractFiles := maxContractFiles
    maxContractFileBytes := maxContractFileBytes
    maxStreamBufferChars := maxStreamBufferChars
    maxHttpResponseBytes := maxHttpResponseBytes
    startBackgroundServices := startBackgroundServices }, native, semantic)

/-- What the environment gives a stage cap. -/
def rawCap : Option ℤ → RawCap
  | none => .none
  | some value => .int value

/-- `from_env`. -/
def fromEnv (floats : String → Bool) (env : Env) : Except Fault CongineConfig := do
  let region ← envEnum Region env "CONGINE_REGION" "us" false
  let failMode ← envEnum FailMode env "CONGINE_FAIL_MODE" "degrade" false
  let contractSource ← envEnum ContractSource env "CONGINE_CONTRACT_SOURCE" "http" true
  let contractAdmission ←
    envEnum ContractAdmissionMode env "CONGINE_CONTRACT_ADMISSION" "strict" true
  let deploymentMode ← deploymentModeFromEnv env
  let (settings, native, semantic) ← readSettings floats env region
  construct checks {
    toSettings := settings
    region := .member region
    nativeValidationTimeoutMs := rawCap native
    semanticValidationTimeoutMs := rawCap semantic
    failMode := .member failMode
    contractSource := .member contractSource
    deploymentMode := .member deploymentMode
    contractAdmission := .member contractAdmission }

end Congine.Configuration
