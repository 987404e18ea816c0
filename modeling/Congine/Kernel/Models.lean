import Congine.Common.Json
import Congine.Common.Text
/-!
# The kernel: values every layer exchanges

The exception tree, the results and telemetry of a validation, the
policy knobs, the semantic capability and the shared limits. A result
keeps the fields the SDK decides by; the measured durations and the
creation time of an event are left out.
-/

namespace Congine

/-! ## Exceptions -/

/-- The classes under `CongineBaseException`. -/
inductive CongineError where
  | base | validation | contractNotFound | configuration | sync | cache | telemetry | lifecycle
  | unsupportedRepresentation
  deriving DecidableEq

def CongineError.name : CongineError → String
  | base => "CongineBaseException"
  | validation => "CongineValidationError"
  | contractNotFound => "CongineContractNotFoundError"
  | configuration => "CongineConfigurationError"
  | sync => "CongineSyncError"
  | cache => "CongineCacheError"
  | telemetry => "CongineTelemetryError"
  | lifecycle => "CongineLifecycleError"
  | unsupportedRepresentation => "CongineUnsupportedRepresentationError"

/-- An exception by its class. `other` is a class under `Exception` that
none of the SDK's handlers names, `exit` one outside `Exception`. -/
inductive Exc where
  | typeError | attributeError | keyError
  | valueError | jsonDecodeError | unicodeDecodeError
  | osError (name : String) | timeoutError | loadShedError
  | memoryError | recursionError
  | re2Error
  | httpError (name : String)
  | congine (e : CongineError)
  | other (name : String)
  | exit (name : String)
  deriving DecidableEq

namespace Exc

/-- `type(exc).__name__`. -/
def name : Exc → String
  | typeError => "TypeError"
  | attributeError => "AttributeError"
  | keyError => "KeyError"
  | valueError => "ValueError"
  | jsonDecodeError => "JSONDecodeError"
  | unicodeDecodeError => "UnicodeDecodeError"
  | osError n => n
  | timeoutError => "TimeoutError"
  | loadShedError => "LoadShedError"
  | memoryError => "MemoryError"
  | recursionError => "RecursionError"
  | re2Error => "error"
  | httpError n => n
  | congine e => e.name
  | other n => n
  | exit n => n

/-- `isinstance(exc, Exception)`. -/
def isException : Exc → Bool
  | exit _ => false
  | _ => true

/-- `isinstance(exc, ValueError)`: both decoding errors are value errors. -/
def isValueError : Exc → Bool
  | valueError | jsonDecodeError | unicodeDecodeError => true
  | _ => false

/-- `isinstance(exc, TimeoutError)`: a shed load is a timeout by class. -/
def isTimeoutError : Exc → Bool
  | timeoutError | loadShedError => true
  | _ => false

/-- `isinstance(exc, OSError)`: the built-in `TimeoutError` is one. -/
def isOSError : Exc → Bool
  | osError _ => true
  | e => e.isTimeoutError

/-- `isinstance(exc, CongineBaseException)`. -/
def isCongine : Exc → Bool
  | congine _ => true
  | _ => false

end Exc

/-! ## Limits -/

def maxPatternLength : ℕ := 1000

def maxRegexValueLength : ℕ := 50000

/-! ## What the host supplies -/

/-- What the SDK takes from the interpreter and from google-re2: the
`repr` of a decoded value, whether a pattern compiles, and whether a
compiled pattern matches all of a text. -/
class Host where
  repr : Json → String
  re2Compile : String → Except Exc Unit
  re2Fullmatch : String → String → Bool

/-- A host on which every pattern is literal text. -/
@[reducible] def Host.literal : Host where
  repr
    | .str s => "'" ++ s ++ "'"
    | j => j.typeName
  re2Compile _ := .ok ()
  re2Fullmatch pattern text := pattern = text

/-! ## Policy knobs -/

inductive ContractAdmissionMode where
  | strict | warn
  deriving DecidableEq

inductive FailMode where
  | strict | degrade | silent
  deriving DecidableEq

/-! ## Results -/

inductive DegradedReason where
  | timeout | loadShed | resourceError | internalError | invalidPayload | invalidContract
  | semanticTimeout
  deriving DecidableEq

inductive EvaluationStage where
  | native | semantic
  deriving DecidableEq

inductive Status where
  | pass | fail
  deriving DecidableEq

structure BreachDetail where
  rule : String
  field : String
  message : Option String
  deriving DecidableEq

structure ValidationResult where
  status : Status
  breaches : List BreachDetail := []
  degraded : Bool := false
  degradedReason : Option DegradedReason := none
  evaluationStage : Option EvaluationStage := none
  deriving DecidableEq

namespace ValidationResult

def isPass (r : ValidationResult) : Bool := r.status = .pass

def isEnforced (r : ValidationResult) : Bool := !r.degraded

end ValidationResult

/-- One serialised breach of a telemetry event. -/
structure BreachRecord where
  rule : String
  field : String
  message : String
  deriving DecidableEq

structure TelemetryEvent where
  contractId : String
  contractVersion : String
  status : Status
  breachDetails : List BreachRecord
  degradedReason : Option DegradedReason
  evaluationStage : Option EvaluationStage
  deriving DecidableEq

/-! ## The semantic capability -/

/-- What the wired semantic evaluator can enforce. -/
structure SemanticCapability where
  draft : String
  enforcedKeywords : List String := []
  formatAssertion : Bool := false
  supportedFormats : List String := []
  allowExternalReferences : Bool := false
  booleanExclusiveBounds : Bool := false

namespace SemanticCapability

def enforces (c : SemanticCapability) (keyword : String) : Bool :=
  keyword ∈ c.enforcedKeywords

/-- Draft 6 and later assert a number under a handler of its own; draft 4
asserts a boolean beside the bound it modifies. -/
def enforcesExclusiveBound (c : SemanticCapability) (keyword : String) (value node : Json) :
    Bool :=
  if c.enforces keyword then value.kind ≠ .bool
  else if !c.booleanExclusiveBounds || value.kind ≠ .bool then false
  else
    let sibling := if keyword = "exclusiveMinimum" then "minimum" else "maximum"
    node.has sibling

def enforcesFormat (c : SemanticCapability) (name : String) : Bool :=
  c.formatAssertion && name ∈ c.supportedFormats

end SemanticCapability

/-! ## Redaction

`sanitize_breach_message` substitutes every leftmost match of
`".*?"|'.*?'|\b\d{4,}\b`. A quoted span runs to the first closing quote
of its kind on the same line; a number counts only as a whole word, so
the digits of a match are a maximal run. -/

/-- What follows the quoted span just opened, if it closes on this line. -/
def closeQuote (quote : Char) : List Char → Option (List Char)
  | [] => none
  | c :: cs => if c = quote then some cs else if c = '\n' then none else closeQuote quote cs

theorem length_closeQuote {quote : Char} : ∀ {cs rest : List Char},
    closeQuote quote cs = some rest → rest.length < cs.length
  | c :: cs, rest, h => by
    rw [closeQuote] at h
    split at h
    · rw [← Option.some.inj h]
      simp
    · split at h
      · cases h
      · have := length_closeQuote h
        simp only [List.length_cons]
        omega

def isWordChar (c : Char) : Bool := c.isAlphanum || c = '_'

def redacted : List Char := "'<redacted>'".toList

/-- Substitute from here on; `afterWord` says whether the character just
before is a word character, which is what `\b` looks at. -/
def sanitizeFrom (afterWord : Bool) : List Char → List Char
  | [] => []
  | c :: cs =>
      if c = '"' ∨ c = '\'' then
        match _h : closeQuote c cs with
        | some rest => redacted ++ sanitizeFrom false rest
        | none => c :: sanitizeFrom false cs
      else if c.isDigit ∧ !afterWord ∧ 4 ≤ ((c :: cs).takeWhile Char.isDigit).length ∧
          !(cs.dropWhile Char.isDigit).head?.any isWordChar then
        redacted ++ sanitizeFrom true (cs.dropWhile Char.isDigit)
      else c :: sanitizeFrom (isWordChar c) cs
termination_by cs => cs.length
decreasing_by
  · have := length_closeQuote _h
    simp only [List.length_cons]
    omega
  · simp
  · have := (List.dropWhile_suffix Char.isDigit (l := cs)).length_le
    simp only [List.length_cons]
    omega
  · simp

def sanitizeBreachMessage (message : String) : String :=
  String.ofList (sanitizeFrom false message.toList)

example : sanitizeBreachMessage "'it\"s' is 12345 long, v12345" =
    "'<redacted>' is '<redacted>' long, v12345" := by decide +kernel

end Congine
