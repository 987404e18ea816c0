import Congine.Domain.Admission
/-!
# The JSON Schema validator

The semantic evaluator works for one dialect of JSON Schema, and what it
can enforce is derived from the handlers its library has for the dialect.
Before it evaluates a payload it judges the schema: over-long patterns of
the properties, then the library's check against the metaschema, which is
skipped for a content that has passed it before.

The library is a parameter: the handlers and format checkers of each
dialect, the check of a schema, and the errors it yields for a payload.
A prepared content stands for its digest, and a schema may have none.
-/

namespace Congine

/-! ## Dialects -/

inductive Dialect where
  | draft4 | draft6 | draft7 | draft201909 | draft202012
  deriving DecidableEq

namespace Dialect

/-- `_draft_name`. -/
def name : Dialect → String
  | draft4 => "draft4"
  | draft6 => "draft6"
  | draft7 => "draft7"
  | draft201909 => "draft201909"
  | draft202012 => "draft202012"

/-- `_DRAFT_RANK`. -/
def rank : Dialect → ℕ
  | draft4 => 0
  | draft6 => 1
  | draft7 => 2
  | draft201909 => 3
  | draft202012 => 4

end Dialect

/-- What the library has for each dialect: the keywords with a handler, and
the formats with a checker. -/
structure Drafts where
  validators : Dialect → List String
  checkers : Dialect → List String

/-! ## The capability -/

/-- Keywords asserted inside the handler of another. -/
def composedKeywords : List (String × String) :=
  [("then", "if"), ("else", "if"), ("minContains", "contains"), ("maxContains", "contains")]

/-- `_COMPOSED_MIN_RANK`. -/
def composedMinRank (keyword : String) : Option ℕ :=
  if keyword ∈ ["minContains", "maxContains"] then some 3 else none

def containerKeywords : List String := ["$defs", "definitions"]

/-- `derive_capability`. -/
def deriveCapability (drafts : Drafts) (dialect : Dialect) (formatChecking : Bool) :
    SemanticCapability :=
  let handlers := drafts.validators dialect
  let composed := composedKeywords.filter fun (keyword, parent) =>
    parent ∈ handlers && (composedMinRank keyword).all (· ≤ dialect.rank)
  let enforced := handlers ++ (if "$ref" ∈ handlers then containerKeywords else []) ++
    composed.map Prod.fst
  { draft := dialect.name
    enforcedKeywords := if formatChecking then enforced else enforced.filter (· ≠ "format")
    formatAssertion := formatChecking
    supportedFormats := if formatChecking then drafts.checkers dialect else []
    allowExternalReferences := false
    booleanExclusiveBounds := "minimum" ∈ handlers && "exclusiveMinimum" ∉ handlers }

/-- **What a derived capability enforces**: the handled keywords, the
containers of references and the composed keywords of the dialect. -/
theorem enforces_deriveCapability {drafts : Drafts} {dialect : Dialect} {formatChecking : Bool}
    {keyword : String} :
    (deriveCapability drafts dialect formatChecking).enforces keyword = true ↔
      (keyword ∈ drafts.validators dialect ∨
        ("$ref" ∈ drafts.validators dialect ∧ keyword ∈ containerKeywords) ∨
        ∃ parent, (keyword, parent) ∈ composedKeywords ∧ parent ∈ drafts.validators dialect ∧
          (composedMinRank keyword).all (· ≤ dialect.rank) = true) ∧
        (formatChecking = true ∨ keyword ≠ "format") := by
  have hcontainers : keyword ∈ (if "$ref" ∈ drafts.validators dialect then containerKeywords
      else []) ↔ "$ref" ∈ drafts.validators dialect ∧ keyword ∈ containerKeywords := by
    split_ifs with h
    · simp [h]
    · simp [h]
  have hcomposed : keyword ∈ (composedKeywords.filter fun (keyword, parent) =>
        decide (parent ∈ drafts.validators dialect) &&
          (composedMinRank keyword).all (· ≤ dialect.rank)).map Prod.fst ↔
      ∃ parent, (keyword, parent) ∈ composedKeywords ∧ parent ∈ drafts.validators dialect ∧
        (composedMinRank keyword).all (· ≤ dialect.rank) = true := by
    simp only [List.mem_map, List.mem_filter, Bool.and_eq_true, decide_eq_true_eq, Prod.exists,
      exists_and_right, exists_eq_right]
  rw [SemanticCapability.enforces, deriveCapability, decide_eq_true_iff]
  rcases formatChecking with _ | _
  · simp only [Bool.false_eq_true, if_false, List.mem_filter, List.mem_append, hcontainers,
      hcomposed, decide_eq_true_iff, or_assoc, false_or]
  · simp only [if_true, List.mem_append, hcontainers, hcomposed, or_assoc, true_or, and_true]

/-! ## Evaluating a payload -/

/-- An error `iter_errors` yields. -/
structure SemanticError where
  /-- The path to the fault in the payload, each part printed. -/
  absolutePath : List String
  message : String

/-- What `validate` ends in: a fault of the schema, an evaluation of the
payload, or an exception of the library. -/
inductive SemanticOutcome where
  | policyFault (breaches : List BreachDetail)
  | evaluated (breaches : List BreachDetail)
  | raised (exc : Exc)

/-- What `validate` returns; the caller sees breaches either way. -/
def SemanticOutcome.result : SemanticOutcome → Except Exc (List BreachDetail)
  | .policyFault breaches | .evaluated breaches => .ok breaches
  | .raised exc => .error exc

structure JsonSchemaSemanticValidator where
  /-- `check_schema`, with the message of the `SchemaError` it raises. -/
  checkSchema : Json → Option String
  /-- The errors of a payload under a schema, and what the iteration raises after them. -/
  iterErrors : Json → Json → List SemanticError × Option Exc
  /-- `prepare_identity` gives the content a digest. -/
  identified : Json → Bool
  maxBreaches : ℤ := 100

namespace JsonSchemaSemanticValidator

/-- `_field_path`. -/
def fieldPath (error : SemanticError) : String :=
  if error.absolutePath.isEmpty then rootPath else ".".intercalate error.absolutePath

/-- `_check_schema_patterns`. -/
def checkSchemaPatterns (schema : Json) : List BreachDetail :=
  (propertiesOf schema).filterMap fun (fieldName, spec) =>
    match spec.get? "pattern" with
    | some (.str pattern) =>
        if maxPatternLength < pattern.length then some {
          rule := "SEMANTIC_SCHEMA"
          field := fieldName
          message := some ("Pattern for '" ++ fieldName ++ "' exceeds the safe length budget") }
        else none
    | _ => none

/-- The verdict on a schema that `check_schema` refuses. -/
def schemaBreach (message : String) : BreachDetail where
  rule := "SEMANTIC_SCHEMA"
  field := "<schema>"
  message := some (sanitizeBreachMessage ("Invalid schema: " ++ message))

/-- The loop over the errors, up to the cap on breaches. -/
def evaluate (validator : JsonSchemaSemanticValidator) (payload schema : Json) :
    SemanticOutcome :=
  let (errors, failure) := validator.iterErrors payload schema
  let breaches := (errors.take validator.maxBreaches.toNat).map fun error =>
    { rule := "SEMANTIC_SCHEMA"
      field := fieldPath error
      message := some (sanitizeBreachMessage error.message) : BreachDetail }
  if validator.maxBreaches.toNat < errors.length then .evaluated (breaches ++ [{
    rule := "SEMANTIC_TRUNCATED"
    field := rootPath
    message := some ("Semantic validation truncated after " ++ toString validator.maxBreaches ++
      " breaches") }])
  else
    match failure with
    | some exc => .raised exc
    | none => .evaluated breaches

/-- `validate`, from the contents that have passed the check before to those
that have after it. -/
def validate (validator : JsonSchemaSemanticValidator) (prepared : List Json)
    (payload schema : Json) : SemanticOutcome × List Json :=
  match checkSchemaPatterns schema with
  | breach :: breaches => (.policyFault (breach :: breaches), prepared)
  | [] =>
      if validator.identified schema = true ∧ schema ∈ prepared then
        (validator.evaluate payload schema, prepared)
      else
        match validator.checkSchema schema with
        | some message => (.policyFault [schemaBreach message], prepared)
        | none => (validator.evaluate payload schema,
            if validator.identified schema then schema :: prepared else prepared)

end JsonSchemaSemanticValidator

end Congine
