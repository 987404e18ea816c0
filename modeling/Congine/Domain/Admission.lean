import Congine.Domain.Reference
import Congine.Domain.Walk
import Congine.Kernel.Models
/-!
# Contract admission

`admitContract` decides whether a schema may become active policy. Every
check is a function from the schema to the issues it reports, in the
order it reports them; the verdict reads the issues and nothing else.
The two reporting caps are parameters, so that the procedure can be
compared with itself without them.
-/

namespace Congine

/-! ## Issues and verdicts -/

inductive ContractAdmissionCode where
  | unknownType | emptyTypeUnion | invalidPattern | ambiguousPropertyPath | unsupportedKeyword
  | invalidStructure | legacyConstruct | unsupportedReference
  deriving DecidableEq

def ContractAdmissionCode.value : ContractAdmissionCode → String
  | unknownType => "unknown_type"
  | emptyTypeUnion => "empty_type_union"
  | invalidPattern => "invalid_pattern"
  | ambiguousPropertyPath => "ambiguous_property_path"
  | unsupportedKeyword => "unsupported_keyword"
  | invalidStructure => "invalid_structure"
  | legacyConstruct => "legacy_construct"
  | unsupportedReference => "unsupported_reference"

inductive ContractAdmissionLevel where
  | error | warning
  deriving DecidableEq

structure ContractAdmissionIssue where
  code : ContractAdmissionCode
  path : String
  message : String
  level : ContractAdmissionLevel := .error
  deriving DecidableEq

structure ContractAdmissionResult where
  admitted : Bool
  issues : List ContractAdmissionIssue := []
  deriving DecidableEq

namespace ContractAdmissionResult

def errors (r : ContractAdmissionResult) : List ContractAdmissionIssue :=
  r.issues.filter (·.level = .error)

def warnings (r : ContractAdmissionResult) : List ContractAdmissionIssue :=
  r.issues.filter (·.level = .warning)

def codes (r : ContractAdmissionResult) : List String :=
  Text.sortedSet (r.issues.map (·.code.value))

end ContractAdmissionResult

def maxIssues : ℕ := 50

/-- The caps on what is reported: findings of the keyword scan, issues of
the whole check. `none` is no cap. -/
structure ReportingCaps where
  reported : Option ℕ
  issues : Option ℕ

/-- The caps the procedure runs with. -/
def ReportingCaps.default : ReportingCaps := ⟨some maxReported, some maxIssues⟩

/-- Both caps removed. -/
def ReportingCaps.off : ReportingCaps := ⟨none, none⟩

variable [Host]

/-! ## Grammar checks -/

/-- `required` and `null_forbidden` must be lists of field names. -/
def checkTopLevelLists (schema : Json) : List ContractAdmissionIssue :=
  ["required", "null_forbidden"].flatMap fun key =>
    match schema.get? key with
    | none | some .null => []
    | some (.arr entries) =>
        entries.filterMap fun entry =>
          match entry with
          | .str _ => none
          | entry => some {
              code := .invalidStructure
              path := rootPath ++ "." ++ key
              message := "'" ++ key ++ "' entries must be field names (strings), got " ++
                entry.typeName }
    | some value => [{
        code := .invalidStructure
        path := rootPath ++ "." ++ key
        message := "'" ++ key ++ "' must be a list of field names, got " ++ value.typeName ++
          (if value.kind = .str then " (a bare string is iterated character-by-character)"
            else "") }]

/-- `type` must be a recognised name, or a nonempty union of them. -/
def checkType (fieldName : String) (declared : Json) : List ContractAdmissionIssue :=
  match declared with
  | .arr [] => [{
      code := .emptyTypeUnion
      path := fieldName ++ ".type"
      message := "Property '" ++ fieldName ++ "' declares an empty type union, which " ++
        "constrains nothing" }]
  | declared =>
      if typeIsEnforceable declared then []
      else
        let known := ", ".intercalate (Text.sortedSet recognisedTypeNames)
        let detail :=
          match declared with
          | .arr members =>
              "union member(s) " ++ Host.repr (.arr (members.filter (!isRecognisedName ·))) ++
                " are not recognised. A union containing an " ++
                "unrecognised name matches every value, so the field would be unchecked"
          | declared => "type " ++ Host.repr declared ++ " is not recognised"
        [{
          code := .unknownType
          path := fieldName ++ ".type"
          message := "Property '" ++ fieldName ++ "': " ++ detail ++ ". Supported types: " ++
            known ++ "." }]

/-- `pattern` must be a string that compiles within the length budget. -/
def checkPattern (fieldName : String) (pattern : Json) : List ContractAdmissionIssue :=
  match pattern with
  | .str pattern =>
      if maxPatternLength < pattern.length then [{
        code := .invalidPattern
        path := fieldName ++ ".pattern"
        message := "Property '" ++ fieldName ++ "': pattern exceeds the safe length budget of " ++
          toString maxPatternLength ++ " characters" }]
      else
        match Host.re2Compile pattern with
        | .ok _ => []
        | .error exc => [{
            code := .invalidPattern
            path := fieldName ++ ".pattern"
            message := "Property '" ++ fieldName ++ "': pattern does not compile (" ++ exc.name ++
              "). Note RE2 supports neither backreferences nor lookaround." }]
  | pattern => [{
      code := .invalidStructure
      path := fieldName ++ ".pattern"
      message := "Property '" ++ fieldName ++ "': 'pattern' must be a string, got " ++
        pattern.typeName }]

/-- `enum` must be a list. -/
def checkEnum (fieldName : String) (allowed : Json) : List ContractAdmissionIssue :=
  match allowed with
  | .arr _ => []
  | allowed => [{
      code := .invalidStructure
      path := fieldName ++ ".enum"
      message := "Property '" ++ fieldName ++ "': 'enum' must be a list of allowed values, got " ++
        allowed.typeName ++
        (if allowed.kind = .str then " (a bare string would be matched by substring)" else "") }]

/-- The four bounds must be numbers, which booleans are not. -/
def checkRange (fieldName : String) (spec : Json) : List ContractAdmissionIssue :=
  ["min", "max", "minimum", "maximum"].flatMap fun key =>
    match spec.get? key with
    | none | some (.int _) | some (.float _) => []
    | some value => [{
        code := .invalidStructure
        path := fieldName ++ "." ++ key
        message := "Property '" ++ fieldName ++ "': '" ++ key ++ "' must be a number, got " ++
          value.typeName }]

/-- Run a check on the value of a key that is present. -/
def checkAt (spec : Json) (key : String) (check : Json → List ContractAdmissionIssue) :
    List ContractAdmissionIssue :=
  (spec.get? key).elim [] check

/-- One entry of `properties`. -/
def checkProperty (fieldName : String) (spec : Json) : List ContractAdmissionIssue :=
  -- The first two faults end the check of the entry; the others add up.
  if '.' ∈ fieldName.toList then [{
    code := .ambiguousPropertyPath
    path := fieldName
    message := "Property key '" ++ fieldName ++ "' contains '.', which is ambiguous between a " ++
      "nested path and a literal key. Per-property rules match flatly, so nested " ++
      "constraints would not be enforced. Use a top-level key, or express nested presence " ++
      "via 'required'." }]
  else if !spec.isObj then [{
    code := .invalidStructure
    path := fieldName
    message := "Property '" ++ fieldName ++ "' must map to an object of constraints, got " ++
      spec.typeName }]
  else
    checkAt spec "type" (checkType fieldName) ++ checkAt spec "pattern" (checkPattern fieldName) ++
      checkAt spec "enum" (checkEnum fieldName) ++ checkRange fieldName spec

/-- `properties` and its entries. -/
def checkProperties (schema : Json) : List ContractAdmissionIssue :=
  match schema.get? "properties" with
  | none | some .null => []
  | some (.obj properties) => properties.flatMap fun (fieldName, spec) =>
      checkProperty fieldName spec
  | some value => [{
      code := .invalidStructure
      path := rootPath ++ ".properties"
      message := "'properties' must be an object/mapping, got " ++ value.typeName }]

/-! ## Coverage -/

/-- Bounds whose enforceability depends on the form of the value. -/
def exclusiveBounds : List String := ["exclusiveMinimum", "exclusiveMaximum"]

/-- A finding the coverage check passes over: the scanner's own marker, a
keyword some other check judges, documentation, or a keyword an active
evaluator executes. The keyword is the last dotted segment of the path. -/
def forgiven (enforcedKeywords : List String) (path : String) : Bool :=
  -- The marker the scanner leaves where it stopped reporting.
  Text.startsWith "..." path ||
    let keyword := Text.afterLast '.' path
    keyword = "type" || keyword ∈ exclusiveBounds || keyword ∈ ignorableMetadataKeywords ||
      keyword ∈ enforcedKeywords

/-- A clause that no active evaluator executes. -/
def checkUnsupportedKeywords (cap : Option ℕ) (schema : Json) (enforcedKeywords : List String) :
    List ContractAdmissionIssue :=
  (findUnenforcedKeywordsUpTo cap schema).filterMap fun path =>
    if forgiven enforcedKeywords path then none
    else some {
      code := .unsupportedKeyword
      path := path
      message := "'" ++ Text.afterLast '.' path ++ "' is not enforced by any active evaluator, " ++
        "so this clause would be silently ignored while appearing enforced. Remove it, or " ++
        "enable an evaluator that enforces it (e.g. CONGINE_SEMANTIC_VALIDATION=true)." }

/-! ## Semantic-safety checks -/

/-- An exclusive bound in a form the dialect does not assert. -/
def checkExclusiveBounds (schema : Json) (capability : SemanticCapability) :
    List ContractAdmissionIssue :=
  (walkSubschemas schema rootPath).flatMap fun (path, node) =>
    exclusiveBounds.flatMap fun keyword =>
      checkAt node keyword fun value =>
        if capability.enforcesExclusiveBound keyword value node then []
        else
          let sibling := if keyword = "exclusiveMinimum" then "minimum" else "maximum"
          let detail :=
            if value.kind = .bool then
              "the boolean form requires a sibling '" ++ sibling ++ "' and a dialect " ++
                "that asserts it (draft 4)"
            else "this dialect expects the draft-4 boolean form alongside '" ++ sibling ++ "'"
          [{
            code := .unsupportedKeyword
            path := path ++ "." ++ keyword
            message := "'" ++ keyword ++ "' is not asserted as written under " ++
              capability.draft ++ ": " ++ detail ++
              ". As written the clause would enforce nothing." }]

/-- The issue at one `$ref`, the first of its faults. -/
def checkReference (schema : Json) (path : String) (ref : Json) :
    List ContractAdmissionIssue :=
  match ref with
  | .null => []
  | .str ref =>
      if !Text.startsWith "#" ref then [{
        code := .unsupportedReference
        path := path ++ ".$ref"
        message := "External reference " ++ Host.repr (.str ref) ++ " is not supported. " ++
          "Resolving it would fetch a remote document, letting content outside this contract " ++
          "determine enforcement. Inline the schema, or move it into '$defs' and reference " ++
          "it locally." }]
      -- A cycle is looked for only where the reference resolves.
      else if (resolvePointer schema ref).isNone then [{
        code := .unsupportedReference
        path := path ++ ".$ref"
        message := "Local reference " ++ Host.repr (.str ref) ++ " does not resolve to anything " ++
          "in this contract, so the clause would fail at evaluation time." }]
      else if referenceCycle schema ref then [{
        code := .unsupportedReference
        path := path ++ ".$ref"
        message := "Reference " ++ Host.repr (.str ref) ++ " is part of a cycle. Recursive " ++
          "schemas are valid JSON Schema but are an unsupported CONGINE contract subset in " ++
          "this release; evaluating one exhausts the stack." }]
      else []
  | ref => [{
      code := .invalidStructure
      path := path ++ ".$ref"
      message := "'$ref' must be a string, got " ++ ref.typeName }]

/-- A reference that does not resolve locally, or whose chain of
references comes back to itself. -/
def checkReferences (schema : Json) : List ContractAdmissionIssue :=
  (walkSubschemas schema rootPath).flatMap fun (path, node) =>
    checkAt node "$ref" (checkReference schema path)

/-- A regex that is not a string, is over-long, or RE2 rejects. -/
def checkRegexValue (path : String) (pattern : Json) : List ContractAdmissionIssue :=
  match pattern with
  | .str pattern =>
      if maxPatternLength < pattern.length then [{
        code := .invalidPattern
        path := path
        message := "pattern exceeds the safe length budget of " ++ toString maxPatternLength ++
          " characters" }]
      else
        match Host.re2Compile pattern with
        | .ok _ => []
        | .error exc => [{
            code := .invalidPattern
            path := path
            message := "pattern does not compile under RE2 (" ++ exc.name ++ "). Semantic " ++
              "evaluation runs on RE2, which supports neither backreferences nor lookaround." }]
  | pattern => [{
      code := .invalidStructure
      path := path
      message := "pattern must be a string, got " ++ pattern.typeName }]

/-- Every regex below the root, and every key of every `patternProperties`. -/
def checkNestedPatterns (schema : Json) : List ContractAdmissionIssue :=
  (walkSubschemas schema rootPath).flatMap fun (path, node) =>
    (checkAt node "pattern" fun pattern =>
      -- A pattern of the root itself is not looked at.
      if pattern.isNull ∨ path = rootPath then []
      else checkRegexValue (path ++ ".pattern") pattern) ++
    checkAt node "patternProperties" fun patternProperties =>
      patternProperties.fields.flatMap fun (key, _) =>
        checkRegexValue (path ++ ".patternProperties[" ++ key ++ "]") (.str key)

/-- A `format` the configured checker does not assert. -/
def checkFormats (schema : Json) (capability : SemanticCapability) :
    List ContractAdmissionIssue :=
  (walkSubschemas schema rootPath).flatMap fun (path, node) =>
    checkAt node "format" fun name =>
      match name with
      | .str name =>
          if capability.enforcesFormat name then []
          else
            let detail :=
              if capability.formatAssertion then
                "format " ++ Host.repr (.str name) ++
                  " has no checker in the configured evaluator"
              else "format assertions are disabled, so this clause enforces nothing"
            [{
              code := .unsupportedKeyword
              path := path ++ ".format"
              message := detail ++ ". Remove it, or enable a checker that asserts it " ++
                "(CONGINE_SEMANTIC_FORMAT_CHECKING=true)." }]
      | _ => []

/-! ## The verdict -/

/-- Migration notes, of `WARN` mode only. -/
def addLegacyAdvisories (schema : Json) : List ContractAdmissionIssue :=
  if schema.has "null_forbidden" then [{
    code := .legacyConstruct
    path := rootPath ++ ".null_forbidden"
    message := "'null_forbidden' is a CONGINE extension, not JSON Schema, so this contract is " ++
      "not portable. It is fully enforced by the rule engine. The portable spelling is a type " ++
      "union: \x7b\"type\": [\"string\", \"null\"]\x7d for nullable, " ++
      "\x7b\"type\": \"string\"\x7d for non-nullable."
    level := .warning }]
  else []

/-- The blocking issues of a schema, in order. -/
def blockingIssues (cap : Option ℕ) (schema : Json) (enforcedKeywords : List String)
    (capability : Option SemanticCapability) : List ContractAdmissionIssue :=
  let effective := capability.getD { draft := "unspecified", enforcedKeywords }
  checkTopLevelLists schema ++ checkProperties schema ++
    checkUnsupportedKeywords cap schema enforcedKeywords ++
    checkExclusiveBounds schema effective ++ checkReferences schema ++
    checkNestedPatterns schema ++
    if capability.isSome then checkFormats schema effective else []

/-- `admit_contract`, under given reporting caps. -/
def admitContractWith (caps : ReportingCaps) (schema : Json) (mode : ContractAdmissionMode)
    (enforcedKeywords : List String) (capability : Option SemanticCapability) :
    ContractAdmissionResult :=
  if !schema.isObj then
    { admitted := false
      issues := [{
        code := .invalidStructure
        path := rootPath
        message := "Contract schema must be an object/mapping, got " ++ schema.typeName }] }
  else
    let issues := blockingIssues caps.reported schema enforcedKeywords capability ++
      if mode = .warn then addLegacyAdvisories schema else []
    let issues := caps.issues.elim issues (issues.take ·)
    { admitted := !issues.any (·.level = .error)
      issues := issues }

def admitContract (schema : Json) (mode : ContractAdmissionMode)
    (enforcedKeywords : List String) (capability : Option SemanticCapability) :
    ContractAdmissionResult :=
  admitContractWith .default schema mode enforcedKeywords capability

end Congine
