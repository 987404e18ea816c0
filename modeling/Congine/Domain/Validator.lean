import Congine.Common.Loop
import Congine.Domain.Vocabulary
import Congine.Kernel.Dynamic
/-!
# The native rule engine

Six rules, each from a payload and its own parameter to a list of
breaches, and `LocalValidator`, which takes each rule's parameter from
the schema and gathers what the rules report. The rules read a schema
that admission has not necessarily seen, so each may raise; so may
printing a bound or a type into a message.
-/

namespace Congine

/-! ## Paths and types -/

/-- `_path_present`, from a node and the segments left. -/
def pathPresentFrom : Json → List String → Bool
  | _, [] => true
  | node, segment :: segments =>
      match node.get? segment with
      | some child => pathPresentFrom child segments
      | none => false

/-- A dotted field resolves to a present key. A null value is present. -/
def pathPresent (payload : Json) (dottedField : String) : Bool :=
  pathPresentFrom payload (Text.split '.' dottedField)

/-- `_JSON_TYPE_MAP`: the classes a type name accepts. `bool` is no
number here, whatever the host language thinks. -/
def jsonTypeMap : String → Option (List Json.Kind)
  | "string" => some [.str]
  | "number" => some [.int, .float]
  | "integer" => some [.int]
  | "boolean" => some [.bool]
  | "object" => some [.dict]
  | "array" => some [.list]
  | "null" => some [.noneType]
  | _ => none

mutual

/-- `_type_matches`: a name the engine does not know matches everything,
and so does the empty union. -/
def typeMatches (value : Json) : Json → Bool
  | .arr members => members.isEmpty || typeMatchesAny value members
  | .str jsonType =>
      match jsonTypeMap jsonType with
      | some expected => value.kind ∈ expected
      | none => true
  | _ => true

def typeMatchesAny (value : Json) : List Json → Bool
  | [] => false
  | member :: members => typeMatches value member || typeMatchesAny value members

end

variable [Host]

/-- `_type_label`. -/
def typeLabel : Json → Except Exc String
  | .arr members => (members.mapM pyStr).map ("|".intercalate ·)
  | jsonType => pyStr jsonType

/-! ## The rules -/

namespace RuleEngine

/-- Every required field must be present. -/
def fieldPresence (payload requiredFields : Json) : Except Exc (List BreachDetail) :=
  (pyIter requiredFields).bind fun fieldNames => collect (fun fieldName =>
    match fieldName with
    | .str fieldName =>
        if pathPresent payload fieldName then .ok []
        else .ok [{
          rule := "FIELD_PRESENCE"
          field := fieldName
          message := some ("Required field '" ++ fieldName ++ "' is missing") }]
    -- `dotted_field.split` of anything but a string.
    | _ => .error .attributeError) fieldNames

/-- A rule over a map of fields: each field the payload has is judged by
its value and its constraints. -/
def onPresent (payload fieldMap : Json)
    (judge : String → Json → Json → Except Exc (List BreachDetail)) :
    Except Exc (List BreachDetail) :=
  (pyItems fieldMap).bind fun items => collect (fun (fieldName, spec) =>
    match payload.get? fieldName with
    | some value => judge fieldName spec value
    | none => .ok []) items

/-- Present fields must match their declared type; a null is skipped. -/
def typeMatch (payload schemaProperties : Json) : Except Exc (List BreachDetail) :=
  onPresent payload schemaProperties fun fieldName spec value =>
    let jsonType := if spec.isObj then (spec.get? "type").getD .null else spec
    if !jsonType.truthy then .ok []
    else if value.isNull then .ok []
    else if typeMatches value jsonType then .ok []
    else (typeLabel jsonType).map fun label => [{
      rule := "TYPE_MATCH"
      field := fieldName
      message := some ("Expected type '" ++ label ++ "' for field '" ++ fieldName ++ "'") }]

/-- Present fields must hold an allowed value. -/
def enumValues (payload enumMap : Json) : Except Exc (List BreachDetail) :=
  onPresent payload enumMap fun fieldName spec value =>
    let allowed := if spec.isObj then (spec.get? "enum").getD (.arr []) else spec
    (pyIn value allowed).map fun found =>
      if found then []
      else [{
        rule := "ENUM_VALUES"
        field := fieldName
        message := some ("Value for '" ++ fieldName ++ "' is not an allowed enum value") }]

/-- A number that is not a boolean. -/
def isPlainNumber (value : Json) : Bool := value.kind = .int ∨ value.kind = .float

/-- `spec.get(short, spec.get(long))`, and nothing outside an object. -/
def boundOf (spec : Json) (short long : String) : Json :=
  ((spec.get? short).or (spec.get? long)).getD .null

/-- The range of one field. The upper bound is read only where the lower
one holds. -/
def rangeBreaches (fieldName : String) (spec value : Json) : Except Exc (List BreachDetail) :=
  if !isPlainNumber value then .ok []
  else
    let minimum := boundOf spec "min" "minimum"
    let maximum := boundOf spec "max" "maximum"
    (if minimum.isNull then .ok false else pyLt value minimum).bind fun below =>
      if below then (pyStr minimum).map fun shown => [{
        rule := "RANGE_CHECK"
        field := fieldName
        message := some ("Value for '" ++ fieldName ++ "' is below minimum " ++ shown) }]
      else
        (if maximum.isNull then .ok false else pyLt maximum value).bind fun above =>
          if above then (pyStr maximum).map fun shown => [{
            rule := "RANGE_CHECK"
            field := fieldName
            message := some ("Value for '" ++ fieldName ++ "' is above maximum " ++ shown) }]
          else .ok []

/-- Present numbers must lie in their range. -/
def rangeCheck (payload rangeMap : Json) : Except Exc (List BreachDetail) :=
  onPresent payload rangeMap rangeBreaches

/-- Listed fields must not be null when present. -/
def nullGuard (payload nullForbidden : Json) : Except Exc (List BreachDetail) :=
  (pyIter nullForbidden).bind fun fieldNames => collect (fun fieldName =>
    match fieldName with
    | .str fieldName =>
        match payload.get? fieldName with
        | some .null => .ok [{
            rule := "NULL_GUARD"
            field := fieldName
            message := some ("Field '" ++ fieldName ++ "' must not be null") }]
        | _ => .ok []
    -- No key of a payload but a string, and none at all for what has no hash.
    | fieldName => (pyInDict fieldName payload.fields).map fun _ => []) fieldNames

/-- Match a text against a compiled pattern; only RE2's own error is
caught. -/
def matchPattern (fieldName pattern value : String) : Except Exc (List BreachDetail) :=
  match Host.re2Compile pattern with
  | .ok _ =>
      if Host.re2Fullmatch pattern value then .ok []
      else .ok [{
        rule := "REGEX_PATTERN"
        field := fieldName
        message := some ("Value for '" ++ fieldName ++ "' does not match pattern") }]
  | .error .re2Error => .ok [{
      rule := "REGEX_PATTERN"
      field := fieldName
      message := some ("Invalid regex pattern for '" ++ fieldName ++ "'") }]
  | .error exc => .error exc

/-- The regex of one field, within the length budgets. -/
def regexBreaches (fieldName : String) (spec value : Json) : Except Exc (List BreachDetail) :=
  match value with
  | .str value =>
      let pattern := if spec.isObj then (spec.get? "pattern").getD .null else spec
      if !pattern.truthy then .ok []
      else (pyLen pattern).bind fun length =>
        if maxPatternLength < length then .ok [{
          rule := "REGEX_PATTERN"
          field := fieldName
          message := some ("Pattern for '" ++ fieldName ++ "' exceeds the safe length budget") }]
        else if maxRegexValueLength < value.length then .ok [{
          rule := "REGEX_PATTERN"
          field := fieldName
          message := some ("Value for '" ++ fieldName ++ "' is too long to match safely") }]
        else
          match pattern with
          | .str pattern => matchPattern fieldName pattern value
          -- The cache of compiled patterns hashes its argument.
          | _ => .error .typeError
  | _ => .ok []

/-- Present strings must match their regex. -/
def regexPattern (payload patternMap : Json) : Except Exc (List BreachDetail) :=
  onPresent payload patternMap regexBreaches

end RuleEngine

/-! ## The validator -/

abbrev Rule := Json → Json → Except Exc (List BreachDetail)

namespace LocalValidator

/-- The six built-in rules, in order. -/
def rules : List (String × Rule) :=
  [("FIELD_PRESENCE", RuleEngine.fieldPresence), ("TYPE_MATCH", RuleEngine.typeMatch),
    ("ENUM_VALUES", RuleEngine.enumValues), ("RANGE_CHECK", RuleEngine.rangeCheck),
    ("NULL_GUARD", RuleEngine.nullGuard), ("REGEX_PATTERN", RuleEngine.regexPattern)]

/-- The entries of `properties` that are objects declaring one of the keys. -/
def declaring (properties : Json) (keys : List String) : Except Exc Json :=
  (pyItems properties).map fun items =>
    .obj (items.filter fun (_, p) => p.isObj && keys.any p.has)

/-- `_extract_params`: what a rule is given of the schema. -/
def extractParams (ruleName : String) (schema : Json) : Except Exc Json :=
  (pyGet schema "properties").bind fun found =>
    let properties := found.getD (.obj [])
    if ruleName = "FIELD_PRESENCE" then .ok ((schema.get? "required").getD (.arr []))
    else if ruleName = "TYPE_MATCH" then .ok properties
    else if ruleName = "ENUM_VALUES" then declaring properties ["enum"]
    else if ruleName = "RANGE_CHECK" then
      declaring properties ["min", "max", "minimum", "maximum"]
    else if ruleName = "NULL_GUARD" then .ok ((schema.get? "null_forbidden").getD (.arr []))
    else if ruleName = "REGEX_PATTERN" then declaring properties ["pattern"]
    else .ok (.obj [])

/-- One rule on one schema. -/
def runRule (payload schema : Json) (rule : String × Rule) : Except Exc (List BreachDetail) :=
  (extractParams rule.1 schema).bind fun params => rule.2 payload params

/-- `LocalValidator.validate`. -/
def validate (payload schema : Json) : Except Exc ValidationResult :=
  if !payload.isObj then .ok {
    status := .fail
    breaches := [{
      rule := "TYPE_MATCH"
      field := rootPath
      message := some "Payload must be an object/dict" }] }
  else
    (collect (runRule payload schema) rules).map fun breaches =>
      { status := if breaches.isEmpty then .pass else .fail
        breaches := breaches }

end LocalValidator

end Congine
