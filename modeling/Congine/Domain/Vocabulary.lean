import Congine.Common.Json
import Congine.Common.Text
/-!
# The native schema vocabulary

What the native rule engine reads of a schema, and the scanner that
lists the `field.keyword` paths it does not. The scanner looks at two
levels only, the root and the entries of `properties`, and names a
clause by one dotted string. Its list is sorted, freed of duplicates and
capped.
-/

namespace Congine

def enforcedTopLevelKeywords : List String := ["properties", "required", "null_forbidden"]

def enforcedPropertyKeywords : List String :=
  ["type", "enum", "min", "max", "minimum", "maximum", "pattern"]

def ignorableMetadataKeywords : List String :=
  ["description", "title", "default", "examples", "$comment", "deprecated", "readOnly",
    "writeOnly", "$schema", "$id"]

def recognisedTypeNames : List String :=
  ["string", "number", "integer", "boolean", "object", "array", "null"]

def nativeEnforcedKeywords : List String :=
  enforcedTopLevelKeywords ++ enforcedPropertyKeywords

def semanticEnforcedKeywords : List String :=
  ["minLength", "maxLength", "exclusiveMinimum", "exclusiveMaximum", "multipleOf", "items",
    "prefixItems", "minItems", "maxItems", "uniqueItems", "contains", "minContains",
    "maxContains", "additionalProperties", "minProperties", "maxProperties",
    "patternProperties", "propertyNames", "dependentRequired", "dependentSchemas", "allOf",
    "anyOf", "oneOf", "not", "if", "then", "else", "const", "$ref", "$defs", "definitions"]

/-- The path segment of the schema itself. -/
def rootPath : String := "<root>"

def maxReported : ℕ := 20

/-! ## Type declarations -/

/-- A string naming a type the rule engine knows. -/
def isRecognisedName : Json → Bool
  | .str s => s ∈ recognisedTypeNames
  | _ => false

/-- A `type` the rule engine can honour: a recognised name, or a nonempty
union of them. -/
def typeIsEnforceable : Json → Bool
  | .arr members => !members.isEmpty && members.all isRecognisedName
  | declared => isRecognisedName declared

/-! ## The scanner -/

/-- The finding at one key of the schema root. -/
def rootFinding (key : String) (value : Json) : Option String :=
  if key ∈ enforcedTopLevelKeywords ∨ key ∈ ignorableMetadataKeywords then none
  else if key = "type" then
    -- A payload that is no object is refused anyway, so "object" is honoured.
    if value.eq (.str "object") then none else some (rootPath ++ ".type")
  else some (rootPath ++ "." ++ key)

/-- The finding at one key of a property's constraints. -/
def propertyFinding (fieldName key : String) (value : Json) : Option String :=
  if key ∈ ignorableMetadataKeywords then none
  else if key = "type" then
    if typeIsEnforceable value then none else some (fieldName ++ ".type")
  else if key ∈ enforcedPropertyKeywords then none
  else some (fieldName ++ "." ++ key)

/-- The members of `properties`, where that is an object. -/
def propertiesOf (schema : Json) : List (String × Json) :=
  ((schema.get? "properties").getD .null).fields

/-- Everything the scanner finds, in the order it meets it. -/
def findings (schema : Json) : List String :=
  (schema.fields.filterMap fun (key, value) => rootFinding key value) ++
    (propertiesOf schema).flatMap fun (fieldName, spec) =>
      spec.fields.filterMap fun (key, value) => propertyFinding fieldName key value

/-- The last entry of a capped list. -/
def truncationMarker (extra : ℕ) : String := "... (+" ++ toString extra ++ " more)"

/-- What is reported of a sorted list under a cap: the first entries and
a marker that counts the rest. Without a cap, all of it. -/
def capReported : Option ℕ → List String → List String
  | some cap, unique =>
      if cap < unique.length then unique.take cap ++ [truncationMarker (unique.length - cap)]
      else unique
  | none, unique => unique

/-- `find_unenforced_keywords`, with its cap a parameter. -/
def findUnenforcedKeywordsUpTo (cap : Option ℕ) (schema : Json) : List String :=
  capReported cap (Text.sortedSet (findings schema))

def findUnenforcedKeywords (schema : Json) : List String :=
  findUnenforcedKeywordsUpTo (some maxReported) schema

example : findUnenforcedKeywords (.obj [("type", .str "array"), ("properties",
    .obj [("age", .obj [("type", .str "integer"), ("minLength", .int 3)])])]) =
    ["<root>.type", "age.minLength"] := by decide

/-! ## What a finding comes from -/

theorem mem_findings {schema : Json} {path : String} :
    path ∈ findings schema ↔
      (∃ key value, (key, value) ∈ schema.fields ∧ rootFinding key value = some path) ∨
      ∃ fieldName spec key value, (fieldName, spec) ∈ propertiesOf schema ∧
        (key, value) ∈ spec.fields ∧ propertyFinding fieldName key value = some path := by
  simp only [findings, List.mem_append, List.mem_filterMap, List.mem_flatMap, Prod.exists,
    exists_and_left]

/-- **No finding, no unread key**: the scanner is silent exactly where the
rule engine reads every key of both levels. -/
theorem findings_eq_nil {schema : Json} :
    findings schema = [] ↔
      (∀ key value, (key, value) ∈ schema.fields → rootFinding key value = none) ∧
      ∀ fieldName spec key value, (fieldName, spec) ∈ propertiesOf schema →
        (key, value) ∈ spec.fields → propertyFinding fieldName key value = none := by
  simp only [findings, List.append_eq_nil_iff, List.filterMap_eq_nil_iff, Prod.forall,
    List.flatMap_eq_nil_iff]
  constructor
  · rintro ⟨hroot, hprops⟩
    exact ⟨hroot, fun f s k v hf hk => hprops f s hf k v hk⟩
  · rintro ⟨hroot, hprops⟩
    exact ⟨hroot, fun f s hf k v hk => hprops f s k v hf hk⟩

/-! ## What the cap keeps -/

theorem startsWith_truncationMarker (extra : ℕ) :
    Text.startsWith "..." (truncationMarker extra) = true := by
  have hdots : "... (+" = "..." ++ " (+" := by decide
  rw [truncationMarker, hdots, String.append_assoc, String.append_assoc]
  exact Text.startsWith_append _ _

/-- Under a positive cap a nonempty list is not reported empty: its first
entry survives. -/
theorem exists_mem_capReported {cap : ℕ} (hcap : 0 < cap) {unique : List String}
    (h : unique ≠ []) : ∃ path ∈ unique, path ∈ capReported (some cap) unique := by
  obtain ⟨path, rest, rfl⟩ := List.exists_cons_of_ne_nil h
  obtain ⟨n, rfl⟩ : ∃ n, cap = n + 1 := ⟨cap - 1, by omega⟩
  refine ⟨path, List.mem_cons_self, ?_⟩
  rw [capReported]
  split <;> simp

/-- **What is reported, the marker apart, is what stands before the cap.** -/
theorem mem_capReported {cap : ℕ} {unique : List String} {path : String}
    (hm : Text.startsWith "..." path = false) :
    path ∈ capReported (some cap) unique ↔ path ∈ unique.take cap := by
  rw [capReported]
  split
  · have hne : path ≠ truncationMarker (unique.length - cap) := by
      rintro rfl
      rw [startsWith_truncationMarker] at hm
      exact absurd hm (by decide)
    simp [hne]
  · rw [List.take_of_length_le (by omega)]

end Congine
