import Congine.Common.Discreet
import Congine.Domain.Validator
/-!
# What the native verdict tells of a payload

The native rules never put a value of the payload into what they report:
over one schema each of them is discreet, and so is the validator. What is
reported names a field of the schema and says which of its clauses the
payload breaks, so a schema has finitely many verdicts.
-/

namespace Congine

namespace RuleEngine

theorem discreet_fieldPresence (requiredFields : Json) :
    Discreet fun payload => fieldPresence payload requiredFields := by
  refine .bind fun fieldNames => .collect fieldNames fun fieldName _ => ?_
  cases fieldName with
  | str fieldName =>
    refine .oneOf [{
      rule := "FIELD_PRESENCE"
      field := fieldName
      message := some ("Required field '" ++ fieldName ++ "' is missing") }] fun payload ys h => ?_
    simp only at h
    split_ifs at h
    · exact .inl (Except.ok.inj h).symm
    · exact .inr ⟨_, List.mem_singleton_self _, (Except.ok.inj h).symm⟩
  | _ => exact .blind _

/-- A rule over a map of fields tells what its judge tells of each. -/
theorem discreet_onPresent (fieldMap : Json)
    {judge : String → Json → Json → Except Exc (List BreachDetail)}
    (h : ∀ fieldName spec, Discreet (judge fieldName spec)) :
    Discreet fun payload => onPresent payload fieldMap judge := by
  refine .bind fun items => .collect items fun item _ => ?_
  refine (h item.1 item.2).of_or fun payload ys hys => ?_
  simp only at hys
  split at hys
  · next value _ => exact .inr ⟨value, hys⟩
  · exact .inl (Except.ok.inj hys).symm

theorem discreet_enumValues (enumMap : Json) :
    Discreet fun payload => enumValues payload enumMap := by
  refine discreet_onPresent enumMap fun fieldName spec => .map [{
    rule := "ENUM_VALUES"
    field := fieldName
    message := some ("Value for '" ++ fieldName ++ "' is not an allowed enum value") }]
    fun found => ?_
  cases found with
  | true => exact .inl rfl
  | false => exact .inr ⟨_, List.mem_singleton_self _, rfl⟩

theorem discreet_nullGuard (nullForbidden : Json) :
    Discreet fun payload => nullGuard payload nullForbidden := by
  refine .bind fun fieldNames => .collect fieldNames fun fieldName _ => ?_
  have hunheld : ∀ fieldName : Json, Discreet fun payload : Json =>
      (pyInDict fieldName payload.fields).map fun _ => ([] : List BreachDetail) :=
    fun fieldName => .map [] fun _ => .inl rfl
  cases fieldName with
  | str fieldName =>
    refine .oneOf [{
      rule := "NULL_GUARD"
      field := fieldName
      message := some ("Field '" ++ fieldName ++ "' must not be null") }] fun payload ys h => ?_
    simp only at h
    split at h
    · exact .inr ⟨_, List.mem_singleton_self _, (Except.ok.inj h).symm⟩
    · exact .inl (Except.ok.inj h).symm
  | _ => exact hunheld _

variable [Host]

/-- The label is that of the declared type, not of the value. -/
theorem discreet_typeMatch (schemaProperties : Json) :
    Discreet fun payload => typeMatch payload schemaProperties := by
  refine discreet_onPresent schemaProperties fun fieldName spec => ?_
  generalize (if spec.isObj then (spec.get? "type").getD .null else spec) = jsonType
  let labelled : Unit → Except Exc (List BreachDetail) := fun _ =>
    (typeLabel jsonType).map fun label => [{
      rule := "TYPE_MATCH"
      field := fieldName
      message := some ("Expected type '" ++ label ++ "' for field '" ++ fieldName ++ "'") }]
  have hlabelled : Discreet labelled := .blind _
  refine hlabelled.of_or fun value ys h => ?_
  simp only at h
  split_ifs at h
  · exact .inl (Except.ok.inj h).symm
  · exact .inl (Except.ok.inj h).symm
  · exact .inl (Except.ok.inj h).symm
  · exact .inr ⟨(), h⟩

/-- The bounds shown are those of the schema. -/
theorem discreet_rangeBreaches (fieldName : String) (spec : Json) :
    Discreet (rangeBreaches fieldName spec) := by
  let beyond (bound : Json) (words : String) : Unit → Except Exc (List BreachDetail) := fun _ =>
    (pyStr bound).map fun shown => [{
      rule := "RANGE_CHECK"
      field := fieldName
      message := some ("Value for '" ++ fieldName ++ words ++ shown) }]
  let below := beyond (boundOf spec "min" "minimum") "' is below minimum "
  let above := beyond (boundOf spec "max" "maximum") "' is above maximum "
  have hbelow : Discreet below := .blind _
  have habove : Discreet above := .blind _
  have hfar : Discreet fun outside : Bool => if outside then above () else .ok [] := by
    refine habove.of_or fun outside ys h => ?_
    cases outside with
    | true => exact .inr ⟨(), h⟩
    | false => exact .inl (Except.ok.inj h).symm
  refine hbelow.either hfar fun value ys h => ?_
  by_cases hnumber : isPlainNumber value
  · simp only [rangeBreaches, hnumber, Bool.not_true, Bool.false_eq_true, if_false] at h
    generalize (if (boundOf spec "min" "minimum").isNull then Except.ok false
      else pyLt value (boundOf spec "min" "minimum")) = low at h
    rcases low with exc | (_ | _)
    · cases h
    · generalize (if (boundOf spec "max" "maximum").isNull then Except.ok false
        else pyLt (boundOf spec "max" "maximum") value) = high at h
      rcases high with exc | outside
      · cases h
      · exact .inr ⟨outside, h⟩
    · exact .inl ⟨(), h⟩
  · simp only [rangeBreaches, hnumber, Bool.not_false, if_true] at h
    exact .inr ⟨false, h⟩

theorem matchPattern_cases (fieldName pattern value : String) {ys : List BreachDetail}
    (h : matchPattern fieldName pattern value = .ok ys) : ys = [] ∨ ys = [{
        rule := "REGEX_PATTERN"
        field := fieldName
        message := some ("Value for '" ++ fieldName ++ "' does not match pattern") }] ∨ ys = [{
        rule := "REGEX_PATTERN"
        field := fieldName
        message := some ("Invalid regex pattern for '" ++ fieldName ++ "'") }] := by
  unfold matchPattern at h
  split at h
  · split_ifs at h
    · exact .inl (Except.ok.inj h).symm
    · exact .inr (.inl (Except.ok.inj h).symm)
  · exact .inr (.inr (Except.ok.inj h).symm)
  · cases h

/-- What a text is found wanting by is told, not the text. -/
theorem discreet_regexBreaches (fieldName : String) (spec : Json) :
    Discreet (regexBreaches fieldName spec) := by
  let breach (message : String) : BreachDetail := {
    rule := "REGEX_PATTERN"
    field := fieldName
    message := some message }
  refine .oneOf [breach ("Pattern for '" ++ fieldName ++ "' exceeds the safe length budget"),
    breach ("Value for '" ++ fieldName ++ "' is too long to match safely"),
    breach ("Value for '" ++ fieldName ++ "' does not match pattern"),
    breach ("Invalid regex pattern for '" ++ fieldName ++ "'")] fun value ys h => ?_
  cases value with
  | str value =>
    simp only [regexBreaches] at h
    generalize (if spec.isObj then (spec.get? "pattern").getD .null else spec) = pattern at h
    split at h
    · exact .inl (Except.ok.inj h).symm
    · generalize pyLen pattern = length at h
      rcases length with exc | length
      · cases h
      · simp only [Except.bind] at h
        split_ifs at h
        · exact .inr ⟨_, by simp [breach], (Except.ok.inj h).symm⟩
        · exact .inr ⟨_, by simp [breach], (Except.ok.inj h).symm⟩
        · split at h
          · rcases matchPattern_cases _ _ _ h with rfl | rfl | rfl
            · exact .inl rfl
            · exact .inr ⟨_, by simp [breach], rfl⟩
            · exact .inr ⟨_, by simp [breach], rfl⟩
          · cases h
  | _ => exact .inl (Except.ok.inj h).symm

end RuleEngine

/-! ## The validator -/

namespace LocalValidator

variable [Host]

theorem discreet_rule {rule : String × Rule} (hmem : rule ∈ rules) (params : Json) :
    Discreet fun payload => rule.2 payload params := by
  simp only [rules, List.mem_cons, List.not_mem_nil, or_false] at hmem
  rcases hmem with rfl | rfl | rfl | rfl | rfl | rfl
  · exact RuleEngine.discreet_fieldPresence params
  · exact RuleEngine.discreet_typeMatch params
  · exact RuleEngine.discreet_enumValues params
  · exact RuleEngine.discreet_onPresent params RuleEngine.discreet_rangeBreaches
  · exact RuleEngine.discreet_nullGuard params
  · exact RuleEngine.discreet_onPresent params RuleEngine.discreet_regexBreaches

/-- **The native verdict tells only of the schema's clauses.** -/
theorem discreet_validate (schema : Json) :
    Discreet fun payload => (validate payload schema).map (·.breaches) := by
  have hrules : Discreet fun payload => collect (runRule payload schema) rules :=
    .collect rules fun rule hmem => .bind fun params => discreet_rule hmem params
  have hroot : Discreet fun _ : Json => (.ok [{
      rule := "TYPE_MATCH"
      field := rootPath
      message := some "Payload must be an object/dict" }] : Except Exc (List BreachDetail)) :=
    .blind _
  refine hroot.either hrules fun payload ys h => ?_
  unfold validate at h
  split_ifs at h
  · exact .inl ⟨payload, h⟩
  · refine .inr ⟨payload, ?_⟩
    generalize collect (runRule payload schema) rules = found at h
    rcases found with exc | found
    · cases h
    · exact h

end LocalValidator

end Congine
