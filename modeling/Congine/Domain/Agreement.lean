import Congine.Domain.AdmissionVerdict
import Congine.Domain.Validator
/-!
# The native verdict and the declared contract

What a natively admitted contract declares of a payload, clause by
clause, and what the six rules make of it. The rules read one bound of
each direction and skip an empty pattern, so some clauses are shadowed by
others; the verdict agrees with the declaration wherever the shadowed
clauses follow from the rest.
-/

namespace Congine

/-! ## What a contract declares -/

/-- A value has the type of a name. -/
def HasNamedType (value : Json) (name : String) : Prop :=
  ∃ kinds, jsonTypeMap name = some kinds ∧ value.kind ∈ kinds

/-- A value has a declared type, a name or one of a union's names. -/
def HasType (value : Json) : Json → Prop
  | .str name => HasNamedType value name
  | .arr members => ∃ name, .str name ∈ members ∧ HasNamedType value name
  | _ => False

/-- A number is at least a bound; anything else is. -/
def AtLeast (value bound : Json) : Prop :=
  RuleEngine.isPlainNumber value = true →
    ∀ x y, value.number? = some x → bound.number? = some y → y ≤ x

/-- A number is at most a bound; anything else is. -/
def AtMost (value bound : Json) : Prop :=
  RuleEngine.isPlainNumber value = true →
    ∀ x y, value.number? = some x → bound.number? = some y → x ≤ y

/-- Every declared clause counts. -/
def Declared (_spec : Json) (_key : String) : Prop := True

/-- The clauses the rules read: `min` and `max` take the place of the long
spellings, and an empty pattern is taken for none. -/
def InEffect (spec : Json) (key : String) : Prop :=
  if key = "minimum" then spec.get? "min" = none
  else if key = "maximum" then spec.get? "max" = none
  else if key = "pattern" then spec.get? "pattern" ≠ some (.str "")
  else True

@[simp] theorem inEffect_minimum {spec : Json} :
    InEffect spec "minimum" ↔ spec.get? "min" = none := by simp [InEffect]

@[simp] theorem inEffect_maximum {spec : Json} :
    InEffect spec "maximum" ↔ spec.get? "max" = none := by simp [InEffect]

@[simp] theorem inEffect_pattern {spec : Json} :
    InEffect spec "pattern" ↔ spec.get? "pattern" ≠ some (.str "") := by simp [InEffect]

section Host

variable [Host]

/-- A string is short enough to match and matches all of a pattern. -/
def FullMatch (value : Json) (pattern : String) : Prop :=
  ∀ s, value = .str s → s.length ≤ maxRegexValueLength ∧ Host.re2Fullmatch pattern s = true

/-- A value satisfies each clause of a property that counts, on its own. -/
structure PropertyMeets (counts : String → Prop) (spec value : Json) : Prop where
  type : ∀ declared, spec.get? "type" = some declared → value.isNull ∨ HasType value declared
  enum : ∀ members, spec.get? "enum" = some (.arr members) → ∃ m ∈ members, value.eq m = true
  pattern : counts "pattern" → ∀ p, spec.get? "pattern" = some (.str p) → FullMatch value p
  min : ∀ b, spec.get? "min" = some b → AtLeast value b
  minimum : counts "minimum" → ∀ b, spec.get? "minimum" = some b → AtLeast value b
  max : ∀ b, spec.get? "max" = some b → AtMost value b
  maximum : counts "maximum" → ∀ b, spec.get? "maximum" = some b → AtMost value b

/-- A payload satisfies the clauses of a schema that count. -/
structure Meets (counts : Json → String → Prop) (schema payload : Json) : Prop where
  required : ∀ entries, schema.get? "required" = some (.arr entries) → ∀ name,
    .str name ∈ entries → (payload.at? ((Text.split '.' name).map .key)).isSome
  nullForbidden : ∀ entries, schema.get? "null_forbidden" = some (.arr entries) → ∀ name,
    .str name ∈ entries → payload.get? name ≠ some .null
  property : ∀ name spec value, (name, spec) ∈ propertiesOf schema →
    payload.get? name = some value → PropertyMeets (counts spec) spec value

/-- A value satisfies the clauses of a property that are not in effect. -/
structure ShadowedMeets (spec value : Json) : Prop where
  pattern : spec.get? "pattern" = some (.str "") → FullMatch value ""
  minimum : spec.has "min" = true → ∀ b, spec.get? "minimum" = some b → AtLeast value b
  maximum : spec.has "max" = true → ∀ b, spec.get? "maximum" = some b → AtMost value b

theorem propertyMeets_declared_iff {spec value : Json} :
    PropertyMeets (Declared spec) spec value ↔
      PropertyMeets (InEffect spec) spec value ∧ ShadowedMeets spec value := by
  constructor
  · intro h
    exact ⟨⟨h.type, h.enum, fun _ => h.pattern trivial, h.min, fun _ => h.minimum trivial, h.max,
        fun _ => h.maximum trivial⟩,
      ⟨h.pattern trivial "", fun _ => h.minimum trivial, fun _ => h.maximum trivial⟩⟩
  · rintro ⟨h, hs⟩
    refine ⟨h.type, h.enum, fun _ p hp => ?_, h.min, fun _ b hb => ?_, h.max, fun _ b hb => ?_⟩
    · by_cases hempty : p = ""
      · subst hempty
        exact hs.pattern hp
      · refine h.pattern (inEffect_pattern.mpr fun heq => hempty ?_) p hp
        exact Json.str.inj (Option.some.inj (hp.symm.trans heq))
    · cases hmin : spec.get? "min" with
      | none => exact h.minimum (inEffect_minimum.mpr hmin) b hb
      | some c => exact hs.minimum (by simp [Json.has, hmin]) b hb
    · cases hmax : spec.get? "max" with
      | none => exact h.maximum (inEffect_maximum.mpr hmax) b hb
      | some c => exact hs.maximum (by simp [Json.has, hmax]) b hb

/-- What is declared is what is in effect and what is shadowed. -/
theorem meets_declared_iff {schema payload : Json} :
    Meets Declared schema payload ↔ Meets InEffect schema payload ∧
      ∀ name spec value, (name, spec) ∈ propertiesOf schema → payload.get? name = some value →
        ShadowedMeets spec value := by
  constructor
  · intro h
    exact ⟨⟨h.required, h.nullForbidden, fun n s v hn hv =>
        (propertyMeets_declared_iff.mp (h.property n s v hn hv)).1⟩,
      fun n s v hn hv => (propertyMeets_declared_iff.mp (h.property n s v hn hv)).2⟩
  · rintro ⟨h, hs⟩
    exact ⟨h.required, h.nullForbidden, fun n s v hn hv =>
      propertyMeets_declared_iff.mpr ⟨h.property n s v hn hv, hs n s v hn hv⟩⟩

end Host

/-! ## The parameters of the rules -/

/-- What each rule is given of a schema whose `properties` is an object. -/
theorem extractParams_eq {schema : Json} (hobj : schema.isObj = true)
    (hprops : ∀ value, schema.get? "properties" = some value → value.isObj = true)
    (ruleName : String) :
    LocalValidator.extractParams ruleName schema =
      if ruleName = "FIELD_PRESENCE" then .ok ((schema.get? "required").getD (.arr []))
      else if ruleName = "TYPE_MATCH" then .ok (.obj (propertiesOf schema))
      else if ruleName = "ENUM_VALUES" then
        LocalValidator.declaring (.obj (propertiesOf schema)) ["enum"]
      else if ruleName = "RANGE_CHECK" then
        LocalValidator.declaring (.obj (propertiesOf schema)) ["min", "max", "minimum", "maximum"]
      else if ruleName = "NULL_GUARD" then .ok ((schema.get? "null_forbidden").getD (.arr []))
      else if ruleName = "REGEX_PATTERN" then
        LocalValidator.declaring (.obj (propertiesOf schema)) ["pattern"]
      else .ok (.obj []) := by
  have hget : pyGet schema "properties" = .ok (schema.get? "properties") := by
    rw [Json.eq_obj_of_isObj hobj]
    rfl
  have hmap : (schema.get? "properties").getD (.obj []) = .obj (propertiesOf schema) := by
    rw [propertiesOf]
    cases hp : schema.get? "properties" with
    | none => rfl
    | some value => exact Json.eq_obj_of_isObj (hprops value hp)
  rw [LocalValidator.extractParams, hget, Except.bind, hmap]

/-- The names a list clause holds; an absent clause holds none. -/
theorem exists_names {schema : Json} {key : String}
    (h : ∀ value, schema.get? key = some value →
      ∃ names : List String, value = .arr (names.map .str)) :
    ∃ names : List String, (schema.get? key).getD (.arr []) = .arr (names.map .str) ∧
      ∀ name, name ∈ names ↔
        ∃ entries, schema.get? key = some (.arr entries) ∧ .str name ∈ entries := by
  cases hv : schema.get? key with
  | none => exact ⟨[], rfl, by simp⟩
  | some value =>
    obtain ⟨names, rfl⟩ := h value hv
    refine ⟨names, rfl, fun name => ?_⟩
    simp [eq_comm]

/-! ## Paths and types -/

theorem pathPresentFrom_iff {node : Json} {segments : List String} :
    pathPresentFrom node segments = true ↔ (node.at? (segments.map .key)).isSome := by
  induction segments generalizing node with
  | nil => simp [pathPresentFrom]
  | cons segment segments ih =>
    have hchild : node.child? (.key segment) = node.get? segment := by
      cases node <;> simp [Json.child?, Json.get?, Json.fields]
    rw [pathPresentFrom, List.map_cons, Json.at?, hchild]
    cases node.get? segment with
    | none => simp
    | some child => simpa using ih

/-- The names the vocabulary recognises are the keys of the type table. -/
theorem jsonTypeMap_isSome {name : String} (h : name ∈ recognisedTypeNames) :
    (jsonTypeMap name).isSome := by
  revert name
  decide

/-- On a recognised name the type rule is the type relation. -/
theorem typeMatches_str_iff {value : Json} {name : String} (h : name ∈ recognisedTypeNames) :
    typeMatches value (.str name) = true ↔ HasNamedType value name := by
  obtain ⟨kinds, hkinds⟩ := Option.isSome_iff_exists.mp (jsonTypeMap_isSome h)
  simp [typeMatches, HasNamedType, hkinds]

theorem typeMatchesAny_iff {value : Json} {members : List Json} :
    typeMatchesAny value members = true ↔ ∃ m ∈ members, typeMatches value m = true := by
  induction members with
  | nil => simp [typeMatchesAny]
  | cons m ms ih => simp [typeMatchesAny, ih]

/-- **On an enforceable declaration the type rule is the type relation.** -/
theorem typeMatches_iff {value declared : Json} (h : typeIsEnforceable declared = true) :
    typeMatches value declared = true ↔ HasType value declared := by
  cases declared with
  | str name =>
    exact typeMatches_str_iff (by simpa [typeIsEnforceable, isRecognisedName] using h)
  | arr members =>
    simp only [typeIsEnforceable, Bool.and_eq_true, Bool.not_eq_true', List.all_eq_true] at h
    obtain ⟨hne, hall⟩ := h
    -- Every member of a union is a name, so the nested unions do not arise.
    rw [typeMatches, hne, Bool.false_or, typeMatchesAny_iff, HasType]
    constructor
    · rintro ⟨m, hm, hmatch⟩
      have hrec := hall m hm
      cases m with
      | str name =>
        exact ⟨name, hm, (typeMatches_str_iff (by simpa [isRecognisedName] using hrec)).mp hmatch⟩
      | _ => cases hrec
    · rintro ⟨name, hm, htype⟩
      exact ⟨_, hm, (typeMatches_str_iff (by simpa [isRecognisedName] using hall _ hm)).mpr htype⟩
  | _ => cases h

/-- An enforceable declaration is never taken for an absent one. -/
theorem truthy_of_typeIsEnforceable {declared : Json} (h : typeIsEnforceable declared = true) :
    declared.truthy = true := by
  cases declared with
  | str name =>
    have hne : ("" : String) ∉ recognisedTypeNames := by decide
    simp only [typeIsEnforceable, isRecognisedName, decide_eq_true_eq] at h
    simp only [Json.truthy, ne_eq, decide_not, Bool.not_eq_true', decide_eq_false_iff_not]
    rintro rfl
    exact hne h
  | arr members =>
    simp only [typeIsEnforceable, Bool.and_eq_true] at h
    exact h.1
  | _ => cases h

/-! ## The rules, on admitted parameters -/

/-- A rule that reports is not silent, whether or not its message prints. -/
theorem map_singleton_ne_nil {ε α β : Type} (x : Except ε α) (report : α → β) :
    x.map (fun a => [report a]) ≠ .ok [] := by
  rcases x with e | a
  · exact fun h => nomatch h
  · exact fun h => nomatch h

theorem fieldPresence_eq_nil {payload : Json} {names : List String} :
    RuleEngine.fieldPresence payload (.arr (names.map .str)) = .ok [] ↔
      ∀ name ∈ names, (payload.at? ((Text.split '.' name).map .key)).isSome := by
  unfold RuleEngine.fieldPresence
  simp only [pyIter, Except.bind, collect_eq_ok_nil, List.forall_mem_map, ← pathPresentFrom_iff,
    pathPresent]
  refine forall_congr' fun name => forall_congr' fun _ => ?_
  by_cases hp : pathPresentFrom payload (Text.split '.' name) = true <;> simp [hp]

theorem nullGuard_eq_nil {payload : Json} {names : List String} :
    RuleEngine.nullGuard payload (.arr (names.map .str)) = .ok [] ↔
      ∀ name ∈ names, payload.get? name ≠ some .null := by
  unfold RuleEngine.nullGuard
  simp only [pyIter, Except.bind, collect_eq_ok_nil, List.forall_mem_map]
  refine forall_congr' fun name => forall_congr' fun _ => ?_
  split <;> simp_all

/-- A rule over a map of fields is silent where each present field is. -/
theorem onPresent_eq_nil {payload : Json} {items : List (String × Json)}
    {judge : String → Json → Json → Except Exc (List BreachDetail)} :
    RuleEngine.onPresent payload (.obj items) judge = .ok [] ↔
      ∀ name spec value, (name, spec) ∈ items → payload.get? name = some value →
        judge name spec value = .ok [] := by
  unfold RuleEngine.onPresent
  simp only [pyItems, Except.bind, collect_eq_ok_nil, Prod.forall]
  refine forall_congr' fun name => forall_congr' fun spec => ?_
  cases payload.get? name <;> simp

/-- The fields a rule is given: those whose constraints name a key it reads. -/
theorem declaring_obj {items : List (String × Json)} {keys : List String} :
    LocalValidator.declaring (.obj items) keys =
      .ok (.obj (items.filter fun (_, p) => p.isObj && keys.any p.has)) := rfl

/-- A rule that is given the fields declaring one of its keys judges just
those. -/
theorem onDeclaring_eq_nil {payload : Json} {items : List (String × Json)} {keys : List String}
    {judge : String → Json → Json → Except Exc (List BreachDetail)}
    (h : ∀ name spec, (name, spec) ∈ items → spec.isObj = true) :
    RuleEngine.onPresent payload
        (.obj (items.filter fun (_, p) => p.isObj && keys.any p.has)) judge = .ok [] ↔
      ∀ name spec value, (name, spec) ∈ items → payload.get? name = some value →
        (∃ key ∈ keys, spec.has key = true) → judge name spec value = .ok [] := by
  rw [onPresent_eq_nil]
  refine forall_congr' fun name => forall_congr' fun spec => forall_congr' fun value => ?_
  simp only [List.mem_filter, Bool.and_eq_true, List.any_eq_true]
  constructor
  · exact fun hall hmem hget hkey => hall ⟨hmem, h name spec hmem, hkey⟩ hget
  · exact fun hall hmem hget => hall hmem.1 hget hmem.2.2

/-- A number admitted as a bound has a value. -/
theorem exists_number_of_kind {j : Json} (h : j.kind = .int ∨ j.kind = .float) :
    ∃ x, j.number? = some x := by
  cases j <;> simp_all [Json.kind, Json.number?]

theorem exists_number_of_isPlainNumber {value : Json}
    (h : RuleEngine.isPlainNumber value = true) : ∃ x, value.number? = some x :=
  exists_number_of_kind (by simpa [RuleEngine.isPlainNumber] using h)

/-- The comparison with a lower bound that may be missing. -/
theorem below_iff {value : Json} (hv : RuleEngine.isPlainNumber value = true)
    {bound : Option Json} (hb : ∀ b, bound = some b → b.kind = .int ∨ b.kind = .float) :
    ∃ below, (if (bound.getD .null).isNull then .ok false
        else pyLt value (bound.getD .null)) = Except.ok below ∧
      (below = false ↔ ∀ b, bound = some b → AtLeast value b) := by
  obtain ⟨x, hx⟩ := exists_number_of_isPlainNumber hv
  cases bound with
  | none => exact ⟨false, by simp [Json.isNull], by simp⟩
  | some b =>
    obtain ⟨y, hy⟩ := exists_number_of_kind (hb b rfl)
    have hnull : b.isNull = false := by cases b <;> simp_all [Json.isNull, Json.kind]
    refine ⟨decide (x < y), by simp [hnull, pyLt, hx, hy], ?_⟩
    simp [AtLeast, hv, hx, hy]

/-- The comparison with an upper bound that may be missing. -/
theorem above_iff {value : Json} (hv : RuleEngine.isPlainNumber value = true)
    {bound : Option Json} (hb : ∀ b, bound = some b → b.kind = .int ∨ b.kind = .float) :
    ∃ above, (if (bound.getD .null).isNull then .ok false
        else pyLt (bound.getD .null) value) = Except.ok above ∧
      (above = false ↔ ∀ b, bound = some b → AtMost value b) := by
  obtain ⟨x, hx⟩ := exists_number_of_isPlainNumber hv
  cases bound with
  | none => exact ⟨false, by simp [Json.isNull], by simp⟩
  | some b =>
    obtain ⟨y, hy⟩ := exists_number_of_kind (hb b rfl)
    have hnull : b.isNull = false := by cases b <;> simp_all [Json.isNull, Json.kind]
    refine ⟨decide (y < x), by simp [hnull, pyLt, hx, hy], ?_⟩
    simp [AtMost, hv, hx, hy]

/-- The bounds of a direction that the range rule reads. -/
theorem effective_bound_iff {spec : Json} {short long : String} {P : Json → Prop} :
    (∀ b, (spec.get? short).or (spec.get? long) = some b → P b) ↔
      (∀ b, spec.get? short = some b → P b) ∧
        (spec.get? short = none → ∀ b, spec.get? long = some b → P b) := by
  cases spec.get? short <;> simp

section Host

variable [Host]

theorem typeMatch_eq_nil {payload : Json} {items : List (String × Json)}
    (h : ∀ name spec, (name, spec) ∈ items → PropertyAdmissible name spec) :
    RuleEngine.typeMatch payload (.obj items) = .ok [] ↔
      ∀ name spec value, (name, spec) ∈ items → payload.get? name = some value →
        ∀ declared, spec.get? "type" = some declared → value.isNull ∨ HasType value declared := by
  unfold RuleEngine.typeMatch
  rw [onPresent_eq_nil]
  refine forall_congr' fun name => forall_congr' fun spec => forall_congr' fun value =>
    forall_congr' fun hmem => forall_congr' fun _ => ?_
  have hadm := h name spec hmem
  simp only [hadm.isObj, if_true]
  cases htype : spec.get? "type" with
  | none => simp [Json.truthy]
  | some declared =>
    have henf := hadm.type declared htype
    simp only [Option.getD_some, truthy_of_typeIsEnforceable henf, Option.some.injEq,
      forall_eq', ← typeMatches_iff henf]
    cases value.isNull <;> simp [map_singleton_ne_nil]

theorem enumValues_eq_nil {payload : Json} {items : List (String × Json)}
    (h : ∀ name spec, (name, spec) ∈ items → PropertyAdmissible name spec) :
    RuleEngine.enumValues payload
        (.obj (items.filter fun (_, p) => p.isObj && ["enum"].any p.has)) = .ok [] ↔
      ∀ name spec value, (name, spec) ∈ items → payload.get? name = some value →
        ∀ members, spec.get? "enum" = some (.arr members) → ∃ m ∈ members, value.eq m = true := by
  unfold RuleEngine.enumValues
  rw [onDeclaring_eq_nil fun name spec hmem => (h name spec hmem).isObj]
  refine forall_congr' fun name => forall_congr' fun spec => forall_congr' fun value =>
    forall_congr' fun hmem => forall_congr' fun _ => ?_
  have hadm := h name spec hmem
  simp only [hadm.isObj, if_true, List.mem_singleton, exists_eq_left, Json.has]
  cases henum : spec.get? "enum" with
  | none => simp
  | some allowed =>
    have hkind := hadm.enum allowed henum
    cases allowed with
    | arr members =>
      simp only [Option.isSome_some, forall_const, Option.getD_some, pyIn, Except.map,
        Option.some.injEq, Json.arr.injEq, forall_eq', ← List.any_eq_true]
      cases members.any fun y => value.eq y <;> simp
    | _ => cases hkind

/-- The bounds of each direction, whichever spelling is read, are numbers. -/
theorem effective_kind {name : String} {spec : Json} (h : PropertyAdmissible name spec)
    {short long : String} (hs : short ∈ ["min", "max", "minimum", "maximum"])
    (hl : long ∈ ["min", "max", "minimum", "maximum"]) :
    ∀ b, (spec.get? short).or (spec.get? long) = some b → b.kind = .int ∨ b.kind = .float := by
  intro b hb
  rcases Option.or_eq_some_iff.mp hb with hb | ⟨-, hb⟩
  · exact h.range short hs b hb
  · exact h.range long hl b hb

/-- The range rule on one number: it reads one bound of each direction and
reports the first that is broken. -/
theorem rangeBreaches_spec {name : String} {spec value : Json} (h : PropertyAdmissible name spec)
    (hv : RuleEngine.isPlainNumber value = true) :
    ∃ below above : Bool,
      (below = false ↔ ∀ b, (spec.get? "min").or (spec.get? "minimum") = some b →
        AtLeast value b) ∧
      (above = false ↔ ∀ b, (spec.get? "max").or (spec.get? "maximum") = some b →
        AtMost value b) ∧
      RuleEngine.rangeBreaches name spec value =
        if below then (pyStr (RuleEngine.boundOf spec "min" "minimum")).map fun shown => [{
          rule := "RANGE_CHECK"
          field := name
          message := some ("Value for '" ++ name ++ "' is below minimum " ++ shown) }]
        else if above then (pyStr (RuleEngine.boundOf spec "max" "maximum")).map fun shown => [{
          rule := "RANGE_CHECK"
          field := name
          message := some ("Value for '" ++ name ++ "' is above maximum " ++ shown) }]
        else .ok [] := by
  obtain ⟨below, hbelow, hlow⟩ := below_iff hv (effective_kind h (by simp) (by simp) :
    ∀ b, (spec.get? "min").or (spec.get? "minimum") = some b → _)
  obtain ⟨above, habove, hup⟩ := above_iff hv (effective_kind h (by simp) (by simp) :
    ∀ b, (spec.get? "max").or (spec.get? "maximum") = some b → _)
  rw [← RuleEngine.boundOf] at hbelow habove
  refine ⟨below, above, hlow, hup, ?_⟩
  simp only [RuleEngine.rangeBreaches, hv, Bool.not_true, Bool.false_eq_true, if_false, hbelow,
    habove, Except.bind]

theorem rangeBreaches_eq_nil {name : String} {spec value : Json}
    (h : PropertyAdmissible name spec) :
    RuleEngine.rangeBreaches name spec value = .ok [] ↔
      (∀ b, (spec.get? "min").or (spec.get? "minimum") = some b → AtLeast value b) ∧
        ∀ b, (spec.get? "max").or (spec.get? "maximum") = some b → AtMost value b := by
  by_cases hv : RuleEngine.isPlainNumber value = true
  · obtain ⟨below, above, hlow, hup, heq⟩ := rangeBreaches_spec h hv
    rw [heq, ← hlow, ← hup]
    rcases below with _ | _
    · rcases above with _ | _
      · simp
      · simp [map_singleton_ne_nil]
    · simp [map_singleton_ne_nil]
  · simp [RuleEngine.rangeBreaches, hv, AtLeast, AtMost]

theorem rangeCheck_eq_nil {payload : Json} {items : List (String × Json)}
    (h : ∀ name spec, (name, spec) ∈ items → PropertyAdmissible name spec) :
    RuleEngine.rangeCheck payload (.obj (items.filter fun (_, p) => p.isObj &&
        ["min", "max", "minimum", "maximum"].any p.has)) = .ok [] ↔
      ∀ name spec value, (name, spec) ∈ items → payload.get? name = some value →
        (∀ b, (spec.get? "min").or (spec.get? "minimum") = some b → AtLeast value b) ∧
        ∀ b, (spec.get? "max").or (spec.get? "maximum") = some b → AtMost value b := by
  unfold RuleEngine.rangeCheck
  rw [onDeclaring_eq_nil fun name spec hmem => (h name spec hmem).isObj]
  refine forall_congr' fun name => forall_congr' fun spec => forall_congr' fun value =>
    forall_congr' fun hmem => forall_congr' fun _ => ?_
  rw [rangeBreaches_eq_nil (h name spec hmem)]
  -- A field that names none of the four keys has no bound to satisfy.
  constructor
  · intro hall
    by_cases hkey : ∃ key ∈ ["min", "max", "minimum", "maximum"], spec.has key = true
    · exact hall hkey
    · simp only [Json.has, List.mem_cons, List.not_mem_nil, or_false, exists_eq_or_imp,
        exists_eq_left, not_or, Bool.not_eq_true, Option.isSome_eq_false_iff,
        Option.isNone_iff_eq_none] at hkey
      obtain ⟨h₁, h₂, h₃, h₄⟩ := hkey
      simp [h₁, h₂, h₃, h₄]
  · exact fun hall _ => hall

/-- The regex rule on one value, under an admitted pattern. -/
theorem regexBreaches_eq_nil {name pattern : String} {spec value : Json} (hobj : spec.isObj = true)
    (hpat : spec.get? "pattern" = some (.str pattern)) (hlen : pattern.length ≤ maxPatternLength)
    (hcomp : Host.re2Compile pattern = .ok ()) :
    RuleEngine.regexBreaches name spec value = .ok [] ↔
      (pattern ≠ "" → FullMatch value pattern) := by
  unfold RuleEngine.regexBreaches FullMatch
  cases value with
  | str s =>
    -- The rule takes an empty pattern for no pattern at all.
    by_cases hempty : pattern = ""
    · simp [hobj, hpat, hempty, Json.truthy]
    · have hcap : ¬ maxPatternLength < pattern.length := not_lt.mpr hlen
      simp only [hobj, if_true, hpat, Option.getD_some, Json.truthy, ne_eq, hempty,
        not_false_eq_true, decide_true, Bool.not_true, Bool.false_eq_true, if_false, pyLen,
        Except.bind, hcap, Json.str.injEq, forall_eq', forall_const]
      split
      · next h => simp [not_le.mpr h]
      · next h =>
        rw [RuleEngine.matchPattern, hcomp]
        simp only [not_lt.mp h, true_and]
        split <;> simp_all
  | _ => simp

theorem regexPattern_eq_nil {payload : Json} {items : List (String × Json)}
    (h : ∀ name spec, (name, spec) ∈ items → PropertyAdmissible name spec) :
    RuleEngine.regexPattern payload
        (.obj (items.filter fun (_, p) => p.isObj && ["pattern"].any p.has)) = .ok [] ↔
      ∀ name spec value, (name, spec) ∈ items → payload.get? name = some value →
        ∀ p, spec.get? "pattern" = some (.str p) → p ≠ "" → FullMatch value p := by
  unfold RuleEngine.regexPattern
  rw [onDeclaring_eq_nil fun name spec hmem => (h name spec hmem).isObj]
  refine forall_congr' fun name => forall_congr' fun spec => forall_congr' fun value =>
    forall_congr' fun hmem => forall_congr' fun _ => ?_
  have hadm := h name spec hmem
  simp only [List.mem_singleton, exists_eq_left, Json.has]
  cases hpat : spec.get? "pattern" with
  | none => simp
  | some declared =>
    -- Admission has made it text that compiles, so the rule cannot raise.
    obtain ⟨pattern, rfl, hlen, hcomp⟩ := hadm.pattern declared hpat
    rw [regexBreaches_eq_nil hadm.isObj hpat hlen hcomp]
    simp

/-! ## The verdict -/

/-- A payload passes where each rule is silent. -/
theorem validate_pass_iff_rules {schema payload : Json} (hpayload : payload.isObj = true) :
    (∃ r, LocalValidator.validate payload schema = .ok r ∧ r.isPass = true) ↔
      ∀ rule ∈ LocalValidator.rules, LocalValidator.runRule payload schema rule = .ok [] := by
  rw [← collect_eq_ok_nil, LocalValidator.validate]
  simp only [hpayload, Bool.not_true, Bool.false_eq_true, if_false]
  cases collect (LocalValidator.runRule payload schema) LocalValidator.rules with
  | error e => simp [Except.map]
  | ok breaches => cases breaches <;> simp [Except.map, ValidationResult.isPass]

/-- What the six rules lean on in a schema: its lists hold names, its
properties are admissible. -/
structure RulesAdmissible (schema : Json) : Prop where
  isObj : schema.isObj = true
  lists : ∀ key ∈ ["required", "null_forbidden"], ∀ value, schema.get? key = some value →
    ∃ names : List String, value = .arr (names.map .str)
  properties : ∀ value, schema.get? "properties" = some value → value.isObj = true
  property : ∀ fieldName spec, (fieldName, spec) ∈ propertiesOf schema →
    PropertyAdmissible fieldName spec

/-- Admission settles all of it but that the clauses are not null. -/
theorem RulesAdmissible.of_grammar {schema : Json} {enforcedKeywords : List String}
    {capability : Option SemanticCapability}
    (h : GrammarAdmissible schema enforcedKeywords capability)
    (hlists : ∀ key ∈ ["required", "null_forbidden"], ∀ value, schema.get? key = some value →
      value.kind = .list)
    (hprops : ∀ value, schema.get? "properties" = some value → value.isObj = true) :
    RulesAdmissible schema := by
  refine ⟨h.isObj, fun key hkey value hvalue => ?_, hprops, h.property⟩
  rcases h.lists key hkey value hvalue with hnull | hnames
  · have hkind := hlists key hkey value hvalue
    rw [Json.isNull_iff.mp hnull] at hkind
    cases hkind
  · exact hnames

/-- **A payload passes exactly where it satisfies every clause the rules
read.** -/
theorem RulesAdmissible.pass_iff {schema payload : Json} (h : RulesAdmissible schema)
    (hpayload : payload.isObj = true) :
    (∃ r, LocalValidator.validate payload schema = .ok r ∧ r.isPass = true) ↔
      Meets InEffect schema payload := by
  have hprops := h.properties
  obtain ⟨required, hreq, hreqmem⟩ := exists_names (h.lists "required" (by simp))
  obtain ⟨nullForbidden, hnull, hnullmem⟩ := exists_names (h.lists "null_forbidden" (by simp))
  rw [validate_pass_iff_rules hpayload]
  simp only [LocalValidator.rules, List.forall_mem_cons, List.not_mem_nil, false_imp_iff,
    implies_true, and_true, LocalValidator.runRule, extractParams_eq h.isObj hprops,
    String.reduceEq, if_true, if_false, declaring_obj, Except.bind, hreq, hnull,
    fieldPresence_eq_nil, nullGuard_eq_nil, typeMatch_eq_nil h.property,
    enumValues_eq_nil h.property, rangeCheck_eq_nil h.property, regexPattern_eq_nil h.property]
  constructor
  · rintro ⟨hr, ht, he, hb, hn, hp⟩
    refine ⟨fun entries hent name hmem => hr name ((hreqmem name).mpr ⟨entries, hent, hmem⟩),
      fun entries hent name hmem => hn name ((hnullmem name).mpr ⟨entries, hent, hmem⟩),
      fun name spec value hmem hget => ?_⟩
    obtain ⟨hlow, hup⟩ := hb name spec value hmem hget
    obtain ⟨hmin, hminimum⟩ := effective_bound_iff.mp hlow
    obtain ⟨hmax, hmaximum⟩ := effective_bound_iff.mp hup
    exact ⟨ht name spec value hmem hget, he name spec value hmem hget,
      fun hcounts p hpat => hp name spec value hmem hget p hpat
        (fun hempty => inEffect_pattern.mp hcounts (hempty ▸ hpat)),
      hmin, fun hcounts => hminimum (inEffect_minimum.mp hcounts), hmax,
      fun hcounts => hmaximum (inEffect_maximum.mp hcounts)⟩
  · intro hm
    refine ⟨fun name hname => ?_, fun name spec value hmem hget =>
      (hm.property name spec value hmem hget).type, fun name spec value hmem hget =>
      (hm.property name spec value hmem hget).enum, fun name spec value hmem hget => ?_,
      fun name hname => ?_, fun name spec value hmem hget p hpat hne => ?_⟩
    · obtain ⟨entries, hent, hmem⟩ := (hreqmem name).mp hname
      exact hm.required entries hent name hmem
    · have hprop := hm.property name spec value hmem hget
      exact ⟨effective_bound_iff.mpr ⟨hprop.min, fun hnone =>
          hprop.minimum (inEffect_minimum.mpr hnone)⟩,
        effective_bound_iff.mpr ⟨hprop.max, fun hnone =>
          hprop.maximum (inEffect_maximum.mpr hnone)⟩⟩
    · obtain ⟨entries, hent, hmem⟩ := (hnullmem name).mp hname
      exact hm.nullForbidden entries hent name hmem
    · refine (hm.property name spec value hmem hget).pattern (inEffect_pattern.mpr ?_) p hpat
      intro hempty
      exact hne (Json.str.inj (Option.some.inj (hpat.symm.trans hempty)))

/-- **The native verdict is what is in effect**: on an admitted schema
with its clauses in the declared shapes, a payload passes exactly where it
satisfies every clause the rules read. -/
theorem validate_pass_iff {schema payload : Json} {enforcedKeywords : List String}
    {capability : Option SemanticCapability}
    (h : GrammarAdmissible schema enforcedKeywords capability)
    (hlists : ∀ key ∈ ["required", "null_forbidden"], ∀ value, schema.get? key = some value →
      value.kind = .list)
    (hprops : ∀ value, schema.get? "properties" = some value → value.isObj = true)
    (hpayload : payload.isObj = true) :
    (∃ r, LocalValidator.validate payload schema = .ok r ∧ r.isPass = true) ↔
      Meets InEffect schema payload :=
  (RulesAdmissible.of_grammar h hlists hprops).pass_iff hpayload

/-- **When the native verdict is the declared one**: exactly on the
payloads for which the clauses in effect imply the shadowed ones. -/
theorem validate_agrees_iff {schema payload : Json} (mode : ContractAdmissionMode)
    (h : (admitContract schema mode nativeEnforcedKeywords none).admitted = true)
    (hlists : ∀ key ∈ ["required", "null_forbidden"], ∀ value, schema.get? key = some value →
      value.kind = .list)
    (hprops : ∀ value, schema.get? "properties" = some value → value.isObj = true)
    (hpayload : payload.isObj = true) :
    ((∃ r, LocalValidator.validate payload schema = .ok r ∧ r.isPass = true) ↔
        Meets Declared schema payload) ↔
      (Meets InEffect schema payload → ∀ name spec value, (name, spec) ∈ propertiesOf schema →
        payload.get? name = some value → ShadowedMeets spec value) := by
  rw [validate_pass_iff (admissible_of_admitted h).toGrammarAdmissible hlists hprops hpayload,
    meets_declared_iff]
  exact ⟨fun hiff hm => (hiff.mp hm).2, fun himp => ⟨fun hm => ⟨hm, himp hm⟩, And.left⟩⟩

end Host

/-- Both spellings of a lower bound, the long one the stricter. -/
def shadowedMinimum : Json :=
  .obj [("properties", .obj [("n", .obj [("min", .int 0), ("minimum", .int 5)])])]

theorem validate_agrees_shadowedMinimum_six :
    (∃ r, @LocalValidator.validate Host.literal (.obj [("n", .int 6)]) shadowedMinimum = .ok r ∧
      r.isPass = true) ↔
      @Meets Host.literal Declared shadowedMinimum (.obj [("n", .int 6)]) := by
  let _ := Host.literal
  refine (validate_agrees_iff .strict (by decide +kernel) (by decide) (by decide) rfl).mpr ?_
  intro _ name spec value hmem hget
  obtain ⟨rfl, rfl⟩ := Prod.mk.inj (List.mem_singleton.mp hmem)
  obtain rfl : Json.int 6 = value := Option.some.inj hget
  refine ⟨fun hpat => ?_, fun _ b hb => ?_, fun _ b hb => ?_⟩
  · cases show none = some _ from hpat
  · obtain rfl : Json.int 5 = b := Option.some.inj hb
    exact fun _ x y hx hy => by
      obtain rfl := Option.some.inj hx
      obtain rfl := Option.some.inj hy
      decide
  · cases show none = some b from hb

theorem validate_passes_below_minimum :
    (@admitContract Host.literal shadowedMinimum .strict nativeEnforcedKeywords none).admitted =
      true ∧
    @LocalValidator.validate Host.literal (.obj [("n", .int 3)]) shadowedMinimum =
      .ok { status := .pass } ∧
    ¬ @Meets Host.literal Declared shadowedMinimum (.obj [("n", .int 3)]) := by
  refine ⟨by decide +kernel, by decide +kernel, fun h => ?_⟩
  let _ := Host.literal
  have := (h.property "n" (.obj [("min", .int 0), ("minimum", .int 5)]) (.int 3)
    List.mem_cons_self rfl).minimum trivial (.int 5) rfl rfl 3 5 rfl rfl
  exact absurd this (by decide)

end Congine
