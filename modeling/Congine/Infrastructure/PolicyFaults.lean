import Congine.Common.Runs
import Congine.Domain.AdmissionVerdict
import Congine.Infrastructure.DialectContext
import Mathlib.Data.Rat.Defs
/-!
# Faults of the policy

The evaluator answers every payload with a breach when the schema itself
is at fault: a pattern over the length budget, or a schema its metaschema
refuses. Admission excludes the first. Of the second it judges a few
values on the nodes it looks at, and a pattern by RE2, where the check of
the metaschema asserts the format `regex` with Python's `re`. So an admitted
schema is at fault exactly where the metaschema refuses something else, or
the format of a text.

A metaschema is what it asks of the values and of the nodes of a schema,
which formats of texts its check asserts, and where it finds the schemas
inside one. That its values are judged as documented, and that the library's
check is the metaschema's, are taken as given.
-/

namespace Congine

/-! ## Metaschemas -/

/-- What a dialect asks of a schema. -/
structure Metaschema where
  /-- The value of a keyword is of its form. -/
  valueOk : String → Json → Bool
  /-- A text under a keyword is of its format, as far as that is asserted:
  a pattern is one that Python's `re` compiles. -/
  formatOk : String → String → Bool
  /-- A node is a schema, and its keywords are in order with one another. -/
  nodeOk : Json → Bool
  /-- The schemas right below a node. -/
  sites : Json → List (Position × Json)

namespace Metaschema

/-- A schema inside a schema. -/
inductive Below (m : Metaschema) (root : Json) : Position → Json → Prop
  | root : Below m root [] root
  | site {p steps : Position} {node child : Json} (h : Below m root p node)
      (hs : (steps, child) ∈ m.sites node) : Below m root (p ++ steps) child

/-- The metaschema takes a schema. -/
def Accepts (m : Metaschema) (schema : Json) : Prop :=
  ∀ p node, m.Below schema p node →
    m.nodeOk node = true ∧ ∀ key value, node.get? key = some value → m.valueOk key value = true

/-- Keywords whose value is a length or a count. -/
def countKeywords : List String :=
  ["minLength", "maxLength", "minItems", "maxItems", "minProperties", "maxProperties"]

/-- Keywords whose value is a text of a format. -/
def formatKeywords : List String := ["pattern", "$ref"]

/-- What every supported dialect's metaschema asks of the values concerned. -/
structure Documented (m : Metaschema) : Prop where
  number : ∀ key ∈ ["minimum", "maximum"], ∀ value,
    m.valueOk key value = true ↔ value.kind = .int ∨ value.kind = .float
  text : ∀ key ∈ formatKeywords, ∀ s, m.valueOk key (.str s) = m.formatOk key s
  count : ∀ key ∈ countKeywords, ∀ value, m.valueOk key value = true →
    ∃ n : ℕ, value.number? = some n

end Metaschema

/-! ## What admission has judged -/

/-- A value that admission asks to be of the type the metaschema wants. -/
inductive Judged (schema : Json) (p : Position) (node : Json) : String → Json → Prop
  /-- The bounds and the pattern of a property. -/
  | property {name key : String} {value : Json} (hp : p = [.key "properties", .key name])
      (hmem : (name, node) ∈ propertiesOf schema) (hk : key ∈ ["minimum", "maximum", "pattern"]) :
      Judged schema p node key value
  | reference {value : Json} (hvisited : Visited schema p node) (hnull : value ≠ .null) :
      Judged schema p node "$ref" value
  /-- Patterns below the root. -/
  | nested {value : Json} (hvisited : Visited schema p node) (hp : p ≠ []) (hnull : value ≠ .null) :
      Judged schema p node "pattern" value

/-- The metaschema takes everything in the schema that admission has not
judged: the values, and the formats of the texts it has. -/
structure TakesUnjudged (m : Metaschema) (schema : Json) : Prop where
  node : ∀ p node, m.Below schema p node → m.nodeOk node = true
  value : ∀ p node, m.Below schema p node → ∀ key value, node.get? key = some value →
    ¬ Judged schema p node key value → m.valueOk key value = true
  format : ∀ p node, m.Below schema p node → ∀ key ∈ Metaschema.formatKeywords, ∀ s,
    node.get? key = some (.str s) → m.formatOk key s = true

section Host

variable [Host]

/-- **What admission has judged, the metaschema takes**, if a text is of its
format. -/
theorem valueOk_of_judged {m : Metaschema} (hm : m.Documented) {schema : Json}
    {enforcedKeywords : List String} {capability : Option SemanticCapability}
    (h : GrammarAdmissible schema enforcedKeywords capability) {p : Position} {node : Json}
    {key : String} {value : Json} (hget : node.get? key = some value)
    (hformat : ∀ s, key ∈ Metaschema.formatKeywords → value = .str s → m.formatOk key s = true)
    (hjudged : Judged schema p node key value) : m.valueOk key value = true := by
  have hregex : ∀ {pattern : Json}, value = pattern → key = "pattern" → RegexAdmissible pattern →
      m.valueOk "pattern" pattern = true := by
    rintro _ rfl rfl ⟨s, rfl, -⟩
    exact (hm.text "pattern" (by decide) s).trans (hformat s (by decide) rfl)
  -- Each way to be judged has its check, which the metaschema is no stricter than.
  rcases hjudged with ⟨-, hmem, hk⟩ | ⟨hvisited, hnull⟩ | ⟨hvisited, hp, hnull⟩
  · have hproperty := h.property _ node hmem
    simp only [List.mem_cons, List.not_mem_nil, or_false] at hk
    rcases hk with rfl | rfl | rfl
    · exact (hm.number "minimum" (by decide) value).mpr
        (hproperty.range "minimum" (by decide) value hget)
    · exact (hm.number "maximum" (by decide) value).mpr
        (hproperty.range "maximum" (by decide) value hget)
    · exact hregex rfl rfl (hproperty.pattern value hget)
  · rcases h.references p node hvisited value hget with hnone | ⟨s, rfl, -⟩
    · exact absurd (Json.isNull_iff.mp hnone) hnull
    · exact (hm.text "$ref" (by decide) s).trans (hformat s (by decide) rfl)
  · rcases (h.patterns p node hvisited).1 value hget with hnone | hroot | hadmissible
    · exact absurd (Json.isNull_iff.mp hnone) hnull
    · exact absurd hroot hp
    · exact hregex rfl rfl hadmissible

omit [Host] in
theorem Metaschema.Accepts.takesUnjudged {m : Metaschema} (hm : m.Documented) {schema : Json}
    (h : m.Accepts schema) : TakesUnjudged m schema where
  node p node hbelow := (h p node hbelow).1
  value p node hbelow key value hget _ := (h p node hbelow).2 key value hget
  format p node hbelow key hkey s hget :=
    (hm.text key hkey s).symm.trans ((h p node hbelow).2 key _ hget)

theorem accepts_iff_takesUnjudged {m : Metaschema} (hm : m.Documented) {schema : Json}
    {enforcedKeywords : List String} {capability : Option SemanticCapability}
    (h : GrammarAdmissible schema enforcedKeywords capability) :
    m.Accepts schema ↔ TakesUnjudged m schema := by
  refine ⟨Metaschema.Accepts.takesUnjudged hm, fun htakes p node hbelow => ?_⟩
  refine ⟨htakes.node p node hbelow, fun key value hget => ?_⟩
  by_cases hjudged : Judged schema p node key value
  · refine valueOk_of_judged hm h hget (fun s hkey hs => ?_) hjudged
    exact htakes.format p node hbelow key hkey s (by rw [hget, hs])
  · exact htakes.value p node hbelow key value hget hjudged

/-- The patterns of the properties are within the budget the evaluator checks. -/
theorem checkSchemaPatterns_eq_nil {schema : Json} {enforcedKeywords : List String}
    {capability : Option SemanticCapability}
    (h : GrammarAdmissible schema enforcedKeywords capability) :
    JsonSchemaSemanticValidator.checkSchemaPatterns schema = [] := by
  refine List.filterMap_eq_nil_iff.mpr fun (name, spec) hmem => ?_
  rcases hpattern : spec.get? "pattern" with _ | pattern
  · simp only [hpattern]
  · obtain ⟨s, rfl, hlength, -⟩ := (h.property name spec hmem).pattern pattern hpattern
    simp only [hpattern]
    rw [if_neg (not_lt.mpr hlength)]

end Host

/-! ## Evaluations -/

/-- What happens to the contents that have passed the check. -/
inductive PreparationEvent where
  | validate (payload schema : Json)
  /-- The cache of prepared contents is bounded. -/
  | evict (schema : Json)

namespace JsonSchemaSemanticValidator

def step (validator : JsonSchemaSemanticValidator) : PreparationEvent → List Json → List Json
  | .validate payload schema, prepared => (validator.validate prepared payload schema).2
  | .evict schema, prepared => prepared.erase schema

/-- Only contents that pass the check are prepared. -/
def Sound (validator : JsonSchemaSemanticValidator) (prepared : List Json) : Prop :=
  ∀ schema ∈ prepared, validator.checkSchema schema = none

/-- What a call does, case by case: it faults the policy, or it evaluates
the payload under a schema that has passed the check. -/
theorem validate_cases (validator : JsonSchemaSemanticValidator) {prepared : List Json}
    (hsound : validator.Sound prepared) (payload schema : Json) :
    ((checkSchemaPatterns schema ≠ [] ∨ validator.checkSchema schema ≠ none) ∧
      ∃ breaches, validator.validate prepared payload schema = (.policyFault breaches, prepared)) ∨
    (checkSchemaPatterns schema = [] ∧ validator.checkSchema schema = none ∧
      ∃ prepared', validator.validate prepared payload schema =
        (validator.evaluate payload schema, prepared') ∧ validator.Sound prepared') := by
  rcases hpatterns : checkSchemaPatterns schema with _ | ⟨breach, breaches⟩
  · -- Prepared before, the schema passed the check then.
    by_cases hmem : validator.identified schema = true ∧ schema ∈ prepared
    · refine Or.inr ⟨rfl, hsound schema hmem.2, prepared, ?_, hsound⟩
      simp only [validate, hpatterns]
      rw [if_pos hmem]
    · rcases hcheck : validator.checkSchema schema with _ | message
      · refine Or.inr
          ⟨rfl, rfl, _, by simp only [validate, hpatterns, hcheck]; rw [if_neg hmem], ?_⟩
        split_ifs
        · intro s hs
          rcases List.mem_cons.mp hs with rfl | hs
          · exact hcheck
          · exact hsound s hs
        · exact hsound
      · refine Or.inl ⟨Or.inr (Option.some_ne_none message), [schemaBreach message], ?_⟩
        simp only [validate, hpatterns, hcheck]
        rw [if_neg hmem]
  · refine Or.inl ⟨Or.inl (List.cons_ne_nil breach breaches), breach :: breaches, ?_⟩
    simp only [validate, hpatterns]

theorem step_sound (validator : JsonSchemaSemanticValidator) (event : PreparationEvent)
    (prepared : List Json) (h : validator.Sound prepared) :
    validator.Sound (validator.step event prepared) := by
  cases event with
  | validate payload schema =>
    rcases validator.validate_cases h payload schema with ⟨-, breaches, heq⟩ |
      ⟨-, -, prepared', heq, hsound⟩
    · show validator.Sound (validator.validate prepared payload schema).2
      rw [heq]
      exact h
    · show validator.Sound (validator.validate prepared payload schema).2
      rw [heq]
      exact hsound
  | evict schema => exact fun s hs => h s (List.mem_of_mem_erase hs)

theorem run_sound (validator : JsonSchemaSemanticValidator) (events : List PreparationEvent) :
    validator.Sound (run validator.step events []) :=
  run_of_kept validator.step_sound (fun _ hs => absurd hs List.not_mem_nil) events

theorem evaluate_ne_policyFault (validator : JsonSchemaSemanticValidator) (payload schema : Json)
    (breaches : List BreachDetail) :
    validator.evaluate payload schema ≠ .policyFault breaches := by
  simp only [evaluate]
  split_ifs
  · simp
  · split
    · simp
    · simp

/-- **When an admitted policy is never at fault**: after every history of
evaluations and for every payload, exactly where the metaschema takes what
admission has not judged. -/
theorem neverFaults_iff [Host] (validator : JsonSchemaSemanticValidator) {m : Metaschema}
    (hm : m.Documented) (hcheck : ∀ schema, validator.checkSchema schema = none ↔ m.Accepts schema)
    {schema : Json} (mode : ContractAdmissionMode) (enforcedKeywords : List String)
    (capability : SemanticCapability)
    (hadmitted : (admitContract schema mode enforcedKeywords (some capability)).admitted = true) :
    (∀ events payload breaches,
      (validator.validate (run validator.step events []) payload schema).1 ≠
        .policyFault breaches) ↔ TakesUnjudged m schema := by
  have hgrammar := (admissible_of_admitted hadmitted).toGrammarAdmissible
  have hpatterns := checkSchemaPatterns_eq_nil hgrammar
  rw [← accepts_iff_takesUnjudged hm hgrammar, ← hcheck]
  constructor
  · intro hnever
    have hnil : validator.Sound [] := fun s hs => absurd hs List.not_mem_nil
    rcases validator.validate_cases hnil .null schema with ⟨-, breaches, heq⟩ | ⟨-, hvalid, -⟩
    · have hfault := hnever [] .null breaches
      rw [run_nil, heq] at hfault
      exact absurd rfl hfault
    · exact hvalid
  · intro hvalid events payload breaches
    rcases validator.validate_cases (validator.run_sound events) payload schema with
      ⟨hfault, -⟩ | ⟨-, -, prepared', heq, -⟩
    · rcases hfault with hfault | hfault
      · exact absurd hpatterns hfault
      · exact absurd hvalid hfault
    · rw [heq]
      exact validator.evaluate_ne_policyFault payload schema breaches

end JsonSchemaSemanticValidator

/-! ## A metaschema of forms

It asks for numbers, counts and texts where every dialect does, and looks
for schemas where the walk does. -/

/-- RE2 takes `\p` for a class of letters; to `re` it is a bad escape. -/
def hasLetterClass : List Char → Bool
  | '\\' :: c :: cs => c = 'p' || c = 'P' || hasLetterClass cs
  | _ :: cs => hasLetterClass cs
  | [] => false

def isCount : Json → Bool
  | .int i => 0 ≤ i
  | .float q => 0 ≤ q && q.den = 1
  | _ => false

def formsMetaschema : Metaschema where
  valueOk key value :=
    if key ∈ ["minimum", "maximum", "multipleOf"] then value.kind = .int || value.kind = .float
    else if key ∈ Metaschema.countKeywords then isCount value
    else if key ∈ Metaschema.formatKeywords then
      match value with
      | .str s => key = "$ref" || !hasLetterClass s.toList
      | _ => false
    else true
  formatOk key s := key = "$ref" || !hasLetterClass s.toList
  nodeOk node := node.isObj || node.kind = .bool
  sites := subschemaSites

/-- The check of a node and of the places below it. -/
def formsAt (node : Json) : Bool :=
  (node.fields.all fun (key, _) => (node.get? key).all (formsMetaschema.valueOk key)) &&
    (subschemaSites node).all fun (_, child) => formsMetaschema.nodeOk child

def formsValidator : JsonSchemaSemanticValidator where
  checkSchema schema :=
    if formsMetaschema.nodeOk schema && (subschemas schema).all fun (_, node) => formsAt node then
      none
    else some "'x' is not of type 'integer'"
  iterErrors _ _ := ([], none)
  identified _ := true

theorem exists_count {value : Json} (h : isCount value = true) :
    ∃ n : ℕ, value.number? = some n := by
  cases value with
  | int i =>
    obtain ⟨n, rfl⟩ := Int.eq_ofNat_of_zero_le (of_decide_eq_true h)
    exact ⟨n, rfl⟩
  | float q =>
    simp only [isCount, Bool.and_eq_true, decide_eq_true_eq] at h
    obtain ⟨hpos, hden⟩ := h
    obtain ⟨n, hn⟩ := Int.eq_ofNat_of_zero_le (Rat.num_nonneg.mpr hpos)
    refine ⟨n, ?_⟩
    have hnum := Rat.coe_int_num_of_den_eq_one hden
    rw [hn] at hnum
    show some q = some (n : ℚ)
    rw [← hnum]
    rfl
  | _ => cases h

theorem formsMetaschema_documented : formsMetaschema.Documented where
  number key hk value := by
    have hmem : key ∈ ["minimum", "maximum", "multipleOf"] := by
      revert key
      decide
    simp only [formsMetaschema, hmem, if_true, Bool.or_eq_true, decide_eq_true_eq]
  text key hk s := by
    have hrest : key ∉ ["minimum", "maximum", "multipleOf"] ∧ key ∉ Metaschema.countKeywords := by
      revert key
      decide
    simp only [formsMetaschema, hrest.1, hrest.2, hk, if_true, if_false]
  count key hk value h := by
    have hrest : ∀ key ∈ Metaschema.countKeywords, key ∉ ["minimum", "maximum", "multipleOf"] := by
      decide
    simp only [formsMetaschema, hrest key hk, hk, if_true, if_false] at h
    exact exists_count h

/-- Only an object has places below it. -/
theorem isObj_of_mem_subschemaSites {node child : Json} {steps : Position}
    (h : (steps, child) ∈ subschemaSites node) : node.isObj = true := by
  rcases mem_subschemaSites.mp h with ⟨k, -, h⟩ | ⟨k, -, h⟩ | ⟨k, -, h⟩
  · exact Json.isObj_of_get? (mem_valuedSites.mp h).2.1
  · obtain ⟨children, i, hget, -⟩ := mem_listSites.mp h
    exact Json.isObj_of_get? hget
  · obtain ⟨children, name, hget, -⟩ := mem_mapSites.mp h
    exact Json.isObj_of_get? hget

theorem below_of_visited {schema node : Json} {p : Position} (h : Visited schema p node) :
    formsMetaschema.Below schema p node := by
  induction h with
  | root => exact .root
  | site _ hs _ ih => exact .site ih hs

/-- **The check is the metaschema's.** -/
theorem formsValidator_checks (schema : Json) :
    formsValidator.checkSchema schema = none ↔ formsMetaschema.Accepts schema := by
  have hcheck : formsValidator.checkSchema schema = none ↔
      formsMetaschema.nodeOk schema = true ∧
        ∀ p node, Visited schema p node → formsAt node = true := by
    simp only [formsValidator, ite_eq_left_iff, reduceCtorEq, imp_false, not_not,
      Bool.and_eq_true, List.all_eq_true, Prod.forall, mem_subschemas]
  rw [hcheck]
  constructor
  · rintro ⟨hroot, hvisited⟩
    have hbelow : ∀ p node, formsMetaschema.Below schema p node →
        formsMetaschema.nodeOk node = true ∧ (node.isObj = true → Visited schema p node) := by
      intro p node h
      induction h with
      | root => exact ⟨hroot, .root⟩
      | site _ hs ih =>
        have hparent := ih.2 (isObj_of_mem_subschemaSites hs)
        have hforms := hvisited _ _ hparent
        simp only [formsAt, Bool.and_eq_true, List.all_eq_true] at hforms
        exact ⟨hforms.2 _ hs, fun hobj => hparent.site hs hobj⟩
    intro p node h
    obtain ⟨hnode, hobj⟩ := hbelow p node h
    refine ⟨hnode, fun key value hget => ?_⟩
    have hforms := hvisited p node (hobj (Json.isObj_of_get? hget))
    simp only [formsAt, Bool.and_eq_true, List.all_eq_true] at hforms
    have hkey := hforms.1 (key, value) (Json.mem_of_lookup hget)
    simpa [hget] using hkey
  · intro haccepts
    refine ⟨(haccepts [] schema .root).1, fun p node hvisited => ?_⟩
    simp only [formsAt, Bool.and_eq_true, List.all_eq_true]
    refine ⟨fun (key, _) _ => ?_, fun (steps, child) hs => ?_⟩
    · rcases hget : node.get? key with _ | value
      · rfl
      · simpa [hget] using (haccepts p node (below_of_visited hvisited)).2 key value hget
    · exact (haccepts _ child (.site (below_of_visited hvisited) hs)).1

/-- A name of two letters at least, and an age. -/
def namedAge : Json :=
  .obj [("properties", .obj [("name", .obj [("minLength", .int 2), ("pattern", .str "a")]),
    ("age", .obj [("minimum", .int 0)])])]

theorem neverFaults_namedAge :
    admittedUnder .draft202012 namedAge = true ∧
      ∀ events payload breaches,
        (formsValidator.validate (run formsValidator.step events []) payload namedAge).1 ≠
          .policyFault breaches := by
  let _ := Host.literal
  have haccepts : formsMetaschema.Accepts namedAge :=
    (formsValidator_checks namedAge).mp (by decide +kernel)
  exact ⟨by decide +kernel,
    (JsonSchemaSemanticValidator.neverFaults_iff formsValidator formsMetaschema_documented
      formsValidator_checks .strict
      (nativeEnforcedKeywords ++ (stockCapability .draft202012).enforcedKeywords)
      (stockCapability .draft202012) (by decide +kernel)).mpr
      (haccepts.takesUnjudged formsMetaschema_documented)⟩

/-- A length that is a text. -/
def textualMinLength : Json := loneKeyword "minLength" (.str "x")

/-- A pattern for RE2 only. -/
def letterClass : Json := loneKeyword "pattern" (.str "\\p\x7bL\x7d+")

/-- A schema the check refuses faults every payload. -/
theorem faults_of_refused {schema : Json} (h : formsValidator.checkSchema schema ≠ none)
    (payload : Json) :
    ∃ breaches, (formsValidator.validate [] payload schema).1 = .policyFault breaches := by
  rcases formsValidator.validate_cases (fun s hs => absurd hs List.not_mem_nil) payload schema with
    ⟨-, breaches, heq⟩ | ⟨-, hvalid, -⟩
  · exact ⟨breaches, by rw [heq]⟩
  · exact absurd hvalid h

/-- **Admitted schemas that fault every payload.** -/
theorem admitted_faults :
    (formsMetaschema.Documented ∧
      ∀ schema, formsValidator.checkSchema schema = none ↔ formsMetaschema.Accepts schema) ∧
      (admittedUnder .draft202012 textualMinLength = true ∧ ∀ payload, ∃ breaches,
        (formsValidator.validate [] payload textualMinLength).1 = .policyFault breaches) ∧
      admittedUnder .draft202012 letterClass = true ∧ ∀ payload, ∃ breaches,
        (formsValidator.validate [] payload letterClass).1 = .policyFault breaches :=
  ⟨⟨formsMetaschema_documented, formsValidator_checks⟩,
    ⟨by decide +kernel, faults_of_refused (by decide +kernel)⟩,
    by decide +kernel, faults_of_refused (by decide +kernel)⟩

end Congine
