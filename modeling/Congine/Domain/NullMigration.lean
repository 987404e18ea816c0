import Congine.Domain.NativeTotality
/-!
# The migration away from `null_forbidden`

The advisory on a contract that uses `null_forbidden` and the rule's own
docstring recommend a portable spelling: declare the field's type without
null and take the field off the list. The type rule skips a null
whatever the type says, so nothing is left to refuse one: the two
contracts part on the payloads that have a null there and nothing else
against them, and agree on all others.
-/

namespace Congine

/-! ## The migrated contract -/

/-- A list without one name. -/
def withoutName (fieldName : String) : Json → Json
  | .arr entries => .arr (entries.filter (· ≠ .str fieldName))
  | value => value

/-- The contract with a field off its `null_forbidden` list. -/
def migrateNull (fieldName : String) (schema : Json) : Json :=
  .obj (schema.fields.map fun (key, value) =>
    (key, if key = "null_forbidden" then withoutName fieldName value else value))

/-- The field is on the list, and its type is declared without null. -/
structure NullMigratable (fieldName : String) (schema : Json) : Prop where
  forbidden : ∃ entries, schema.get? "null_forbidden" = some (.arr entries) ∧
    .str fieldName ∈ entries
  typed : ∃ spec declared, (fieldName, spec) ∈ propertiesOf schema ∧
    spec.get? "type" = some declared ∧ ¬ HasType .null declared

theorem lookup_map_value {α β : Type*} (g : String → α → β) (fs : List (String × α)) (k : String) :
    (fs.map fun (key, value) => (key, g key value)).lookup k = (fs.lookup k).map (g k) := by
  induction fs with
  | nil => rfl
  | cons f fs ih =>
    obtain ⟨l, v⟩ := f
    rw [List.map_cons, List.lookup_cons, List.lookup_cons]
    by_cases hk : k = l
    · subst hk
      simp
    · rw [beq_false_of_ne hk]
      exact ih

theorem get?_migrateNull (fieldName : String) (schema : Json) (k : String) :
    (migrateNull fieldName schema).get? k = (schema.get? k).map fun value =>
      if k = "null_forbidden" then withoutName fieldName value else value :=
  lookup_map_value (fun key value =>
    if key = "null_forbidden" then withoutName fieldName value else value) schema.fields k

/-- Every other clause is as it was. -/
theorem get?_migrateNull_of_ne {fieldName : String} {schema : Json} {k : String}
    (h : k ≠ "null_forbidden") : (migrateNull fieldName schema).get? k = schema.get? k := by
  rw [get?_migrateNull]
  simp [h]

theorem propertiesOf_migrateNull (fieldName : String) (schema : Json) :
    propertiesOf (migrateNull fieldName schema) = propertiesOf schema := by
  rw [propertiesOf, propertiesOf, get?_migrateNull_of_ne (by decide)]

/-- The list the rule is given, with the field gone from it. -/
theorem withoutName_names (fieldName : String) (names : List String) :
    withoutName fieldName (.arr (names.map .str)) =
      .arr ((names.filter (· ≠ fieldName)).map .str) := by
  rw [withoutName, List.filter_map]
  congr 3
  funext name
  simp

section Host

variable [Host]

/-! ## The verdict -/

/-- Pass, fail, or what the validator raises. -/
def verdict (payload schema : Json) : Except Exc Status :=
  (LocalValidator.validate payload schema).map (·.status)

/-- Contracts on which the validator raises alike have one verdict where
they pass alike. -/
theorem verdict_eq_iff {payload schema schema' : Json}
    (h : ∀ e, LocalValidator.validate payload schema = .error e ↔
      LocalValidator.validate payload schema' = .error e) :
    verdict payload schema = verdict payload schema' ↔
      ((∃ r, LocalValidator.validate payload schema = .ok r ∧ r.isPass = true) ↔
        ∃ r, LocalValidator.validate payload schema' = .ok r ∧ r.isPass = true) := by
  unfold verdict
  rcases hs : LocalValidator.validate payload schema with e | r
  · rw [(h e).mp hs]
    simp
  · rcases hs' : LocalValidator.validate payload schema' with e | r'
    · rw [(h e).mpr hs'] at hs
      cases hs
    · rcases hr : r.status with _ | _ <;> rcases hr' : r'.status with _ | _ <;>
        simp [Except.map, ValidationResult.isPass, hr, hr']

omit [Host] in
/-- A rule other than the null guard is given the same of both. -/
theorem extractParams_migrateNull {fieldName ruleName : String} {schema : Json}
    (hobj : schema.isObj = true) (h : ruleName ≠ "NULL_GUARD") :
    LocalValidator.extractParams ruleName (migrateNull fieldName schema) =
      LocalValidator.extractParams ruleName schema := by
  have hget : ∀ {j : Json}, j.isObj = true → ∀ k, pyGet j k = .ok (j.get? k) := by
    intro j hj k
    rw [Json.eq_obj_of_isObj hj]
    rfl
  unfold LocalValidator.extractParams
  rw [hget hobj, hget (show (migrateNull fieldName schema).isObj = true from rfl),
    get?_migrateNull_of_ne (by decide), get?_migrateNull_of_ne (by decide)]
  simp only [Except.bind, if_neg h]

/-! ## The two contracts -/

variable {fieldName : String} {schema payload : Json} {enforcedKeywords : List String}
  {capability : Option SemanticCapability}

omit [Host] in
/-- The list is one of names, the field's among them. -/
theorem NullMigratable.exists_names (hm : NullMigratable fieldName schema)
    (h : ∀ value, schema.get? "null_forbidden" = some value →
      value.isNull ∨ ∃ names : List String, value = .arr (names.map .str)) :
    ∃ names : List String, schema.get? "null_forbidden" = some (.arr (names.map .str)) ∧
      fieldName ∈ names := by
  obtain ⟨entries, hget, hmem⟩ := hm.forbidden
  rcases h _ hget with hnull | ⟨names, hnames⟩
  · cases hnull
  · obtain rfl := Json.arr.inj hnames
    obtain ⟨name, hname, heq⟩ := List.mem_map.mp hmem
    obtain rfl := Json.str.inj heq
    exact ⟨names, hget, hname⟩

/-- On both contracts the null guard returns, and every other rule does the
same. -/
theorem runRule_migrateNull (payload : Json)
    (h : GrammarAdmissible schema enforcedKeywords capability)
    (hm : NullMigratable fieldName schema) (rule : String × Rule)
    (hrule : rule ∈ LocalValidator.rules) :
    LocalValidator.runRule payload schema rule =
        LocalValidator.runRule payload (migrateNull fieldName schema) rule ∨
      Returns (LocalValidator.runRule payload schema rule) ∧
        Returns (LocalValidator.runRule payload (migrateNull fieldName schema) rule) := by
  by_cases hname : rule.1 = "NULL_GUARD"
  · right
    obtain ⟨names, hnames, -⟩ := hm.exists_names (h.lists "null_forbidden" (by simp))
    obtain rfl : rule = ("NULL_GUARD", RuleEngine.nullGuard) := by
      simp only [LocalValidator.rules, List.mem_cons, List.not_mem_nil, or_false] at hrule
      rcases hrule with rfl | rfl | rfl | rfl | rfl | rfl <;> first | rfl | simp at hname
    have hguard : ∀ {j : Json} (names : List String), j.isObj = true →
        j.get? "null_forbidden" = some (.arr (names.map .str)) →
        Returns (LocalValidator.runRule payload j ("NULL_GUARD", RuleEngine.nullGuard)) := by
      intro j names hj hget
      rw [Json.eq_obj_of_isObj hj, Json.get?_obj] at *
      simp only [LocalValidator.runRule, LocalValidator.extractParams, pyGet, Except.bind,
        String.reduceEq, if_false, if_true, Json.get?_obj, hget, Option.getD_some]
      exact nullGuard_returns
    refine ⟨hguard names h.isObj hnames, hguard (names.filter (· ≠ fieldName)) rfl ?_⟩
    rw [get?_migrateNull, hnames, Option.map_some, if_pos rfl, withoutName_names]
  · left
    rw [LocalValidator.runRule, LocalValidator.runRule, extractParams_migrateNull h.isObj hname]

/-- So the validator raises alike on both. -/
theorem validate_error_migrateNull (h : GrammarAdmissible schema enforcedKeywords capability)
    (hm : NullMigratable fieldName schema) (e : Exc) :
    LocalValidator.validate payload (migrateNull fieldName schema) = .error e ↔
      LocalValidator.validate payload schema = .error e := by
  have hmap : ∀ {x : Except Exc (List BreachDetail)} {f : List BreachDetail → ValidationResult},
      x.map f = .error e ↔ x = .error e := by
    intro x f
    rcases x with e' | a <;> simp [Except.map]
  unfold LocalValidator.validate
  by_cases hpayload : payload.isObj = true
  · simp only [hpayload, Bool.not_true, Bool.false_eq_true, if_false, hmap]
    constructor
    · refine collect_eq_error_of fun rule hrule => ?_
      rcases runRule_migrateNull payload h hm rule hrule with heq | ⟨hr, hr'⟩
      · exact Or.inl heq.symm
      · exact Or.inr ⟨hr', hr⟩
    · exact collect_eq_error_of (runRule_migrateNull payload h hm)
  · simp [hpayload]

/-- The clauses of the contract are those of the migrated one and the null
refused. -/
theorem meets_migrateNull (h : GrammarAdmissible schema enforcedKeywords capability)
    (hm : NullMigratable fieldName schema) :
    Meets InEffect schema payload ↔
      Meets InEffect (migrateNull fieldName schema) payload ∧
        payload.get? fieldName ≠ some .null := by
  obtain ⟨names, hnames, hin⟩ := hm.exists_names (h.lists "null_forbidden" (by simp))
  have hrequired : (migrateNull fieldName schema).get? "required" = schema.get? "required" :=
    get?_migrateNull_of_ne (by decide)
  have hforbidden : (migrateNull fieldName schema).get? "null_forbidden" =
      some (.arr ((names.filter (· ≠ fieldName)).map .str)) := by
    rw [get?_migrateNull, hnames, Option.map_some, if_pos rfl, withoutName_names]
  constructor
  · intro hmeets
    refine ⟨⟨fun entries hget => hmeets.required entries (hrequired ▸ hget),
      fun entries hget name hname => ?_, fun name spec value hmem => ?_⟩,
      hmeets.nullForbidden _ hnames fieldName (List.mem_map_of_mem hin)⟩
    · obtain rfl := Json.arr.inj (Option.some.inj (hforbidden.symm.trans hget))
      obtain ⟨name', hname', heq⟩ := List.mem_map.mp hname
      obtain rfl := Json.str.inj heq
      exact hmeets.nullForbidden _ hnames _ (List.mem_map_of_mem (List.mem_of_mem_filter hname'))
    · rw [propertiesOf_migrateNull] at hmem
      exact hmeets.property name spec value hmem
  · rintro ⟨hmeets, hnull⟩
    refine ⟨fun entries hget => hmeets.required entries (hrequired.symm ▸ hget),
      fun entries hget name hname => ?_, fun name spec value hmem => ?_⟩
    · obtain rfl := Json.arr.inj (Option.some.inj (hnames.symm.trans hget))
      obtain ⟨name', hname', heq⟩ := List.mem_map.mp hname
      obtain rfl := Json.str.inj heq
      by_cases hfield : name' = fieldName
      · subst hfield
        exact hnull
      · exact hmeets.nullForbidden _ hforbidden _
          (List.mem_map_of_mem (List.mem_filter.mpr ⟨hname', by simpa using hfield⟩))
    · rw [← propertiesOf_migrateNull fieldName] at hmem
      exact hmeets.property name spec value hmem

/-- Where `required` is not null, the rules can lean on both contracts. -/
theorem rulesAdmissible_migrateNull (h : GrammarAdmissible schema enforcedKeywords capability)
    (hm : NullMigratable fieldName schema) (hrequired : schema.get? "required" ≠ some .null) :
    RulesAdmissible schema ∧ RulesAdmissible (migrateNull fieldName schema) := by
  obtain ⟨names, hnames, -⟩ := hm.exists_names (h.lists "null_forbidden" (by simp))
  have hprops : ∀ value, schema.get? "properties" = some value → value.isObj = true := by
    intro value hvalue
    rcases h.properties value hvalue with hnull | hobj
    · obtain ⟨spec, -, hmem, -⟩ := hm.typed
      rw [propertiesOf, hvalue, Json.isNull_iff.mp hnull] at hmem
      cases hmem
    · exact hobj
  have hlist : ∀ value, schema.get? "required" = some value →
      ∃ names : List String, value = .arr (names.map .str) := by
    intro value hvalue
    rcases h.lists "required" (by simp) value hvalue with hnull | hnames
    · exact absurd (Json.isNull_iff.mp hnull ▸ hvalue) hrequired
    · exact hnames
  refine ⟨⟨h.isObj, fun key hkey value hvalue => ?_, hprops, h.property⟩,
    ⟨rfl, fun key hkey value hvalue => ?_, fun value hvalue => ?_, fun name spec hmem => ?_⟩⟩
  · rcases List.mem_pair.mp hkey with rfl | rfl
    · exact hlist value hvalue
    · exact ⟨names, Option.some.inj (hvalue.symm.trans hnames)⟩
  · rcases List.mem_pair.mp hkey with rfl | rfl
    · rw [get?_migrateNull_of_ne (by decide)] at hvalue
      exact hlist value hvalue
    · rw [get?_migrateNull, hnames, Option.map_some, if_pos rfl, withoutName_names] at hvalue
      exact ⟨_, (Option.some.inj hvalue).symm⟩
  · rw [get?_migrateNull_of_ne (by decide)] at hvalue
    exact hprops value hvalue
  · rw [propertiesOf_migrateNull] at hmem
    exact h.property name spec hmem

/-- **When the migration keeps the verdict**: on every payload but those
with a null at the field that meet every other clause. A null `required`
makes the validator raise on both contracts. -/
theorem verdict_migrateNull_iff (mode : ContractAdmissionMode)
    (hadmitted : (admitContract schema mode nativeEnforcedKeywords none).admitted = true)
    (hm : NullMigratable fieldName schema) :
    verdict payload (migrateNull fieldName schema) = verdict payload schema ↔
      (payload.get? fieldName = some .null → schema.get? "required" ≠ some .null →
        ¬ Meets InEffect (migrateNull fieldName schema) payload) := by
  have h := (admissible_of_admitted hadmitted).toGrammarAdmissible
  rw [verdict_eq_iff (validate_error_migrateNull h hm)]
  by_cases hpayload : payload.isObj = true
  · by_cases hrequired : schema.get? "required" = some .null
    · -- The rule that iterates over it raises, on either contract.
      have hraises : ∀ {j : Json}, j.isObj = true → j.get? "required" = some .null →
          ¬ ∃ r, LocalValidator.validate payload j = .ok r ∧ r.isPass = true := by
        intro j hj hget
        rw [validate_pass_iff_rules hpayload]
        obtain ⟨rule, hrule, hnot⟩ :
            ∃ rule ∈ LocalValidator.rules, ¬ Returns (LocalValidator.runRule payload j rule) :=
          exists_rule_raises hj (by simp) hget
        exact fun hall => hnot ⟨[], hall rule hrule⟩
      have hboth := hraises h.isObj hrequired
      have hboth' := hraises (j := migrateNull fieldName schema) rfl
        ((get?_migrateNull_of_ne (by decide)).trans hrequired)
      simp [hboth, hboth', hrequired]
    · obtain ⟨hrules, hrules'⟩ := rulesAdmissible_migrateNull h hm hrequired
      rw [hrules.pass_iff hpayload, hrules'.pass_iff hpayload, meets_migrateNull h hm]
      constructor
      · exact fun hiff hnull _ hmeets => (hiff.mp hmeets).2 hnull
      · exact fun hnot => ⟨fun hmeets => ⟨hmeets, fun hnull => hnot hnull hrequired hmeets⟩,
          And.left⟩
  · have habsent : payload.get? fieldName ≠ some .null :=
      fun hget => hpayload (Json.isObj_of_get? hget)
    simp [LocalValidator.validate, hpayload, ValidationResult.isPass, habsent]

end Host

/-- A name that must be a string and not null. -/
def forbiddenName : Json :=
  .obj [("null_forbidden", .arr [.str "name"]),
    ("properties", .obj [("name", .obj [("type", .str "string")])])]

theorem nullMigratable_forbiddenName : NullMigratable "name" forbiddenName :=
  ⟨⟨[.str "name"], rfl, List.mem_cons_self⟩, .obj [("type", .str "string")], .str "string",
    List.mem_cons_self, rfl, fun ⟨kinds, hkinds, hmem⟩ => by
      obtain rfl := Option.some.inj hkinds
      exact absurd hmem (by decide)⟩

theorem verdict_migrateNull_present :
    @verdict Host.literal (.obj [("name", .str "x")]) (migrateNull "name" forbiddenName) =
      @verdict Host.literal (.obj [("name", .str "x")]) forbiddenName := by
  let _ := Host.literal
  exact (verdict_migrateNull_iff .strict (by decide +kernel)
    nullMigratable_forbiddenName).mpr fun hnull => absurd hnull (by decide)

/-- **A null the contract refuses passes the migrated one.** -/
theorem verdict_migrateNull_null :
    (@admitContract Host.literal forbiddenName .strict nativeEnforcedKeywords none).admitted =
      true ∧ NullMigratable "name" forbiddenName ∧
    @verdict Host.literal (.obj [("name", .null)]) forbiddenName = .ok .fail ∧
    @verdict Host.literal (.obj [("name", .null)]) (migrateNull "name" forbiddenName) =
      .ok .pass :=
  ⟨by decide +kernel, nullMigratable_forbiddenName, by decide +kernel, by decide +kernel⟩

end Congine
