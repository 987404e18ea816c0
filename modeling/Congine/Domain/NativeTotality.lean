import Congine.Domain.Agreement
/-!
# The native evaluator returns

Admission settles what the six rules assume of a schema, but for two
things. It takes a null for an absent list and for absent properties,
where the rules iterate over whatever stands under the key; and it asks
of a bound that it be a number, where the range rule also prints it.
-/

namespace Congine

/-! ## What the rules print -/

/-- The range rule can print the bound it reports: the lower one where the
value breaks it, the upper one where it breaks that one only. -/
structure PrintableBounds (spec value : Json) : Prop where
  low : ∀ b, (spec.get? "min").or (spec.get? "minimum") = some b → ¬ AtLeast value b →
    printable b = true
  high : ∀ b, (spec.get? "max").or (spec.get? "maximum") = some b → ¬ AtMost value b →
    (∀ l, (spec.get? "min").or (spec.get? "minimum") = some l → AtLeast value l) →
      printable b = true

/-! ## Rules that print nothing -/

theorem fieldPresence_returns {payload : Json} {names : List String} :
    Returns (RuleEngine.fieldPresence payload (.arr (names.map .str))) := by
  simp only [RuleEngine.fieldPresence, pyIter, Except.bind, collect_returns_iff,
    List.forall_mem_map]
  intro name _
  split_ifs
  · exact returns_ok _
  · exact returns_ok _

theorem nullGuard_returns {payload : Json} {names : List String} :
    Returns (RuleEngine.nullGuard payload (.arr (names.map .str))) := by
  simp only [RuleEngine.nullGuard, pyIter, Except.bind, collect_returns_iff, List.forall_mem_map]
  intro name _
  split
  · exact returns_ok _
  · exact returns_ok _

/-- A rule over a map of fields returns where it does on each present field. -/
theorem onPresent_returns_iff {payload : Json} {items : List (String × Json)}
    {judge : String → Json → Json → Except Exc (List BreachDetail)} :
    Returns (RuleEngine.onPresent payload (.obj items) judge) ↔
      ∀ name spec value, (name, spec) ∈ items → payload.get? name = some value →
        Returns (judge name spec value) := by
  simp only [RuleEngine.onPresent, pyItems, Except.bind, collect_returns_iff, Prod.forall]
  refine forall_congr' fun name => forall_congr' fun spec => ?_
  rcases payload.get? name with _ | value
  · simp
  · simp

section Host

variable [Host]

theorem pyStr_returns_iff {j : Json} (h : j.kind = .int ∨ j.kind = .float) :
    Returns (pyStr j) ↔ printable j = true := by
  have hstr : pyStr j = if printable j then .ok (Host.repr j) else .error .valueError := by
    cases j with
    | str s => simp [Json.kind] at h
    | _ => rfl
  rw [hstr]
  split_ifs with hp
  · simp [hp]
  · simp [hp]

/-- A type admission takes is made of names, which print as they are. -/
theorem typeLabel_returns {declared : Json} (h : typeIsEnforceable declared = true) :
    Returns (typeLabel declared) := by
  cases declared with
  | str name => exact ⟨name, rfl⟩
  | arr members =>
    simp only [typeIsEnforceable, Bool.and_eq_true, List.all_eq_true] at h
    refine returns_map.mpr (mapM_returns fun member hmember => ?_)
    have hname := h.2 member hmember
    cases member with
    | str name => exact ⟨name, rfl⟩
    | _ => cases hname
  | _ => cases h

/-! ## Rules that print what admission has judged -/

theorem typeMatch_returns {payload : Json} {items : List (String × Json)}
    (h : ∀ name spec, (name, spec) ∈ items → PropertyAdmissible name spec) :
    Returns (RuleEngine.typeMatch payload (.obj items)) := by
  refine onPresent_returns_iff.mpr fun name spec value hmem _ => ?_
  have hadm := h name spec hmem
  simp only [hadm.isObj, if_true]
  rcases htype : spec.get? "type" with _ | declared
  · simp [Json.truthy]
  · have hlabel := typeLabel_returns (hadm.type declared htype)
    simp only [Option.getD_some]
    split_ifs
    · exact returns_ok _
    · exact returns_ok _
    · exact returns_ok _
    · exact returns_map.mpr hlabel

theorem enumValues_returns {payload : Json} {items : List (String × Json)}
    (h : ∀ name spec, (name, spec) ∈ items → PropertyAdmissible name spec) :
    Returns (RuleEngine.enumValues payload
      (.obj (items.filter fun (_, p) => p.isObj && ["enum"].any p.has))) := by
  refine onPresent_returns_iff.mpr fun name spec value hmem _ => ?_
  have hadm := h name spec (List.mem_of_mem_filter hmem)
  simp only [hadm.isObj, if_true, returns_map]
  rcases henum : spec.get? "enum" with _ | allowed
  · exact returns_ok _
  · have hkind := hadm.enum allowed henum
    cases allowed with
    | arr members => exact returns_ok _
    | _ => cases hkind

theorem regexPattern_returns {payload : Json} {items : List (String × Json)}
    (h : ∀ name spec, (name, spec) ∈ items → PropertyAdmissible name spec) :
    Returns (RuleEngine.regexPattern payload
      (.obj (items.filter fun (_, p) => p.isObj && ["pattern"].any p.has))) := by
  refine onPresent_returns_iff.mpr fun name spec value hmem _ => ?_
  have hadm := h name spec (List.mem_of_mem_filter hmem)
  cases value with
  | str text =>
    simp only [RuleEngine.regexBreaches, hadm.isObj, if_true]
    rcases hpat : spec.get? "pattern" with _ | declared
    · simp [Json.truthy]
    · -- Admission has made it text that compiles.
      obtain ⟨pattern, rfl, -, hcomp⟩ := hadm.pattern declared hpat
      simp only [Option.getD_some, pyLen, Except.bind, RuleEngine.matchPattern, hcomp]
      split_ifs <;> exact returns_ok _
  | _ => exact returns_ok _

omit [Host] in
/-- A bound that is reported is there and broken. -/
theorem exists_broken {bound : Option Json} {kept : Json → Prop}
    (h : true = false ↔ ∀ b, bound = some b → kept b) : ∃ b, bound = some b ∧ ¬ kept b := by
  by_contra hall
  push Not at hall
  exact absurd (h.mpr hall) (by decide)

/-- **The range rule on one value returns** where it can print what it reports. -/
theorem rangeBreaches_returns_iff {name : String} {spec value : Json}
    (h : PropertyAdmissible name spec) :
    Returns (RuleEngine.rangeBreaches name spec value) ↔ PrintableBounds spec value := by
  by_cases hv : RuleEngine.isPlainNumber value = true
  · obtain ⟨below, above, hlow, hup, heq⟩ := rangeBreaches_spec h hv
    have hshown : ∀ {short long : String}, short ∈ ["min", "max", "minimum", "maximum"] →
        long ∈ ["min", "max", "minimum", "maximum"] → ∀ b,
        (spec.get? short).or (spec.get? long) = some b →
          (Returns (pyStr (RuleEngine.boundOf spec short long)) ↔ printable b = true) := by
      intro short long hs hl b hb
      rw [RuleEngine.boundOf, hb]
      exact pyStr_returns_iff (effective_kind h hs hl b hb)
    rw [heq]
    rcases below with _ | _
    · have hleast := hlow.mp rfl
      rcases above with _ | _
      · have hmost := hup.mp rfl
        simp only [Bool.false_eq_true, if_false, returns_ok, true_iff]
        exact ⟨fun b hb hbroken => absurd (hleast b hb) hbroken,
          fun b hb hbroken _ => absurd (hmost b hb) hbroken⟩
      · obtain ⟨b, hb, hbroken⟩ := exists_broken hup
        simp only [Bool.false_eq_true, if_false, if_true, returns_map]
        rw [hshown (by simp) (by simp) b hb]
        constructor
        · intro hprint
          refine ⟨fun l hl hl' => absurd (hleast l hl) hl', fun b' hb' _ _ => ?_⟩
          rwa [← Option.some.inj (hb.symm.trans hb')]
        · exact fun hprint => hprint.high b hb hbroken hleast
    · obtain ⟨b, hb, hbroken⟩ := exists_broken hlow
      simp only [if_true, returns_map]
      rw [hshown (by simp) (by simp) b hb]
      constructor
      · intro hprint
        refine ⟨fun b' hb' _ => ?_, fun _ _ _ hleast => absurd (hleast b hb) hbroken⟩
        rwa [← Option.some.inj (hb.symm.trans hb')]
      · exact fun hprint => hprint.low b hb hbroken
  · have hany : ∀ b, AtLeast value b ∧ AtMost value b := fun b =>
      ⟨fun h => absurd h hv, fun h => absurd h hv⟩
    simp only [RuleEngine.rangeBreaches, hv, Bool.not_false, if_true, returns_ok, true_iff]
    exact ⟨fun b _ hbroken => absurd (hany b).1 hbroken,
      fun b _ hbroken _ => absurd (hany b).2 hbroken⟩

theorem rangeCheck_returns_iff {payload : Json} {items : List (String × Json)}
    (h : ∀ name spec, (name, spec) ∈ items → PropertyAdmissible name spec) :
    Returns (RuleEngine.rangeCheck payload (.obj (items.filter fun (_, p) => p.isObj &&
        ["min", "max", "minimum", "maximum"].any p.has))) ↔
      ∀ name spec value, (name, spec) ∈ items → payload.get? name = some value →
        PrintableBounds spec value := by
  rw [RuleEngine.rangeCheck, onPresent_returns_iff]
  refine forall_congr' fun name => forall_congr' fun spec => forall_congr' fun value => ?_
  constructor
  · intro hall hmem hget
    by_cases hkey : ["min", "max", "minimum", "maximum"].any spec.has = true
    · have hdeclares :
          (spec.isObj && ["min", "max", "minimum", "maximum"].any spec.has) = true := by
        rw [(h name spec hmem).isObj, hkey]
        rfl
      exact (rangeBreaches_returns_iff (h name spec hmem)).mp
        (hall (List.mem_filter.mpr ⟨hmem, hdeclares⟩) hget)
    · -- A field that names none of the four keys has no bound to print.
      simp only [List.any_cons, List.any_nil, Json.has, Bool.or_false, Bool.or_eq_true, not_or,
        Bool.not_eq_true, Option.isSome_eq_false_iff, Option.isNone_iff_eq_none] at hkey
      obtain ⟨h₁, h₂, h₃, h₄⟩ := hkey
      exact ⟨fun b hb => by simp [h₁, h₃] at hb, fun b hb => by simp [h₂, h₄] at hb⟩
  · intro hall hmem hget
    have hitem := List.mem_of_mem_filter hmem
    exact (rangeBreaches_returns_iff (h name spec hitem)).mpr (hall hitem hget)

/-! ## The validator -/

/-- **A null under one of the three keys** makes the rule that iterates over it raise. -/
theorem exists_rule_raises {schema payload : Json} (hobj : schema.isObj = true) {key : String}
    (hkey : key ∈ ["required", "null_forbidden", "properties"])
    (hnull : schema.get? key = some .null) :
    ∃ rule ∈ LocalValidator.rules, ¬ Returns (LocalValidator.runRule payload schema rule) := by
  have hget : pyGet schema "properties" = .ok (schema.get? "properties") := by
    rw [Json.eq_obj_of_isObj hobj]
    rfl
  simp only [List.mem_cons, List.not_mem_nil, or_false] at hkey
  rcases hkey with rfl | rfl | rfl
  · refine ⟨("FIELD_PRESENCE", RuleEngine.fieldPresence), by simp [LocalValidator.rules], ?_⟩
    simp [LocalValidator.runRule, LocalValidator.extractParams, hget, Except.bind, hnull,
      RuleEngine.fieldPresence, pyIter]
  · refine ⟨("NULL_GUARD", RuleEngine.nullGuard), by simp [LocalValidator.rules], ?_⟩
    simp [LocalValidator.runRule, LocalValidator.extractParams, hget, Except.bind, hnull,
      RuleEngine.nullGuard, pyIter]
  · refine ⟨("TYPE_MATCH", RuleEngine.typeMatch), by simp [LocalValidator.rules], ?_⟩
    simp [LocalValidator.runRule, LocalValidator.extractParams, hget, Except.bind, hnull,
      RuleEngine.typeMatch, RuleEngine.onPresent, pyItems]

/-- Where none of the three is null, the rules return up to what the range
rule prints. -/
theorem rules_return_iff {schema payload : Json} {enforcedKeywords : List String}
    {capability : Option SemanticCapability}
    (h : GrammarAdmissible schema enforcedKeywords capability)
    (hnull : ∀ key ∈ ["required", "null_forbidden", "properties"], schema.get? key ≠ some .null) :
    (∀ rule ∈ LocalValidator.rules, Returns (LocalValidator.runRule payload schema rule)) ↔
      ∀ name spec value, (name, spec) ∈ propertiesOf schema → payload.get? name = some value →
        PrintableBounds spec value := by
  have hprops : ∀ value, schema.get? "properties" = some value → value.isObj = true := by
    intro value hvalue
    rcases h.properties value hvalue with hv | hv
    · rw [Json.isNull_iff.mp hv] at hvalue
      exact absurd hvalue (hnull "properties" (by simp))
    · exact hv
  have hlist : ∀ key ∈ ["required", "null_forbidden"], ∃ names : List String,
      (schema.get? key).getD (.arr []) = .arr (names.map .str) := by
    intro key hkey
    rcases hvalue : schema.get? key with _ | value
    · exact ⟨[], rfl⟩
    · rcases h.lists key hkey value hvalue with hv | ⟨names, rfl⟩
      · rw [Json.isNull_iff.mp hv] at hvalue
        exact absurd hvalue (hnull key (by
          simp only [List.mem_cons, List.not_mem_nil, or_false] at hkey ⊢
          exact hkey.elim Or.inl fun hk => Or.inr (Or.inl hk)))
      · exact ⟨names, rfl⟩
  obtain ⟨required, hrequired⟩ := hlist "required" (by simp)
  obtain ⟨nullForbidden, hforbidden⟩ := hlist "null_forbidden" (by simp)
  simp only [LocalValidator.rules, List.forall_mem_cons, List.not_mem_nil, false_imp_iff,
    implies_true, and_true, LocalValidator.runRule, extractParams_eq h.isObj hprops,
    String.reduceEq, if_true, if_false, declaring_obj, Except.bind, hrequired, hforbidden,
    fieldPresence_returns, nullGuard_returns, typeMatch_returns h.property,
    enumValues_returns h.property, regexPattern_returns h.property, true_and,
    rangeCheck_returns_iff h.property]

/-- **When the native evaluator returns**: on an admitted schema and an
object, exactly where none of the three clauses it iterates over is null
and the bounds it reports can be printed. -/
theorem validate_returns_iff {schema payload : Json} (mode : ContractAdmissionMode)
    {enforcedKeywords : List String} {capability : Option SemanticCapability}
    (h : (admitContract schema mode enforcedKeywords capability).admitted = true)
    (hpayload : payload.isObj = true) :
    Returns (LocalValidator.validate payload schema) ↔
      (∀ key ∈ ["required", "null_forbidden", "properties"], schema.get? key ≠ some .null) ∧
        ∀ name spec value, (name, spec) ∈ propertiesOf schema → payload.get? name = some value →
          PrintableBounds spec value := by
  have hgrammar := (admissible_of_admitted h).toGrammarAdmissible
  have hvalidate : Returns (LocalValidator.validate payload schema) ↔
      ∀ rule ∈ LocalValidator.rules, Returns (LocalValidator.runRule payload schema rule) := by
    simp only [LocalValidator.validate, hpayload, Bool.not_true, Bool.false_eq_true, if_false,
      returns_map, collect_returns_iff]
  rw [hvalidate]
  constructor
  · intro hrules
    have hnull : ∀ key ∈ ["required", "null_forbidden", "properties"],
        schema.get? key ≠ some .null := by
      intro key hkey hget
      obtain ⟨rule, hrule, hraises⟩ := exists_rule_raises hgrammar.isObj hkey hget
      exact hraises (hrules rule hrule)
    exact ⟨hnull, (rules_return_iff hgrammar hnull).mp hrules⟩
  · rintro ⟨hnull, hbounds⟩
    exact (rules_return_iff hgrammar hnull).mpr hbounds

end Host

/-- A required number with a lower bound. -/
def boundedNumber : Json :=
  .obj [("required", .arr [.str "n"]), ("properties", .obj [("n", .obj [("minimum", .int 5)])])]

theorem validate_returns_boundedNumber :
    Returns (@LocalValidator.validate Host.literal (.obj [("n", .int 3)]) boundedNumber) := by
  let _ := Host.literal
  have hadmitted : (admitContract boundedNumber .strict nativeEnforcedKeywords none).admitted =
      true := by decide +kernel
  refine (validate_returns_iff .strict hadmitted rfl).mpr
    ⟨by decide, fun name spec value hmem hget => ?_⟩
  obtain ⟨rfl, rfl⟩ := Prod.mk.inj (List.mem_singleton.mp hmem)
  refine ⟨fun b hb _ => ?_, fun b hb _ _ => ?_⟩
  · obtain rfl : Json.int 5 = b := Option.some.inj hb
    decide +kernel
  · cases show none = some b from hb

/-- **A null is admitted in place of each of the three, and the rule that
reads it raises**; so does a rule that reports a bound of 4301 digits. -/
theorem validate_raises :
    (∀ schema ∈ [Json.obj [("required", .null)], .obj [("null_forbidden", .null)],
        .obj [("properties", .null)]], ∀ mode,
      (@admitContract Host.literal schema mode nativeEnforcedKeywords none).admitted = true ∧
        ¬ Returns (@LocalValidator.validate Host.literal (.obj []) schema)) ∧
      let schema := Json.obj [("properties", .obj [("n", .obj [("minimum", .int (10 ^ 4300))])])]
      (∀ mode, (@admitContract Host.literal schema mode nativeEnforcedKeywords none).admitted =
          true) ∧
        ¬ Returns (@LocalValidator.validate Host.literal (.obj [("n", .int 3)]) schema) := by
  refine ⟨fun schema hschema mode => ⟨?_, ?_⟩, fun mode => ?_, by decide +kernel⟩
  · revert schema
    rcases mode with _ | _
    · decide +kernel
    · decide +kernel
  · revert schema
    decide +kernel
  · rcases mode with _ | _
    · decide +kernel
    · decide +kernel

end Congine
