import Congine.Domain.AdmissionVerdict
/-!
# Coverage

Whether every clause of an admitted schema is one that some evaluator
executes. A clause is a key at a level, the scan names it by a dotted
string, and the coverage check compares the last segment of that string
with one flat set; what the three scanners miss between them is stated
here as the exact condition under which an admitted schema is covered.
The last section says when the cap on findings decides a verdict.
-/

namespace Congine

/-! ## Clauses and findings -/

/-- A clause the native rules execute: a key of the root or of an entry of
`properties`, with a `type` in a form they can evaluate. -/
def NativeClause (p : Position) (key : String) (value : Json) : Prop :=
  (p = [] ∧ (key ∈ enforcedTopLevelKeywords ∨ key = "type" ∧ value = .str "object")) ∨
  ∃ name, p = [.key "properties", .key name] ∧ key ∈ enforcedPropertyKeywords ∧
    (key = "type" → typeIsEnforceable value = true)

/-- What the scan finds at a key, by the position of the node it stands in. -/
def findingAt : Position → String → Json → Option String
  | [], key, value => rootFinding key value
  | [.key "properties", .key name], key, value => propertyFinding name key value
  | _, _, _ => none

theorem Json.eq_str {j : Json} {s : String} : j.eq (.str s) = true ↔ j = .str s := by
  cases j <;> simp [Json.eq, Json.number?]

/-- The scan passes over a key of the root exactly where it is
documentation or a native clause. -/
theorem rootFinding_eq_none {key : String} {value : Json} :
    rootFinding key value = none ↔
      key ∈ ignorableMetadataKeywords ∨ NativeClause [] key value := by
  have htype : ("type" : String) ∉ enforcedTopLevelKeywords := by decide
  have hmeta : ("type" : String) ∉ ignorableMetadataKeywords := by decide
  unfold rootFinding NativeClause
  split
  · next h => rcases h with h | h <;> simp [h]
  · next h =>
    obtain ⟨htop, hmet⟩ := not_or.mp h
    split
    · next hk =>
      subst hk
      split
      · next hobj => simp [Json.eq_str.mp hobj]
      · next hobj =>
        have : value ≠ .str "object" := fun heq => hobj (Json.eq_str.mpr heq)
        simp [htype, hmeta, this]
    · next hk => simp [htop, hmet, hk]

/-- And over a key of a property likewise. -/
theorem propertyFinding_eq_none {name key : String} {value : Json} :
    propertyFinding name key value = none ↔
      key ∈ ignorableMetadataKeywords ∨
        NativeClause [.key "properties", .key name] key value := by
  have htype : ("type" : String) ∈ enforcedPropertyKeywords := by decide
  have hmeta : ("type" : String) ∉ ignorableMetadataKeywords := by decide
  unfold propertyFinding NativeClause
  split
  · next h => simp [h]
  · next hmet =>
    split
    · next hk =>
      subst hk
      split <;> simp_all
    · next hk => split <;> simp_all

/-! ## Native coverage -/

/-- Nothing is declared that the native rules leave unchecked. -/
structure NativelyCovered (schema : Json) : Prop where
  root : ∀ key value, (key, value) ∈ schema.fields →
    key ∈ ignorableMetadataKeywords ∨ NativeClause [] key value
  property : ∀ name spec, (name, spec) ∈ propertiesOf schema →
    ∀ key value, (key, value) ∈ spec.fields → key ∈ ignorableMetadataKeywords ∨
      NativeClause [.key "properties", .key name] key value

/-- **The scan is exact**: it finds nothing where everything is native. -/
theorem nativelyCovered_iff {schema : Json} :
    NativelyCovered schema ↔ findings schema = [] := by
  simp only [findings_eq_nil, rootFinding_eq_none, propertyFinding_eq_none]
  exact ⟨fun ⟨hr, hp⟩ => ⟨hr, fun name spec key value hn => hp name spec hn key value⟩,
    fun ⟨hr, hp⟩ => ⟨hr, fun name spec hn key value => hp name spec key value hn⟩⟩

/-- **When a natively admitted schema is covered**: exactly when none of
its findings is one the coverage check forgives. The forgiven ones are
those whose last dotted segment is a keyword native rules execute, on
whatever level, and those whose property name begins with the scanner's
own marker. -/
theorem nativelyCovered_of_admitted [Host] {schema : Json} (mode : ContractAdmissionMode)
    (h : (admitContract schema mode nativeEnforcedKeywords none).admitted = true) :
    NativelyCovered schema ↔
      ∀ path ∈ findings schema, forgiven nativeEnforcedKeywords path = false := by
  rw [nativelyCovered_iff]
  constructor
  · intro hnil path hpath
    rw [hnil] at hpath
    exact absurd hpath List.not_mem_nil
  · intro hnone
    -- A report of something is not empty, and admission forgave all of it.
    by_contra hne
    obtain ⟨path, hpath, hrep⟩ := exists_mem_capReported (show 0 < maxReported by decide)
      (fun h => hne (Text.sortedSet_eq_nil.mp h))
    have := (admissible_of_admitted h).keywords path hrep
    rw [hnone path (Text.mem_sortedSet.mp hpath)] at this
    exact absurd this (by decide)

theorem nativelyCovered_of_admitted_profile :
    NativelyCovered (.obj [("required", .arr [.str "age"]), ("properties",
      .obj [("age", .obj [("type", .str "integer"), ("minimum", .int 0)])])]) :=
  let _ := Host.literal
  (nativelyCovered_of_admitted .strict (by decide +kernel)).mpr (by decide)

/-- A root `type` other than "object" is found, forgiven as a `type`, and
judged by nobody. -/
theorem admitted_not_nativelyCovered :
    (@admitContract Host.literal (.obj [("type", .str "array")]) .strict nativeEnforcedKeywords
      none).admitted = true ∧ ¬ NativelyCovered (.obj [("type", .str "array")]) := by
  refine ⟨by decide +kernel, fun h => ?_⟩
  rw [nativelyCovered_iff] at h
  exact absurd h (by decide)

/-! ## Coverage under a semantic capability -/

/-- A keyword some wired evaluator claims where it stands. -/
def Claimed (capability : SemanticCapability) (p : Position) (node : Json) (key : String)
    (value : Json) : Prop :=
  key ∈ ignorableMetadataKeywords ∨ capability.enforces key = true ∨
    (key ∈ exclusiveBounds ∧ capability.enforcesExclusiveBound key value node = true) ∨
    NativeClause p key value

/-- Nothing at a walked position is left unclaimed. -/
def SemanticallyCovered (capability : SemanticCapability) (schema : Json) : Prop :=
  ∀ p node, Visited schema p node → ∀ key value, (key, value) ∈ node.fields →
    Claimed capability p node key value

/-- The two levels the keyword scan looks at. -/
def Scanned (p : Position) : Prop := p = [] ∨ ∃ name, p = [.key "properties", .key name]

/-- What stands unclaimed at a scanned position is a finding. -/
theorem exists_finding_of_not_claimed {capability : SemanticCapability} {schema node : Json}
    {p : Position} (hv : Visited schema p node) (hp : Scanned p) {key : String} {value : Json}
    (hmem : (key, value) ∈ node.fields) (hc : ¬ Claimed capability p node key value) :
    ∃ path, findingAt p key value = some path ∧ path ∈ findings schema := by
  simp only [Claimed, not_or] at hc
  obtain ⟨hmeta, -, -, hnative⟩ := hc
  rcases hp with rfl | ⟨name, rfl⟩
  · rw [hv.eq_root] at hmem
    obtain ⟨path, hpath⟩ := Option.ne_none_iff_exists'.mp
      (mt rootFinding_eq_none.mp (not_or.mpr ⟨hmeta, hnative⟩))
    exact ⟨path, hpath, mem_findings.mpr (.inl ⟨key, value, hmem, hpath⟩)⟩
  · obtain ⟨path, hpath⟩ := Option.ne_none_iff_exists'.mp
      (mt propertyFinding_eq_none.mp (not_or.mpr ⟨hmeta, hnative⟩))
    exact ⟨path, hpath, mem_findings.mpr
      (.inr ⟨name, node, key, value, hv.mem_propertiesOf, hmem, hpath⟩)⟩

/-- What the 2020-12 adapter reports when formats are not asserted. -/
def SemanticCapability.draft202012 : SemanticCapability where
  draft := "draft202012"
  enforcedKeywords :=
    ["$defs", "$dynamicRef", "$ref", "additionalProperties", "allOf", "anyOf", "const",
      "contains", "definitions", "dependentRequired", "dependentSchemas", "else", "enum",
      "exclusiveMaximum", "exclusiveMinimum", "if", "items", "maxContains", "maxItems",
      "maxLength", "maxProperties", "maximum", "minContains", "minItems", "minLength",
      "minProperties", "minimum", "multipleOf", "not", "oneOf", "pattern",
      "patternProperties", "prefixItems", "properties", "propertyNames", "required", "then",
      "type", "unevaluatedItems", "unevaluatedProperties", "uniqueItems"]

/-- **When an admitted schema is covered at every depth**: exactly when
nothing below the scanned levels is unclaimed, and what is unclaimed on
them has a path that does not sort past the cap and is not forgiven for
its last segment. -/
theorem semanticallyCovered_of_admitted [Host] {schema : Json} (mode : ContractAdmissionMode)
    {capability : SemanticCapability}
    (h : (admitContract schema mode (nativeEnforcedKeywords ++ capability.enforcedKeywords)
      (some capability)).admitted = true) :
    SemanticallyCovered capability schema ↔
      (∀ p node, Visited schema p node → ¬ Scanned p → ∀ key value,
        (key, value) ∈ node.fields → Claimed capability p node key value) ∧
      ∀ p node, Visited schema p node → ∀ key value, (key, value) ∈ node.fields →
        ¬ Claimed capability p node key value → ∀ path, findingAt p key value = some path →
          path ∉ (Text.sortedSet (findings schema)).drop maxReported ∧
            forgiven (nativeEnforcedKeywords ++ capability.enforcedKeywords) path = false := by
  constructor
  · intro hall
    exact ⟨fun p node hv _ => hall p node hv,
      fun p node hv key value hmem hc => absurd (hall p node hv key value hmem) hc⟩
  · rintro ⟨hdeep, hscan⟩ p node hv key value hmem
    by_cases hp : Scanned p
    · by_contra hc
      obtain ⟨path, hpath, hfound⟩ := exists_finding_of_not_claimed hv hp hmem hc
      obtain ⟨hdrop, hnot⟩ := hscan p node hv key value hmem hc path hpath
      -- A finding the cap leaves is one admission had to forgive.
      have htake : path ∈ (Text.sortedSet (findings schema)).take maxReported := by
        have hsorted := Text.mem_sortedSet.mpr hfound
        rw [← List.take_append_drop maxReported (Text.sortedSet _)] at hsorted
        exact (List.mem_append.mp hsorted).resolve_right hdrop
      have hdots : Text.startsWith "..." path = false := (Bool.or_eq_false_iff.mp hnot).1
      have := (admissible_of_admitted h).keywords path ((mem_capReported hdots).mpr htake)
      rw [hnot] at this
      exact absurd this (by decide)
    · exact hdeep p node hv hp key value hmem

/-- A list of nonempty strings, constrained one level below a property. -/
def nestedMinLength : Json :=
  .obj [("properties", .obj [("tags", .obj [("items", .obj [("minLength", .int 1)])])])]

theorem semanticallyCovered_nestedMinLength :
    SemanticallyCovered .draft202012 nestedMinLength := by
  have hclaimed : ∀ p node, Visited nestedMinLength p node → ∀ key value,
      (key, value) ∈ node.fields →
        SemanticCapability.draft202012.enforces key = true := by
    have hall : ∀ v ∈ subschemas nestedMinLength, ∀ f ∈ v.2.fields,
        SemanticCapability.draft202012.enforces f.1 = true := by decide +kernel
    exact fun p node hv key value hmem => hall _ (mem_subschemas.mpr hv) _ hmem
  let _ := Host.literal
  refine (semanticallyCovered_of_admitted .strict (by decide +kernel)).mpr ⟨?_, ?_⟩
  · intro p node hv _ key value hmem
    exact .inr (.inl (hclaimed p node hv key value hmem))
  · intro p node hv key value hmem hc
    exact absurd (.inr (.inl (hclaimed p node hv key value hmem))) hc

/-- A keyword of no dialect, one level below a property. -/
def nestedUnknown : Json :=
  .obj [("properties", .obj [("tags", .obj [("items", .obj [("frobnicate", .int 1)])])])]

/-- Nested one level deeper than the scan looks, any keyword is admitted. -/
theorem admitted_not_semanticallyCovered :
    (@admitContract Host.literal nestedUnknown .strict
      (nativeEnforcedKeywords ++ SemanticCapability.draft202012.enforcedKeywords)
      (some .draft202012)).admitted = true ∧
    ¬ SemanticallyCovered .draft202012 nestedUnknown := by
  refine ⟨by decide +kernel, fun h => ?_⟩
  have hsite : Visited nestedUnknown
      [.key "properties", .key "tags", .key "items"] (.obj [("frobnicate", .int 1)]) :=
    mem_subschemas.mp (by decide +kernel)
  rcases h _ _ hsite "frobnicate" (.int 1) List.mem_cons_self with h | h | ⟨h, -⟩ | h
  · exact absurd h (by decide)
  · exact absurd h (by decide)
  · exact absurd h (by decide)
  · simp [NativeClause] at h

/-! ## The reporting caps -/

/-- The check forgives what the cap leaves exactly where it forgives the
findings before the cap. -/
theorem forgives_capped_iff {cap : ℕ} {schema : Json} {enforcedKeywords : List String} :
    (∀ path ∈ findUnenforcedKeywordsUpTo (some cap) schema,
        forgiven enforcedKeywords path = true) ↔
      ∀ path ∈ (Text.sortedSet (findings schema)).take cap,
        forgiven enforcedKeywords path = true := by
  refine forall_congr' fun path => ?_
  by_cases hdots : Text.startsWith "..." path = true
  · simp [forgiven, hdots]
  · rw [findUnenforcedKeywordsUpTo, mem_capReported (by simpa using hdots)]

/-- **When the caps leave the verdict alone**: exactly when, on a schema
all other checks pass, an unforgiven finding means an unforgiven one among
the first twenty. The cap on issues never matters. -/
theorem admitted_eq_uncapped_iff [Host] (schema : Json) (mode : ContractAdmissionMode)
    (enforcedKeywords : List String) (capability : Option SemanticCapability) :
    (admitContract schema mode enforcedKeywords capability).admitted =
        (admitContractWith .off schema mode enforcedKeywords capability).admitted ↔
      (GrammarAdmissible schema enforcedKeywords capability →
        (∃ path ∈ findings schema, forgiven enforcedKeywords path = false) →
        ∃ path ∈ (Text.sortedSet (findings schema)).take maxReported,
          forgiven enforcedKeywords path = false) := by
  have hcapped : (admitContract schema mode enforcedKeywords capability).admitted = true ↔
      GrammarAdmissible schema enforcedKeywords capability ∧
        ∀ path ∈ (Text.sortedSet (findings schema)).take maxReported,
          forgiven enforcedKeywords path = true := by
    rw [admitContract, admitted_iff_admissible (by decide), ← forgives_capped_iff]
    exact ⟨fun h => ⟨h.toGrammarAdmissible, h.keywords⟩, fun h => ⟨h.1, h.2⟩⟩
  have hoff : (admitContractWith .off schema mode enforcedKeywords capability).admitted = true ↔
      GrammarAdmissible schema enforcedKeywords capability ∧
        ∀ path ∈ findings schema, forgiven enforcedKeywords path = true := by
    rw [admitted_iff_admissible (by decide)]
    have hmem : ∀ path, path ∈ findUnenforcedKeywordsUpTo none schema ↔ path ∈ findings schema :=
      fun path => Text.mem_sortedSet
    exact ⟨fun h => ⟨h.toGrammarAdmissible, fun path hp => h.keywords path ((hmem path).mpr hp)⟩,
      fun h => ⟨h.1, fun path hp => h.2 path ((hmem path).mp hp)⟩⟩
  rw [Bool.eq_iff_iff, hcapped, hoff]
  constructor
  · rintro h hg ⟨path, hpath, hbad⟩
    -- Otherwise the cap would have hidden `path` and let the schema through.
    by_contra hnone
    have htake : ∀ path ∈ (Text.sortedSet (findings schema)).take maxReported,
        forgiven enforcedKeywords path = true := by
      intro q hq
      by_contra hf
      exact hnone ⟨q, hq, by simpa using hf⟩
    have := (h.mp ⟨hg, htake⟩).2 path hpath
    rw [hbad] at this
    exact absurd this (by decide)
  · intro h
    constructor
    · rintro ⟨hg, htake⟩
      refine ⟨hg, fun path hpath => ?_⟩
      by_contra hf
      obtain ⟨q, hq, hbad⟩ := h hg ⟨path, hpath, by simpa using hf⟩
      rw [htake q hq] at hbad
      exact absurd hbad (by decide)
    · rintro ⟨hg, hall⟩
      exact ⟨hg, fun path hpath =>
        hall path (Text.mem_sortedSet.mp (List.mem_of_mem_take hpath))⟩

/-- Twenty properties whose one finding the adapter enforces sort ahead of
one with a keyword nobody knows. -/
def hiddenUnknown : Json :=
  .obj [("properties", .obj
    (["a", "b", "c", "d", "e", "f", "g", "h", "i", "j", "k", "l", "m", "n", "o", "p", "q", "r",
      "s", "t"].map (fun name => (name, Json.obj [("minLength", .int 1)])) ++
      [("z", .obj [("frobnicate", .int 1)])]))]

theorem admitted_ne_uncapped :
    (@admitContract Host.literal hiddenUnknown .strict
      (nativeEnforcedKeywords ++ SemanticCapability.draft202012.enforcedKeywords)
      (some .draft202012)).admitted = true ∧
    (@admitContractWith Host.literal .off hiddenUnknown .strict
      (nativeEnforcedKeywords ++ SemanticCapability.draft202012.enforcedKeywords)
      (some .draft202012)).admitted = false := by
  decide +kernel

end Congine
