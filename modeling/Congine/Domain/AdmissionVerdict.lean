import Congine.Domain.Admission
/-!
# What an admitted schema has passed

The verdict says "no issue blocks", and each check is silent exactly
where its clause of the grammar holds. Neither the order of the checks
nor the issue cap enters: every issue of a check blocks, and the only
advisory comes last.
-/

namespace Congine

/-! ## Errors and advisories -/

/-- All issues of a list are errors. -/
def AllBlocking (issues : List ContractAdmissionIssue) : Prop :=
  ∀ issue ∈ issues, issue.level = .error

theorem AllBlocking.nil : AllBlocking [] := fun _ h => absurd h List.not_mem_nil

theorem AllBlocking.singleton {issue : ContractAdmissionIssue} (h : issue.level = .error) :
    AllBlocking [issue] := by
  intro i hi
  rw [List.mem_singleton.mp hi]
  exact h

theorem AllBlocking.append {xs ys : List ContractAdmissionIssue} (hx : AllBlocking xs)
    (hy : AllBlocking ys) : AllBlocking (xs ++ ys) := by
  intro i hi
  rcases List.mem_append.mp hi with h | h
  · exact hx i h
  · exact hy i h

theorem AllBlocking.flatMap {α : Type*} {xs : List α} {f : α → List ContractAdmissionIssue}
    (h : ∀ x, AllBlocking (f x)) : AllBlocking (xs.flatMap f) := by
  intro i hi
  obtain ⟨x, -, hx⟩ := List.mem_flatMap.mp hi
  exact h x i hx

theorem AllBlocking.checkAt {spec : Json} {key : String}
    {check : Json → List ContractAdmissionIssue} (h : ∀ value, AllBlocking (check value)) :
    AllBlocking (Congine.checkAt spec key check) := by
  rw [Congine.checkAt]
  cases spec.get? key with
  | none => exact .nil
  | some value => exact h value

/-- A list of errors followed by warnings holds an error among its first
entries exactly when there is an error at all. -/
theorem any_error_take {errors warnings : List ContractAdmissionIssue} (he : AllBlocking errors)
    (hw : ∀ issue ∈ warnings, issue.level = .warning) {n : ℕ} (hn : 0 < n) :
    ((errors ++ warnings).take n).any (·.level = .error) = false ↔ errors = [] := by
  cases errors with
  | nil =>
    refine ⟨fun _ => rfl, fun _ => List.any_eq_false.mpr fun i hi => ?_⟩
    simp [hw i (List.mem_of_mem_take hi)]
  | cons e es =>
    obtain ⟨n, rfl⟩ : ∃ m, n = m + 1 := ⟨n - 1, by omega⟩
    simp [he e List.mem_cons_self]

theorem addLegacyAdvisories_warning (schema : Json) :
    ∀ issue ∈ addLegacyAdvisories schema, issue.level = .warning := by
  unfold addLegacyAdvisories
  split
  · intro i hi
    rw [List.mem_singleton.mp hi]
  · intro i hi
    exact absurd hi List.not_mem_nil

/-! ## What the checks without a regex pass -/

theorem checkAt_eq_nil {spec : Json} {key : String}
    {check : Json → List ContractAdmissionIssue} :
    checkAt spec key check = [] ↔ ∀ value, spec.get? key = some value → check value = [] := by
  unfold checkAt
  cases spec.get? key <;> simp

theorem checkEnum_eq_nil {fieldName : String} {allowed : Json} :
    checkEnum fieldName allowed = [] ↔ allowed.kind = .list := by
  unfold checkEnum
  split
  · simp [Json.kind]
  · next h => cases allowed <;> simp_all [Json.kind]

theorem checkRange_eq_nil {fieldName : String} {spec : Json} :
    checkRange fieldName spec = [] ↔ ∀ key ∈ ["min", "max", "minimum", "maximum"], ∀ value,
      spec.get? key = some value → value.kind = .int ∨ value.kind = .float := by
  unfold checkRange
  rw [List.flatMap_eq_nil_iff]
  refine forall_congr' fun key => forall_congr' fun _ => ?_
  split
  · simp_all
  · simp_all [Json.kind]
  · simp_all [Json.kind]
  · next value hint hfloat hget =>
    simp only [List.cons_ne_nil, false_iff]
    intro h
    have := h value hget
    cases value <;> simp_all [Json.kind]

/-- The names of a list of strings. -/
def namesOf (entries : List Json) : List String :=
  entries.filterMap fun entry =>
    match entry with
    | .str s => some s
    | _ => none

theorem map_str_namesOf {entries : List Json} (h : ∀ entry ∈ entries, entry.kind = .str) :
    (namesOf entries).map .str = entries := by
  induction entries with
  | nil => rfl
  | cons entry entries ih =>
    obtain ⟨s, rfl⟩ : ∃ s, entry = .str s := by
      have := h entry List.mem_cons_self
      cases entry <;> simp_all [Json.kind]
    have := ih fun e he => h e (List.mem_cons_of_mem _ he)
    simpa [namesOf] using this

theorem checkTopLevelLists_eq_nil {schema : Json} :
    checkTopLevelLists schema = [] ↔ ∀ key ∈ ["required", "null_forbidden"], ∀ value,
      schema.get? key = some value → value.isNull ∨
        ∃ names : List String, value = .arr (names.map .str) := by
  unfold checkTopLevelLists
  rw [List.flatMap_eq_nil_iff]
  refine forall_congr' fun key => forall_congr' fun _ => ?_
  split
  · next h => simp [h]
  · next h => simp [h, Json.isNull]
  · next entries h =>
    simp only [List.filterMap_eq_nil_iff, h, Option.some.injEq, forall_eq', Json.isNull,
      Bool.false_eq_true, false_or, Json.arr.injEq]
    constructor
    · intro hall
      refine ⟨namesOf entries, (map_str_namesOf fun entry hentry => ?_).symm⟩
      have := hall entry hentry
      split at this
      · rfl
      · cases this
    · rintro ⟨names, rfl⟩ entry hentry
      obtain ⟨name, -, rfl⟩ := List.mem_map.mp hentry
      rfl
  · next value hnull harr hget =>
    simp only [List.cons_ne_nil, false_iff]
    intro h
    rcases h value hget with h | ⟨names, rfl⟩
    · cases value <;> simp_all [Json.isNull]
    · exact harr _ rfl

theorem checkUnsupportedKeywords_eq_nil {cap : Option ℕ} {schema : Json}
    {enforcedKeywords : List String} :
    checkUnsupportedKeywords cap schema enforcedKeywords = [] ↔
      ∀ path ∈ findUnenforcedKeywordsUpTo cap schema, forgiven enforcedKeywords path = true := by
  simp [checkUnsupportedKeywords, List.filterMap_eq_nil_iff]

/-- A check made at every walked node is silent when it is at each visited
one, under the path the position renders to. -/
theorem flatMap_walkSubschemas_eq_nil {schema : Json}
    {check : String × Json → List ContractAdmissionIssue} :
    (walkSubschemas schema rootPath).flatMap check = [] ↔
      ∀ p node, Visited schema p node → check (rootPath ++ renderSteps p, node) = [] := by
  simp only [List.flatMap_eq_nil_iff, Prod.forall, mem_walkSubschemas, mem_subschemas]
  constructor
  · exact fun h p node hv => h _ node ⟨p, hv, rfl⟩
  · rintro h _ node ⟨p, hv, rfl⟩
    exact h p node hv

theorem checkExclusiveBounds_eq_nil {schema : Json} {capability : SemanticCapability} :
    checkExclusiveBounds schema capability = [] ↔
      ∀ p node, Visited schema p node → ∀ keyword ∈ exclusiveBounds, ∀ value,
        node.get? keyword = some value →
          capability.enforcesExclusiveBound keyword value node = true := by
  rw [checkExclusiveBounds, flatMap_walkSubschemas_eq_nil]
  simp only [List.flatMap_eq_nil_iff, checkAt_eq_nil, ite_eq_left_iff, List.cons_ne_nil,
    imp_false, not_not]

/-! ## Every check blocks -/

theorem allBlocking_checkUnsupportedKeywords (cap : Option ℕ) (schema : Json)
    (enforcedKeywords : List String) :
    AllBlocking (checkUnsupportedKeywords cap schema enforcedKeywords) := by
  intro i hi
  obtain ⟨path, -, hpath⟩ := List.mem_filterMap.mp hi
  split at hpath
  · cases hpath
  · rw [← Option.some.inj hpath]

theorem allBlocking_checkTopLevelLists (schema : Json) :
    AllBlocking (checkTopLevelLists schema) := by
  refine .flatMap fun key => ?_
  split
  · exact .nil
  · exact .nil
  · intro i hi
    obtain ⟨entry, -, hentry⟩ := List.mem_filterMap.mp hi
    split at hentry
    · cases hentry
    · rw [← Option.some.inj hentry]
  · exact .singleton rfl

theorem allBlocking_checkEnum (fieldName : String) (allowed : Json) :
    AllBlocking (checkEnum fieldName allowed) := by
  unfold checkEnum
  split
  · exact .nil
  · exact .singleton rfl

theorem allBlocking_checkRange (fieldName : String) (spec : Json) :
    AllBlocking (checkRange fieldName spec) := by
  refine .flatMap fun key => ?_
  split
  · exact .nil
  · exact .nil
  · exact .nil
  · exact .singleton rfl

theorem allBlocking_checkExclusiveBounds (schema : Json) (capability : SemanticCapability) :
    AllBlocking (checkExclusiveBounds schema capability) := by
  refine .flatMap fun (path, node) => .flatMap fun keyword => .checkAt fun value => ?_
  split
  · exact .nil
  · exact .singleton rfl

section Host

variable [Host]

theorem allBlocking_checkType (fieldName : String) (declared : Json) :
    AllBlocking (checkType fieldName declared) := by
  unfold checkType
  split
  · exact .singleton rfl
  · split
    · exact .nil
    · exact .singleton rfl

theorem allBlocking_checkPattern (fieldName : String) (pattern : Json) :
    AllBlocking (checkPattern fieldName pattern) := by
  unfold checkPattern
  split
  · split
    · exact .singleton rfl
    · split
      · exact .nil
      · exact .singleton rfl
  · exact .singleton rfl

theorem allBlocking_checkProperties (schema : Json) : AllBlocking (checkProperties schema) := by
  unfold checkProperties
  split
  · exact .nil
  · exact .nil
  · refine .flatMap fun (fieldName, spec) => ?_
    dsimp only
    unfold checkProperty
    split
    · exact .singleton rfl
    · split
      · exact .singleton rfl
      · exact (((AllBlocking.checkAt (allBlocking_checkType fieldName)).append
          (.checkAt (allBlocking_checkPattern fieldName))).append
          (.checkAt (allBlocking_checkEnum fieldName))).append
          (allBlocking_checkRange fieldName spec)
  · exact .singleton rfl

theorem allBlocking_checkReferences (schema : Json) : AllBlocking (checkReferences schema) := by
  refine .flatMap fun (path, node) => .checkAt fun ref => ?_
  unfold checkReference
  split
  · exact .nil
  · split
    · exact .singleton rfl
    · split
      · exact .singleton rfl
      · split
        · exact .singleton rfl
        · exact .nil
  · exact .singleton rfl

theorem allBlocking_checkRegexValue (path : String) (pattern : Json) :
    AllBlocking (checkRegexValue path pattern) := by
  unfold checkRegexValue
  split
  · split
    · exact .singleton rfl
    · split
      · exact .nil
      · exact .singleton rfl
  · exact .singleton rfl

theorem allBlocking_checkNestedPatterns (schema : Json) :
    AllBlocking (checkNestedPatterns schema) := by
  refine .flatMap fun (path, node) => .append (.checkAt fun pattern => ?_) (.checkAt fun _ =>
    .flatMap fun _ => allBlocking_checkRegexValue _ _)
  split
  · exact .nil
  · exact allBlocking_checkRegexValue _ _

theorem allBlocking_checkFormats (schema : Json) (capability : SemanticCapability) :
    AllBlocking (checkFormats schema capability) := by
  refine .flatMap fun (path, node) => .checkAt fun name => ?_
  split
  · split
    · exact .nil
    · exact .singleton rfl
  · exact .nil

theorem allBlocking_blockingIssues (cap : Option ℕ) (schema : Json)
    (enforcedKeywords : List String) (capability : Option SemanticCapability) :
    AllBlocking (blockingIssues cap schema enforcedKeywords capability) := by
  refine ((((((allBlocking_checkTopLevelLists schema).append
    (allBlocking_checkProperties schema)).append
    (allBlocking_checkUnsupportedKeywords cap schema enforcedKeywords)).append
    (allBlocking_checkExclusiveBounds schema _)).append
    (allBlocking_checkReferences schema)).append
    (allBlocking_checkNestedPatterns schema)).append ?_
  split
  · exact allBlocking_checkFormats schema _
  · exact .nil

/-! ## The verdict -/

/-- **The verdict**: admitted is an object without a blocking issue,
whatever the mode and whatever positive cap is put on the issues. -/
theorem admitted_iff {caps : ReportingCaps} (hcaps : caps.issues ≠ some 0) (schema : Json)
    (mode : ContractAdmissionMode) (enforcedKeywords : List String)
    (capability : Option SemanticCapability) :
    (admitContractWith caps schema mode enforcedKeywords capability).admitted = true ↔
      schema.isObj = true ∧
        blockingIssues caps.reported schema enforcedKeywords capability = [] := by
  unfold admitContractWith
  by_cases hobj : schema.isObj = true
  swap
  · simp [hobj]
  have hb := allBlocking_blockingIssues caps.reported schema enforcedKeywords capability
  -- What the mode adds are warnings, which the verdict does not count.
  have hw : ∀ issue ∈ (if mode = .warn then addLegacyAdvisories schema else []),
      issue.level = .warning := by
    split
    · exact addLegacyAdvisories_warning schema
    · exact fun _ h => absurd h List.not_mem_nil
  simp only [hobj, Bool.not_true, Bool.false_eq_true, if_false, Bool.not_eq_true', true_and]
  cases hc : caps.issues with
  | some n => exact any_error_take hb hw (by rw [hc] at hcaps; simp at hcaps; omega)
  | none =>
    -- Without a cap nothing is dropped, which is a cap of the whole length.
    have h := any_error_take hb hw (Nat.succ_pos (blockingIssues caps.reported schema
      enforcedKeywords capability ++ (if mode = .warn then addLegacyAdvisories schema
      else [])).length)
    rwa [List.take_of_length_le (Nat.le_succ _)] at h

/-- Admission reads the mode for its advisories only. -/
theorem admitted_mode (caps : ReportingCaps) (hcaps : caps.issues ≠ some 0) (schema : Json)
    (mode mode' : ContractAdmissionMode) (enforcedKeywords : List String)
    (capability : Option SemanticCapability) :
    (admitContractWith caps schema mode enforcedKeywords capability).admitted =
      (admitContractWith caps schema mode' enforcedKeywords capability).admitted := by
  rw [Bool.eq_iff_iff, admitted_iff hcaps, admitted_iff hcaps]

/-! ## What each check passes -/

/-- A regex the engine can run within its budget. -/
def RegexAdmissible (pattern : Json) : Prop :=
  ∃ s, pattern = .str s ∧ s.length ≤ maxPatternLength ∧ Host.re2Compile s = .ok ()

/-- Both pattern checks come to this: text, within the budget, that
compiles. -/
theorem regexCheck_eq_nil (tooLong : String → ContractAdmissionIssue)
    (refused : String → Exc → ContractAdmissionIssue) (notText : Json → ContractAdmissionIssue)
    (pattern : Json) :
    (match pattern with
      | .str s =>
          if maxPatternLength < s.length then [tooLong s]
          else
            match Host.re2Compile s with
            | .ok _ => []
            | .error exc => [refused s exc]
      | pattern => [notText pattern]) = [] ↔ RegexAdmissible pattern := by
  unfold RegexAdmissible
  split
  · next s =>
    simp only [Json.str.injEq, exists_eq_left']
    split
    · next h => simp [Nat.not_le.mpr h]
    · next h => split <;> simp_all
  · next h => simpa using fun s hs => absurd hs (h s)

theorem checkPattern_eq_nil {fieldName : String} {pattern : Json} :
    checkPattern fieldName pattern = [] ↔ RegexAdmissible pattern :=
  regexCheck_eq_nil _ _ _ pattern

theorem checkRegexValue_eq_nil {path : String} {pattern : Json} :
    checkRegexValue path pattern = [] ↔ RegexAdmissible pattern :=
  regexCheck_eq_nil _ _ _ pattern

theorem checkType_eq_nil {fieldName : String} {declared : Json} :
    checkType fieldName declared = [] ↔ typeIsEnforceable declared = true := by
  unfold checkType
  split
  · simp [typeIsEnforceable]
  · split <;> simp_all

/-- The constraints of one property are in the admitted grammar. -/
structure PropertyAdmissible (fieldName : String) (spec : Json) : Prop where
  flat : '.' ∉ fieldName.toList
  isObj : spec.isObj = true
  type : ∀ value, spec.get? "type" = some value → typeIsEnforceable value = true
  pattern : ∀ value, spec.get? "pattern" = some value → RegexAdmissible value
  enum : ∀ value, spec.get? "enum" = some value → value.kind = .list
  range : ∀ key ∈ ["min", "max", "minimum", "maximum"], ∀ value, spec.get? key = some value →
    value.kind = .int ∨ value.kind = .float

theorem checkProperty_eq_nil {fieldName : String} {spec : Json} :
    checkProperty fieldName spec = [] ↔ PropertyAdmissible fieldName spec := by
  unfold checkProperty
  split
  · next h => exact ⟨fun h' => absurd h' (List.cons_ne_nil _ _), fun h' => absurd h h'.flat⟩
  · next hflat =>
    split
    · next h => exact ⟨fun h' => absurd h' (List.cons_ne_nil _ _),
        fun h' => by simp [h'.isObj] at h⟩
    · next hobj =>
      simp only [List.append_eq_nil_iff, checkAt_eq_nil, checkType_eq_nil, checkPattern_eq_nil,
        checkEnum_eq_nil, checkRange_eq_nil]
      constructor
      · rintro ⟨⟨⟨ht, hp⟩, he⟩, hr⟩
        exact ⟨hflat, by simpa using hobj, ht, hp, he, hr⟩
      · rintro ⟨-, -, ht, hp, he, hr⟩
        exact ⟨⟨⟨ht, hp⟩, he⟩, hr⟩

theorem checkProperties_eq_nil {schema : Json} :
    checkProperties schema = [] ↔
      (∀ value, schema.get? "properties" = some value → value.isNull ∨ value.isObj) ∧
      ∀ fieldName spec, (fieldName, spec) ∈ propertiesOf schema →
        PropertyAdmissible fieldName spec := by
  unfold checkProperties propertiesOf
  split
  · next h => simp [h, Json.fields]
  · next h => simp [h, Json.isNull, Json.fields]
  · next h => simp [h, Json.isObj, List.flatMap_eq_nil_iff, checkProperty_eq_nil]
  · next value hnull hobj hget =>
    simp only [List.cons_ne_nil, false_iff]
    rintro ⟨h, -⟩
    have := h value hget
    cases value <;> simp_all [Json.isNull, Json.isObj]

/-- A reference that resolves inside the document and whose chain of
references ends. A null counts as no reference. -/
def ReferenceAdmissible (schema ref : Json) : Prop :=
  ref.isNull ∨ ∃ s, ref = .str s ∧ Text.startsWith "#" s = true ∧
    (resolvePointer schema s).isSome ∧ referenceCycle schema s = false

theorem checkReference_eq_nil {schema ref : Json} {path : String} :
    checkReference schema path ref = [] ↔ ReferenceAdmissible schema ref := by
  unfold checkReference ReferenceAdmissible
  split
  · simp [Json.isNull]
  · next s =>
    simp only [Json.isNull, Bool.false_eq_true, false_or, Json.str.injEq, exists_eq_left']
    split
    · next h => simp_all
    · split
      · next h => simp_all
      · split <;> simp_all [Option.isSome_iff_ne_none]
  · next ref hnull hstr =>
    simp only [List.cons_ne_nil, false_iff]
    rintro (h | ⟨s, rfl, -⟩)
    · cases ref <;> simp_all [Json.isNull]
    · exact hstr s rfl

theorem checkReferences_eq_nil {schema : Json} :
    checkReferences schema = [] ↔ ∀ p node, Visited schema p node → ∀ ref,
      node.get? "$ref" = some ref → ReferenceAdmissible schema ref := by
  simp only [checkReferences, flatMap_walkSubschemas_eq_nil, checkAt_eq_nil,
    checkReference_eq_nil]

theorem checkNestedPatterns_eq_nil {schema : Json} :
    checkNestedPatterns schema = [] ↔ ∀ p node, Visited schema p node →
      (∀ pattern, node.get? "pattern" = some pattern →
        pattern.isNull ∨ p = [] ∨ RegexAdmissible pattern) ∧
      ∀ patternProperties, node.get? "patternProperties" = some patternProperties →
        ∀ key value, (key, value) ∈ patternProperties.fields → RegexAdmissible (.str key) := by
  rw [checkNestedPatterns, flatMap_walkSubschemas_eq_nil]
  simp only [List.append_eq_nil_iff, checkAt_eq_nil, append_renderSteps_eq_self, ite_eq_left_iff,
    checkRegexValue_eq_nil, List.flatMap_eq_nil_iff, Prod.forall, ← or_assoc,
    ← or_iff_not_imp_left]

theorem checkFormats_eq_nil {schema : Json} {capability : SemanticCapability} :
    checkFormats schema capability = [] ↔ ∀ p node, Visited schema p node → ∀ name,
      node.get? "format" = some (.str name) → capability.enforcesFormat name = true := by
  simp only [checkFormats, flatMap_walkSubschemas_eq_nil, checkAt_eq_nil]
  refine forall_congr' fun p => forall_congr' fun node => forall_congr' fun _ => ?_
  constructor
  · intro h name hget
    have := h (.str name) hget
    simpa using this
  · intro h value hget
    split
    · next name => simp [h name hget]
    · rfl

/-! ## The grammar of admitted schemas -/

/-- What every check but the keyword scan asks of a schema. -/
structure GrammarAdmissible (schema : Json) (enforcedKeywords : List String)
    (capability : Option SemanticCapability) : Prop where
  isObj : schema.isObj = true
  lists : ∀ key ∈ ["required", "null_forbidden"], ∀ value, schema.get? key = some value →
    value.isNull ∨ ∃ names : List String, value = .arr (names.map .str)
  properties : ∀ value, schema.get? "properties" = some value → value.isNull ∨ value.isObj
  property : ∀ fieldName spec, (fieldName, spec) ∈ propertiesOf schema →
    PropertyAdmissible fieldName spec
  exclusiveBounds : ∀ p node, Visited schema p node → ∀ keyword ∈ exclusiveBounds, ∀ value,
    node.get? keyword = some value →
      (capability.getD { draft := "unspecified", enforcedKeywords }).enforcesExclusiveBound
        keyword value node = true
  references : ∀ p node, Visited schema p node → ∀ ref, node.get? "$ref" = some ref →
    ReferenceAdmissible schema ref
  patterns : ∀ p node, Visited schema p node →
    (∀ pattern, node.get? "pattern" = some pattern →
      pattern.isNull ∨ p = [] ∨ RegexAdmissible pattern) ∧
    ∀ patternProperties, node.get? "patternProperties" = some patternProperties →
      ∀ key value, (key, value) ∈ patternProperties.fields → RegexAdmissible (.str key)
  formats : ∀ c, capability = some c → ∀ p node, Visited schema p node → ∀ name,
    node.get? "format" = some (.str name) → c.enforcesFormat name = true

/-- What admission asks, under a cap on the findings the keyword scan
reports. -/
structure Admissible (cap : Option ℕ) (schema : Json) (enforcedKeywords : List String)
    (capability : Option SemanticCapability) : Prop
    extends GrammarAdmissible schema enforcedKeywords capability where
  keywords : ∀ path ∈ findUnenforcedKeywordsUpTo cap schema,
    forgiven enforcedKeywords path = true

/-- **The verdict, clause by clause.** -/
theorem admitted_iff_admissible {caps : ReportingCaps} (hcaps : caps.issues ≠ some 0)
    (schema : Json) (mode : ContractAdmissionMode) (enforcedKeywords : List String)
    (capability : Option SemanticCapability) :
    (admitContractWith caps schema mode enforcedKeywords capability).admitted = true ↔
      Admissible caps.reported schema enforcedKeywords capability := by
  -- Formats are checked only where a capability is given.
  have hformats : (if capability.isSome then checkFormats schema
        (capability.getD { draft := "unspecified", enforcedKeywords }) else []) = [] ↔
      ∀ c, capability = some c → ∀ p node, Visited schema p node → ∀ name,
        node.get? "format" = some (.str name) → c.enforcesFormat name = true := by
    cases capability with
    | none => simp
    | some c => simp [checkFormats_eq_nil]
  rw [admitted_iff hcaps, blockingIssues]
  simp only [List.append_eq_nil_iff, hformats, checkTopLevelLists_eq_nil,
    checkProperties_eq_nil, checkUnsupportedKeywords_eq_nil, checkExclusiveBounds_eq_nil,
    checkReferences_eq_nil, checkNestedPatterns_eq_nil]
  constructor
  · rintro ⟨ho, ⟨⟨⟨⟨⟨hl, hp, hs⟩, hk⟩, hx⟩, hr⟩, hn⟩, hf⟩
    exact ⟨⟨ho, hl, hp, hs, hx, hr, hn, hf⟩, hk⟩
  · rintro ⟨⟨ho, hl, hp, hs, hx, hr, hn, hf⟩, hk⟩
    exact ⟨ho, ⟨⟨⟨⟨⟨hl, hp, hs⟩, hk⟩, hx⟩, hr⟩, hn⟩, hf⟩

theorem admissible_of_admitted {schema : Json} {mode : ContractAdmissionMode}
    {enforcedKeywords : List String} {capability : Option SemanticCapability}
    (h : (admitContract schema mode enforcedKeywords capability).admitted = true) :
    Admissible (some maxReported) schema enforcedKeywords capability :=
  (admitted_iff_admissible (by decide) schema mode enforcedKeywords capability).mp h

end Host

end Congine
