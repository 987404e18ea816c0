import Congine.Domain.AdmissionVerdict
import Congine.Infrastructure.JsonSchemaValidator
/-!
# Clauses and their context

Whether a dialect asserts a keyword depends on what stands beside it:
until draft 7 a reference hides its siblings, a `then` needs its `if`, a
count of contained items needs its `contains`, and an exclusive bound is
read in the form of the dialect. Admission judges the last of these and
none of the others.

What the drafts assert is taken as documented: which of the keywords
concerned have a handler, and from which draft on.
-/

namespace Congine

/-! ## What the drafts handle -/

/-- The handlers of the drafts, as far as context is concerned. -/
structure Drafts.Documented (drafts : Drafts) : Prop where
  minimum : ∀ dialect, "minimum" ∈ drafts.validators dialect
  /-- From draft 6 on an exclusive bound is a keyword of its own. -/
  exclusive : ∀ dialect, ∀ keyword ∈ exclusiveBounds,
    keyword ∈ drafts.validators dialect ↔ dialect ≠ .draft4
  conditional : ∀ dialect, "if" ∈ drafts.validators dialect ↔ 2 ≤ dialect.rank
  contains : ∀ dialect, "contains" ∈ drafts.validators dialect ↔ 1 ≤ dialect.rank
  composed : ∀ dialect, ∀ keyword ∈ composedKeywords.map Prod.fst,
    keyword ∉ drafts.validators dialect

section Derived

variable {drafts : Drafts} {dialect : Dialect} {formatChecking : Bool}

/-- A composed keyword is enforced with its parent, from its draft on. -/
theorem enforces_composed (h : drafts.Documented) {keyword parent : String}
    (hk : (keyword, parent) ∈ composedKeywords) :
    (deriveCapability drafts dialect formatChecking).enforces keyword = true ↔
      parent ∈ drafts.validators dialect ∧
        (composedMinRank keyword).all (· ≤ dialect.rank) = true := by
  have hhandler : keyword ∉ drafts.validators dialect :=
    h.composed dialect keyword (List.mem_map_of_mem hk)
  have hname : ∀ p ∈ composedKeywords, p.1 ∉ containerKeywords ∧ p.1 ≠ "format" := by decide
  have hparent : ∀ p ∈ composedKeywords, ∀ q ∈ composedKeywords, p.1 = q.1 → p.2 = q.2 := by decide
  obtain ⟨hcontainer, hformat⟩ := hname _ hk
  rw [enforces_deriveCapability]
  constructor
  · rintro ⟨hhandled | ⟨-, hcontained⟩ | ⟨parent', hk', hasserted⟩, -⟩
    · exact absurd hhandled hhandler
    · exact absurd hcontained hcontainer
    · obtain rfl := hparent _ hk _ hk' rfl
      exact hasserted
  · exact fun hasserted => ⟨Or.inr (Or.inr ⟨parent, hk, hasserted⟩), Or.inr hformat⟩

theorem enforces_conditional (h : drafts.Documented) {keyword : String}
    (hk : keyword ∈ ["then", "else"]) :
    (deriveCapability drafts dialect formatChecking).enforces keyword = true ↔
      2 ≤ dialect.rank := by
  have hcomposed : ∀ k ∈ ["then", "else"],
      (k, "if") ∈ composedKeywords ∧ composedMinRank k = none := by decide
  obtain ⟨hpair, hrank⟩ := hcomposed keyword hk
  rw [enforces_composed h hpair, hrank, h.conditional dialect, Option.all_none, eq_self, and_true]

theorem enforces_counted (h : drafts.Documented) {keyword : String}
    (hk : keyword ∈ ["minContains", "maxContains"]) :
    (deriveCapability drafts dialect formatChecking).enforces keyword = true ↔
      3 ≤ dialect.rank := by
  have hcomposed : ∀ k ∈ ["minContains", "maxContains"],
      (k, "contains") ∈ composedKeywords ∧ composedMinRank k = some 3 := by decide
  obtain ⟨hpair, hrank⟩ := hcomposed keyword hk
  rw [enforces_composed h hpair, hrank, h.contains dialect, Option.all_some, decide_eq_true_iff]
  omega

theorem enforces_exclusive (h : drafts.Documented) {keyword : String}
    (hk : keyword ∈ exclusiveBounds) :
    (deriveCapability drafts dialect formatChecking).enforces keyword = true ↔
      dialect ≠ .draft4 := by
  rw [enforces_deriveCapability, ← h.exclusive dialect keyword hk]
  simp only [exclusiveBounds, List.mem_cons, List.not_mem_nil, or_false] at hk
  rcases hk with rfl | rfl
  · simp [containerKeywords, composedKeywords]
  · simp [containerKeywords, composedKeywords]

theorem booleanExclusiveBounds_iff (h : drafts.Documented) :
    (deriveCapability drafts dialect formatChecking).booleanExclusiveBounds = true ↔
      dialect = .draft4 := by
  have hexclusive := h.exclusive dialect "exclusiveMinimum" (by decide)
  simp only [deriveCapability, Bool.and_eq_true, decide_eq_true_eq, h.minimum dialect, true_and,
    hexclusive, not_not]

end Derived

/-! ## Inert clauses -/

/-- The bound an exclusive bound goes with. -/
def siblingBound (keyword : String) : String :=
  if keyword = "exclusiveMinimum" then "minimum" else "maximum"

/-- An exclusive bound that the dialect does not assert as written: draft 4
asserts a boolean beside its bound, the later drafts anything else. -/
def BoundIgnored (dialect : Dialect) (node : Json) (keyword : String) : Prop :=
  ∃ value, node.get? keyword = some value ∧
    if dialect = .draft4 then value.kind ≠ .bool ∨ node.has (siblingBound keyword) = false
    else value.kind = .bool

/-- The dialect ignores a keyword where it stands. -/
inductive Ignored (dialect : Dialect) (node : Json) : String → Prop
  /-- Until draft 7 a reference hides its siblings. -/
  | hidden {keyword : String} {ref : Json} (hdialect : dialect.rank ≤ 2)
      (href : node.get? "$ref" = some ref) (hnull : ref ≠ .null) (hk : keyword ≠ "$ref") :
      Ignored dialect node keyword
  | conditional {keyword : String} (hk : keyword ∈ ["then", "else"])
      (hif : node.has "if" = false) : Ignored dialect node keyword
  | counted {keyword : String} (hk : keyword ∈ ["minContains", "maxContains"])
      (hcontains : node.has "contains" = false) : Ignored dialect node keyword
  | bound {keyword : String} (hk : keyword ∈ exclusiveBounds)
      (h : BoundIgnored dialect node keyword) : Ignored dialect node keyword

/-- The name of a keyword is enforced, by a handler or inside another's. -/
def NameEnforced (capability : SemanticCapability) (keyword : String) : Prop :=
  capability.enforces keyword = true ∨
    keyword ∈ exclusiveBounds ∧ capability.booleanExclusiveBounds = true

/-- A clause of a node that looks enforced and asserts nothing. -/
structure Inert (capability : SemanticCapability) (dialect : Dialect) (node : Json)
    (keyword : String) : Prop where
  has : node.has keyword = true
  enforced : NameEnforced capability keyword
  ignored : Ignored dialect node keyword

/-- Every clause of a node has the context it needs, exclusive bounds apart. -/
structure InContext (capability : SemanticCapability) (dialect : Dialect) (node : Json) :
    Prop where
  /-- Until draft 7 nothing enforced stands beside a reference. -/
  alone : dialect.rank ≤ 2 → ∀ ref, node.get? "$ref" = some ref → ref ≠ .null →
    ∀ keyword, node.has keyword = true → NameEnforced capability keyword → keyword = "$ref"
  conditional : 2 ≤ dialect.rank → (node.has "then" = true ∨ node.has "else" = true) →
    node.has "if" = true
  counted : 3 ≤ dialect.rank → (node.has "minContains" = true ∨ node.has "maxContains" = true) →
    node.has "contains" = true

section Dialects

variable {drafts : Drafts} {dialect : Dialect} {formatChecking : Bool}

theorem nameEnforced_conditional (h : drafts.Documented) {keyword : String}
    (hk : keyword ∈ ["then", "else"]) :
    NameEnforced (deriveCapability drafts dialect formatChecking) keyword ↔ 2 ≤ dialect.rank := by
  have hbound : ∀ k ∈ ["then", "else"], k ∉ exclusiveBounds := by decide
  rw [NameEnforced, enforces_conditional h hk]
  exact or_iff_left fun hexclusive => hbound keyword hk hexclusive.1

theorem nameEnforced_counted (h : drafts.Documented) {keyword : String}
    (hk : keyword ∈ ["minContains", "maxContains"]) :
    NameEnforced (deriveCapability drafts dialect formatChecking) keyword ↔ 3 ≤ dialect.rank := by
  have hbound : ∀ k ∈ ["minContains", "maxContains"], k ∉ exclusiveBounds := by decide
  rw [NameEnforced, enforces_counted h hk]
  exact or_iff_left fun hexclusive => hbound keyword hk hexclusive.1

/-- The form admission asks of an exclusive bound is the form the dialect reads. -/
theorem not_boundIgnored (h : drafts.Documented) {node : Json} {keyword : String}
    (hk : keyword ∈ exclusiveBounds)
    (hform : ∀ value, node.get? keyword = some value →
      (deriveCapability drafts dialect formatChecking).enforcesExclusiveBound keyword value node =
        true) : ¬ BoundIgnored dialect node keyword := by
  rintro ⟨value, hget, hignored⟩
  have hasserted := hform value hget
  unfold SemanticCapability.enforcesExclusiveBound at hasserted
  by_cases hdialect : dialect = .draft4
  · have hname : (deriveCapability drafts dialect formatChecking).enforces keyword = false := by
      rw [Bool.eq_false_iff, Ne, enforces_exclusive h hk]
      exact fun hne => hne hdialect
    rw [if_pos hdialect] at hignored
    rw [hname, (booleanExclusiveBounds_iff h).mpr hdialect] at hasserted
    rcases hignored with hkind | hsibling
    · simp [hkind] at hasserted
    · unfold siblingBound at hsibling
      simp only [Bool.false_eq_true, if_false, hsibling] at hasserted
      split_ifs at hasserted
  · rw [if_neg hdialect] at hignored
    rw [(enforces_exclusive h hk).mpr hdialect] at hasserted
    simp [hignored] at hasserted

/-- **A node without an inert clause** is one whose clauses have their
context, once its exclusive bounds are in the dialect's form. -/
theorem not_inert_iff (h : drafts.Documented) {node : Json}
    (hforms : ∀ keyword ∈ exclusiveBounds, ∀ value, node.get? keyword = some value →
      (deriveCapability drafts dialect formatChecking).enforcesExclusiveBound keyword value node =
        true) :
    (∀ keyword, ¬ Inert (deriveCapability drafts dialect formatChecking) dialect node keyword) ↔
      InContext (deriveCapability drafts dialect formatChecking) dialect node := by
  constructor
  · intro hinert
    refine ⟨fun hdialect ref href hnull keyword hhas hname => ?_, fun hdialect hhas => ?_,
      fun hdialect hhas => ?_⟩
    · by_contra hk
      exact hinert keyword ⟨hhas, hname, .hidden hdialect href hnull hk⟩
    · obtain ⟨keyword, hk, hhas⟩ : ∃ keyword ∈ ["then", "else"], node.has keyword = true := by
        simpa using hhas
      by_contra hif
      exact hinert keyword ⟨hhas, (nameEnforced_conditional h hk).mpr hdialect,
        .conditional hk (Bool.eq_false_iff.mpr hif)⟩
    · obtain ⟨keyword, hk, hhas⟩ :
          ∃ keyword ∈ ["minContains", "maxContains"], node.has keyword = true := by
        simpa using hhas
      by_contra hcontains
      exact hinert keyword ⟨hhas, (nameEnforced_counted h hk).mpr hdialect,
        .counted hk (Bool.eq_false_iff.mpr hcontains)⟩
  · rintro hcontext keyword ⟨hhas, hname, hignored⟩
    rcases hignored with ⟨hdialect, href, hnull, hk⟩ | ⟨hk, hif⟩ | ⟨hk, hcontains⟩ | ⟨hk, hbound⟩
    · exact hk (hcontext.alone hdialect _ href hnull keyword hhas hname)
    · have hsome : ∃ keyword ∈ ["then", "else"], node.has keyword = true := ⟨keyword, hk, hhas⟩
      have hwith : node.has "if" = true :=
        hcontext.conditional ((nameEnforced_conditional h hk).mp hname) (by simpa using hsome)
      rw [hif] at hwith
      exact Bool.false_ne_true hwith
    · have hsome : ∃ keyword ∈ ["minContains", "maxContains"], node.has keyword = true :=
        ⟨keyword, hk, hhas⟩
      have hwith : node.has "contains" = true :=
        hcontext.counted ((nameEnforced_counted h hk).mp hname) (by simpa using hsome)
      rw [hcontains] at hwith
      exact Bool.false_ne_true hwith
    · exact not_boundIgnored h hk (hforms keyword hk) hbound

/-- **When no admitted clause is inert**: exactly where every visited node
leaves its references alone and gives its composed keywords their parents. -/
theorem noInert_iff_inContext [Host] (h : drafts.Documented) {schema : Json}
    (mode : ContractAdmissionMode) (enforcedKeywords : List String)
    (hadmitted : (admitContract schema mode enforcedKeywords
      (some (deriveCapability drafts dialect formatChecking))).admitted = true) :
    (∀ p node, Visited schema p node → ∀ keyword,
        ¬ Inert (deriveCapability drafts dialect formatChecking) dialect node keyword) ↔
      ∀ p node, Visited schema p node →
        InContext (deriveCapability drafts dialect formatChecking) dialect node := by
  have hadmissible := (admissible_of_admitted hadmitted).toGrammarAdmissible
  refine forall_congr' fun p => forall_congr' fun node => forall_congr' fun hvisited => ?_
  exact not_inert_iff h fun keyword hk value hget =>
    hadmissible.exclusiveBounds p node hvisited keyword hk value hget

end Dialects

/-! ## The stock drafts -/

/-- The handlers every draft has. -/
def draft4Validators : List String :=
  ["$ref", "additionalItems", "additionalProperties", "allOf", "anyOf", "dependencies", "enum",
    "format", "items", "maxItems", "maxLength", "maxProperties", "maximum", "minItems",
    "minLength", "minProperties", "minimum", "multipleOf", "not", "oneOf", "pattern",
    "patternProperties", "properties", "required", "type", "uniqueItems"]

def draft6Validators : List String :=
  draft4Validators ++ ["const", "contains", "exclusiveMaximum", "exclusiveMinimum", "propertyNames"]

def draft201909Validators : List String :=
  draft6Validators.erase "dependencies" ++ ["$recursiveRef", "dependentRequired",
    "dependentSchemas", "if", "unevaluatedItems", "unevaluatedProperties"]

/-- The handlers of the library's validator classes, and checkers they share. -/
def Drafts.stock : Drafts where
  validators
    | .draft4 => draft4Validators
    | .draft6 => draft6Validators
    | .draft7 => draft6Validators ++ ["if"]
    | .draft201909 => draft201909Validators
    | .draft202012 =>
        (draft201909Validators.erase "additionalItems").erase "$recursiveRef" ++
          ["$dynamicRef", "prefixItems"]
  checkers _ := ["date", "email", "ipv4", "ipv6", "regex"]

theorem Drafts.stock_documented : Drafts.stock.Documented where
  minimum dialect := by rcases dialect <;> decide
  exclusive dialect := by rcases dialect <;> decide
  conditional dialect := by rcases dialect <;> decide
  contains dialect := by rcases dialect <;> decide
  composed dialect := by rcases dialect <;> decide

/-- The capability of a stock draft, without format checking. -/
def stockCapability (dialect : Dialect) : SemanticCapability :=
  deriveCapability Drafts.stock dialect false

/-- Admission as the container runs it with a semantic evaluator. -/
def admittedUnder (dialect : Dialect) (schema : Json) : Bool :=
  (@admitContract Host.literal schema .strict
    (nativeEnforcedKeywords ++ (stockCapability dialect).enforcedKeywords)
    (some (stockCapability dialect))).admitted

/-- A conditional with its `if` and a count with its `contains`. -/
def contextualClauses : Json :=
  .obj [("properties", .obj [("n", .obj [("if", .obj [("minimum", .int 0)]),
    ("then", .obj [("maximum", .int 9)]), ("contains", .obj []), ("minContains", .int 2)])])]

theorem noInert_contextualClauses :
    admittedUnder .draft202012 contextualClauses = true ∧
      ∀ p node, Visited contextualClauses p node → ∀ keyword,
        ¬ Inert (stockCapability .draft202012) .draft202012 node keyword := by
  let _ := Host.literal
  refine ⟨by decide +kernel, (noInert_iff_inContext Drafts.stock_documented .strict
    (nativeEnforcedKeywords ++ (stockCapability .draft202012).enforcedKeywords)
    (by decide +kernel)).mpr fun p node hvisited => ?_⟩
  have hall : ∀ v ∈ subschemas contextualClauses,
      ((v.2.has "then" = true ∨ v.2.has "else" = true) → v.2.has "if" = true) ∧
        ((v.2.has "minContains" = true ∨ v.2.has "maxContains" = true) →
          v.2.has "contains" = true) := by decide +kernel
  obtain ⟨hconditional, hcounted⟩ := hall (p, node) (mem_subschemas.mpr hvisited)
  exact ⟨fun hdialect => absurd hdialect (by decide), fun _ => hconditional, fun _ => hcounted⟩

/-- A bound beside a reference, a `then` alone and a `minContains` alone. -/
def hiddenMinLength : Json :=
  .obj [("definitions", .obj [("code", .obj [])]), ("properties", .obj [("a", .obj
    [("$ref", .str "#/definitions/code"), ("minLength", .int 3)])])]

def loneKeyword (keyword : String) (value : Json) : Json :=
  .obj [("properties", .obj [("a", .obj [(keyword, value)])])]

/-- **Three admitted clauses that assert nothing.** -/
theorem admitted_inert :
    (admittedUnder .draft7 hiddenMinLength = true ∧
      ∃ p node, Visited hiddenMinLength p node ∧
        Inert (stockCapability .draft7) .draft7 node "minLength") ∧
    (admittedUnder .draft202012 (loneKeyword "then" (.obj [("minLength", .int 3)])) = true ∧
      ∃ p node, Visited (loneKeyword "then" (.obj [("minLength", .int 3)])) p node ∧
        Inert (stockCapability .draft202012) .draft202012 node "then") ∧
    admittedUnder .draft202012 (loneKeyword "minContains" (.int 2)) = true ∧
      ∃ p node, Visited (loneKeyword "minContains" (.int 2)) p node ∧
        Inert (stockCapability .draft202012) .draft202012 node "minContains" := by
  refine ⟨⟨by decide +kernel, [.key "properties", .key "a"],
      .obj [("$ref", .str "#/definitions/code"), ("minLength", .int 3)],
      mem_subschemas.mp (by decide +kernel),
      ⟨by decide, Or.inl (by decide), .hidden (by decide) rfl (by decide) (by decide)⟩⟩,
    ⟨by decide +kernel, [.key "properties", .key "a"],
      .obj [("then", .obj [("minLength", .int 3)])], mem_subschemas.mp (by decide +kernel),
      ⟨by decide, Or.inl (by decide), .conditional (by decide) (by decide)⟩⟩,
    by decide +kernel, [.key "properties", .key "a"], .obj [("minContains", .int 2)],
      mem_subschemas.mp (by decide +kernel),
      ⟨by decide, Or.inl (by decide), .counted (by decide) (by decide)⟩⟩

end Congine
