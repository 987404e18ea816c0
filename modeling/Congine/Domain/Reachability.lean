import Congine.Common.JsonPointer
import Congine.Domain.Coverage
/-!
# What evaluation reaches

Admission checks references and patterns along the structural walk.
Evaluation goes further: it follows the schema-bearing keywords of every
supported dialect and every local reference, wherever that leads. This
module states both graphs, and for an admitted schema the exact condition
under which the checks made along the walk speak for all that evaluation
reaches, and under which evaluating one instance in place terminates.
-/

namespace Congine

/-- A schema and the position it stands at. -/
abbrev Site := Position × Json

/-! ## The evaluation graph -/

/-- The schema-bearing keywords of draft 4 to 2020-12: those of the walk,
with `additionalItems` and the schema form of `dependencies`. -/
def dialectSites (node : Json) : List Site :=
  subschemaSites node ++ valuedSites node "additionalItems" ++ mapSites node "dependencies"

/-- The keywords whose value is a reference. -/
def referenceKeywords : List String := ["$ref", "$dynamicRef", "$recursiveRef"]

/-- Nothing in the document has an identifier or an anchor. -/
def Unidentified (root : Json) : Prop :=
  ∀ p node, root.at? p = some node →
    ∀ keyword ∈ ["$id", "id", "$anchor", "$dynamicAnchor"], ∀ s, node.get? keyword ≠ some (.str s)

/-- How the library behind the evaluator follows references. What an
identifier makes the base of a reference, which anchor it names and where
the dynamic scope takes it are the library's to say. -/
structure Referencing where
  /-- The places of the document to which a reference may lead, by the place
  and the keyword it stands under. -/
  leads : Json → Position → String → String → List Position
  /-- Where no identifier says otherwise, the fragment of a `$ref` is the
  pointer of its target, percent-decoded. -/
  pointer : ∀ root p fragment q, Unidentified root →
    Pointer.fragmentTokens fragment = some (q.map Step.token) → (root.at? q).isSome →
      leads root p "$ref" ("#" ++ fragment) = [q]

/-- The library on a document without identifiers, where the empty
reference is to the document. -/
def Referencing.plain : Referencing where
  leads root _ _ ref :=
    if ref = "" then [[]]
    else if Text.startsWith "#" ref then
      (Pointer.locateFragment root (String.ofList (ref.toList.drop 1))).toList
    else []
  pointer root p fragment q _ htokens hplace := by
    have hbody : ("#" ++ fragment).toList = '#' :: fragment.toList := by simp
    have hne : "#" ++ fragment ≠ "" := by
      rw [Ne, ← String.toList_inj, hbody]
      exact List.cons_ne_nil _ _
    rw [if_neg hne, if_pos (Text.startsWith_append "#" fragment), hbody, List.drop_one,
      List.tail_cons, String.ofList_toList, Pointer.locateFragment_of_tokens hplace htokens]
    rfl

/-- The reference a node has under a keyword. -/
def referenceOf (node : Json) (keyword : String) : Option String :=
  match node.get? keyword with
  | some (.str ref) => some ref
  | _ => none

variable (library : Referencing)

/-- The sites the reference under a keyword may lead to. -/
def refTargets (root : Json) (v : Site) (keyword : String) : List Site :=
  (referenceOf v.2 keyword).toList.flatMap fun ref =>
    (library.leads root v.1 keyword ref).filterMap fun q =>
      (root.at? q).map fun target => (q, target)

/-- The sites one evaluation step leads to. -/
def evaluationSteps (root : Json) (v : Site) : List Site :=
  (dialectSites v.2).map (fun w => (v.1 ++ w.1, w.2)) ++
    referenceKeywords.flatMap (refTargets library root v)

def EvaluationStep (root : Json) (v w : Site) : Prop :=
  w ∈ evaluationSteps library root v ∧ w.2.isObj = true

/-- Evaluation of `root` can reach the schema at a site. -/
def Reachable (root : Json) (v : Site) : Prop :=
  Relation.ReflTransGen (EvaluationStep library root) ([], root) v

variable {library}

theorem mem_refTargets {root : Json} {v w : Site} {keyword : String} :
    w ∈ refTargets library root v keyword ↔ ∃ ref, referenceOf v.2 keyword = some ref ∧
      w.1 ∈ library.leads root v.1 keyword ref ∧ root.at? w.1 = some w.2 := by
  simp only [refTargets, List.mem_flatMap, Option.mem_toList, List.mem_filterMap,
    Option.map_eq_some_iff]
  constructor
  · rintro ⟨ref, href, q, hq, target, htarget, rfl⟩
    exact ⟨ref, href, hq, htarget⟩
  · rintro ⟨ref, href, hq, htarget⟩
    exact ⟨ref, href, w.1, hq, w.2, htarget, rfl⟩

/-- **The walk stays inside the reachable**: what it visits, evaluation
reaches. -/
theorem Visited.reachable {root node : Json} {p : Position} (h : Visited root p node) :
    Reachable library root (p, node) := by
  induction h with
  | root => exact .refl
  | @site p steps node child _ hs hobj ih =>
    have hsite : (steps, child) ∈ dialectSites node :=
      List.mem_append_left _ (List.mem_append_left _ hs)
    exact ih.tail ⟨List.mem_append_left _ (List.mem_map.mpr ⟨(steps, child), hsite, rfl⟩), hobj⟩

/-- A list closed under evaluation steps holds all that is reachable. -/
theorem mem_of_reachable {root : Json} {sites : List Site} (hroot : ([], root) ∈ sites)
    (hclosed : ∀ v ∈ sites, ∀ w ∈ evaluationSteps library root v, w.2.isObj = true → w ∈ sites)
    {v : Site} (h : Reachable library root v) : v ∈ sites := by
  induction h with
  | refl => exact hroot
  | tail _ hstep ih => exact hclosed _ ih _ hstep.1 hstep.2

/-! ## The policy on reachable schemas -/

variable (library)

/-- The reference under a keyword is local and resolves inside the
document. -/
def LocalReference (root : Json) (v : Site) (keyword : String) : Prop :=
  (∃ ref, referenceOf v.2 keyword = some ref ∧ Text.startsWith "#" ref = true) ∧
    refTargets library root v keyword ≠ []

variable {library}

/-- A local reference is a string. -/
theorem LocalReference.ne_null {root : Json} {v : Site} {keyword : String}
    (h : LocalReference library root v keyword) : v.2.get? keyword ≠ some .null := by
  intro hnull
  obtain ⟨⟨ref, href, -⟩, -⟩ := h
  rw [referenceOf, hnull] at href
  cases href

section Host

variable [Host]

variable (library)

/-- The references and the regexes of one node are ones the adapter can
evaluate. -/
structure NodePolicy (root : Json) (v : Site) : Prop where
  reference : ∀ keyword ∈ referenceKeywords, (v.2.get? keyword).isSome →
    LocalReference library root v keyword
  pattern : ∀ pattern, v.2.get? "pattern" = some pattern → RegexAdmissible pattern
  patternProperties : ∀ patternProperties,
    v.2.get? "patternProperties" = some patternProperties →
      ∀ key value, (key, value) ∈ patternProperties.fields → RegexAdmissible (.str key)

def ReachablePolicy (root : Json) : Prop :=
  ∀ v, Reachable library root v → NodePolicy library root v

/-- What the walk's own checks leave open at a visited node: a `$ref` they
resolved resolves for the evaluator too and is no null, the other reference
keywords are looked at by nobody, and a null `pattern` passes for none. -/
structure LeftOpen (root : Json) (v : Site) : Prop where
  null : v.2.get? "$ref" ≠ some .null
  resolves : ∀ ref, v.2.get? "$ref" = some (.str ref) → (resolvePointer root ref).isSome →
    refTargets library root v "$ref" ≠ []
  dynamic : ∀ keyword ∈ ["$dynamicRef", "$recursiveRef"], (v.2.get? keyword).isSome →
    LocalReference library root v keyword
  pattern : v.2.get? "pattern" ≠ some .null

variable {library}

/-- On the walk, admission sees to all but what it leaves open and the
`pattern` of the root. -/
theorem nodePolicy_of_visited {schema : Json} {enforcedKeywords : List String}
    {capability : Option SemanticCapability} {v : Site}
    (h : GrammarAdmissible schema enforcedKeywords capability) (hv : Visited schema v.1 v.2)
    (hopen : LeftOpen library schema v)
    (hroot : ∀ pattern, schema.get? "pattern" = some pattern → RegexAdmissible pattern) :
    NodePolicy library schema v := by
  refine ⟨fun keyword hkeyword hget => ?_, fun pattern hget => ?_, (h.patterns _ _ hv).2⟩
  · rcases List.mem_cons.mp hkeyword with rfl | hdynamic
    · obtain ⟨ref, hget⟩ := Option.isSome_iff_exists.mp hget
      rcases h.references _ _ hv ref hget with hnull | ⟨s, rfl, hlocal, hres, -⟩
      · rw [Json.isNull_iff.mp hnull] at hget
        exact absurd hget hopen.null
      · exact ⟨⟨s, by rw [referenceOf, hget], hlocal⟩, hopen.resolves s hget hres⟩
    · exact hopen.dynamic keyword hdynamic hget
  · rcases (h.patterns _ _ hv).1 pattern hget with hnull | hnil | hadm
    · rw [Json.isNull_iff.mp hnull] at hget
      exact absurd hget hopen.pattern
    -- The walk's own check leaves the root out.
    · rw [hnil] at hv
      rw [hv.eq_root] at hget
      exact hroot pattern hget
    · exact hadm

/-- **When the walk's checks cover the reachable**: exactly when the
reachable schemas it does not visit satisfy the policy on their own, the
visited ones satisfy what the walk leaves open, and the `pattern` of the
root, which is not checked, is admissible. -/
theorem reachablePolicy_of_admitted (library : Referencing) {schema : Json}
    (mode : ContractAdmissionMode) {enforcedKeywords : List String}
    {capability : SemanticCapability}
    (h : (admitContract schema mode enforcedKeywords (some capability)).admitted = true) :
    ReachablePolicy library schema ↔
      (∀ v, Reachable library schema v → ¬ Visited schema v.1 v.2 → NodePolicy library schema v) ∧
      (∀ p node, Visited schema p node → LeftOpen library schema (p, node)) ∧
      ∀ pattern, schema.get? "pattern" = some pattern → RegexAdmissible pattern := by
  have hg := (admissible_of_admitted h).toGrammarAdmissible
  constructor
  · intro hall
    refine ⟨fun v hv _ => hall v hv, fun p node hv => ?_, ?_⟩
    · have hreach : Reachable library schema (p, node) := hv.reachable
      have hnode := hall _ hreach
      exact {
        null := fun hnull => (hnode.reference "$ref" (by decide) (by rw [hnull]; rfl)).ne_null hnull
        resolves := fun ref hget _ => (hnode.reference "$ref" (by decide) (by rw [hget]; rfl)).2
        dynamic := fun keyword hkeyword => hnode.reference keyword (List.mem_cons_of_mem _ hkeyword)
        pattern := fun hnull => by
          obtain ⟨s, hs, -⟩ := hnode.pattern _ hnull
          cases hs }
    · exact (hall _ (Visited.root hg.isObj).reachable).pattern
  · rintro ⟨hoff, hopen, hroot⟩ v hv
    by_cases hvis : Visited schema v.1 v.2
    · exact nodePolicy_of_visited hg hvis (hopen _ _ hvis) hroot
    · exact hoff v hv hvis

end Host

/-- A property that refers to a definition with a pattern. -/
def definedPattern : Json :=
  .obj [("properties", .obj [("code", .obj [("$ref", .str "#/$defs/code")])]),
    ("$defs", .obj [("code", .obj [("pattern", .str "ok")])])]

theorem reachablePolicy_definedPattern : @ReachablePolicy .plain Host.literal definedPattern := by
  let _ := Host.literal
  have hclosed : ∀ v ∈ subschemas definedPattern, ∀ w ∈ evaluationSteps .plain definedPattern v,
      w.2.isObj = true → w ∈ subschemas definedPattern := by decide +kernel
  have hnull : ∀ v ∈ subschemas definedPattern, v.2.get? "$ref" ≠ some .null ∧
      v.2.get? "pattern" ≠ some .null ∧
      (v.2.get? "$ref" = none ∨ refTargets .plain definedPattern v "$ref" ≠ []) ∧
      ∀ keyword ∈ ["$dynamicRef", "$recursiveRef"], v.2.get? keyword = none := by decide +kernel
  have hadmitted : (admitContract definedPattern .strict
      (nativeEnforcedKeywords ++ SemanticCapability.draft202012.enforcedKeywords)
      (some .draft202012)).admitted = true := by decide +kernel
  refine (reachablePolicy_of_admitted .plain .strict hadmitted).mpr
    ⟨fun v hv hvis => ?_, fun p node hv => ?_, fun pattern hget => ?_⟩
  · have := mem_of_reachable (by decide +kernel) hclosed hv
    exact absurd (mem_subschemas.mp this) hvis
  · obtain ⟨href, hpattern, htarget, hdynamic⟩ := hnull _ (mem_subschemas.mpr hv)
    refine ⟨href, fun ref hget _ => htarget.resolve_left ?_, fun keyword hkeyword hget => ?_,
      hpattern⟩
    · rw [hget]
      exact nofun
    · rw [hdynamic keyword hkeyword] at hget
      cases hget
  · rw [show definedPattern.get? "pattern" = none by decide] at hget
    cases hget

/-- A reference into a place that holds no schema: nothing stops
`default`, which is documentation, from being evaluated. -/
def referencedDefault : Json :=
  .obj [("properties", .obj [("field", .obj [("$ref", .str "#/default")])]),
    ("default", .obj [("$ref", .str "http://example.test/remote.json")])]

/-- The same under a keyword no check looks at. -/
def dynamicRemote : Json :=
  .obj [("properties", .obj [("field", .obj
    [("$dynamicRef", .str "http://example.test/remote.json")])])]

theorem admitted_not_reachablePolicy :
    ((@admitContract Host.literal referencedDefault .strict
        (nativeEnforcedKeywords ++ SemanticCapability.draft202012.enforcedKeywords)
        (some .draft202012)).admitted = true ∧
      ¬ @ReachablePolicy .plain Host.literal referencedDefault) ∧
      (@admitContract Host.literal dynamicRemote .strict
        (nativeEnforcedKeywords ++ SemanticCapability.draft202012.enforcedKeywords)
        (some .draft202012)).admitted = true ∧
      ¬ @ReachablePolicy .plain Host.literal dynamicRemote := by
  let _ := Host.literal
  refine ⟨⟨by decide +kernel, fun h => ?_⟩, by decide +kernel, fun h => ?_⟩
  · have hfield : Reachable .plain referencedDefault
        ([.key "properties", .key "field"], .obj [("$ref", .str "#/default")]) :=
      (mem_subschemas.mp (by decide +kernel)).reachable
    have hdefault : Reachable .plain referencedDefault
        ([.key "default"], .obj [("$ref", .str "http://example.test/remote.json")]) :=
      hfield.tail ⟨by decide +kernel, rfl⟩
    exact ((h _ hdefault).reference "$ref" (by decide) rfl).2 rfl
  · have hfield : Reachable .plain dynamicRemote ([.key "properties", .key "field"],
        .obj [("$dynamicRef", .str "http://example.test/remote.json")]) :=
      (mem_subschemas.mp (by decide +kernel)).reachable
    exact ((h _ hfield).reference "$dynamicRef" (by decide) rfl).2 rfl

/-! ## In-place evaluation

References and the applicators below put one instance to another schema,
so a cycle of them never ends on any instance. -/

/-- Applicators whose value is a list of schemas for the same instance. -/
def inPlaceLists : List String := ["allOf", "anyOf", "oneOf"]

/-- Applicators whose value is a schema for the same instance. -/
def inPlaceValues : List String := ["not", "if", "then", "else"]

def inPlaceSites (node : Json) : List Site :=
  inPlaceLists.flatMap (listSites node) ++ inPlaceValues.flatMap (valuedSites node)

/-- A step from a schema to one of its in-place applicators. -/
def ApplicatorEdge (v w : Site) : Prop :=
  w ∈ (inPlaceSites v.2).map (fun u => (v.1 ++ u.1, u.2)) ∧ w.2.isObj = true

variable (library)

/-- A step from a schema to a target of its `$ref`. -/
def ReferenceEdge (root : Json) (v w : Site) : Prop :=
  w ∈ refTargets library root v "$ref" ∧ w.2.isObj = true

def InPlaceEdge (root : Json) (v w : Site) : Prop :=
  ReferenceEdge library root v w ∨ ApplicatorEdge v w

/-- No reachable schema comes back to itself on one instance. -/
def InPlaceAcyclic (root : Json) : Prop :=
  ∀ v, Reachable library root v → ¬ Relation.TransGen (InPlaceEdge library root) v v

/-- A step along a local `$ref` that leads where admission's own resolver
does. -/
def AgreedEdge (root : Json) (v w : Site) : Prop :=
  ReferenceEdge library root v w ∧ ∃ ref, refOf v.2 = some ref ∧
    Text.startsWith "#" ref = true ∧ resolvePosition root ref = some w.1

variable {library}

theorem inPlaceSites_subset (node : Json) : inPlaceSites node ⊆ subschemaSites node := by
  rintro ⟨steps, child⟩ h
  refine mem_subschemaSites.mpr ?_
  rcases List.mem_append.mp h with h | h
  · obtain ⟨k, hk, hs⟩ := List.mem_flatMap.mp h
    exact .inr (.inl ⟨k, (by decide : inPlaceLists ⊆ "items" :: schemaListValued) hk, hs⟩)
  · obtain ⟨k, hk, hs⟩ := List.mem_flatMap.mp h
    exact .inl ⟨k, (by decide : inPlaceValues ⊆ schemaValued) hk, hs⟩

/-- An in-place step is an evaluation step. -/
theorem InPlaceEdge.evaluationStep {root : Json} {v w : Site} (h : InPlaceEdge library root v w) :
    EvaluationStep library root v w := by
  rcases h with ⟨hw, hobj⟩ | ⟨hw, hobj⟩
  · exact ⟨List.mem_append_right _ (List.mem_flatMap.mpr ⟨"$ref", by decide, hw⟩), hobj⟩
  · obtain ⟨u, hu, rfl⟩ := List.mem_map.mp hw
    have hsite : u ∈ dialectSites v.2 :=
      List.mem_append_left _ (List.mem_append_left _ (inPlaceSites_subset _ hu))
    exact ⟨List.mem_append_left _ (List.mem_map.mpr ⟨u, hsite, rfl⟩), hobj⟩

theorem Reachable.inPlace {root : Json} {v w : Site} (hv : Reachable library root v)
    (h : Relation.ReflTransGen (InPlaceEdge library root) v w) : Reachable library root w := by
  induction h with
  | refl => exact hv
  | tail _ hstep ih => exact ih.tail hstep.evaluationStep

/-- A reference admission follows as the evaluator does leads to the next
one. -/
theorem nextReference_of_edge {root : Json} {v w : Site} {ref next : String}
    (hvw : AgreedEdge library root v w) (href : refOf v.2 = some ref)
    (hnext : refOf w.2 = some next) (hlocal : Text.startsWith "#" next = true) :
    nextReference root ref = some next := by
  obtain ⟨⟨htarget, -⟩, ref', href', -, hres⟩ := hvw
  obtain rfl := Option.some.inj (href.symm.trans href')
  obtain ⟨_, _, _, hat⟩ := mem_refTargets.mp htarget
  rw [nextReference, resolvePointer_eq, hres, Option.bind_some, hat, Option.bind_some, hnext,
    Option.filter_some, if_pos hlocal]

/-- **Admission finds every cycle of references it follows as the evaluator
does.** -/
theorem referenceCycle_of_transGen {root : Json} {v : Site}
    (h : Relation.TransGen (AgreedEdge library root) v v) {ref : String}
    (href : refOf v.2 = some ref) : referenceCycle root ref = true := by
  -- Live are the references that stand on a cycle: each leads to the next.
  refine referenceCycle_of_live (fun r => ∃ u : Site,
    Relation.TransGen (AgreedEdge library root) u u ∧ refOf u.2 = some r) ?_ ⟨v, h, href⟩
  rintro r ⟨u, hu, hr⟩
  obtain ⟨w, huw, hw⟩ := exists_transGen_succ hu
  obtain ⟨x, ⟨-, next, hnext, hlocal, -⟩, -⟩ := exists_transGen_succ hw
  exact ⟨next, nextReference_of_edge huw hr hnext hlocal, w, hw, hnext⟩

/-- A visited schema of an admitted contract lies on no such cycle. -/
theorem not_transGen_of_visited [Host] {schema : Json} {enforcedKeywords : List String}
    {capability : Option SemanticCapability} {v : Site}
    (h : GrammarAdmissible schema enforcedKeywords capability) (hv : Visited schema v.1 v.2) :
    ¬ Relation.TransGen (AgreedEdge library schema) v v := by
  intro hcycle
  obtain ⟨w, ⟨-, ref, href, -⟩, -⟩ := exists_transGen_succ hcycle
  rcases h.references v.1 v.2 hv _ (refOf_eq_some_iff.mp href) with hnull | ⟨s, hs, -, -, hacyclic⟩
  · cases hnull
  · obtain rfl := Json.str.inj hs
    rw [referenceCycle_of_transGen hcycle href] at hacyclic
    cases hacyclic

/-- **When an admitted schema is free of in-place cycles**: exactly when
no reachable cycle uses an applicator, and every reachable cycle of bare
references passes through a schema the walk visits, by local references
that admission follows to where the evaluator does. -/
theorem inPlaceAcyclic_of_admitted [Host] (library : Referencing) {schema : Json}
    (mode : ContractAdmissionMode) {enforcedKeywords : List String}
    {capability : SemanticCapability}
    (h : (admitContract schema mode enforcedKeywords (some capability)).admitted = true) :
    InPlaceAcyclic library schema ↔
      (∀ v w, Reachable library schema v → ApplicatorEdge v w →
        ¬ Relation.ReflTransGen (InPlaceEdge library schema) w v) ∧
      ∀ v, Reachable library schema v → Relation.TransGen (ReferenceEdge library schema) v v →
        ∃ w, Visited schema w.1 w.2 ∧ Relation.TransGen (AgreedEdge library schema) v w ∧
          Relation.TransGen (AgreedEdge library schema) w v := by
  have hg := (admissible_of_admitted h).toGrammarAdmissible
  constructor
  · intro hacyclic
    refine ⟨fun v w hv hvw hback => ?_, fun v hv hcycle => ?_⟩
    · exact hacyclic v hv (.head' (.inr hvw) hback)
    · exact absurd (hcycle.lift id fun _ _ => .inl) (hacyclic v hv)
  · rintro ⟨happ, hrefs⟩ v hv hcycle
    -- A cycle is references all the way, or one of its steps is an applicator.
    rcases transGen_or_exists_step hcycle with hpure | ⟨a, b, hva, hab, hbv⟩
    · obtain ⟨w, hw, hvw, hwv⟩ := hrefs v hv hpure
      exact not_transGen_of_visited hg hw (hwv.trans hvw)
    · exact happ a b (hv.inPlace hva) hab (hbv.trans hva)

theorem inPlaceAcyclic_definedPattern : InPlaceAcyclic .plain definedPattern := by
  let _ := Host.literal
  have hclosed : ∀ v ∈ subschemas definedPattern, ∀ w ∈ evaluationSteps .plain definedPattern v,
      w.2.isObj = true → w ∈ subschemas definedPattern := by decide +kernel
  have hmem : ∀ v, Reachable .plain definedPattern v → v ∈ subschemas definedPattern :=
    fun v hv => mem_of_reachable (by decide +kernel) hclosed hv
  have happ : ∀ v ∈ subschemas definedPattern, inPlaceSites v.2 = [] := by decide +kernel
  have hends : ∀ v ∈ subschemas definedPattern, ∀ w ∈ refTargets .plain definedPattern v "$ref",
      refTargets .plain definedPattern w "$ref" = [] := by decide +kernel
  have hadmitted : (admitContract definedPattern .strict
      (nativeEnforcedKeywords ++ SemanticCapability.draft202012.enforcedKeywords)
      (some .draft202012)).admitted = true := by decide +kernel
  refine (inPlaceAcyclic_of_admitted .plain .strict hadmitted).mpr
    ⟨fun v w hv hvw => ?_, fun v hv hcycle => ?_⟩
  · rw [ApplicatorEdge, happ v (hmem v hv)] at hvw
    exact absurd hvw.1 List.not_mem_nil
  · obtain ⟨w, hvw, hw⟩ := exists_transGen_succ hcycle
    obtain ⟨x, hwx, -⟩ := exists_transGen_succ hw
    exact absurd hwx.1 (by rw [hends v (hmem v hv) w hvw.1]; exact List.not_mem_nil)

/-- Everything must satisfy everything: the reference leads to the root,
which has no reference of its own, so the chain of references ends. -/
def selfApplied : Json := .obj [("allOf", .arr [.obj [("$ref", .str "#")]])]

/-- The evaluator reads `%61` as `a` and comes back; admission finds the
definition of that name, and nothing to follow in it. -/
def selfEncoded : Json :=
  .obj [("$defs", .obj [("a", .obj [("$ref", .str "#/$defs/%61")]), ("%61", .obj [])])]

theorem admitted_not_inPlaceAcyclic :
    ((@admitContract Host.literal selfApplied .strict
        (nativeEnforcedKeywords ++ SemanticCapability.draft202012.enforcedKeywords)
        (some .draft202012)).admitted = true ∧ ¬ InPlaceAcyclic .plain selfApplied) ∧
      (@admitContract Host.literal selfEncoded .strict
        (nativeEnforcedKeywords ++ SemanticCapability.draft202012.enforcedKeywords)
        (some .draft202012)).admitted = true ∧ ¬ InPlaceAcyclic .plain selfEncoded := by
  refine ⟨⟨by decide +kernel, fun h => ?_⟩, by decide +kernel, fun h => ?_⟩
  · let member : Site := ([.key "allOf", .index 0], .obj [("$ref", .str "#")])
    have hdown : InPlaceEdge .plain selfApplied ([], selfApplied) member :=
      .inr ⟨by decide +kernel, rfl⟩
    have hup : InPlaceEdge .plain selfApplied member ([], selfApplied) :=
      .inl ⟨by decide +kernel, rfl⟩
    exact h _ .refl (.head hdown (.single hup))
  · let definition : Site := ([.key "$defs", .key "a"], .obj [("$ref", .str "#/$defs/%61")])
    have hreach : Reachable .plain selfEncoded definition :=
      Visited.reachable (mem_subschemas.mp (by decide +kernel))
    have hback : InPlaceEdge .plain selfEncoded definition definition :=
      .inl ⟨by decide +kernel, rfl⟩
    exact h _ hreach (.single hback)

end Congine
