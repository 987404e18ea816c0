import Congine.Domain.NativeTotality
import Congine.UseCases.StagedSoundness
import Congine.UseCases.VettedStore
/-!
# What an enforced verdict says

The validations of a process resolve their contracts in the store its
passes prime. Whatever turns have been taken at the store by then, an
enforced verdict is about one schema: admitted, the last under its id and
alive at the lookup. And it is right about it: a pass exactly where the
payload is an object that meets the schema, and the semantic evaluator
finds nothing either.
-/

namespace Congine

/-! ## The native verdict on an admitted schema -/

section Host

variable [Host]

/-- A clause the rules iterate over is not null where they returned. -/
theorem not_null_of_validate {schema payload : Json} (hobj : schema.isObj = true)
    (hpayload : payload.isObj = true) {native : ValidationResult}
    (h : LocalValidator.validate payload schema = .ok native) {key : String}
    (hkey : key ∈ ["required", "null_forbidden", "properties"]) :
    schema.get? key ≠ some .null := by
  intro hnull
  have hraised : ∃ rule ∈ LocalValidator.rules,
      ¬ Returns (LocalValidator.runRule payload schema rule) :=
    exists_rule_raises hobj hkey hnull
  obtain ⟨rule, hrule, hraises⟩ := hraised
  have hreturns : Returns (LocalValidator.validate payload schema) := ⟨native, h⟩
  simp only [LocalValidator.validate, hpayload, Bool.not_true, Bool.false_eq_true, if_false,
    returns_map, collect_returns_iff] at hreturns
  exact hraises (hreturns rule hrule)

/-- **On an admitted schema the native verdict is the clauses in effect**,
wherever there is one. -/
theorem native_clean_iff {schema payload : Json} {enforcedKeywords : List String}
    {capability : Option SemanticCapability}
    (hgrammar : GrammarAdmissible schema enforcedKeywords capability) {native : ValidationResult}
    (h : LocalValidator.validate payload schema = .ok native) :
    native.breaches = [] ↔ payload.isObj = true ∧ Meets InEffect schema payload := by
  by_cases hpayload : payload.isObj = true
  · have hnull : ∀ key ∈ ["required", "null_forbidden", "properties"],
        schema.get? key ≠ some .null :=
      fun key hkey => not_null_of_validate hgrammar.isObj hpayload h hkey
    have hrules : RulesAdmissible schema := by
      refine RulesAdmissible.of_grammar hgrammar (fun key hkey value hvalue => ?_)
        fun value hvalue => ?_
      · rcases hgrammar.lists key hkey value hvalue with hv | ⟨names, rfl⟩
        · rw [Json.isNull_iff.mp hv] at hvalue
          refine absurd hvalue (hnull key ?_)
          simp only [List.mem_cons, List.not_mem_nil, or_false] at hkey ⊢
          exact hkey.imp_right .inl
        · rfl
      · rcases hgrammar.properties value hvalue with hv | hv
        · rw [Json.isNull_iff.mp hv] at hvalue
          exact absurd hvalue (hnull "properties" (by simp))
        · exact hv
    rw [and_iff_right hpayload, ← hrules.pass_iff hpayload]
    have hstatus := (ValidateContractUseCase.localValidator_result h).2
    constructor
    · intro hempty
      refine ⟨native, h, ?_⟩
      simp [ValidationResult.isPass, hstatus, hempty]
    · rintro ⟨r, hr, hpass⟩
      obtain rfl := Except.ok.inj (hr.symm.trans h)
      by_contra hne
      have hempty : r.breaches.isEmpty = false := by simpa using hne
      simp [ValidationResult.isPass, hstatus, hempty] at hpass
  · simp only [LocalValidator.validate, hpayload] at h
    obtain rfl := Except.ok.inj h
    simp [hpayload]

end Host

/-! ## Validating against the store -/

/-- The use case of a container, over the store of the passes: what it
looks up is what the store holds by then. -/
def ValidateContractUseCase.resolvingIn (v : ValidateContractUseCase) (u : SyncContractsUseCase)
    (σ : SyncState) : ValidateContractUseCase :=
  { v with storageGet := fun contractId => (u.read (.str contractId) σ).1 }

/-- The payload keeps its contract: it is an object, meets every clause of
the schema that is in effect, and the semantic evaluator finds nothing. -/
structure ValidateContractUseCase.Keeps [Host] (v : ValidateContractUseCase)
    (schema payload : Json) : Prop where
  isObj : payload.isObj = true
  meets : Meets InEffect schema payload
  semantic : ∀ semanticValidator, v.semanticValidator = some semanticValidator →
    semanticValidator payload schema = .ok []

namespace SyncContractsUseCase

open ValidateContractUseCase

variable [Host] (u : SyncContractsUseCase) (v : ValidateContractUseCase) (σ : SyncState)

/-- A schema governs an id: it was admitted, nothing was under the id since,
and its time to live has not run out. -/
structure Governing (contractId : String) (schema : Json) : Prop where
  last : u.lastKnownGood σ (.str contractId) = some schema
  admits : u.admits schema = true

/-- What an enforced result says: that an input is past its bound, or how
the payload stands to the schema that governs. -/
inductive EnforcedVerdict (payload : Json) (contractId : String) : ValidationResult → Prop
  | payloadOversize (hbytes : ¬ v.WithinBytes payload v.maxPayloadBytes) :
      EnforcedVerdict payload contractId { status := .fail, breaches := [payloadOversizeBreach] }
  | schemaOversize {schema : Json} (hschema : u.Governing σ contractId schema)
      (hbytes : ¬ v.WithinBytes schema v.maxSchemaBytes) :
      EnforcedVerdict payload contractId { status := .fail, breaches := [schemaOversizeBreach] }
  | evaluated {schema : Json} {r : ValidationResult} (hschema : u.Governing σ contractId schema)
      (hpass : r.isPass = true ↔ v.Keeps schema payload) : EnforcedVerdict payload contractId r

variable {u v σ}

/-- **What is resolved governs.** -/
theorem Vetted.resolved (h : u.Vetted σ) {contractId : String} {schema : Json}
    (hschema : (v.resolvingIn u σ).resolveSchema contractId = .ok schema) :
    u.Governing σ contractId schema := by
  simp only [resolveSchema, resolvingIn] at hschema
  rcases hread : (u.read (.str contractId) σ).1 with exc | found
  · rw [hread] at hschema
    cases hschema
  · rw [hread] at hschema
    simp only [Except.bind] at hschema
    split at hschema
    · cases hschema
    · cases hschema
    · obtain rfl := Except.ok.inj hschema
      obtain ⟨hlast, hadmits⟩ := h.read_some hread
      exact ⟨hlast, hadmits⟩

/-- Admission settles the grammar of a schema that governs. -/
theorem Governing.grammar {contractId : String} {schema : Json}
    (h : u.Governing σ contractId schema) :
    GrammarAdmissible schema u.enforcedKeywords u.semanticCapability := by
  have hadmits := h.admits
  simp only [SyncContractsUseCase.admits, Bool.and_eq_true] at hadmits
  exact (admissible_of_admitted hadmits.2).toGrammarAdmissible

/-- **Both stages back, on the schema that governs, pass exactly the
payloads that keep the contract.** -/
theorem Governing.isPass_iff {contractId : String} {schema payload : Json}
    (h : u.Governing σ contractId schema) {t : Trace} {r native : ValidationResult}
    {semantic : List BreachDetail}
    (hback : (v.resolvingIn u σ).StagesBack payload schema t r native semantic) :
    r.isPass = true ↔ v.Keeps schema payload := by
  have hpass : r.isPass = true ↔ native.breaches = [] ∧ semantic = [] := by
    rw [ValidationResult.isPass, hback.status_eq, hback.breaches_eq, ← List.append_eq_nil_iff]
    cases native.breaches ++ semantic with
    | nil => simp
    | cons breach breaches => simp
  rw [hpass, native_clean_iff h.grammar hback.native_eq]
  constructor
  · rintro ⟨⟨hobj, hmeets⟩, rfl⟩
    exact ⟨hobj, hmeets, fun semanticValidator hsome => (hback.semantic_eq _ hsome).1⟩
  · intro hkeeps
    refine ⟨⟨hkeeps.isObj, hkeeps.meets⟩, ?_⟩
    cases hsome : v.semanticValidator with
    | none => exact hback.semantic_none hsome
    | some semanticValidator =>
      have hvalue := (hback.semantic_eq semanticValidator hsome).1
      exact Except.ok.inj (hvalue.symm.trans (hkeeps.semantic semanticValidator hsome))

/-- **An enforced verdict is right about the last known good contract**:
after any turns at the store of a process, whatever the runner does and in
both paths, a result that claims enforcement judges the schema admitted
last under the id, alive at the lookup, and passes exactly the objects that
meet it and that the semantic evaluator finds nothing in; or it reports the
one input past its bound. -/
theorem enforced_verdict (hclock : Monotone v.clock) {capacity : ℕ} {ttlSeconds : ℤ}
    (hstart : Started capacity ttlSeconds σ) (events : List ProcessEvent)
    (runner : EvaluationStage → ℤ → RunOutcome) (payload : Json)
    (contractId contractVersion : String) {r : ValidationResult}
    (hr : ((v.resolvingIn u (run u.processStep events σ)).executeWith runner payload contractId
      contractVersion).1 = .ok r) (henforced : r.isEnforced = true) :
    EnforcedVerdict u v (run u.processStep events σ) payload contractId r := by
  have hvetted := vetted_run (u := u) hstart events
  set σ' := run u.processStep events σ with hσ'
  obtain ⟨-, -, hverdict⟩ := evaluateWith_spec (u := v.resolvingIn u σ') hclock runner payload
    contractId
  simp only [executeWith] at hr
  generalize (v.resolvingIn u σ').evaluateWith runner payload contractId {} = out
    at hverdict hr
  obtain ⟨res, t⟩ := out
  cases res with
  | error exc => cases hr
  | ok result =>
    obtain rfl := (finalize_spec (u := v.resolvingIn u σ') result contractId contractVersion t).2
      r hr
    cases (hverdict r rfl).1 with
    | degraded reason stage => cases henforced
    | payloadOversize hsize hlt => exact .payloadOversize (not_withinBytes hsize hlt)
    | schemaOversize hschema hsize hlt =>
      exact .schemaOversize (hvetted.resolved hschema) (not_withinBytes hsize hlt)
    | evaluated _ hschema _ _ hback =>
      have hgoverning := hvetted.resolved hschema
      exact .evaluated hgoverning (hgoverning.isPass_iff hback)

/-- A clock that reads a second more each time. -/
def everySecond : SyncContractsUseCase where
  clock i := i
  maxHttpResponseBytes := 1048576

/-- Two passes at once: each primes its entry, and the second is refused. -/
def ordersTurns : List ProcessEvent :=
  [.fetch (deliver [ordersContract]), .fetch (deliver [refusedOrders]), .prime ordersContract,
    .prime refusedOrders, .sweep]

omit [Host] in
theorem enforced_verdict_orders :
    (@executeWith Host.literal (steady.resolvingIn everySecond
        (run (@processStep Host.literal everySecond) ordersTurns { schemaStorage := {} }))
        steady.runWithTimeout steadyPayload "orders" "1").1 =
        .ok { status := .pass, evaluationStage := some .semantic } ∧
      @EnforcedVerdict Host.literal everySecond steady
        (run (@processStep Host.literal everySecond) ordersTurns { schemaStorage := {} })
        steadyPayload "orders" { status := .pass, evaluationStage := some .semantic } := by
  let _ := Host.literal
  have hclock : Monotone steady.clock := by
    intro i j hij
    show (i : ℤ) * 1000000 ≤ (j : ℤ) * 1000000
    omega
  have hr : (executeWith (steady.resolvingIn everySecond
        (run everySecond.processStep ordersTurns { schemaStorage := {} }))
        steady.runWithTimeout steadyPayload "orders" "1").1 =
        .ok { status := .pass, evaluationStage := some .semantic } := by decide +kernel
  exact ⟨hr, enforced_verdict hclock (σ := { schemaStorage := {} }) ⟨rfl, rfl⟩ ordersTurns
    steady.runWithTimeout steadyPayload "orders" "1" hr rfl⟩

end SyncContractsUseCase

end Congine
