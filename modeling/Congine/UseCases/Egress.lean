import Congine.Domain.NativeDisclosure
import Congine.UseCases.PayloadView
/-!
# What leaves a validation

Of a payload, an event and a result carry the native findings it makes,
which come from one list for a contract, and what the semantic evaluator
reports of it. Where there is no semantic evaluator, none of its text
leaves: a contract has finitely many events.
-/

namespace Congine

namespace ValidateContractUseCase

section Egress

variable (u : ValidateContractUseCase) (findings : List BreachDetail) (payload : Json)
  (contractId : String)

/-- What the semantic evaluator reports of the payload under the contract's
schema. -/
def SemanticReport (breaches : List BreachDetail) : Prop :=
  ∃ semanticValidator schema, u.semanticValidator = some semanticValidator ∧
    u.resolveSchema contractId = .ok schema ∧ semanticValidator payload schema = .ok breaches

/-- Breaches that tell of the payload which findings it makes, in their
order, and then what the semantic evaluator says. -/
def Tells (breaches : List BreachDetail) : Prop :=
  ∃ native semantic, breaches = native ++ semantic ∧ native.Sublist findings ∧
    (semantic = [] ∨ u.SemanticReport payload contractId semantic)

end Egress

variable {u : ValidateContractUseCase} {findings : List BreachDetail} {payload : Json}
  {contractId : String}

/-- A native result alone. -/
theorem Tells.native {breaches : List BreachDetail} (h : breaches.Sublist findings) :
    u.Tells findings payload contractId breaches :=
  ⟨breaches, [], (List.append_nil _).symm, h, .inl rfl⟩

theorem Tells.degraded (reason : DegradedReason) (stage : Option EvaluationStage) :
    u.Tells findings payload contractId (degradedResult reason stage).breaches :=
  .native (List.nil_sublist _)

/-- Without a semantic evaluator the findings are all there is. -/
theorem Tells.sublist (hnone : u.semanticValidator = none) {breaches : List BreachDetail}
    (h : u.Tells findings payload contractId breaches) : breaches.Sublist findings := by
  obtain ⟨native, semantic, rfl, hnative, rfl | ⟨semanticValidator, schema, hsome, -⟩⟩ := h
  · simpa using hnative
  · rw [hnone] at hsome
    cases hsome

theorem storageGet_of_resolveSchema {schema : Json} (h : u.resolveSchema contractId = .ok schema) :
    u.storageGet contractId = .ok (some schema) := by
  unfold resolveSchema at h
  rcases hget : u.storageGet contractId with exc | _ | found
  · simp [hget, Except.bind] at h
  · simp [hget, Except.bind] at h
  · rw [hget] at h
    simp only [Except.bind] at h
    split at h
    · cases h
    · cases h
    · next hsome =>
      rw [← Except.ok.inj h]
      exact congrArg _ hsome

theorem checkSize_tells {value : Json} {maxBytes : ℤ} {reason : DegradedReason}
    {breach : BreachDetail} {r : ValidationResult} (hmem : breach ∈ findings)
    (h : u.checkSize value maxBytes reason breach = .ok (some r)) :
    u.Tells findings payload contractId r.breaches := by
  rcases checkSize_some h with rfl | ⟨-, rfl⟩
  · exact .degraded _ _
  · exact .native (List.singleton_sublist.mpr hmem)

/-! ## The stages -/

theorem afterNative_tells (run : EvaluationStage → ℤ → RunOutcome) (payload : Json)
    {schema : Json} (hschema : u.resolveSchema contractId = .ok schema) (b : StageBudget)
    {native : ValidationResult} (hnative : native.breaches.Sublist findings) (t : Trace) :
    let out := u.afterNative run payload schema b native t
    out.2.events = t.events ∧
      ∀ r, out.1 = .ok r → u.Tells findings payload contractId r.breaches := by
  intro out
  simp only [out, afterNative]
  split
  · refine ⟨rfl, fun r hr => ?_⟩
    obtain rfl := Except.ok.inj hr
    exact .native hnative
  · cases hsem : u.semanticValidator with
    | none =>
      refine ⟨rfl, fun r hr => ?_⟩
      obtain rfl := Except.ok.inj hr
      exact .native hnative
    | some semanticValidator =>
      simp only
      split
      · refine ⟨rfl, fun r hr => ?_⟩
        obtain rfl := Except.ok.inj hr
        exact .degraded _ _
      · obtain ⟨hev, hl, hv⟩ := runStageWith_result (u := u) run
          (semanticValidator payload schema) b .semantic u.semanticTimeoutMs t.tick
        generalize u.runStageWith run (semanticValidator payload schema) b .semantic
          u.semanticTimeoutMs t.tick = staged at hev hl hv
        rcases staged with ⟨exc | degraded | breaches, t'⟩
        · exact ⟨hev, fun r hr => by cases hr⟩
        · refine ⟨hev, fun r hr => ?_⟩
          obtain rfl := Except.ok.inj hr
          obtain ⟨reason, rfl⟩ := hl degraded rfl
          exact .degraded _ _
        · refine ⟨hev, fun r hr => ?_⟩
          obtain rfl := Except.ok.inj hr
          exact ⟨native.breaches, breaches, rfl, hnative,
            .inr ⟨semanticValidator, schema, hsem, hschema, hv breaches rfl⟩⟩

variable [Host]

theorem runStages_tells (run : EvaluationStage → ℤ → RunOutcome) {schema : Json}
    (hschema : u.resolveSchema contractId = .ok schema)
    (hwithin : TellsWithin
      (fun payload => (LocalValidator.validate payload schema).map (·.breaches)) findings)
    (t : Trace) :
    let out := u.runStages run payload schema t
    out.2.events = t.events ∧
      ∀ r, out.1 = .ok r → u.Tells findings payload contractId r.breaches := by
  intro out
  simp only [out, runStages]
  set b := StageBudget.start (u.clock t.instants) u.timeoutMs
  obtain ⟨hev, hl, hv⟩ := runStageWith_result (u := u) run
    (LocalValidator.validate payload schema) b .native u.nativeTimeoutMs t.tick
  generalize u.runStageWith run (LocalValidator.validate payload schema) b .native
    u.nativeTimeoutMs t.tick = staged at hev hl hv
  rcases staged with ⟨exc | degraded | native, t'⟩
  · exact ⟨hev, fun r hr => by cases hr⟩
  · refine ⟨hev, fun r hr => ?_⟩
    obtain rfl := Except.ok.inj hr
    obtain ⟨reason, rfl⟩ := hl degraded rfl
    exact .degraded _ _
  · have hnative : native.breaches.Sublist findings :=
      hwithin payload _ (congrArg (Except.map (·.breaches)) (hv native rfl))
    obtain ⟨hev', htells⟩ := afterNative_tells run payload hschema b hnative t'
    exact ⟨hev'.trans hev, htells⟩

/-! ## The workflow -/

/-- The findings of the schema that is stored, the oversize of either input
before them. -/
def Covers (found : Except Exc (Option Json)) (findings : List BreachDetail) : Prop :=
  payloadOversizeBreach ∈ findings ∧ schemaOversizeBreach ∈ findings ∧
    ∀ schema, found = .ok (some schema) → TellsWithin
      (fun payload => (LocalValidator.validate payload schema).map (·.breaches)) findings

theorem exists_covers (found : Except Exc (Option Json)) : ∃ findings, Covers found findings := by
  have hstored : ∃ findings, ∀ schema, found = .ok (some schema) → TellsWithin
      (fun payload => (LocalValidator.validate payload schema).map (·.breaches)) findings := by
    rcases found with exc | _ | schema
    · exact ⟨[], fun schema h => by cases h⟩
    · exact ⟨[], fun schema h => by cases h⟩
    · obtain ⟨findings, hwithin⟩ := LocalValidator.discreet_validate schema
      refine ⟨findings, fun schema' h => ?_⟩
      obtain rfl := Option.some.inj (Except.ok.inj h)
      exact hwithin
  obtain ⟨findings, hwithin⟩ := hstored
  refine ⟨payloadOversizeBreach :: schemaOversizeBreach :: findings, by simp, by simp,
    fun schema h payload ys hys => ?_⟩
  exact ((hwithin schema h payload ys hys).cons _).cons _

theorem evaluateWith_tells (run : EvaluationStage → ℤ → RunOutcome) (payload : Json)
    (hcovers : Covers (u.storageGet contractId) findings) (t : Trace) :
    let out := u.evaluateWith run payload contractId t
    out.2.events = t.events ∧
      ∀ r, out.1 = .ok r → u.Tells findings payload contractId r.breaches := by
  obtain ⟨hpayload, hoversize, hwithin⟩ := hcovers
  intro out
  simp only [out, evaluateWith]
  rcases hp : u.checkPayloadSize payload with exc | _ | oversize
  · exact ⟨rfl, fun r hr => by cases hr⟩
  · rcases hs : u.resolveSchema contractId with exc | schema
    · exact ⟨rfl, fun r hr => by cases hr⟩
    · simp only
      rcases hc : u.checkSchemaSize schema with exc | _ | oversize
      · exact ⟨rfl, fun r hr => by cases hr⟩
      · exact runStages_tells run hs (hwithin schema (storageGet_of_resolveSchema hs)) t
      · refine ⟨rfl, fun r hr => ?_⟩
        obtain rfl := Except.ok.inj hr
        exact checkSize_tells hoversize hc
  · refine ⟨rfl, fun r hr => ?_⟩
    obtain rfl := Except.ok.inj hr
    exact checkSize_tells hpayload hp

theorem executeWith_of_covers (run : EvaluationStage → ℤ → RunOutcome)
    (hcovers : Covers (u.storageGet contractId) findings) (contractVersion : String) :
    let out := u.executeWith run payload contractId contractVersion
    (∀ r, out.1 = .ok r → u.Tells findings payload contractId r.breaches) ∧
      ∀ e ∈ out.2.events, ∃ r : ValidationResult,
        e = telemetryEvent r contractId contractVersion ∧
          u.Tells findings payload contractId r.breaches := by
  obtain ⟨hev, htells⟩ := evaluateWith_tells run payload hcovers {}
  intro out
  simp only [out, executeWith]
  generalize u.evaluateWith run payload contractId {} = evaluated at hev htells
  rcases evaluated with ⟨exc | result, t⟩
  · refine ⟨fun r hr => (by cases hr), fun e he => ?_⟩
    rw [hev] at he
    cases he
  · have hnone : t.events = [] := hev
    obtain ⟨htrace, hresult⟩ := finalize_spec (u := u) result contractId contractVersion t
    refine ⟨fun r hr => ?_, fun e he => ⟨result, ?_, htells result rfl⟩⟩
    · rw [hresult r hr]
      exact htells result rfl
    · simp only [htrace, Trace.events_publish, hnone] at he
      exact List.mem_singleton.mp he

/-- **What leaves a validation.** For what is stored under a contract there
is one list of findings, and over every payload, clock, runner and event
bus a result is made of findings and of what the semantic evaluator
reports; every event is that of such a result. -/
theorem executeWith_tells (found : Except Exc (Option Json)) (contractId : String) :
    ∃ findings, ∀ (u : ValidateContractUseCase) (run : EvaluationStage → ℤ → RunOutcome)
      (payload : Json) (contractVersion : String), u.storageGet contractId = found →
      let out := u.executeWith run payload contractId contractVersion
      (∀ r, out.1 = .ok r → u.Tells findings payload contractId r.breaches) ∧
        ∀ e ∈ out.2.events, ∃ r : ValidationResult,
          e = telemetryEvent r contractId contractVersion ∧
            u.Tells findings payload contractId r.breaches := by
  obtain ⟨findings, hcovers⟩ := exists_covers found
  refine ⟨findings, fun u run payload contractVersion hget => ?_⟩
  exact executeWith_of_covers run (hget ▸ hcovers) contractVersion

end ValidateContractUseCase

/-! ## The events of a contract -/

instance : Fintype DegradedReason where
  elems := {.timeout, .loadShed, .resourceError, .internalError, .invalidPayload,
    .invalidContract, .semanticTimeout}
  complete reason := by cases reason <;> decide

instance : Fintype EvaluationStage where
  elems := {.native, .semantic}
  complete stage := by cases stage <;> decide

instance : Fintype Status where
  elems := {.pass, .fail}
  complete status := by cases status <;> decide

theorem finite_results (findings : List BreachDetail) :
    {r : ValidationResult | r.breaches.Sublist findings}.Finite := by
  refine Set.Finite.subset ((Set.finite_univ.prod (finite_sublists findings)).image
    fun (x : (Status × Bool × Option DegradedReason × Option EvaluationStage) ×
        List BreachDetail) => ({
      status := x.1.1
      breaches := x.2
      degraded := x.1.2.1
      degradedReason := x.1.2.2.1
      evaluationStage := x.1.2.2.2 } : ValidationResult)) fun r h => ?_
  exact ⟨((r.status, r.degraded, r.degradedReason, r.evaluationStage), r.breaches),
    ⟨trivial, h⟩, rfl⟩

namespace ValidateContractUseCase

variable [Host]

/-- **A contract has finitely many events**, whatever payloads are
validated against it and however the runs go, where no semantic evaluator
is wired. -/
theorem finite_events (found : Except Exc (Option Json)) (contractId contractVersion : String) :
    {e | ∃ (u : ValidateContractUseCase) (run : EvaluationStage → ℤ → RunOutcome)
      (payload : Json), u.storageGet contractId = found ∧ u.semanticValidator = none ∧
        e ∈ (u.executeWith run payload contractId contractVersion).2.events}.Finite := by
  obtain ⟨findings, hcovers⟩ := exists_covers found
  refine ((finite_results findings).image fun r =>
    telemetryEvent r contractId contractVersion).subset ?_
  rintro e ⟨u, run, payload, hget, hnone, he⟩
  obtain ⟨r, rfl, htells⟩ :=
    (executeWith_of_covers run (hget ▸ hcovers) contractVersion).2 e he
  exact ⟨r, htells.sublist hnone, rfl⟩

end ValidateContractUseCase

end Congine
