import Congine.UseCases.StagedSoundness
/-!
# The workflow over any object

What a guarded function returns need not be a decoded value: the payload
is whatever object it made, or its extractor did. `PayloadView` is what
the workflow reads of such an object. On the view of a decoded value this
is the workflow of `ValidateContract`.
-/

namespace Congine

/-- An object as the workflow reads it. -/
structure PayloadView where
  /-- `len(json.dumps(payload, default=str))`. -/
  dumpsLength : Except Exc ℕ
  /-- `isinstance(payload, dict)`. -/
  isDict : Bool
  /-- What one rule makes of it under a schema. -/
  runRule : Json → String × Rule → Except Exc (List BreachDetail)
  /-- `semantic_validator.validate(payload, schema)`. -/
  semantic : Json → Except Exc (List BreachDetail)

variable [Host]

/-- `LocalValidator.validate`. -/
def LocalValidator.validateView (p : PayloadView) (schema : Json) : Except Exc ValidationResult :=
  if !p.isDict then .ok {
    status := .fail
    breaches := [{
      rule := "TYPE_MATCH"
      field := rootPath
      message := some "Payload must be an object/dict" }] }
  else
    (collect (p.runRule schema) LocalValidator.rules).map fun breaches =>
      { status := if breaches.isEmpty then .pass else .fail
        breaches := breaches }

namespace ValidateContractUseCase

variable (u : ValidateContractUseCase)

/-! ## The workflow -/

/-- `_check_payload_size`. -/
def checkViewSize (p : PayloadView) : Except Exc (Option ValidationResult) :=
  match p.dumpsLength with
  | .error exc =>
      -- `except Exception`: what cannot be measured is not evaluated.
      if exc.isException then .ok (some (degradedResult .invalidPayload none)) else .error exc
  | .ok size =>
      .ok (if u.maxPayloadBytes < size then
          some { status := .fail, breaches := [payloadOversizeBreach] }
        else none)

/-- From the native value on. -/
def afterNativeView (run : EvaluationStage → ℤ → RunOutcome) (p : PayloadView) (schema : Json)
    (b : StageBudget) (native : ValidationResult) (t : Trace) :
    Except Exc ValidationResult × Trace :=
  if native.degraded then (.ok native, t)
  else if u.semanticValidator.isNone then
    (.ok { native with evaluationStage := some .native }, t)
  else if b.aggregateDeadlineNs ≤ u.clock t.instants then
    (.ok (degradedResult .semanticTimeout (some .semantic)), t.tick)
  else
    match u.runStageWith run (p.semantic schema) b .semantic u.semanticTimeoutMs t.tick with
    | (.error exc, t) => (.error exc, t)
    | (.ok (.inl degraded), t) => (.ok degraded, t)
    | (.ok (.inr breaches), t) => (.ok (merge native breaches), t)

def runStagesView (run : EvaluationStage → ℤ → RunOutcome) (p : PayloadView) (schema : Json)
    (t : Trace) : Except Exc ValidationResult × Trace :=
  let b := StageBudget.start (u.clock t.instants) u.timeoutMs
  match u.runStageWith run (LocalValidator.validateView p schema) b .native u.nativeTimeoutMs
      t.tick with
  | (.error exc, t) => (.error exc, t)
  | (.ok (.inl degraded), t) => (.ok degraded, t)
  | (.ok (.inr native), t) => u.afterNativeView run p schema b native t

/-- Everything before `_finalize`. -/
def evaluateView (run : EvaluationStage → ℤ → RunOutcome) (p : PayloadView) (contractId : String)
    (t : Trace) : Except Exc ValidationResult × Trace :=
  match u.checkViewSize p with
  | .error exc => (.error exc, t)
  | .ok (some oversize) => (.ok oversize, t)
  | .ok none =>
      match u.resolveSchema contractId with
      | .error exc => (.error exc, t)
      | .ok schema =>
          match u.checkSchemaSize schema with
          | .error exc => (.error exc, t)
          | .ok (some oversize) => (.ok oversize, t)
          | .ok none => u.runStagesView run p schema t

/-- `execute` and `execute_async`, over the awaiting primitive of each. -/
def executeView (run : EvaluationStage → ℤ → RunOutcome) (p : PayloadView)
    (contractId contractVersion : String) : Except Exc ValidationResult × Trace :=
  match u.evaluateView run p contractId {} with
  | (.error exc, t) => (.error exc, t)
  | (.ok result, t) => u.finalize result contractId contractVersion t

/-! ## Decoded values -/

/-- A decoded value, as the workflow reads it. -/
def viewOf (payload : Json) : PayloadView where
  dumpsLength := u.dumpsLength payload
  isDict := payload.isObj
  runRule := LocalValidator.runRule payload
  semantic schema :=
    match u.semanticValidator with
    | some semanticValidator => semanticValidator payload schema
    | none => .ok []

omit [Host] in
theorem afterNativeView_viewOf (run : EvaluationStage → ℤ → RunOutcome) (payload schema : Json)
    (b : StageBudget) (native : ValidationResult) (t : Trace) :
    u.afterNativeView run (u.viewOf payload) schema b native t =
      u.afterNative run payload schema b native t := by
  unfold afterNativeView afterNative viewOf
  cases u.semanticValidator with
  | none => rfl
  | some semanticValidator => rfl

/-- **On decoded values the two workflows are one.** -/
theorem executeView_viewOf (run : EvaluationStage → ℤ → RunOutcome) (payload : Json)
    (contractId contractVersion : String) :
    u.executeView run (u.viewOf payload) contractId contractVersion =
      u.executeWith run payload contractId contractVersion := by
  have hstages : ∀ schema t, u.runStagesView run (u.viewOf payload) schema t =
      u.runStages run payload schema t := by
    intro schema t
    simp only [runStagesView, runStages, afterNativeView_viewOf]
    rfl
  have hevaluate : u.evaluateView run (u.viewOf payload) contractId {} =
      u.evaluateWith run payload contractId {} := by
    simp only [evaluateView, evaluateWith, hstages]
    rfl
  unfold executeView executeWith
  generalize u.evaluateView run (u.viewOf payload) contractId {} = out at hevaluate ⊢
  subst hevaluate
  rfl

/-! ## What a result says of the object -/

/-- The object was measured, its contract found and measured, and neither
evaluator found anything in it. -/
structure Cleared (p : PayloadView) (contractId : String) : Prop where
  payload_bytes : ∃ size : ℕ, p.dumpsLength = .ok size ∧ size ≤ u.maxPayloadBytes
  found : ∃ schema, u.resolveSchema contractId = .ok schema ∧
    u.WithinBytes schema u.maxSchemaBytes ∧ p.isDict ∧
    (∀ rule ∈ LocalValidator.rules, p.runRule schema rule = .ok []) ∧
    (u.semanticValidator.isSome → p.semantic schema = .ok [])

/-- What a result of the workflow can be: degraded with a reason, or a
verdict with none that passes only on a cleared object. -/
def Verdict (p : PayloadView) (contractId : String) (r : ValidationResult) : Prop :=
  (∃ reason stage, r = degradedResult reason stage) ∨
    (r.degraded = false ∧ r.degradedReason = none ∧ (r.isPass → u.Cleared p contractId))

variable {u} {p : PayloadView} {contractId : String} {schema : Json}

omit [Host] in
/-- A stage publishes nothing, and returns a degraded result or the value
of its work. -/
theorem runStageWith_result {α : Type} (run : EvaluationStage → ℤ → RunOutcome)
    (work : Except Exc α) (b : StageBudget) (stage : EvaluationStage) (stageCapMs : Option ℤ)
    (t : Trace) :
    let out := u.runStageWith run work b stage stageCapMs t
    out.2.events = t.events ∧
      (∀ r, out.1 = .ok (.inl r) → ∃ reason, r = degradedResult reason (some stage)) ∧
      ∀ value, out.1 = .ok (.inr value) → work = .ok value := by
  have hfailed : ∀ exc r, (stageFailure stage exc).map (@Sum.inl _ α) = .ok (.inl r) →
      ∃ reason, r = degradedResult reason (some stage) := by
    intro exc r h
    rcases hf : stageFailure stage exc with e | r'
    · simp [hf, Except.map] at h
    · obtain ⟨reason, rfl⟩ := stageFailure_ok hf
      simp only [hf, Except.map, Except.ok.injEq, Sum.inl.injEq] at h
      exact ⟨reason, h.symm⟩
  have hnone : ∀ exc value, (stageFailure stage exc).map (@Sum.inl _ α) ≠ .ok (.inr value) := by
    intro exc value h
    rcases hf : stageFailure stage exc with e | r' <;> simp [hf, Except.map] at h
  intro out
  simp only [out, runStageWith]
  split
  · exact ⟨rfl, fun r hr => ⟨_, (Sum.inl.inj (Except.ok.inj hr)).symm⟩, fun _ hv => by cases hv⟩
  · split
    · exact ⟨rfl, fun r hr => hfailed _ r hr, fun v hv => absurd hv (hnone _ v)⟩
    · exact ⟨rfl, fun r hr => hfailed _ r hr, fun v hv => absurd hv (hnone _ v)⟩
    · split
      · exact ⟨(exhausted_trace u _ _).2, fun r hr => ⟨_, (Sum.inl.inj (Except.ok.inj hr)).symm⟩,
          fun _ hv => by cases hv⟩
      · refine ⟨(exhausted_trace u _ _).2, fun _ hr => (by cases hr), fun v hv => ?_⟩
        rw [Sum.inr.inj (Except.ok.inj hv)]

/-- The native validator never degrades, and passes a dict without a
breach. -/
theorem validateView_result {native : ValidationResult}
    (h : LocalValidator.validateView p schema = .ok native) :
    native.degraded = false ∧ native.degradedReason = none ∧
      (native.breaches = [] →
        p.isDict ∧ ∀ rule ∈ LocalValidator.rules, p.runRule schema rule = .ok []) ∧
      (native.isPass → native.breaches = []) := by
  unfold LocalValidator.validateView at h
  split at h
  · obtain rfl := Except.ok.inj h
    exact ⟨rfl, rfl, fun hb => (by cases hb), fun hp => by cases hp⟩
  · next hdict =>
    rcases hc : collect (p.runRule schema) LocalValidator.rules with e | breaches
    · simp [hc, Except.map] at h
    · simp only [hc, Except.map, Except.ok.injEq] at h
      obtain rfl := h
      refine ⟨rfl, rfl, fun hb => ⟨by simpa using hdict, ?_⟩, fun hp => ?_⟩
      · exact collect_eq_ok_nil.mp (hc.trans (congrArg _ hb))
      · by_contra hne
        have hempty : breaches.isEmpty = false := by simpa using hne
        simp [ValidationResult.isPass, hempty] at hp

/-- From an enforced native value on. -/
theorem afterNativeView_verdict (run : EvaluationStage → ℤ → RunOutcome)
    (hbytes : ∃ size : ℕ, p.dumpsLength = .ok size ∧ size ≤ u.maxPayloadBytes)
    (hschema : u.resolveSchema contractId = .ok schema)
    (hwithin : u.WithinBytes schema u.maxSchemaBytes) {native : ValidationResult}
    (hnative : LocalValidator.validateView p schema = .ok native) (b : StageBudget) (t : Trace) :
    let out := u.afterNativeView run p schema b native t
    out.2.events = t.events ∧ ∀ r, out.1 = .ok r → u.Verdict p contractId r := by
  obtain ⟨hdeg, hreason, hclean, hpass⟩ := validateView_result hnative
  intro out
  simp only [out, afterNativeView, hdeg, Bool.false_eq_true, if_false]
  split
  -- No semantic validator: the native verdict stands alone.
  · next hnone =>
    refine ⟨rfl, fun r hr => .inr ?_⟩
    obtain rfl := Except.ok.inj hr
    refine ⟨rfl, hreason, fun hp => ⟨hbytes, schema, hschema, hwithin, ?_⟩⟩
    obtain ⟨hdict, hrules⟩ := hclean (hpass hp)
    exact ⟨hdict, hrules, fun hsome => by simp_all⟩
  · split
    · exact ⟨rfl, fun r hr => .inl ⟨_, _, (Except.ok.inj hr).symm⟩⟩
    · obtain ⟨hev, hl, hv⟩ := runStageWith_result (u := u) run (p.semantic schema) b .semantic
        u.semanticTimeoutMs t.tick
      generalize u.runStageWith run (p.semantic schema) b .semantic u.semanticTimeoutMs t.tick =
        staged at hev hl hv
      rcases staged with ⟨exc | degraded | breaches, t'⟩
      · exact ⟨hev, fun r hr => by cases hr⟩
      · refine ⟨hev, fun r hr => .inl ?_⟩
        obtain rfl := Except.ok.inj hr
        obtain ⟨reason, h⟩ := hl degraded rfl
        exact ⟨reason, _, h⟩
      · refine ⟨hev, fun r hr => .inr ?_⟩
        obtain rfl := Except.ok.inj hr
        refine ⟨hdeg, hreason, fun hp => ⟨hbytes, schema, hschema, hwithin, ?_⟩⟩
        -- A merged verdict passes on no breach of either.
        have hempty : native.breaches ++ breaches = [] := by
          by_contra hne
          simp only [merge, ValidationResult.isPass, List.isEmpty_iff, hne, if_false] at hp
          cases hp
        obtain ⟨hn, rfl⟩ := List.append_eq_nil_iff.mp hempty
        obtain ⟨hdict, hrules⟩ := hclean hn
        exact ⟨hdict, hrules, fun _ => hv [] rfl⟩

/-- **What the workflow reaches**: nothing is published on the way, and
every result is a verdict on this object. -/
theorem evaluateView_verdict (run : EvaluationStage → ℤ → RunOutcome) (p : PayloadView)
    (contractId : String) :
    let out := u.evaluateView run p contractId {}
    out.2.events = [] ∧ ∀ r, out.1 = .ok r → u.Verdict p contractId r := by
  have hfail : ∀ breach, u.Verdict p contractId { status := .fail, breaches := [breach] } :=
    fun breach => .inr ⟨rfl, rfl, fun hp => by cases hp⟩
  intro out
  simp only [out, evaluateView]
  rcases hp : u.checkViewSize p with exc | _ | oversize
  · exact ⟨rfl, fun r hr => by cases hr⟩
  · have hbytes : ∃ size : ℕ, p.dumpsLength = .ok size ∧ size ≤ u.maxPayloadBytes := by
      unfold checkViewSize at hp
      split at hp
      · split_ifs at hp
        cases hp
      · next size hsize =>
        split_ifs at hp with hlt
        · cases hp
        · exact ⟨size, hsize, not_lt.mp hlt⟩
    rcases hs : u.resolveSchema contractId with exc | schema
    · exact ⟨rfl, fun r hr => by cases hr⟩
    · simp only
      rcases hc : u.checkSchemaSize schema with exc | _ | oversize
      · exact ⟨rfl, fun r hr => by cases hr⟩
      · simp only [runStagesView]
        set b := StageBudget.start (u.clock (Trace.instants {})) u.timeoutMs
        obtain ⟨hev, hl, hv⟩ := runStageWith_result (u := u) run
          (LocalValidator.validateView p schema) b .native u.nativeTimeoutMs (Trace.tick {})
        -- Of the native stage only its result and events matter from here on.
        generalize u.runStageWith run (LocalValidator.validateView p schema) b .native
          u.nativeTimeoutMs (Trace.tick {}) = staged at hev hl hv
        rcases staged with ⟨exc | degraded | native, t⟩
        · exact ⟨hev, fun r hr => by cases hr⟩
        · refine ⟨hev, fun r hr => .inl ?_⟩
          obtain rfl := Except.ok.inj hr
          obtain ⟨reason, h⟩ := hl degraded rfl
          exact ⟨reason, _, h⟩
        · obtain ⟨hev', hverdict⟩ := afterNativeView_verdict run hbytes hs
            (checkSize_none hc) (hv native rfl) b t
          exact ⟨hev'.trans hev, hverdict⟩
      · refine ⟨rfl, fun r hr => ?_⟩
        obtain rfl := Except.ok.inj hr
        rcases checkSize_some hc with rfl | ⟨-, rfl⟩
        · exact .inl ⟨_, _, rfl⟩
        · exact hfail _
  · refine ⟨rfl, fun r hr => ?_⟩
    obtain rfl := Except.ok.inj hr
    unfold checkViewSize at hp
    split at hp
    · split_ifs at hp
      exact .inl ⟨_, _, (Option.some.inj (Except.ok.inj hp)).symm⟩
    · split_ifs at hp
      · rw [← Option.some.inj (Except.ok.inj hp)]
        exact hfail _
      · cases hp

theorem Verdict.enforced_of_pass {r : ValidationResult} (h : u.Verdict p contractId r)
    (hp : r.isPass) : r.isEnforced ∧ u.Cleared p contractId := by
  rcases h with ⟨reason, stage, rfl⟩ | ⟨hdeg, -, hclear⟩
  · cases hp
  · exact ⟨by simp [ValidationResult.isEnforced, hdeg], hclear hp⟩

/-- The reason an event carries is the result's own. -/
theorem Verdict.event_reason {r : ValidationResult} (h : u.Verdict p contractId r)
    (contractVersion : String) :
    (telemetryEvent r contractId contractVersion).degradedReason = r.degradedReason := by
  rcases h with ⟨reason, stage, rfl⟩ | ⟨hdeg, hreason, -⟩
  · rfl
  · simp [telemetryEvent, hdeg, hreason]

end ValidateContractUseCase

end Congine
