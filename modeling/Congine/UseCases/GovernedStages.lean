import Congine.UseCases.GovernedPool
import Congine.UseCases.PayloadView
/-!
# The workflow between its waits

What the workflow does up to a wait, past it and where there is none does
not depend on the runner, or depends on what the runner made of the one
stage. So a run is the pieces a validation goes through one after the
other, whatever happens between them.
-/

namespace Congine

/-- A result that reports a shed load. -/
def ValidationResult.isShed (r : ValidationResult) : Bool :=
  r.degraded && decide (r.degradedReason = some .loadShed)

def TelemetryEvent.isShed (e : TelemetryEvent) : Bool := decide (e.degradedReason = some .loadShed)

namespace ValidateContractUseCase

variable {u : ValidateContractUseCase} {run run' : EvaluationStage → ℤ → RunOutcome}
variable {α : Type} {work work' : Except Exc α} {b : StageBudget} {stage : EvaluationStage}
variable {stageCapMs : Option ℤ} {t : Trace} {payload schema : Json} {contractId : String}

/-! ## One stage -/

/-- A stage asks its runner for itself alone, and for the work where the
runner finishes. -/
theorem runStageWith_congr (hrun : ∀ wait, run stage wait = run' stage wait)
    (hwork : ∀ wait, run' stage wait = .finished → work = work') :
    u.runStageWith run work b stage stageCapMs t =
      u.runStageWith run' work' b stage stageCapMs t := by
  simp only [runStageWith, hrun]
  split
  · rfl
  · cases hout : run' stage ((b.openStage (u.clock t.instants) stageCapMs).waitMs
      (u.clock t.instants)) with
    | raised exc => rfl
    | finished => rw [hwork _ hout]

/-- A stage that is not handed over asks for nothing. -/
theorem runStageWith_of_no_wait (run run' : EvaluationStage → ℤ → RunOutcome)
    (work work' : Except Exc α) (stage : EvaluationStage)
    (h : u.stageWait b stageCapMs t = none) :
    (u.runStageWith run work b stage stageCapMs t).1 =
        .ok (.inl (degradedResult (timeoutReason stage) stage)) ∧
      u.runStageWith run work b stage stageCapMs t =
        u.runStageWith run' work' b stage stageCapMs t := by
  simp only [stageWait, ite_eq_left_iff, reduceCtorEq, imp_false, not_not] at h
  simp only [runStageWith, if_pos h]
  exact ⟨trivial, trivial⟩

/-- A value comes back of a runner that finished. -/
theorem runStageWith_value {value : α}
    (h : (u.runStageWith run work b stage stageCapMs t).1 = .ok (.inr value)) :
    work = .ok value ∧ ∃ wait, run stage wait = .finished := by
  refine ⟨(runStageWith_result run work b stage stageCapMs t).2.2 value h, ?_⟩
  simp only [runStageWith] at h
  split at h
  · cases h
  · cases hout : run stage ((b.openStage (u.clock t.instants) stageCapMs).waitMs
      (u.clock t.instants)) with
    | finished => exact ⟨_, hout⟩
    | raised exc =>
      simp only [hout] at h
      cases hf : stageFailure stage exc <;> simp [hf, Except.map] at h

/-- What the failure of a stage says of a shed load. -/
theorem stageFailure_isShed {exc : Exc} {r : ValidationResult}
    (h : stageFailure stage exc = .ok r) :
    r.isShed = decide (exc = .loadShedError) := by
  unfold stageFailure at h
  split_ifs at h with hshed htimeout hresource hcongine hexception
  all_goals obtain rfl := Except.ok.inj h
  · simp [hshed, degradedResult, ValidationResult.isShed]
  · cases stage <;> simp [hshed, degradedResult, ValidationResult.isShed, timeoutReason]
  · simp [hshed, degradedResult, ValidationResult.isShed]
  · simp [hshed, degradedResult, ValidationResult.isShed]

/-- **A stage that is handed over reports a shed load exactly where the
runner shed it.** -/
theorem runStageWith_isShed (out : RunOutcome) (stage : EvaluationStage)
    (hwork : work ≠ .error .loadShedError) (hwait : u.stageWait b stageCapMs t ≠ none) :
    let staged := u.runStageWith (fun _ _ => out) work b stage stageCapMs t
    (∀ r, staged.1 = .ok (.inl r) → r.isShed = decide (out = .raised .loadShedError)) ∧
      ∀ exc, staged.1 = .error exc → out ≠ .raised .loadShedError := by
  have hfailed : ∀ exc r, (stageFailure stage exc).map (@Sum.inl _ α) = .ok (.inl r) →
      r.isShed = decide (exc = .loadShedError) := by
    intro exc r h
    cases hf : stageFailure stage exc with
    | error e => simp [hf, Except.map] at h
    | ok r' =>
      simp only [hf, Except.map, Except.ok.injEq, Sum.inl.injEq] at h
      rw [← h]
      exact stageFailure_isShed hf
  intro staged
  simp only [stageWait, ne_eq, ite_eq_left_iff, reduceCtorEq, imp_false, not_not] at hwait
  simp only [staged, runStageWith, if_neg hwait]
  cases out with
  | raised exc =>
    refine ⟨fun r hr => ?_, fun e he hshed => ?_⟩
    · rw [hfailed exc r hr]
      simp
    · obtain rfl := RunOutcome.raised.inj hshed
      cases he
  | finished =>
    cases work with
    | error exc =>
      refine ⟨fun r hr => ?_, fun e he => by simp⟩
      rw [hfailed exc r hr]
      simpa using fun h => hwork (congrArg _ h)
    | ok value =>
      refine ⟨fun r hr => ?_, fun e he => by simp⟩
      simp only at hr
      split at hr
      · obtain rfl := Sum.inl.inj (Except.ok.inj hr)
        cases stage <;> simp [degradedResult, ValidationResult.isShed, timeoutReason]
      · cases hr

/-! ## Past the native stage -/

/-- The semantic stage is handed over past an enforced native value, by a
validator that is there, in time. -/
theorem semanticWait_ne_none {native : ValidationResult} (h : u.semanticWait native t ≠ none) :
    native.degraded = false ∧ (∃ validator, u.semanticValidator = some validator) ∧
      ¬ u.budget.aggregateDeadlineNs ≤ u.clock t.instants ∧
      u.stageWait u.budget u.semanticTimeoutMs t.tick ≠ none := by
  unfold semanticWait at h
  split at h
  · exact absurd rfl h
  · next hnone =>
    simp only [not_or, Bool.not_eq_true, Option.isNone_eq_false_iff,
      Option.isSome_iff_exists] at hnone
    exact ⟨hnone.1, hnone.2.1, hnone.2.2, h⟩

/-- What a step past the native stage answers: what it publishes, and what
it says of a shed load. -/
structure Answers (out : Except Exc ValidationResult × Trace) (events : List TelemetryEvent)
    (shed : Bool) : Prop where
  events_eq : out.2.events = events
  isShed_eq : ∀ r, out.1 = .ok r → r.isShed = shed
  not_shed : ∀ exc, out.1 = .error exc → shed = false

/-- A stage that ended degraded, or raised, answers for the validation. -/
theorem answers_of_isShed (out : RunOutcome) (stage : EvaluationStage)
    (hwork : work ≠ .error .loadShedError) (hwait : u.stageWait b stageCapMs t ≠ none) :
    let staged := u.runStageWith (fun _ _ => out) work b stage stageCapMs t
    (∀ r, staged.1 = .ok (.inl r) →
      Answers (.ok r, staged.2) t.events (decide (out = .raised .loadShedError))) ∧
    ∀ exc, staged.1 = .error exc →
      Answers (.error exc, staged.2) t.events (decide (out = .raised .loadShedError)) := by
  intro staged
  obtain ⟨hdegraded, hraised⟩ := runStageWith_isShed out stage hwork hwait
  have hevents := (runStageWith_result (u := u) (fun _ _ => out) work b stage stageCapMs t).1
  constructor
  · intro r hr
    refine ⟨hevents, fun r' hr' => ?_, fun exc h => by cases h⟩
    rw [← Except.ok.inj hr']
    exact hdegraded r hr
  · intro exc hexc
    exact ⟨hevents, fun r h => (by cases h), fun exc' _ => decide_eq_false (hraised exc hexc)⟩

/-- Where it is not handed over, the rest asks no runner and sheds nothing. -/
theorem afterNative_of_no_wait (run run' : EvaluationStage → ℤ → RunOutcome) (payload schema : Json)
    {native : ValidationResult} (h : u.semanticWait native t = none)
    (hnative : native.degraded = false) :
    u.afterNative run payload schema u.budget native t =
        u.afterNative run' payload schema u.budget native t ∧
      Answers (u.afterNative run payload schema u.budget native t) t.events false := by
  have hshed : ∀ r : ValidationResult, r.degraded = false → r.isShed = false :=
    fun r hr => by simp [ValidationResult.isShed, hr]
  simp only [afterNative, hnative, Bool.false_eq_true, if_false]
  cases hsem : u.semanticValidator with
  | none =>
    refine ⟨rfl, rfl, fun r hr => ?_, fun exc h => by cases h⟩
    exact hshed r (by rw [← Except.ok.inj hr])
  | some validator =>
    simp only
    by_cases hexpired : u.budget.aggregateDeadlineNs ≤ u.clock t.instants
    · simp only [if_pos hexpired]
      refine ⟨trivial, rfl, fun r hr => ?_, fun exc h => by cases h⟩
      rw [← Except.ok.inj hr]
      rfl
    · simp only [if_neg hexpired]
      have hwait : u.stageWait u.budget u.semanticTimeoutMs t.tick = none := by
        rw [semanticWait, if_neg] at h
        · exact h
        · simp [hnative, hsem, hexpired]
      obtain ⟨hfirst, hsame⟩ := runStageWith_of_no_wait run run' (validator payload schema)
        (validator payload schema) .semantic hwait
      have hevents := (runStageWith_result (u := u) run (validator payload schema) u.budget
        .semantic u.semanticTimeoutMs t.tick).1
      rw [← hsame]
      refine ⟨rfl, ?_⟩
      generalize u.runStageWith run (validator payload schema) u.budget .semantic
        u.semanticTimeoutMs t.tick = staged at hfirst hevents
      obtain ⟨staged, t'⟩ := staged
      obtain rfl : staged = _ := hfirst
      refine ⟨hevents, fun r hr => ?_, fun exc h => by cases h⟩
      rw [← Except.ok.inj hr]
      rfl

/-- Past its wait the semantic stage is what its call came to, merged where
that is a value. -/
theorem settleSemantic_past {native : ValidationResult} {o : Outcome StageValue}
    (hwait : u.semanticWait native t ≠ none) :
    u.settleSemantic o payload schema native t =
      match u.runStageWith (fun _ _ => o.stageRun) o.semantic u.budget .semantic
        u.semanticTimeoutMs t.tick with
      | (.error exc, t) => (.error exc, t)
      | (.ok (.inl degraded), t) => (.ok degraded, t)
      | (.ok (.inr breaches), t) => (.ok (merge native breaches), t) := by
  obtain ⟨hnative, -, hexpired, -⟩ := semanticWait_ne_none hwait
  simp only [settleSemantic, afterNative, hnative, Bool.false_eq_true, if_false, if_neg hexpired]
  rfl

/-- **The semantic stage under the pool** is the one under any runner that
says what the pool did. -/
theorem settleSemantic_eq {native : ValidationResult} {o : Outcome StageValue}
    (hwait : u.semanticWait native t ≠ none) (hrun : ∀ wait, run .semantic wait = o.stageRun)
    (hwork : o.stageRun = .finished → o.semantic = u.semanticWork payload schema) :
    u.settleSemantic o payload schema native t =
      u.afterNative run payload schema u.budget native t := by
  obtain ⟨hnative, ⟨validator, hsem⟩, hexpired, -⟩ := semanticWait_ne_none hwait
  rw [semanticWork, hsem] at hwork
  have hstage : u.runStageWith (fun _ _ => o.stageRun) o.semantic u.budget .semantic
        u.semanticTimeoutMs t.tick =
      u.runStageWith run (validator payload schema) u.budget .semantic u.semanticTimeoutMs t.tick :=
    runStageWith_congr (fun wait => (hrun wait).symm)
      (fun wait h => hwork ((hrun wait).symm.trans h))
  simp only [settleSemantic, afterNative, hnative, hsem, Bool.false_eq_true, if_false,
    if_neg hexpired]
  rw [← hstage]
  rfl

/-- And it reports a shed load exactly where the pool shed it. -/
theorem settleSemantic_answers (payload schema : Json) (o : Outcome StageValue)
    {native : ValidationResult} (hwait : u.semanticWait native t ≠ none) :
    Answers (u.settleSemantic o payload schema native t) t.events
      (decide (o.stageRun = .raised .loadShedError)) := by
  obtain ⟨hnative, -, -, hstage⟩ := semanticWait_ne_none hwait
  have hwork : o.semantic ≠ .error .loadShedError := by
    unfold Outcome.semantic
    split <;> exact fun h => by cases h
  obtain ⟨hdegraded, hraised⟩ := answers_of_isShed o.stageRun .semantic hwork hstage
  have hvalue : ∀ breaches, (u.runStageWith (fun _ _ => o.stageRun) o.semantic u.budget .semantic
      u.semanticTimeoutMs t.tick).1 = .ok (.inr breaches) → o.stageRun = .finished :=
    fun _ h => (runStageWith_value h).2.choose_spec
  have hevents := (runStageWith_result (u := u) (fun _ _ => o.stageRun) o.semantic u.budget
    .semantic u.semanticTimeoutMs t.tick).1
  rw [settleSemantic_past hwait]
  generalize u.runStageWith (fun _ _ => o.stageRun) o.semantic u.budget .semantic
    u.semanticTimeoutMs t.tick = staged at hdegraded hraised hvalue hevents
  obtain ⟨exc | degraded | breaches, t'⟩ := staged
  · exact hraised exc rfl
  · exact hdegraded degraded rfl
  · have hfinished := hvalue breaches rfl
    refine ⟨hevents, fun r hr => ?_, fun exc h => by cases h⟩
    rw [← Except.ok.inj hr, hfinished]
    simp [merge, ValidationResult.isShed, hnative]

/-- A verdict past the native stage is the native one alone, or both merged
where the semantic one came back. -/
theorem afterNative_verdict {native r : ValidationResult} {b : StageBudget}
    (h : (u.afterNative run payload schema b native t).1 = .ok r)
    (hnative : native.degraded = false) (hr : r.degraded = false) :
    (u.semanticValidator = none ∧ r = { native with evaluationStage := some .native }) ∨
      ∃ validator breaches, u.semanticValidator = some validator ∧
        validator payload schema = .ok breaches ∧ (∃ wait, run .semantic wait = .finished) ∧
        r = merge native breaches := by
  have hdegraded : ∀ {reason stage}, r ≠ degradedResult reason stage := by
    rintro reason stage rfl
    cases hr
  rw [afterNative, if_neg (by simp [hnative])] at h
  rcases hvalidator : u.semanticValidator with _ | validator
  · rw [hvalidator] at h
    exact .inl ⟨rfl, (Except.ok.inj h).symm⟩
  · rw [hvalidator] at h
    simp only at h
    split at h
    · exact absurd (Except.ok.inj h).symm hdegraded
    · obtain ⟨-, hl, -⟩ := runStageWith_result (u := u) run (validator payload schema) b .semantic
        u.semanticTimeoutMs t.tick
      rcases hstaged : u.runStageWith run (validator payload schema) b .semantic
        u.semanticTimeoutMs t.tick with ⟨exc | degraded | breaches, t'⟩
      · rw [hstaged] at h
        cases h
      · rw [hstaged] at h hl
        obtain ⟨reason, heq⟩ := hl _ rfl
        exact absurd ((Except.ok.inj h).symm.trans heq) hdegraded
      · rw [hstaged] at h
        obtain ⟨hwork, hfin⟩ := runStageWith_value (congrArg Prod.fst hstaged)
        exact .inr ⟨validator, breaches, rfl, hwork, hfin, (Except.ok.inj h).symm⟩

/-! ## Up to the native stage and past the end -/

variable [Host]

/-- Past the preflight a run is its stages. -/
theorem evaluateWith_of_preflight (run : EvaluationStage → ℤ → RunOutcome)
    (h : u.preflight payload contractId = some schema) :
    u.evaluateWith run payload contractId {} = u.runStages run payload schema {} := by
  unfold preflight at h
  split at h
  · next hpayload hschema =>
    split at h
    · next hsize =>
      obtain rfl := Option.some.inj h
      simp only [evaluateWith, hpayload, hschema, hsize]
    · cases h
  · cases h

/-- Short of it, it asks no runner, sheds nothing and names no stage. -/
theorem evaluateWith_of_no_preflight (run run' : EvaluationStage → ℤ → RunOutcome)
    (h : u.preflight payload contractId = none) :
    u.evaluateWith run payload contractId {} = u.evaluateWith run' payload contractId {} ∧
      Answers (u.evaluateWith run payload contractId {}) [] false ∧
      ∀ r, (u.evaluateWith run payload contractId {}).1 = .ok r → r.evaluationStage = none := by
  have hended : ∀ {out : Except Exc ValidationResult × Trace}, out.2 = {} →
      (∀ r, out.1 = .ok r → r.isShed = false ∧ r.evaluationStage = none) →
      Answers out [] false ∧ ∀ r, out.1 = .ok r → r.evaluationStage = none := by
    intro out htrace hr
    refine ⟨⟨?_, fun r h => (hr r h).1, fun _ _ => rfl⟩, fun r h => (hr r h).2⟩
    rw [htrace]
  have hsize : ∀ {value : Json} {maxBytes : ℤ} {reason : DegradedReason} {breach : BreachDetail}
      {r : ValidationResult}, reason ≠ .loadShed →
      u.checkSize value maxBytes reason breach = .ok (some r) →
      r.isShed = false ∧ r.evaluationStage = none := by
    intro value maxBytes reason breach r hreason h
    rcases checkSize_some h with rfl | ⟨-, rfl⟩
    · simp [ValidationResult.isShed, degradedResult, hreason]
    · exact ⟨rfl, rfl⟩
  unfold evaluateWith
  rcases hpayload : u.checkPayloadSize payload with exc | _ | oversize
  · exact ⟨rfl, hended rfl fun r hr => by cases hr⟩
  · rcases hschema : u.resolveSchema contractId with exc | schema
    · exact ⟨rfl, hended rfl fun r hr => by cases hr⟩
    · simp only
      rcases hbound : u.checkSchemaSize schema with exc | _ | oversize
      · exact ⟨rfl, hended rfl fun r hr => by cases hr⟩
      · simp [preflight, hpayload, hschema, hbound] at h
      · refine ⟨rfl, hended rfl fun r hr => ?_⟩
        rw [← Except.ok.inj hr]
        exact hsize (by decide) hbound
  · refine ⟨rfl, hended rfl fun r hr => ?_⟩
    rw [← Except.ok.inj hr]
    exact hsize (by decide) hpayload

/-- The stages, past the native one. -/
theorem runStages_eq (run : EvaluationStage → ℤ → RunOutcome) (payload schema : Json) :
    u.runStages run payload schema {} =
      match u.runStageWith run (LocalValidator.validate payload schema) u.budget .native
        u.nativeTimeoutMs (Trace.tick {}) with
      | (.error exc, t) => (.error exc, t)
      | (.ok (.inl degraded), t) => (.ok degraded, t)
      | (.ok (.inr native), t) => u.afterNative run payload schema u.budget native t := rfl

/-- Where the native stage is not handed over no runner is asked. -/
theorem runStages_of_no_wait (h : u.nativeWait = none) :
    u.runStages run payload schema {} = u.runStages run' payload schema {} ∧
      Answers (u.runStages run payload schema {}) [] false := by
  obtain ⟨hfirst, hsame⟩ := runStageWith_of_no_wait run run'
    (LocalValidator.validate payload schema) (LocalValidator.validate payload schema) .native h
  have hevents := (runStageWith_result (u := u) run (LocalValidator.validate payload schema)
    u.budget .native u.nativeTimeoutMs (Trace.tick {})).1
  rw [runStages_eq, runStages_eq, ← hsame]
  generalize u.runStageWith run (LocalValidator.validate payload schema) u.budget .native
    u.nativeTimeoutMs (Trace.tick {}) = staged at hfirst hevents
  obtain ⟨staged, t⟩ := staged
  obtain rfl : staged = _ := hfirst
  refine ⟨rfl, hevents, fun r hr => ?_, fun exc h => by cases h⟩
  rw [← Except.ok.inj hr]
  rfl

/-- A run that hands over nothing asks no runner and sheds nothing. -/
theorem evaluateWith_unasked (run run' : EvaluationStage → ℤ → RunOutcome)
    (h : ∀ schema wait, u.preflight payload contractId = some schema → u.nativeWait = some wait →
      False) :
    u.evaluateWith run payload contractId {} = u.evaluateWith run' payload contractId {} ∧
      Answers (u.evaluateWith run payload contractId {}) [] false := by
  rcases hpre : u.preflight payload contractId with _ | schema
  · obtain ⟨hsame, hanswers, -⟩ := evaluateWith_of_no_preflight run run' hpre
    exact ⟨hsame, hanswers⟩
  · have hwait : u.nativeWait = none :=
      Option.eq_none_iff_forall_ne_some.mpr fun wait hwait => h schema wait hpre hwait
    rw [evaluateWith_of_preflight run hpre, evaluateWith_of_preflight run' hpre]
    exact runStages_of_no_wait hwait

theorem executeWith_eq_conclude (run : EvaluationStage → ℤ → RunOutcome) (payload : Json)
    (contractId contractVersion : String) :
    u.executeWith run payload contractId contractVersion =
      u.conclude contractId contractVersion (u.evaluateWith run payload contractId {}) := by
  unfold executeWith conclude
  cases u.evaluateWith run payload contractId {} with
  | mk result t => cases result <;> rfl

omit [Host] in
/-- What a run returns it has come to. -/
theorem conclude_ok {out : Except Exc ValidationResult × Trace} {contractVersion : String}
    {r : ValidationResult} (h : (u.conclude contractId contractVersion out).1 = .ok r) :
    out.1 = .ok r := by
  obtain ⟨exc | result, t⟩ := out
  · exact h
  · rw [(finalize_spec (u := u) result contractId contractVersion t).2 r h]

omit [Host] in
/-- The end of a run publishes what it says of a shed load. -/
theorem conclude_isShed (u : ValidateContractUseCase) (contractId : String)
    {out : Except Exc ValidationResult × Trace} {shed : Bool} (h : Answers out [] shed)
    (contractVersion : String) :
    (u.conclude contractId contractVersion out).2.events.any TelemetryEvent.isShed = shed := by
  obtain ⟨hevents, hisShed, hnot⟩ := h
  obtain ⟨exc | result, t⟩ := out
  · rw [hnot exc rfl, conclude, hevents]
    rfl
  · rw [conclude, (finalize_spec (u := u) result contractId contractVersion t).1,
      Trace.events_publish,
      hevents, ← hisShed result rfl]
    cases hd : result.degraded <;> simp [telemetryEvent, TelemetryEvent.isShed,
      ValidationResult.isShed, hd]

end ValidateContractUseCase

end Congine
