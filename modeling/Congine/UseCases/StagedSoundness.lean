import Congine.UseCases.ValidateContract
import Mathlib.Data.Int.ConditionallyCompleteOrder
import Mathlib.Data.Int.SuccPred
/-!
# What an enforced result stands on

A result of the staged workflow that claims enforcement is backed by
stages that came back in time, under either awaiting primitive, any
monotone clock and whatever the runner does. `StageCases` says once what
a stage can do; the workflow is two of them in a row.
-/

namespace Congine

/-! ## One stage -/

/-- The instant a stage must beat: the smaller of its own cap, counted
from its opening, and the aggregate deadline. -/
def stageDeadline (aggregateDeadlineNs openedNs : ℤ) : Option ℤ → ℤ
  | some cap => min aggregateDeadlineNs (openedNs + cap * nsPerMs)
  | none => aggregateDeadlineNs

/-- A hand-off that keeps to its budgets: the deadline is the stage's and
the wait does not reach past it. -/
structure StageRun.WithinBudget (s : StageRun) (b : StageBudget) (stage : EvaluationStage)
    (stageCapMs : Option ℤ) : Prop where
  stage_eq : s.stage = stage
  deadline_eq : s.deadlineNs = stageDeadline b.aggregateDeadlineNs s.openedNs stageCapMs
  wait_le : s.openedNs + s.waitMs * nsPerMs ≤ s.deadlineNs

/-- What a stage can do: refuse for want of budget, fail, come back late,
or come back in time with a value. -/
inductive StageCases (b : StageBudget) (stage : EvaluationStage) (stageCapMs : Option ℤ)
    {α : Type} (work : Except Exc α) (t : Trace) :
    Except Exc (ValidationResult ⊕ α) × Trace → Prop
  | noBudget {t' : Trace} (hstages : t'.stages = t.stages) (hevents : t'.events = t.events) :
      StageCases b stage stageCapMs work t
        (.ok (.inl (degradedResult (timeoutReason stage) stage)), t')
  | failed {t' : Trace} (s : StageRun) (exc : Exc) (hs : s.WithinBudget b stage stageCapMs)
      (hstages : t'.stages = t.stages ++ [s]) (hevents : t'.events = t.events)
      (hexc : s.outcome = .raised exc ∨ s.outcome = .finished ∧ work = .error exc) :
      StageCases b stage stageCapMs work t ((stageFailure stage exc).map .inl, t')
  | late {t' : Trace} (s : StageRun) (value : α) (hs : s.WithinBudget b stage stageCapMs)
      (hstages : t'.stages = t.stages ++ [s]) (hevents : t'.events = t.events)
      (hout : s.outcome = .finished) (hwork : work = .ok value) :
      StageCases b stage stageCapMs work t
        (.ok (.inl (degradedResult (timeoutReason stage) stage)), t')
  | inTime {t' : Trace} (s : StageRun) (value : α) (hs : s.WithinBudget b stage stageCapMs)
      (hstages : t'.stages = t.stages ++ [s]) (hevents : t'.events = t.events)
      (hout : s.outcome = .finished) (hwork : work = .ok value)
      (hreturned : s.returnedNs < s.deadlineNs) :
      StageCases b stage stageCapMs work t (.ok (.inr value), t')

theorem stageFailure_ok {stage : EvaluationStage} {exc : Exc} {r : ValidationResult}
    (h : stageFailure stage exc = .ok r) : ∃ reason, r = degradedResult reason stage := by
  unfold stageFailure at h
  split_ifs at h <;> exact ⟨_, (Except.ok.inj h).symm⟩

section Cases

variable {b : StageBudget} {stage : EvaluationStage} {stageCapMs : Option ℤ} {α : Type}
  {work : Except Exc α} {t : Trace} {out : Except Exc (ValidationResult ⊕ α) × Trace}

theorem StageCases.events_eq (h : StageCases b stage stageCapMs work t out) :
    out.2.events = t.events := by
  cases h <;> assumption

/-- The stages after one are those before it and at most its own. -/
theorem StageCases.mem_stages (h : StageCases b stage stageCapMs work t out) {s : StageRun}
    (hs : s ∈ out.2.stages) : s ∈ t.stages ∨ s.WithinBudget b stage stageCapMs := by
  have hnew : ∀ s' : StageRun, s'.WithinBudget b stage stageCapMs →
      s ∈ t.stages ++ [s'] → s ∈ t.stages ∨ s.WithinBudget b stage stageCapMs := by
    intro s' hs' hmem
    rcases List.mem_append.mp hmem with h | h
    · exact .inl h
    · rw [List.mem_singleton.mp h]
      exact .inr hs'
  cases h with
  | noBudget hstages _ => exact .inl (hstages ▸ hs)
  | failed s' _ hs' hstages _ _ => exact hnew s' hs' (hstages ▸ hs)
  | late s' _ hs' hstages _ _ _ => exact hnew s' hs' (hstages ▸ hs)
  | inTime s' _ hs' hstages _ _ _ _ => exact hnew s' hs' (hstages ▸ hs)

/-- The stages before one are still there after it. -/
theorem StageCases.stages_subset (h : StageCases b stage stageCapMs work t out) :
    t.stages ⊆ out.2.stages := by
  cases h with
  | noBudget hstages _ => exact hstages ▸ List.Subset.refl _
  | failed _ _ _ hstages _ _ => exact hstages ▸ List.subset_append_left _ _
  | late _ _ _ hstages _ _ _ => exact hstages ▸ List.subset_append_left _ _
  | inTime _ _ _ hstages _ _ _ _ => exact hstages ▸ List.subset_append_left _ _

/-- **A shed load is reported as one**: the stage that was shed comes back
degraded for that reason and no other. -/
theorem StageCases.shed (h : StageCases b stage stageCapMs work t out) {s : StageRun}
    (hs : s ∈ out.2.stages) (hshed : s.outcome = .raised .loadShedError) :
    s ∈ t.stages ∨ out.1 = .ok (.inl (degradedResult .loadShed stage)) := by
  cases h with
  | noBudget hstages _ => exact .inl (hstages ▸ hs)
  | failed s' exc hs' hstages _ hexc =>
    rcases List.mem_append.mp (hstages ▸ hs) with h | h
    · exact .inl h
    · obtain rfl := List.mem_singleton.mp h
      rcases hexc with hexc | ⟨hfin, -⟩
      · rw [hshed, RunOutcome.raised.injEq] at hexc
        rw [← hexc]
        exact .inr rfl
      · rw [hshed] at hfin
        cases hfin
  | late s' _ _ hstages _ hout _ =>
    rcases List.mem_append.mp (hstages ▸ hs) with h | h
    · exact .inl h
    · rw [List.mem_singleton.mp h, hout] at hshed
      cases hshed
  | inTime s' _ _ hstages _ hout _ _ =>
    rcases List.mem_append.mp (hstages ▸ hs) with h | h
    · exact .inl h
    · rw [List.mem_singleton.mp h, hout] at hshed
      cases hshed

theorem StageCases.degraded (h : StageCases b stage stageCapMs work t out) {r : ValidationResult}
    (hr : out.1 = .ok (.inl r)) : ∃ reason, r = degradedResult reason stage := by
  cases h with
  | noBudget => exact ⟨_, (Sum.inl.inj (Except.ok.inj hr)).symm⟩
  | failed _ exc =>
    cases hf : stageFailure stage exc with
    | error e => simp [hf, Except.map] at hr
    | ok r' =>
      obtain ⟨reason, rfl⟩ := stageFailure_ok hf
      simp only [hf, Except.map, Except.ok.injEq, Sum.inl.injEq] at hr
      exact ⟨reason, hr.symm⟩
  | late => exact ⟨_, (Sum.inl.inj (Except.ok.inj hr)).symm⟩
  | inTime => cases hr

/-- With no load shed before it, a stage that comes back degraded reports
one that is shed. -/
theorem StageCases.eq_loadShed (h : StageCases b stage stageCapMs work t out)
    (hshed : ∀ s ∈ t.stages, s.outcome ≠ .raised .loadShedError) {r : ValidationResult}
    (hr : out.1 = .ok (.inl r)) {s : StageRun} (hs : s ∈ out.2.stages)
    (hraised : s.outcome = .raised .loadShedError) : r = degradedResult .loadShed stage := by
  rcases h.shed hs hraised with hold | hnew
  · exact absurd hraised (hshed s hold)
  · exact Sum.inl.inj (Except.ok.inj (hr.symm.trans hnew))

/-- And one that comes back with a value sheds none. -/
theorem StageCases.not_shed (h : StageCases b stage stageCapMs work t out)
    (hshed : ∀ s ∈ t.stages, s.outcome ≠ .raised .loadShedError) {value : α}
    (hv : out.1 = .ok (.inr value)) : ∀ s ∈ out.2.stages, s.outcome ≠ .raised .loadShedError := by
  intro s hs hraised
  rcases h.shed hs hraised with hold | hnew
  · exact hshed s hold hraised
  · cases hv.symm.trans hnew

/-- **A value that comes back is in time.** -/
theorem StageCases.value (h : StageCases b stage stageCapMs work t out) {value : α}
    (hv : out.1 = .ok (.inr value)) :
    work = .ok value ∧ ∃ s ∈ out.2.stages, s.stage = stage ∧ s.outcome = .finished ∧
      s.returnedNs < stageDeadline b.aggregateDeadlineNs s.openedNs stageCapMs := by
  cases h with
  | noBudget => cases hv
  | failed _ exc =>
    cases hf : stageFailure stage exc with
    | error e => simp [hf, Except.map] at hv
    | ok r => simp [hf, Except.map] at hv
  | late => cases hv
  | inTime s value' hs hstages _ hout hwork hret =>
    obtain rfl := Sum.inr.inj (Except.ok.inj hv)
    refine ⟨hwork, s, by rw [hstages]; simp, hs.stage_eq, hout, ?_⟩
    rw [← hs.deadline_eq]
    exact hret

end Cases

namespace ValidateContractUseCase

variable {u : ValidateContractUseCase}

/-- The wait of a freshly opened stage does not reach past its deadline,
as far as it is positive. -/
theorem wait_le_deadline {b : StageBudget} {now : ℤ} (h : 0 < b.waitMs now) :
    now + b.waitMs now * nsPerMs ≤ b.stageDeadlineNs := by
  have hpos : b.waitMs now = (b.stageDeadlineNs - now) / nsPerMs := by
    unfold StageBudget.waitMs at h ⊢
    omega
  have := Int.ediv_mul_le (b.stageDeadlineNs - now) (show nsPerMs ≠ 0 by decide)
  rw [hpos]
  omega

/-- A stage found not exhausted had returned before both deadlines. -/
theorem returned_lt_of_not_exhausted (hclock : Monotone u.clock) {b : StageBudget} {t : Trace}
    {i : ℕ} (hi : i ≤ t.instants) (h : (u.exhausted b t).1 = false) :
    u.clock i < b.stageDeadlineNs := by
  unfold exhausted at h
  split at h
  · cases h
  · next hstage =>
    have := hclock hi
    omega

variable (u) in
theorem exhausted_trace (b : StageBudget) (t : Trace) :
    (u.exhausted b t).2.stages = t.stages ∧ (u.exhausted b t).2.events = t.events := by
  unfold exhausted
  split <;> exact ⟨rfl, rfl⟩

/-- **What a stage does**, case by case. -/
theorem runStageWith_cases (hclock : Monotone u.clock) {α : Type}
    (run : EvaluationStage → ℤ → RunOutcome) (work : Except Exc α) (b : StageBudget)
    (stage : EvaluationStage) (stageCapMs : Option ℤ) (t : Trace) :
    StageCases b stage stageCapMs work t (u.runStageWith run work b stage stageCapMs t) := by
  unfold runStageWith
  simp only
  split
  · exact .noBudget rfl rfl
  · next hwait =>
    set now := u.clock t.instants with hnow
    set b' := b.openStage now stageCapMs with hb'
    set s : StageRun := {
      stage := stage
      openedNs := now
      deadlineNs := b'.stageDeadlineNs
      waitMs := b'.waitMs now
      returnedNs := u.clock t.tick.instants
      outcome := run stage (b'.waitMs now) } with hs
    have hbudget : s.WithinBudget b stage stageCapMs := by
      refine ⟨rfl, ?_, wait_le_deadline (not_le.mp hwait)⟩
      cases stageCapMs <;> rfl
    -- The runner raises, the work raises, or the work has a value to check.
    split
    · next exc heq => exact .failed s exc hbudget rfl rfl (.inl heq)
    · next exc heq => exact .failed s exc hbudget rfl rfl (.inr ⟨heq, rfl⟩)
    · next value heq =>
      obtain ⟨hst, hev⟩ := exhausted_trace u b' (t.tick.tick.handOff s)
      split
      · exact .late s value hbudget hst hev heq rfl
      · next hlate =>
        -- The runner came back before the clock was read for the check.
        have hle : t.tick.instants ≤ (t.tick.tick.handOff s).instants := Nat.le_succ _
        exact .inTime s value hbudget hst hev heq rfl
          (returned_lt_of_not_exhausted hclock hle (by simpa using hlate))

/-! ## The workflow -/

/-- A stage came back with its value before the smaller of its cap and the
aggregate deadline. -/
def StageInTime (u : ValidateContractUseCase) (t : Trace) (stage : EvaluationStage)
    (stageCapMs : Option ℤ) : Prop :=
  ∃ s ∈ t.stages, s.stage = stage ∧ s.outcome = .finished ∧
    s.returnedNs < stageDeadline (u.clock 0 + u.timeoutMs * nsPerMs) s.openedNs stageCapMs

/-- The value was measured, and within its bound. -/
def WithinBytes (u : ValidateContractUseCase) (value : Json) (maxBytes : ℤ) : Prop :=
  ∃ size : ℕ, u.dumpsLength value = .ok size ∧ size ≤ maxBytes

/-- No wait of a run reaches past the aggregate deadline. -/
def WaitsWithin (u : ValidateContractUseCase) (t : Trace) : Prop :=
  ∀ s ∈ t.stages, s.openedNs + s.waitMs * nsPerMs ≤ u.clock 0 + u.timeoutMs * nsPerMs

/-- A stage the runner shed makes the result a shed load. -/
def ShedReported (t : Trace) (r : ValidationResult) : Prop :=
  ∀ s ∈ t.stages, s.outcome = .raised .loadShedError →
    ∃ stage, r = degradedResult .loadShed (some stage)

theorem stageDeadline_le (aggregateDeadlineNs openedNs : ℤ) (stageCapMs : Option ℤ) :
    stageDeadline aggregateDeadlineNs openedNs stageCapMs ≤ aggregateDeadlineNs := by
  cases stageCapMs with
  | none => exact le_rfl
  | some cap => exact min_le_left _ _

theorem waitsWithin_of_cases {b : StageBudget} {stage : EvaluationStage}
    {stageCapMs : Option ℤ} {α : Type} {work : Except Exc α} {t : Trace}
    {out : Except Exc (ValidationResult ⊕ α) × Trace}
    (h : StageCases b stage stageCapMs work t out)
    (hb : b.aggregateDeadlineNs = u.clock 0 + u.timeoutMs * nsPerMs) (ht : u.WaitsWithin t) :
    u.WaitsWithin out.2 := by
  intro s hs
  rcases h.mem_stages hs with hold | hnew
  · exact ht s hold
  · have := stageDeadline_le b.aggregateDeadlineNs s.openedNs stageCapMs
    rw [← hnew.deadline_eq, hb] at this
    exact le_trans hnew.wait_le this

/-! ## The size bounds -/

theorem checkSize_some {value : Json} {maxBytes : ℤ} {reason : DegradedReason}
    {breach : BreachDetail} {r : ValidationResult}
    (h : u.checkSize value maxBytes reason breach = .ok (some r)) :
    r = degradedResult reason none ∨
      (∃ size : ℕ, u.dumpsLength value = .ok size ∧ maxBytes < size) ∧
        r = { status := .fail, breaches := [breach] } := by
  unfold checkSize at h
  split at h
  · split_ifs at h
    exact .inl (Option.some.inj (Except.ok.inj h)).symm
  · next size hsize =>
    split_ifs at h with hlt
    · exact .inr ⟨⟨size, hsize, hlt⟩, (Option.some.inj (Except.ok.inj h)).symm⟩
    · cases h

theorem checkSize_none {value : Json} {maxBytes : ℤ} {reason : DegradedReason}
    {breach : BreachDetail} (h : u.checkSize value maxBytes reason breach = .ok none) :
    u.WithinBytes value maxBytes := by
  unfold checkSize at h
  split at h
  · split_ifs at h
    cases h
  · next size hsize =>
    split_ifs at h with hlt
    · cases h
    · exact ⟨size, hsize, not_lt.mp hlt⟩

theorem not_withinBytes {value : Json} {maxBytes : ℤ} {size : ℕ}
    (hsize : u.dumpsLength value = .ok size) (hlt : maxBytes < size) :
    ¬ u.WithinBytes value maxBytes := by
  rintro ⟨size', hsize', hle⟩
  obtain rfl := Except.ok.inj (hsize.symm.trans hsize')
  omega

/-- What publishing leaves, and what it returns when it returns. -/
theorem finalize_spec (result : ValidationResult) (contractId contractVersion : String)
    (t : Trace) :
    (u.finalize result contractId contractVersion t).2 =
        t.publish (telemetryEvent result contractId contractVersion) ∧
      ∀ r, (u.finalize result contractId contractVersion t).1 = .ok r → r = result := by
  unfold finalize
  simp only
  split
  · exact ⟨rfl, fun r hr => by cases hr⟩
  · split
    · exact ⟨rfl, fun r hr => by cases hr⟩
    · exact ⟨rfl, fun r hr => (Except.ok.inj hr).symm⟩

/-! ## The two stages -/

section Host

variable [Host]

/-- The native validator never degrades, and passes without a breach. -/
theorem localValidator_result {payload schema : Json} {r : ValidationResult}
    (h : LocalValidator.validate payload schema = .ok r) :
    r.degraded = false ∧ r.status = if r.breaches.isEmpty then .pass else .fail := by
  unfold LocalValidator.validate at h
  split at h
  · obtain rfl := Except.ok.inj h
    exact ⟨rfl, rfl⟩
  · cases hc : collect (LocalValidator.runRule payload schema) LocalValidator.rules with
    | error e => simp [hc, Except.map] at h
    | ok breaches =>
      simp only [hc, Except.map, Except.ok.injEq] at h
      obtain rfl := h
      exact ⟨rfl, rfl⟩

variable (u) in
/-- What the stages of an enforced result did, on one schema. -/
structure StagesBack (payload schema : Json) (t : Trace) (r native : ValidationResult)
    (semantic : List BreachDetail) : Prop where
  native_eq : LocalValidator.validate payload schema = .ok native
  native_inTime : u.StageInTime t .native u.nativeTimeoutMs
  semantic_eq : ∀ semanticValidator, u.semanticValidator = some semanticValidator →
    semanticValidator payload schema = .ok semantic ∧
      u.StageInTime t .semantic u.semanticTimeoutMs
  semantic_none : u.semanticValidator = none → semantic = []
  breaches_eq : r.breaches = native.breaches ++ semantic
  status_eq : r.status = if r.breaches.isEmpty then .pass else .fail

variable (u) in
/-- The result of the two stages is degraded, or both stages back it. -/
def StagesVerdict (payload schema : Json) (t : Trace) (r : ValidationResult) : Prop :=
  (∃ reason stage, r = degradedResult reason stage) ∨
    r.degraded = false ∧ ∃ native semantic, u.StagesBack payload schema t r native semantic

/-- **From the native value on**: the semantic stage is waited for in the
same budget, and its result is merged only when it came back in time. -/
theorem afterNative_spec (hclock : Monotone u.clock) (run : EvaluationStage → ℤ → RunOutcome)
    {payload schema : Json} {b : StageBudget} {native : ValidationResult} {t : Trace}
    (hb : b.aggregateDeadlineNs = u.clock 0 + u.timeoutMs * nsPerMs)
    (hnative : LocalValidator.validate payload schema = .ok native)
    (hintime : u.StageInTime t .native u.nativeTimeoutMs) (ht : u.WaitsWithin t)
    (hshed : ∀ s ∈ t.stages, s.outcome ≠ .raised .loadShedError) :
    let out := u.afterNative run payload schema b native t
    u.WaitsWithin out.2 ∧ out.2.events = t.events ∧
      ∀ r, out.1 = .ok r → u.StagesVerdict payload schema out.2 r ∧ ShedReported out.2 r := by
  obtain ⟨hdeg, hstatus⟩ := localValidator_result hnative
  simp only [afterNative, hdeg, Bool.false_eq_true, if_false]
  cases hsem : u.semanticValidator with
  | none =>
    refine ⟨ht, rfl, fun r hr => ?_⟩
    obtain rfl := Except.ok.inj hr
    refine ⟨.inr ⟨rfl, native, [], hnative, hintime, ?_, fun _ => rfl, ?_, hstatus⟩,
      fun s hs h => absurd h (hshed s hs)⟩
    · intro semanticValidator h
      rw [hsem] at h
      cases h
    · exact (List.append_nil _).symm
  | some semanticValidator =>
    simp only
    split
    · refine ⟨ht, rfl, fun r hr => ?_⟩
      obtain rfl := Except.ok.inj hr
      exact ⟨.inl ⟨_, _, rfl⟩, fun s hs h => absurd h (hshed s hs)⟩
    · have hcases := runStageWith_cases hclock run (semanticValidator payload schema) b .semantic
        u.semanticTimeoutMs t.tick
      generalize u.runStageWith run (semanticValidator payload schema) b .semantic
        u.semanticTimeoutMs t.tick = out at hcases
      have hwaits := waitsWithin_of_cases hcases hb (t := t.tick) ht
      have hev := hcases.events_eq
      obtain ⟨res, t'⟩ := out
      cases res with
      | error exc => exact ⟨hwaits, hev, fun r hr => by cases hr⟩
      | ok value =>
        cases value with
        | inl degraded =>
          refine ⟨hwaits, hev, fun r hr => ?_⟩
          obtain rfl := Except.ok.inj hr
          obtain ⟨reason, hreason⟩ := hcases.degraded rfl
          exact ⟨.inl ⟨reason, _, hreason⟩,
            fun s hs h => ⟨.semantic, hcases.eq_loadShed hshed rfl hs h⟩⟩
        | inr breaches =>
          refine ⟨hwaits, hev, fun r hr => ?_⟩
          obtain rfl := Except.ok.inj hr
          obtain ⟨hwork, hsemantic⟩ := hcases.value rfl
          rw [hb] at hsemantic
          obtain ⟨s₀, hs₀, hnativerun⟩ := hintime
          refine ⟨.inr ⟨hdeg, native, breaches, hnative, ⟨s₀, hcases.stages_subset hs₀,
            hnativerun⟩, ?_, ?_, rfl, rfl⟩,
            fun s hs h => absurd h (hcases.not_shed hshed rfl s hs)⟩
          · intro semanticValidator' h
            obtain rfl := Option.some.inj (hsem.symm.trans h)
            exact ⟨hwork, hsemantic⟩
          · intro h
            rw [hsem] at h
            cases h

/-- **Both stages in a row**, from the first reading of the clock. -/
theorem runStages_spec (hclock : Monotone u.clock) (run : EvaluationStage → ℤ → RunOutcome)
    (payload schema : Json) :
    let out := u.runStages run payload schema {}
    u.WaitsWithin out.2 ∧ out.2.events = [] ∧
      ∀ r, out.1 = .ok r → u.StagesVerdict payload schema out.2 r ∧ ShedReported out.2 r := by
  have hb : (StageBudget.start (u.clock 0) u.timeoutMs).aggregateDeadlineNs =
      u.clock 0 + u.timeoutMs * nsPerMs := rfl
  have hempty : u.WaitsWithin ({} : Trace).tick := fun s hs => absurd hs List.not_mem_nil
  have hnone : ∀ s ∈ ({} : Trace).tick.stages, s.outcome ≠ .raised .loadShedError :=
    fun s hs => absurd hs List.not_mem_nil
  have hcases := runStageWith_cases hclock run (LocalValidator.validate payload schema)
    (StageBudget.start (u.clock 0) u.timeoutMs) .native u.nativeTimeoutMs ({} : Trace).tick
  simp only [runStages]
  generalize u.runStageWith run (LocalValidator.validate payload schema)
    (StageBudget.start (u.clock 0) u.timeoutMs) .native u.nativeTimeoutMs
    ({} : Trace).tick = out at hcases
  have hwaits := waitsWithin_of_cases hcases hb hempty
  have hev : out.2.events = [] := hcases.events_eq
  obtain ⟨res, t⟩ := out
  cases res with
  | error exc => exact ⟨hwaits, hev, fun r hr => by cases hr⟩
  | ok value =>
    cases value with
    | inl degraded =>
      refine ⟨hwaits, hev, fun r hr => ?_⟩
      obtain rfl := Except.ok.inj hr
      obtain ⟨reason, hreason⟩ := hcases.degraded rfl
      exact ⟨.inl ⟨reason, _, hreason⟩,
        fun s hs h => ⟨.native, hcases.eq_loadShed hnone rfl hs h⟩⟩
    | inr native =>
      obtain ⟨hwork, hintime⟩ := hcases.value rfl
      obtain ⟨hwaits', hev', hverdict⟩ :=
        afterNative_spec hclock run hb hwork hintime hwaits (hcases.not_shed hnone rfl)
      exact ⟨hwaits', hev'.trans hev, hverdict⟩

/-! ## Enforced results -/

variable (u) in
/-- Where the result of a run comes from. -/
inductive RunVerdict (payload : Json) (contractId : String) (t : Trace) : ValidationResult → Prop
  | degraded (reason : DegradedReason) (stage : Option EvaluationStage) :
      RunVerdict payload contractId t (degradedResult reason stage)
  | payloadOversize {size : ℕ} (hsize : u.dumpsLength payload = .ok size)
      (hlt : u.maxPayloadBytes < size) :
      RunVerdict payload contractId t { status := .fail, breaches := [payloadOversizeBreach] }
  | schemaOversize {schema : Json} {size : ℕ} (hschema : u.resolveSchema contractId = .ok schema)
      (hsize : u.dumpsLength schema = .ok size) (hlt : u.maxSchemaBytes < size) :
      RunVerdict payload contractId t { status := .fail, breaches := [schemaOversizeBreach] }
  | evaluated {schema : Json} {r native : ValidationResult} {semantic : List BreachDetail}
      (hpayload : u.WithinBytes payload u.maxPayloadBytes)
      (hschema : u.resolveSchema contractId = .ok schema)
      (hbytes : u.WithinBytes schema u.maxSchemaBytes) (hdegraded : r.degraded = false)
      (hback : u.StagesBack payload schema t r native semantic) :
      RunVerdict payload contractId t r

/-- **Everything before the result is finalised**, size bounds included. -/
theorem evaluateWith_spec (hclock : Monotone u.clock) (run : EvaluationStage → ℤ → RunOutcome)
    (payload : Json) (contractId : String) :
    let out := u.evaluateWith run payload contractId {}
    u.WaitsWithin out.2 ∧ out.2.events = [] ∧
      ∀ r, out.1 = .ok r → u.RunVerdict payload contractId out.2 r ∧ ShedReported out.2 r := by
  have hempty : u.WaitsWithin {} := fun s hs => absurd hs List.not_mem_nil
  have hshed : ∀ r, ShedReported {} r := fun r s hs => absurd hs List.not_mem_nil
  simp only [evaluateWith]
  cases hp : u.checkPayloadSize payload with
  | error exc => exact ⟨hempty, rfl, fun r hr => by cases hr⟩
  | ok oversize =>
    cases oversize with
    | some result =>
      refine ⟨hempty, rfl, fun r hr => ⟨?_, hshed r⟩⟩
      obtain rfl := Except.ok.inj hr
      obtain rfl | ⟨⟨size, hsize, hlt⟩, rfl⟩ := checkSize_some hp
      · exact .degraded _ _
      · exact .payloadOversize hsize hlt
    | none =>
      cases hs : u.resolveSchema contractId with
      | error exc => exact ⟨hempty, rfl, fun r hr => by cases hr⟩
      | ok schema =>
        simp only
        cases hc : u.checkSchemaSize schema with
        | error exc => exact ⟨hempty, rfl, fun r hr => by cases hr⟩
        | ok oversize =>
          cases oversize with
          | some result =>
            refine ⟨hempty, rfl, fun r hr => ⟨?_, hshed r⟩⟩
            obtain rfl := Except.ok.inj hr
            obtain rfl | ⟨⟨size, hsize, hlt⟩, rfl⟩ := checkSize_some hc
            · exact .degraded _ _
            · exact .schemaOversize hs hsize hlt
          | none =>
            obtain ⟨hwaits, hev, hverdict⟩ := runStages_spec hclock run payload schema
            refine ⟨hwaits, hev, fun r hr => ?_⟩
            obtain ⟨⟨reason, stage, rfl⟩ | ⟨hdeg, native, semantic, hback⟩, hshed'⟩ :=
              hverdict r hr
            · exact ⟨.degraded _ _, hshed'⟩
            · exact ⟨.evaluated (checkSize_none hp) hs (checkSize_none hc) hdeg hback, hshed'⟩

variable (u) in
/-- What holds of everything a validation returns and publishes. -/
structure StagedSound (payload : Json) (contractId : String)
    (out : Except Exc ValidationResult × Trace) : Prop where
  enforced_pass : ∀ r, out.1 = .ok r → r.isEnforced → r.isPass →
    u.WithinBytes payload u.maxPayloadBytes ∧
      ∃ schema, u.resolveSchema contractId = .ok schema ∧
        u.WithinBytes schema u.maxSchemaBytes ∧
        (∃ native, LocalValidator.validate payload schema = .ok native ∧ native.breaches = []) ∧
        u.StageInTime out.2 .native u.nativeTimeoutMs ∧
        ∀ semanticValidator, u.semanticValidator = some semanticValidator →
          semanticValidator payload schema = .ok [] ∧
            u.StageInTime out.2 .semantic u.semanticTimeoutMs
  enforced_fail : ∀ r, out.1 = .ok r → r.isEnforced → ¬ r.isPass →
    r.breaches = [payloadOversizeBreach] ∧ ¬ u.WithinBytes payload u.maxPayloadBytes ∨
      ∃ schema, u.resolveSchema contractId = .ok schema ∧
        (r.breaches = [schemaOversizeBreach] ∧ ¬ u.WithinBytes schema u.maxSchemaBytes ∨
          ∃ native semantic, u.StagesBack payload schema out.2 r native semantic)
  degraded_fail : ∀ r, out.1 = .ok r → r.degraded → r.status = .fail ∧ r.breaches = []
  degraded_event : ∀ e ∈ out.2.events, e.degradedReason.isSome →
    e.status = .fail ∧ e.breachDetails = []
  load_shed : ∀ s ∈ out.2.stages, s.outcome = .raised .loadShedError →
    (∀ r, out.1 = .ok r → r.degradedReason = some .loadShed) ∧
      ∀ e ∈ out.2.events, e.degradedReason = some .loadShed
  waits_within : u.WaitsWithin out.2

/-- A result keeps its degradation, and a degraded one its emptiness. -/
theorem RunVerdict.degraded_fail {payload : Json} {contractId : String} {t : Trace}
    {r : ValidationResult} (h : u.RunVerdict payload contractId t r) (hd : r.degraded) :
    r.status = .fail ∧ r.breaches = [] := by
  cases h with
  | degraded reason stage => exact ⟨rfl, rfl⟩
  | payloadOversize => cases hd
  | schemaOversize => cases hd
  | evaluated _ _ _ hdegraded => simp [hdegraded] at hd

/-- A pass that is enforced comes from stages that found no breach. -/
theorem RunVerdict.enforced_pass {payload : Json} {contractId : String} {t : Trace}
    {r : ValidationResult} (h : u.RunVerdict payload contractId t r) (he : r.isEnforced)
    (hp : r.isPass) :
    u.WithinBytes payload u.maxPayloadBytes ∧
      ∃ schema, u.resolveSchema contractId = .ok schema ∧
        u.WithinBytes schema u.maxSchemaBytes ∧
        (∃ native, LocalValidator.validate payload schema = .ok native ∧ native.breaches = []) ∧
        u.StageInTime t .native u.nativeTimeoutMs ∧
        ∀ semanticValidator, u.semanticValidator = some semanticValidator →
          semanticValidator payload schema = .ok [] ∧
            u.StageInTime t .semantic u.semanticTimeoutMs := by
  cases h with
  | degraded reason stage => cases he
  | payloadOversize => cases hp
  | schemaOversize => cases hp
  | @evaluated schema r native semantic hpayload hschema hbytes hdegraded hback =>
    have hempty : r.breaches = [] := by
      have hstatus : r.status = .pass := by simpa [ValidationResult.isPass] using hp
      rw [hback.status_eq] at hstatus
      split_ifs at hstatus with hb
      exact List.isEmpty_iff.mp hb
    obtain ⟨hnative, rfl⟩ := List.append_eq_nil_iff.mp (hback.breaches_eq.symm.trans hempty)
    exact ⟨hpayload, schema, hschema, hbytes, ⟨native, hback.native_eq, hnative⟩,
      hback.native_inTime, hback.semantic_eq⟩

theorem RunVerdict.enforced_fail {payload : Json} {contractId : String} {t : Trace}
    {r : ValidationResult} (h : u.RunVerdict payload contractId t r) (he : r.isEnforced) :
    r.breaches = [payloadOversizeBreach] ∧ ¬ u.WithinBytes payload u.maxPayloadBytes ∨
      ∃ schema, u.resolveSchema contractId = .ok schema ∧
        (r.breaches = [schemaOversizeBreach] ∧ ¬ u.WithinBytes schema u.maxSchemaBytes ∨
          ∃ native semantic, u.StagesBack payload schema t r native semantic) := by
  cases h with
  | degraded reason stage => cases he
  | payloadOversize hsize hlt => exact .inl ⟨rfl, not_withinBytes hsize hlt⟩
  | schemaOversize hschema hsize hlt =>
    exact .inr ⟨_, hschema, .inl ⟨rfl, not_withinBytes hsize hlt⟩⟩
  | evaluated _ hschema _ _ hback => exact .inr ⟨_, hschema, .inr ⟨_, _, hback⟩⟩

theorem StagesBack.publish {payload schema : Json} {t : Trace} {r native : ValidationResult}
    {semantic : List BreachDetail} (h : u.StagesBack payload schema t r native semantic)
    (e : TelemetryEvent) : u.StagesBack payload schema (t.publish e) r native semantic :=
  ⟨h.native_eq, h.native_inTime, h.semantic_eq, h.semantic_none, h.breaches_eq, h.status_eq⟩

/-- Publishing leaves the stages alone, and so what they back. -/
theorem RunVerdict.publish {payload : Json} {contractId : String} {t : Trace}
    {r : ValidationResult} (h : u.RunVerdict payload contractId t r) (e : TelemetryEvent) :
    u.RunVerdict payload contractId (t.publish e) r := by
  cases h with
  | degraded reason stage => exact .degraded reason stage
  | payloadOversize hsize hlt => exact .payloadOversize hsize hlt
  | schemaOversize hschema hsize hlt => exact .schemaOversize hschema hsize hlt
  | evaluated hpayload hschema hbytes hdegraded hback =>
    exact .evaluated hpayload hschema hbytes hdegraded (hback.publish e)

/-- A workflow that raises returns and publishes nothing. -/
theorem stagedSound_error {payload : Json} {contractId : String} {exc : Exc} {t : Trace}
    (hev : t.events = []) (hwaits : u.WaitsWithin t) :
    u.StagedSound payload contractId (.error exc, t) where
  enforced_pass r hr := by cases hr
  enforced_fail r hr := by cases hr
  degraded_fail r hr := by cases hr
  degraded_event e he := by simp [hev] at he
  load_shed s _ _ := ⟨fun r hr => (by cases hr), fun e he => by simp [hev] at he⟩
  waits_within := hwaits

/-- **The workflow is sound** over either awaiting primitive. -/
theorem executeWith_sound (hclock : Monotone u.clock) (run : EvaluationStage → ℤ → RunOutcome)
    (payload : Json) (contractId contractVersion : String) :
    u.StagedSound payload contractId
      (u.executeWith run payload contractId contractVersion) := by
  obtain ⟨hwaits, hev, hverdict⟩ := evaluateWith_spec hclock run payload contractId
  simp only [executeWith]
  generalize u.evaluateWith run payload contractId {} = out at hwaits hev hverdict
  obtain ⟨res, t⟩ := out
  simp only at hwaits hev hverdict
  cases res with
  | error exc => exact stagedSound_error hev hwaits
  | ok result =>
    obtain ⟨hrun, hshed⟩ := hverdict result rfl
    obtain ⟨htrace, hret⟩ := finalize_spec (u := u) result contractId contractVersion t
    set event := telemetryEvent result contractId contractVersion with hevent
    have hverdict := hrun.publish event
    have hevents : ∀ e ∈ (t.publish event).events, e = event := by
      intro e he
      rw [Trace.events_publish, hev] at he
      simpa using he
    simp only
    generalize u.finalize result contractId contractVersion t = out at htrace hret ⊢
    obtain ⟨returned, t'⟩ := out
    obtain rfl : t' = t.publish event := htrace
    exact {
      enforced_pass := fun r hr he hp => by
        obtain rfl := hret r hr
        exact hverdict.enforced_pass he hp
      enforced_fail := fun r hr he _ => by
        obtain rfl := hret r hr
        exact hverdict.enforced_fail he
      degraded_fail := fun r hr hd => by
        obtain rfl := hret r hr
        exact hverdict.degraded_fail hd
      degraded_event := fun e he hd => by
        obtain rfl := hevents e he
        have hdeg : result.degraded = true := by
          by_contra hn
          simp [hevent, telemetryEvent, hn] at hd
        obtain ⟨hstatus, hbreaches⟩ := hrun.degraded_fail hdeg
        exact ⟨hstatus, by simp [hevent, telemetryEvent, hbreaches]⟩
      load_shed := fun s hs h => by
        obtain ⟨stage, rfl⟩ := hshed s hs h
        refine ⟨fun r hr => ?_, fun e he => ?_⟩
        · obtain rfl := hret r hr
          rfl
        · obtain rfl := hevents e he
          rfl
      waits_within := hwaits }

/-- **Enforced results are backed**: under any monotone clock, whatever the
runner does at each stage, and in both paths, an enforced pass stands on
measured inputs and on stages that came back clean and in time; an enforced
failure carries the native breaches followed by the semantic ones, or the
one size breach; a degraded result is an empty failure, a shed load is
reported as one, and no wait reaches past the aggregate deadline. -/
theorem execute_sound (hclock : Monotone u.clock) (payload : Json)
    (contractId contractVersion : String) :
    u.StagedSound payload contractId (u.execute payload contractId contractVersion) ∧
      u.StagedSound payload contractId (u.executeAsync payload contractId contractVersion) :=
  ⟨executeWith_sound hclock u.runWithTimeout payload contractId contractVersion,
    executeWith_sound hclock u.runWithTimeoutAsync payload contractId contractVersion⟩

end Host

/-- One stored contract, a clock that moves a millisecond a reading and a
runner that finishes both stages. -/
def steady : ValidateContractUseCase where
  storageGet _ := .ok (some (.obj [("required", .arr [.str "id"])]))
  dumpsLength _ := .ok 24
  clock i := i * nsPerMs
  runWithTimeout _ _ := .finished
  runWithTimeoutAsync _ _ := .raised .loadShedError
  publish _ := .ok ()
  semanticValidator := some fun _ _ => .ok []
  nativeTimeoutMs := some 5

/-- The payload of `steady` satisfies its contract. -/
def steadyPayload : Json := .obj [("id", .int 1)]

theorem steady_sound :
    (@execute Host.literal steady steadyPayload "orders" "1").1 =
        .ok { status := .pass, evaluationStage := some .semantic } ∧
      (@executeAsync Host.literal steady steadyPayload "orders" "1").1 =
        .ok (degradedResult .loadShed (some .native)) ∧
      @StagedSound steady Host.literal steadyPayload "orders"
        (@execute Host.literal steady steadyPayload "orders" "1") ∧
      @StagedSound steady Host.literal steadyPayload "orders"
        (@executeAsync Host.literal steady steadyPayload "orders" "1") := by
  have hclock : Monotone steady.clock := by
    intro i j hij
    show (i : ℤ) * 1000000 ≤ (j : ℤ) * 1000000
    omega
  exact ⟨by decide +kernel, by decide +kernel,
    @execute_sound steady Host.literal hclock steadyPayload "orders" "1"⟩

end ValidateContractUseCase

end Congine
