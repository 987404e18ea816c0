import Congine.Common.Calls
import Congine.Infrastructure.ExecutorReports
import Congine.UseCases.GovernedStages
/-!
# Every validation over the pool is one of the workflow

In whatever order the validations, the workers and the clock take their
steps, a validation that has ended is a run of the workflow under the runner
the pool has been to it. Its enforced verdict stands on functions the pool's
workers ran to their end, and what the pool has counted as rejected is what
the validations report, or are about to.
-/

namespace Congine

namespace GovernedPool

open BoundedValidationExecutor

variable {convert : Exc → Option Exc} {s s' s'' : GovernedPool} {x : Validation} {call : ℕ}
variable {o : Outcome StageValue}

/-! ## What is so of the pool -/

/-- How calls ended and what their functions return stands. -/
structure Later (s s' : GovernedPool) : Prop where
  outcome : ∀ call o, s.outcome call = some o → s'.outcome call = some o
  work : ∀ (call : ℕ) w, s.work[call]? = some w → s'.work[call]? = some w

theorem Later.refl (s : GovernedPool) : s.Later s := ⟨fun _ _ => id, fun _ _ => id⟩

theorem outcome_eq_some : s.outcome call = some o ↔
    ∃ c, s.pool.calls[call]? = some c ∧ c.outcome = some o := Option.bind_eq_some_iff

/-- **The pool runs what was handed to it.** -/
structure Serves (s : GovernedPool) : Prop where
  pool : BoundedValidationExecutor.Inv s.pool
  length_eq : s.work.length = s.pool.calls.length
  genuine : ∀ (i : ℕ) c result, s.pool.calls[i]? = some c → c.result = some result →
    s.work[i]? = some result
  reported : ∀ (i : ℕ) c, s.pool.calls[i]? = some c → c.Reported

theorem serves_new (maxWorkers maxPending : ℕ) : (new maxWorkers maxPending).Serves where
  pool := inv_new maxWorkers maxPending
  length_eq := rfl
  genuine i c result h := by cases h
  reported i c h := by cases h

/-- A call whose function is known is there. -/
theorem Serves.call_of_work (h : s.Serves) {w : Except Exc StageValue}
    (hw : s.work[call]? = some w) : ∃ c, s.pool.calls[call]? = some c := by
  have hlt := (List.getElem?_eq_some_iff.mp hw).1
  rw [h.length_eq] at hlt
  exact ⟨_, List.getElem?_eq_getElem hlt⟩

/-- The function of a call was run to its end by a worker, and returned a
value. -/
def Ran (s : GovernedPool) (call : ℕ) (value : StageValue) : Prop :=
  ∃ c, s.pool.calls[call]? = some c ∧ c.future = some .finished ∧ c.result = some (.ok value)

theorem stageRun_finished (h : o.stageRun = .finished) : ∃ value, o = .delivered (.ok value) := by
  unfold Outcome.stageRun at h
  split at h <;> first | exact ⟨_, rfl⟩ | cases h

/-- **A value that came back is the function's own.** -/
theorem Serves.ran (h : s.Serves) (ho : s.outcome call = some o) (hfin : o.stageRun = .finished) :
    ∃ value, o = .delivered (.ok value) ∧ s.Ran call value ∧ s.work[call]? = some (.ok value) := by
  obtain ⟨value, rfl⟩ := stageRun_finished hfin
  obtain ⟨c, hc, hout⟩ := outcome_eq_some.mp ho
  obtain ⟨hfinished, hresult⟩ := (h.reported call c hc).value value hout
  exact ⟨value, rfl, ⟨c, hc, hfinished, hresult⟩, h.genuine call c _ hc hresult⟩

theorem Serves.native_eq (h : s.Serves) (ho : s.outcome call = some o)
    {w : Except Exc ValidationResult} (hw : s.work[call]? = some (w.map .inl))
    (hfin : o.stageRun = .finished) : o.native = w := by
  obtain ⟨value, rfl, -, hvalue⟩ := h.ran ho hfin
  have hmap := Option.some.inj (hw.symm.trans hvalue)
  cases w with
  | error exc => cases hmap
  | ok native =>
    obtain rfl := Except.ok.inj hmap
    rfl

theorem Serves.semantic_eq (h : s.Serves) (ho : s.outcome call = some o)
    {w : Except Exc (List BreachDetail)} (hw : s.work[call]? = some (w.map .inr))
    (hfin : o.stageRun = .finished) : o.semantic = w := by
  obtain ⟨value, rfl, -, hvalue⟩ := h.ran ho hfin
  have hmap := Option.some.inj (hw.symm.trans hvalue)
  cases w with
  | error exc => cases hmap
  | ok breaches =>
    obtain rfl := Except.ok.inj hmap
    rfl

/-- What a call ended in is no shed load the function raised. -/
theorem Serves.isShed_eq (h : s.Serves) (ho : s.outcome call = some o) :
    decide (o.stageRun = .raised .loadShedError) = o.isShed := by
  obtain ⟨c, hc, hout⟩ := outcome_eq_some.mp ho
  cases o with
  | delivered result =>
    cases result with
    | ok value => rfl
    | error exc =>
      have hexc := (h.reported call c hc).exception exc hout
      refine decide_eq_false fun hshed => ?_
      obtain rfl := RunOutcome.raised.inj hshed
      cases hexc
  | _ => rfl

/-! ### Steps of the pool -/

theorem Serves.poolStep (convert : Exc → Option Exc) (h : s.Serves) {e : Event StageValue}
    (hcall : ∀ async timeoutMs, e ≠ .call async timeoutMs)
    (hfinish : ∀ i result, e = .finish i result → s.work[i]? = some result) :
    let s' := { s with pool := BoundedValidationExecutor.step convert e s.pool }
    s'.Serves ∧ s.Later s' ∧ s'.pool.rejectedTotal = s.pool.rejectedTotal ∧
      ∀ call, (∃ c, s.pool.calls[call]? = some c) →
        (s'.outcome call).any Outcome.isShed = (s.outcome call).any Outcome.isShed := by
  intro s'
  have hsame := sameCallers_step convert e hcall s.pool
  refine ⟨⟨h.pool.of_step convert e, h.length_eq.trans hsame.length_eq.symm, ?_,
    reported_step convert e h.pool h.reported⟩, ⟨?_, fun _ _ => id⟩, hsame.rejectedTotal_eq, ?_⟩
  · intro i c result hi hresult
    rcases result_step convert e hi hresult with ⟨c', hi', hresult'⟩ | hfin
    · exact h.genuine i c' result hi' hresult'
    · exact hfinish i result hfin
  · intro call o ho
    obtain ⟨c, hc, hout⟩ := outcome_eq_some.mp ho
    exact outcome_eq_some.mpr (outcome_step convert e h.pool hc hout)
  · rintro call ⟨c, hc⟩
    obtain ⟨c', hc', hshed⟩ := shed_step convert e h.pool hc
    simp only [outcome, hc, s', hc', Option.bind_some]
    exact hshed

theorem Serves.submit (h : s.Serves) (hlock : s.pool.lock = none) (async : Bool) (waitMs : ℤ)
    (work : Except Exc StageValue) :
    let s' := s.submit async waitMs work
    s'.Serves ∧ s.Later s' ∧ s'.work[s.pool.calls.length]? = some work ∧
      s'.pool.rejectedTotal = s.pool.rejectedTotal +
        ((s'.outcome s.pool.calls.length).any Outcome.isShed).toNat ∧
      ∀ call, (∃ c, s.pool.calls[call]? = some c) → s'.outcome call = s.outcome call := by
  intro s'
  obtain ⟨c, hcalls, hrejected, hnone⟩ := enter_spec hlock async waitMs
  have hcalls' : s'.pool.calls = s.pool.calls ++ [c] := hcalls
  have hnew : s'.pool.calls[s.pool.calls.length]? = some c := by
    rw [hcalls', List.getElem?_append_right le_rfl, Nat.sub_self]
    rfl
  have hold : ∀ (call : ℕ) c', s.pool.calls[call]? = some c' → s'.pool.calls[call]? = some c' := by
    intro call c' hc'
    rw [hcalls']
    exact getElem?_joined_old hc'
  have hwork : ∀ (call : ℕ) w, s.work[call]? = some w → s'.work[call]? = some w :=
    fun call w hw => getElem?_joined_old hw
  have hback : ∀ (call : ℕ) c', s'.pool.calls[call]? = some c' →
      s.pool.calls[call]? = some c' ∨ call = s.pool.calls.length ∧ c' = c := by
    intro call c' hc'
    rw [hcalls'] at hc'
    exact getElem?_joined hc'
  have hpool := h.pool.of_step some (.call async waitMs)
  refine ⟨⟨hpool, ?_, ?_, ?_⟩, ⟨?_, hwork⟩, ?_, ?_, ?_⟩
  · rw [hcalls', List.length_append, ← h.length_eq]
    exact List.length_append
  · intro i c' result hi hresult
    rcases hback i c' hi with hi' | ⟨-, rfl⟩
    · exact hwork i result (h.genuine i c' result hi' hresult)
    · rw [hnone] at hresult
      cases hresult
  · exact reported_step some (.call async waitMs) h.pool h.reported
  · intro call o ho
    obtain ⟨c', hc', hout⟩ := outcome_eq_some.mp ho
    exact outcome_eq_some.mpr ⟨c', hold call c' hc', hout⟩
  · rw [← h.length_eq]
    exact List.getElem?_concat_length
  · simp only [outcome, hnew, Option.bind_some]
    exact hrejected
  · rintro call ⟨c', hc'⟩
    simp only [outcome, hc', hold call c' hc']

/-! ## What is so of a validation -/

variable [Host]

/-- The calls a validation has made have its functions. -/
structure Attributed (s : GovernedPool) (x : Validation) : Prop where
  native : ∀ call, x.nativeCall = some call → ∃ schema,
    x.useCase.preflight x.payload x.contractId = some schema ∧
      s.work[call]? = some ((LocalValidator.validate x.payload schema).map .inl)
  semantic : ∀ call, x.semanticCall = some call → ∃ schema,
    x.useCase.preflight x.payload x.contractId = some schema ∧
      s.work[call]? = some ((x.useCase.semanticWork x.payload schema).map .inr)

/-- Where a validation stands, it got by the workflow. -/
inductive Stands (s : GovernedPool) (x : Validation) : ValidationPhase → Prop
  | native {schema : Json} {call : ℕ} (hcall : x.nativeCall = some call)
      (hnone : x.semanticCall = none)
      (hpre : x.useCase.preflight x.payload x.contractId = some schema)
      (hwait : x.useCase.nativeWait ≠ none) : Stands s x (.native schema call)
  | semantic {schema : Json} {native : ValidationResult} {t : Trace} {call first : ℕ}
      {o : Outcome StageValue} (hfirst : x.nativeCall = some first)
      (hcall : x.semanticCall = some call)
      (hpre : x.useCase.preflight x.payload x.contractId = some schema)
      (ho : s.outcome first = some o) (hvalue : x.useCase.settleNative o = (.ok (.inr native), t))
      (hwait : x.useCase.semanticWait native t ≠ none) : Stands s x (.semantic schema native t call)
  | ended {out : Except Exc ValidationResult × Trace}
      (hnative : ∀ call, x.nativeCall = some call → s.outcome call ≠ none)
      (hsemantic : ∀ call, x.semanticCall = some call → s.outcome call ≠ none)
      (hout : out = x.useCase.executeWith (s.runner x) x.payload x.contractId x.contractVersion) :
      Stands s x (.ended out)

structure Follows (s : GovernedPool) (x : Validation) : Prop where
  attributed : s.Attributed x
  stands : s.Stands x x.phase

omit [Host] in
/-- The runner of a validation whose calls have ended is the same later. -/
theorem Later.runner_eq (h : s.Later s')
    (hnative : ∀ call, x.nativeCall = some call → s.outcome call ≠ none)
    (hsemantic : ∀ call, x.semanticCall = some call → s.outcome call ≠ none) :
    s'.runner x = s.runner x := by
  have hcall : ∀ call : Option ℕ, (∀ c, call = some c → s.outcome c ≠ none) →
      call.bind s'.outcome = call.bind s.outcome := by
    intro call hended
    cases call with
    | none => rfl
    | some c =>
      obtain ⟨o, ho⟩ := Option.ne_none_iff_exists'.mp (hended c rfl)
      rw [Option.bind_some, Option.bind_some, ho]
      exact h.outcome c o ho
  funext stage wait
  cases stage with
  | native => simp only [runner, hcall _ hnative]
  | semantic => simp only [runner, hcall _ hsemantic]

theorem Follows.later (h : s.Later s') (hx : s.Follows x) : s'.Follows x where
  attributed := by
    refine ⟨fun call hcall => ?_, fun call hcall => ?_⟩
    · obtain ⟨schema, hpre, hw⟩ := hx.attributed.native call hcall
      exact ⟨schema, hpre, h.work call _ hw⟩
    · obtain ⟨schema, hpre, hw⟩ := hx.attributed.semantic call hcall
      exact ⟨schema, hpre, h.work call _ hw⟩
  stands := by
    have hended : ∀ call, s.outcome call ≠ none → s'.outcome call ≠ none := by
      intro call hcall
      obtain ⟨o, ho⟩ := Option.ne_none_iff_exists'.mp hcall
      rw [h.outcome call o ho]
      exact Option.some_ne_none o
    have hstands := hx.stands
    generalize x.phase = phase at hstands
    cases hstands with
    | native hcall hnone hpre hwait => exact .native hcall hnone hpre hwait
    | semantic hfirst hcall hpre ho hvalue hwait =>
      exact .semantic hfirst hcall hpre (h.outcome _ _ ho) hvalue hwait
    | ended hnative hsemantic hout =>
      refine .ended (fun call hcall => hended call (hnative call hcall))
        (fun call hcall => hended call (hsemantic call hcall)) ?_
      rw [h.runner_eq hnative hsemantic]
      exact hout

/-- The validation reports a shed load, or is about to. -/
def charged (s : GovernedPool) (x : Validation) : Bool :=
  match x.phase with
  | .native _ call | .semantic _ _ _ call => (s.outcome call).any Outcome.isShed
  | .ended out => out.2.events.any TelemetryEvent.isShed

/-- A validation is charged as before where its call ended as before. -/
theorem charged_eq (hserves : s.Serves) (hx : s.Follows x)
    (hshed : ∀ call, (∃ c, s.pool.calls[call]? = some c) →
      (s'.outcome call).any Outcome.isShed = (s.outcome call).any Outcome.isShed) :
    s'.charged x = s.charged x := by
  have hstands := hx.stands
  unfold charged
  generalize x.phase = phase at hstands
  cases hstands with
  | native hcall hnone hpre hwait =>
    obtain ⟨_, -, hw⟩ := hx.attributed.native _ hcall
    exact hshed _ (hserves.call_of_work hw)
  | semantic hfirst hcall hpre ho hvalue hwait =>
    obtain ⟨_, -, hw⟩ := hx.attributed.semantic _ hcall
    exact hshed _ (hserves.call_of_work hw)
  | ended hnative hsemantic hout => rfl

/-- What holds of every reachable state. -/
structure Inv (s : GovernedPool) : Prop where
  serves : s.Serves
  follows : ∀ x ∈ s.validations, s.Follows x
  rejected : s.pool.rejectedTotal = s.validations.countP s.charged

theorem inv_new (maxWorkers maxPending : ℕ) : (new maxWorkers maxPending).Inv where
  serves := serves_new maxWorkers maxPending
  follows x hx := by cases hx
  rejected := rfl

/-! ## Steps of a validation -/

/-- The validations are charged as before, those that were there. -/
theorem Inv.countP_charged (h : s.Inv)
    (hshed : ∀ call, (∃ c, s.pool.calls[call]? = some c) →
      (s'.outcome call).any Outcome.isShed = (s.outcome call).any Outcome.isShed) :
    s.validations.countP s'.charged = s.validations.countP s.charged :=
  List.countP_congr fun x hx => by rw [charged_eq h.serves (h.follows x hx) hshed]

/-- **A validation ends** with what its stages came to, under the runner it
has had. -/
theorem Inv.settle (h : s.Inv) {i : ℕ} (hi : s.validations[i]? = some x)
    {out : Except Exc ValidationResult × Trace}
    (hanswers : ValidateContractUseCase.Answers out [] (s.charged x))
    (hnative : ∀ call, x.nativeCall = some call → s.outcome call ≠ none)
    (hsemantic : ∀ call, x.semanticCall = some call → s.outcome call ≠ none)
    (hout : out = x.useCase.evaluateWith (s.runner x) x.payload x.contractId {}) :
    (s.settle i x out).Inv := by
  have hx := h.follows x (List.mem_of_getElem? hi)
  set x' : Validation := { x with
    phase := .ended (x.useCase.conclude x.contractId x.contractVersion out) } with hx'
  have hlater : s.Later (s.put i x') := ⟨fun _ _ => id, fun _ _ => id⟩
  have hcharged : s.charged x' = s.charged x :=
    ValidateContractUseCase.conclude_isShed x.useCase x.contractId hanswers x.contractVersion
  refine ⟨⟨h.serves.pool, h.serves.length_eq, h.serves.genuine, h.serves.reported⟩, ?_, ?_⟩
  · intro y hy
    obtain ⟨j, hj⟩ := List.getElem?_of_mem hy
    rcases getElem?_moved hi hj with ⟨-, rfl⟩ | ⟨-, hold⟩
    · refine ⟨⟨hx.attributed.native, hx.attributed.semantic⟩, .ended hnative hsemantic ?_⟩
      rw [ValidateContractUseCase.executeWith_eq_conclude, hout]
      rfl
    · exact (h.follows y (List.mem_of_getElem? hold)).later hlater
  · have hcount := countP_moved s.charged hi x'
    rw [hcharged] at hcount
    exact h.rejected.trans (Nat.add_right_cancel hcount).symm

omit [Host] in
theorem runner_native (hcall : x.nativeCall = some call) (ho : s.outcome call = some o) (wait : ℤ) :
    s.runner x .native wait = o.stageRun := by
  simp only [runner, hcall, Option.bind_some, ho]

omit [Host] in
theorem runner_semantic (hcall : x.semanticCall = some call) (ho : s.outcome call = some o)
    (wait : ℤ) : s.runner x .semantic wait = o.stageRun := by
  simp only [runner, hcall, Option.bind_some, ho]

/-- The native stage under the pool is the one under the runner the pool has
been. -/
theorem settleNative_eq (hserves : s.Serves) (hx : s.Attributed x)
    (hcall : x.nativeCall = some call) (ho : s.outcome call = some o) {schema : Json}
    (hpre : x.useCase.preflight x.payload x.contractId = some schema) :
    x.useCase.settleNative o =
      x.useCase.runStageWith (s.runner x) (LocalValidator.validate x.payload schema)
        x.useCase.budget .native x.useCase.nativeTimeoutMs (Trace.tick {}) := by
  obtain ⟨schema', hpre', hw⟩ := hx.native call hcall
  obtain rfl := Option.some.inj (hpre.symm.trans hpre')
  have hrun := runner_native hcall ho
  exact ValidateContractUseCase.runStageWith_congr (fun wait => (hrun wait).symm)
    fun wait hfin => hserves.native_eq ho hw ((hrun wait).symm.trans hfin)

/-- **A validation hands over** its next stage, to a free lock. -/
theorem Inv.submit (h : s.Inv) (hlock : s.pool.lock = none) {i : ℕ}
    (hi : s.validations[i]? = some x) (hcharged : s.charged x = false) {schema : Json}
    {native : ValidationResult} {t : Trace} {wait : ℤ} {first : ℕ}
    (hfirst : x.nativeCall = some first) (ho : s.outcome first = some o)
    (hpre : x.useCase.preflight x.payload x.contractId = some schema)
    (hvalue : x.useCase.settleNative o = (.ok (.inr native), t))
    (hwait : x.useCase.semanticWait native t ≠ none) :
    ((s.submit x.async wait ((x.useCase.semanticWork x.payload schema).map .inr)).put i
      { x with
        semanticCall := some s.pool.calls.length
        phase := .semantic schema native t s.pool.calls.length }).Inv := by
  have hx := h.follows x (List.mem_of_getElem? hi)
  obtain ⟨hserves, hsubmitted, hwork, hrejected, hold⟩ := h.serves.submit hlock x.async wait
    ((x.useCase.semanticWork x.payload schema).map .inr)
  set x' : Validation := { x with
    semanticCall := some s.pool.calls.length
    phase := .semantic schema native t s.pool.calls.length } with hx'
  set s₁ := s.submit x.async wait ((x.useCase.semanticWork x.payload schema).map .inr) with hs₁
  have hlater : s.Later (s₁.put i x') := ⟨hsubmitted.outcome, hsubmitted.work⟩
  refine ⟨⟨hserves.pool, hserves.length_eq, hserves.genuine, hserves.reported⟩, ?_, ?_⟩
  · intro y hy
    obtain ⟨j, hj⟩ := List.getElem?_of_mem hy
    rcases getElem?_moved hi hj with ⟨-, rfl⟩ | ⟨-, hold⟩
    · refine ⟨⟨fun c hc => ?_, fun c hc => ?_⟩, ?_⟩
      · obtain ⟨schema', hpre', hw⟩ := hx.attributed.native c hc
        exact ⟨schema', hpre', hsubmitted.work c _ hw⟩
      · rw [← Option.some.inj hc]
        exact ⟨schema, hpre, hwork⟩
      · exact .semantic hfirst rfl hpre (hsubmitted.outcome _ _ ho) hvalue hwait
    · exact (h.follows y (List.mem_of_getElem? hold)).later hlater
  · have hcount := countP_moved s₁.charged hi x'
    have hshed : ∀ call, (∃ c, s.pool.calls[call]? = some c) →
        (s₁.outcome call).any Outcome.isShed = (s.outcome call).any Outcome.isShed :=
      fun call hc => by rw [hold call hc]
    have hsame : s₁.charged x = false := (charged_eq h.serves hx hshed).trans hcharged
    rw [h.countP_charged hshed, hsame, ← h.rejected] at hcount
    exact hrejected.trans hcount.symm

omit [Host] in
/-- What a native value that came back says. -/
theorem settleNative_value (u : ValidateContractUseCase) {native : ValidationResult} {t : Trace}
    (h : u.settleNative o = (.ok (.inr native), t)) :
    o.stageRun = .finished ∧ t.events = [] := by
  constructor
  · exact (ValidateContractUseCase.runStageWith_value (congrArg Prod.fst h)).2.choose_spec
  · have hevents := (ValidateContractUseCase.runStageWith_result (u := u) (fun _ _ => o.stageRun)
      o.native u.budget .native u.nativeTimeoutMs (Trace.tick {})).1
    rwa [show (u.runStageWith _ _ _ _ _ _).2 = t from congrArg Prod.snd h] at hevents

/-- A validation whose native stage came back is at its semantic one. -/
theorem evaluateWith_of_settleNative (hserves : s.Serves) (hx : s.Attributed x)
    (hcall : x.nativeCall = some call) (ho : s.outcome call = some o) {schema : Json}
    (hpre : x.useCase.preflight x.payload x.contractId = some schema)
    {native : ValidationResult} {t : Trace}
    (h : x.useCase.settleNative o = (.ok (.inr native), t)) :
    x.useCase.evaluateWith (s.runner x) x.payload x.contractId {} =
      x.useCase.afterNative (s.runner x) x.payload schema x.useCase.budget native t := by
  rw [ValidateContractUseCase.evaluateWith_of_preflight _ hpre,
    ValidateContractUseCase.runStages_eq,
    ← settleNative_eq hserves hx hcall ho hpre, h]

/-- **The native call of a validation has ended.** -/
theorem Inv.resumeNative (h : s.Inv) {i : ℕ} (hi : s.validations[i]? = some x) {schema : Json}
    (hphase : x.phase = .native schema call) (ho : s.outcome call = some o) :
    (s.resumeNative i x schema o).Inv := by
  have hx := h.follows x (List.mem_of_getElem? hi)
  have hstands := hx.stands
  rw [hphase] at hstands
  obtain ⟨hcall, hnone, hpre, hwait⟩ | _ | _ := hstands
  have hcharged : s.charged x = decide (o.stageRun = .raised .loadShedError) := by
    rw [h.serves.isShed_eq ho, charged, hphase]
    simp only [ho, Option.any_some]
  have hnative : ∀ c, x.nativeCall = some c → s.outcome c ≠ none := by
    intro c hc
    obtain rfl := Option.some.inj (hcall.symm.trans hc)
    rw [ho]
    exact Option.some_ne_none o
  have hsemantic : ∀ c, x.semanticCall = some c → s.outcome c ≠ none := by
    intro c hc
    rw [hnone] at hc
    cases hc
  have hwork : o.native ≠ .error .loadShedError := by
    unfold Outcome.native
    split <;> exact fun h => by cases h
  have hstage := settleNative_eq h.serves hx.attributed hcall ho hpre
  have hevaluate := ValidateContractUseCase.evaluateWith_of_preflight (s.runner x) hpre
  rw [ValidateContractUseCase.runStages_eq, ← hstage] at hevaluate
  obtain ⟨hdegraded, hraised⟩ := ValidateContractUseCase.answers_of_isShed o.stageRun
    .native hwork hwait
  rw [← hcharged] at hdegraded hraised
  unfold GovernedPool.resumeNative
  rcases hstaged : x.useCase.settleNative o with ⟨exc | degraded | native, t⟩
  · rw [hstaged] at hevaluate
    have hanswers := hraised exc (congrArg Prod.fst hstaged)
    rw [show (x.useCase.runStageWith _ _ _ _ _ _).2 = t from congrArg Prod.snd hstaged] at hanswers
    exact h.settle hi hanswers hnative hsemantic hevaluate.symm
  · rw [hstaged] at hevaluate
    have hanswers := hdegraded degraded (congrArg Prod.fst hstaged)
    rw [show (x.useCase.runStageWith _ _ _ _ _ _).2 = t from congrArg Prod.snd hstaged] at hanswers
    exact h.settle hi hanswers hnative hsemantic hevaluate.symm
  · obtain ⟨hfin, hevents⟩ := settleNative_value x.useCase hstaged
    rw [hfin] at hcharged
    have hdeg : native.degraded = false := by
      rw [hstage] at hstaged
      exact (ValidateContractUseCase.localValidator_result
        (ValidateContractUseCase.runStageWith_value (congrArg Prod.fst hstaged)).1).1
    rw [hstaged] at hevaluate
    simp only
    split
    · next hwait =>
      obtain ⟨hsame, hanswers⟩ := ValidateContractUseCase.afterNative_of_no_wait
        (fun _ _ => .finished) (s.runner x) x.payload schema hwait hdeg
      rw [hevents] at hanswers
      refine h.settle hi ?_ hnative hsemantic (hsame.trans hevaluate.symm)
      rw [hcharged]
      exact hanswers
    · next wait hwait =>
      split
      · exact h
      · next hlock =>
        refine h.submit (by simpa using hlock) hi (hcharged.trans (by simp)) hcall ho hpre hstaged
          ?_
        rw [hwait]
        exact Option.some_ne_none wait

/-- **The semantic call of a validation has ended.** -/
theorem Inv.resumeSemantic (h : s.Inv) {i : ℕ} (hi : s.validations[i]? = some x) {schema : Json}
    {native : ValidationResult} {t : Trace} (hphase : x.phase = .semantic schema native t call)
    (ho : s.outcome call = some o) :
    (s.settle i x (x.useCase.settleSemantic o x.payload schema native t)).Inv := by
  have hx := h.follows x (List.mem_of_getElem? hi)
  have hstands := hx.stands
  rw [hphase] at hstands
  obtain _ | ⟨hfirst, hcall, hpre, hfirstOut, hvalue, hwait⟩ | _ := hstands
  have hcharged : s.charged x = decide (o.stageRun = .raised .loadShedError) := by
    rw [h.serves.isShed_eq ho, charged, hphase]
    simp only [ho, Option.any_some]
  obtain ⟨schema', hpre', hwork⟩ := hx.attributed.semantic call hcall
  obtain rfl := Option.some.inj (hpre.symm.trans hpre')
  have hanswers := ValidateContractUseCase.settleSemantic_answers x.payload schema o hwait
  rw [(settleNative_value x.useCase hvalue).2, ← hcharged] at hanswers
  refine h.settle hi hanswers (fun c hc => ?_) (fun c hc => ?_) ?_
  · rw [← Option.some.inj (hfirst.symm.trans hc), hfirstOut]
    exact Option.some_ne_none _
  · rw [← Option.some.inj (hcall.symm.trans hc), ho]
    exact Option.some_ne_none o
  · rw [evaluateWith_of_settleNative h.serves hx.attributed hfirst hfirstOut hpre hvalue]
    exact ValidateContractUseCase.settleSemantic_eq hwait (runner_semantic hcall ho)
      (h.serves.semantic_eq ho hwork)

theorem Inv.resume (h : s.Inv) (i : ℕ) : (s.resume i).Inv := by
  unfold GovernedPool.resume
  split
  · exact h
  · next x hi =>
    split
    · exact h
    · next schema call hphase =>
      split
      · exact h
      · next o ho => exact h.resumeNative hi hphase ho
    · next schema native t call hphase =>
      split
      · exact h
      · next o ho => exact h.resumeSemantic hi hphase ho

/-- A validation comes in, charged as what counts. -/
theorem Inv.join (h : s.Inv) (hserves : s'.Serves) (hlater : s.Later s')
    (hvalidations : s'.validations = s.validations ++ [x]) (hx : s'.Follows x)
    (hshed : ∀ call, (∃ c, s.pool.calls[call]? = some c) →
      (s'.outcome call).any Outcome.isShed = (s.outcome call).any Outcome.isShed)
    (hrejected : s'.pool.rejectedTotal = s.pool.rejectedTotal + (s'.charged x).toNat) : s'.Inv where
  serves := hserves
  follows y hy := by
    rw [hvalidations] at hy
    rcases List.mem_append.mp hy with hold | hnew
    · exact (h.follows y hold).later hlater
    · rw [List.mem_singleton.mp hnew]
      exact hx
  rejected := by
    rw [hvalidations, List.countP_append, h.countP_charged hshed, hrejected, h.rejected,
      List.countP_singleton]
    cases s'.charged x <;> rfl

/-- **A validation begins**: its native stage is handed over, or it ends
without a runner. -/
theorem Inv.execute (h : s.Inv) (call : ValidationCall) : (s.execute call).Inv := by
  unfold GovernedPool.execute
  simp only
  split
  · next schema wait hpre hwait =>
    split
    · exact h
    · next hlock =>
      obtain ⟨hserves, hlater, hwork, hrejected, hold⟩ := h.serves.submit (by simpa using hlock)
        call.async wait ((LocalValidator.validate call.payload schema).map .inl)
      refine h.join (x := { call with
          nativeCall := some s.pool.calls.length
          phase := .native schema s.pool.calls.length })
        ⟨hserves.pool, hserves.length_eq, hserves.genuine, hserves.reported⟩
        ⟨hlater.outcome, hlater.work⟩ rfl ⟨⟨fun c hc => ?_, fun c hc => by cases hc⟩, ?_⟩
        (fun c hc => congrArg _ (hold c hc)) hrejected
      · rw [← Option.some.inj hc]
        exact ⟨schema, hpre, hwork⟩
      · exact .native rfl rfl hpre (by rw [hwait]; exact Option.some_ne_none wait)
  · next hneither =>
    obtain ⟨hsame, hanswers⟩ := ValidateContractUseCase.evaluateWith_unasked
      (fun _ _ => .finished) (fun _ _ => .raised .typeError) hneither
    have hcharged := ValidateContractUseCase.conclude_isShed call.useCase call.contractId
      hanswers call.contractVersion
    rw [← ValidateContractUseCase.executeWith_eq_conclude] at hcharged
    refine h.join (x := { call with phase := .ended _ })
      ⟨h.serves.pool, h.serves.length_eq, h.serves.genuine, h.serves.reported⟩
      ⟨fun _ _ => id, fun _ _ => id⟩ rfl
      ⟨⟨fun c hc => (by cases hc), fun c hc => (by cases hc)⟩,
        .ended (fun c hc => by cases hc) (fun c hc => by cases hc) ?_⟩ (fun _ _ => rfl) ?_
    · rw [ValidateContractUseCase.executeWith_eq_conclude, hsame]
      exact (ValidateContractUseCase.executeWith_eq_conclude _ _ _ _).symm
    · exact congrArg (fun shed : Bool => s.pool.rejectedTotal + shed.toNat) hcharged.symm

omit [Host] in
/-- What a worker finishes was handed over, and no call comes in by itself. -/
theorem poolEvent_eq_some {e e' : Event StageValue} (h : s.poolEvent e = some e') :
    (∀ async timeoutMs, e' ≠ .call async timeoutMs) ∧
      ∀ i result, e' = .finish i result → s.work[i]? = some result := by
  cases e with
  | call async timeoutMs => cases h
  | finish i result =>
    obtain ⟨w, hw, rfl⟩ := Option.map_eq_some_iff.mp h
    refine ⟨fun _ _ hcall => (by cases hcall), fun j r hfin => ?_⟩
    obtain ⟨rfl, rfl⟩ := Event.finish.inj hfin
    exact hw
  | _ =>
    obtain rfl := Option.some.inj h
    exact ⟨fun _ _ hcall => (by cases hcall), fun _ _ hfin => by cases hfin⟩

theorem Inv.step (convert : Exc → Option Exc) (e : GovernedEvent) (s : GovernedPool) (h : s.Inv) :
    (step convert e s).Inv := by
  cases e with
  | execute call => exact h.execute call
  | resume i => exact h.resume i
  | pool e =>
    simp only [GovernedPool.step]
    split
    · exact h
    · next e' he' =>
      obtain ⟨hcall, hfinish⟩ := poolEvent_eq_some he'
      obtain ⟨hserves, hlater, hrejected, hshed⟩ := h.serves.poolStep convert
        hcall hfinish
      refine ⟨hserves, fun x hx => (h.follows x hx).later hlater, ?_⟩
      exact hrejected.trans (h.rejected.trans (h.countP_charged hshed).symm)

/-! ## What an enforced verdict stands on -/

/-- The verdict is that of functions the pool's workers ran to their end. -/
inductive Backed (s : GovernedPool) (x : Validation) : ValidationResult → Prop
  | native {schema : Json} {native : ValidationResult} {call : ℕ}
      (hpre : x.useCase.preflight x.payload x.contractId = some schema)
      (hnative : LocalValidator.validate x.payload schema = .ok native)
      (hcall : x.nativeCall = some call) (hran : s.Ran call (.inl native))
      (hnone : x.useCase.semanticValidator = none) :
      Backed s x { native with evaluationStage := some .native }
  | merged {schema : Json} {native : ValidationResult} {breaches : List BreachDetail}
      {call call' : ℕ} {validator : Json → Json → Except Exc (List BreachDetail)}
      (hpre : x.useCase.preflight x.payload x.contractId = some schema)
      (hnative : LocalValidator.validate x.payload schema = .ok native)
      (hcall : x.nativeCall = some call) (hran : s.Ran call (.inl native))
      (hvalidator : x.useCase.semanticValidator = some validator)
      (hsemantic : validator x.payload schema = .ok breaches)
      (hcall' : x.semanticCall = some call') (hran' : s.Ran call' (.inr breaches)) :
      Backed s x (ValidateContractUseCase.merge native breaches)

omit [Host] in
/-- A runner that finished was a call that came back with a value. -/
theorem runner_finished {stage : EvaluationStage} {wait : ℤ}
    (h : s.runner x stage wait = .finished) :
    ∃ call o, (match stage with
        | .native => x.nativeCall
        | .semantic => x.semanticCall) = some call ∧
      s.outcome call = some o ∧ o.stageRun = .finished := by
  simp only [runner] at h
  split at h
  · next o ho =>
    obtain ⟨call, hcall, hout⟩ := Option.bind_eq_some_iff.mp ho
    exact ⟨call, o, hcall, hout, h⟩
  · cases h

theorem native_ran (hserves : s.Serves) (hx : s.Attributed x) {wait : ℤ}
    (h : s.runner x .native wait = .finished) {schema : Json}
    (hpre : x.useCase.preflight x.payload x.contractId = some schema) {native : ValidationResult}
    (hnative : LocalValidator.validate x.payload schema = .ok native) :
    ∃ call, x.nativeCall = some call ∧ s.Ran call (.inl native) := by
  obtain ⟨call, o, hcall, ho, hfin⟩ := runner_finished h
  obtain ⟨value, -, hran, hvalue⟩ := hserves.ran ho hfin
  obtain ⟨schema', hpre', hw⟩ := hx.native call hcall
  obtain rfl := Option.some.inj (hpre.symm.trans hpre')
  rw [hw, hnative] at hvalue
  obtain rfl := Except.ok.inj (Option.some.inj hvalue)
  exact ⟨call, hcall, hran⟩

theorem semantic_ran (hserves : s.Serves) (hx : s.Attributed x) {wait : ℤ}
    (h : s.runner x .semantic wait = .finished) {schema : Json}
    (hpre : x.useCase.preflight x.payload x.contractId = some schema)
    {breaches : List BreachDetail}
    (hsemantic : x.useCase.semanticWork x.payload schema = .ok breaches) :
    ∃ call, x.semanticCall = some call ∧ s.Ran call (.inr breaches) := by
  obtain ⟨call, o, hcall, ho, hfin⟩ := runner_finished h
  obtain ⟨value, -, hran, hvalue⟩ := hserves.ran ho hfin
  obtain ⟨schema', hpre', hw⟩ := hx.semantic call hcall
  obtain rfl := Option.some.inj (hpre.symm.trans hpre')
  rw [hw, hsemantic] at hvalue
  obtain rfl := Except.ok.inj (Option.some.inj hvalue)
  exact ⟨call, hcall, hran⟩

theorem backed_of_enforced (hserves : s.Serves) (hx : s.Attributed x) {r : ValidationResult}
    (h : (x.useCase.evaluateWith (s.runner x) x.payload x.contractId {}).1 = .ok r)
    (hdeg : r.degraded = false) (hstage : r.evaluationStage ≠ none) : s.Backed x r := by
  have hdegraded : ∀ {reason stage}, r ≠ degradedResult reason stage := by
    rintro reason stage rfl
    cases hdeg
  rcases hpre : x.useCase.preflight x.payload x.contractId with _ | schema
  · exact absurd ((ValidateContractUseCase.evaluateWith_of_no_preflight (s.runner x)
      (s.runner x) hpre).2.2 r h) hstage
  · rw [ValidateContractUseCase.evaluateWith_of_preflight _ hpre,
      ValidateContractUseCase.runStages_eq] at h
    obtain ⟨-, hl, -⟩ := ValidateContractUseCase.runStageWith_result (u := x.useCase) (s.runner x)
      (LocalValidator.validate x.payload schema) x.useCase.budget .native
      x.useCase.nativeTimeoutMs (Trace.tick {})
    rcases hfirst : x.useCase.runStageWith (s.runner x) (LocalValidator.validate x.payload schema)
      x.useCase.budget .native x.useCase.nativeTimeoutMs (Trace.tick {}) with
      ⟨exc | degraded | native, t⟩
    · rw [hfirst] at h
      cases h
    · rw [hfirst] at h hl
      obtain rfl := Except.ok.inj h
      obtain ⟨reason, heq⟩ := hl _ rfl
      exact absurd heq hdegraded
    · rw [hfirst] at h
      obtain ⟨hnative, wait, hfin⟩ :=
        ValidateContractUseCase.runStageWith_value (congrArg Prod.fst hfirst)
      obtain ⟨call, hcall, hran⟩ := native_ran hserves hx hfin hpre hnative
      have hnd := (ValidateContractUseCase.localValidator_result hnative).1
      rcases ValidateContractUseCase.afterNative_verdict h hnd hdeg with
        ⟨hnone, rfl⟩ | ⟨validator, breaches, hvalidator, hsemantic, ⟨wait', hfin'⟩, rfl⟩
      · exact .native hpre hnative hcall hran hnone
      · have hwork : x.useCase.semanticWork x.payload schema = .ok breaches := by
          rw [ValidateContractUseCase.semanticWork, hvalidator]
          exact hsemantic
        obtain ⟨call', hcall', hran'⟩ := semantic_ran hserves hx hfin' hpre hwork
        exact .merged hpre hnative hcall hran hvalidator hsemantic hcall' hran'

/-- **Every validation over the pool is one of the workflow.** In whatever
order validations begin and go on, workers take and finish functions, waits
run out, callers are cancelled and the executor shuts down, a validation
that has ended is a run of the workflow under the runner the pool has been
to it, and its enforced verdict is that of functions the pool's workers ran
to their end. What the pool counts as rejected is what the validations
report as a shed load, or are about to. -/
theorem governed_run (convert : Exc → Option Exc) (maxWorkers maxPending : ℕ)
    (es : List GovernedEvent) :
    let s := run (step convert) es (new maxWorkers maxPending)
    (∀ x ∈ s.validations, ∀ out, x.phase = .ended out →
      out = x.useCase.executeWith (s.runner x) x.payload x.contractId x.contractVersion ∧
      ∀ r, out.1 = .ok r → r.degraded = false → r.evaluationStage ≠ none → s.Backed x r) ∧
    s.pool.rejectedTotal = s.validations.countP s.charged := by
  intro s
  have hinv : s.Inv := run_of_kept (Inv.step convert) (inv_new maxWorkers maxPending) es
  refine ⟨fun x hx out hphase => ?_, hinv.rejected⟩
  obtain ⟨hattributed, hstands⟩ := hinv.follows x hx
  rw [hphase] at hstands
  obtain _ | _ | ⟨-, -, hout⟩ := hstands
  refine ⟨hout, fun r hr hdeg hstage => ?_⟩
  refine backed_of_enforced hinv.serves hattributed ?_ hdeg hstage
  rw [hout, ValidateContractUseCase.executeWith_eq_conclude] at hr
  exact ValidateContractUseCase.conclude_ok hr

end GovernedPool

end Congine
